import Kernel.Memory.Paging.Leaves

/-!
# The walk over an arbitrary range

From each stop the walk goes on by the number of pages under the entry that ends its path.
-/

namespace Kernel.Memory

open Core Action List MappedRegion Nat

def MappedRegion.pairs (r : MappedRegion) : List (ℕ × ℕ) :=
  (List.range r.pageCount).map fun j =>
    (r.baseVirtAddr + j * pageSize, r.basePhysAddr + j * pageSize)

namespace PageTable

def call (g : MappedRegion → PhysicalMemoryAllocator → PhysicalMemoryAllocator)
    (r : MappedRegion) : PagingM Unit :=
  .modify fun s => { s with pma := g r s.pma }

def Passes (pt : PageTable) (s : TableMemory) (virtStart pageCount : ℕ) (rs : List MappedRegion)
    (tables' : ℕ → LevelTable) : Prop :=
  ∀ g, unmapRangeCustom (call g) virtStart pageCount pt s =
    (.ok (), ⟨tables', rs.foldl (fun pma r => g r pma) s.pma⟩)

def UnmapsExactly (pt : PageTable) (s : TableMemory) (virtStart pageCount : ℕ) : Prop :=
  ∃ rs tables', pt.Passes s virtStart pageCount rs tables' ∧
    (∀ k < pageCount, pt.frame ⟨tables', s.pma⟩ (pageOf virtStart + k) = none) ∧
    (∀ x < halfPages, ¬ (pageOf virtStart ≤ x ∧ x < pageOf virtStart + pageCount) →
      (pt.view ⟨tables', s.pma⟩ x).mapping x = (pt.view s x).mapping x) ∧
    (rs.flatMap pairs).Nodup ∧
    ∀ v a, (v, a) ∈ rs.flatMap pairs ↔
      ∃ k < pageCount, v = virtStart + k * pageSize ∧
        pt.frame s (pageOf virtStart + k) = some a

/-! ### Stops -/

def stops (pt : PageTable) (s : TableMemory) (last : ℕ) : (rounds w : ℕ) → List ℕ
  | 0, _ => []
  | rounds + 1, w =>
    if w < last then w :: stops pt s last rounds (w + span (pt.view s w).level) else []

def Under (pt : PageTable) (s : TableMemory) (w x : ℕ) : Prop :=
  x / span (pt.view s w).level = w / span (pt.view s w).level

instance (pt : PageTable) (s : TableMemory) (w x : ℕ) : Decidable (pt.Under s w x) :=
  inferInstanceAs (Decidable (_ = _))

structure WalkedExactly (pt : PageTable) (s : TableMemory) (first n : ℕ) : Prop where
  entered : ∀ w ∈ pt.stops s (first + n) n first, (pt.view s w).level ≠ 0
  whole : ∀ w ∈ pt.stops s (first + n) n first, pt.frame s w ≠ none →
    pt.Begins s w ∧ w + span (pt.view s w).level ≤ first + n
  reached : ∀ x, first ≤ x → x < first + n → pt.frame s x ≠ none →
    ∃ w ∈ pt.stops s (first + n) n first, pt.Under s w x

def stopRegion (pt : PageTable) (s : TableMemory) (virtStart w : ℕ) : Option MappedRegion :=
  ((pt.view s w).entry.baseAddress (pt.view s w).level).map fun base =>
    ⟨base, virtStart + (w - pageOf virtStart) * pageSize, span (pt.view s w).level⟩

variable {pt : PageTable} {s s' : TableMemory} {first last n rounds w x virtStart : ℕ}

lemma mem_stops_bounds (hw : w ∈ pt.stops s last rounds x) : x ≤ w ∧ w < last := by
  induction rounds generalizing x with
  | zero => cases hw
  | succ rounds ih =>
    rw [stops] at hw
    split_ifs at hw with hlt
    · rcases mem_cons.mp hw with rfl | hw
      · exact ⟨le_refl _, hlt⟩
      · have := ih hw
        omega
    · cases hw

lemma stops_sorted : (pt.stops s last rounds x).Pairwise
    (fun w w' => w + span (pt.view s w).level ≤ w') := by
  induction rounds generalizing x with
  | zero => exact .nil
  | succ rounds ih =>
    rw [stops]
    split_ifs with hlt
    · exact pairwise_cons.mpr ⟨fun w hw => (mem_stops_bounds hw).1, ih⟩
    · exact .nil

lemma stops_congr (hview : ∀ y, x ≤ y → y < last → pt.view s' y = pt.view s y) :
    pt.stops s' last rounds x = pt.stops s last rounds x := by
  induction rounds generalizing x with
  | zero => rfl
  | succ rounds ih =>
    rw [stops, stops]
    split_ifs with hlt
    · rw [hview x (le_refl _) hlt, ih fun y hy => hview y (by omega)]
    · rfl

lemma stopRegion_congr (virtStart : ℕ) (h : pt.view s' w = pt.view s w) :
    pt.stopRegion s' virtStart w = pt.stopRegion s virtStart w := by
  rw [stopRegion, stopRegion, h]

/-! ### One round -/

section round

variable {pageCount pageIndex : ℕ} (hvirt : virtStart < 2 ^ 64)
  (hend : pageOf virtStart + pageCount ≤ halfPages) (hlt : pageIndex < pageCount)
include hvirt hend hlt

lemma unmapPage_of_hole (processRegion : MappedRegion → PagingM Unit)
    (hlev : (pt.view s (pageOf virtStart + pageIndex)).level = 0) :
    unmapPage processRegion virtStart pt pageIndex s = (.error (.panic .assertion), s) := by
  obtain ⟨hpage, hv⟩ := pageAt_eq hvirt hend hlt
  have hlevs := areEntryLevels_entryLevels (virtStart + pageIndex * pageSize)
  rw [hv] at hlevs
  obtain ⟨⟨-, hidx, -⟩, -⟩ := hlevs
  have href : (s.tables pt.level0PhyAddr
      (digit (pageOf virtStart + pageIndex) 0)).tableRef 0 = none := by
    cases href : (s.tables pt.level0PhyAddr
        (digit (pageOf virtStart + pageIndex) 0)).tableRef 0 with
    | none => rfl
    | some next =>
      have hle := ((pt.tableAt_zero s _).next href).le_level (by decide)
      omega
  have hread : readEntry pt.level0PhyAddr
      (VirtualAddress.toParts (virtStart + pageIndex * pageSize)).lv0 s =
        (.ok (s.tables pt.level0PhyAddr (digit (pageOf virtStart + pageIndex) 0)), s) := by
    rw [← hidx]
    rfl
  have hche : checked (pageAt virtStart pageIndex) s =
      (.ok (virtStart + pageIndex * pageSize), s) := by
    rw [hpage]
    rfl
  rw [unmapPage, bind_of_ok hche, entryLevels, unmapEntry, bind_of_ok hread]
  dsimp only
  rw [href]
  rfl

lemma unmapPage_of_level (hlev : (pt.view s (pageOf virtStart + pageIndex)).level ≠ 0) :
    ∃ t, pt.TableAt s (pageOf virtStart + pageIndex)
        (pt.view s (pageOf virtStart + pageIndex)).level t ∧
      ∀ g pma, unmapPage (call g) virtStart pt pageIndex ⟨s.tables, pma⟩ =
        (.ok (span (pt.view s (pageOf virtStart + pageIndex)).level),
          putEntry ⟨s.tables, (pt.stopRegion s virtStart (pageOf virtStart + pageIndex)).elim pma
            (g · pma)⟩ t (digit (pageOf virtStart + pageIndex)
              (pt.view s (pageOf virtStart + pageIndex)).level) .invalid) := by
  obtain ⟨hpage, hv⟩ := pageAt_eq hvirt hend hlt
  have hlevs := areEntryLevels_entryLevels (virtStart + pageIndex * pageSize)
  rw [hv] at hlevs
  obtain ⟨lvl, t, -, hlvl, ht, href⟩ :=
    (pt.tableAt_zero s (pageOf virtStart + pageIndex)).exists_last (by decide)
  have hview := ht.view_eq hlvl href
  rw [hview]
  refine ⟨t, ht, fun g pma => ?_⟩
  have hrd : wp (unmapPage (call g) virtStart pt pageIndex)
      (fun size s' => size = span lvl ∧ s' = putEntry ⟨s.tables,
        (pt.stopRegion s virtStart (pageOf virtStart + pageIndex)).elim pma (g · pma)⟩ t
          (digit (pageOf virtStart + pageIndex) lvl) .invalid)
      (fun _ _ => False) ⟨s.tables, pma⟩ := by
    rw [unmapPage, wp_bind, wp_checked_of_eq hpage]
    refine wp_unmapEntry hlevs (pt.tableAt_zero _ _) (by decide) hlev ?_
    intro k t' e hk _ ht' he _
    have hsame : (⟨k, e⟩ : View) = ⟨lvl, s.tables t (digit (pageOf virtStart + pageIndex) lvl)⟩ :=
      hk.symm.trans hview
    cases hsame
    obtain rfl : t' = t := Option.some.inj (ht'.symm.trans ht)
    rw [processEntry, stopRegion, hview]
    dsimp only
    rw [Nat.add_sub_cancel_left]
    cases (s.tables t' (digit (pageOf virtStart + pageIndex) lvl)).baseAddress lvl with
    | none | some base => exact ⟨rfl, rfl⟩
  obtain ⟨size, s', hrun, rfl, rfl⟩ := exists_of_wp hrd
  exact hrun

end round

/-! ### The whole walk -/

structure Swept (pt : PageTable) (s : TableMemory) (ws : List ℕ) (s' : TableMemory) : Prop where
  cleared : ∀ w ∈ ws, ∀ x < halfPages, pt.Under s w x →
    pt.view s' x = ⟨(pt.view s w).level, .invalid⟩
  kept : ∀ x < halfPages, (∀ w ∈ ws, ¬ pt.Under s w x) → pt.view s' x = pt.view s x

lemma not_under_of_le (h : w + span (pt.view s w).level ≤ x) : ¬ pt.Under s w x := by
  intro hund
  have hdiv := Nat.div_le_div_right (c := span (pt.view s w).level) h
  rw [hund, Nat.add_div_right _ (span_pos _)] at hdiv
  omega

lemma Swept.cons {t : ℕ} {ws : List ℕ} (hwf : pt.WellFormed s) (hw : w < halfPages)
    (ht : pt.TableAt s w (pt.view s w).level t)
    (hws : ∀ w' ∈ ws, w + span (pt.view s w).level ≤ w' ∧ w' < halfPages)
    (h : pt.Swept (putEntry s t (digit w (pt.view s w).level) .invalid) ws s') :
    pt.Swept s (w :: ws) s' := by
  have hput : ∀ x < halfPages, pt.view (putEntry s t (digit w (pt.view s w).level) .invalid) x =
      if pt.Under s w x then ⟨(pt.view s w).level, .invalid⟩ else pt.view s x := fun x hx =>
    view_putEntry hwf ht (tableChild_invalid _) (view_level_lt pt s w) hw hx
  have hsame : ∀ w' ∈ ws, pt.view (putEntry s t (digit w (pt.view s w).level) .invalid) w' =
      pt.view s w' := fun w' hw' => by
    rw [hput w' (hws w' hw').2, if_neg (not_under_of_le (hws w' hw').1)]
  refine ⟨fun w' hw' x hx hund => ?_, fun x hx hnot => ?_⟩
  · rcases mem_cons.mp hw' with rfl | hw'
    · have hx' := hput x hx
      rw [if_pos hund] at hx'
      rw [h.kept x hx fun w'' hw'' hund' => ?_, hx']
      -- the entry of a later stop would be the cleared entry
      have hview := view_eq_of_span hx (hws w'' hw'').2 hund'
      rw [hx'] at hview
      rw [Under, ← hview] at hund'
      exact not_under_of_le (hws w'' hw'').1 (hund'.symm.trans hund)
    · rw [← hsame w' hw']
      exact h.cleared w' hw' x hx (by rwa [Under, hsame w' hw'])
  · rw [h.kept x hx fun w' hw' hund => ?_, hput x hx, if_neg (hnot w mem_cons_self)]
    rw [Under, hsame w' hw'] at hund
    exact hnot w' (mem_cons_of_mem _ hw') hund

lemma view_putEntry_of_le {t : ℕ} (hwf : pt.WellFormed s) (hw : w < halfPages)
    (ht : pt.TableAt s w (pt.view s w).level t) (hle : w + span (pt.view s w).level ≤ x)
    (hx : x < halfPages) :
    pt.view (putEntry s t (digit w (pt.view s w).level) .invalid) x = pt.view s x := by
  rw [view_putEntry hwf ht (tableChild_invalid _) (view_level_lt pt s w) hw hx]
  exact if_neg (not_under_of_le hle)

section run

variable {pageCount pageIndex : ℕ} (hvirt : virtStart < 2 ^ 64)
  (hend : pageOf virtStart + pageCount ≤ halfPages)
include hvirt hend

lemma unmapPages_of_hole (hwf : pt.WellFormed s)
    (hhole : ∃ w ∈ pt.stops s (pageOf virtStart + pageCount) rounds
      (pageOf virtStart + pageIndex), (pt.view s w).level = 0) :
    ∀ g pma, (unmapPages (call g) virtStart pageCount pt rounds pageIndex ⟨s.tables, pma⟩).1 =
      .error (.panic .assertion) := by
  induction rounds generalizing pageIndex s with
  | zero =>
    obtain ⟨w, hw, -⟩ := hhole
    cases hw
  | succ rounds ih =>
    intro g pma
    obtain ⟨w, hw, hzero⟩ := hhole
    rw [stops] at hw
    split_ifs at hw with hlast
    · have hlt : pageIndex < pageCount := by omega
      rw [unmapPages, if_pos hlt]
      by_cases hlev : (pt.view s (pageOf virtStart + pageIndex)).level = 0
      · have hrd := @unmapPage_of_hole pt ⟨s.tables, pma⟩ _ _ _ hvirt hend hlt (call g) hlev
        rw [bind_of_error hrd]
      · obtain ⟨t, ht, hrd⟩ := unmapPage_of_level hvirt hend hlt hlev
        rw [bind_of_ok (hrd g pma)]
        have hview : ∀ y, pageOf virtStart + pageIndex +
            span (pt.view s (pageOf virtStart + pageIndex)).level ≤ y →
            y < pageOf virtStart + pageCount → _ := fun y hle hy =>
          view_putEntry_of_le hwf (by omega) ht hle (hy.trans_le hend)
        rcases mem_cons.mp hw with rfl | hw
        · exact absurd hzero hlev
        · refine ih (hwf.putEntry ht (tableChild_invalid _)) ⟨w, ?_, ?_⟩ g _
          · rwa [← add_assoc, stops_congr hview]
          · rwa [hview w (mem_stops_bounds hw).1 (mem_stops_bounds hw).2]
    · cases hw

lemma unmapPages_of_levels (hwf : pt.WellFormed s) (hrds : pageCount - pageIndex ≤ rounds)
    (hlevs : ∀ w ∈ pt.stops s (pageOf virtStart + pageCount) rounds
      (pageOf virtStart + pageIndex), (pt.view s w).level ≠ 0) :
    ∃ tables', (∀ g pma,
        unmapPages (call g) virtStart pageCount pt rounds pageIndex ⟨s.tables, pma⟩ =
          (.ok (), ⟨tables', ((pt.stops s (pageOf virtStart + pageCount) rounds
            (pageOf virtStart + pageIndex)).filterMap (pt.stopRegion s virtStart)).foldl
              (fun pma r => g r pma) pma⟩)) ∧
      pt.Swept s (pt.stops s (pageOf virtStart + pageCount) rounds
        (pageOf virtStart + pageIndex)) ⟨tables', s.pma⟩ := by
  induction rounds generalizing pageIndex s with
  | zero =>
    refine ⟨s.tables, fun g pma => rfl, fun w hw => ?_, fun _ _ _ => rfl⟩
    cases hw
  | succ rounds ih =>
    rw [stops] at hlevs ⊢
    by_cases hlt : pageIndex < pageCount
    · rw [if_pos (by omega)] at hlevs ⊢
      obtain ⟨t, ht, hrd⟩ := unmapPage_of_level hvirt hend hlt
        (hlevs _ mem_cons_self)
      have hview : ∀ y, pageOf virtStart + pageIndex +
          span (pt.view s (pageOf virtStart + pageIndex)).level ≤ y →
          y < pageOf virtStart + pageCount → _ := fun y hle hy =>
        view_putEntry_of_le hwf (by omega) ht hle (hy.trans_le hend)
      have hpos := span_pos (pt.view s (pageOf virtStart + pageIndex)).level
      have hsto := @stops_congr pt s _ _ rounds _ hview
      have hregs := filterMap_congr fun w (hw : w ∈ pt.stops s _ rounds _) =>
        stopRegion_congr virtStart (hview w (mem_stops_bounds hw).1 (mem_stops_bounds hw).2)
      have hrds' : pageCount - (pageIndex +
          span (pt.view s (pageOf virtStart + pageIndex)).level) ≤ rounds := by omega
      obtain ⟨tables', hrun, hswp⟩ := ih (hwf.putEntry ht (tableChild_invalid _)) hrds' (by
        intro w hw
        rw [← add_assoc, hsto] at hw
        rw [hview w (mem_stops_bounds hw).1 (mem_stops_bounds hw).2]
        exact hlevs w (mem_cons_of_mem _ hw))
      rw [← add_assoc, hsto] at hrun hswp
      rw [hregs] at hrun
      refine ⟨tables', fun g pma => ?_, hswp.cons hwf (by omega) ht fun w hw => ?_⟩
      · rw [unmapPages, if_pos hlt, bind_of_ok (hrd g pma)]
        refine (hrun g _).trans ?_
        rw [filterMap_cons]
        cases pt.stopRegion s virtStart (pageOf virtStart + pageIndex) <;> rfl
      · have hbds := mem_stops_bounds hw
        exact ⟨hbds.1, by omega⟩
    · rw [if_neg (by omega)]
      refine ⟨s.tables, fun g pma => ?_, fun w hw => ?_, fun _ _ _ => rfl⟩
      · rw [unmapPages, if_neg hlt]
        rfl
      · cases hw

end run

/-! ### The regions of the calls -/

def record (r : MappedRegion) (pma : PhysicalMemoryAllocator) : PhysicalMemoryAllocator :=
  { pma with memoryStart := pair (pair r.basePhysAddr
      (pair r.baseVirtAddr r.pageCount)) pma.memoryStart + 1 }

lemma record_injective {r r' : MappedRegion} {pma pma' : PhysicalMemoryAllocator}
    (h : record r pma = record r' pma') : r = r' ∧ pma = pma' := by
  obtain ⟨base, virt, n⟩ := r
  obtain ⟨base', virt', n'⟩ := r'
  obtain ⟨bits, start⟩ := pma
  obtain ⟨bits', start'⟩ := pma'
  simp only [record, PhysicalMemoryAllocator.mk.injEq, add_right_cancel_iff, pair_eq_pair] at h
  obtain ⟨rfl, ⟨rfl, rfl, rfl⟩, rfl⟩ := h
  exact ⟨rfl, rfl⟩

lemma le_foldl_record (rs : List MappedRegion) (pma : PhysicalMemoryAllocator) :
    pma.memoryStart ≤ (rs.foldl (fun pma r => record r pma) pma).memoryStart := by
  induction rs generalizing pma with
  | nil => exact le_refl _
  | cons r rs ih =>
    have hle := right_le_pair (pair r.basePhysAddr (pair r.baseVirtAddr r.pageCount))
      pma.memoryStart
    exact (hle.trans (le_succ _)).trans (ih (record r pma))

lemma foldl_record_injective {rs rs' : List MappedRegion} {pma : PhysicalMemoryAllocator}
    (h : rs.foldl (fun pma r => record r pma) pma = rs'.foldl (fun pma r => record r pma) pma) :
    rs = rs' := by
  -- the last region is the outermost pair, so the lists are compared from behind
  have hlt : ∀ (rs : List MappedRegion) r, pma.memoryStart <
      ((rs ++ [r]).foldl (fun pma r => record r pma) pma).memoryStart := fun rs r => by
    rw [foldl_append, foldl_cons, foldl_nil]
    exact lt_succ_of_le ((le_foldl_record rs pma).trans (right_le_pair _ _))
  induction rs using List.reverseRecOn generalizing rs' with
  | nil =>
    induction rs' using List.reverseRecOn with
    | nil => rfl
    | append_singleton rs' r' _ => exact absurd (congrArg _ h) (hlt rs' r').ne
  | append_singleton rs r ih =>
    induction rs' using List.reverseRecOn with
    | nil => exact absurd (congrArg _ h) (hlt rs r).ne'
    | append_singleton rs' r' _ =>
      simp only [foldl_append, foldl_cons, foldl_nil] at h
      obtain ⟨rfl, hfold⟩ := record_injective h
      rw [ih hfold]

lemma Passes.unique {pageCount : ℕ} {rs rs' : List MappedRegion} {tables tables' : ℕ → LevelTable}
    (h : pt.Passes s virtStart pageCount rs tables)
    (h' : pt.Passes s virtStart pageCount rs' tables') : rs = rs' ∧ tables = tables' := by
  have hrun := (h record).symm.trans (h' record)
  simp only [Prod.mk.injEq, TableMemory.mk.injEq, true_and] at hrun
  exact ⟨foldl_record_injective hrun.2, hrun.1⟩

/-! ### Exact walks -/

def walkRegions (pt : PageTable) (s : TableMemory) (virtStart pageCount : ℕ) :
    List MappedRegion :=
  (pt.stops s (pageOf virtStart + pageCount) pageCount (pageOf virtStart)).filterMap
    (pt.stopRegion s virtStart)

lemma mem_pairs {r : MappedRegion} {v a : ℕ} : (v, a) ∈ r.pairs ↔
    ∃ j < r.pageCount, v = r.baseVirtAddr + j * pageSize ∧ a = r.basePhysAddr + j * pageSize := by
  simp only [pairs, mem_map, mem_range, Prod.mk.injEq, eq_comm]

section

variable {pageCount : ℕ}

lemma passes_walkRegions (hwf : pt.WellFormed s) (hvirt : virtStart < 2 ^ 64)
    (hend : pageOf virtStart + pageCount ≤ halfPages)
    (hent : ∀ w ∈ pt.stops s (pageOf virtStart + pageCount) pageCount (pageOf virtStart),
      (pt.view s w).level ≠ 0) :
    ∃ tables', pt.Passes s virtStart pageCount (pt.walkRegions s virtStart pageCount) tables' ∧
      pt.Swept s (pt.stops s (pageOf virtStart + pageCount) pageCount (pageOf virtStart))
        ⟨tables', s.pma⟩ := by
  obtain ⟨tables', hrun, hswp⟩ := @unmapPages_of_levels pt s pageCount virtStart pageCount 0
    hvirt hend hwf (sub_le _ _) hent
  exact ⟨tables', fun g => hrun g s.pma, hswp⟩

lemma nodup_walkRegions (pt : PageTable) (s : TableMemory) (virtStart pageCount : ℕ) :
    ((pt.walkRegions s virtStart pageCount).flatMap pairs).Nodup := by
  rw [nodup_flatMap]
  constructor
  · intro r _
    refine List.Nodup.map (fun i j hij => ?_) nodup_range
    simp only [Prod.mk.injEq, pageSize] at hij
    omega
  · have hsort : (pt.stops s (pageOf virtStart + pageCount) pageCount (pageOf virtStart)).Pairwise
          (fun w w' => pageOf virtStart ≤ w ∧ w + span (pt.view s w).level ≤ w') :=
      stops_sorted.imp_of_mem fun hw _ hle => ⟨(mem_stops_bounds hw).1, hle⟩
    refine hsort.filterMap _ fun w w' hle r hr r' hr' => ?_
    rintro ⟨v, a⟩ hv hv'
    obtain ⟨base, -, rfl⟩ := Option.map_eq_some_iff.mp hr
    obtain ⟨base', -, rfl⟩ := Option.map_eq_some_iff.mp hr'
    obtain ⟨j, hj, rfl, -⟩ := mem_pairs.mp hv
    obtain ⟨j', -, heq, -⟩ := mem_pairs.mp hv'
    simp only [pageSize] at heq hj
    omega

lemma IsLeaf.stopRegion_eq (h : pt.IsLeaf s w) :
    pt.stopRegion s virtStart w = some ⟨(pt.region s w).basePhysAddr,
      virtStart + (w - pageOf virtStart) * pageSize, span (pt.view s w).level⟩ := by
  obtain ⟨-, base, hbase, hfr⟩ := h.base_eq
  rw [stopRegion, hbase, region, hfr]
  rfl

lemma frame_ne_none_of_stopRegion {r : MappedRegion} (hlev : (pt.view s w).level ≠ 0)
    (h : pt.stopRegion s virtStart w = some r) : pt.frame s w ≠ none := by
  obtain ⟨base, hbase, -⟩ := Option.map_eq_some_iff.mp h
  rw [frame_eq_base hlev, hbase]
  exact nofun

lemma Swept.frame_eq_none {ws : List ℕ} (h : pt.Swept s ws s') (hw : w ∈ ws) (hx : x < halfPages)
    (hund : pt.Under s w x) : pt.frame s' x = none := by
  rw [frame, h.cleared w hw x hx hund, View.mapping_of_not_valid rfl]
  rfl

lemma Under.frame_ne_none (h : pt.Under s w x) (hw : w < halfPages) (hx : x < halfPages)
    (hmap : pt.frame s x ≠ none) : pt.frame s w ≠ none := by
  have hview : pt.view s x = pt.view s w := view_eq_of_span hx hw h
  obtain ⟨a, ha⟩ := Option.ne_none_iff_exists'.mp hmap
  have hlev := (valid_of_frame ha).2
  rw [frame_eq_base hlev, hview] at ha
  obtain ⟨base, hbase, -⟩ := Option.map_eq_some_iff.mp ha
  rw [frame_eq_base (hview ▸ hlev), hbase]
  exact nofun

namespace WalkedExactly

variable (h : pt.WalkedExactly s (pageOf virtStart) pageCount)
  (hend : pageOf virtStart + pageCount ≤ halfPages)
include h hend

lemma exists_offset (hw : w ∈ pt.stops s (pageOf virtStart + pageCount) pageCount
    (pageOf virtStart)) (hx : x < halfPages) (hund : pt.Under s w x)
    (hmap : pt.frame s x ≠ none) :
    pt.IsLeaf s w ∧ w + span (pt.view s w).level ≤ pageOf virtStart + pageCount ∧
      w ≤ x ∧ x < w + span (pt.view s w).level := by
  have hbds := mem_stops_bounds hw
  have hfr := hund.frame_ne_none (by omega) hx hmap
  obtain ⟨hbeg, hle⟩ := h.whole w hw hfr
  exact ⟨⟨hbeg, hfr⟩, hle, (div_span_eq_iff (begins_iff.mp hbeg) x).mp hund⟩

lemma inside (hswp : pt.Swept s (pt.stops s (pageOf virtStart + pageCount) pageCount
    (pageOf virtStart)) s') {k : ℕ} (hk : k < pageCount) :
    pt.frame s' (pageOf virtStart + k) = none := by
  have hx : pageOf virtStart + k < halfPages := by omega
  by_cases hund : ∃ w ∈ pt.stops s (pageOf virtStart + pageCount) pageCount
      (pageOf virtStart), pt.Under s w (pageOf virtStart + k)
  · obtain ⟨w, hw, hund⟩ := hund
    exact hswp.frame_eq_none hw hx hund
  · by_contra hmap
    rw [frame_eq_of_view_eq (hswp.kept _ hx fun w hw h => hund ⟨w, hw, h⟩)] at hmap
    exact hund (h.reached _ (le_add_right _ _) (by omega) hmap)

lemma outside (hswp : pt.Swept s (pt.stops s (pageOf virtStart + pageCount) pageCount
    (pageOf virtStart)) s') (hx : x < halfPages)
    (hout : ¬ (pageOf virtStart ≤ x ∧ x < pageOf virtStart + pageCount)) :
    (pt.view s' x).mapping x = (pt.view s x).mapping x := by
  by_cases hund : ∃ w ∈ pt.stops s (pageOf virtStart + pageCount) pageCount
      (pageOf virtStart), pt.Under s w x
  · obtain ⟨w, hw, hund⟩ := hund
    have hnone := hswp.frame_eq_none hw hx hund
    have hunm : pt.frame s x = none := by
      by_contra hmap
      have hbds := mem_stops_bounds hw
      obtain ⟨-, hle, hge, hlt⟩ := h.exists_offset hend hw hx hund hmap
      exact hout ⟨by omega, by omega⟩
    rw [Option.map_eq_none_iff.mp hnone, Option.map_eq_none_iff.mp hunm]
  · rw [hswp.kept x hx fun w hw h => hund ⟨w, hw, h⟩]

lemma mem_walkRegions {v a : ℕ} :
    (v, a) ∈ (pt.walkRegions s virtStart pageCount).flatMap pairs ↔
      ∃ k < pageCount, v = virtStart + k * pageSize ∧
        pt.frame s (pageOf virtStart + k) = some a := by
  simp only [walkRegions, mem_flatMap, mem_filterMap]
  constructor
  · rintro ⟨r, ⟨w, hw, hreg⟩, hv⟩
    have hbds := mem_stops_bounds hw
    obtain ⟨hbeg, hle⟩ := h.whole w hw (frame_ne_none_of_stopRegion (h.entered w hw) hreg)
    have hleaf : pt.IsLeaf s w :=
      ⟨hbeg, frame_ne_none_of_stopRegion (h.entered w hw) hreg⟩
    rw [hleaf.stopRegion_eq, Option.some.injEq] at hreg
    subst hreg
    obtain ⟨j, hj, rfl, rfl⟩ := mem_pairs.mp hv
    dsimp only at hj ⊢
    refine ⟨w - pageOf virtStart + j, by omega, ?_, ?_⟩
    · rw [add_mul, add_assoc]
    · rw [← hleaf.frame_add (by omega) hj, ← add_assoc, Nat.add_sub_cancel' hbds.1]
  · rintro ⟨k, hk, rfl, hfr⟩
    have hx : pageOf virtStart + k < halfPages := by omega
    obtain ⟨w, hw, hund⟩ := h.reached _ (le_add_right _ k) (by omega)
      (hfr ▸ Option.some_ne_none a)
    obtain ⟨hleaf, hle, hge, hlt⟩ := h.exists_offset hend hw hx hund
      (hfr ▸ Option.some_ne_none a)
    have hbds := mem_stops_bounds hw
    have hj : pageOf virtStart + k - w < span (pt.view s w).level := by omega
    refine ⟨_, ⟨w, hw, hleaf.stopRegion_eq⟩, mem_pairs.mpr ⟨pageOf virtStart + k - w, hj, ?_⟩⟩
    have hadd := hleaf.frame_add (by omega) hj
    rw [Nat.add_sub_cancel' hge, hfr, Option.some.injEq] at hadd
    refine ⟨?_, hadd⟩
    simp only [pageSize]
    omega

end WalkedExactly

lemma whole_of_mem_iff (hmem : ∀ v a,
      (v, a) ∈ (pt.walkRegions s virtStart pageCount).flatMap pairs ↔
        ∃ k < pageCount, v = virtStart + k * pageSize ∧ pt.frame s (pageOf virtStart + k) = some a)
    (hw : w ∈ pt.stops s (pageOf virtStart + pageCount) pageCount (pageOf virtStart))
    (hlev : (pt.view s w).level ≠ 0) (hmap : pt.frame s w ≠ none) :
    pt.Begins s w ∧ w + span (pt.view s w).level ≤ pageOf virtStart + pageCount := by
  have hbds := mem_stops_bounds hw
  have hpos := span_pos (pt.view s w).level
  obtain ⟨a, ha⟩ := Option.ne_none_iff_exists'.mp hmap
  have hfr := ha
  rw [frame_eq_base hlev] at ha
  obtain ⟨base, hbase, rfl⟩ := Option.map_eq_some_iff.mp ha
  have hreg : pt.stopRegion s virtStart w = some ⟨base,
      virtStart + (w - pageOf virtStart) * pageSize, span (pt.view s w).level⟩ := by
    rw [stopRegion, hbase]
    rfl
  have hpage : ∀ j < span (pt.view s w).level, ∃ k < pageCount,
      virtStart + (w - pageOf virtStart) * pageSize + j * pageSize = virtStart + k * pageSize ∧
        pt.frame s (pageOf virtStart + k) = some (base + j * pageSize) := fun j hj =>
    (hmem _ _).mp (mem_flatMap.mpr
      ⟨_, mem_filterMap.mpr ⟨w, hw, hreg⟩, mem_pairs.mpr ⟨j, hj, rfl, rfl⟩⟩)
  constructor
  · obtain ⟨k, -, hk, hfst⟩ := hpage 0 hpos
    obtain rfl : k = w - pageOf virtStart := by
      simp only [pageSize] at hk
      omega
    rw [Nat.add_sub_cancel' hbds.1, hfr, Option.some.injEq] at hfst
    simp only [pageSize] at hfst
    rw [Begins]
    omega
  · obtain ⟨k, hlt, hk, -⟩ := hpage (span (pt.view s w).level - 1) (by omega)
    simp only [pageSize] at hk
    omega

/-! ### Unions of entries -/

lemma Tiled.stops_spec (h : pt.Tiled s w n) (hend : w + n ≤ halfPages) (hrds : n ≤ rounds) :
    (∀ w' ∈ pt.stops s (w + n) rounds w, (pt.view s w').level ≠ 0 ∧ pt.Begins s w' ∧
      w' + span (pt.view s w').level ≤ w + n) ∧
    ∀ x, w ≤ x → x < w + n → ∃ w' ∈ pt.stops s (w + n) rounds w, pt.Under s w' x := by
  induction rounds generalizing w n with
  | zero =>
    obtain rfl : n = 0 := by omega
    exact ⟨nofun, fun x hge hlt => by omega⟩
  | succ rounds ih =>
    rw [stops]
    split_ifs with hlt
    · have hn : 0 < n := by omega
      have hspan := h.span_le hn
      have hpos := span_pos (pt.view s w).level
      have hbeg : pt.Begins s w := begins_iff.mpr (h.chunk_first hn)
      obtain ⟨hwho, hrea⟩ := ih (h.drop hn hend) (by omega) (by omega)
      rw [show w + span (pt.view s w).level + (n - span (pt.view s w).level) = w + n by omega]
        at hwho hrea
      refine ⟨fun w' hw' => ?_, fun x hge hltx => ?_⟩
      · rcases mem_cons.mp hw' with rfl | hw'
        · exact ⟨(h w' (le_refl _) hlt).1, hbeg, by omega⟩
        · exact hwho w' hw'
      · by_cases hx : x < w + span (pt.view s w).level
        · exact ⟨w, mem_cons_self, hbeg.div_eq hge hx⟩
        · obtain ⟨w', hw', hund⟩ := hrea x (by omega) hltx
          exact ⟨w', mem_cons_of_mem _ hw', hund⟩
    · exact ⟨nofun, fun x hge hltx => by omega⟩

lemma Tiled.walkedExactly (h : pt.Tiled s first n) (hend : first + n ≤ halfPages) :
    pt.WalkedExactly s first n := by
  obtain ⟨hsto, hrea⟩ := h.stops_spec hend (le_refl n)
  exact ⟨fun w hw => (hsto w hw).1, fun w hw _ => (hsto w hw).2, fun x hge hlt _ => hrea x hge hlt⟩

def Concatenates : List MappedRegion → (phy virt n : ℕ) → Prop
  | [], _, _, n => n = 0
  | r :: rs, phy, virt, n => r.basePhysAddr = phy ∧ r.baseVirtAddr = virt ∧ r.pageCount ≤ n ∧
    Concatenates rs (phy + r.pageCount * pageSize) (virt + r.pageCount * pageSize)
      (n - r.pageCount)

lemma Tiled.concatenates {phyStart : ℕ} (h : pt.Tiled s w n) (hend : w + n ≤ halfPages)
    (hrds : n ≤ rounds) (hge : pageOf virtStart ≤ w)
    (hfr : ∀ x, w ≤ x → x < w + n →
      pt.frame s x = some (phyStart + (x - pageOf virtStart) * pageSize)) :
    Concatenates ((pt.stops s (w + n) rounds w).filterMap (pt.stopRegion s virtStart))
      (phyStart + (w - pageOf virtStart) * pageSize)
      (virtStart + (w - pageOf virtStart) * pageSize) n := by
  induction rounds generalizing w n with
  | zero => exact le_zero.mp hrds
  | succ rounds ih =>
    rw [stops]
    split_ifs with hlt
    · have hn : 0 < n := by omega
      have hspan := h.span_le hn
      have hpos := span_pos (pt.view s w).level
      have hleaf : pt.IsLeaf s w :=
        ⟨begins_iff.mpr (h.chunk_first hn), hfr w (le_refl _) hlt ▸ Option.some_ne_none _⟩
      have hrest := ih (h.drop hn hend) (by omega) (by omega) (by omega)
        fun x hle hltx => hfr x (by omega) (by omega)
      rw [show w + span (pt.view s w).level + (n - span (pt.view s w).level) = w + n by omega,
        show w + span (pt.view s w).level - pageOf virtStart =
          w - pageOf virtStart + span (pt.view s w).level by omega, add_mul, ← add_assoc,
        ← add_assoc] at hrest
      rw [filterMap_cons, hleaf.stopRegion_eq]
      refine ⟨?_, rfl, hspan, hrest⟩
      rw [region, hfr w (le_refl _) hlt]
      rfl
    · exact (by omega : n = 0)

/-! ### Exact unmapping -/

/-- `unmap_range_custom` clears the range and nothing else, and calls back for exactly what was
mapped in it, if and only if the walk meets the entries of the range as they are. -/
theorem unmapsExactly_iff (hwf : pt.WellFormed s) (hvirt : virtStart < 2 ^ 64)
    (hend : pageOf virtStart + pageCount ≤ halfPages) :
    pt.UnmapsExactly s virtStart pageCount ↔
      pt.WalkedExactly s (pageOf virtStart) pageCount := by
  constructor
  · rintro ⟨rs, tables', hpas, hins, -, -, hmem⟩
    have hent : ∀ w ∈ pt.stops s (pageOf virtStart + pageCount) pageCount (pageOf virtStart),
        (pt.view s w).level ≠ 0 := by
      intro w hw hlev
      have hpan := @unmapPages_of_hole pt s pageCount virtStart pageCount 0 hvirt hend hwf
        ⟨w, hw, hlev⟩ (fun _ pma => pma) s.pma
      have hrun := congrArg Prod.fst (hpas fun _ pma => pma)
      exact absurd (hpan.symm.trans hrun) (by simp)
    obtain ⟨tables'', hpas', hswp⟩ := passes_walkRegions hwf hvirt hend hent
    obtain ⟨rfl, rfl⟩ := hpas.unique hpas'
    refine ⟨hent, fun w hw hmap => whole_of_mem_iff hmem hw (hent w hw) hmap,
      fun x hge hlt hmap => ?_⟩
    · by_contra hpass
      have hx : x < halfPages := by omega
      have hview := hswp.kept x hx fun w hw h => hpass ⟨w, hw, h⟩
      have hnone := hins (x - pageOf virtStart) (by omega)
      rw [Nat.add_sub_cancel' hge, frame_eq_of_view_eq hview] at hnone
      exact hmap hnone
  · intro h
    obtain ⟨tables', hpas, hswp⟩ := passes_walkRegions hwf hvirt hend h.entered
    exact ⟨_, tables', hpas, fun k hk => h.inside hend hswp hk,
      fun x hx hout => h.outside hend hswp hx hout, pt.nodup_walkRegions s virtStart pageCount,
      fun v a => h.mem_walkRegions hend⟩

lemma sampleBlock_overwritten :
    sampleTable.Overwritten sampleMemory (remaining 0x20_0000 0 512 0) {} sampleBlock := by
  have hrng : InRange 0x20_0000 0 512 := ⟨by decide, by decide, by decide, by decide⟩
  have hwp := @wp_mapRange sampleTable sampleMemory _ _ _ {} sampleMemory_ok.1 sampleMemory_ok.2
    hrng (by decide) (by decide)
  exact wp_ok hwp sampleBlock_run

/-- The whole block is unmapped. -/
theorem unmapsExactly_whole_block : sampleTable.UnmapsExactly sampleBlock 0 512 :=
  (unmapsExactly_iff sampleBlock_overwritten.wellFormed (by decide) (by decide)).mpr
    (sampleBlock_overwritten.tiled.walkedExactly (by decide))

/-- Of a block that begins in front of the range all pages are unmapped, and in a table without
entries the method panics. -/
theorem unmapRange_clears_more :
    (sampleTable.WellFormed sampleBlock ∧ sampleTable.frame sampleBlock 0 = some 0x20_0000 ∧
      (unmapRange 0x1000 1 sampleTable sampleBlock).1 = .ok () ∧
      sampleTable.frame (unmapRange 0x1000 1 sampleTable sampleBlock).2 0 = none) ∧
    sampleTable.WellFormed sampleMemory ∧
      (unmapRange 0 1 sampleTable sampleMemory).1 = .error (.panic .assertion) := by
  refine ⟨⟨sampleBlock_overwritten.wellFormed, ?_, ?_, ?_⟩, sampleMemory_ok.1, ?_⟩ <;>
    decide +kernel

end

section

variable {phyStart pageCount : ℕ} {options : PageTableEntryOptions} {overwrite : Bool}
  {s₁ : TableMemory}

/-- Unmapping a range that `map_range` has mapped brings every page back to where it was, and the
callback gets the physical range in consecutive regions. -/
theorem unmap_mapRange (hwf : pt.WellFormed s) (hsup : pt.Supplied s)
    (hrange : InRange phyStart virtStart pageCount)
    (hunmapped : ∀ k < pageCount, pt.frame s (pageOf virtStart + k) = none)
    (hrun : mapRange phyStart virtStart pageCount options pt overwrite s = (.ok (), s₁)) :
    ∃ rs tables', pt.Passes s₁ virtStart pageCount rs tables' ∧
      pt.addressSpace ⟨tables', s₁.pma⟩ = pt.addressSpace s ∧
      Concatenates rs phyStart virtStart pageCount := by
  obtain ⟨hal, htag, rfl⟩ := of_mapRange_ok hrun
  have hover := wp_ok (wp_mapRange hwf hsup hrange hal htag) hrun
  have htil : pt.Tiled s₁ (pageOf virtStart) pageCount := hover.tiled
  have hexa := htil.walkedExactly hrange.virt_end
  obtain ⟨tables', hpas, hswp⟩ := passes_walkRegions hover.wellFormed hrange.virt_lt
    hrange.virt_end hexa.entered
  refine ⟨_, tables', hpas, funext fun x => ?_, ?_⟩
  · rw [addressSpace, addressSpace]
    by_cases hin : pageOf virtStart ≤ x.val ∧ x.val < pageOf virtStart + pageCount
    · obtain ⟨k, hk⟩ := Nat.exists_eq_add_of_le hin.1
      rw [hk]
      have haft := hexa.inside hrange.virt_end hswp (show k < pageCount by omega)
      have hbef := hunmapped k (by omega)
      rw [Option.map_eq_none_iff.mp haft, Option.map_eq_none_iff.mp hbef]
    · rw [hexa.outside hrange.virt_end hswp x.isLt hin]
      exact (hover.outside x x.isLt hin).mapping_eq x
  · have hfr : ∀ x, pageOf virtStart ≤ x → x < pageOf virtStart + pageCount →
        pt.frame s₁ x = some (phyStart + (x - pageOf virtStart) * pageSize) := fun x hge hlt => by
      have hx := hover.frame_of_inRange hrange (show x - pageOf virtStart < pageCount by omega)
      rwa [Nat.add_sub_cancel' hge] at hx
    have hall := htil.concatenates hrange.virt_end (le_refl _) (le_refl _) hfr
    rwa [Nat.sub_self, zero_mul, add_zero, add_zero] at hall

/-- A block is mapped and unmapped. -/
theorem unmap_mapRange_block :
    ∃ rs tables', sampleTable.Passes sampleBlock 0 512 rs tables' ∧
      sampleTable.addressSpace ⟨tables', sampleBlock.pma⟩ =
        sampleTable.addressSpace sampleMemory ∧
      Concatenates rs 0x20_0000 0 512 := by
  have hrng : InRange 0x20_0000 0 512 := ⟨by decide, by decide, by decide, by decide⟩
  refine unmap_mapRange sampleMemory_ok.1 sampleMemory_ok.2 hrng (fun k _ => ?_) sampleBlock_run
  rw [frame, view_of_empty fun _ => rfl, View.mapping_of_not_valid rfl]
  rfl

end

end PageTable

end Kernel.Memory
