import Kernel.Memory.Paging.Frame

/-!
# Unmapping a range

`unmap_range_custom` follows the tables down to the entry that ends the path of a page, passes its
region to a callback and clears it.
-/

namespace Kernel.Memory

open Core Action Nat

structure MappedRegion where
  basePhysAddr : ℕ
  baseVirtAddr : ℕ
  pageCount : ℕ
  deriving DecidableEq, Repr

namespace PageTable

structure EntryLevel where
  lvl : ℕ
  i : ℕ
  blockSize : ℕ

def entryLevels (p : VirtualAddress.Parts) : List EntryLevel :=
  [⟨0, p.lv0, 0⟩, ⟨1, p.lv1, 512 * 512⟩, ⟨2, p.lv2, 512⟩, ⟨3, p.lv3, 1⟩]

section

variable (processRegion : MappedRegion → PagingM Unit) (virtStart pageCount : ℕ) (pt : PageTable)

def processEntry (pageAddr : ℕ) (level : EntryLevel) (entry : PageTableEntry) : PagingM Unit :=
  match entry.baseAddress level.lvl with
  | some basePhysAddr => processRegion ⟨basePhysAddr, pageAddr, level.blockSize⟩
  | none => pure ()

/-- The loop over the levels that are left, from a table on. Returns by how much `page_index`
grows; the loop always breaks, at the latest on level 3, which has no tables below it. -/
def unmapEntry (pageAddr : ℕ) : List EntryLevel → ℕ → PagingM ℕ
  | [], _ => pure 0
  | level :: rest, table => do
    let entry ← readEntry table level.i
    match entry.tableRef level.lvl with
    | some existingTable => unmapEntry pageAddr rest existingTable
    | none => do
      checked (assert (level.blockSize ≠ 0))
      processEntry processRegion pageAddr level entry
      writeEntry table level.i .invalid
      pure level.blockSize

def unmapPage (pageIndex : ℕ) : PagingM ℕ := do
  let pageAddr ← checked (pageAt virtStart pageIndex)
  unmapEntry processRegion pageAddr (entryLevels (VirtualAddress.toParts pageAddr))
    pt.level0PhyAddr

def unmapPages : (rounds pageIndex : ℕ) → PagingM Unit
  | 0, _ => pure ()
  | rounds + 1, pageIndex =>
    if pageIndex < pageCount then do
      let n ← unmapPage processRegion virtStart pt pageIndex
      unmapPages rounds (pageIndex + n)
    else pure ()

def unmapRangeCustom : PagingM Unit :=
  unmapPages processRegion virtStart pageCount pt pageCount 0

def unmapRange : PagingM Unit := unmapRangeCustom (fun _ => pure ()) virtStart pageCount pt

end

/-! ### One round -/

def AreEntryLevels (w : ℕ) : ℕ → List EntryLevel → Prop
  | lvl, [] => lvl = 4
  | lvl, level :: rest =>
    (level.lvl = lvl ∧ Fin.ofNat 512 level.i = digit w lvl ∧
      level.blockSize = if lvl = 0 then 0 else span lvl) ∧ AreEntryLevels w (lvl + 1) rest

lemma areEntryLevels_entryLevels (v : ℕ) :
    AreEntryLevels (pageOf v) 0 (entryLevels (VirtualAddress.toParts v)) := by
  obtain ⟨h0, h1, h2, h3⟩ := ofNat_toParts v
  exact ⟨⟨rfl, h0, rfl⟩, ⟨rfl, h1, rfl⟩, ⟨rfl, h2, rfl⟩, ⟨rfl, h3, rfl⟩, rfl⟩

variable {pt : PageTable} {s s₁ s' : TableMemory} {w lvl table v : ℕ}
  {processRegion : MappedRegion → PagingM Unit} {E : PagingError → TableMemory → Prop}

lemma wp_unmapEntry {levels : List EntryLevel} {Q : ℕ → TableMemory → Prop}
    (hlevs : AreEntryLevels w lvl levels) (ht : pt.TableAt s w lvl table) (hlvl : lvl < 4)
    (hroot : (pt.view s w).level ≠ 0)
    (hent : ∀ k t e, pt.view s w = ⟨k, e⟩ → k < 4 → pt.TableAt s w k t →
      s.tables t (digit w k) = e → e.tableRef k = none →
      wp (processEntry processRegion v ⟨k, 0, span k⟩ e)
        (fun _ s₁ => Q (span k) (putEntry s₁ t (digit w k) .invalid)) E s) :
    wp (unmapEntry processRegion v levels table) Q E s := by
  induction levels generalizing lvl table with
  | nil =>
    obtain rfl : lvl = 4 := hlevs
    exact absurd hlvl (by decide)
  | cons level rest ih =>
    obtain ⟨⟨hlvl_eq, hidx, hsize⟩, hrest⟩ := hlevs
    rw [unmapEntry, wp_bind, wp_readEntry, hidx, hlvl_eq]
    cases href : (s.tables table (digit w lvl)).tableRef lvl with
    | some next =>
      have hlt : lvl + 1 < 4 := by
        by_contra hge
        obtain rfl : lvl = 3 := by omega
        cases href
      exact ih hrest (ht.next href) hlt
    | none =>
      have hview := ht.view_eq hlvl href
      have hne : lvl ≠ 0 := by
        rw [hview] at hroot
        exact hroot
      rw [if_neg hne] at hsize
      have hpos : level.blockSize ≠ 0 := by
        rw [hsize]
        exact (span_pos lvl).ne'
      rw [wp_bind, wp_checked_of_eq (a := ()) (assert_eq_ok.mpr hpos), wp_bind]
      have hcall := hent lvl table _ hview hlvl ht rfl href
      have hsame : processEntry processRegion v level (s.tables table (digit w lvl)) =
          processEntry processRegion v ⟨lvl, 0, span lvl⟩ (s.tables table (digit w lvl)) := by
        rw [processEntry, processEntry, hlvl_eq, hsize]
      rw [hsame]
      refine wp_mono hcall (fun _ s₁ h => ?_) fun _ _ h => h
      rw [wp_bind, wp_writeEntry, hidx, wp_pure, hsize]
      exact h

/-! ### Failures -/

def OnlyPanics {α : Type} (x : PagingM α) : Prop :=
  ∀ s, wp x (fun _ _ => True) (fun e _ => ∃ p, e = .panic p) s

section panics

variable (hpro : ∀ region, OnlyPanics (processRegion region))
include hpro

lemma onlyPanics_unmapEntry (pageAddr : ℕ) (levels : List EntryLevel) (table : ℕ) :
    OnlyPanics (unmapEntry processRegion pageAddr levels table) := by
  induction levels generalizing table with
  | nil => exact fun s => trivial
  | cons level rest ih =>
    intro s
    rw [unmapEntry, wp_bind, wp_readEntry]
    cases (s.tables table (Fin.ofNat 512 level.i)).tableRef level.lvl with
    | some next => exact ih next s
    | none =>
      rw [wp_bind]
      refine wp_lift (fun _ _ => ?_) fun p _ => ⟨p, rfl⟩
      rw [wp_bind, processEntry]
      cases (s.tables table (Fin.ofNat 512 level.i)).baseAddress level.lvl with
      | some base => exact wp_mono (hpro _ s) (fun _ _ _ => trivial) fun _ _ h => h
      | none => trivial

lemma onlyPanics_unmapRangeCustom (virtStart pageCount : ℕ) (pt : PageTable) :
    OnlyPanics (unmapRangeCustom processRegion virtStart pageCount pt) := by
  have hloop : ∀ rounds pageIndex,
      OnlyPanics (unmapPages processRegion virtStart pageCount pt rounds pageIndex) := by
    intro rounds
    induction rounds with
    | zero => exact fun _ _ => trivial
    | succ rounds ih =>
      intro pageIndex s
      rw [unmapPages, wp_ite]
      refine ⟨fun _ => ?_, fun _ => trivial⟩
      rw [wp_bind, unmapPage, wp_bind]
      refine wp_lift (fun pageAddr _ => ?_) fun p _ => ⟨p, rfl⟩
      exact wp_mono (onlyPanics_unmapEntry hpro pageAddr _ _ s) (fun n s' _ => ih _ s')
        fun _ _ h => h
  exact hloop pageCount 0

end panics

lemma onlyPanics_unmapRange (virtStart pageCount : ℕ) (pt : PageTable) :
    OnlyPanics (unmapRange virtStart pageCount pt) := by
  have hnot : ∀ region : MappedRegion, OnlyPanics ((fun _ => pure () : MappedRegion →
      PagingM Unit) region) := fun _ _ => trivial
  exact onlyPanics_unmapRangeCustom hnot virtStart pageCount pt

/-! ### The loop -/

def Tiled (pt : PageTable) (s : TableMemory) (first n : ℕ) : Prop :=
  ∀ x, first ≤ x → x < first + n → (pt.view s x).level ≠ 0 ∧
    first ≤ chunk (pt.view s x).level x ∧
    chunk (pt.view s x).level x + span (pt.view s x).level ≤ first + n

lemma lt_chunk_add_span (lvl x : ℕ) : x < chunk lvl x + span lvl := by
  have := div_add_mod' x (span lvl)
  have := mod_lt x (span_pos lvl)
  rw [chunk]
  omega

lemma div_chunk (lvl x : ℕ) : chunk lvl x / span lvl = x / span lvl := by
  rw [chunk, Nat.mul_div_cancel _ (span_pos lvl)]

lemma div_span_eq_iff {lvl w : ℕ} (hw : chunk lvl w = w) (x : ℕ) :
    x / span lvl = w / span lvl ↔ w ≤ x ∧ x < w + span lvl := by
  have hmul : w / span lvl * span lvl = w := hw
  constructor
  · intro hx
    have h₁ := chunk_le lvl x
    have h₂ := lt_chunk_add_span lvl x
    rw [chunk, hx, hmul] at h₁ h₂
    exact ⟨h₁, h₂⟩
  · rintro ⟨h₁, h₂⟩
    refine Nat.div_eq_of_lt_le ?_ ?_
    · rwa [hmul]
    · rwa [Nat.add_one_mul, hmul]

variable {first n : ℕ}

lemma Tiled.chunk_first (h : pt.Tiled s first n) (hn : 0 < n) :
    chunk (pt.view s first).level first = first :=
  le_antisymm (chunk_le _ _) (h first (le_refl _) (by omega)).2.1

lemma Tiled.span_le (h : pt.Tiled s first n) (hn : 0 < n) :
    span (pt.view s first).level ≤ n := by
  have hend := (h first (le_refl _) (by omega)).2.2
  rw [h.chunk_first hn] at hend
  omega

lemma Tiled.drop (h : pt.Tiled s first n) (hn : 0 < n)
    (hend : first + n ≤ halfPages) :
    pt.Tiled s (first + span (pt.view s first).level) (n - span (pt.view s first).level) := by
  have hspan := h.span_le hn
  have hfst := h.chunk_first hn
  intro x hge hlt
  obtain ⟨hne, hle, htop⟩ := h x (by omega) (by omega)
  refine ⟨hne, ?_, by omega⟩
  -- An entry that begins under the first entry is the first entry.
  by_contra hin
  have hchk := chunk_le (pt.view s x).level x
  have hund := (div_span_eq_iff hfst (chunk (pt.view s x).level x)).mpr ⟨hle, by omega⟩
  have hview : pt.view s x = pt.view s first := by
    rw [← view_eq_of_span (by omega) (by omega) hund]
    exact (view_eq_of_span (by omega) (by omega) (div_chunk _ _)).symm
  rw [hview, div_chunk, div_span_eq_iff hfst] at hund
  omega

structure Unmapped (pt : PageTable) (s : TableMemory) (first n : ℕ) (s' : TableMemory) :
    Prop where
  wellFormed : pt.WellFormed s'
  inside : ∀ x, first ≤ x → x < first + n → pt.view s' x = ⟨(pt.view s x).level, .invalid⟩
  outside : ∀ x < halfPages, ¬ (first ≤ x ∧ x < first + n) → pt.view s' x = pt.view s x
  isTable_iff : ∀ a, pt.IsTable s' a ↔ pt.IsTable s a
  tables_eq : ∀ a, ¬ pt.IsTable s a → s'.tables a = s.tables a

lemma Unmapped.refl (hwf : pt.WellFormed s) (first : ℕ) : pt.Unmapped s first 0 s where
  wellFormed := hwf
  inside x h₁ h₂ := by omega
  outside _ _ _ := rfl
  isTable_iff _ := Iff.rfl
  tables_eq _ _ := rfl

lemma Unmapped.of_tables_eq (h : pt.Unmapped s first n s₁)
    (htabs : s'.tables = s₁.tables) : pt.Unmapped s first n s' := by
  obtain ⟨tables, pma⟩ := s'
  obtain rfl : tables = s₁.tables := htabs
  exact { h with }

lemma Unmapped.putEntry {k t : ℕ} {e : PageTableEntry}
    (h : pt.Unmapped s first k s₁) (hend : first + k + span lvl ≤ halfPages)
    (hview : pt.view s (first + k) = ⟨lvl, e⟩) (hlvl : lvl < 4)
    (hchk : chunk lvl (first + k) = first + k) (ht : pt.TableAt s₁ (first + k) lvl t)
    (href : (s₁.tables t (digit (first + k) lvl)).tableRef lvl = none) :
    pt.Unmapped s first (k + span lvl)
      (putEntry s₁ t (digit (first + k) lvl) .invalid) := by
  have hpos := span_pos lvl
  have hw : first + k < halfPages := by omega
  have hput := fun x (hx : x < halfPages) => view_putEntry (e := .invalid) h.wellFormed ht
    (tableChild_invalid lvl) hlvl hw hx
  have hund := div_span_eq_iff hchk
  refine ⟨h.wellFormed.putEntry ht (tableChild_invalid lvl), fun x h₁ h₂ => ?_, fun x hx hout => ?_,
    fun a => ?_, fun a ha => ?_⟩
  · have hx : x < halfPages := by omega
    rw [hput x hx]
    split_ifs with hspan
    · have hsame : pt.view s x = pt.view s (first + k) :=
        view_eq_of_span hx hw (by rw [hview]; exact hspan)
      rw [hsame, hview]
    · rw [hund] at hspan
      exact h.inside x h₁ (by omega)
  · rw [hput x hx, if_neg (by rw [hund]; omega)]
    exact h.outside x hx (by omega)
  · rw [isTable_putEntry h.wellFormed ht href (tableChild_invalid lvl), h.isTable_iff]
  · have hne : a ≠ t := by
      rintro rfl
      exact ha ((h.isTable_iff _).mp ht.isTable)
    rw [putEntry_tables_of_ne hne]
    exact h.tables_eq a ha

lemma pageAt_eq {virtStart pageCount pageIndex : ℕ} (hvirt : virtStart < 2 ^ 64)
    (hend : pageOf virtStart + pageCount ≤ halfPages) (hlt : pageIndex < pageCount) :
    pageAt virtStart pageIndex = .ok (virtStart + pageIndex * pageSize) ∧
      pageOf (virtStart + pageIndex * pageSize) = pageOf virtStart + pageIndex := by
  simp only [pageAt, bind_eq_ok, checkedMul_eq_ok, checkedAdd_eq_ok, pageOf, halfPages,
    pageSize] at *
  exact ⟨⟨_, ⟨by omega, rfl⟩, by omega, rfl⟩, by omega⟩

section loop

variable {virtStart pageCount : ℕ} {J : ℕ → PhysicalMemoryAllocator → Prop}

/-- The callback gets the mapped entries in order, leaves the tables alone and takes the
allocator from `J k` to `J (k + n)` for an entry of `n` pages at the page `k` of the range. -/
structure Callback (processRegion : MappedRegion → PagingM Unit) (pt : PageTable)
    (s : TableMemory) (virtStart pageCount : ℕ) (J : ℕ → PhysicalMemoryAllocator → Prop)
    (E : PagingError → TableMemory → Prop) : Prop where
  mapped : ∀ k lvl e base s₁, k + span lvl ≤ pageCount →
    pt.view s (pageOf virtStart + k) = ⟨lvl, e⟩ → e.baseAddress lvl = some base →
    (pageOf virtStart + k) % span lvl = 0 → J k s₁.pma →
    wp (processRegion ⟨base, virtStart + k * pageSize, span lvl⟩)
      (fun _ s₂ => s₂.tables = s₁.tables ∧ J (k + span lvl) s₂.pma) E s₁
  unmapped : ∀ k lvl e pma, k + span lvl ≤ pageCount →
    pt.view s (pageOf virtStart + k) = ⟨lvl, e⟩ → e.baseAddress lvl = none →
    (pageOf virtStart + k) % span lvl = 0 → J k pma → J (k + span lvl) pma

lemma wp_unmapPages {rounds pageIndex : ℕ}
    (hcb : Callback processRegion pt s virtStart pageCount J E)
    (hvirt : virtStart < 2 ^ 64) (hend : pageOf virtStart + pageCount ≤ halfPages)
    (htil : pt.Tiled s (pageOf virtStart + pageIndex) (pageCount - pageIndex))
    (hle : pageIndex ≤ pageCount) (hrds : pageCount - pageIndex ≤ rounds)
    (h : pt.Unmapped s (pageOf virtStart) pageIndex s₁) (hJ : J pageIndex s₁.pma) :
    wp (unmapPages processRegion virtStart pageCount pt rounds pageIndex)
      (fun _ s' => pt.Unmapped s (pageOf virtStart) pageCount s' ∧ J pageCount s'.pma) E s₁ := by
  induction rounds generalizing pageIndex s₁ with
  | zero =>
    obtain rfl : pageIndex = pageCount := by omega
    exact ⟨h, hJ⟩
  | succ rounds ih =>
    rw [unmapPages, wp_ite]
    refine ⟨fun hlt => ?_, fun hge => ?_⟩
    · have hn : 0 < pageCount - pageIndex := Nat.sub_pos_of_lt hlt
      have hspan := htil.span_le hn
      have hchk := htil.chunk_first hn
      obtain ⟨hpage, hv⟩ := pageAt_eq hvirt hend hlt
      have hw : pageOf virtStart + pageIndex < halfPages := by omega
      -- The entry at the page has not been touched yet.
      have hview : pt.view s₁ (pageOf virtStart + pageIndex) =
          pt.view s (pageOf virtStart + pageIndex) := h.outside _ hw (by omega)
      have hlevs := areEntryLevels_entryLevels (virtStart + pageIndex * pageSize)
      rw [hv] at hlevs
      rw [wp_bind, unmapPage, wp_bind, wp_checked_of_eq hpage]
      refine wp_unmapEntry hlevs (pt.tableAt_zero s₁ _) (by decide) ?_ ?_
      · rw [hview]
        exact (htil _ (le_refl _) (by omega)).1
      · intro k t e hk hk4 ht he href
        rw [hview] at hk
        rw [hk] at hspan hchk
        dsimp only at hspan hchk
        have hdrop := htil.drop hn (by omega)
        rw [hk, add_assoc, Nat.sub_sub] at hdrop
        have hnext : ∀ s₂ : TableMemory, s₂.tables = s₁.tables → J (pageIndex + span k) s₂.pma →
            wp (unmapPages processRegion virtStart pageCount pt rounds (pageIndex + span k))
              (fun _ s' => pt.Unmapped s (pageOf virtStart) pageCount s' ∧ J pageCount s'.pma) E
              (putEntry s₂ t (digit (pageOf virtStart + pageIndex) k) .invalid) := by
          intro s₂ htabs hJ₂
          have hpos := span_pos k
          refine ih hdrop (by omega) (by omega) ?_ hJ₂
          have hput := h.putEntry (by omega) hk hk4 hchk ht (he ▸ href)
          have hsame : (putEntry s₂ t (digit (pageOf virtStart + pageIndex) k) .invalid).tables =
              (putEntry s₁ t (digit (pageOf virtStart + pageIndex) k) .invalid).tables := by
            rw [putEntry, putEntry, htabs]
          exact hput.of_tables_eq hsame
        have hmod : (pageOf virtStart + pageIndex) % span k = 0 := by
          rw [← hchk, chunk, mul_mod_left]
        rw [processEntry]
        cases hbase : e.baseAddress k with
        | some base =>
          exact wp_mono (hcb.mapped _ k e base s₁ (by omega) hk hbase hmod hJ)
            (fun _ s₂ h₂ => hnext s₂ h₂.1 h₂.2) fun _ _ h => h
        | none => exact hnext s₁ rfl (hcb.unmapped _ k e _ (by omega) hk hbase hmod hJ)
    · obtain rfl : pageIndex = pageCount := by omega
      exact ⟨h, hJ⟩

lemma wp_unmapRangeCustom (hcb : Callback processRegion pt s virtStart pageCount J E)
    (hwf : pt.WellFormed s) (hvirt : virtStart < 2 ^ 64)
    (hend : pageOf virtStart + pageCount ≤ halfPages)
    (htil : pt.Tiled s (pageOf virtStart) pageCount) (hJ : J 0 s.pma) :
    wp (unmapRangeCustom processRegion virtStart pageCount pt)
      (fun _ s' => pt.Unmapped s (pageOf virtStart) pageCount s' ∧ J pageCount s'.pma) E s :=
  wp_unmapPages hcb hvirt hend htil (zero_le _) (sub_le _ _) (.refl hwf _) hJ

end loop

end PageTable

end Kernel.Memory
