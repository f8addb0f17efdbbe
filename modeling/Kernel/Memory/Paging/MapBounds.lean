import Kernel.Memory.Paging.Drop

/-!
# The bounds of `map_range`

Only the first address of a range is compared with the tag, and the loop uses nine bits for each
level of the later ones.
-/

namespace Kernel.Memory

open Core Action List VirtualAddress

namespace PageTable

def StaysInside (pt : PageTable) (phyStart virtStart pageCount : ℕ) : Prop :=
  ∀ s options overwrite, pt.WellFormed s → pt.Supplied s →
    (mapRange phyStart virtStart pageCount options pt overwrite s).1 ≠
      .error (.panic .overflow) ∧
    ∀ v < 2 ^ 64, ¬ (virtStart ≤ v ∧ v < virtStart + pageCount * pageSize) →
      pt.leafAddress (mapRange phyStart virtStart pageCount options pt overwrite s).2 v =
        pt.leafAddress s v

def BelowTop (pt : PageTable) (phyStart virtStart pageCount : ℕ) : Prop :=
  pageCount = 0 ∨
    (pageOf virtStart + pageCount ≤ halfPages ∨ pt.highAddresses = false ∧ virtStart = 0) ∧
    virtStart + (pageCount - 1) * pageSize < 2 ^ 64 ∧
    phyStart + (pageCount - 1) * pageSize < 2 ^ 64

variable {pt : PageTable} {s s' : TableMemory} {w x lvl table phyStart virtStart pageCount : ℕ}
  {pageIndex base : ℕ} {options : PageTableEntryOptions} {E : PagingError → TableMemory → Prop}

lemma pageAt_cases (start pageIndex : ℕ) :
    start + pageIndex * pageSize < 2 ^ 64 ∧
        pageAt start pageIndex = .ok (start + pageIndex * pageSize) ∨
      2 ^ 64 ≤ start + pageIndex * pageSize ∧ pageAt start pageIndex = .error .overflow := by
  by_cases hmul : pageIndex * pageSize < 2 ^ 64
  · have hok : checkedMul pageIndex pageSize = .ok (pageIndex * pageSize) :=
      checkedMul_eq_ok.mpr ⟨hmul, rfl⟩
    rw [pageAt, checked_bind_of_ok hok, checkedAdd]
    split_ifs with hadd
    · exact .inl ⟨hadd, rfl⟩
    · exact .inr ⟨Nat.le_of_not_lt hadd, rfl⟩
  · refine .inr ⟨(Nat.le_of_not_lt hmul).trans (Nat.le_add_left _ _), ?_⟩
    rw [pageAt, checkedMul, if_neg hmul]
    rfl

/-! ### What a round leaves alone -/

structure Growing (pt : PageTable) (s : TableMemory) (w lvl : ℕ) (s' : TableMemory)
    (table : ℕ) : Prop where
  wellFormed : pt.WellFormed s'
  supplied : pt.Supplied s'
  tableAt : pt.TableAt s' w lvl table
  untouched : ∀ x < halfPages, (pt.view s x).Untouched (pt.view s' x)

structure Written (pt : PageTable) (s : TableMemory) (w lvl : ℕ) (s' : TableMemory) : Prop where
  wellFormed : pt.WellFormed s'
  supplied : pt.Supplied s'
  untouched : ∀ x < halfPages, ¬ x / span lvl = w / span lvl →
    (pt.view s x).Untouched (pt.view s' x)

def GaveUp (pt : PageTable) (s : TableMemory) (e : PagingError) (s' : TableMemory) : Prop :=
  e ≠ .panic .overflow ∧ ∀ x < halfPages, (pt.view s x).Untouched (pt.view s' x)

lemma Growing.next {next : ℕ} (h : pt.Growing s w lvl s' table)
    (href : (s'.tables table (digit w lvl)).tableRef lvl = some next) :
    pt.Growing s w (lvl + 1) s' next :=
  ⟨h.wellFormed, h.supplied, h.tableAt.next href, h.untouched⟩

variable {e : PageTableEntry}

lemma Growing.written (h : pt.Growing s w lvl s' table) (hlvl : lvl < 4)
    (hw : w < halfPages) (he : tableChild lvl e = none) :
    pt.Written s w lvl (putEntry s' table (digit w lvl) e) where
  wellFormed := h.wellFormed.putEntry h.tableAt he
  supplied := h.supplied.putEntry h.wellFormed h.tableAt he
  untouched x hx hnot := by
    rw [view_putEntry h.wellFormed h.tableAt he hlvl hw hx, if_neg hnot]
    exact h.untouched x hx

lemma Growing.attach {start : ℕ} {pma : PhysicalMemoryAllocator} (h : pt.Growing s w lvl s' table)
    (hlvl : lvl < 3) (hw : w < halfPages)
    (href : (s'.tables table (digit w lvl)).tableRef lvl = none)
    (hval : (s'.tables table (digit w lvl)).valid = false)
    (hfree : s'.pma.allocatedPages[start]? = some false) (hpma : s'.pma.Filled start 1 true pma) :
    pt.Growing s w (lvl + 1)
      (attachTable s' pma table (digit w lvl) (s'.pma.memoryStart + start * pageSize))
      (s'.pma.memoryStart + start * pageSize) where
  wellFormed := h.wellFormed.attachTable h.supplied h.tableAt hlvl hfree
  supplied := h.supplied.attachTable h.wellFormed h.tableAt hlvl hfree hpma
  tableAt := h.tableAt.attachTable h.wellFormed h.supplied hlvl hfree
  untouched x hx := by
    refine (h.untouched x hx).trans ?_
    rw [view_attachTable h.wellFormed h.supplied h.tableAt hlvl hfree pma hw hx]
    split_ifs with hspan
    · have hend := h.tableAt.view_eq (by omega) href
      have hsame : pt.view s' x = pt.view s' w := view_eq_of_span hx hw (by rwa [hend])
      rw [hsame, hend]
      exact .inr ⟨hval, rfl⟩
    · exact .inl rfl

lemma tableChild_blockEntry
    (h : PageTableEntry.blockEntry base lvl = some e) (options : PageTableEntryOptions) (k : ℕ) :
    tableChild k (options.apply e) = none := by
  have htype : e.type = false := by
    unfold PageTableEntry.blockEntry at h
    split at h
    · split_ifs at h
      cases h
      rfl
    · split_ifs at h
      cases h
      rfl
    · cases h
  have hnot : ¬ (options.apply e).type = true := by simp [PageTableEntryOptions.apply, htype]
  have hptr : (options.apply e).tablePhyAddr = none := if_pos (.inr hnot)
  rw [tableChild, PageTableEntry.tableRef, hptr, ite_self]

lemma wp_largeBlock_cases {level : Level} {Q : Option PageTableEntry → TableMemory → Prop}
    (hlev : IsLevel w lvl level) (hphy : pageAt phyStart pageIndex = .ok base)
    (options : PageTableEntryOptions)
    (hsome : ∀ e, w % span lvl = 0 → level.largeBlockSize = span lvl →
      span lvl ≤ pageCount - pageIndex → (∀ k, tableChild k (options.apply e) = none) →
      Q (some e) s) (hnone : Q none s) :
    wp (largeBlock phyStart pageCount pageIndex level) Q E s := by
  rw [largeBlock, wp_ite, hlev.can_iff]
  refine ⟨?_, fun _ => hnone⟩
  rintro ⟨⟨hne, hmod⟩, hsize⟩
  rw [wp_bind, wp_checked_of_eq hphy, wp_pure]
  cases hent : PageTableEntry.blockEntry base level.lvl with
  | none => exact hnone
  | some e =>
    have hspan := hlev.size_eq hne
    exact hsome e hmod hspan (hspan ▸ hsize) (tableChild_blockEntry hent options)

def Grown (pt : PageTable) (s : TableMemory) (w left : ℕ) : Descent → TableMemory → Prop
  | .table table, s' => pt.Growing s w 3 s' table
  | .block size, s' => ∃ lvl, size = span lvl ∧ w % span lvl = 0 ∧ span lvl ≤ left ∧
      pt.Written s w lvl s'

variable {levels : List Level}

lemma wp_descend_grown (hlevs : AreLevels w lvl levels)
    (hphy : pageAt phyStart pageIndex = .ok base) (hw : w < halfPages)
    (h : pt.Growing s w lvl s' table) :
    wp (descend phyStart pageCount options pageIndex levels table)
      (pt.Grown s w (pageCount - pageIndex)) (pt.GaveUp s) s' := by
  induction levels generalizing lvl s' table with
  | nil =>
    obtain rfl : lvl = 3 := hlevs
    exact h
  | cons level rest ih =>
    obtain ⟨hlev, hrest⟩ := hlevs
    have hlvl : lvl < 3 := hrest.le
    rw [descend, wp_bind, wp_readEntry, hlev.index_eq, hlev.lvl_eq]
    cases href : (s'.tables table (digit w lvl)).tableRef lvl with
    | some next => exact ih hrest (h.next href)
    | none =>
      rw [wp_bind]
      refine wp_checked_assert (fun hval => ?_) fun _ => ⟨by simp, h.untouched⟩
      rw [wp_bind]
      refine wp_largeBlock_cases hlev hphy options (fun e hmod hsize hleft he => ?_) ?_
      · dsimp only
        rw [wp_bind, wp_writeEntry, hlev.index_eq, wp_pure]
        exact ⟨lvl, hsize, hmod, hleft, h.written (by omega) hw (he lvl)⟩
      · dsimp only
        rw [wp_bind]
        refine wp_allocateTable h.supplied.end_le (fun start pma hfree hpma => ?_)
          ⟨by simp, h.untouched⟩
        have hch := h.supplied.child_eq (w := w) hlvl hfree
        rw [length_pathTo, tableChild] at hch
        rw [wp_bind, wp_writeEntry, wp_bind, wp_readEntry, hlev.index_eq, putEntry_self, hch]
        exact ih hrest (h.attach hlvl hw href (by simpa using hval) hfree hpma)

variable {v : ℕ}

lemma wp_mapPage_written (hvirt : pageAt virtStart pageIndex = .ok v)
    (hphy : pageAt phyStart pageIndex = .ok base) (hlt : pageIndex < pageCount)
    (hwf : pt.WellFormed s) (hsup : pt.Supplied s) :
    wp (mapPage phyStart virtStart pageCount options pt pageIndex)
      (fun n s' => ∃ lvl, n = span lvl ∧ pageOf v % span lvl = 0 ∧
        span lvl ≤ pageCount - pageIndex ∧ pt.Written s (pageOf v) lvl s')
      (pt.GaveUp s) s := by
  have hst : pt.Growing s (pageOf v) 0 s pt.level0PhyAddr :=
    ⟨hwf, hsup, pt.tableAt_zero s _, fun _ _ => .inl rfl⟩
  rw [mapPage, wp_bind, wp_checked_of_eq hvirt, wp_bind]
  refine wp_mono (wp_descend_grown (areLevels_levels v) hphy (pageOf_lt v) hst) ?_
    fun _ _ h => h
  rintro (table | size) s' hgro
  · have h : pt.Growing s (pageOf v) 3 s' table := hgro
    dsimp only
    rw [wp_bind, wp_checked_of_eq hphy, wp_bind, wp_writeEntry, wp_pure, digit_three]
    exact ⟨3, rfl, Nat.mod_one _, by simp only [span]; omega,
      h.written (by decide) (pageOf_lt v) rfl⟩
  · exact hgro

/-! ### What the loop leaves alone -/

def Visited (virtStart pageCount x : ℕ) : Prop :=
  ∃ i < pageCount, x = pageOf (virtStart + i * pageSize)

lemma visited_of_div_eq {k : ℕ} (hx : x < halfPages) (hk : k < pageCount)
    (hmod : pageOf (virtStart + k * pageSize) % span lvl = 0) (hleft : span lvl ≤ pageCount - k)
    (hund : x / span lvl = pageOf (virtStart + k * pageSize) / span lvl) :
    Visited virtStart pageCount x := by
  have hchk : chunk lvl (pageOf (virtStart + k * pageSize)) =
      pageOf (virtStart + k * pageSize) := Nat.div_mul_cancel (Nat.dvd_of_mod_eq_zero hmod)
  obtain ⟨hge, hlt⟩ := (div_span_eq_iff hchk x).mp hund
  refine ⟨k + (x - pageOf (virtStart + k * pageSize)), by omega, ?_⟩
  simp only [pageOf, halfPages, pageSize] at *
  omega

structure Spared (pt : PageTable) (s : TableMemory) (virtStart pageCount : ℕ)
    (s' : TableMemory) : Prop where
  wellFormed : pt.WellFormed s'
  supplied : pt.Supplied s'
  untouched : ∀ x < halfPages, ¬ Visited virtStart pageCount x →
    (pt.view s x).Untouched (pt.view s' x)

variable {rounds : ℕ}

lemma wp_mapPages_spared {s₁ : TableMemory}
    (hvirt : ∀ k < pageCount, virtStart + k * pageSize < 2 ^ 64)
    (hphy : ∀ k < pageCount, phyStart + k * pageSize < 2 ^ 64)
    (h : pt.Spared s virtStart pageCount s₁) :
    wp (mapPages phyStart virtStart pageCount options pt rounds pageIndex)
      (fun _ s' => ∀ x < halfPages, ¬ Visited virtStart pageCount x →
        (pt.view s x).Untouched (pt.view s' x))
      (fun e s' => e ≠ .panic .overflow ∧ ∀ x < halfPages, ¬ Visited virtStart pageCount x →
        (pt.view s x).Untouched (pt.view s' x)) s₁ := by
  induction rounds generalizing pageIndex s₁ with
  | zero => exact h.untouched
  | succ rounds ih =>
    rw [mapPages, wp_ite]
    refine ⟨fun hlt => ?_, fun _ => h.untouched⟩
    have hv : pageAt virtStart pageIndex = .ok (virtStart + pageIndex * pageSize) :=
      ((pageAt_cases virtStart pageIndex).resolve_right fun hover =>
        absurd (hvirt _ hlt) (Nat.not_lt.mpr hover.1)).2
    have hp : pageAt phyStart pageIndex = .ok (phyStart + pageIndex * pageSize) :=
      ((pageAt_cases phyStart pageIndex).resolve_right fun hover =>
        absurd (hphy _ hlt) (Nat.not_lt.mpr hover.1)).2
    rw [wp_bind]
    refine wp_mono (wp_mapPage_written hv hp hlt h.wellFormed h.supplied) ?_ ?_
    · rintro n s' ⟨lvl, rfl, hmod, hleft, hwrt⟩
      refine ih ⟨hwrt.wellFormed, hwrt.supplied, fun x hx hnot => ?_⟩
      refine (h.untouched x hx hnot).trans (hwrt.untouched x hx fun hund => hnot ?_)
      exact visited_of_div_eq hx hlt hmod hleft hund
    · rintro e s' ⟨he, hunt⟩
      exact ⟨he, fun x hx hnot => (h.untouched x hx hnot).trans (hunt x hx)⟩

lemma not_visited_of_outside (hvirt : virtStart < 2 ^ 64)
    (hal : virtStart % pageSize = 0)
    (htag : pt.tagMatches (toParts virtStart).tag = true)
    (htop : pageOf virtStart + pageCount ≤ halfPages ∨
      pt.highAddresses = false ∧ virtStart = 0) (hv : v < 2 ^ 64)
    (htag' : pt.tagMatches (toParts v).tag = true)
    (hout : ¬ (virtStart ≤ v ∧ v < virtStart + pageCount * pageSize)) :
    ¬ Visited virtStart pageCount (pageOf v) := by
  rintro ⟨i, hi, hpage⟩
  have hst := eq_address hvirt htag
  have haddr := eq_address hv htag'
  have hoff := Nat.mod_lt v (show 0 < pageSize by decide)
  rcases htop with htop | ⟨hlow, rfl⟩
  · have hsame : pageOf (virtStart + i * pageSize) = pageOf virtStart + i := by
      simp only [pageOf, halfPages, pageSize] at *
      omega
    rw [hpage, hsame, address_add] at haddr
    simp only [pageSize] at *
    omega
  · have htag0 : pt.tag = 0 := by
      rw [tag, hlow]
      rfl
    rw [address, htag0] at haddr
    simp only [pageOf, halfPages, pageSize] at *
    omega

lemma BelowTop.staysInside (h : pt.BelowTop phyStart virtStart pageCount)
    (hvirt : virtStart < 2 ^ 64) (hal : virtStart % pageSize = 0)
    (htag : pt.tagMatches (toParts virtStart).tag = true) :
    pt.StaysInside phyStart virtStart pageCount := by
  intro s options overwrite hwf hsup
  have hbou : ∀ start, (pageCount = 0 ∨ start + (pageCount - 1) * pageSize < 2 ^ 64) →
      ∀ k < pageCount, start + k * pageSize < 2 ^ 64 := by
    intro start hlast k hk
    simp only [pageSize] at *
    omega
  have hspa : wp (mapRange phyStart virtStart pageCount options pt overwrite)
      (fun _ s' => ∀ x < halfPages, ¬ Visited virtStart pageCount x →
        (pt.view s x).Untouched (pt.view s' x))
      (fun e s' => e ≠ .panic .overflow ∧ ∀ x < halfPages, ¬ Visited virtStart pageCount x →
        (pt.view s x).Untouched (pt.view s' x)) s := by
    have hrefl : ∀ x < halfPages, ¬ Visited virtStart pageCount x →
        (pt.view s x).Untouched (pt.view s x) := fun _ _ _ => .inl rfl
    rw [mapRange, wp_ite]
    refine ⟨fun _ => ⟨by simp, hrefl⟩, fun _ => ?_⟩
    rw [wp_ite]
    refine ⟨fun _ => ⟨by simp, hrefl⟩, fun _ => ?_⟩
    rw [wp_ite]
    exact ⟨fun _ => ⟨by simp, hrefl⟩, fun _ => wp_mapPages_spared
      (hbou virtStart (h.imp_right fun h => h.2.1))
      (hbou phyStart (h.imp_right fun h => h.2.2)) ⟨hwf, hsup, hrefl⟩⟩
  have hkept : ∀ s', (∀ x < halfPages, ¬ Visited virtStart pageCount x →
      (pt.view s x).Untouched (pt.view s' x)) → ∀ v < 2 ^ 64,
      ¬ (virtStart ≤ v ∧ v < virtStart + pageCount * pageSize) →
        pt.leafAddress s' v = pt.leafAddress s v := by
    intro s' hunt v hv hout
    rw [leafAddress, leafAddress]
    split_ifs with htag'
    · have hnot : ¬ Visited virtStart pageCount (pageOf v) := by
        rcases h with rfl | ⟨htop, -⟩
        · rintro ⟨i, hi, -⟩
          exact absurd hi (Nat.not_lt_zero i)
        · exact not_visited_of_outside hvirt hal htag htop hv htag' hout
      rw [(hunt (pageOf v) (pageOf_lt v) hnot).frame_eq]
    · rfl
  cases hrun : mapRange phyStart virtStart pageCount options pt overwrite s with
  | mk result s' =>
    rw [wp, hrun] at hspa
    cases result with
    | ok _ => exact ⟨by simp, hkept s' hspa⟩
    | error e => exact ⟨fun heq => hspa.1 (Except.error.inj heq), hkept s' hspa.2⟩

/-! ### Tables without a hole -/

structure Open (pt : PageTable) (s : TableMemory) : Prop where
  wellFormed : pt.WellFormed s
  level_eq : ∀ x < halfPages, (pt.view s x).level = 3

lemma descend_of_open (hopen : (pt.view s w).level = 3)
    (hlevs : AreLevels w lvl levels) (ht : pt.TableAt s w lvl table) :
    ∃ t, pt.TableAt s w 3 t ∧
      descend phyStart pageCount options pageIndex levels table s = (.ok (.table t), s) := by
  induction levels generalizing lvl table with
  | nil =>
    obtain rfl : lvl = 3 := hlevs
    exact ⟨table, ht, rfl⟩
  | cons level rest ih =>
    obtain ⟨hlev, hrest⟩ := hlevs
    have hlvl : lvl < 3 := hrest.le
    have hread : readEntry table level.i s = (.ok (s.tables table (digit w lvl)), s) := by
      rw [← hlev.index_eq]
      rfl
    rw [descend, bind_of_ok hread, hlev.lvl_eq]
    cases href : (s.tables table (digit w lvl)).tableRef lvl with
    | some next => exact ih hrest (ht.next href)
    | none =>
      rw [ht.view_eq (by omega) href] at hopen
      exact absurd hopen hlvl.ne

variable {α : Type}

lemma checked_of_error {x : Checked α} {p : Panic} (h : x = .error p) :
    checked x s = (.error (.panic p), s) := by
  rw [h]
  rfl

lemma checked_of_ok {x : Checked α} {a : α} (h : x = .ok a) :
    checked x s = (.ok a, s) := by
  rw [h]
  rfl

lemma mapPage_of_open (hopen : pt.Open s) (phyStart virtStart pageCount pageIndex : ℕ)
    (options : PageTableEntryOptions) :
    (virtStart + pageIndex * pageSize < 2 ^ 64 ∧ phyStart + pageIndex * pageSize < 2 ^ 64 ∧
      ∃ t, pt.TableAt s (pageOf (virtStart + pageIndex * pageSize)) 3 t ∧
        mapPage phyStart virtStart pageCount options pt pageIndex s =
          (.ok 1, putEntry s t (digit (pageOf (virtStart + pageIndex * pageSize)) 3)
            (options.apply (.pageEntry (phyStart + pageIndex * pageSize))))) ∨
    mapPage phyStart virtStart pageCount options pt pageIndex s =
      (.error (.panic .overflow), s) := by
  rcases pageAt_cases virtStart pageIndex with ⟨hvirt, hv⟩ | ⟨-, hv⟩
  · obtain ⟨t, ht, hdes⟩ := descend_of_open (hopen.level_eq _ (pageOf_lt _))
      (areLevels_levels (virtStart + pageIndex * pageSize)) (pt.tableAt_zero s _)
    rw [mapPage, bind_of_ok (checked_of_ok hv), bind_of_ok hdes]
    dsimp only
    rcases pageAt_cases phyStart pageIndex with ⟨hphy, hp⟩ | ⟨-, hp⟩
    · refine .inl ⟨hvirt, hphy, t, ht, ?_⟩
      rw [bind_of_ok (checked_of_ok hp), ← digit_three]
      rfl
    · exact .inr (bind_of_error (checked_of_error hp))
  · exact .inr (bind_of_error (checked_of_error hv))

lemma Open.putPage {t : ℕ} (hopen : pt.Open s) (hw : w < halfPages) (ht : pt.TableAt s w 3 t)
    (base : ℕ) (options : PageTableEntryOptions) :
    pt.Open (putEntry s t (digit w 3) (options.apply (.pageEntry base))) ∧
      ∀ x < halfPages, x = w ∨ pt.frame s x ≠ none →
        pt.frame (putEntry s t (digit w 3) (options.apply (.pageEntry base))) x ≠ none := by
  have hput : ∀ x < halfPages,
      pt.view (putEntry s t (digit w 3) (options.apply (.pageEntry base))) x =
        if x = w then ⟨3, options.apply (.pageEntry base)⟩ else pt.view s x := fun x hx => by
    have hview := view_putEntry (e := options.apply (.pageEntry base)) hopen.wellFormed ht rfl
      (by decide) hw hx
    simpa only [span, Nat.sub_self, pow_zero, Nat.div_one] using hview
  refine ⟨⟨hopen.wellFormed.putEntry ht rfl, fun x hx => ?_⟩, fun x hx hmap => ?_⟩
  · rw [hput x hx]
    split_ifs
    · rfl
    · exact hopen.level_eq x hx
  · by_cases heq : x = w
    · rw [frame, hput x hx, if_pos heq]
      exact Option.some_ne_none _
    · rw [frame, hput x hx, if_neg heq]
      exact hmap.resolve_left heq

lemma mapPages_of_open (hopen : pt.Open s) (hrds : pageCount - pageIndex ≤ rounds)
    (hno : (mapPages phyStart virtStart pageCount options pt rounds pageIndex s).1 ≠
      .error (.panic .overflow)) :
    (∀ i, pageIndex ≤ i → i < pageCount → virtStart + i * pageSize < 2 ^ 64 ∧
      phyStart + i * pageSize < 2 ^ 64) ∧
    ∀ x < halfPages, pt.frame s x ≠ none ∨
      (∃ i, pageIndex ≤ i ∧ i < pageCount ∧ x = pageOf (virtStart + i * pageSize)) →
        pt.frame (mapPages phyStart virtStart pageCount options pt rounds pageIndex s).2 x ≠
          none := by
  induction rounds generalizing pageIndex s with
  | zero =>
    refine ⟨fun i hge hlt => by omega, fun x hx hmap => ?_⟩
    rcases hmap with hmap | ⟨i, hge, hlt, -⟩
    · exact hmap
    · omega
  | succ rounds ih =>
    rw [mapPages] at hno ⊢
    split_ifs at hno ⊢ with hlt
    · rcases mapPage_of_open hopen phyStart virtStart pageCount pageIndex options with
        ⟨hvirt, hphy, t, ht, hrd⟩ | hrd
      · rw [bind_of_ok hrd] at hno ⊢
        obtain ⟨hopen', hfr⟩ := hopen.putPage (pageOf_lt _) ht
          (phyStart + pageIndex * pageSize) options
        obtain ⟨hsums, hmaps⟩ := ih hopen' (by omega) hno
        refine ⟨fun i hge hi => ?_, fun x hx hmap => hmaps x hx ?_⟩
        · rcases eq_or_lt_of_le hge with rfl | hgt
          · exact ⟨hvirt, hphy⟩
          · exact hsums i hgt hi
        · rcases hmap with hmap | ⟨i, hge, hi, rfl⟩
          · exact .inl (hfr x hx (.inr hmap))
          · rcases eq_or_lt_of_le hge with rfl | hgt
            · exact .inl (hfr _ hx (.inl rfl))
            · exact .inr ⟨i, hgt, hi, rfl⟩
      · rw [bind_of_error hrd] at hno
        exact absurd rfl hno
    · refine ⟨fun i hge hi => by omega, fun x hx hmap => ?_⟩
      rcases hmap with hmap | ⟨i, hge, hi, -⟩
      · exact hmap
      · omega

/-! ### A tree with all its tables -/

def pathCode (q : List (Fin 512)) : ℕ := q.foldl (fun c i => c * 512 + i.val) 1

lemma pathCode_append (q : List (Fin 512)) (i : Fin 512) :
    pathCode (q ++ [i]) = pathCode q * 512 + i := by
  rw [pathCode, foldl_append]
  rfl

lemma pathCode_bounds (q : List (Fin 512)) :
    512 ^ q.length ≤ pathCode q ∧ pathCode q < 2 * 512 ^ q.length := by
  induction q using List.reverseRecOn with
  | nil => exact ⟨le_refl _, by decide⟩
  | append_singleton q i ih =>
    have hi := i.isLt
    rw [pathCode_append, length_append, length_singleton, pow_succ]
    omega

lemma pathCode_injective {p q : List (Fin 512)} (h : pathCode p = pathCode q) : p = q := by
  induction p using List.reverseRecOn generalizing q with
  | nil =>
    induction q using List.reverseRecOn with
    | nil => rfl
    | append_singleton q i _ =>
      have hpos := (pathCode_bounds q).1
      have hone := Nat.one_le_pow q.length 512 (by decide)
      rw [pathCode_append] at h
      have hnil : pathCode [] = 1 := rfl
      omega
  | append_singleton p i ih =>
    induction q using List.reverseRecOn with
    | nil =>
      have hpos := (pathCode_bounds p).1
      have hone := Nat.one_le_pow p.length 512 (by decide)
      rw [pathCode_append] at h
      have hnil : pathCode [] = 1 := rfl
      omega
    | append_singleton q j _ =>
      have hi := i.isLt
      have hj := j.isLt
      rw [pathCode_append, pathCode_append] at h
      rw [ih (show pathCode p = pathCode q by omega), Fin.ext (show i.val = j.val by omega)]

section full

variable (root : ℕ)

def codeBase : ℕ := if root / pageSize < 2 ^ 29 then 2 ^ 29 else 0

def fullAddress (q : List (Fin 512)) : ℕ :=
  if q = [] then root else (codeBase root + pathCode q) * pageSize

def fullTables (a : ℕ) : LevelTable := fun i =>
  if a = root then .tableDesc ((codeBase root + (512 + i)) * pageSize)
  else if a / pageSize - codeBase root < 2 * 512 ^ 2 then
    .tableDesc ((codeBase root + ((a / pageSize - codeBase root) * 512 + i)) * pageSize)
  else .invalid

lemma codeBase_cases : root / pageSize < 2 ^ 29 ∧ codeBase root = 2 ^ 29 ∨
    2 ^ 29 ≤ root / pageSize ∧ codeBase root = 0 := by
  rw [codeBase]
  split_ifs with hlt
  · exact .inl ⟨hlt, rfl⟩
  · exact .inr ⟨Nat.le_of_not_lt hlt, rfl⟩

variable {q : List (Fin 512)}

lemma fullAddress_ne_root (hne : q ≠ []) (hlen : q.length ≤ 3) :
    fullAddress root q ≠ root := by
  have hcode := (pathCode_bounds q).2
  have hpow : 512 ^ q.length ≤ 512 ^ 3 := Nat.pow_le_pow_right (by decide) hlen
  rw [fullAddress, if_neg hne]
  rcases codeBase_cases root with ⟨hlt, hbase⟩ | ⟨hge, hbase⟩
  · rw [hbase]
    simp only [pageSize] at *
    omega
  · rw [hbase]
    simp only [pageSize] at *
    omega

lemma tableChild_fullTables (hlen : q.length < 3) (i : Fin 512) :
    tableChild q.length (fullTables root (fullAddress root q) i) =
      some (fullAddress root (q ++ [i])) := by
  have hi := i.isLt
  have hnext : fullAddress root (q ++ [i]) =
      (codeBase root + (pathCode q * 512 + i)) * pageSize := by
    rw [fullAddress, if_neg (by simp), pathCode_append]
  have hcode := (pathCode_bounds q).2
  have hpow : 512 ^ q.length ≤ 512 ^ 2 := Nat.pow_le_pow_right (by decide) (by omega)
  have hbase : codeBase root ≤ 2 ^ 29 := by
    rcases codeBase_cases root with ⟨-, hbase⟩ | ⟨-, hbase⟩ <;> omega
  have hlt : (codeBase root + (pathCode q * 512 + i)) * pageSize < 2 ^ 48 := by
    simp only [pageSize]
    omega
  have hent : fullTables root (fullAddress root q) i =
      .tableDesc ((codeBase root + (pathCode q * 512 + i)) * pageSize) := by
    by_cases hnil : q = []
    · subst hnil
      exact if_pos (if_pos rfl)
    · have hidx : fullAddress root q / pageSize - codeBase root = pathCode q := by
        rw [fullAddress, if_neg hnil, Nat.mul_div_cancel _ (by decide), Nat.add_sub_cancel_left]
      rw [fullTables, if_neg (fullAddress_ne_root root hnil (by omega)), hidx, if_pos (by omega)]
  rw [hent, hnext]
  exact tableChild_tableDesc hlen (Nat.mul_mod_left _ _) hlt

lemma follow_fullTables (hlen : q.length ≤ 3) :
    RadixTree.follow tableChild (fullTables root) 0 root q = some (fullAddress root q) := by
  induction q using List.reverseRecOn with
  | nil => rfl
  | append_singleton q i ih =>
    rw [length_append, length_singleton] at hlen
    rw [RadixTree.follow_append, ih (by omega), Option.bind_some, RadixTree.follow, zero_add,
      tableChild_fullTables root (by omega)]
    rfl

end full

def fullMemory (pt : PageTable) : TableMemory := ⟨fullTables pt.level0PhyAddr, ⟨[], 0⟩⟩

lemma fullMemory_supplied (pt : PageTable) : pt.Supplied (fullMemory pt) where
  aligned := rfl
  end_le := by simp [fullMemory]
  fresh i hi := by cases hi

lemma fullMemory_wellFormed (pt : PageTable) : pt.WellFormed (fullMemory pt) := by
  intro p q a hp hq
  have hlenp := length_of_follow (Nat.zero_le 3) hp
  have hlenq := length_of_follow (Nat.zero_le 3) hq
  rw [zero_add] at hlenp hlenq
  rw [fullMemory, follow_fullTables _ hlenp] at hp
  rw [fullMemory, follow_fullTables _ hlenq] at hq
  have heq : fullAddress pt.level0PhyAddr p = fullAddress pt.level0PhyAddr q :=
    Option.some.inj (hp.trans hq.symm)
  by_cases hpn : p = []
  · subst hpn
    by_contra hne
    exact fullAddress_ne_root _ (Ne.symm hne) hlenq heq.symm
  · by_cases hqn : q = []
    · subst hqn
      exact absurd heq (fullAddress_ne_root _ hpn hlenp)
    · rw [fullAddress, fullAddress, if_neg hpn, if_neg hqn] at heq
      have hsum := Nat.eq_of_mul_eq_mul_right (by decide : 0 < pageSize) heq
      exact pathCode_injective (Nat.add_left_cancel hsum)

lemma view_fullMemory (pt : PageTable) (x : ℕ) : pt.view (fullMemory pt) x = ⟨3, .invalid⟩ := by
  have hlen : (pathTo x 3).length = 3 := length_pathTo x 3
  have hne : pathTo x 3 ≠ [] := fun h => by simp [h] at hlen
  have ht : pt.TableAt (fullMemory pt) x 3 (fullAddress pt.level0PhyAddr (pathTo x 3)) :=
    follow_fullTables _ hlen.le
  have hcode := (pathCode_bounds (pathTo x 3)).1
  have hidx : fullAddress pt.level0PhyAddr (pathTo x 3) / pageSize - codeBase pt.level0PhyAddr =
      pathCode (pathTo x 3) := by
    rw [fullAddress, if_neg hne, Nat.mul_div_cancel _ (by decide), Nat.add_sub_cancel_left]
  have hent : (fullMemory pt).tables (fullAddress pt.level0PhyAddr (pathTo x 3)) (digit x 3) =
      .invalid := by
    have hlg : ¬ pathCode (pathTo x 3) < 2 * 512 ^ 2 := by
      rw [hlen] at hcode
      omega
    rw [← hidx] at hlg
    exact (if_neg (fullAddress_ne_root _ hne hlen.le)).trans (if_neg hlg)
  rw [ht.view_eq (by decide) rfl, hent]

lemma fullMemory_open (pt : PageTable) : pt.Open (fullMemory pt) :=
  ⟨fullMemory_wellFormed pt, fun x _ => by rw [view_fullMemory]⟩

/-- A request stays inside of its range, on all page tables, if and only if its pages are below the
top of the half of the addresses, or all of the lower half, and its addresses can be computed. -/
theorem staysInside_iff (hvirt : virtStart < 2 ^ 64) (haligned : virtStart % pageSize = 0)
    (htag : pt.tagMatches (toParts virtStart).tag = true) :
    pt.StaysInside phyStart virtStart pageCount ↔ pt.BelowTop phyStart virtStart pageCount := by
  refine ⟨fun h => ?_, fun h => h.staysInside hvirt haligned htag⟩
  obtain ⟨hno, hkept⟩ := h (fullMemory pt) {} true (fullMemory_wellFormed pt)
    (fullMemory_supplied pt)
  have hoff : (toParts virtStart).offset = 0 := by
    rw [toParts_eq]
    exact haligned
  rw [mapRange, if_neg (not_not.mpr hoff), if_neg (not_not.mpr htag),
    if_neg (not_not.mpr rfl)] at hno hkept
  obtain ⟨hsums, hmaps⟩ := mapPages_of_open (fullMemory_open pt) (Nat.sub_le _ _) hno
  rcases eq_zero_or_pos pageCount with hzero | hpos
  · exact .inl hzero
  obtain ⟨hvirt', hphy'⟩ := hsums (pageCount - 1) (Nat.zero_le _) (by omega)
  refine .inr ⟨or_iff_not_imp_left.mpr fun htop => ?_, hvirt', hphy'⟩
  -- the loop passes the top, which is an overflow in the upper half and page 0 in the lower half
  have hst := eq_address hvirt htag
  have hpage := pageOf_lt virtStart
  obtain ⟨hover, -⟩ := hsums (halfPages - pageOf virtStart) (Nat.zero_le _) (by omega)
  have hlow : pt.highAddresses = false := by
    by_contra hhigh
    rw [address, tag, if_pos (by simpa using hhigh)] at hst
    simp only [halfPages, pageSize] at *
    omega
  have htag0 : pt.tag = 0 := by
    rw [tag, hlow]
    rfl
  rw [address, htag0, haligned] at hst
  have hwra : 0 = pageOf (virtStart + (halfPages - pageOf virtStart) * pageSize) := by
    rw [pageOf]
    simp only [halfPages, pageSize] at *
    omega
  have hfst := hmaps 0 (by decide) (.inr ⟨_, Nat.zero_le _, by omega, hwra⟩)
  refine ⟨hlow, ?_⟩
  by_contra hne
  have hzero := hkept 0 (by decide) fun hin => hne (Nat.le_zero.mp hin.1)
  have hleaf : ∀ s', pt.leafAddress s' 0 = (pt.frame s' 0).map (· + 0) := fun s' => by
    have haddr := @leafAddress_address pt s' 0 0 (by decide) (by decide)
    rwa [address, htag0, zero_mul, zero_mul] at haddr
  have hbef : pt.frame (fullMemory pt) 0 = none := by
    rw [frame, view_fullMemory, View.mapping_of_not_valid rfl]
    rfl
  rw [hleaf, hleaf, hbef] at hzero
  exact hfst (Option.map_eq_none_iff.mp hzero)

/-- Two pages below the top of the lower half. -/
theorem staysInside_last_pages :
    sampleTable.StaysInside 0x5000 0x0000_ffff_ffff_e000 2 :=
  (staysInside_iff (by decide) (by decide) (by decide)).mpr
    (.inr ⟨.inl (by decide), by decide, by decide⟩)

/-- Two pages from the last page of the lower half on: the second one is mapped at the address 0.
From the last page of the upper half on, the address of the second page overflows. -/
theorem mapRange_wraps_around :
    (sampleTable.WellFormed sampleMemory ∧ sampleTable.Supplied sampleMemory ∧
      sampleTable.leafAddress sampleMemory 0 = none ∧
      (mapRange 0x5000 0x0000_ffff_ffff_f000 2 {} sampleTable true sampleMemory).1 = .ok () ∧
      sampleTable.leafAddress
        (mapRange 0x5000 0x0000_ffff_ffff_f000 2 {} sampleTable true sampleMemory).2 0 =
          some 0x6000) ∧
    (mapRange 0x5000 0xffff_ffff_ffff_f000 2 {} ⟨true, 0, 0x1000⟩ true sampleMemory).1 =
      .error (.panic .overflow) := by
  refine ⟨⟨sampleMemory_ok.1, sampleMemory_ok.2, ?_, ?_, ?_⟩, ?_⟩ <;> decide +kernel

end PageTable

end Kernel.Memory
