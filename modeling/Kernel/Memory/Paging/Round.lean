import Kernel.Memory.Paging.Tree

/-!
# One round of `map_range`

A round maps the pages from one virtual page on, with an entry on the highest level that is allowed:
without a table below it yet, with the page as its first one, no larger than the rest of the range,
and with a physical address that passes the check of the level.
-/

namespace Kernel.Memory

open Core Action VirtualAddress PageTableEntry Nat

/-! ### Addresses -/

def pageOf (v : ℕ) : ℕ := v / pageSize % halfPages

lemma toParts_eq (v : ℕ) :
    toParts v =
      { tag := v / 2 ^ 48 % 2 ^ 16
        lv0 := v / 2 ^ 39 % 512
        lv1 := v / 2 ^ 30 % 512
        lv2 := v / 2 ^ 21 % 512
        lv3 := v / 2 ^ 12 % 512
        offset := v % pageSize } := by
  have hidx : ∀ k, ((0x1ff <<< k) &&& v) >>> k = v / 2 ^ k % 512 := fun k => by
    rw [Nat.shiftRight_and_distrib, Nat.shiftLeft_shiftRight, Nat.and_comm,
      shiftRight_eq_div_pow]
    exact and_two_pow_sub_one_eq_mod _ 9
  have htag : (0xffff_0000_0000_0000 &&& v) >>> 48 = v / 2 ^ 48 % 2 ^ 16 := by
    rw [Nat.shiftRight_and_distrib, Nat.and_comm, Nat.shiftRight_eq_div_pow]
    exact and_two_pow_sub_one_eq_mod _ 16
  have hoff : v &&& 0xfff = v % pageSize := and_two_pow_sub_one_eq_mod _ 12
  simp only [toParts, hidx, htag, hoff]

lemma val_digit_pageOf (v : ℕ) {k : ℕ} (hk : k ≤ 3) :
    (digit (pageOf v) k).val = v / (pageSize * span k) % 512 := by
  have hhalf : halfPages = span k * 512 ^ (k + 1) := by
    have hexp : 3 - k + (k + 1) = 4 := by omega
    rw [span, ← pow_add, hexp]
    rfl
  rw [val_digit, pageOf, hhalf, Nat.mod_mul_right_div_self,
    Nat.mod_mod_of_dvd _ (dvd_pow_self 512 (Nat.succ_ne_zero k)), Nat.div_div_eq_div_mul]

lemma ofNat_toParts (v : ℕ) :
    Fin.ofNat 512 (toParts v).lv0 = digit (pageOf v) 0 ∧
      Fin.ofNat 512 (toParts v).lv1 = digit (pageOf v) 1 ∧
      Fin.ofNat 512 (toParts v).lv2 = digit (pageOf v) 2 ∧
      Fin.ofNat 512 (toParts v).lv3 = digit (pageOf v) 3 := by
  have hidx : ∀ k ≤ 3, Fin.ofNat 512 (v / (pageSize * span k) % 512) = digit (pageOf v) k :=
    fun k hk => Fin.ext ((mod_mod _ _).trans (val_digit_pageOf v hk).symm)
  rw [toParts_eq]
  exact ⟨hidx 0 (by decide), hidx 1 (by decide), hidx 2 (by decide), hidx 3 (by decide)⟩

lemma toVirtualCanonical_eq {p : ℕ} (hlt : p < 2 ^ 48) :
    PhysicalAddress.toVirtualCanonical p = .ok (p + 0xffff_0000_0000_0000) :=
  checkedAdd_eq_ok.mpr ⟨by omega, rfl⟩

namespace PageTable

/-! ### Levels -/

structure IsLevel (w lvl : ℕ) (level : Level) : Prop where
  lvl_eq : level.lvl = lvl
  index_eq : Fin.ofNat 512 level.i = digit w lvl
  can_iff : level.canAllocateLargeBlock = true ↔ lvl ≠ 0 ∧ w % span lvl = 0
  size_eq : lvl ≠ 0 → level.largeBlockSize = span lvl

def AreLevels (w : ℕ) : ℕ → List Level → Prop
  | lvl, [] => lvl = 3
  | lvl, level :: rest => IsLevel w lvl level ∧ AreLevels w (lvl + 1) rest

lemma areLevels_levels (v : ℕ) : AreLevels (pageOf v) 0 (levels (toParts v)) := by
  obtain ⟨h0, h1, h2, -⟩ := ofNat_toParts v
  refine ⟨⟨rfl, h0, by simp [levels], nofun⟩, ⟨rfl, h1, ?_, fun _ => rfl⟩,
    ⟨rfl, h2, ?_, fun _ => rfl⟩, rfl⟩
  · simp only [levels, toParts_eq, pageOf, span, pageSize, halfPages, decide_eq_true_eq]
    omega
  · simp only [levels, toParts_eq, pageOf, span, pageSize, halfPages, decide_eq_true_eq]
    omega

lemma AreLevels.le {w lvl : ℕ} {levels : List Level} (h : AreLevels w lvl levels) : lvl ≤ 3 := by
  induction levels generalizing lvl with
  | nil => exact le_of_eq h
  | cons level rest ih => exact (le_succ lvl).trans (ih h.2)

lemma digit_three (v : ℕ) : Fin.ofNat 512 (toParts v).lv3 = digit (pageOf v) 3 :=
  (ofNat_toParts v).2.2.2

def blockAlign : ℕ → ℕ
  | 1 => 2 ^ 24 / pageSize
  | _ => 2 ^ 20 / pageSize

structure Remaining where
  virt : ℕ
  phy : ℕ
  count : ℕ

def Remaining.Fits (m : Remaining) (lvl : ℕ) : Prop :=
  (lvl = 1 ∨ lvl = 2) ∧ m.virt % span lvl = 0 ∧ span lvl ≤ m.count ∧ m.phy % blockAlign lvl = 0

def leafEntry (options : PageTableEntryOptions) (pp lvl : ℕ) : PageTableEntry :=
  options.apply { valid := true, type := lvl = 3, af := true, address := .ofNat 36 pp }

lemma and_mask_ne_zero_iff {pp mask n : ℕ} (hmask : mask = 2 ^ n - 1) (hn : 12 ≤ n) :
    pp * pageSize &&& mask ≠ 0 ↔ ¬ pp % (2 ^ n / pageSize) = 0 := by
  obtain ⟨k, rfl⟩ := Nat.exists_eq_add_of_le hn
  have hpow : 2 ^ (12 + k) / pageSize = 2 ^ k := by
    rw [pow_add, pageSize]
    exact Nat.mul_div_cancel_left _ (by decide)
  have hmod : pp * pageSize % 2 ^ (12 + k) = pp % 2 ^ k * pageSize := by
    rw [pow_add, mul_comm (2 ^ 12)]
    exact mul_mod_mul_right _ _ _
  rw [hmask, and_two_pow_sub_one_eq_mod, hpow, hmod]
  simp [pageSize]

lemma blockEntry_eq {lvl : ℕ} (hlvl : lvl = 1 ∨ lvl = 2) (pp : ℕ)
    (options : PageTableEntryOptions) :
    (blockEntry (pp * pageSize) lvl).map options.apply =
      if pp % blockAlign lvl = 0 then some (leafEntry options pp lvl) else none := by
  have hshi : (pp * pageSize) >>> 12 = pp := by
    rw [shiftRight_eq_div_pow, pageSize]
    omega
  rcases hlvl with rfl | rfl
  · have hche : pp * pageSize &&& 0xff_ffff ≠ 0 ↔ ¬ pp % blockAlign 1 = 0 :=
      and_mask_ne_zero_iff rfl (by decide)
    simp only [blockEntry, hshi, hche, ite_not]
    split_ifs <;> rfl
  · have hche : pp * pageSize &&& 0xf_ffff ≠ 0 ↔ ¬ pp % blockAlign 2 = 0 :=
      and_mask_ne_zero_iff rfl (by decide)
    simp only [blockEntry, hshi, hche, ite_not]
    split_ifs <;> rfl

section wp

variable {s : TableMemory} {E : PagingError → TableMemory → Prop}

lemma wp_checked_of_eq {α : Type} {x : Checked α} {a : α} {Q : α → TableMemory → Prop}
    (hx : x = .ok a) : wp (checked x) Q E s ↔ Q a s := by
  rw [hx]
  rfl

lemma wp_largeBlock {phyStart pageCount pageIndex lvl : ℕ} {m : Remaining} {level : Level}
    {Q : Option PageTableEntry → TableMemory → Prop} (hlev : IsLevel m.virt lvl level)
    (hlvl : lvl < 3) (hphy : pageAt phyStart pageIndex = .ok (m.phy * pageSize))
    (hcnt : pageCount - pageIndex = m.count) (options : PageTableEntryOptions)
    (hfits : m.Fits lvl → ∀ e, options.apply e = leafEntry options m.phy lvl → Q (some e) s)
    (hnot : ¬ m.Fits lvl → Q none s) :
    wp (largeBlock phyStart pageCount pageIndex level) Q E s := by
  rw [largeBlock, wp_ite, hlev.can_iff, hcnt]
  constructor
  · rintro ⟨⟨h0, hmod⟩, hsize⟩
    rw [hlev.size_eq h0] at hsize
    have hlvl' : lvl = 1 ∨ lvl = 2 := by omega
    have hblk := blockEntry_eq hlvl' m.phy options
    rw [wp_bind, wp_checked_of_eq hphy, wp_pure, hlev.lvl_eq]
    cases hent : blockEntry (m.phy * pageSize) lvl with
    | none =>
      rw [hent] at hblk
      refine hnot fun hfits => ?_
      rw [if_pos hfits.2.2.2] at hblk
      cases hblk
    | some e =>
      rw [hent] at hblk
      by_cases hpp : m.phy % blockAlign lvl = 0
      · rw [if_pos hpp] at hblk
        exact hfits ⟨hlvl', hmod, hsize, hpp⟩ e (Option.some.inj hblk)
      · rw [if_neg hpp] at hblk
        cases hblk
  · intro hcan
    refine hnot fun hfits => hcan ⟨⟨?_, hfits.2.1⟩, ?_⟩
    · rcases hfits.1 with rfl | rfl <;> decide
    · rw [hlev.size_eq (by rcases hfits.1 with rfl | rfl <;> decide)]
      exact hfits.2.2.1

lemma wp_allocateTable {Q : ℕ → TableMemory → Prop}
    (hend : s.pma.memoryStart + s.pma.allocatedPages.length * pageSize ≤ 2 ^ 48)
    (hok : ∀ start pma, s.pma.allocatedPages[start]? = some false →
      s.pma.Filled start 1 true pma → Q (s.pma.memoryStart + start * pageSize)
        ⟨Function.update s.tables (s.pma.memoryStart + start * pageSize) fun _ => .invalid, pma⟩)
    (herr : E (.memory .outOfMemory) s) : wp allocateTable Q E s := by
  rcases s.pma.alloc_cases (by omega) with
    hall | ⟨start, pma, hall, hfree, hpma⟩
  · rw [allocateTable, wp_bind, wp, allocPage, hall]
    exact herr
  · rw [allocateTable, wp_bind, wp, allocPage, hall]
    dsimp only
    rw [wp_bind, wp_checked_of_eq (toVirtualCanonical_eq (freePage_lt hend hfree))]
    exact hok start pma hfree hpma

end wp

/-! ### The way down -/

structure Chosen (pt : PageTable) (s : TableMemory) (m : Remaining) (lvl : ℕ) : Prop where
  le : lvl ≤ 3
  fits : lvl < 3 → (pt.view s m.virt).level ≤ lvl ∧ m.Fits lvl
  not_fits : ∀ j < lvl, (pt.view s m.virt).level ≤ j → ¬ m.Fits j

def Opened (pt : PageTable) (s : TableMemory) (w k : ℕ) (s' : TableMemory) : Prop :=
  ∀ x < halfPages, pt.view s' x = pt.view s x ∨ ∃ j < k, pt.view s' x = ⟨j + 1, .invalid⟩ ∧
    (pt.view s x).level ≤ j ∧ (pt.view s x).entry.valid = false ∧ x / span j = w / span j

structure Mapped (pt : PageTable) (s : TableMemory) (m : Remaining)
    (options : PageTableEntryOptions) (lvl : ℕ) (s' : TableMemory) : Prop where
  wellFormed : pt.WellFormed s'
  supplied : pt.Supplied s'
  chosen : pt.Chosen s m lvl
  view_eq : ∃ s₁, pt.Opened s m.virt lvl s₁ ∧ ∀ x < halfPages, pt.view s' x =
    if x / span lvl = m.virt / span lvl then ⟨lvl, leafEntry options m.phy lvl⟩ else pt.view s₁ x

def Failed (pt : PageTable) (s : TableMemory) (m : Remaining) (e : PagingError)
    (s' : TableMemory) : Prop :=
  e = .memory .outOfMemory ∧ pt.WellFormed s' ∧ pt.Supplied s' ∧ pt.Opened s m.virt 3 s' ∨
    e = .panic .assertion ∧ (pt.view s m.virt).level < 3 ∧ (pt.view s m.virt).entry.valid = true

structure Descending (pt : PageTable) (s : TableMemory) (m : Remaining) (lvl : ℕ)
    (s' : TableMemory) (table : ℕ) : Prop where
  wellFormed : pt.WellFormed s'
  supplied : pt.Supplied s'
  opened : pt.Opened s m.virt lvl s'
  tableAt : pt.TableAt s' m.virt lvl table
  not_fits : ∀ j < lvl, (pt.view s m.virt).level ≤ j → ¬ m.Fits j
  created : s' = s ∨ (pt.view s m.virt).level < lvl ∧ pt.view s' m.virt = ⟨lvl, .invalid⟩

variable {pt : PageTable} {s s' : TableMemory} {m : Remaining} {lvl table : ℕ}
  {options : PageTableEntryOptions}

lemma Opened.mono {w k k' : ℕ} (h : pt.Opened s w k s') (hk : k ≤ k') : pt.Opened s w k' s' :=
  fun x hx => (h x hx).imp_right fun ⟨j, hj, hrest⟩ => ⟨j, by omega, hrest⟩

lemma tableChild_leafEntry (hlvl : lvl ≤ 3) (pp : ℕ) :
    tableChild lvl (leafEntry options pp lvl) = none := by
  interval_cases lvl <;> rfl

lemma Descending.start (hwf : pt.WellFormed s) (hsup : pt.Supplied s) :
    pt.Descending s m 0 s pt.level0PhyAddr where
  wellFormed := hwf
  supplied := hsup
  opened := fun _ _ => .inl rfl
  tableAt := pt.tableAt_zero s m.virt
  not_fits := nofun
  created := .inl rfl

section descending

variable (h : pt.Descending s m lvl s' table) (hlvl : lvl < 3)
include h hlvl

lemma Descending.next {next : ℕ}
    (href : (s'.tables table (digit m.virt lvl)).tableRef lvl = some next) :
    pt.Descending s m (lvl + 1) s' next := by
  have hnext := h.tableAt.next href
  have hle := hnext.le_level (by omega)
  have hsame : s' = s := h.created.resolve_right fun ⟨_, hview⟩ => by
    rw [hview] at hle
    exact absurd hle (by simp)
  refine ⟨h.wellFormed, h.supplied, h.opened.mono (by omega), hnext, ?_, .inl hsame⟩
  intro j hj hlev
  rw [hsame] at hle
  exact h.not_fits j (by omega) hlev

variable (href : (s'.tables table (digit m.virt lvl)).tableRef lvl = none)
include href

lemma Descending.level_le : (pt.view s m.virt).level ≤ lvl := by
  rcases h.created with rfl | ⟨hlt, -⟩
  · rw [h.tableAt.view_eq (by omega) href]
  · exact hlt.le

lemma Descending.view_eq_of_valid (hval : (s'.tables table (digit m.virt lvl)).valid = true) :
    (pt.view s m.virt).level < 3 ∧ (pt.view s m.virt).entry.valid = true := by
  have hview := h.tableAt.view_eq (by omega) href
  rcases h.created with rfl | ⟨-, hnew⟩
  · rw [hview]
    exact ⟨hlvl, hval⟩
  · rw [hview, View.mk.injEq] at hnew
    rw [hnew.2] at hval
    cases hval

lemma Descending.block (hfits : m.Fits lvl) (hw : m.virt < halfPages) :
    pt.Mapped s m options lvl
      (putEntry s' table (digit m.virt lvl) (leafEntry options m.phy lvl)) where
  wellFormed := h.wellFormed.putEntry h.tableAt (tableChild_leafEntry hlvl.le _)
  supplied := h.supplied.putEntry h.wellFormed h.tableAt (tableChild_leafEntry hlvl.le _)
  chosen := ⟨hlvl.le, fun _ => ⟨h.level_le hlvl href, hfits⟩, h.not_fits⟩
  view_eq := ⟨s', h.opened, fun _ hx => view_putEntry h.wellFormed h.tableAt
    (tableChild_leafEntry hlvl.le _) (by omega) hw hx⟩

lemma Descending.attach {start : ℕ} {pma : PhysicalMemoryAllocator} (hw : m.virt < halfPages)
    (hval : (s'.tables table (digit m.virt lvl)).valid = false) (hfits : ¬ m.Fits lvl)
    (hfree : s'.pma.allocatedPages[start]? = some false) (hpma : s'.pma.Filled start 1 true pma) :
    pt.Descending s m (lvl + 1)
      (attachTable s' pma table (digit m.virt lvl) (s'.pma.memoryStart + start * pageSize))
      (s'.pma.memoryStart + start * pageSize) := by
  have hvs := fun x (hx : x < halfPages) =>
    view_attachTable h.wellFormed h.supplied h.tableAt hlvl hfree pma hw hx
  have hend := h.tableAt.view_eq (by omega) href
  refine ⟨h.wellFormed.attachTable h.supplied h.tableAt hlvl hfree,
    h.supplied.attachTable h.wellFormed h.tableAt hlvl hfree hpma, ?_,
    h.tableAt.attachTable h.wellFormed h.supplied hlvl hfree, ?_, .inr ⟨?_, ?_⟩⟩
  · intro x hx
    rw [hvs x hx]
    split_ifs with hspan
    · have hsame : pt.view s' x = pt.view s' m.virt := view_eq_of_span hx hw (by rwa [hend])
      rw [hend] at hsame
      refine .inr ⟨lvl, by omega, rfl, ?_⟩
      rcases h.opened x hx with heq | ⟨j, hj, heq, hle, hinv, -⟩
      · rw [← heq, hsame]
        exact ⟨le_refl _, hval, hspan⟩
      · exact ⟨by omega, hinv, hspan⟩
    · exact (h.opened.mono (le_succ lvl)) x hx
  · intro j hj hlev
    rcases Nat.lt_succ_iff_lt_or_eq.mp hj with hj | rfl
    · exact h.not_fits j hj hlev
    · exact hfits
  · exact lt_succ_of_le (h.level_le hlvl href)
  · rw [hvs _ hw, if_pos rfl]

end descending

/-! ### The round -/

section round

variable {phyStart virtStart pageCount pageIndex : ℕ} {E : PagingError → TableMemory → Prop}

def Descended (pt : PageTable) (s : TableMemory) (m : Remaining) (options : PageTableEntryOptions) :
    Descent → TableMemory → Prop
  | .table table, s' => pt.Descending s m 3 s' table
  | .block size, s' => ∃ lvl, size = span lvl ∧ pt.Mapped s m options lvl s'

lemma wp_readEntry {Q : PageTableEntry → TableMemory → Prop} (i : ℕ) :
    wp (readEntry table i) Q E s ↔ Q (s.tables table (.ofNat 512 i)) s := Iff.rfl

lemma wp_writeEntry {Q : Unit → TableMemory → Prop} (i : ℕ) (e : PageTableEntry) :
    wp (writeEntry table i e) Q E s ↔ Q () (putEntry s table (.ofNat 512 i) e) := Iff.rfl

lemma wp_checked_assert {p : Prop} [Decidable p] {Q : Unit → TableMemory → Prop}
    (hok : p → Q () s) (herr : ¬ p → E (.panic .assertion) s) :
    wp (checked (assert p)) Q E s := by
  by_cases hp : p
  · rw [wp_checked_of_eq (assert_eq_ok.mpr hp)]
    exact hok hp
  · rw [assert, if_neg hp]
    exact herr hp

variable (hphy : pageAt phyStart pageIndex = .ok (m.phy * pageSize))
  (hcnt : pageCount - pageIndex = m.count) (hw : m.virt < halfPages)
include hphy hcnt hw

lemma wp_descend {levels : List Level} (hlevs : AreLevels m.virt lvl levels)
    (h : pt.Descending s m lvl s' table) :
    wp (descend phyStart pageCount options pageIndex levels table) (pt.Descended s m options)
      (pt.Failed s m) s' := by
  induction levels generalizing lvl s' table with
  | nil =>
    obtain rfl : lvl = 3 := hlevs
    exact h
  | cons level rest ih =>
    obtain ⟨hlev, hrest⟩ := hlevs
    have hlvl : lvl < 3 := hrest.le
    rw [descend, wp_bind, wp_readEntry, hlev.index_eq, hlev.lvl_eq]
    cases href : (s'.tables table (digit m.virt lvl)).tableRef lvl with
    | some next => exact ih hrest (h.next hlvl href)
    | none =>
      rw [wp_bind]
      refine wp_checked_assert (fun hval => ?_) fun hval =>
        .inr ⟨rfl, h.view_eq_of_valid hlvl href (by simpa using hval)⟩
      rw [wp_bind]
      refine wp_largeBlock hlev hlvl hphy hcnt options (fun hfits e he => ?_)
        fun hfits => ?_
      · dsimp only
        rw [wp_bind, wp_writeEntry, hlev.index_eq, he, wp_pure]
        have hsize := hlev.size_eq (by rcases hfits.1 with rfl | rfl <;> decide)
        exact ⟨lvl, hsize, h.block hlvl href hfits hw⟩
      · dsimp only
        rw [wp_bind]
        refine wp_allocateTable h.supplied.end_le (fun start pma hfree hpma => ?_)
          (.inl ⟨rfl, h.wellFormed, h.supplied, h.opened.mono hlvl.le⟩)
        have hch := h.supplied.child_eq (w := m.virt) hlvl hfree
        rw [length_pathTo, tableChild] at hch
        rw [wp_bind, wp_writeEntry, wp_bind, wp_readEntry, hlev.index_eq, putEntry_self, hch]
        exact ih hrest (h.attach hlvl href hw (by simpa using hval) hfits hfree hpma)

lemma wp_mapPage {v : ℕ} (hvirt : pageAt virtStart pageIndex = .ok v) (hv : pageOf v = m.virt)
    (hwf : pt.WellFormed s) (hsup : pt.Supplied s) :
    wp (mapPage phyStart virtStart pageCount options pt pageIndex)
      (fun n s' => ∃ lvl, n = span lvl ∧ pt.Mapped s m options lvl s') (pt.Failed s m) s := by
  have hlevs := areLevels_levels v
  rw [hv] at hlevs
  rw [mapPage, wp_bind, wp_checked_of_eq hvirt, wp_bind]
  refine wp_mono (wp_descend hphy hcnt hw hlevs (.start hwf hsup)) ?_ fun _ _ hfld => hfld
  rintro (table | size) s' hdes
  · dsimp only
    rw [wp_bind, wp_checked_of_eq hphy, wp_bind, wp_writeEntry, wp_pure, digit_three, hv]
    have hent : options.apply (.pageEntry (m.phy * pageSize)) = leafEntry options m.phy 3 := by
      rw [pageEntry, shiftRight_eq_div_pow, pageSize,
        show m.phy * (4 * 1024) / 2 ^ 12 = m.phy by omega]
      rfl
    rw [hent]
    have h : pt.Descending s m 3 s' table := hdes
    have hleaf : tableChild 3 (leafEntry options m.phy 3) = none :=
      tableChild_leafEntry (le_refl 3) m.phy
    exact ⟨3, rfl, h.wellFormed.putEntry h.tableAt hleaf,
      h.supplied.putEntry h.wellFormed h.tableAt hleaf, ⟨le_refl _, by simp, h.not_fits⟩, s',
      h.opened, fun x hx => view_putEntry h.wellFormed h.tableAt hleaf (by decide) hw hx⟩
  · exact hdes

end round

end PageTable

end Kernel.Memory
