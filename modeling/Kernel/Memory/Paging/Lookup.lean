import Kernel.Memory.Paging.HardwareWalk
import Kernel.Memory.Paging.Shared

/-!
# Looking up an address

A leaf gives an address the base of the leaf and the offset of the address in the whole leaf.
-/

namespace Kernel.Memory

open Core Action VirtualAddress Nat

namespace PageTable

def physicalAddressFrom (po : ℕ) : List EntryLevel → ℕ → PagingM (Option ℕ)
  | [], _ => .throw (.panic .explicit)
  | level :: rest, table => do
    let entry ← readEntry table level.i
    match entry.tableRef level.lvl with
    | some existingTable => physicalAddressFrom po rest existingTable
    | none =>
      match entry.baseAddress level.lvl with
      | some addr => do
        let addr ← checked (checkedAdd addr po)
        pure (some addr)
      | none => pure none

def physicalAddressOf (pt : PageTable) (virt : ℕ) : PagingM (Option ℕ) :=
  let parts := toParts virt
  if ¬ pt.tagMatches parts.tag then pure none
  else physicalAddressFrom parts.offset (entryLevels parts) pt.level0PhyAddr

/-! ### Proper tables -/

def Proper (pt : PageTable) (s : TableMemory) : Prop :=
  ∀ x < halfPages, (pt.view s x).entry.valid = true → pt.frame s x ≠ none

variable {pt : PageTable} {s s' : TableMemory} {v phyStart virtStart pageCount : ℕ}
  {options : PageTableEntryOptions}

lemma proper_of_empty (hemp : ∀ i, s.tables pt.level0PhyAddr i = .invalid) : pt.Proper s := by
  intro x _ hval
  rw [view_of_empty hemp] at hval
  cases hval

lemma Moved.proper {m : Remaining} (h : pt.Moved s m s') (hprop : pt.Proper s) :
    pt.Proper s' := by
  intro x hx hval
  rcases h x hx with hunt | ⟨-, hfr⟩
  · rw [hunt.eq_of_valid (.inr hval)] at hval
    rw [hunt.frame_eq]
    exact hprop x hx hval
  · rw [hfr]
    exact nofun

lemma Proper.mapRange (hprop : pt.Proper s) (hwf : pt.WellFormed s) (hsup : pt.Supplied s)
    (hrng : InRange phyStart virtStart pageCount) (overwrite : Bool) :
    wp (mapRange phyStart virtStart pageCount options pt overwrite) (fun _ => pt.Proper)
      (fun e s' => ∀ err, e = .memory err → pt.Proper s') s :=
  wp_mono (wp_mapRange_moved hrng hwf hsup overwrite) (fun _ _ h => h.proper hprop)
    fun _ _ h err herr => (h err herr).proper hprop

/-! ### Leaves -/

def leafAddress (pt : PageTable) (s : TableMemory) (v : ℕ) : Option ℕ :=
  if pt.tagMatches (toParts v).tag then
    (pt.frame s (pageOf v)).map (· + v % pageSize)
  else none

def OnFirstPage (pt : PageTable) (s : TableMemory) (v : ℕ) : Prop :=
  pt.leafAddress s v = none ∨ pageOf v % span (pt.view s (pageOf v)).level = 0

instance (pt : PageTable) (s : TableMemory) (v : ℕ) : Decidable (pt.OnFirstPage s v) :=
  inferInstanceAs (Decidable (_ ∨ _))

lemma baseAddress_lt {e : PageTableEntry} {lvl base : ℕ} (h : e.baseAddress lvl = some base) :
    base < 2 ^ 48 := by
  rw [PageTableEntry.baseAddress] at h
  split_ifs at h
  have hlt := e.address.isLt
  rw [shiftLeft_eq] at h
  cases h
  omega

lemma physicalAddressFrom_eq {w lvl table po : ℕ} {levels : List EntryLevel}
    (hlevs : AreEntryLevels w lvl levels) (ht : pt.TableAt s w lvl table) (hlvl : lvl < 4)
    (hpo : po < pageSize) :
    physicalAddressFrom po levels table s =
      (.ok (((pt.view s w).entry.baseAddress (pt.view s w).level).map (· + po)), s) := by
  induction levels generalizing lvl table with
  | nil =>
    obtain rfl : lvl = 4 := hlevs
    exact absurd hlvl (by decide)
  | cons level rest ih =>
    obtain ⟨⟨hlvl_eq, hidx, -⟩, hrest⟩ := hlevs
    have hread : readEntry table level.i s = (.ok (s.tables table (digit w lvl)), s) := by
      rw [← hidx]
      rfl
    rw [physicalAddressFrom, bind_of_ok hread, hlvl_eq]
    cases href : (s.tables table (digit w lvl)).tableRef lvl with
    | some next =>
      have hlt : lvl + 1 < 4 := by
        by_contra hge
        obtain rfl : lvl = 3 := by omega
        cases href
      exact ih hrest (ht.next href) hlt
    | none =>
      rw [ht.view_eq hlvl href]
      dsimp only
      cases hbase : (s.tables table (digit w lvl)).baseAddress lvl with
      | none => rfl
      | some base =>
        have hlt := baseAddress_lt hbase
        have hsum : checkedAdd base po = .ok (base + po) := by
          rw [checkedAdd_eq_ok]
          simp only [pageSize] at hpo
          omega
        dsimp only
        rw [hsum]
        rfl

lemma physicalAddressOf_eq (pt : PageTable) (s : TableMemory) (v : ℕ) :
    physicalAddressOf pt v s = (.ok (if pt.tagMatches (toParts v).tag then
      ((pt.view s (pageOf v)).entry.baseAddress (pt.view s (pageOf v)).level).map
        (· + v % pageSize) else none), s) := by
  rw [physicalAddressOf]
  have hoff : (toParts v).offset = v % pageSize := by rw [toParts_eq]
  split_ifs with htag
  · rw [physicalAddressFrom_eq (areEntryLevels_entryLevels v) (pt.tableAt_zero s _) (by decide)
      (by rw [hoff]; exact mod_lt _ (by decide)), hoff]
  · rfl

lemma frame_eq_base {x : ℕ} (hlev : (pt.view s x).level ≠ 0) :
    pt.frame s x = ((pt.view s x).entry.baseAddress (pt.view s x).level).map
      (· + x % span (pt.view s x).level * pageSize) := by
  rw [frame, View.mapping, if_neg hlev, Option.map_map]
  rfl

lemma Proper.baseAddress_eq_none {x : ℕ} (h : pt.Proper s) (hx : x < halfPages)
    (hlev : (pt.view s x).level = 0) : (pt.view s x).entry.baseAddress 0 = none := by
  have hval : (pt.view s x).entry.valid = false := by
    by_contra hval
    refine h x hx (by simpa using hval) ?_
    rw [frame, View.mapping, if_pos hlev]
    rfl
  rw [PageTableEntry.baseAddress, if_pos (.inl (by simp [hval]))]

lemma pageOf_lt (v : ℕ) : pageOf v < halfPages := mod_lt _ (by decide)

lemma physicalAddressOf_eq_iff
    (hroot : (pt.view s (pageOf v)).level = 0 → (pt.view s (pageOf v)).entry.baseAddress 0 = none) :
    physicalAddressOf pt v s = (.ok (pt.leafAddress s v), s) ↔ pt.OnFirstPage s v := by
  rw [physicalAddressOf_eq, OnFirstPage, leafAddress]
  split_ifs with htag
  · by_cases hlev : (pt.view s (pageOf v)).level = 0
    · have hnone : pt.frame s (pageOf v) = none := by
        rw [frame, View.mapping, if_pos hlev]
        rfl
      rw [hnone, hlev, hroot hlev]
      exact iff_of_true rfl (.inl rfl)
    · rw [frame_eq_base hlev]
      cases hbase : (pt.view s (pageOf v)).entry.baseAddress (pt.view s (pageOf v)).level with
      | none => exact iff_of_true rfl (.inl rfl)
      | some base =>
        simp only [Option.map_some, Prod.mk.injEq, Except.ok.injEq, Option.some.injEq, and_true,
          reduceCtorEq, false_or, pageSize]
        omega
  · exact iff_of_true rfl (.inl rfl)

lemma Overwritten.leafAddress_eq (hrng : InRange phyStart virtStart pageCount)
    (h : pt.Overwritten s (remaining phyStart virtStart pageCount 0) options s')
    (hal : virtStart % pageSize = 0)
    (htag : pt.tagMatches (toParts virtStart).tag = true) {k : ℕ}
    (hk : k < pageCount * pageSize) :
    pt.leafAddress s' (virtStart + k) = some (phyStart + k) := by
  obtain ⟨hpage, -, htag'⟩ := hrng.page_of_byte hal hk
  have hlt : k / pageSize < pageCount := Nat.div_lt_of_lt_mul (Nat.mul_comm _ _ ▸ hk)
  rw [leafAddress, htag', if_pos htag, hpage, h.frame_of_inRange hrng hlt, Option.map_some]
  simp only [pageSize] at hal ⊢
  congr 1
  omega

/-- `physical_address_of` returns what the leaf over the address gives for this byte, and `none`
without a leaf, if and only if the address is on the first page of its leaf or has none. Of the
bytes of a range that `map_range` has mapped, these are the ones at which the search for a leaf
level begins a leaf. -/
theorem physicalAddressOf_exact_iff (hproper : pt.Proper s) (v : ℕ) :
    (physicalAddressOf pt v s = (.ok (pt.leafAddress s v), s) ↔ pt.OnFirstPage s v) ∧
    ∀ phyStart virtStart pageCount options overwrite s', pt.WellFormed s → pt.Supplied s →
      InRange phyStart virtStart pageCount →
      mapRange phyStart virtStart pageCount options pt overwrite s = (.ok (), s') →
      ∀ k < pageCount * pageSize,
        physicalAddressOf pt (virtStart + k) s' = (.ok (some (phyStart + k)), s') ↔
          pageOf (virtStart + k) % span (pt.leafLevel s (remaining phyStart virtStart pageCount 0)
            (pageOf (virtStart + k))) = 0 := by
  refine ⟨physicalAddressOf_eq_iff (hproper.baseAddress_eq_none (pageOf_lt v)), ?_⟩
  intro phyStart virtStart pageCount options overwrite s' hwf hsup hrng hrun k hk
  obtain ⟨hal, htag, rfl⟩ := of_mapRange_ok hrun
  have h := wp_ok (wp_mapRange hwf hsup hrng hal htag) hrun
  have hleaf := h.leafAddress_eq hrng hal htag hk
  obtain ⟨hlev, hne, -, -⟩ :=
    h.baseAddress_eq hrng.phy_le (hrng.page_of_byte hal hk).2.1 rfl
  have hiff : physicalAddressOf pt (virtStart + k) s' =
      (.ok (pt.leafAddress s' (virtStart + k)), s') ↔ pt.OnFirstPage s' (virtStart + k) :=
    physicalAddressOf_eq_iff fun hzero => absurd (hlev.symm.trans hzero) hne
  rwa [OnFirstPage, hleaf, hlev, or_iff_right nofun] at hiff

def sampleBlock : TableMemory := (mapRange 0x20_0000 0 512 {} sampleTable true sampleMemory).2

lemma sampleBlock_run :
    mapRange 0x20_0000 0 512 {} sampleTable true sampleMemory = (.ok (), sampleBlock) :=
  Prod.ext (by decide +kernel) rfl

lemma sampleBlock_proper : sampleTable.Proper sampleBlock := by
  have hprop : sampleTable.Proper sampleMemory := proper_of_empty fun _ => rfl
  have hrng : InRange 0x20_0000 0 512 := ⟨by decide, by decide, by decide, by decide⟩
  exact wp_ok (hprop.mapRange sampleMemory_ok.1 sampleMemory_ok.2 hrng true) sampleBlock_run

/-- The answer for a byte of the first page. -/
theorem physicalAddressOf_exact_first_page :
    physicalAddressOf sampleTable 5 sampleBlock = (.ok (some 0x20_0005), sampleBlock) := by
  have hprop : sampleTable.Proper sampleMemory := proper_of_empty fun _ => rfl
  refine ((physicalAddressOf_exact_iff hprop 0).2 0x20_0000 0 512 {} true sampleBlock
    sampleMemory_ok.1 sampleMemory_ok.2 ⟨by decide, by decide, by decide, by decide⟩
    sampleBlock_run 5 (by decide)).mpr ?_
  exact zero_mod _

/-- On the second page of the block the offset of the page is lost. -/
theorem physicalAddressOf_drops_offset :
    sampleTable.Proper sampleBlock ∧
      sampleTable.leafAddress sampleBlock 0x1000 = some 0x20_1000 ∧
      (physicalAddressOf sampleTable 0x1000 sampleBlock).1 = .ok (some 0x20_0000) :=
  ⟨sampleBlock_proper, by decide +kernel, by decide +kernel⟩

end PageTable

end Kernel.Memory
