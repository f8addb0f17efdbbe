import Kernel.Memory.Paging.AddressSpace

/-!
# The translation by the hardware

The hardware takes the address of a block only from the bits above the size of the block.
-/

namespace Kernel.Memory

open Core Action VirtualAddress Nat

namespace PageTable

def blockSize (lvl : ℕ) : ℕ := span lvl * pageSize

def hardwareWalk (pt : PageTable) (s : TableMemory) (v : ℕ) : Option ℕ :=
  let r := pt.view s (pageOf v)
  if pt.tagMatches (toParts v).tag ∧ r.level ≠ 0 then
    (r.entry.baseAddress r.level).map fun base =>
      base / blockSize r.level * blockSize r.level + v % blockSize r.level
  else none

/-- The blocks of the range are aligned to their size and the hardware sends every byte of the
range to its place. A call that returns leaves no older block in the range. -/
structure MapsRange (pt : PageTable) (s : TableMemory) (phyStart virtStart pageCount : ℕ) :
    Prop where
  aligned : ∀ i < pageCount, pt.InBlock s (pageOf (virtStart + i * pageSize)) → ∀ base,
    (pt.view s (pageOf (virtStart + i * pageSize))).entry.baseAddress
      (pt.view s (pageOf (virtStart + i * pageSize))).level = some base →
    base % blockSize (pt.view s (pageOf (virtStart + i * pageSize))).level = 0
  walk : ∀ k < pageCount * pageSize,
    pt.hardwareWalk s (virtStart + k) = some (phyStart + k)

def BlocksAligned (pt : PageTable) (s : TableMemory) (m : Remaining) : Prop :=
  ∀ lvl, lvl = 1 ∨ lvl = 2 → ∀ x, m.Contains x → pt.Large s m lvl x →
    m.phy % span lvl = m.virt % span lvl

variable {pt : PageTable} {s s' : TableMemory} {phyStart virtStart pageCount v p : ℕ}
  {options : PageTableEntryOptions} {overwrite : Bool} {m : Remaining}

lemma view_level_lt (pt : PageTable) (s : TableMemory) (x : ℕ) : (pt.view s x).level < 4 := by
  obtain ⟨last, table, -, hlast, ht, href⟩ := (pt.tableAt_zero s x).exists_last (by decide)
  rwa [ht.view_eq hlast href]

lemma hardwareWalk_eq_some (h : pt.hardwareWalk s v = some p) :
    pt.tagMatches (toParts v).tag = true ∧ ∃ lvl base, 0 < lvl ∧ lvl < 4 ∧
      base < 2 ^ 48 ∧ p = base / blockSize lvl * blockSize lvl + v % blockSize lvl := by
  rw [hardwareWalk] at h
  split_ifs at h with hcond
  obtain ⟨base, hbase, rfl⟩ := Option.map_eq_some_iff.mp h
  refine ⟨hcond.1, _, base, pos_of_ne_zero hcond.2, view_level_lt pt s _, ?_, rfl⟩
  rw [PageTableEntry.baseAddress] at hbase
  split_ifs at hbase
  have hlt := (pt.view s (pageOf v)).entry.address.isLt
  rw [shiftLeft_eq] at hbase
  cases hbase
  omega

lemma hardwareWalk_lt (h : pt.hardwareWalk s v = some p) : p < 2 ^ 48 := by
  obtain ⟨-, lvl, base, hpos, hlvl, hbase, rfl⟩ := hardwareWalk_eq_some h
  interval_cases lvl <;> simp only [blockSize, span, pageSize] <;> omega

lemma of_mapRange_ok
    (hrun : mapRange phyStart virtStart pageCount options pt overwrite s = (.ok (), s')) :
    virtStart % pageSize = 0 ∧ pt.tagMatches (toParts virtStart).tag = true ∧
      overwrite = true := by
  have hoff : (toParts virtStart).offset = 0 := by
    by_contra hoff
    rw [mapRange, if_pos hoff] at hrun
    cases hrun
  rw [mapRange, if_neg (not_not.mpr hoff)] at hrun
  have htag : pt.tagMatches (toParts virtStart).tag = true := by
    by_contra htag
    rw [if_pos htag] at hrun
    cases hrun
  rw [if_neg (not_not.mpr htag)] at hrun
  have hove : overwrite = true := by
    by_contra hove
    rw [if_pos hove] at hrun
    cases hrun
  rw [toParts_eq] at hoff
  exact ⟨hoff, htag, hove⟩

lemma MapsRange.inRange (h : pt.MapsRange s' phyStart virtStart pageCount) (hcnt : pageCount ≠ 0)
    (hphy : phyStart % pageSize = 0) (hlt : virtStart < 2 ^ 64)
    (hal : virtStart % pageSize = 0) (htag : pt.tagMatches (toParts virtStart).tag = true) :
    InRange phyStart virtStart pageCount := by
  refine ⟨hphy, hlt, ?_, ?_⟩
  · -- The first byte behind the half has another tag.
    by_contra hend
    have hwalk := h.walk ((halfPages - pageOf virtStart) * pageSize)
      (mul_lt_mul_of_pos_right (by omega) (by decide))
    have htag' := (hardwareWalk_eq_some hwalk).1
    rw [tagMatches_iff, toParts_eq] at htag htag'
    have hsame := htag'.trans htag.symm
    simp only [pageOf, halfPages, pageSize] at hsame hal hend
    omega
  · have hlast := hardwareWalk_lt (h.walk (pageCount * pageSize - 1) (by
      simp only [pageSize]
      omega))
    simp only [pageSize] at hlast ⊢
    omega

lemma chunk_base_mod_iff {lvl x : ℕ} (hlvl : lvl = 1 ∨ lvl = 2) (hle : m.virt ≤ chunk lvl x) :
    (m.phy + (chunk lvl x - m.virt)) % span lvl = 0 ↔ m.phy % span lvl = m.virt % span lvl := by
  rcases hlvl with rfl | rfl <;> simp only [chunk, span] at hle ⊢ <;> omega

lemma InRange.page_of_byte (hrng : InRange phyStart virtStart pageCount)
    (hal : virtStart % pageSize = 0) {k : ℕ} (hk : k < pageCount * pageSize) :
    pageOf (virtStart + k) = pageOf virtStart + k / pageSize ∧
      (remaining phyStart virtStart pageCount 0).Contains (pageOf (virtStart + k)) ∧
      (toParts (virtStart + k)).tag = (toParts virtStart).tag := by
  have hend := hrng.virt_end
  rw [toParts_eq, toParts_eq]
  simp only [Remaining.Contains, remaining, pageOf, halfPages, pageSize] at *
  omega

lemma mod_blockSize (v lvl : ℕ) :
    v % blockSize lvl = pageOf v % span lvl * pageSize + v % pageSize := by
  have hdvd : span lvl ∣ halfPages := by
    rw [show halfPages = 512 ^ 4 from rfl]
    exact pow_dvd_pow 512 (by omega)
  rw [blockSize, mul_comm, mod_mul, pageOf, mod_mod_of_dvd _ hdvd, add_comm, mul_comm]

lemma mul_pageSize_mod_blockSize_iff {n lvl : ℕ} :
    n * pageSize % blockSize lvl = 0 ↔ n % span lvl = 0 := by
  rw [blockSize, mul_mod_mul_right, mul_eq_zero]
  exact or_iff_left (by decide)

lemma BlocksAligned.base_mod (h : pt.BlocksAligned s m) {x lvl : ℕ} (hx : m.Contains x)
    (hlvl : pt.leafLevel s m x = lvl) : (m.phy + (chunk lvl x - m.virt)) % span lvl = 0 := by
  rcases leafLevel_cases pt s m x with h3 | ⟨hlvl', hlg⟩
  · rw [← hlvl, h3]
    exact mod_one _
  · rw [hlvl] at hlvl' hlg
    exact (chunk_base_mod_iff hlvl' hlg.2.1).mpr (h lvl hlvl' x hx hlg)

section exact

variable (hrng : InRange phyStart virtStart pageCount) (hal : virtStart % pageSize = 0)
  (h : pt.Overwritten s (remaining phyStart virtStart pageCount 0) options s')
include hrng

lemma InRange.phy_le : (remaining phyStart virtStart pageCount 0).phy +
    (remaining phyStart virtStart pageCount 0).count ≤ 2 ^ 36 := by
  have hend := hrng.phy_end
  simp only [remaining, pageSize] at hend ⊢
  omega

include hal h

lemma Overwritten.mapsRange (htag : pt.tagMatches (toParts virtStart).tag = true)
    (hblks : pt.BlocksAligned s (remaining phyStart virtStart pageCount 0)) :
    pt.MapsRange s' phyStart virtStart pageCount where
  aligned i hi _ base hbase := by
    obtain ⟨-, hx, -⟩ := hrng.page_of_byte hal (k := i * pageSize)
      (mul_lt_mul_of_pos_right hi (by decide))
    obtain ⟨hlev, -, -, hbase'⟩ := h.baseAddress_eq hrng.phy_le hx rfl
    rw [hlev, hbase'] at hbase
    rw [hlev, ← Option.some.inj hbase, mul_pageSize_mod_blockSize_iff]
    exact hblks.base_mod hx rfl
  walk k hk := by
    obtain ⟨hpage, hx, htag'⟩ := hrng.page_of_byte hal hk
    obtain ⟨hlev, hne, -, hbase⟩ := h.baseAddress_eq hrng.phy_le hx rfl
    have hmod := mul_pageSize_mod_blockSize_iff.mpr (hblks.base_mod hx rfl)
    rw [hardwareWalk, if_pos ⟨by rwa [htag'], by rwa [hlev]⟩, hlev, hbase, Option.map_some,
      Nat.div_mul_cancel (Nat.dvd_of_mod_eq_zero hmod), mod_blockSize, ← add_assoc,
      ← add_mul, hx.phy_add, hpage]
    have hphy := hrng.phy_aligned
    simp only [remaining, pageSize] at hphy hal ⊢
    congr 1
    omega

lemma Overwritten.mod_eq_of_mapsRange (hexa : pt.MapsRange s' phyStart virtStart pageCount)
    {lvl x : ℕ} (hlvl : lvl = 1 ∨ lvl = 2)
    (hx : (remaining phyStart virtStart pageCount 0).Contains x)
    (hleaf : pt.leafLevel s (remaining phyStart virtStart pageCount 0) x = lvl) :
    (remaining phyStart virtStart pageCount 0).phy % span lvl =
      (remaining phyStart virtStart pageCount 0).virt % span lvl := by
  obtain ⟨hlev, -, hval, hbase⟩ := h.baseAddress_eq hrng.phy_le hx hleaf
  obtain ⟨i, hi, hix⟩ : ∃ i < pageCount, pageOf (virtStart + i * pageSize) = x := by
    obtain ⟨hge, hlt⟩ := hx
    simp only [remaining] at hge hlt
    refine ⟨x - pageOf virtStart, by omega, ?_⟩
    rw [(hrng.page_of_byte hal (mul_lt_mul_of_pos_right (by omega) (by decide))).1,
      Nat.mul_div_cancel _ (by decide)]
    omega
  have hal' := hexa.aligned i hi
  rw [hix, hlev] at hal'
  have hmod := hal' ⟨by rwa [hlev], hval⟩ _ hbase
  rw [mul_pageSize_mod_blockSize_iff] at hmod
  refine (chunk_base_mod_iff hlvl ?_).mp hmod
  rw [← hleaf]
  exact le_chunk_leafLevel hx

lemma Overwritten.blocksAligned (hexa : pt.MapsRange s' phyStart virtStart pageCount) :
    pt.BlocksAligned s (remaining phyStart virtStart pageCount 0) := by
  have hone : ∀ x, (remaining phyStart virtStart pageCount 0).Contains x →
      pt.Large s (remaining phyStart virtStart pageCount 0) 1 x →
      (remaining phyStart virtStart pageCount 0).phy % span 1 =
        (remaining phyStart virtStart pageCount 0).virt % span 1 := fun x hx hlg =>
    h.mod_eq_of_mapsRange hrng hal hexa (.inl rfl) hx (if_pos hlg)
  rintro lvl (rfl | rfl) x hx hlg
  · exact hone x hx hlg
  · by_cases hlg' : pt.Large s (remaining phyStart virtStart pageCount 0) 1 x
    · have hmod := hone x hx hlg'
      simp only [span] at hmod ⊢
      omega
    · refine h.mod_eq_of_mapsRange hrng hal hexa (.inr rfl) hx ?_
      rw [leafLevel, if_neg hlg', if_pos hlg]

end exact

/-- The hardware translates the range as requested exactly if the call was for a range in one
half, to physical addresses with 48 bits, and on the levels with blocks the virtual and the
physical address agree modulo the size of the blocks. -/
theorem mapRange_mapsRange_iff (hwf : pt.WellFormed s) (hsup : pt.Supplied s)
    (hphy : phyStart % pageSize = 0) (hlt : virtStart < 2 ^ 64)
    (hrun : mapRange phyStart virtStart pageCount options pt overwrite s = (.ok (), s')) :
    pt.MapsRange s' phyStart virtStart pageCount ↔
      pageCount = 0 ∨ InRange phyStart virtStart pageCount ∧
        pt.BlocksAligned s (remaining phyStart virtStart pageCount 0) := by
  obtain ⟨hal, htag, rfl⟩ := of_mapRange_ok hrun
  constructor
  · intro hexa
    by_cases hcnt : pageCount = 0
    · exact .inl hcnt
    · have hrng := hexa.inRange hcnt hphy hlt hal htag
      have hove := wp_ok (wp_mapRange hwf hsup hrng hal htag) hrun
      exact .inr ⟨hrng, hove.blocksAligned hrng hal hexa⟩
  · rintro (rfl | ⟨hrng, hblks⟩)
    · exact ⟨nofun, fun k hk => absurd hk (by simp)⟩
    · have hove := wp_ok (wp_mapRange hwf hsup hrng hal htag) hrun
      exact hove.mapsRange hrng hal htag hblks

/-- A block at 2 MiB is translated exactly. -/
theorem mapRange_mapsRange_two_mib :
    sampleTable.MapsRange (mapRange 0x20_0000 0 512 {} sampleTable true sampleMemory).2
      0x20_0000 0 512 := by
  have hrun : mapRange 0x20_0000 0 512 {} sampleTable true sampleMemory =
      (.ok (), (mapRange 0x20_0000 0 512 {} sampleTable true sampleMemory).2) :=
    Prod.ext (by decide +kernel) rfl
  refine (mapRange_mapsRange_iff sampleMemory_ok.1 sampleMemory_ok.2 (by decide) (by decide)
    hrun).mpr (.inr ⟨⟨by decide, by decide, by decide, by decide⟩, ?_⟩)
  rintro lvl (rfl | rfl) x - hlg
  · have hend := hlg.2.2.1
    simp only [remaining, span, pageOf, halfPages, pageSize] at hend
    omega
  · decide

/-- A block at 1 MiB passes the check of `block_entry`, and the hardware takes it to be at 0. -/
theorem mapRange_not_mapsRange_one_mib :
    sampleTable.WellFormed sampleMemory ∧ sampleTable.Supplied sampleMemory ∧
      ∃ s', mapRange 0x10_0000 0 512 {} sampleTable true sampleMemory = (.ok (), s') ∧
        (sampleTable.view s' 0).level = 2 ∧
        (sampleTable.view s' 0).entry.baseAddress 2 = some 0x10_0000 ∧
        sampleTable.hardwareWalk s' 0 = some 0 ∧
        ¬ sampleTable.MapsRange s' 0x10_0000 0 512 := by
  have hwalk : sampleTable.hardwareWalk
      (mapRange 0x10_0000 0 512 {} sampleTable true sampleMemory).2 0 = some 0 := by
    decide +kernel
  refine ⟨sampleMemory_ok.1, sampleMemory_ok.2,
    (mapRange 0x10_0000 0 512 {} sampleTable true sampleMemory).2,
    Prod.ext (by decide +kernel) rfl, by decide +kernel, by decide +kernel, hwalk,
    fun hexa => ?_⟩
  have hzero := hexa.walk 0 (by decide)
  rw [add_zero, hwalk] at hzero
  cases hzero

end PageTable

end Kernel.Memory
