import Kernel.Memory.Paging.MapRange

/-!
# Page tables as address spaces

A page table stands for a partial map from the virtual pages of its half to physical pages.
-/

namespace Kernel.Memory

open Core Action Nat

structure Mapping where
  address : ℕ
  options : PageTableEntryOptions
  deriving DecidableEq

abbrev AddressSpace := Fin halfPages → Option Mapping

def AddressSpace.overwrite (space : AddressSpace) (first count phyStart : ℕ)
    (options : PageTableEntryOptions) : AddressSpace := fun page =>
  if first ≤ page.val ∧ page.val < first + count then
    some ⟨phyStart + (page.val - first) * pageSize, options⟩
  else space page

namespace PageTable

def View.mapping (v : View) (page : ℕ) : Option Mapping :=
  if v.level = 0 then none
  else (v.entry.baseAddress v.level).map fun base =>
    ⟨base + page % span v.level * pageSize, ⟨v.entry.apReadOnly, v.entry.apEl0Access⟩⟩

def addressSpace (pt : PageTable) (s : TableMemory) : AddressSpace := fun page =>
  (pt.view s page).mapping page

def InBlock (pt : PageTable) (s : TableMemory) (page : ℕ) : Prop :=
  ((pt.view s page).level = 1 ∨ (pt.view s page).level = 2) ∧
    (pt.view s page).entry.valid = true

lemma View.mapping_of_not_valid {v : View} (h : v.entry.valid = false) (page : ℕ) :
    v.mapping page = none := by
  simp [View.mapping, PageTableEntry.baseAddress, h]

lemma View.Untouched.mapping_eq {v v' : View} (h : v.Untouched v') (page : ℕ) :
    v'.mapping page = v.mapping page := by
  rcases h with rfl | ⟨hv, hv'⟩
  · rfl
  · rw [View.mapping_of_not_valid hv, View.mapping_of_not_valid hv']

lemma baseAddress_leafEntry {pp lvl : ℕ} (options : PageTableEntryOptions) (hlvl : lvl ≤ 3)
    (hpp : pp < 2 ^ 36) : (leafEntry options pp lvl).baseAddress lvl = some (pp * pageSize) := by
  have haddr : (BitVec.ofNat 36 pp).toNat <<< 12 = pp * pageSize := by
    rw [BitVec.toNat_ofNat, mod_eq_of_lt hpp, shiftLeft_eq]
    rfl
  rw [PageTableEntry.baseAddress, if_neg]
  · exact congrArg some haddr
  · interval_cases lvl <;> simp [leafEntry, PageTableEntryOptions.apply]

variable {pt : PageTable} {s s' : TableMemory} {phyStart virtStart pageCount : ℕ}
  {options : PageTableEntryOptions} {m : Remaining}

lemma tagMatches_iff {tag : ℕ} :
    pt.tagMatches tag = true ↔ tag = if pt.highAddresses then 0xffff else 0 := by
  cases hhigh : pt.highAddresses with
  | false =>
    unfold tagMatches
    rw [hhigh]
    cases tag <;> simp
  | true =>
    unfold tagMatches
    rw [hhigh]
    by_cases htag : tag = 0xffff
    · subst htag
      simp
    · simp [htag]

/-! ### The effect of `map_range` -/

lemma leafLevel_pos (pt : PageTable) (s : TableMemory) (m : Remaining) (x : ℕ) :
    0 < pt.leafLevel s m x ∧ pt.leafLevel s m x ≤ 3 := by
  rcases leafLevel_cases pt s m x with h | ⟨h, -⟩ <;> omega

lemma Remaining.Contains.phy_add {x : ℕ} (h : m.Contains x) :
    m.phy + (chunk (pt.leafLevel s m x) x - m.virt) + x % span (pt.leafLevel s m x) =
      m.phy + (x - m.virt) := by
  have hle : m.virt ≤ chunk (pt.leafLevel s m x) x := le_chunk_leafLevel h
  have hx : chunk (pt.leafLevel s m x) x + x % span (pt.leafLevel s m x) = x :=
    div_add_mod' x _
  omega

lemma Remaining.Contains.phy_lt {x : ℕ} (h : m.Contains x) (hphy : m.phy + m.count ≤ 2 ^ 36)
    (lvl : ℕ) : m.phy + (chunk lvl x - m.virt) < 2 ^ 36 := by
  have hchk := chunk_le lvl x
  obtain ⟨hge, hlt⟩ := h
  omega

section overwritten

variable (h : pt.Overwritten s m options s') (hphy : m.phy + m.count ≤ 2 ^ 36) {x : ℕ}
  (hx : m.Contains x)
include h hphy hx

lemma Overwritten.baseAddress_eq {lvl : ℕ} (hlvl : pt.leafLevel s m x = lvl) :
    (pt.view s' x).level = lvl ∧ lvl ≠ 0 ∧ (pt.view s' x).entry.valid = true ∧
      (pt.view s' x).entry.baseAddress lvl =
        some ((m.phy + (chunk lvl x - m.virt)) * pageSize) := by
  obtain ⟨hpos, hle⟩ : 0 < lvl ∧ lvl ≤ 3 := hlvl ▸ leafLevel_pos pt s m x
  rw [h.inside x hx lvl hlvl]
  exact ⟨rfl, hpos.ne', rfl, baseAddress_leafEntry options hle (hx.phy_lt hphy lvl)⟩

lemma Overwritten.mapping_eq :
    (pt.view s' x).mapping x = some ⟨(m.phy + (x - m.virt)) * pageSize, options⟩ := by
  obtain ⟨hlev, hne, -, hbase⟩ := h.baseAddress_eq hphy hx rfl
  have hopt := h.inside x hx _ rfl
  rw [View.mapping, hlev, if_neg hne, hbase, Option.map_some, ← add_mul, hx.phy_add, hopt]
  rfl

end overwritten

section

variable (hwf : pt.WellFormed s) (hsup : pt.Supplied s)
  (hrng : InRange phyStart virtStart pageCount) (hal : virtStart % pageSize = 0)
  (htag : pt.tagMatches (VirtualAddress.toParts virtStart).tag = true)
include hwf hsup hrng hal htag

lemma wp_mapRange : wp (mapRange phyStart virtStart pageCount options pt true)
    (fun _ => pt.Overwritten s (remaining phyStart virtStart pageCount 0) options)
    (pt.Aborted s (remaining phyStart virtStart pageCount 0)) s := by
  have hoff : (VirtualAddress.toParts virtStart).offset = 0 := by
    rw [toParts_eq]
    exact hal
  rw [mapRange, if_neg (not_not.mpr hoff), if_neg (not_not.mpr htag), if_neg (not_not.mpr rfl)]
  exact wp_mapPages hrng hwf hsup (sub_le _ _)

/-- `map_range` overwrites the address space at exactly the pages of the range. When there is no
page for a table, the pages outside of the range keep their mapping. The only other way to end is
at an entry of level 0 that is valid and not a table. -/
theorem mapRange_overwrites
    (hblocks : ∀ page, pageOf virtStart ≤ page → page < pageOf virtStart + pageCount →
      ¬ pt.InBlock s page) :
    wp (mapRange phyStart virtStart pageCount options pt true)
      (fun _ s' => pt.WellFormed s' ∧ pt.addressSpace s' =
        (pt.addressSpace s).overwrite (pageOf virtStart) pageCount phyStart options)
      (fun e s' =>
        e = .memory .outOfMemory ∧ pt.WellFormed s' ∧ (∀ page : Fin halfPages,
              ¬ (pageOf virtStart ≤ page ∧ page < pageOf virtStart + pageCount) →
              pt.addressSpace s' page = pt.addressSpace s page) ∨
          e = .panic .assertion ∧ ∃ page, pageOf virtStart ≤ page ∧
            page < pageOf virtStart + pageCount ∧ (pt.view s page).level = 0 ∧
            (pt.view s page).entry.valid = true) s := by
  refine wp_mono (wp_mapRange hwf hsup hrng hal htag) (fun _ s' h => ?_) fun e s' h => ?_
  · refine ⟨h.wellFormed, funext fun page => ?_⟩
    rw [AddressSpace.overwrite]
    split_ifs with hpage
    · have hphy := hrng.phy_end
      have hbase : phyStart / pageSize * pageSize = phyStart :=
        Nat.div_mul_cancel (Nat.dvd_of_mod_eq_zero hrng.phy_aligned)
      have hmap := h.mapping_eq (x := page)
        (by simp only [remaining, pageSize] at hphy ⊢; omega) hpage
      rw [addressSpace, hmap]
      dsimp only [remaining]
      rw [add_zero, add_zero, add_mul, hbase]
    · exact (h.outside page page.isLt hpage).mapping_eq page
  · rcases h with ⟨rfl, hwf', -, hout⟩ | ⟨rfl, page, hpage, hlev, hval⟩
    · exact .inl ⟨rfl, hwf', fun page hpage =>
        (hout page page.isLt hpage).mapping_eq page⟩
    · refine .inr ⟨rfl, page, hpage.1, hpage.2, ?_, hval⟩
      by_contra hne
      exact hblocks page hpage.1 hpage.2 ⟨by omega, hval⟩

end

def sampleTable : PageTable := ⟨false, 1, 0x1000⟩

def sampleMemory : TableMemory := ⟨fun _ _ => .invalid, ⟨List.replicate 8 false, 0x10000⟩⟩

lemma sampleMemory_ok :
    sampleTable.WellFormed sampleMemory ∧ sampleTable.Supplied sampleMemory := by
  refine ⟨wellFormed_of_empty fun _ => rfl, supplied_of_empty (fun _ => rfl) ?_ ?_ ?_⟩
  · decide
  · decide
  · intro i _ heq
    simp only [sampleMemory, sampleTable] at heq
    omega

theorem mapRange_overwrites_three_pages :
    sampleTable.WellFormed (mapRange 0x5000 0x7000 3 {} sampleTable true sampleMemory).2 ∧
      sampleTable.addressSpace (mapRange 0x5000 0x7000 3 {} sampleTable true sampleMemory).2 =
        (sampleTable.addressSpace sampleMemory).overwrite 7 3 0x5000 {} := by
  have hrun : mapRange 0x5000 0x7000 3 {} sampleTable true sampleMemory =
      (.ok (), (mapRange 0x5000 0x7000 3 {} sampleTable true sampleMemory).2) :=
    Prod.ext (by decide +kernel) rfl
  refine wp_ok (mapRange_overwrites sampleMemory_ok.1 sampleMemory_ok.2
    ⟨by decide, by decide, by decide, by decide⟩ (by decide) (by decide) ?_) hrun
  intro page _ _ hblk
  rw [InBlock, view_of_empty fun _ => rfl] at hblk
  exact absurd hblk.1 (by decide)

end PageTable

end Kernel.Memory
