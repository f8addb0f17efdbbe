import Kernel.Memory.Paging.Traverse

/-!
# Copying from mapped memory

`mapped_copy_from` copies a range of virtual addresses region by region, from the regions that the
iterator of the page table yields.
-/

namespace Kernel.Memory

open Core Action VirtualAddress PageTableIter List Nat

def readBytes (contents : ℕ → UInt8) (address len : ℕ) : List UInt8 :=
  (List.range len).map fun k => contents (address + k)

def copySlice (dst : List UInt8) (first last : ℕ) (src : List UInt8) : Checked (List UInt8) :=
  if first ≤ last ∧ last ≤ dst.length then
    if src.length = last - first then .ok (dst.take first ++ src ++ dst.drop last)
    else .error .explicit
  else .error .outOfBounds

namespace PageTable

abbrev Copied := Except MemoryError Unit × List UInt8

section

variable (tables : ℕ → LevelTable) (contents : ℕ → UInt8)

def copyFailed (dst : List UInt8) (offset nextStart : ℕ) : Checked Copied := do
  let remaining ← checkedSub dst.length offset
  return (.error (.map (.copyFromUnmapped (some nextStart) remaining)), dst)

def copyRegions : (steps : ℕ) → PageTableIter → List UInt8 → (offset nextStart : ℕ) →
    Checked Copied
  | 0, _, dst, offset, nextStart => copyFailed dst offset nextStart
  | steps + 1, it, dst, offset, nextStart => do
    match ← it.next tables with
    | none => copyFailed dst offset nextStart
    | some (region, it) => do
      let left ← checkedSub dst.length offset
      if left = 0 then return (.ok (), dst)
      else if region.baseVirtAddr ≠ nextStart then copyFailed dst offset nextStart
      else do
        let size ← checkedMul region.pageCount pageSize
        let len := min size left
        let _ ← PhysicalAddress.toVirtualCanonical region.basePhysAddr
        let last ← checkedAdd offset len
        let dst ← copySlice dst offset last (readBytes contents region.basePhysAddr len)
        copyRegions steps it dst last (add region.baseVirtAddr size)

def mappedCopyFrom (pt : PageTable) (srcStart : ℕ) (dst : List UInt8) : Checked Copied :=
  let parts := toParts srcStart
  if ¬ pt.tagMatches parts.tag then .ok (.error (.map .invalidTag), dst)
  else do
    let it ← startingAt tables pt parts.lv0 parts.lv1 parts.lv2 parts.lv3
    match ← it.next tables with
    | none => return (.error (.map (.copyFromUnmapped none dst.length)), dst)
    | some (first, it) =>
      if add first.baseVirtAddr parts.offset ≠ srcStart then
        return (.error (.map (.copyFromUnmapped none dst.length)), dst)
      else do
        let size ← checkedMul first.pageCount pageSize
        let offset := min (← checkedSub size parts.offset) dst.length
        let _ ← PhysicalAddress.toVirtualCanonical first.basePhysAddr
        let dst ← copySlice dst 0 offset
          (readBytes contents (first.basePhysAddr + parts.offset) offset)
        copyRegions tables contents maxSteps it dst offset
          (add first.baseVirtAddr size)

end

/-! ### What a copy should do -/

variable {pt : PageTable} {s : TableMemory} {contents : ℕ → UInt8} {srcStart z : ℕ}
  {dst : List UInt8}

def AllMapped (pt : PageTable) (s : TableMemory) (srcStart len : ℕ) : Prop :=
  ∀ k < len, pt.leafAddress s (srcStart + k) ≠ none

def CopiesExactly (pt : PageTable) (s : TableMemory) (contents : ℕ → UInt8) (srcStart : ℕ)
    (dst : List UInt8) : Prop :=
  ∃ result dst', mappedCopyFrom s.tables contents pt srcStart dst = .ok (result, dst') ∧
    (result = .ok () ↔ pt.AllMapped s srcStart dst.length) ∧
    (result = .ok () → dst'.length = dst.length ∧ ∀ k < dst.length, ∃ a,
      pt.leafAddress s (srcStart + k) = some a ∧ dst'[k]? = some (contents a))

def endOfCopy (pt : PageTable) (s : TableMemory) (srcStart len : ℕ) : ℕ :=
  let last := pageOf (srcStart + (len - 1))
  chunk (pt.view s last).level last + span (pt.view s last).level

structure Recognized (pt : PageTable) (s : TableMemory) (srcStart len : ℕ) : Prop where
  begins : pageOf srcStart % span (pt.view s (pageOf srcStart)).level = 0
  further : ∃ x < halfPages, pt.endOfCopy s srcStart len ≤ x ∧ pt.frame s x ≠ none

/-! ### Bytes and pages -/

lemma leafAddress_end : pt.leafAddress s (pt.address halfPages) = none := by
  rw [leafAddress, if_neg]
  rw [tagMatches_iff, toParts_eq]
  change ¬ _ = pt.tag
  rw [address, tag]
  simp only [halfPages, pageSize]
  split_ifs <;> decide

lemma IsLeaf.leafAddress_eq {k : ℕ} (h : pt.IsLeaf s z) (hz : z < halfPages)
    (hk : k < span (pt.view s z).level * pageSize) :
    pt.leafAddress s (pt.address z + k) = some ((pt.region s z).basePhysAddr + k) := by
  have hpage : k / pageSize < span (pt.view s z).level :=
    Nat.div_lt_of_lt_mul (Nat.mul_comm _ _ ▸ hk)
  have hspl : pt.address z + k = pt.address (z + k / pageSize) + k % pageSize := by
    simp only [address, pageSize]
    omega
  have hend := h.1.end_le hz
  rw [hspl, leafAddress_address (by omega) (mod_lt _ (by decide)), h.frame_add hz hpage,
    Option.map_some, add_assoc, div_add_mod']

lemma isLeaf_of_leafAddress (hz : z ≤ halfPages) (hbeg : z < halfPages → pt.Begins s z)
    (hmap : pt.leafAddress s (pt.address z) ≠ none) : z < halfPages ∧ pt.IsLeaf s z := by
  rcases lt_or_eq_of_le hz with hlt | rfl
  · refine ⟨hlt, hbeg hlt, fun hnone => hmap ?_⟩
    have haddr := @leafAddress_address pt s z 0 hlt (by decide)
    rwa [hnone, add_zero] at haddr
  · exact absurd leafAddress_end hmap

lemma leavesFrom_of_allMapped {len : ℕ} (hz : z ≤ halfPages) (hbeg : z < halfPages → pt.Begins s z)
    (hlen : 0 < len) (hall : pt.AllMapped s (pt.address z) len) :
    pt.leavesFrom s z = z :: pt.leavesFrom s (z + span (pt.view s z).level) := by
  have hmap := hall 0 hlen
  rw [add_zero] at hmap
  obtain ⟨hlt, hleaf⟩ := isLeaf_of_leafAddress hz hbeg hmap
  exact hleaf.leavesFrom_eq hlt

lemma leavesFrom_ne_nil_iff (hbeg : z < halfPages → pt.Begins s z) :
    pt.leavesFrom s z ≠ [] ↔ ∃ x < halfPages, z ≤ x ∧ pt.frame s x ≠ none := by
  constructor
  · intro hne
    obtain ⟨y, hy⟩ := exists_mem_of_ne_nil _ hne
    obtain ⟨hle, hlt, hleaf⟩ := mem_leavesFrom.mp hy
    exact ⟨y, hlt, hle, hleaf.2⟩
  · rintro ⟨x, hx, hle, hmap⟩
    obtain ⟨a, hfr⟩ := Option.ne_none_iff_exists'.mp hmap
    obtain ⟨y, j, hleaf, hj, rfl⟩ := exists_leaf hx hfr
    refine ne_nil_of_mem (mem_leavesFrom.mpr ⟨?_, by omega, hleaf⟩)
    by_contra hbef
    exact hleaf.1.not_begins (by omega) (Nat.lt_of_not_le hbef) (by omega)
      (hbeg (by omega))

def copyEnd (pt : PageTable) (s : TableMemory) (z len : ℕ) : ℕ :=
  if len = 0 then z else pt.endOfCopy s (pt.address z) len

lemma IsLeaf.size_lt (h : pt.IsLeaf s z) : (pt.region s z).pageCount * pageSize < 2 ^ 64 := by
  rcases h.pageCount_eq with hcnt | hcnt | hcnt <;> rw [hcnt] <;> decide

lemma IsLeaf.basePhysAddr_lt (h : pt.IsLeaf s z) : (pt.region s z).basePhysAddr < 2 ^ 48 := by
  obtain ⟨-, base, hbase, hfr⟩ := h.base_eq
  rw [region, hfr]
  exact baseAddress_lt hbase

section leaf

variable {po len : ℕ} (hleaf : pt.IsLeaf s z) (hz : z < halfPages)

include hleaf hz

lemma IsLeaf.allMapped_iff (hpo : po < span (pt.view s z).level * pageSize) :
    pt.AllMapped s (pt.address z + po) len ↔
      pt.AllMapped s (pt.address (z + span (pt.view s z).level))
        (len - min (span (pt.view s z).level * pageSize - po) len) := by
  rw [address_add]
  constructor
  · intro hall k hk
    have hmap := hall (span (pt.view s z).level * pageSize - po + k) (by omega)
    rwa [show pt.address z + po + (span (pt.view s z).level * pageSize - po + k) =
      pt.address z + span (pt.view s z).level * pageSize + k by omega] at hmap
  · intro hall k hk
    by_cases hin : po + k < span (pt.view s z).level * pageSize
    · rw [add_assoc, hleaf.leafAddress_eq hz hin]
      exact nofun
    · have hmap := hall (po + k - span (pt.view s z).level * pageSize) (by omega)
      rwa [show pt.address z + span (pt.view s z).level * pageSize +
        (po + k - span (pt.view s z).level * pageSize) = pt.address z + po + k by omega] at hmap

lemma IsLeaf.copyEnd_eq (hpo : po < span (pt.view s z).level * pageSize) (hlen : 0 < len) :
    pt.copyEnd s (z + span (pt.view s z).level)
      (len - min (span (pt.view s z).level * pageSize - po) len) =
        pt.endOfCopy s (pt.address z + po) len := by
  rw [copyEnd, address_add]
  split_ifs with hlast
  · have hk : po + (len - 1) < span (pt.view s z).level * pageSize := by omega
    have hdiv : (po + (len - 1)) / pageSize < span (pt.view s z).level :=
      Nat.div_lt_of_lt_mul (Nat.mul_comm _ _ ▸ hk)
    have hend := hleaf.1.end_le hz
    have hpage : pageOf (pt.address z + po + (len - 1)) = z + (po + (len - 1)) / pageSize := by
      rw [add_assoc]
      exact pageOf_address_add (by omega)
    rw [endOfCopy, hpage, hleaf.1.view_eq hz le_self_add (by omega), chunk,
      hleaf.1.div_eq le_self_add (by omega)]
    exact congrArg (· + _) (begins_iff.mp hleaf.1).symm
  · have hsum : pt.address z + span (pt.view s z).level * pageSize +
        (len - min (span (pt.view s z).level * pageSize - po) len - 1) =
          pt.address z + po + (len - 1) := by omega
    rw [endOfCopy, endOfCopy, hsum]

end leaf

/-! ### The loop -/

@[simp] lemma length_readBytes (address len : ℕ) :
    (readBytes contents address len).length = len := by
  simp [readBytes]

lemma copySlice_eq {first last : ℕ} {src : List UInt8} (hle : first ≤ last)
    (hlast : last ≤ dst.length) (hsrc : src.length = last - first) :
    ∃ dst', copySlice dst first last src = .ok dst' ∧ dst'.length = dst.length ∧
      (∀ k < first, dst'[k]? = dst[k]?) ∧
      ∀ k < last - first, dst'[first + k]? = src[k]? := by
  refine ⟨_, by rw [copySlice, if_pos ⟨hle, hlast⟩, if_pos hsrc], ?_, fun k hk => ?_,
    fun k hk => ?_⟩
  · simp only [length_append, length_take, length_drop]
    omega
  · rw [append_assoc, List.getElem?_append_left (by rw [length_take]; omega),
      List.getElem?_take_of_lt hk]
  · have hlen : (dst.take first).length = first := by
      rw [length_take]
      omega
    rw [append_assoc, List.getElem?_append_right (by omega), hlen,
      Nat.add_sub_cancel_left, List.getElem?_append_left (by omega)]

lemma copyFailed_eq {offset : ℕ} (nextStart : ℕ) (hoff : offset ≤ dst.length) :
    ∃ e, copyFailed dst offset nextStart = .ok (.error e, dst) :=
  ⟨_, bind_eq_ok.mpr ⟨_, checkedSub_eq_ok.mpr ⟨hoff, rfl⟩, rfl⟩⟩

section loop

variable {it it' : PageTableIter} {steps offset nextStart : ℕ} {r : MappedRegion}

lemma copyRegions_of_none (hnext : it.next s.tables = .ok none) :
    copyRegions s.tables contents (steps + 1) it dst offset nextStart =
      copyFailed dst offset nextStart := by
  rw [copyRegions, checked_bind_of_ok hnext]

lemma copyRegions_of_done (hnext : it.next s.tables = .ok (some (r, it')))
    (hdone : offset = dst.length) :
    copyRegions s.tables contents (steps + 1) it dst offset nextStart = .ok (.ok (), dst) := by
  have hleft : checkedSub dst.length offset = .ok 0 :=
    checkedSub_eq_ok.mpr ⟨hdone.le, by omega⟩
  rw [copyRegions, checked_bind_of_ok hnext]
  dsimp only
  rw [checked_bind_of_ok hleft]
  rfl

lemma copyRegions_of_ne (hnext : it.next s.tables = .ok (some (r, it')))
    (hoff : offset < dst.length) (hne : r.baseVirtAddr ≠ nextStart) :
    copyRegions s.tables contents (steps + 1) it dst offset nextStart =
      copyFailed dst offset nextStart := by
  have hleft : checkedSub dst.length offset = .ok (dst.length - offset) :=
    checkedSub_eq_ok.mpr ⟨hoff.le, rfl⟩
  rw [copyRegions, checked_bind_of_ok hnext]
  dsimp only
  rw [checked_bind_of_ok hleft, if_neg (by omega), if_pos hne]

lemma copyRegions_of_eq (hnext : it.next s.tables = .ok (some (r, it')))
    (hoff : offset < dst.length) (hlen : dst.length < 2 ^ 64) (heq : r.baseVirtAddr = nextStart)
    (hsize : r.pageCount * pageSize < 2 ^ 64) (hbase : r.basePhysAddr < 2 ^ 48) :
    ∃ dst', dst'.length = dst.length ∧ (∀ k < offset, dst'[k]? = dst[k]?) ∧
      (∀ k < min (r.pageCount * pageSize) (dst.length - offset),
        dst'[offset + k]? = some (contents (r.basePhysAddr + k))) ∧
      copyRegions s.tables contents (steps + 1) it dst offset nextStart =
        copyRegions s.tables contents steps it' dst'
          (offset + min (r.pageCount * pageSize) (dst.length - offset))
          (add r.baseVirtAddr (r.pageCount * pageSize)) := by
  have hleft : checkedSub dst.length offset = .ok (dst.length - offset) :=
    checkedSub_eq_ok.mpr ⟨hoff.le, rfl⟩
  have hmul : checkedMul r.pageCount pageSize = .ok (r.pageCount * pageSize) :=
    checkedMul_eq_ok.mpr ⟨hsize, rfl⟩
  obtain ⟨len, hlen'⟩ : ∃ len, min (r.pageCount * pageSize) (dst.length - offset) = len :=
    ⟨_, rfl⟩
  rw [hlen']
  have hadd : checkedAdd offset len = .ok (offset + len) :=
    checkedAdd_eq_ok.mpr ⟨by omega, rfl⟩
  have hsrc : (readBytes contents r.basePhysAddr len).length = offset + len - offset := by
    rw [length_readBytes, Nat.add_sub_cancel_left]
  have hlast : offset + len ≤ dst.length := by omega
  obtain ⟨dst', hcopy, hleng, hbef, hbyt⟩ := copySlice_eq le_self_add hlast hsrc
  refine ⟨dst', hleng, hbef, fun k hk => ?_, ?_⟩
  · rw [hbyt k (by omega), readBytes, List.getElem?_map, List.getElem?_range hk]
    rfl
  · rw [copyRegions, checked_bind_of_ok hnext]
    dsimp only
    rw [checked_bind_of_ok hleft, if_neg (by omega), if_neg (not_not.mpr heq),
      checked_bind_of_ok hmul, hlen', checked_bind_of_ok (toVirtualCanonical_eq hbase),
      checked_bind_of_ok hadd, checked_bind_of_ok hcopy]

structure CopyResult (pt : PageTable) (s : TableMemory) (contents : ℕ → UInt8)
    (start last offset : ℕ) (dst : List UInt8) (result : Except MemoryError Unit)
    (dst' : List UInt8) : Prop where
  ok_iff : result = .ok () ↔
    pt.AllMapped s start (dst.length - offset) ∧ pt.leavesFrom s last ≠ []
  length_eq : dst'.length = dst.length
  before : ∀ k < offset, dst'[k]? = dst[k]?
  bytes : result = .ok () → ∀ k < dst.length - offset, ∃ a,
    pt.leafAddress s (start + k) = some a ∧ dst'[offset + k]? = some (contents a)

lemma CopyResult.failed {start last : ℕ} {e : MemoryError}
    (h : ¬ (pt.AllMapped s start (dst.length - offset) ∧ pt.leavesFrom s last ≠ [])) :
    pt.CopyResult s contents start last offset dst (.error e) dst :=
  ⟨iff_of_false nofun h, rfl, fun _ _ => rfl, nofun⟩

lemma IsLeaf.copyResult {po len : ℕ} {dst₁ dst' : List UInt8} {result : Except MemoryError Unit}
    (hleaf : pt.IsLeaf s z) (hz : z < halfPages)
    (hpo : po < span (pt.view s z).level * pageSize) (hoff : offset < dst.length)
    (hlen : min (span (pt.view s z).level * pageSize - po) (dst.length - offset) = len)
    (hleng : dst₁.length = dst.length) (hbef : ∀ k < offset, dst₁[k]? = dst[k]?)
    (hbyt : ∀ k < len, dst₁[offset + k]? = some (contents ((pt.region s z).basePhysAddr + po + k)))
    (h : pt.CopyResult s contents (pt.address (z + span (pt.view s z).level))
      (pt.copyEnd s (z + span (pt.view s z).level) (dst₁.length - (offset + len)))
      (offset + len) dst₁ result dst') :
    pt.CopyResult s contents (pt.address z + po)
      (pt.endOfCopy s (pt.address z + po) (dst.length - offset)) offset dst result dst' := by
  have hleft : dst₁.length - (offset + len) = dst.length - offset - len := by omega
  have hend := hleaf.copyEnd_eq hz hpo (Nat.sub_pos_of_lt hoff)
  have hall : pt.AllMapped s (pt.address z + po) (dst.length - offset) ↔ _ :=
    hleaf.allMapped_iff hz hpo
  rw [hlen] at hend hall
  obtain ⟨hiff, hlen', hbef', hbyt'⟩ := h
  rw [hleft, hend, ← hall] at hiff
  refine ⟨hiff, hlen'.trans hleng, fun k hk => ?_, fun hok k hk => ?_⟩
  · rw [hbef' k (by omega), hbef k hk]
  · by_cases hin : k < len
    · refine ⟨_, ?_, (hbef' _ (by omega)).trans (hbyt k hin)⟩
      rw [add_assoc, add_assoc]
      exact hleaf.leafAddress_eq hz (by omega)
    · obtain ⟨a, hmap, hbyte⟩ := hbyt' hok (k - len) (by omega)
      refine ⟨a, ?_, ?_⟩
      · rwa [address_add, show pt.address z + span (pt.view s z).level * pageSize + (k - len) =
          pt.address z + po + k by omega] at hmap
      · rwa [show offset + len + (k - len) = offset + k by omega] at hbyte

lemma copyRegions_spec (hz : z ≤ halfPages) (hbeg : z < halfPages → pt.Begins s z) {ys : List ℕ}
    (hys : pt.leavesFrom s z = ys) (hyld : Yields (next s.tables) it (ys.map (pt.region s)))
    (hste : ys.length < steps) (hoff : offset ≤ dst.length) (hlen : dst.length < 2 ^ 64) :
    ∃ result dst', copyRegions s.tables contents steps it dst offset (pt.address z % 2 ^ 64) =
      .ok (result, dst') ∧
      pt.CopyResult s contents (pt.address z) (pt.copyEnd s z (dst.length - offset)) offset dst
        result dst' := by
  induction ys generalizing z it steps offset dst with
  | nil =>
    obtain ⟨steps, rfl⟩ := exists_eq_add_one_of_ne_zero (ne_zero_of_lt hste)
    cases hyld with
    | done hend =>
      obtain ⟨e, hfld⟩ := copyFailed_eq (pt.address z % 2 ^ 64) hoff
      refine ⟨_, _, (copyRegions_of_none hend).trans hfld, .failed fun ⟨hall, hmore⟩ => ?_⟩
      rcases eq_or_lt_of_le hoff with rfl | hlt
      · rw [Nat.sub_self] at hmore
        exact hmore hys
      · rw [leavesFrom_of_allMapped hz hbeg (by omega) hall] at hys
        cases hys
  | cons y ys ih =>
    obtain ⟨steps, rfl⟩ := exists_eq_add_one_of_ne_zero (ne_zero_of_lt hste)
    obtain ⟨hle, hy, hleaf⟩ := mem_leavesFrom.mp (hys ▸ mem_cons_self)
    cases hyld with
    | more hreg hrest =>
      rcases eq_or_lt_of_le hoff with rfl | hlt
      · refine ⟨_, _, copyRegions_of_done hreg rfl, ?_, rfl, fun _ _ => rfl, ?_⟩
        · rw [Nat.sub_self]
          refine iff_of_true rfl ⟨nofun, ?_⟩
          rw [copyEnd, if_pos rfl, hys]
          exact cons_ne_nil _ _
        · rw [Nat.sub_self]
          exact nofun
      have hmod : pt.address z % 2 ^ 64 = pt.address z :=
        mod_eq_of_lt (address_lt (by omega))
      by_cases heq : y = z
      · subst heq
        have hend := hleaf.1.end_le hy
        obtain ⟨dst₁, hleng, hbef, hbyt, hrun⟩ := @copyRegions_of_eq s contents dst _ _ steps
          _ _ _ hreg hlt hlen hmod.symm hleaf.size_lt hleaf.basePhysAddr_lt
        have hoff' : offset + min ((pt.region s y).pageCount * pageSize)
            (dst.length - offset) ≤ dst₁.length := by omega
        rw [hleaf.leavesFrom_eq hy] at hys
        obtain ⟨result, dst', hrest, hres⟩ := ih hend hleaf.1.next (List.cons.inj hys).2 hrest
          (lt_of_succ_lt_succ hste) hoff' (hleng ▸ hlen)
        refine ⟨result, dst', hrun.trans ?_, ?_⟩
        · rw [← hrest, address_add]
          rfl
        · have hstep : pt.CopyResult s contents (pt.address y + 0) _ offset dst result dst' :=
            hleaf.copyResult hy (mul_pos (span_pos _) (by decide)) hlt rfl hleng hbef
              hbyt hres
          rw [copyEnd, if_neg (by omega)]
          rwa [add_zero] at hstep
      · have hne : (pt.region s y).baseVirtAddr ≠ pt.address z % 2 ^ 64 := by
          rw [hmod]
          exact fun h => heq (address_inj.mp h)
        obtain ⟨e, hfld⟩ := copyFailed_eq (pt.address z % 2 ^ 64) hoff
        refine ⟨_, _, (copyRegions_of_ne hreg hlt hne).trans hfld, .failed fun h => ?_⟩
        rw [leavesFrom_of_allMapped hz hbeg (by omega) h.1] at hys
        exact heq (List.cons.inj hys).1.symm

end loop

/-! ### The whole copy -/

lemma pageOfIndices_toParts (v : ℕ) :
    pageOfIndices (toParts v).lv0 (toParts v).lv1
      (toParts v).lv2 (toParts v).lv3 = pageOf v := by
  rw [toParts_eq]
  simp only [pageOfIndices, if_pos (mod_lt _ (by decide : 0 < 512)), pageOf,
    halfPages, pageSize]
  omega

lemma startingAt_toParts (hprop : pt.Proper s) (v : ℕ) :
    ∃ it, startingAt s.tables pt (toParts v).lv0
      (toParts v).lv1 (toParts v).lv2
      (toParts v).lv3 = .ok it ∧
      Yields (next s.tables) it
        ((pt.leavesFrom s (chunk (pt.view s (pageOf v)).level (pageOf v))).map (pt.region s)) := by
  obtain ⟨it, rs, hrun, hyld, hlvs⟩ := startingAt_leaves hprop
    (toParts v).lv0 (toParts v).lv1
    (toParts v).lv2 (toParts v).lv3
  refine ⟨it, hrun, ?_⟩
  rw [← pageOfIndices_toParts, ← hlvs]
  · exact hyld
  · rw [toParts_eq]
    simp only [forall_mem_cons, not_mem_nil, false_imp_iff, implies_true, and_true]
    omega

lemma add_offset_eq_iff {y : ℕ} (hlt : srcStart < 2 ^ 64)
    (htag : pt.tagMatches (toParts srcStart).tag = true) (hy : y < halfPages) :
    add (pt.address y) (toParts srcStart).offset = srcStart ↔
      y = pageOf srcStart := by
  have hsrc := eq_address hlt htag
  have hoff : (toParts srcStart).offset = srcStart % pageSize := by
    rw [toParts_eq]
  have hbou : pt.address y + srcStart % pageSize < 2 ^ 64 := by
    have htag := pt.tag_le
    simp only [address, halfPages, pageSize] at *
    omega
  rw [add, wrappingAdd, hoff, mod_eq_of_lt hbou]
  exact Iff.trans (by omega) (@address_inj pt _ _)

lemma begins_endOfCopy (pt : PageTable) (s : TableMemory) (srcStart len : ℕ)
    (h : pt.endOfCopy s srcStart len < halfPages) :
    pt.Begins s (pt.endOfCopy s srcStart len) := by
  have hlast := pageOf_lt (srcStart + (len - 1))
  have hbeg : pt.Begins s (chunk (pt.view s (pageOf (srcStart + (len - 1)))).level
      (pageOf (srcStart + (len - 1)))) := begins_chunk hlast
  have hnext := hbeg.next
  rw [view_chunk hlast] at hnext
  exact hnext h

section first

variable {it : PageTableIter} {ys : List ℕ}
  (htag : pt.tagMatches (toParts srcStart).tag = true)
  (hst : startingAt s.tables pt (toParts srcStart).lv0 (toParts srcStart).lv1 (toParts srcStart).lv2
    (toParts srcStart).lv3 = .ok it)
  (hlt : srcStart < 2 ^ 64)
  (hlvs : ∀ y ∈ ys, y < halfPages ∧ pt.IsLeaf s y)
  (hyld : Yields (next s.tables) it (ys.map (pt.region s)))

include htag hst hlt hlvs hyld

lemma mappedCopyFrom_of_ne (hne : ys.head? ≠ some (pageOf srcStart)) :
    ∃ e, mappedCopyFrom s.tables contents pt srcStart dst = .ok (.error e, dst) := by
  rw [mappedCopyFrom, if_neg (not_not.mpr htag), checked_bind_of_ok hst]
  cases ys with
  | nil =>
    cases hyld with
    | done hend =>
      rw [checked_bind_of_ok hend]
      exact ⟨_, rfl⟩
  | cons y ys =>
    cases hyld with
    | more hreg hrest =>
      rw [checked_bind_of_ok hreg]
      dsimp only
      rw [if_pos]
      · exact ⟨_, rfl⟩
      · exact fun h => hne (congrArg some
          ((add_offset_eq_iff hlt htag (hlvs y mem_cons_self).1).mp h))

lemma mappedCopyFrom_of_eq (hys : ys = pageOf srcStart :: pt.leavesFrom s (pageOf srcStart +
      span (pt.view s (pageOf srcStart)).level)) (hpos : 0 < dst.length)
    (hlen : dst.length < 2 ^ 64) :
    ∃ result dst', mappedCopyFrom s.tables contents pt srcStart dst = .ok (result, dst') ∧
      pt.CopyResult s contents srcStart (pt.endOfCopy s srcStart dst.length) 0 dst
        result dst' := by
  subst hys
  obtain ⟨hx, hleaf⟩ := hlvs _ mem_cons_self
  have hsrc := eq_address hlt htag
  have hadd : add (pt.region s (pageOf srcStart)).baseVirtAddr
      (toParts srcStart).offset = srcStart :=
    (add_offset_eq_iff hlt htag hx).mpr rfl
  have hoff : (toParts srcStart).offset = srcStart % pageSize := by
    rw [toParts_eq]
  have hpo : srcStart % pageSize < span (pt.view s (pageOf srcStart)).level * pageSize :=
    (Nat.mod_lt _ (by decide)).trans_le (Nat.le_mul_of_pos_left _ (span_pos _))
  cases hyld with
  | more hreg hrest =>
    obtain ⟨size, hsize⟩ : ∃ size, span (pt.view s (pageOf srcStart)).level * pageSize = size :=
      ⟨_, rfl⟩
    have hmul : checkedMul (pt.region s (pageOf srcStart)).pageCount pageSize = .ok size :=
      checkedMul_eq_ok.mpr ⟨hleaf.size_lt, hsize.symm⟩
    have hsub : checkedSub size (toParts srcStart).offset =
        .ok (size - srcStart % pageSize) :=
      checkedSub_eq_ok.mpr ⟨by omega, by rw [hoff]⟩
    obtain ⟨len, hlen'⟩ : ∃ len, min (size - srcStart % pageSize) dst.length = len := ⟨_, rfl⟩
    have hle : len ≤ dst.length := by omega
    obtain ⟨dst₁, hcopy, hleng, hbef, hbyt⟩ := copySlice_eq (zero_le len) hle
      (length_readBytes ((pt.region s (pageOf srcStart)).basePhysAddr + srcStart % pageSize) len)
    obtain ⟨result, dst', hrun, hres⟩ := copyRegions_spec (hleaf.1.end_le hx) hleaf.1.next rfl
      hrest (length_leavesFrom_lt _ _ _) (hleng ▸ hle) (hleng ▸ hlen)
    refine ⟨result, dst', ?_, ?_⟩
    · rw [mappedCopyFrom, if_neg (not_not.mpr htag), checked_bind_of_ok hst,
        checked_bind_of_ok hreg]
      dsimp only
      rw [if_neg (not_not.mpr hadd), checked_bind_of_ok hmul, checked_bind_of_ok hsub,
        checked_bind_of_ok (toVirtualCanonical_eq hleaf.basePhysAddr_lt), hlen', hoff,
        checked_bind_of_ok hcopy, ← hrun, address_add, hsize]
      rfl
    · rw [← zero_add len] at hres
      have hstep := hleaf.copyResult hx hpo hpos (by rw [hsize, Nat.sub_zero, hlen']) hleng
        hbef (fun k hk => ?_) hres
      · rwa [← hsrc, Nat.sub_zero] at hstep
      · rw [hbyt k hk, readBytes, List.getElem?_map, List.getElem?_range hk]
        rfl

end first

lemma mappedCopyFrom_spec (hprop : pt.Proper s) (hlt : srcStart < 2 ^ 64)
    (hpos : 0 < dst.length) (hlen : dst.length < 2 ^ 64) :
    ∃ result dst', mappedCopyFrom s.tables contents pt srcStart dst = .ok (result, dst') ∧
      (result = .ok () ↔ pt.AllMapped s srcStart dst.length ∧ pt.Recognized s srcStart dst.length) ∧
      (result = .ok () → dst'.length = dst.length ∧ ∀ k < dst.length, ∃ a,
        pt.leafAddress s (srcStart + k) = some a ∧ dst'[k]? = some (contents a)) := by
  have hx := pageOf_lt srcStart
  by_cases htag : pt.tagMatches (toParts srcStart).tag = true
  · obtain ⟨it, hst, hyld⟩ := startingAt_toParts hprop srcStart
    generalize hys : pt.leavesFrom s (chunk (pt.view s (pageOf srcStart)).level
      (pageOf srcStart)) = ys at hyld
    have hlvs : ∀ y ∈ ys, y < halfPages ∧ pt.IsLeaf s y := fun y hy =>
      (mem_leavesFrom.mp (hys ▸ hy)).2
    by_cases hhead : ys.head? = some (pageOf srcStart)
    · have hleaf : pt.IsLeaf s (pageOf srcStart) := (hlvs _ (mem_of_head? hhead)).2
      rw [begins_iff.mp hleaf.1, hleaf.leavesFrom_eq hx] at hys
      obtain ⟨result, dst', hrun, hres⟩ :=
        @mappedCopyFrom_of_eq pt s contents srcStart dst it ys htag hst hlt hlvs hyld
          hys.symm hpos hlen
      refine ⟨result, dst', hrun, ?_, fun hok => ⟨hres.length_eq, fun k hk => ?_⟩⟩
      · have hfur := leavesFrom_ne_nil_iff (pt.begins_endOfCopy s srcStart dst.length)
        rw [hres.ok_iff, Nat.sub_zero, hfur]
        exact and_congr_right fun _ => ⟨fun h => ⟨hleaf.1, h⟩, Recognized.further⟩
      · have hbyte := hres.bytes hok k (by rwa [Nat.sub_zero])
        rwa [zero_add] at hbyte
    · obtain ⟨e, hrun⟩ :=
        @mappedCopyFrom_of_ne pt s contents srcStart dst it ys htag hst hlt hlvs hyld hhead
      refine ⟨_, _, hrun, iff_of_false (by simp) ?_, by simp⟩
      rintro ⟨hall, hbeg, -⟩
      refine hhead ?_
      have hmap := hall 0 hpos
      rw [add_zero, leafAddress, if_pos htag] at hmap
      have hleaf : pt.IsLeaf s (pageOf srcStart) :=
        ⟨hbeg, fun hnone => hmap (by rw [hnone]; rfl)⟩
      rw [begins_iff.mp hleaf.1, hleaf.leavesFrom_eq hx] at hys
      rw [← hys]
      rfl
  · refine ⟨_, _, if_pos htag, iff_of_false (by simp) ?_, by simp⟩
    rintro ⟨hall, -⟩
    refine hall 0 hpos ?_
    rw [add_zero, leafAddress, if_neg htag]

/-- `mapped_copy_from` succeeds exactly if all bytes are mapped, with these bytes, if and only if
they are not all mapped, or the source is on the first page of its leaf and there is one more leaf
behind the last one that is needed. -/
theorem copiesExactly_iff (hproper : pt.Proper s) (hlt : srcStart < 2 ^ 64)
    (hpos : 0 < dst.length) (hlen : dst.length < 2 ^ 64) :
    pt.CopiesExactly s contents srcStart dst ↔
      (pt.AllMapped s srcStart dst.length → pt.Recognized s srcStart dst.length) := by
  obtain ⟨result, dst', hrun, hiff, hbyt⟩ :=
    @mappedCopyFrom_spec pt s contents srcStart dst hproper hlt hpos hlen
  constructor
  · rintro ⟨result', dst'', hrun', hexa, -⟩ hall
    rw [hrun] at hrun'
    cases hrun'
    exact (hiff.mp (hexa.mpr hall)).2
  · intro hrec
    exact ⟨result, dst', hrun, hiff.trans ⟨And.left, fun hall => ⟨hall, hrec hall⟩⟩, hbyt⟩

def sampleBlockAndPage : TableMemory :=
  (mapRange 0x20_0000 0 513 {} sampleTable true sampleMemory).2

lemma sampleBlockAndPage_run :
    mapRange 0x20_0000 0 513 {} sampleTable true sampleMemory = (.ok (), sampleBlockAndPage) :=
  Prod.ext (by decide +kernel) rfl

lemma sampleBlockAndPage_proper : sampleTable.Proper sampleBlockAndPage := by
  have hprop : sampleTable.Proper sampleMemory := proper_of_empty fun _ => rfl
  have hrng : InRange 0x20_0000 0 513 := ⟨by decide, by decide, by decide, by decide⟩
  have hwp := @Proper.mapRange sampleTable sampleMemory _ _ _ {} hprop sampleMemory_ok.1
    sampleMemory_ok.2 hrng true
  exact wp_ok hwp sampleBlockAndPage_run

/-- A copy from the block, with the page behind it. -/
theorem copiesExactly_block_and_page :
    sampleTable.CopiesExactly sampleBlockAndPage (fun a => UInt8.ofNat a) 5 [0, 0, 0] :=
  (copiesExactly_iff sampleBlockAndPage_proper (by decide) (by decide) (by decide)).mpr fun _ =>
    ⟨by decide +kernel, 512, by decide, by decide +kernel, by decide +kernel⟩

/-- The byte at the address 0 is copied, but no region follows, and the copy fails. -/
theorem mappedCopyFrom_needs_further_region :
    sampleTable.Proper sampleBlock ∧ sampleTable.AllMapped sampleBlock 0 1 ∧
      mappedCopyFrom sampleBlock.tables (fun _ => 7) sampleTable 0 [0] =
        .ok (.error (.map (.copyFromUnmapped (some 0x20_0000) 0)), [7]) := by
  refine ⟨sampleBlock_proper, fun k hk => ?_, by decide +kernel⟩
  obtain rfl : k = 0 := lt_one_iff.mp hk
  decide +kernel

end PageTable

end Kernel.Memory
