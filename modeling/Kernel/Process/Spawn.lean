import Kernel.Memory.Paging.HardwareWalk
import Kernel.Memory.PhysicalBuffer.Properties
import Kernel.Process.Basic

/-!
# Loading the segments of a process

`load_segment` copies a segment to a physical buffer, fills up with zeros and maps the pages of the
buffer.
-/

set_option linter.dupNamespace false

namespace Kernel.Process

open Core Action Memory PhysicalBuffer List Function
open PageTable (Sound Spare InRange)

structure ProgramHeader where
  pOffset : BitVec 64
  pVaddr : BitVec 64
  pFilesz : BitVec 64
  pMemsz : BitVec 64
  pFlags : BitVec 32
  deriving DecidableEq

open ProgramHeader

namespace ProgramHeader

variable (seg : ProgramHeader)

def pageAlignedVaddr : ℕ := (seg.pVaddr &&& ~~~ BitVec.ofNat 64 (pageSize - 1)).toNat

def pageAlignmentOffset : ℕ := (seg.pVaddr &&& BitVec.ofNat 64 (pageSize - 1)).toNat

end ProgramHeader

structure SpawnState where
  kernel : KernelMemory
  addressSpaceAllocator : VirtualAddressAllocator

abbrev SpawnM := Action SpawnState Failure

namespace SpawnM

def checked {α : Type} (x : Checked α) : SpawnM α := .lift .panic x

def kernel {α : Type} (reason : String) (x : KernelM α) : SpawnM α := fun s =>
  match x s.kernel with
  | (.ok a, kernel) => (.ok a, { s with kernel })
  | (.error e, kernel) => (.error (ProcessM.ofPagingError reason e), { s with kernel })

def reserve (startAddress pageCount : ℕ) : SpawnM Unit := fun s =>
  match s.addressSpaceAllocator.reserve startAddress pageCount with
  | .error p => (.error (.panic p), s)
  | .ok (.error _, vaa) => (.error (.panic .unwrap), { s with addressSpaceAllocator := vaa })
  | .ok (.ok _, vaa) => (.ok (), { s with addressSpaceAllocator := vaa })

end SpawnM

open SpawnM

section

variable (kernelTable pt : PageTable) (seg : ProgramHeader) (srcData : List UInt8)

def copySegment (dest : PhysicalBuffer) : SpawnM Unit := do
  let srcStart := seg.pOffset.toNat
  let srcEnd ← checked (checkedAdd srcStart seg.pFilesz.toNat)
  let destEnd ← checked (checkedAdd seg.pageAlignmentOffset seg.pFilesz.toNat)
  if srcEnd > srcStart then do
    let src ← checked (slice srcData srcStart srcEnd)
    kernel "copy segment" (dest.copyFromSlice kernelTable seg.pageAlignmentOffset destEnd src)
  else pure ()

def zeroSegment (dest : PhysicalBuffer) : SpawnM Unit :=
  if seg.pMemsz.toNat > seg.pFilesz.toNat then
    kernel "zero segment" (dest.fill kernelTable seg.pFilesz.toNat 0)
  else pure ()

def loadSegment : SpawnM Unit := do
  let size ← checked (checkedAdd seg.pMemsz.toNat seg.pageAlignmentOffset)
  let pageCount := divCeil size pageSize
  let destMemorySegment ← kernel "allocate process memory segement"
    (alloc kernelTable pageCount {})
  copySegment kernelTable seg srcData destMemorySegment
  zeroSegment kernelTable seg destMemorySegment
  let (pa, _) ← kernel "unmap segment" (destMemorySegment.unmap kernelTable)
  kernel "map process segment" (KernelM.paging (PageTable.mapRange pa seg.pageAlignedVaddr pageCount
    { readOnly := ! seg.pFlags.getLsbD 1, el0Access := true } pt true))
  reserve seg.pageAlignedVaddr pageCount

end

/-! ### What the process sees -/

namespace ProgramHeader

variable (seg : ProgramHeader)

def pages : ℕ := divCeil (seg.pMemsz.toNat + seg.pageAlignmentOffset) pageSize

def addresses : Range := ⟨seg.pageAlignedVaddr, seg.pages * pageSize⟩

end ProgramHeader

namespace SpawnState

def userByte (pt : PageTable) (s : SpawnState) (v : ℕ) : Option UInt8 :=
  (pt.translate s.kernel.memory v).map s.kernel.contents

def withContents (s : SpawnState) (c : ℕ → UInt8) : SpawnState :=
  { s with kernel.contents := c }

def IsFree (s : SpawnState) (a : ℕ) : Prop :=
  ∃ i, s.kernel.memory.pma.allocatedPages[i]? = some false ∧
    a ∈ (⟨s.kernel.memory.pma.pageAddress i, pageSize⟩ : Range)

end SpawnState

def Determined (kt pt : PageTable) (seg : ProgramHeader) (srcData : List UInt8)
    (s : SpawnState) : Prop :=
  ∀ c c' t t', (∀ a, c a ≠ c' a → s.IsFree a) →
    loadSegment kt pt seg srcData (s.withContents c) = (.ok (), t) →
    loadSegment kt pt seg srcData (s.withContents c') = (.ok (), t') →
    ∀ v ∈ seg.addresses, t.userByte pt v = t'.userByte pt v

/-- Every byte of the pages is written: the segment begins with a page or is all zeros, and what is
not in the file is filled with zeros or there is nothing left of the last page. -/
def ProgramHeader.FillsPages (seg : ProgramHeader) : Prop :=
  (seg.pFilesz < seg.pMemsz ∧ (seg.pageAlignmentOffset = 0 ∨ seg.pFilesz = 0)) ∨
    (seg.pFilesz = seg.pMemsz ∧ seg.pageAlignmentOffset = 0 ∧ seg.pFilesz.toNat % pageSize = 0)

instance (seg : ProgramHeader) : Decidable seg.FillsPages :=
  inferInstanceAs (Decidable (_ ∨ _))

structure SpawnReady (kt pt : PageTable) (users : List PageTable) (lo hi : ℕ) (s : SpawnState) :
    Prop where
  kernel : KernelReady kt users lo hi s.kernel
  mem_users : pt ∈ users
  low : pt.highAddresses = false
  within : VirtualAddressAllocator.Within 0 (2 ^ 48) s.addressSpaceAllocator.freeList

/-! ### Addresses -/

namespace ProgramHeader

variable (seg : ProgramHeader)

lemma pageAlignmentOffset_eq : seg.pageAlignmentOffset = seg.pVaddr.toNat % pageSize := by
  rw [pageAlignmentOffset, BitVec.toNat_and]
  exact Nat.and_two_pow_sub_one_eq_mod _ 12

lemma pageAlignedVaddr_add :
    seg.pageAlignedVaddr + seg.pageAlignmentOffset = seg.pVaddr.toNat := by
  have hspl : ∀ x m : BitVec 64, (x &&& ~~~ m).toNat + (x &&& m).toNat = x.toNat := by
    intro x m
    have hzero : (x &&& ~~~ m) &&& (x &&& m) = 0#64 := by
      ext i hi
      cases hm : m[i] <;> simp [hm]
    have hor : (x &&& ~~~ m) ||| (x &&& m) = x := by
      ext i hi
      cases hm : m[i] <;> simp [hm]
    rw [← BitVec.toNat_add_of_and_eq_zero hzero, BitVec.add_eq_or_of_and_eq_zero _ _ hzero, hor]
  exact hspl _ _

lemma pageAlignmentOffset_lt : seg.pageAlignmentOffset < pageSize := by
  rw [pageAlignmentOffset_eq]
  exact Nat.mod_lt _ (by decide)

lemma pages_bounds : seg.pMemsz.toNat + seg.pageAlignmentOffset ≤ seg.pages * pageSize ∧
    seg.pages * pageSize < seg.pMemsz.toNat + seg.pageAlignmentOffset + pageSize := by
  rw [pages]
  simp only [divCeil, pageSize]
  omega

end ProgramHeader

/-! ### The parts of `load_segment` -/

lemma kernel_eq_ok_iff {α : Type} {reason : String} {x : KernelM α} {a : α} {s t : SpawnState} :
    kernel reason x s = (.ok a, t) ↔ ∃ m, x s.kernel = (.ok a, m) ∧ t = { s with kernel := m } := by
  unfold kernel
  rcases x s.kernel with ⟨e | a', m⟩
  · exact ⟨nofun, nofun⟩
  · constructor
    · rintro ⟨⟩
      exact ⟨m, rfl, rfl⟩
    · rintro ⟨_, ⟨⟩, rfl⟩
      rfl

variable {v n : ℕ}

lemma reserve_eq_ok_iff {s t : SpawnState} :
    reserve v n s = (.ok (), t) ↔ ∃ vaa, s.addressSpaceAllocator.reserve v n = .ok (.ok (), vaa) ∧
      t = { s with addressSpaceAllocator := vaa } := by
  unfold reserve
  rcases s.addressSpaceAllocator.reserve v n with p | ⟨e | ⟨⟩, vaa⟩
  · exact ⟨nofun, nofun⟩
  · exact ⟨nofun, nofun⟩
  · constructor
    · rintro ⟨⟩
      exact ⟨vaa, rfl, rfl⟩
    · rintro ⟨_, ⟨⟩, rfl⟩
      rfl

variable {kt pt : PageTable} {users : List PageTable} {lo hi : ℕ} {seg : ProgramHeader}
  {srcData : List UInt8} {s t : SpawnState} {dest : PhysicalBuffer}

section contents

variable (htr : ∀ k < dest.pageCount * pageSize,
  kt.translate s.kernel.memory (dest.virAddr + k) = some (dest.phyAddr + k))
include htr

lemma copySegment_ok (hrun : copySegment kt seg srcData dest s = (.ok (), t)) :
    t = s.withContents (overwrite s.kernel.contents (dest.phyAddr + seg.pageAlignmentOffset)
      ((srcData.drop seg.pOffset.toNat).take seg.pFilesz.toNat)) := by
  simp only [copySegment, checked, bind_eq_ok_iff, lift_eq_ok_iff, checkedAdd_eq_ok] at hrun
  obtain ⟨_, _, ⟨⟨-, rfl⟩, rfl⟩, _, _, ⟨⟨-, rfl⟩, rfl⟩, hrun⟩ := hrun
  split_ifs at hrun with hsome
  · simp only [bind_eq_ok_iff, lift_eq_ok_iff, slice, ite_eq_ok, kernel_eq_ok_iff] at hrun
    obtain ⟨_, _, ⟨⟨-, rfl⟩, rfl⟩, m, hcopy, rfl⟩ := hrun
    rw [copyFromSlice_ok htr hcopy, Nat.add_sub_cancel_left]
    rfl
  · obtain hzero : seg.pFilesz.toNat = 0 := by omega
    rw [hzero, take_zero, overwrite_nil]
    exact (Prod.ext_iff.mp hrun).2.symm

lemma zeroSegment_ok (hrun : zeroSegment kt seg dest s = (.ok (), t)) :
    t = s.withContents (if seg.pFilesz.toNat < seg.pMemsz.toNat then
      overwrite s.kernel.contents (dest.phyAddr + seg.pFilesz.toNat)
        (List.replicate (dest.pageCount * pageSize - seg.pFilesz.toNat) 0)
      else s.kernel.contents) := by
  rw [zeroSegment] at hrun
  split_ifs at hrun ⊢ with hmore
  · obtain ⟨m, hfill, rfl⟩ := kernel_eq_ok_iff.mp hrun
    rw [fill_ok htr hfill]
    rfl
  · exact (Prod.ext_iff.mp hrun).2.symm

end contents

def ProgramHeader.byteAt (seg : ProgramHeader) (srcData : List UInt8) (k : ℕ) (old : UInt8) :
    UInt8 :=
  if seg.pFilesz.toNat < seg.pMemsz.toNat ∧ seg.pFilesz.toNat ≤ k then 0
  else if seg.pageAlignmentOffset ≤ k ∧ k < seg.pageAlignmentOffset + seg.pFilesz.toNat then
    srcData.getD (seg.pOffset.toNat + (k - seg.pageAlignmentOffset)) 0
  else old

variable {phy k : ℕ}

lemma overwrite_file {c : ℕ → UInt8}
    (hsrc : seg.pOffset.toNat + seg.pFilesz.toNat ≤ srcData.length) :
    overwrite c (phy + seg.pageAlignmentOffset)
        ((srcData.drop seg.pOffset.toNat).take seg.pFilesz.toNat) (phy + k) =
      if seg.pageAlignmentOffset ≤ k ∧ k < seg.pageAlignmentOffset + seg.pFilesz.toNat then
        srcData.getD (seg.pOffset.toNat + (k - seg.pageAlignmentOffset)) 0
      else c (phy + k) := by
  have hleng : ((srcData.drop seg.pOffset.toNat).take seg.pFilesz.toNat).length =
      seg.pFilesz.toNat := by
    rw [length_take, length_drop]
    omega
  split_ifs with hin
  · obtain ⟨j, rfl⟩ := Nat.exists_eq_add_of_le hin.1
    have hj : j < seg.pFilesz.toNat := by omega
    rw [← add_assoc, overwrite_of_lt (by rw [hleng]; exact hj), getElem_take,
      getElem_drop, Nat.add_sub_cancel_left, getD_eq_getElem?_getD,
      List.getElem?_eq_getElem (by omega), Option.getD_some]
  · exact overwrite_of_not (by rw [hleng]; omega)

lemma overwrite_eq_byteAt {c : ℕ → UInt8} (hk : k < n * pageSize)
    (hsrc : seg.pOffset.toNat + seg.pFilesz.toNat ≤ srcData.length) :
    (if seg.pFilesz.toNat < seg.pMemsz.toNat then
      overwrite (overwrite c (phy + seg.pageAlignmentOffset)
        ((srcData.drop seg.pOffset.toNat).take seg.pFilesz.toNat)) (phy + seg.pFilesz.toNat)
        (List.replicate (n * pageSize - seg.pFilesz.toNat) 0)
      else overwrite c (phy + seg.pageAlignmentOffset)
        ((srcData.drop seg.pOffset.toNat).take seg.pFilesz.toNat)) (phy + k) =
      seg.byteAt srcData k (c (phy + k)) := by
  rw [byteAt]
  by_cases hmore : seg.pFilesz.toNat < seg.pMemsz.toNat
  · rw [if_pos hmore]
    by_cases hge : seg.pFilesz.toNat ≤ k
    · obtain ⟨j, rfl⟩ := Nat.exists_eq_add_of_le hge
      rw [if_pos ⟨hmore, hge⟩, ← add_assoc,
        overwrite_of_lt (by rw [length_replicate]; omega), getElem_replicate]
    · rw [if_neg fun h => hge h.2, overwrite_of_not (by omega), overwrite_file hsrc]
  · rw [if_neg hmore, if_neg fun h => hmore h.1, overwrite_file hsrc]

lemma bytes_eq (htr : ∀ k < dest.pageCount * pageSize,
      kt.translate s.kernel.memory (dest.virAddr + k) = some (dest.phyAddr + k))
    (hsrc : seg.pOffset.toNat + seg.pFilesz.toNat ≤ srcData.length) {s' : SpawnState}
    (hcopy : copySegment kt seg srcData dest s = (.ok (), s'))
    (hzero : zeroSegment kt seg dest s' = (.ok (), t)) :
    ∃ c, t = s.withContents c ∧ ∀ k < dest.pageCount * pageSize,
      c (dest.phyAddr + k) = seg.byteAt srcData k (s.kernel.contents (dest.phyAddr + k)) := by
  obtain rfl := copySegment_ok htr hcopy
  obtain rfl := zeroSegment_ok (by exact htr) hzero
  exact ⟨_, rfl, fun k hk => overwrite_eq_byteAt hk hsrc⟩

structure Loaded (pt : PageTable) (seg : ProgramHeader) (srcData : List UInt8) (s : SpawnState)
    (phy : ℕ) (t : SpawnState) : Prop where
  free : ∀ k < seg.pages * pageSize, s.IsFree (phy + k)
  mapped : ∀ k < seg.pages * pageSize,
    pt.translate t.kernel.memory (seg.pageAlignedVaddr + k) = some (phy + k)
  contents : ∀ k < seg.pages * pageSize,
    t.kernel.contents (phy + k) = seg.byteAt srcData k (s.kernel.contents (phy + k))

lemma Loaded.userByte_eq (h : Loaded pt seg srcData s phy t)
    (hk : k < seg.pages * pageSize) : t.userByte pt (seg.pageAlignedVaddr + k) =
      some (seg.byteAt srcData k (s.kernel.contents (phy + k))) := by
  rw [SpawnState.userByte, h.mapped k hk, Option.map_some, h.contents k hk]

lemma translate_of_mapRange {memory memory' : TableMemory}
    {options : PageTableEntryOptions} (hsnd : Sound kt users memory) (hpt : pt ∈ users)
    (hrng : InRange phy v n) (hspa : ∀ i < n, Spare kt users memory (phy + i * pageSize))
    (hrun : PageTable.mapRange phy v n options pt true memory = (.ok (), memory')) :
    ∀ k < n * pageSize, pt.translate memory' (v + k) = some (phy + k) := by
  obtain ⟨hal, htag, -⟩ := PageTable.of_mapRange_ok hrun
  obtain ⟨ho, -, -⟩ := wp_ok (hsnd.wp_mapRange_user hrng hpt hal htag hspa) hrun
  exact fun k => PageTable.translate_of_frames hal hrng.virt_end
    fun i => ho.frame_of_inRange hrng

lemma SpawnReady.inRange (h : SpawnReady kt pt users lo hi s) {vaa : VirtualAddressAllocator}
    (hphy : phy % pageSize = 0) (hphyEnd : phy + n * pageSize ≤ 2 ^ 48) (hv : v < 2 ^ 64)
    (htag : pt.tagMatches (VirtualAddress.toParts v).tag = true)
    (hrsv : s.addressSpaceAllocator.reserve v n = .ok (.ok (), vaa)) : InRange phy v n := by
  have hlow : v < 2 ^ 48 := by
    rw [PageTable.tagMatches_iff, h.low, toParts_eq] at htag
    simp only [Bool.false_eq_true, if_false] at htag
    omega
  have hend := VirtualAddressAllocator.reserve_ok (by decide) h.within (by omega) hrsv
  refine ⟨hphy, hv, ?_, hphyEnd⟩
  simp only [pageOf, halfPages, pageSize] at hend ⊢
  omega

lemma SpawnReady.loaded (h : SpawnReady kt pt users lo hi s) (hmem : 1 ≤ seg.pMemsz.toNat)
    (hsrc : seg.pOffset.toNat + seg.pFilesz.toNat ≤ srcData.length)
    (hrun : loadSegment kt pt seg srcData s = (.ok (), t)) :
    ∃ phy, Loaded pt seg srcData s phy t := by
  simp only [loadSegment, checked, bind_eq_ok_iff, lift_eq_ok_iff, checkedAdd_eq_ok,
    kernel_eq_ok_iff, reserve_eq_ok_iff] at hrun
  obtain ⟨_, s, ⟨⟨-, rfl⟩, rfl⟩, dest, _, ⟨m₁, hall, rfl⟩, _, s₂, hcopy, _, s₃, hzero, _, _,
    ⟨m₄, hunm, rfl⟩, _, _, ⟨m₅, hmap, rfl⟩, vaa, hrsv, rfl⟩ := hrun
  have hpgs : 1 ≤ seg.pages := by
    have hbds := seg.pages_bounds
    simp only [pageSize] at hbds
    omega
  have hacq : Acquired kt users s.kernel seg.pages dest m₁ :=
    wp_ok (h.kernel.wp_alloc hpgs) hall
  have hcnt := hacq.pageCount_eq
  have hpl := h.kernel.placed hacq.addresses
  obtain ⟨c, rfl, hbyt⟩ := bytes_eq (hacq.translate_eq h.kernel) hsrc hcopy hzero
  have hrdy := (hacq.ready h.kernel).withContents c
  rw [unmap, bind_eq_ok_iff] at hunm
  obtain ⟨_, m₄, hvir, hret⟩ := hunm
  cases hret
  have hrel := wp_ok (hrdy.wp_unmapVirtual (hcnt ▸ hpl) (hcnt ▸ hacq.tiled)) hvir
  obtain ⟨memory, hmapRange, rfl⟩ := paging_eq_ok_iff.mp hmap
  obtain ⟨start, pma, hfree, hfill, hphy, -⟩ := hacq.pages
  obtain ⟨hal, hend⟩ := h.kernel.phy_bounds hfill
  rw [← hphy] at hal hend
  obtain ⟨-, htag, -⟩ := PageTable.of_mapRange_ok hmapRange
  have hrng := h.inRange hal hend (BitVec.isLt _) htag hrsv
  refine ⟨dest.phyAddr, fun k hk => ?_, ?_, fun k hk => ?_⟩
  · refine ⟨start + k / pageSize, hfree _ le_self_add ?_, ?_⟩
    · have := Nat.div_lt_of_lt_mul (Nat.mul_comm _ _ ▸ hk)
      omega
    · rw [hphy, Range.mem_iff, PhysicalMemoryAllocator.pageAddress,
        PhysicalMemoryAllocator.pageAddress]
      simp only [pageSize]
      omega
  · exact translate_of_mapRange hrel.sound h.mem_users hrng
      (fun i hi => hrel.spare_of_spare hrdy (hacq.spare h.kernel hi)) hmapRange
  · rw [← hacq.contents_eq, ← hbyt k (hcnt ▸ hk)]
    exact congrFun hrel.contents_eq _

/-! ### Two runs

No branch of `load_segment` depends on the contents of memory. -/

def SameKernel (m m' : KernelMemory) : Prop :=
  m'.memory = m.memory ∧ m'.virtualAddressAllocator = m.virtualAddressAllocator

def SameState (s t : SpawnState) : Prop :=
  SameKernel s.kernel t.kernel ∧ t.addressSpaceAllocator = s.addressSpaceAllocator

section respects

variable {α : Type}

lemma respects_paging (x : PageTable.PagingM α) : Respects SameKernel (KernelM.paging x) := by
  rintro ⟨_, _, c⟩ ⟨memory, vaa, c'⟩ ⟨rfl, rfl⟩
  exact ⟨rfl, rfl, rfl⟩

lemma respects_expect {x : KernelM α} (hx : Respects SameKernel x) :
    Respects SameKernel (KernelM.expect x) := by
  intro s t hst
  obtain ⟨hres, hsta⟩ := hx s t hst
  unfold KernelM.expect
  rcases hs : x s with ⟨(p | e) | a, s'⟩ <;> rcases ht : x t with ⟨(p' | e') | a', t'⟩ <;>
    rw [hs, ht] at hres hsta <;> cases hres <;> exact ⟨rfl, hsta⟩

lemma respects_allocContig (n : ℕ) : Respects SameKernel (KernelM.allocContig n) := by
  rintro ⟨_, _, c⟩ ⟨memory, vaa, c'⟩ ⟨rfl, rfl⟩
  unfold KernelM.allocContig
  dsimp only
  rcases memory.pma.allocContig n with p | ⟨e | a, pma⟩ <;> exact ⟨rfl, rfl, rfl⟩

lemma respects_allocAddresses (n : ℕ) : Respects SameKernel (KernelM.allocAddresses n) := by
  rintro ⟨_, _, c⟩ ⟨memory, vaa, c'⟩ ⟨rfl, rfl⟩
  unfold KernelM.allocAddresses
  dsimp only
  rcases vaa.alloc n with p | ⟨e | a, vaa'⟩ <;> exact ⟨rfl, rfl, rfl⟩

lemma respects_freeAddresses (v n : ℕ) : Respects SameKernel (KernelM.freeAddresses v n) := by
  rintro ⟨_, _, c⟩ ⟨memory, vaa, c'⟩ ⟨rfl, rfl⟩
  unfold KernelM.freeAddresses
  dsimp only
  rcases vaa.free v n with p | vaa' <;> exact ⟨rfl, rfl, rfl⟩

lemma respects_storeByte (v : ℕ) (byte : UInt8) :
    Respects SameKernel (KernelM.storeByte kt v byte) := by
  rintro ⟨_, _, c⟩ ⟨memory, vaa, c'⟩ ⟨rfl, rfl⟩
  unfold KernelM.storeByte
  dsimp only
  rcases kt.translate memory v with _ | a <;> exact ⟨rfl, rfl, rfl⟩

lemma respects_store (bytes : List UInt8) :
    ∀ v, Respects SameKernel (KernelM.store kt v bytes) := by
  induction bytes with
  | nil => exact fun _ => respects_pure _
  | cons byte bytes ih => exact fun v => (respects_storeByte v byte).bind fun _ => ih (v + 1)

lemma respects_alloc (n : ℕ) (options : PageTableEntryOptions) :
    Respects SameKernel (alloc kt n options) :=
  (respects_allocContig n).bind fun _ => (respects_allocAddresses n).bind fun _ =>
    (respects_expect (respects_paging _)).bind fun _ => respects_pure _

lemma respects_copyFromSlice (first last : ℕ) (src : List UInt8) :
    Respects SameKernel (dest.copyFromSlice kt first last src) :=
  (respects_lift _ _).bind fun _ => (respects_lift _ _).bind fun _ =>
    (respects_lift _ _).bind fun _ => respects_store src _

lemma respects_fill (first : ℕ) (value : UInt8) :
    Respects SameKernel (dest.fill kt first value) :=
  (respects_lift _ _).bind fun _ => (respects_lift _ _).bind fun _ => respects_store _ _

lemma respects_unmap : Respects SameKernel (dest.unmap kt) :=
  ((respects_paging _).bind fun _ => respects_freeAddresses _ _).bind fun _ => respects_pure _

lemma respects_kernel (reason : String) {x : KernelM α} (hx : Respects SameKernel x) :
    Respects SameState (kernel reason x) := by
  rintro s t ⟨hker, hasa⟩
  obtain ⟨hres, hsta⟩ := hx s.kernel t.kernel hker
  unfold kernel
  rcases hs : x s.kernel with ⟨e | a, m⟩ <;> rcases ht : x t.kernel with ⟨e' | a', m'⟩ <;>
    rw [hs, ht] at hres hsta <;> cases hres <;> exact ⟨rfl, hsta, hasa⟩

lemma respects_reserve (v n : ℕ) : Respects SameState (reserve v n) := by
  rintro ⟨m, _⟩ ⟨m', vaa⟩ ⟨hker, rfl⟩
  unfold reserve
  dsimp only
  rcases vaa.reserve v n with p | ⟨e | a, vaa'⟩ <;> exact ⟨rfl, hker, rfl⟩

lemma respects_loadSegment : Respects SameState (loadSegment kt pt seg srcData) := by
  refine (respects_lift _ _).bind fun _ => (respects_kernel _ (respects_alloc _ _)).bind fun dest =>
    Respects.bind ?_ fun _ => Respects.bind ?_ fun _ =>
    (respects_kernel _ respects_unmap).bind fun _ =>
    (respects_kernel _ (respects_paging _)).bind fun _ => respects_reserve _ _
  · refine (respects_lift _ _).bind fun _ => (respects_lift _ _).bind fun _ => Respects.ite ?_ ?_
    · exact (respects_lift _ _).bind fun _ => respects_kernel _ (respects_copyFromSlice _ _ _)
    · exact respects_pure _
  · exact Respects.ite (respects_kernel _ (respects_fill _ _)) (respects_pure _)

end respects

/-! ### Which bytes are written -/

def ProgramHeader.Writes (seg : ProgramHeader) (k : ℕ) : Prop :=
  (seg.pFilesz.toNat < seg.pMemsz.toNat ∧ seg.pFilesz.toNat ≤ k) ∨
    (seg.pageAlignmentOffset ≤ k ∧ k < seg.pageAlignmentOffset + seg.pFilesz.toNat)

instance (seg : ProgramHeader) (k : ℕ) : Decidable (seg.Writes k) :=
  inferInstanceAs (Decidable (_ ∨ _))

lemma ProgramHeader.Writes.byteAt_eq (hk : seg.Writes k) (old old' : UInt8) :
    seg.byteAt srcData k old = seg.byteAt srcData k old' := by
  rw [byteAt, byteAt]
  rcases hk with hzero | hfile
  · rw [if_pos hzero, if_pos hzero]
  · rw [if_pos hfile, if_pos hfile]

lemma ProgramHeader.byteAt_of_not_writes (hk : ¬ seg.Writes k) (old : UInt8) :
    seg.byteAt srcData k old = old := by
  rw [byteAt, if_neg fun hzero => hk (.inl hzero), if_neg fun hfile => hk (.inr hfile)]

lemma ProgramHeader.fillsPages_iff (hle : seg.pFilesz ≤ seg.pMemsz) (hmem : 1 ≤ seg.pMemsz.toNat) :
    seg.FillsPages ↔ ∀ k < seg.pages * pageSize, seg.Writes k := by
  have hbds := seg.pages_bounds
  have hoff := seg.pageAlignmentOffset_lt
  have hzero : seg.pFilesz = 0 ↔ seg.pFilesz.toNat = 0 := BitVec.toNat_inj.symm
  simp only [ProgramHeader.FillsPages, ProgramHeader.Writes, BitVec.lt_def, hzero,
    ← BitVec.toNat_inj (y := seg.pMemsz), pageSize] at *
  rw [BitVec.le_def] at hle
  constructor
  · rintro (⟨hlt, hst⟩ | ⟨heq, hst, hmod⟩) k hk
    · omega
    · omega
  · intro hwrs
    have hfst := hwrs 0 (by omega)
    have hlast := hwrs (seg.pages * 4096 - 1) (by omega)
    omega

lemma SpawnReady.determined_iff_writes (h : SpawnReady kt pt users lo hi s)
    (hmem : 1 ≤ seg.pMemsz.toNat) (hsrc : seg.pOffset.toNat + seg.pFilesz.toNat ≤ srcData.length)
    (hrun : ∃ t, loadSegment kt pt seg srcData s = (.ok (), t)) :
    Determined kt pt seg srcData s ↔ ∀ k < seg.pages * pageSize, seg.Writes k := by
  have hrdy : ∀ c, SpawnReady kt pt users lo hi (s.withContents c) := fun c =>
    ⟨h.kernel.withContents c, h.mem_users, h.low, h.within⟩
  constructor
  · intro hdet k hk
    by_contra hwrs
    obtain ⟨t, ht⟩ := hrun
    obtain ⟨phy, hload⟩ := h.loaded hmem hsrc ht
    -- the other run finds another byte there
    let c := update s.kernel.contents (phy + k) (s.kernel.contents (phy + k) + 1)
    have hsame : SameState s (s.withContents c) := ⟨⟨rfl, rfl⟩, rfl⟩
    have hresp : Respects SameState (loadSegment kt pt seg srcData) := respects_loadSegment
    obtain ⟨hres, ⟨hmemo, -⟩, -⟩ := hresp s _ hsame
    rcases ht' : loadSegment kt pt seg srcData (s.withContents c) with ⟨result, t'⟩
    rw [ht, ht'] at hres hmemo
    obtain rfl := hres
    obtain ⟨phy', hload'⟩ := (hrdy c).loaded hmem hsrc ht'
    have hphy : phy' + k = phy + k := by
      have hmap := hload'.mapped k hk
      rw [hmemo, hload.mapped k hk] at hmap
      exact (Option.some.inj hmap).symm
    have hbyte := hdet s.kernel.contents c t t' (fun a ha => ?_) ht ht'
      (seg.pageAlignedVaddr + k) ?_
    · rw [hload.userByte_eq hk, hload'.userByte_eq hk, hphy, byteAt_of_not_writes hwrs,
        byteAt_of_not_writes hwrs] at hbyte
      simp [c, SpawnState.withContents] at hbyte
    · obtain rfl : a = phy + k := by
        by_contra hne
        exact ha (update_of_ne hne _ _).symm
      exact hload.free k hk
    · rw [Range.mem_iff]
      exact ⟨le_self_add, Nat.add_lt_add_left hk _⟩
  · intro hwrs c c' t t' _ ht ht' v hv
    obtain ⟨phy, hload⟩ := (hrdy c).loaded hmem hsrc ht
    obtain ⟨phy', hload'⟩ := (hrdy c').loaded hmem hsrc ht'
    rw [Range.mem_iff] at hv
    obtain ⟨k, rfl : v = seg.pageAlignedVaddr + k⟩ := Nat.exists_eq_add_of_le hv.1
    have hk : k < seg.pages * pageSize := Nat.lt_of_add_lt_add_left hv.2
    rw [hload.userByte_eq hk, hload'.userByte_eq hk, (hwrs k hk).byteAt_eq]

/-- For a segment that is not larger in the file than in memory, the pages that the process gets
depend on the binary alone if and only if the segment fills them. -/
theorem determined_iff_fillsPages {kt pt : PageTable} {users : List PageTable} {lo hi : ℕ}
    {seg : ProgramHeader} {srcData : List UInt8} {s : SpawnState}
    (h : SpawnReady kt pt users lo hi s) (hle : seg.pFilesz ≤ seg.pMemsz)
    (hmem : 1 ≤ seg.pMemsz.toNat) (hsrc : seg.pOffset.toNat + seg.pFilesz.toNat ≤ srcData.length)
    (hrun : ∃ t, loadSegment kt pt seg srcData s = (.ok (), t)) :
    Determined kt pt seg srcData s ↔ seg.FillsPages := by
  rw [fillsPages_iff hle hmem]
  exact h.determined_iff_writes hmem hsrc hrun

def sampleUserTable : PageTable := ⟨false, 1, 0x10000⟩

def sampleSpawnState : SpawnState where
  kernel :=
    { sampleKernelMemory with
      memory := (PageTable.empty false 1 sampleKernelMemory.memory).2 }
  addressSpaceAllocator := .new 0x1000 (0x0000_ffff_ffff_ffff / pageSize)

lemma sampleSpawnState_ready : SpawnReady sampleKernelTable sampleUserTable [sampleUserTable]
    0xffff_0001_0000_0000 0xffff_0101_0000_0000 sampleSpawnState := by
  have hrdy := sampleKernelMemory_noBuffers.ready
  have hrun : PageTable.empty false 1 sampleKernelMemory.memory =
      (.ok sampleUserTable, (PageTable.empty false 1 sampleKernelMemory.memory).2) :=
    Prod.ext (by decide +kernel) rfl
  obtain ⟨-, hsnd, -⟩ := wp_ok hrdy.sound.wp_empty hrun
  refine ⟨{ hrdy with sound := hsnd }, mem_singleton_self _, rfl, ?_⟩
  intro b hb
  rw [mem_singleton.mp hb]
  decide

def sampleSegment : ProgramHeader := ⟨0, 0x1000, 1, 1, 0⟩

lemma sampleSegment_loads : ∃ t,
    loadSegment sampleKernelTable sampleUserTable sampleSegment [7] sampleSpawnState =
      (.ok (), t) :=
  exists_of_fst (by decide +kernel)

theorem determined_iff_fillsPages_sample : ¬ sampleSegment.FillsPages ∧
    (Determined sampleKernelTable sampleUserTable sampleSegment [7] sampleSpawnState ↔
      sampleSegment.FillsPages) :=
  ⟨by decide, determined_iff_fillsPages sampleSpawnState_ready (by decide) (by decide) (by decide)
    sampleSegment_loads⟩

/-- Behind the byte of the file, the process sees what was in the page before. -/
theorem segment_leaks : ¬ Determined sampleKernelTable sampleUserTable sampleSegment [7]
    sampleSpawnState := by
  rw [sampleSpawnState_ready.determined_iff_writes (by decide) (by decide) sampleSegment_loads]
  exact fun hwrs => absurd (hwrs 1 (by decide)) (by decide)

/-! ### The image of a segment -/

def ProgramHeader.imageByte (seg : ProgramHeader) (srcData : List UInt8) (k : ℕ) : UInt8 :=
  if k < seg.pFilesz.toNat then srcData.getD (seg.pOffset.toNat + k) 0 else 0

def SeesSegment (pt : PageTable) (seg : ProgramHeader) (srcData : List UInt8) (t : SpawnState) :
    Prop :=
  ∀ k < seg.pMemsz.toNat,
    t.userByte pt (seg.pVaddr.toNat + k) = some (seg.imageByte srcData k)

/-- The zeros begin at the size of the file data, counted from the page and not from the segment.
Nothing is lost if there is no place for zeros, or if the bytes that they replace are zeros. -/
def ProgramHeader.ZerosLast (seg : ProgramHeader) (srcData : List UInt8) : Prop :=
  seg.pFilesz = seg.pMemsz ∨ ∀ k < seg.pFilesz.toNat,
    seg.pFilesz.toNat ≤ seg.pageAlignmentOffset + k → srcData.getD (seg.pOffset.toNat + k) 0 = 0

instance (seg : ProgramHeader) (srcData : List UInt8) : Decidable (seg.ZerosLast srcData) :=
  inferInstanceAs (Decidable (_ ∨ _))

lemma ProgramHeader.byteAt_add_eq_imageByte_iff {old : UInt8}
    (hle : seg.pFilesz ≤ seg.pMemsz) (hk : k < seg.pMemsz.toNat) :
    seg.byteAt srcData (seg.pageAlignmentOffset + k) old = seg.imageByte srcData k ↔
      (seg.pFilesz.toNat < seg.pMemsz.toNat → k < seg.pFilesz.toNat →
        seg.pFilesz.toNat ≤ seg.pageAlignmentOffset + k →
        srcData.getD (seg.pOffset.toNat + k) 0 = 0) := by
  rw [BitVec.le_def] at hle
  rw [byteAt, imageByte, Nat.add_sub_cancel_left]
  by_cases hfile : k < seg.pFilesz.toNat
  · rw [if_pos hfile]
    by_cases hzero : seg.pFilesz.toNat < seg.pMemsz.toNat ∧
        seg.pFilesz.toNat ≤ seg.pageAlignmentOffset + k
    · rw [if_pos hzero]
      exact ⟨fun h _ _ _ => h.symm, fun h => (h hzero.1 hfile hzero.2).symm⟩
    · rw [if_neg hzero, if_pos ⟨le_self_add, Nat.add_lt_add_left hfile _⟩]
      exact ⟨fun _ hmore _ hge => absurd ⟨hmore, hge⟩ hzero, fun _ => rfl⟩
  · rw [if_neg hfile, if_pos (by omega)]
    exact ⟨fun _ _ hlt => absurd hlt hfile, fun _ => rfl⟩

lemma Loaded.seesSegment_iff (h : Loaded pt seg srcData s phy t)
    (hle : seg.pFilesz ≤ seg.pMemsz) : SeesSegment pt seg srcData t ↔ seg.ZerosLast srcData := by
  have hbyte : ∀ k < seg.pMemsz.toNat, t.userByte pt (seg.pVaddr.toNat + k) =
      some (seg.byteAt srcData (seg.pageAlignmentOffset + k)
        (s.kernel.contents (phy + (seg.pageAlignmentOffset + k)))) := by
    intro k hk
    rw [← seg.pageAlignedVaddr_add, add_assoc]
    have hbds := seg.pages_bounds
    exact h.userByte_eq (by omega)
  have hsize : seg.pFilesz = seg.pMemsz ↔ ¬ seg.pFilesz.toNat < seg.pMemsz.toNat := by
    rw [BitVec.le_def] at hle
    rw [← BitVec.toNat_inj]
    omega
  constructor
  · intro hsees
    by_cases heq : seg.pFilesz = seg.pMemsz
    · exact .inl heq
    · refine .inr fun k hk hge => ?_
      have hmore := not_not.mp (mt hsize.mpr heq)
      have hmem : k < seg.pMemsz.toNat := by omega
      have himg := hsees k hmem
      rw [hbyte k hmem, Option.some.injEq, byteAt_add_eq_imageByte_iff hle hmem] at himg
      exact himg hmore hk hge
  · intro hzer k hk
    rw [hbyte k hk, Option.some.injEq, byteAt_add_eq_imageByte_iff hle hk]
    intro hmore hfile hge
    exact (hzer.resolve_left fun heq => hsize.mp heq hmore) k hfile hge

/-- The process finds the bytes of the file and zeros behind them at the addresses of a segment
that was loaded if and only if the zeros of the buffer do not replace any other byte. -/
theorem seesSegment_iff_zerosLast {kt pt : PageTable} {users : List PageTable} {lo hi : ℕ}
    {seg : ProgramHeader} {srcData : List UInt8} {s t : SpawnState}
    (h : SpawnReady kt pt users lo hi s) (hle : seg.pFilesz ≤ seg.pMemsz)
    (hmem : 1 ≤ seg.pMemsz.toNat) (hsrc : seg.pOffset.toNat + seg.pFilesz.toNat ≤ srcData.length)
    (hrun : loadSegment kt pt seg srcData s = (.ok (), t)) :
    SeesSegment pt seg srcData t ↔ seg.ZerosLast srcData := by
  obtain ⟨phy, hload⟩ := h.loaded hmem hsrc hrun
  exact hload.seesSegment_iff hle

def sampleShiftedSegment : ProgramHeader := ⟨0, 0x1001, 1, 2, 0⟩

lemma loadSegment_of_ok {m : KernelMemory} {t u : SpawnState}
    (hsize : seg.pMemsz.toNat + seg.pageAlignmentOffset < 2 ^ 64)
    (hall : alloc kt seg.pages {} s.kernel = (.ok dest, m))
    (hcopy : copySegment kt seg src dest { s with kernel := m } = (.ok (), t))
    (hzero : zeroSegment kt seg dest t = (.ok (), u)) :
    loadSegment kt pt seg src s = (do
      let (pa, _) ← kernel "unmap segment" (unmap kt dest)
      kernel "map process segment" (.paging (PageTable.mapRange pa seg.pageAlignedVaddr seg.pages
        { readOnly := !seg.pFlags.getLsbD 1, el0Access := true } pt true))
      reserve seg.pageAlignedVaddr seg.pages) u := by
  rw [loadSegment, checked,
    bind_of_ok (lift_eq_ok_iff.mpr ⟨checkedAdd_eq_ok.mpr ⟨hsize, rfl⟩, rfl⟩)]
  dsimp only
  rw [← ProgramHeader.pages, bind_of_ok (kernel_eq_ok_iff.mpr ⟨_, hall, rfl⟩), bind_of_ok hcopy,
    bind_of_ok hzero]

def sampleBuffer : PhysicalBuffer := ⟨0x11000, 0xffff_0001_0000_0000, 1⟩

def sampleAllocated : SpawnState :=
  { sampleSpawnState with
    kernel := (alloc sampleKernelTable sampleShiftedSegment.pages {} sampleSpawnState.kernel).2 }

lemma zeroSegment_of_lt (htr : ∀ k < dest.pageCount * pageSize,
      kt.translate s.kernel.memory (dest.virAddr + k) = some (dest.phyAddr + k))
    (hlen : dest.pageCount * pageSize < 2 ^ 64) (hmore : seg.pMemsz.toNat > seg.pFilesz.toNat)
    (hfit : seg.pFilesz.toNat ≤ dest.pageCount * pageSize) :
    zeroSegment kt seg dest s = (.ok (), s.withContents (overwrite s.kernel.contents
      (dest.phyAddr + seg.pFilesz.toNat)
      (List.replicate (dest.pageCount * pageSize - seg.pFilesz.toNat) 0))) := by
  rw [zeroSegment, if_pos hmore]
  simp only [kernel_eq_ok_iff, fill, len, KernelM.checked, bind_eq_ok_iff, lift_eq_ok_iff,
    checkedMul_eq_ok, ite_eq_ok]
  exact ⟨_, ⟨_, _, ⟨⟨hlen, rfl⟩, rfl⟩, (), _, ⟨⟨hfit, trivial⟩, rfl⟩,
    store_of_translate htr (by rw [length_replicate]; omega)⟩, rfl⟩

def sampleCopied : SpawnState :=
  sampleAllocated.withContents (overwrite sampleAllocated.kernel.contents 0x11001 [7])

lemma sampleShiftedSegment_loads : ∃ t,
    loadSegment sampleKernelTable sampleUserTable sampleShiftedSegment [7] sampleSpawnState =
      (.ok (), t) := by
  have hall : alloc sampleKernelTable sampleShiftedSegment.pages {} sampleSpawnState.kernel =
      (.ok sampleBuffer, sampleAllocated.kernel) := Prod.ext (by decide +kernel) rfl
  have hacq := wp_ok (sampleSpawnState_ready.kernel.wp_alloc (by decide)) hall
  have htr := hacq.translate_eq sampleSpawnState_ready.kernel
  obtain ⟨t, hcopy⟩ := exists_of_fst (x := copySegment sampleKernelTable sampleShiftedSegment [7]
    sampleBuffer) (s := sampleAllocated) (r := .ok ()) (by decide +kernel)
  have ht : t = sampleCopied := copySegment_ok htr hcopy
  rw [ht] at hcopy
  have hmore : sampleShiftedSegment.pMemsz.toNat > sampleShiftedSegment.pFilesz.toNat := by decide
  have hzero := zeroSegment_of_lt (s := sampleCopied) htr (by decide) hmore (by decide)
  rw [loadSegment_of_ok (by decide) hall hcopy hzero]
  exact exists_of_fst (by decide +kernel)

theorem seesSegment_iff_zerosLast_sample : ∃ t,
    loadSegment sampleKernelTable sampleUserTable sampleSegment [7] sampleSpawnState =
      (.ok (), t) ∧ sampleSegment.ZerosLast [7] ∧
      (SeesSegment sampleUserTable sampleSegment [7] t ↔ sampleSegment.ZerosLast [7]) := by
  obtain ⟨t, hrun⟩ := sampleSegment_loads
  exact ⟨t, hrun, by decide, seesSegment_iff_zerosLast sampleSpawnState_ready (by decide)
    (by decide) (by decide) hrun⟩

/-- The byte of the file is replaced by a zero. -/
theorem shiftedSegment_lost : ∃ t,
    loadSegment sampleKernelTable sampleUserTable sampleShiftedSegment [7] sampleSpawnState =
      (.ok (), t) ∧ ¬ SeesSegment sampleUserTable sampleShiftedSegment [7] t := by
  obtain ⟨t, hrun⟩ := sampleShiftedSegment_loads
  obtain ⟨phy, hload⟩ := sampleSpawnState_ready.loaded (by decide) (by decide) hrun
  exact ⟨t, hrun, fun hsees => absurd ((hload.seesSegment_iff (by decide)).mp hsees) (by decide)⟩

end Kernel.Process
