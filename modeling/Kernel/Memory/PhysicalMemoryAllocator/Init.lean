import Kernel.Memory.PhysicalMemoryAllocator.Properties

/-!
# Initializing the physical memory allocator

The pages of the device tree blob, of the kernel image and of the bitmap itself are marked as
allocated.
-/

namespace Kernel.Memory

open Core

def fillSlice (bits : List Bool) (first last : ℕ) (value : Bool) : Checked (List Bool) :=
  if first ≤ last then fillRange bits first (last - first) value else .error .outOfBounds

namespace PhysicalMemoryAllocator

def highMemory : ℕ := 0xffff_0000_0000_0000

def bitmapPadding (kernelEnd : ℕ) : ℕ := if kernelEnd % 8 = 0 then 0 else 8 - kernelEnd % 8

/-- `PhysicalMemoryAllocator::init`, from where the start and the length of RAM have been read from
the device tree. The kernel image is given by the addresses of its two symbols, and the blob by its
size. -/
def init (memoryStart memoryLength kernelStartSymbol kernelEndSymbol sizeOfBlob : ℕ) :
    Checked PhysicalMemoryAllocator := do
  let kernelStart ← checkedSub kernelStartSymbol highMemory
  let kernelEnd ← checkedSub kernelEndSymbol highMemory
  let padding := bitmapPadding kernelEnd
  let _allocBitmapAddr ← checkedAdd (← checkedAdd highMemory kernelEnd) padding
  let allocatedPages := List.replicate (memoryLength / pageSize) false
  -- allocate the space taken up by the device tree blob
  let dtbLenPages := sizeOfBlob / pageSize
  let allocatedPages ← fillSlice allocatedPages 0 dtbLenPages true
  -- allocate the space taken up by the kernel image
  let kernelStartPages := divCeil (← checkedSub kernelStart memoryStart) pageSize
  let kernelEndPages := divCeil (← checkedSub kernelEnd memoryStart) pageSize
  let allocatedPages ← fillSlice allocatedPages kernelStartPages kernelEndPages true
  -- allocate the space taken up by the page allocation bitmap
  let bitmapPages := divCeil (← checkedAdd (memoryLength / pageSize / 8) padding) pageSize
  let bitmapEndPages ← checkedAdd kernelEndPages bitmapPages
  let allocatedPages ← fillSlice allocatedPages kernelEndPages bitmapEndPages true
  return { allocatedPages, memoryStart }

/-! ### What is marked -/

variable {memoryStart memoryLength kernelStart kernelEnd sizeOfBlob : ℕ}
  {pma : PhysicalMemoryAllocator}

def bitmapEndPages (memoryStart memoryLength kernelEnd : ℕ) : ℕ :=
  divCeil (kernelEnd - memoryStart) pageSize +
    divCeil (memoryLength / pageSize / 8 + bitmapPadding kernelEnd) pageSize

lemma fillSlice_ok {bits bits' : List Bool} {first last : ℕ} {v : Bool}
    (h : fillSlice bits first last v = .ok bits') :
    first ≤ last ∧ last ≤ bits.length ∧ bits'.length = bits.length ∧
      ∀ p, bits'[p]? = if first ≤ p ∧ p < last then some v else bits[p]? := by
  unfold fillSlice at h
  split_ifs at h with hle
  obtain ⟨hleng, hlen, hget⟩ := fillRange_ok h
  rw [Nat.add_sub_cancel' hle] at hleng hget
  exact ⟨hle, hleng, hlen, hget⟩

lemma init_free_iff (h : init memoryStart memoryLength (highMemory + kernelStart)
    (highMemory + kernelEnd) sizeOfBlob = .ok pma) (p : ℕ) :
    pma.allocatedPages[p]? = some false ↔ p < memoryLength / pageSize ∧
      sizeOfBlob / pageSize ≤ p ∧ (p < divCeil (kernelStart - memoryStart) pageSize ∨
        bitmapEndPages memoryStart memoryLength kernelEnd ≤ p) := by
  simp only [init, bind_eq_ok, checkedSub_eq_ok, checkedAdd_eq_ok] at h
  obtain ⟨first, ⟨-, hfst⟩, last, ⟨-, hlast⟩, _, -, _, -, bits₁, h₁, _, ⟨-, rfl⟩, _, ⟨-, rfl⟩,
    bits₂, h₂, _, ⟨-, rfl⟩, _, ⟨-, rfl⟩, bits₃, h₃, hret⟩ := h
  rw [Nat.add_sub_cancel_left] at hfst hlast
  cases hret
  rw [hfst, hlast] at h₂
  rw [hlast] at h₃
  obtain ⟨-, -, -, hget₁⟩ := fillSlice_ok h₁
  obtain ⟨hle₂, -, -, hget₂⟩ := fillSlice_ok h₂
  obtain ⟨hle₃, -, -, hget₃⟩ := fillSlice_ok h₃
  simp only [hget₃, hget₂, hget₁, List.getElem?_replicate]
  rw [bitmapEndPages]
  generalize divCeil (kernelStart - memoryStart) pageSize = first at *
  generalize divCeil (kernelEnd - memoryStart) pageSize = last at *
  generalize divCeil (memoryLength / pageSize / 8 + bitmapPadding kernelEnd) pageSize = count at *
  split_ifs <;> simp <;> omega

/-! ### What has to be marked -/

def Intersects (memoryStart p : ℕ) (r : Range) : Prop :=
  ∃ x ∈ r, x ∈ (⟨memoryStart + p * pageSize, pageSize⟩ : Range)

lemma intersects_iff {start len p : ℕ} (hlen : 0 < len) :
    Intersects memoryStart p ⟨start, len⟩ ↔
      start < memoryStart + (p + 1) * pageSize ∧ memoryStart + p * pageSize < start + len := by
  simp only [Intersects, Range.mem_iff, pageSize]
  constructor
  · rintro ⟨x, hx, hx'⟩
    omega
  · intro h
    refine ⟨max start (memoryStart + p * 4096), ?_, ?_⟩ <;> omega

def blobRange (memoryStart sizeOfBlob : ℕ) : Range := ⟨memoryStart, sizeOfBlob⟩

def imageRange (kernelStart kernelEnd : ℕ) : Range := ⟨kernelStart, kernelEnd - kernelStart⟩

def bitmapRange (memoryLength kernelEnd : ℕ) : Range :=
  ⟨kernelEnd + bitmapPadding kernelEnd, divCeil (memoryLength / pageSize) 8⟩

def Protects (memoryStart memoryLength kernelStart kernelEnd sizeOfBlob : ℕ)
    (pma : PhysicalMemoryAllocator) : Prop :=
  ∀ p, Intersects memoryStart p (blobRange memoryStart sizeOfBlob) ∨
      Intersects memoryStart p (imageRange kernelStart kernelEnd) ∨
      Intersects memoryStart p (bitmapRange memoryLength kernelEnd) →
    pma.allocatedPages[p]? ≠ some false

structure Covered (memoryStart memoryLength kernelStart kernelEnd sizeOfBlob : ℕ) : Prop where
  blob : sizeOfBlob % pageSize = 0 ∨ memoryLength / pageSize ≤ sizeOfBlob / pageSize ∨
    divCeil (kernelStart - memoryStart) pageSize ≤ sizeOfBlob / pageSize ∧
      sizeOfBlob / pageSize < bitmapEndPages memoryStart memoryLength kernelEnd
  image : (kernelStart - memoryStart) % pageSize = 0 ∨
    (kernelStart - memoryStart) / pageSize < sizeOfBlob / pageSize
  bitmap : (kernelEnd - memoryStart) % pageSize ≠ 0 ∨ memoryLength / pageSize % 8 = 0 ∨
    memoryLength / pageSize / 8 % pageSize ≠ 0 ∨
    memoryLength / pageSize ≤ bitmapEndPages memoryStart memoryLength kernelEnd ∨
    bitmapEndPages memoryStart memoryLength kernelEnd < sizeOfBlob / pageSize

/-! ### The roundings -/

lemma bitmapPadding_spec (kernelEnd : ℕ) :
    (kernelEnd + bitmapPadding kernelEnd) % 8 = 0 ∧ bitmapPadding kernelEnd < 8 := by
  unfold bitmapPadding
  split_ifs <;> omega

section

variable (hmemory : memoryStart % pageSize = 0) (hstart : memoryStart ≤ kernelStart)
  (himage : kernelStart < kernelEnd)

include hstart himage in
lemma intersects_imageRange {p : ℕ} :
    Intersects memoryStart p (imageRange kernelStart kernelEnd) ↔
      kernelStart - memoryStart < (p + 1) * pageSize ∧ p * pageSize < kernelEnd - memoryStart := by
  rw [imageRange, intersects_iff (by omega)]
  omega

lemma intersects_blobRange {p : ℕ} :
    Intersects memoryStart p (blobRange memoryStart sizeOfBlob) ↔ p * pageSize < sizeOfBlob := by
  rcases eq_zero_or_pos sizeOfBlob with rfl | hpos
  · simp [Intersects, blobRange, Range.mem_iff]
  · have hpage : 0 < (p + 1) * pageSize := mul_pos (Nat.succ_pos p) (by decide)
    rw [blobRange, intersects_iff hpos]
    omega

include hmemory hstart himage in
lemma intersects_bitmapRange {p : ℕ} (hp : Intersects memoryStart p (bitmapRange memoryLength
    kernelEnd)) (hpage : bitmapEndPages memoryStart memoryLength kernelEnd ≤ p) :
    p = bitmapEndPages memoryStart memoryLength kernelEnd ∧
      (kernelEnd - memoryStart) % pageSize = 0 ∧ memoryLength / pageSize % 8 ≠ 0 ∧
      memoryLength / pageSize / 8 % pageSize = 0 := by
  obtain ⟨x, hx, hx'⟩ := hp
  obtain ⟨hpad, hlt⟩ := bitmapPadding_spec kernelEnd
  have hlast := divCeil_bounds (kernelEnd - memoryStart)
  have hcnt := divCeil_bounds (memoryLength / pageSize / 8 + bitmapPadding kernelEnd)
  rw [bitmapEndPages] at hpage ⊢
  simp only [bitmapRange, Range.mem_iff] at hx hx'
  generalize divCeil (kernelEnd - memoryStart) pageSize = last at *
  generalize divCeil (memoryLength / pageSize / 8 + bitmapPadding kernelEnd) pageSize = count at *
  generalize bitmapPadding kernelEnd = padding at *
  generalize memoryLength / pageSize = pages at *
  simp only [divCeil, pageSize] at *
  omega

include hmemory hstart himage in
lemma intersects_bitmapRange_end (hlast : (kernelEnd - memoryStart) % pageSize = 0)
    (hbits : memoryLength / pageSize % 8 ≠ 0) (hbyt : memoryLength / pageSize / 8 % pageSize = 0) :
    Intersects memoryStart (bitmapEndPages memoryStart memoryLength kernelEnd)
      (bitmapRange memoryLength kernelEnd) := by
  have hpad : bitmapPadding kernelEnd = 0 := by
    rw [bitmapPadding, if_pos]
    simp only [pageSize] at hmemory hlast
    omega
  rw [bitmapEndPages, bitmapRange, hpad]
  generalize memoryLength / pageSize = pages at *
  rw [intersects_iff]
  · simp only [divCeil, pageSize] at *
    omega
  · simp only [divCeil]
    omega

end

/-- For every RAM, every kernel image in it and every blob at its start: the blob, the image and
the bitmap are protected if and only if the roundings lose nothing. -/
theorem init_protects_iff (hmemory : memoryStart % pageSize = 0)
    (hlength : memoryLength % pageSize = 0) (hstart : memoryStart ≤ kernelStart)
    (himage : kernelStart < kernelEnd) (hend : kernelEnd ≤ memoryStart + memoryLength)
    (h : init memoryStart memoryLength (highMemory + kernelStart) (highMemory + kernelEnd)
      sizeOfBlob = .ok pma) :
    Protects memoryStart memoryLength kernelStart kernelEnd sizeOfBlob pma ↔
      Covered memoryStart memoryLength kernelStart kernelEnd sizeOfBlob := by
  have hfree := init_free_iff h
  have hfst := divCeil_bounds (kernelStart - memoryStart)
  constructor
  · intro hpro
    have hmar : ∀ p, Intersects memoryStart p (blobRange memoryStart sizeOfBlob) ∨
        Intersects memoryStart p (imageRange kernelStart kernelEnd) ∨
        Intersects memoryStart p (bitmapRange memoryLength kernelEnd) →
        ¬ (p < memoryLength / pageSize ∧ sizeOfBlob / pageSize ≤ p ∧
          (p < divCeil (kernelStart - memoryStart) pageSize ∨
            bitmapEndPages memoryStart memoryLength kernelEnd ≤ p)) :=
      fun p hp hnot => hpro p hp ((hfree p).mpr hnot)
    refine ⟨?_, ?_, ?_⟩
    · by_contra hne
      refine hmar (sizeOfBlob / pageSize) (.inl (intersects_blobRange.mpr ?_)) ?_
      · simp only [pageSize] at hne ⊢
        omega
      · omega
    · by_contra hne
      refine hmar ((kernelStart - memoryStart) / pageSize)
        (.inr (.inl ((intersects_imageRange hstart himage).mpr ?_))) ?_
      · simp only [pageSize]
        omega
      · simp only [pageSize] at hne hfst hlength ⊢
        omega
    · by_contra hne
      refine hmar (bitmapEndPages memoryStart memoryLength kernelEnd) (.inr (.inr ?_)) ?_
      · exact intersects_bitmapRange_end hmemory hstart himage (by tauto) (by tauto) (by tauto)
      · omega
  · rintro ⟨hblob, himg', hbitm⟩ p hp hbit
    obtain ⟨hlt, hpast, hout⟩ := (hfree p).mp hbit
    -- the page that the image begins in is free only if it is marked for the blob
    have hfro : p < divCeil (kernelStart - memoryStart) pageSize →
        (p + 1) * pageSize ≤ kernelStart - memoryStart := fun hp => by
      simp only [pageSize] at *
      omega
    have hlast := divCeil_bounds (kernelEnd - memoryStart)
    have hle : divCeil (kernelEnd - memoryStart) pageSize ≤
        bitmapEndPages memoryStart memoryLength kernelEnd := Nat.le_add_right _ _
    rcases hp with hp | hp | hp
    · rw [intersects_blobRange] at hp
      simp only [pageSize] at *
      omega
    · rw [intersects_imageRange hstart himage] at hp
      simp only [pageSize] at *
      omega
    · rcases hout with hout | hout
      · obtain ⟨x, hx, hx'⟩ := hp
        have := hfro hout
        simp only [bitmapRange, Range.mem_iff, Nat.succ_mul] at hx hx' this
        omega
      · obtain ⟨rfl, hbou, hbits, hbyt⟩ :=
          intersects_bitmapRange hmemory hstart himage hp hout
        omega

/-- A blob of one page, an image of two pages and the bitmap of eight pages of RAM. -/
theorem init_protects_one_page_each :
    ∃ pma, init 0x4000_0000 0x8000 (highMemory + 0x4000_2000) (highMemory + 0x4000_4000) 0x1000 =
        .ok pma ∧ (Protects 0x4000_0000 0x8000 0x4000_2000 0x4000_4000 0x1000 pma ↔
          Covered 0x4000_0000 0x8000 0x4000_2000 0x4000_4000 0x1000) := by
  obtain ⟨pma, hinit⟩ : ∃ pma, init 0x4000_0000 0x8000 (highMemory + 0x4000_2000)
      (highMemory + 0x4000_4000) 0x1000 = .ok pma := ⟨_, rfl⟩
  exact ⟨pma, hinit, init_protects_iff (by decide) (by decide) (by decide) (by decide) (by decide)
    hinit⟩

/-- A blob of 100 bytes takes no page, so the first page of RAM is free. -/
theorem init_leaves_blob_free :
    ∃ pma, init 0x4000_0000 0x8000 (highMemory + 0x4000_2000) (highMemory + 0x4000_4000) 100 =
        .ok pma ∧ pma.allocatedPages[0]? = some false ∧
      ¬ Protects 0x4000_0000 0x8000 0x4000_2000 0x4000_4000 100 pma := by
  refine ⟨⟨[false, false, true, true, true, false, false, false], 0x4000_0000⟩, by decide, rfl,
    fun hpro => ?_⟩
  exact hpro 0 (.inl (intersects_blobRange.mpr (by decide))) rfl

end PhysicalMemoryAllocator

end Kernel.Memory
