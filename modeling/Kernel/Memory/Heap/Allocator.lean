import Kernel.Memory.Heap.Blocks

/-!
# Allocation and deallocation

`Divided h used` says that the free blocks and the blocks `used` partition the heap.
-/

namespace Kernel.Memory.Heap

open Core Action List AllocatedBlockHeader

variable {h h' h'' : Heap} {used : List Range} {r b : Range} {fuel : ℕ} {supply : Supply}
  {layout : Layout}

structure Divided (h : Heap) (used : List Range) : Prop where
  exists_free : ∃ xs, IsFreeList h xs ∧
    Partitions (xs ++ used) kernelHeapStart (kernelHeapStart + h.heapSizeInBytes)
  size_mod : h.heapSizeInBytes % pageSize = 0

structure Keeps (used : List Range) (h h' : Heap) : Prop where
  memory_eq : ∀ a, 0 < coverage used a → h'.memory a = h.memory a
  initialized : h.initialized = true → h'.initialized = true

def Excused (e : Halt) (_ : Heap) : Prop := e ≠ .panicked .assertion

variable {xs : List Range} {E : Halt → Heap → Prop} (hrun : fuel < 2 ^ 40 → ∀ h, E .running h)
  (hunw : ∀ n k, supply n k = false → ∀ h, E (.panicked .unwrap) h)

include hrun in
lemma RunsOutOfFuel.elim {e : Halt} (hxs : IsFreeList h xs) (he : RunsOutOfFuel fuel xs e h') :
    E e h' :=
  he.1 ▸ hrun (he.2.trans_lt hxs.length_lt) h'

lemma Keeps.refl (used : List Range) (h : Heap) : Keeps used h h := ⟨fun _ _ => rfl, id⟩

lemma Keeps.trans (h₁ : Keeps used h h') (h₂ : Keeps used h' h'') : Keeps used h h'' :=
  ⟨fun a ha => (h₂.memory_eq a ha).trans (h₁.memory_eq a ha), h₂.initialized ∘ h₁.initialized⟩

lemma Keeps.of_cons (hk : Keeps (r :: used) h h') : Keeps used h h' :=
  ⟨fun a ha => hk.memory_eq a (by rw [coverage_cons]; omega), hk.initialized⟩

lemma Divided.end_lt (hd : Divided h used) : kernelHeapStart + h.heapSizeInBytes < 2 ^ 64 := by
  obtain ⟨xs, hxs, -⟩ := hd.exists_free
  exact hxs.end_lt

/-! ### The methods on the free list -/

include hrun in
lemma Divided.wp_addFreeBlock (hd : Divided h (b :: used)) (hb : IsBlock h b)
    {newBlock : FreeBlock} (haddr : newBlock.address = b.start) (hsize : newBlock.size = b.len) :
    wp (addFreeBlock fuel newBlock)
      (fun _ h' => Divided h' used ∧ Keeps used h h' ∧
        h'.heapSizeInBytes = h.heapSizeInBytes ∧ HasBlock b h') E h := by
  obtain ⟨⟨xs, hxs, hpart⟩, hmod⟩ := hd
  have hcov : ∀ x, coverage xs x + (b.ind x + coverage used x) =
      if kernelHeapStart ≤ x ∧ x < kernelHeapStart + h.heapSizeInBytes then 1 else 0 := fun x => by
    rw [← hpart x, coverage_append, coverage_cons]
  have hle : ∀ x, coverage xs x + (b.ind x + coverage used x) ≤ 1 := fun x => by
    rw [hcov x]
    split_ifs <;> omega
  refine wp_mono (Heap.wp_addFreeBlock haddr hsize hxs hb fun x => ?_) ?_ fun _ _ =>
    RunsOutOfFuel.elim hrun hxs
  · have := hle x
    omega
  · rintro - h' ⟨⟨⟨ys, hys, hcove⟩, hkp⟩, hhas⟩
    refine ⟨⟨⟨ys, hys, fun x => ?_⟩, hkp.size_eq ▸ hmod⟩, ⟨fun a ha => hkp.memory_eq a ?_,
      fun hinit => hkp.initialized_eq ▸ hinit⟩, hkp.size_eq, hhas⟩
    · rw [coverage_append, hcove, hkp.size_eq, ← hcov x]
      omega
    · have := hle a
      rw [coverage_cons]
      omega

lemma isFreeList_init (h : Heap) (hsize : h.heapSizeInBytes = initSize * pageSize)
    (hhead : h.head = kernelHeapStart) (htail : h.tail = kernelHeapStart)
    (hmem : h.memory kernelHeapStart = initSize * pageSize) (hnext : h.next kernelHeapStart = 0)
    (hprev : h.prev kernelHeapStart = 0) :
    IsFreeList h [⟨kernelHeapStart, initSize * pageSize⟩] := by
  refine ⟨⟨fun r hr => ?_, pairwise_singleton _ _⟩, ⟨hprev, hnext, trivial⟩, hhead, htail,
    fun r hr => ?_, ?_⟩
  · rw [mem_singleton.mp hr]
    exact ⟨le_refl _, by rw [hsize], by decide, by decide, by decide⟩
  · rw [mem_singleton.mp hr]
    exact hmem
  · rw [hsize]
    decide

lemma IsFreeList.eq_nil (hxs : IsFreeList h xs) (hsize : h.heapSizeInBytes = 0) :
    xs = [] := by
  cases xs with
  | nil => rfl
  | cons r xs =>
    have hr := hxs.block r mem_cons_self
    have := hr.start_le
    have := hr.le_end
    have := hr.le_len
    omega

include hunw in
lemma Divided.wp_ensureInit (hd : Divided h used)
    (huni : h.initialized = false → h.heapSizeInBytes = 0) :
    wp (ensureInit supply) (fun _ h' => Divided h' used ∧ Keeps used h h' ∧
      h'.initialized = true ∧ (h.initialized = true ∧ h' = h ∨
        h.initialized = false ∧ h'.heapSizeInBytes = initSize * pageSize)) E h := by
  rw [ensureInit, wp_bind, wp_get, wp_ite]
  refine ⟨fun hinit => ⟨hd, .refl used h, hinit, .inl ⟨hinit, rfl⟩⟩, fun hinit => ?_⟩
  obtain ⟨⟨xs, hxs, hpart⟩, hmod⟩ := hd
  have hsize := huni (by simpa using hinit)
  obtain rfl := hxs.eq_nil hsize
  have hhead : h.head = 0 := hxs.head_eq
  have hused : ∀ x, coverage used x = 0 := fun x => by
    have hx := hpart x
    rw [nil_append, hsize] at hx
    rw [hx, if_neg (by omega)]
  have hinit' : h.initialized = false := by simpa using hinit
  rw [init, wp_bind, wp_get, wp_bind, wp_modify, wp_bind, wp_checked_assert hinit', wp_bind,
    expectPages, wp_bind, wp_get, wp_ite]
  refine ⟨fun _ => ?_, fun hno => hunw _ _ (Bool.not_eq_true _ ▸ hno) _⟩
  rw [wp_pure, initFreeList, wp_bind, wp_get, wp_bind]
  refine (wp_checked_assert ?_).mpr ?_
  · exact hhead
  simp only [wp_bind, wp_modify, wp_setSize, wp_setNext, wp_setPrev]
  refine ⟨⟨⟨_, isFreeList_init _ rfl rfl rfl ?_ ?_ ?_, fun x => ?_⟩, Nat.mul_mod_left _ _⟩,
    ⟨fun a ha => absurd ha (by rw [hused]; decide), fun _ => rfl⟩, rfl, .inr ⟨hinit', trivial⟩⟩
  · simp
  · simp [next]
  · simp [prev]
  · rw [coverage_append, hused, coverage_cons, coverage_nil]
    simp only [Range.ind, Range.mem_iff]
    rfl

structure Taken (layout : Layout) (used : List Range) (block : FreeBlock) (r : Range) (h : Heap) :
    Prop where
  address_eq : block.address = r.start
  size_eq : block.size = r.len
  isBlock : IsBlock h r
  requiredSize_le : layout.requiredSize r.start ≤ r.len
  divided : Divided h (r :: used)

include hrun hunw in
lemma Divided.wp_findSuitableFreeBlock (hd : Divided h used)
    (huni : h.initialized = false → h.heapSizeInBytes = 0) :
    wp (findSuitableFreeBlock supply fuel layout)
      (fun result h' => Keeps used h h' ∧ h'.initialized = true ∧
        match result with
        | none => Divided h' used ∧ (h.initialized = true ∧ h' = h ∨
            h.initialized = false ∧ h'.heapSizeInBytes = initSize * pageSize) ∧
          ∀ xs, IsFreeList h' xs → ∀ r ∈ xs, r.len < layout.requiredSize r.start
        | some block => ∃ r, Taken layout used block r h') E h := by
  rw [findSuitableFreeBlock, wp_bind]
  refine wp_mono (hd.wp_ensureInit hunw huni) ?_ fun _ _ => id
  rintro - h₁ ⟨⟨⟨xs, hxs, hpart⟩, hmod⟩, hkp₁, hinit, hsize⟩
  rw [wp_bind, wp_cursor hxs]
  refine wp_mono (wp_findFrom (l := []) hxs (by simp)) ?_ fun _ _ => RunsOutOfFuel.elim hrun hxs
  rintro (_ | block) h₂ hfin
  · obtain ⟨rfl, hsmall⟩ := hfin
    exact ⟨hkp₁, hinit, ⟨⟨xs, hxs, hpart⟩, hmod⟩, hsize, fun ys hys => hys.unique hxs ▸ hsmall⟩
  · obtain ⟨r, hr⟩ := hfin
    obtain ⟨ys, hys, hcov⟩ := hr.exists_free
    rw [nil_append] at hcov
    refine ⟨hkp₁.trans ⟨fun a ha => hr.keeps.memory_eq a ?_, fun _ => ?_⟩, ?_, r,
      hr.address_eq, hr.size_eq, hr.isBlock.congr hr.keeps.size_eq, hr.requiredSize_le,
      ⟨ys, hys, fun x => ?_⟩, hr.keeps.size_eq ▸ hmod⟩
    · have hle := hpart.coverage_le_one a
      rw [coverage_append] at hle
      rw [nil_append]
      omega
    · rw [hr.keeps.initialized_eq, hinit]
    · rw [hr.keeps.initialized_eq, hinit]
    · rw [hr.keeps.size_eq, ← hpart x, coverage_append, coverage_append, hcov, coverage_cons]
      omega

/-! ### Growth -/

lemma wp_checkPtr_of_overflow {p : ℕ} {Q : Unit → Heap → Prop} (hp : kernelHeapStart ≤ p)
    (hend : ¬ kernelHeapStart + h.heapSizeInBytes < 2 ^ 64)
    (hover : ∀ h, E (.panicked .overflow) h) : wp (checkPtr p) Q E h := by
  have h0 : p ≠ 0 := by
    rintro rfl
    exact absurd hp (by decide)
  have herr : (do
      assert (p ≥ kernelHeapStart)
      let heapEnd ← checkedAdd kernelHeapStart h.heapSizeInBytes
      assert (p ≤ heapEnd)) = .error .overflow := by
    rw [(assert_eq_ok (u := ())).mpr hp, checkedAdd, if_neg hend]
    rfl
  rw [checkPtr, wp_ifNonNull, wp_bind, wp_get, herr]
  exact ⟨fun _ => hover _, fun heq => absurd heq h0⟩

include hrun in
lemma wp_addFreeBlock_of_overflow {Q : Unit → Heap → Prop} {newBlock : FreeBlock}
    (hhead : h.head = 0 ∨ kernelHeapStart ≤ h.head)
    (hend : ¬ kernelHeapStart + h.heapSizeInBytes < 2 ^ 64)
    (haddr : kernelHeapStart ≤ newBlock.address) (hsize : newBlock.size ≠ 0)
    (hover : ∀ h, E (.panicked .overflow) h) : wp (addFreeBlock fuel newBlock) Q E h := by
  rw [addFreeBlock, wp_bind, cursor, wp_bind, wp_get, wp_bind]
  rcases hhead with hhead | hhead
  · rw [hhead, checkPtr, wp_ifNonNull]
    refine ⟨fun h0 => absurd rfl h0, fun _ => ?_⟩
    rw [wp_pure]
    cases fuel with
    | zero => exact hrun (by decide) _
    | succ fuel =>
      rw [addFrom, wp_bind, current, if_pos rfl, wp_pure]
      dsimp only
      rw [insertBeforeCurrent, wp_bind, wp_checked_assert hsize, wp_bind]
      exact wp_checkPtr_of_overflow haddr hend hover
  · exact wp_checkPtr_of_overflow hhead hend hover

lemma IsFreeList.grow {n : ℕ} (hxs : IsFreeList h xs)
    (hend : kernelHeapStart + (h.heapSizeInBytes + n) < 2 ^ 64) :
    IsFreeList { h with heapSizeInBytes := h.heapSizeInBytes + n } xs where
  block r hr := by
    have hb := hxs.block r hr
    exact ⟨hb.start_le, hb.le_end.trans (by dsimp only; omega), hb.start_mod, hb.len_mod, hb.le_len⟩
  sorted := hxs.sorted
  linked := hxs.linked
  head_eq := hxs.head_eq
  tail_eq := hxs.tail_eq
  size_eq := hxs.size_eq
  end_lt := hend

lemma Divided.grow {n : ℕ} (hd : Divided h used)
    (hend : kernelHeapStart + (h.heapSizeInBytes + n * pageSize) < 2 ^ 64) :
    Divided { h with heapSizeInBytes := h.heapSizeInBytes + n * pageSize }
      (⟨kernelHeapStart + h.heapSizeInBytes, n * pageSize⟩ :: used) := by
  obtain ⟨⟨xs, hxs, hpart⟩, hmod⟩ := hd
  refine ⟨⟨xs, hxs.grow hend, fun x => ?_⟩, ?_⟩
  · have hx := hpart x
    rw [coverage_append] at hx
    rw [coverage_append, coverage_cons]
    simp only [Range.ind, Range.mem_iff]
    split_ifs at hx ⊢ <;> omega
  · dsimp only
    rw [Nat.add_mul_mod_self_right, hmod]

/-- The number of bytes by which the heap grows. -/
def growth (h : Heap) (layout : Layout) : ℕ :=
  divCeil (max (h.heapSizeInBytes + h.heapSizeInBytes / 2) layout.size) pageSize * pageSize

lemma growth_bounds (h : Heap) (layout : Layout) :
    max (h.heapSizeInBytes + h.heapSizeInBytes / 2) layout.size ≤ h.growth layout ∧
      h.growth layout <
        max (h.heapSizeInBytes + h.heapSizeInBytes / 2) layout.size + pageSize := by
  simp only [growth, divCeil, pageSize]
  omega

include hrun hunw in
lemma Divided.wp_increaseHeapSize (hd : Divided h used)
    (hsize : 0 < h.heapSizeInBytes ∨ 0 < layout.size)
    (hover : 2 ^ 64 ≤ kernelHeapStart + (h.heapSizeInBytes + h.growth layout) →
      ∀ h, E (.panicked .overflow) h) :
    wp (increaseHeapSize supply fuel layout) (fun _ h' => Divided h' used ∧ Keeps used h h' ∧
      h'.heapSizeInBytes = h.heapSizeInBytes + h.growth layout ∧
      HasBlock ⟨kernelHeapStart + h.heapSizeInBytes, h.growth layout⟩ h') E h := by
  have hhead : h.head = 0 ∨ kernelHeapStart ≤ h.head := by
    obtain ⟨xs, hxs, -⟩ := hd.exists_free
    rw [hxs.head_eq]
    exact (hxs.isPtr (headD_mem_cons (starts xs) 0)).imp_right And.left
  have hlt : h.heapSizeInBytes < 2 ^ 40 := by
    have hend := hd.end_lt
    simp only [kernelHeapStart] at hend
    omega
  have hlay := layout.size_le
  obtain ⟨hge, hle⟩ := growth_bounds h layout
  simp only [pageSize] at hle
  rw [increaseHeapSize, wp_bind, wp_get, wp_bind, wp_checkedAdd (by omega)]
  dsimp only
  rw [wp_bind, expectPages, wp_bind, wp_get, wp_ite]
  refine ⟨fun _ => ?_, fun hno => hunw _ _ (Bool.not_eq_true _ ▸ hno) _⟩
  rw [wp_pure, wp_bind, wp_checkedAdd hd.end_lt, wp_bind,
    wp_checked_of_eq (checkedMul_eq_ok.mpr ⟨by rw [← growth]; omega, rfl⟩), ← growth, wp_bind,
    increaseSize, wp_bind, wp_get, wp_bind, wp_checkedAdd (by omega), wp_modify, wp_bind]
  have hal : (kernelHeapStart + h.heapSizeInBytes) % 8 = 0 := by
    have hmod := hd.size_mod
    simp only [kernelHeapStart, pageSize] at hmod ⊢
    omega
  rw [wp_freeBlock_new (alignOffset_eq_zero hal)]
  by_cases hend : kernelHeapStart + (h.heapSizeInBytes + h.growth layout) < 2 ^ 64
  · refine wp_mono ((hd.grow hend).wp_addFreeBlock hrun ?_ rfl rfl) ?_ fun _ _ => id
    · refine ⟨le_self_add, (add_assoc _ _ _).le, hal, ?_, ?_⟩
      · simp only [pageSize]
        omega
      · simp only [growth, pageSize] at hge ⊢
        omega
    · rintro - h' ⟨hd', hkp, hsize', hhas⟩
      exact ⟨hd', ⟨hkp.memory_eq, hkp.initialized⟩, hsize', hhas⟩
  · exact wp_addFreeBlock_of_overflow hrun hhead hend le_self_add (by dsimp only; omega)
      (hover (Nat.le_of_not_lt hend))

/-! ### Allocation -/

variable {block : FreeBlock}

lemma IsBlock.requiredBlock_eq_ok (hr : IsBlock h r)
    (hend : kernelHeapStart + h.heapSizeInBytes < 2 ^ 64)
    (hle : layout.requiredSize r.start ≤ r.len) (haddr : block.address = r.start) :
    ∃ req, requiredBlock block layout = .ok (layout.padding r.start, req) ∧
      layout.requiredSize r.start ≤ req ∧ 24 ≤ req ∧ req % 8 = 0 ∧ req ≤ r.len := by
  have hst := hr.start_mod
  have hlen := hr.len_mod
  have hmin := hr.le_len
  have hle_end := hr.le_end
  have hreq : allocatedBlockHeaderSize + layout.padding r.start + layout.size =
      layout.requiredSize r.start := by
    simp only [Layout.requiredSize]
    omega
  generalize layout.requiredSize r.start = size at hle hreq ⊢
  have hadd : VirtualAddress.add r.start (max size freeBlockHeaderSize) =
      r.start + max size freeBlockHeaderSize :=
    VirtualAddress.add_of_lt (by simp only [freeBlockHeaderSize]; omega)
  refine ⟨max size freeBlockHeaderSize +
    VirtualAddress.alignOffset (r.start + max size freeBlockHeaderSize) freeBlockHeaderAlign,
    ?_, ?_⟩
  · rw [requiredBlock]
    simp only [haddr, hr.alignOffset_eq hend, bind_eq_ok, checkedAdd_eq_ok]
    refine ⟨_, ⟨by omega, rfl⟩, _, ⟨by omega, rfl⟩, _, ⟨?_, rfl⟩, ?_⟩
    · rw [hreq, hadd]
      simp only [VirtualAddress.alignOffset, freeBlockHeaderAlign, freeBlockHeaderSize]
      omega
    · rw [hreq, hadd]
      rfl
  · simp only [VirtualAddress.alignOffset, freeBlockHeaderAlign, freeBlockHeaderSize]
    omega

lemma Divided.congr {used' : List Range} (hd : Divided h used)
    (hused : ∀ x, coverage used' x = coverage used x) : Divided h used' := by
  obtain ⟨⟨xs, hxs, hpart⟩, hmod⟩ := hd
  refine ⟨⟨xs, hxs, fun x => ?_⟩, hmod⟩
  rw [← hpart x, coverage_append, coverage_append, hused]

lemma Divided.write {a w : ℕ} (hd : Divided h used) (ha : 0 < coverage used a) :
    Divided (h.write a w) used := by
  obtain ⟨⟨xs, hxs, hpart⟩, hmod⟩ := hd
  refine ⟨⟨xs, hxs.congr (fun c hc => ?_) rfl rfl rfl, hpart⟩, hmod⟩
  have hne : c ≠ a := by
    rintro rfl
    have hle := hpart.coverage_le_one c
    rw [coverage_append] at hle
    omega
  rw [write_memory, if_neg hne]

include hrun in
lemma Divided.wp_returnRemainder {req : ℕ} (hd : Divided h (r :: used))
    (hr : IsBlock h r) (haddr : block.address = r.start) (hsize : block.size = r.len)
    (hreq : req % 8 = 0) (hle : req ≤ r.len) :
    wp (returnRemainder fuel block req)
      (fun actual h' => req ≤ actual ∧ actual ≤ r.len ∧ actual % 8 = 0 ∧
        Divided h' (⟨r.start, actual⟩ :: used) ∧ Keeps used h h' ∧
        h'.heapSizeInBytes = h.heapSizeInBytes) E h := by
  have hend := hd.end_lt
  have hst := hr.start_mod
  have hlen := hr.len_mod
  have hle_end := hr.le_end
  rw [returnRemainder, hsize, wp_bind, wp_checked_of_eq (checkedSub_eq_ok.mpr ⟨hle, rfl⟩), wp_ite]
  constructor
  · intro hlg
    have hadd : VirtualAddress.add block.address req = r.start + req := by
      rw [haddr]
      exact VirtualAddress.add_of_lt (by omega)
    have hcut : Divided h (⟨r.start + req, r.len - req⟩ :: ⟨r.start, req⟩ :: used) := by
      refine hd.congr fun x => ?_
      have hspl := Range.ind_split r.start req (r.len - req) x
      rw [Nat.add_sub_cancel' hle] at hspl
      simp only [coverage_cons]
      change _ = Range.ind ⟨r.start, r.len⟩ x + _
      omega
    have hrest : IsBlock h ⟨r.start + req, r.len - req⟩ := by
      refine ⟨hr.start_le.trans le_self_add, ?_, ?_, ?_, hlg.le⟩
      all_goals
        dsimp only
        omega
    rw [wp_bind, hadd, wp_freeBlock_new (alignOffset_eq_zero hrest.start_mod), wp_bind]
    refine wp_mono (hcut.wp_addFreeBlock hrun hrest rfl rfl) ?_ fun _ _ => id
    rintro - h' ⟨hd', hkp, hsize', -⟩
    exact ⟨le_refl _, hle, hreq, hd', hkp.of_cons, hsize'⟩
  · intro _
    exact ⟨hle, le_refl _, hlen, hd, .refl used h, rfl⟩

def blockOf (h : Heap) (ptr : ℕ) : Range where
  start := ptr - allocatedBlockHeaderSize -
    padding (h.memory (ptr - allocatedBlockHeaderSize))
  len := size (h.memory (ptr - allocatedBlockHeaderSize))

structure Placed (layout : Layout) (ptr : ℕ) (h : Heap) : Prop where
  isBlock : IsBlock h (h.blockOf ptr)
  aligned : ptr % layout.align = 0
  word_aligned : ptr % 8 = 0
  header : (h.blockOf ptr).start + padding
    (h.memory (ptr - allocatedBlockHeaderSize)) + allocatedBlockHeaderSize = ptr
  data : ptr + layout.size ≤ (h.blockOf ptr).start + (h.blockOf ptr).len

variable {padding : ℕ}

lemma AllocatedBlockHeader.size_new {size : ℕ} (hsize : size < 2 ^ 56) :
    AllocatedBlockHeader.size (AllocatedBlockHeader.new size padding) = size := by
  simp only [AllocatedBlockHeader.size, AllocatedBlockHeader.new]
  omega

lemma AllocatedBlockHeader.padding_new {size : ℕ} (hpad : padding < 2 ^ 8) :
    AllocatedBlockHeader.padding (AllocatedBlockHeader.new size padding) = padding := by
  simp only [AllocatedBlockHeader.padding, AllocatedBlockHeader.new]
  omega

lemma add_alignOffset_mod (v : ℕ) {alignment : ℕ} (hpos : 0 < alignment) :
    (v + VirtualAddress.alignOffset v alignment) % alignment = 0 := by
  have hlt := Nat.mod_lt v hpos
  have hsum : v + (alignment - v % alignment) = alignment * (v / alignment + 1) := by
    have := Nat.div_add_mod v alignment
    rw [mul_add]
    omega
  rw [VirtualAddress.alignOffset, Nat.add_mod_mod, hsum, Nat.mul_mod_right]

lemma Layout.padding_spec (layout : Layout) (address : ℕ) :
    (address + layout.padding address + allocatedBlockHeaderSize) % layout.align = 0 := by
  rw [add_right_comm]
  exact add_alignOffset_mod _ layout.align_pos

lemma Layout.padding_mod (layout : Layout) {address : ℕ} (haddr : address % 8 = 0) :
    layout.padding address % 8 = 0 := by
  obtain ⟨k, hk⟩ := layout.align_isPowerOfTwo
  rw [padding, VirtualAddress.alignOffset, hk, allocatedBlockHeaderSize]
  rcases le_total k 3 with hle | hge
  · have hdvd : 2 ^ k ∣ address + 8 :=
      (Nat.pow_dvd_pow 2 hle).trans (Nat.dvd_of_mod_eq_zero (by omega))
    rw [Nat.mod_eq_zero_of_dvd hdvd, Nat.sub_zero, Nat.mod_self]
  · have hdvd : 8 ∣ 2 ^ k := Nat.pow_dvd_pow 2 hge
    have hmod : 8 ∣ (address + 8) % 2 ^ k :=
      (Nat.dvd_mod_iff hdvd).mpr (Nat.dvd_of_mod_eq_zero (by omega))
    exact Nat.mod_eq_zero_of_dvd ((Nat.dvd_mod_iff hdvd).mpr (Nat.dvd_sub hdvd hmod))

lemma blockOf_eq {actual : ℕ}
    (hmem : h.memory (r.start + padding) = new actual padding)
    (hact : actual < 2 ^ 56) (hpad : padding < 256) :
    h.blockOf (r.start + padding + allocatedBlockHeaderSize) = ⟨r.start, actual⟩ := by
  rw [blockOf, Nat.add_sub_cancel, hmem, padding_new hpad, size_new hact, Nat.add_sub_cancel]

def takeBlock (fuel : ℕ) (layout : Layout) (block : FreeBlock) : HeapM (ℕ × Range) := do
  let (paddingBefore, reqBlockSize) ← checked (requiredBlock block layout)
  let actualBlockSize ← returnRemainder fuel block reqBlockSize
  checked (assert (actualBlockSize ≥ freeBlockHeaderSize))
  let paddedAddress := VirtualAddress.add block.address paddingBefore
  if paddedAddress = 0 then .throw (.panicked .unwrap)
  else do
    .modify (·.write paddedAddress (new actualBlockSize paddingBefore))
    pure (VirtualAddress.add paddedAddress allocatedBlockHeaderSize,
      ⟨block.address, actualBlockSize⟩)

def allocTaking (supply : Supply) (layout : Layout) : (fuel : ℕ) → HeapM (ℕ × Range)
  | 0 => .throw .running
  | fuel + 1 => do
    match ← findSuitableFreeBlock supply fuel layout with
    | some block => takeBlock fuel layout block
    | none => do
      increaseHeapSize supply fuel layout
      allocTaking supply layout fuel

lemma allocateBlock_eq (fuel : ℕ) (layout : Layout) (block : FreeBlock) :
    allocateBlock fuel layout block = Prod.fst <$> takeBlock fuel layout block := by
  simp only [allocateBlock, takeBlock, map_bind]
  refine bind_congr fun x => bind_congr fun actual => bind_congr fun _ => ?_
  split_ifs
  · rfl
  · simp only [map_bind, map_pure]

lemma alloc_eq (supply : Supply) (layout : Layout) (fuel : ℕ) :
    alloc supply layout fuel = Prod.fst <$> allocTaking supply layout fuel := by
  induction fuel with
  | zero => rfl
  | succ fuel ih =>
    simp only [alloc, allocTaking, map_bind]
    refine bind_congr fun found => ?_
    cases found with
    | none => simp only [map_bind, ih]
    | some block => exact allocateBlock_eq fuel layout block

structure LaidOut (layout : Layout) (ptr : ℕ) (b : Range) (h : Heap) : Prop where
  isBlock : IsBlock h b
  pointer_eq : ptr = b.start + layout.padding b.start + allocatedBlockHeaderSize
  data : ptr + layout.size ≤ b.start + b.len
  header : h.memory (b.start + layout.padding b.start) =
    new b.len (layout.padding b.start)

lemma IsBlock.len_lt (hr : IsBlock h r) (hend : kernelHeapStart + h.heapSizeInBytes < 2 ^ 64) :
    r.len < 2 ^ 56 := by
  have hstart_le := hr.start_le
  have hle_end := hr.le_end
  simp only [kernelHeapStart] at *
  omega

variable {ptr : ℕ}

lemma LaidOut.blockOf_eq (hl : LaidOut layout ptr b h)
    (hend : kernelHeapStart + h.heapSizeInBytes < 2 ^ 64)
    (hpad : layout.padding b.start < 256) : h.blockOf ptr = b := by
  rw [hl.pointer_eq]
  exact Heap.blockOf_eq hl.header (hl.isBlock.len_lt hend) hpad

lemma LaidOut.placed (hl : LaidOut layout ptr b h)
    (hend : kernelHeapStart + h.heapSizeInBytes < 2 ^ 64)
    (hpad : layout.padding b.start < 256) : Placed layout ptr h := by
  have hblk := hl.blockOf_eq hend hpad
  have hptr := hl.pointer_eq
  refine ⟨hblk ▸ hl.isBlock, ?_, ?_, ?_, hblk ▸ hl.data⟩
  · rw [hptr]
    exact layout.padding_spec b.start
  · have hst := hl.isBlock.start_mod
    have hmod := layout.padding_mod hst
    simp only [allocatedBlockHeaderSize] at hptr
    omega
  · rw [hblk, hptr, Nat.add_sub_cancel, hl.header, padding_new hpad]

include hrun in
lemma Taken.wp_takeBlock (ht : Taken layout used block r h) :
    wp (takeBlock fuel layout block)
      (fun (ptr, b) h' => Divided h' (b :: used) ∧ LaidOut layout ptr b h' ∧ Keeps used h h')
      E h := by
  have hr := ht.isBlock
  have hend := ht.divided.end_lt
  obtain ⟨req, hreq, hrequ, hmin, hmod, hle⟩ :=
    hr.requiredBlock_eq_ok hend ht.requiredSize_le ht.address_eq
  rw [takeBlock, wp_bind, wp_checked_of_eq hreq]
  dsimp only
  rw [wp_bind]
  refine wp_mono (ht.divided.wp_returnRemainder hrun hr ht.address_eq ht.size_eq hmod hle) ?_
    fun _ _ => id
  rintro actual h₁ ⟨hreq_le, hact, hactual_mod, hd₁, hkp, hsize⟩
  simp only [Layout.requiredSize, allocatedBlockHeaderSize] at hrequ
  have hstart_le := hr.start_le
  have hle_end := hr.le_end
  have hadd : VirtualAddress.add block.address (layout.padding r.start) =
      r.start + layout.padding r.start := by
    rw [ht.address_eq]
    exact VirtualAddress.add_of_lt (by omega)
  have hptr : VirtualAddress.add (r.start + layout.padding r.start) allocatedBlockHeaderSize =
      r.start + layout.padding r.start + allocatedBlockHeaderSize :=
    VirtualAddress.add_of_lt (by simp only [allocatedBlockHeaderSize]; omega)
  have h0 : r.start + layout.padding r.start ≠ 0 := by
    simp only [kernelHeapStart] at hstart_le
    omega
  have hlg : actual ≥ freeBlockHeaderSize := hmin.trans hreq_le
  rw [wp_bind, wp_checked_assert hlg, hadd, if_neg h0, wp_bind, wp_modify, wp_pure, hptr,
    ht.address_eq]
  have hmem : r.start + layout.padding r.start ∈ (⟨r.start, actual⟩ : Range) := by
    rw [Range.mem_iff]
    dsimp only
    omega
  refine ⟨hd₁.write ?_, ⟨⟨hstart_le, ?_, hr.start_mod, hactual_mod, hlg⟩, rfl, ?_, by simp⟩,
    hkp.trans ⟨fun a ha => ?_, id⟩⟩
  · rw [coverage_cons, Range.ind_eq_one hmem]
    omega
  · rw [write_heapSizeInBytes, hsize]
    exact (Nat.add_le_add_left hact _).trans hle_end
  · simp only [allocatedBlockHeaderSize]
    omega
  · obtain ⟨xs, -, hpart⟩ := hd₁.exists_free
    have hne : a ≠ r.start + layout.padding r.start := by
      rintro rfl
      have hle := hpart.coverage_le_one (r.start + layout.padding r.start)
      rw [coverage_append, coverage_cons, Range.ind_eq_one hmem] at hle
      omega
    rw [write_memory, if_neg hne]

lemma Divided.wp_allocTaking (hd : Divided h used)
    (huni : h.initialized = false → h.heapSizeInBytes = 0) (hsize : 0 < layout.size) :
    wp (allocTaking supply layout fuel)
      (fun (ptr, b) h' => Divided h' (b :: used) ∧ LaidOut layout ptr b h' ∧
        Keeps used h h' ∧ h'.initialized = true) Excused h := by
  induction fuel generalizing h with
  | zero => exact nofun
  | succ fuel ih =>
    rw [allocTaking, wp_bind]
    refine wp_mono (hd.wp_findSuitableFreeBlock (fun _ _ => nofun) (fun _ _ _ _ => nofun) huni) ?_
      fun _ _ => id
    rintro (_ | block) h₁ ⟨hkp, hinit, hfd⟩
    · dsimp only at hfd ⊢
      rw [wp_bind]
      refine wp_mono (hfd.1.wp_increaseHeapSize (fun _ _ => nofun) (fun _ _ _ _ => nofun)
        (.inr hsize) fun _ _ => nofun) ?_ fun _ _ => id
      rintro - h₂ ⟨hd₂, hkp₂, -⟩
      refine wp_mono (ih hd₂ fun huni => ?_) ?_ fun _ _ => id
      · rw [hkp₂.initialized hinit] at huni
        cases huni
      · rintro ⟨ptr, b⟩ h₃ ⟨hd₃, hlaid, hkp₃, hinit₃⟩
        exact ⟨hd₃, hlaid, (hkp.trans hkp₂).trans hkp₃, hinit₃⟩
    · obtain ⟨r, ht⟩ := hfd
      refine wp_mono (ht.wp_takeBlock fun _ _ => nofun) ?_ fun _ _ => id
      rintro ⟨ptr, b⟩ h₂ ⟨hd₂, hlaid, hkp₂⟩
      exact ⟨hd₂, hlaid, hkp.trans hkp₂, hkp₂.initialized hinit⟩

/-! ### Deallocation -/

lemma VirtualAddress.offset_neg {v k : ℕ} (hle : k ≤ v) (hlt : v < 2 ^ 64) :
    VirtualAddress.offset v (-k) = v - k := by
  simp only [VirtualAddress.offset]
  omega

def freedBlock (ptr : ℕ) (layout : Layout) : HeapM (Option FreeBlock) :=
  if ptr = 0 then pure none
  else do
    let header := VirtualAddress.offset ptr (-allocatedBlockHeaderSize)
    if header = 0 then .throw (.panicked .unwrap)
    else do
      let h ← .get
      let blockSize := AllocatedBlockHeader.size (h.memory header)
      let blockAddress := VirtualAddress.offset header
        (-AllocatedBlockHeader.padding (h.memory header))
      checked (assert (layout.size ≤ blockSize))
      let block ← checked (FreeBlock.new blockAddress blockSize)
      pure (some block)

lemma dealloc_eq (fuel ptr : ℕ) (layout : Layout) :
    dealloc fuel ptr layout = (do
      match ← freedBlock ptr layout with
      | none => pure ()
      | some block => addFreeBlock fuel block) := by
  rw [dealloc, freedBlock]
  split_ifs
  · rfl
  · dsimp only
    split_ifs
    · rfl
    · simp only [bind_assoc, pure_bind]

lemma Placed.wp_freedBlock {E : Halt → Heap → Prop} (hpl : Placed layout ptr h)
    (hend : kernelHeapStart + h.heapSizeInBytes < 2 ^ 64) :
    wp (freedBlock ptr layout) (fun found h' => h' = h ∧ ∃ block : FreeBlock, found = some block ∧
      block.address = (h.blockOf ptr).start ∧ block.size = (h.blockOf ptr).len) E h := by
  obtain ⟨hblk, -, -, hhd, hdata⟩ := hpl
  have hstart_le := hblk.start_le
  have hle_end := hblk.le_end
  have hst : (h.blockOf ptr).start = ptr - allocatedBlockHeaderSize -
    padding (h.memory (ptr - allocatedBlockHeaderSize)) := rfl
  have hlen : (h.blockOf ptr).len =
    size (h.memory (ptr - allocatedBlockHeaderSize)) := rfl
  simp only [kernelHeapStart] at hstart_le hle_end hend
  have hptr : ptr < 2 ^ 64 := by omega
  have h0 : ptr ≠ 0 := by omega
  have h0' : ptr - allocatedBlockHeaderSize ≠ 0 := by omega
  have haddr := VirtualAddress.offset_neg (v := ptr - allocatedBlockHeaderSize)
    (k := padding (h.memory (ptr - allocatedBlockHeaderSize)))
    (by omega) (by omega)
  rw [freedBlock, if_neg h0]
  dsimp only
  rw [VirtualAddress.offset_neg (by omega) hptr, if_neg h0', wp_bind, wp_get, wp_bind,
    wp_checked_assert (by omega), wp_bind, haddr, ← hst, ← hlen,
    wp_freeBlock_new (alignOffset_eq_zero hblk.start_mod)]
  exact ⟨rfl, _, rfl, rfl, rfl⟩

lemma Divided.wp_dealloc (hd : Divided h (h.blockOf ptr :: used)) (hpl : Placed layout ptr h) :
    wp (dealloc fuel ptr layout)
      (fun _ h' => Divided h' used ∧ Keeps used h h' ∧ h'.heapSizeInBytes = h.heapSizeInBytes)
      Excused h := by
  rw [dealloc_eq, wp_bind]
  refine wp_mono (hpl.wp_freedBlock hd.end_lt) ?_ fun _ _ => id
  rintro _ _ ⟨rfl, block, rfl, haddr, hsize⟩
  refine wp_mono (hd.wp_addFreeBlock (fun _ _ => nofun) hpl.isBlock haddr hsize) ?_ fun _ _ => id
  rintro - h' ⟨hd', hkp, hsize', -⟩
  exact ⟨hd', hkp, hsize'⟩

end Kernel.Memory.Heap
