import Kernel.Memory.Heap.FreeList

/-!
# The cursor of the free list

The methods are specified over a list `l ++ m` whose current block is the first one of `m`.
-/

namespace Kernel.Memory.Heap

open Core Action List

/-! ### Executing the primitive methods -/

section wp

variable {h : Heap} {E : Halt → Heap → Prop}

@[simp] lemma wp_checked_ok {α : Type} {a : α} {Q : α → Heap → Prop} :
    wp (checked (.ok a)) Q E h ↔ Q a h := Iff.rfl

lemma wp_checked_of_eq {α : Type} {x : Checked α} {a : α} {Q : α → Heap → Prop} (hx : x = .ok a) :
    wp (checked x) Q E h ↔ Q a h := by
  rw [hx, wp_checked_ok]

variable {Q : Unit → Heap → Prop}

lemma wp_checked_assert {p : Prop} [Decidable p] (hp : p) :
    wp (checked (assert p)) Q E h ↔ Q () h :=
  wp_checked_of_eq (assert_eq_ok.mpr hp)

lemma wp_checkedAdd {a b : ℕ} {Q : ℕ → Heap → Prop} (hab : a + b < 2 ^ 64) :
    wp (checked (checkedAdd a b)) Q E h ↔ Q (a + b) h :=
  wp_checked_of_eq (checkedAdd_eq_ok.mpr ⟨hab, rfl⟩)

lemma wp_freeBlock_new {address size : ℕ} {Q : FreeBlock → Heap → Prop}
    (hal : VirtualAddress.alignOffset address freeBlockHeaderAlign = 0) :
    wp (checked (FreeBlock.new address size)) Q E h ↔ Q ⟨address, size, hal⟩ h :=
  wp_checked_of_eq (dif_pos hal)

variable {p : ℕ}

@[simp] lemma wp_ifNonNull {x : HeapM Unit} :
    wp (ifNonNull p x) Q E h ↔ (p ≠ 0 → wp x Q E h) ∧ (p = 0 → Q () h) := by
  rw [ifNonNull, wp_ite, not_not, wp_pure]

@[simp] lemma wp_readHeader {Q : FreeBlockHeader → Heap → Prop} :
    wp (readHeader p) Q E h ↔ Q ⟨h.memory p, h.next p, h.prev p⟩ h := Iff.rfl

@[simp] lemma wp_setSize {size : ℕ} :
    wp (setSize p size) Q E h ↔ Q () (h.write p size) := Iff.rfl

@[simp] lemma wp_setNext {next : ℕ} :
    wp (setNext p next) Q E h ↔ Q () (h.write (p + 8) next) := Iff.rfl

@[simp] lemma wp_setPrev {prev : ℕ} :
    wp (setPrev p prev) Q E h ↔ Q () (h.write (p + 16) prev) := Iff.rfl

end wp

/-! ### The methods of the cursor -/

section cursor

variable {h : Heap} {l m xs : List Range} {r b : Range} {p : ℕ} {E : Halt → Heap → Prop}

lemma wp_checkPtr {Q : Unit → Heap → Prop} (hend : kernelHeapStart + h.heapSizeInBytes < 2 ^ 64)
    (hp : p = 0 ∨ kernelHeapStart ≤ p ∧ p ≤ kernelHeapStart + h.heapSizeInBytes) :
    wp (checkPtr p) Q E h ↔ Q () h := by
  rw [checkPtr, wp_ifNonNull]
  rcases hp with rfl | ⟨hle, hge⟩
  · simp
  · have h0 : p ≠ 0 := by
      rintro rfl
      exact absurd hle (by decide)
    have hok : (do
        assert (p ≥ kernelHeapStart)
        let heapEnd ← checkedAdd kernelHeapStart h.heapSizeInBytes
        assert (p ≤ heapEnd)) = .ok () := by
      simp only [bind_eq_ok, assert_eq_ok, checkedAdd_eq_ok]
      exact ⟨(), hle, _, ⟨hend, rfl⟩, hge⟩
    simp [h0, wp_checked_of_eq hok]

lemma AreBlocks.isPtr (hxs : AreBlocks h xs) (hp : p ∈ 0 :: starts xs) :
    p = 0 ∨ kernelHeapStart ≤ p ∧ p ≤ kernelHeapStart + h.heapSizeInBytes := by
  rcases mem_cons.mp hp with rfl | hp
  · exact .inl rfl
  · obtain ⟨hle, hge⟩ := hxs.start_bounds hp
    exact .inr ⟨hle, by omega⟩

lemma alignOffset_eq_zero (hp : p % 8 = 0) :
    VirtualAddress.alignOffset p freeBlockHeaderAlign = 0 := by
  simp only [VirtualAddress.alignOffset, freeBlockHeaderAlign]
  omega

def IsBlock.toFreeBlock (hb : IsBlock h b) : FreeBlock :=
  ⟨b.start, b.len, alignOffset_eq_zero hb.start_mod⟩

@[simp] lemma IsBlock.toFreeBlock_address (hb : IsBlock h b) : hb.toFreeBlock.address = b.start :=
  rfl

@[simp] lemma IsBlock.toFreeBlock_size (hb : IsBlock h b) : hb.toFreeBlock.size = b.len := rfl

lemma wp_cursor {Q : ℕ → Heap → Prop} (hxs : IsFreeList h xs) :
    wp cursor Q E h ↔ Q ((starts xs).headD 0) h := by
  have hptr := hxs.isPtr (headD_mem_cons (starts xs) 0)
  rw [← hxs.head_eq] at hptr ⊢
  rw [cursor, wp_bind, wp_get, wp_bind, wp_checkPtr hxs.end_lt hptr, wp_pure]

lemma wp_current_nil {Q : Option FreeBlock → Heap → Prop} :
    wp (current ((starts []).headD 0)) Q E h ↔ Q none h := Iff.rfl

lemma wp_current_cons {Q : Option FreeBlock → Heap → Prop} (hxs : IsFreeList h (l ++ r :: m)) :
    wp (current ((starts (r :: m)).headD 0)) Q E h ↔
      Q (some (hxs.block r (by simp)).toFreeBlock) h := by
  have h0 : r.start ≠ 0 := fun h0 => hxs.zero_notMem (by simp [← h0])
  have hb := hxs.block r (by simp)
  have hsize : h.memory r.start = r.len := hxs.size_eq r (by simp)
  rw [starts_cons, headD_cons, current, if_neg h0, wp_bind, wp_readHeader, hsize, wp_bind,
    wp_freeBlock_new (alignOffset_eq_zero hb.start_mod), wp_pure]
  rfl

namespace IsFreeList

variable (hxs : IsFreeList h (l ++ r :: m))
include hxs

lemma start_ne_zero : r.start ≠ 0 := fun h0 => hxs.zero_notMem (by simp [← h0])

lemma prev_start : h.prev r.start = (starts l).getLastD 0 := by
  have hlnk := hxs.linked
  rw [starts_append, starts_cons, linked_append, linked_cons] at hlnk
  exact hlnk.2.1

lemma next_start : h.next r.start = (starts m).headD 0 := by
  have hlnk := hxs.linked
  rw [starts_append, starts_cons, linked_append, linked_cons] at hlnk
  exact hlnk.2.2.1

lemma prev_next (hne : (starts m).headD 0 ≠ 0) : h.prev ((starts m).headD 0) = r.start := by
  have hlnk := hxs.linked
  rw [starts_append, starts_cons, linked_append, linked_cons] at hlnk
  cases m with
  | nil => exact absurd rfl hne
  | cons c m => exact hlnk.2.2.2.1

lemma head_eq_start (hp : (starts l).getLastD 0 = 0) : h.head = r.start := by
  rw [hxs.head_eq, starts_append, headD_append, hxs.left.headD_eq_ite, if_pos hp]
  rfl

lemma tail_eq_start_iff : h.tail = r.start ↔ (starts m).headD 0 = 0 := by
  rw [hxs.tail_eq, starts_append, getLastD_append, starts_cons, getLastD_cons,
    hxs.right.tail.getLastD_eq_ite r.start]
  split_ifs with hn
  · exact iff_of_true rfl hn
  · simp only [hn, iff_false]
    intro heq
    have hmem := getLastD_mem_cons (l := starts m) (a := 0)
    rw [heq] at hmem
    rcases mem_cons.mp hmem with h0 | hmem
    · exact hxs.start_ne_zero h0
    · exact hxs.start_notMem (by simp [hmem])

end IsFreeList

section

variable (hxs : IsFreeList h (l ++ r :: m))

include hxs

lemma wp_moveNext {Q : ℕ → Heap → Prop} :
    wp (moveNext ((starts (r :: m)).headD 0)) Q E h ↔ Q ((starts m).headD 0) h := by
  have hptr := hxs.right.tail.isPtr (headD_mem_cons (starts m) 0)
  rw [starts_cons, headD_cons, moveNext, wp_bind, wp_get]
  simp only [ne_eq, hxs.start_ne_zero, not_false_eq_true, if_true, hxs.next_start]
  rw [wp_bind, wp_checkPtr hxs.end_lt hptr, wp_pure]

lemma wp_unlinkMiddle (hp : (starts l).getLastD 0 ≠ 0) :
    wp (unlinkMiddle r.start ⟨r.len, (starts m).headD 0, (starts l).getLastD 0⟩)
      (fun _ h' => Unlinks ((starts l).getLastD 0) ((starts m).headD 0) h h') E h := by
  have hptr := hxs.right.tail.isPtr (headD_mem_cons (starts m) 0)
  have hprev := hxs.prev_next
  have htail := hxs.tail_eq_start_iff
  generalize (starts l).getLastD 0 = p at *
  generalize (starts m).headD 0 = n at *
  simp only [unlinkMiddle]
  rw [wp_bind, wp_checkPtr hxs.end_lt hptr, wp_bind, wp_ifNonNull]
  constructor
  · intro hn
    simp only [wp_bind, wp_readHeader, wp_checked_assert (hprev hn), wp_setPrev, wp_setNext,
      wp_modify]
    exact ⟨fun a => by simp [hn, hp], by simp [hp], by simp [htail], rfl, rfl⟩
  · rintro rfl
    simp only [wp_bind, wp_setNext, wp_modify]
    exact ⟨fun a => by simp [hp], by simp [hp], by simp [htail], rfl, rfl⟩

lemma wp_unlinkHead (hp : (starts l).getLastD 0 = 0) :
    wp (unlinkHead r.start ⟨r.len, (starts m).headD 0, (starts l).getLastD 0⟩)
      (fun _ h' => Unlinks ((starts l).getLastD 0) ((starts m).headD 0) h h') E h := by
  have hptr := hxs.right.tail.isPtr (headD_mem_cons (starts m) 0)
  have hprev := hxs.prev_next
  have htail := hxs.tail_eq_start_iff
  have hhead := hxs.head_eq_start hp
  generalize (starts m).headD 0 = n at *
  simp only [unlinkHead, hp]
  rw [wp_bind, wp_get, wp_bind, wp_checked_assert hhead.symm, wp_bind, wp_modify, wp_bind,
    wp_checkPtr (h := { h with head := n }) hxs.end_lt hptr, wp_bind, wp_ifNonNull]
  constructor
  · intro hn
    rw [wp_bind, wp_readHeader, wp_bind]
    refine (wp_checked_assert ?_).mpr ?_
    · exact hprev hn
    · exact ⟨fun a => by simp [hn], by simp, by simp [htail, hn], rfl, rfl⟩
  · rintro rfl
    rw [wp_modify]
    exact ⟨fun a => by simp, by simp, by simp [htail], rfl, rfl⟩

lemma IsFreeList.keepsOutside_of_unlinks {h' : Heap}
    (hlnk : Unlinks ((starts l).getLastD 0) ((starts m).headD 0) h h') :
    KeepsOutside (l ++ r :: m) h h' := by
  refine ⟨fun a ha => ?_, hlnk.size_eq, hlnk.initialized_eq⟩
  have hp := hxs.ne_header ha (AreBlocks.getLastD_mem l) (d := 8) (by decide)
  have hn := hxs.ne_header ha (AreBlocks.headD_mem_right m) (d := 16) (by decide)
  rw [hlnk.memory_eq, if_neg hp, if_neg hn]

lemma wp_removeCurrent :
    wp (removeCurrent ((starts (r :: m)).headD 0))
      (fun result h' =>
        result = (some (hxs.block r (by simp)).toFreeBlock, (starts m).headD 0) ∧
          IsFreeList h' (l ++ m) ∧ KeepsOutside (l ++ r :: m) h h') E h := by
  have hb := hxs.block r (by simp)
  have hsize : h.memory r.start = r.len := hxs.size_eq r (by simp)
  have hptr := hxs.left.isPtr getLastD_mem_cons
  have hunl : wp (unlink r.start ⟨r.len, (starts m).headD 0, (starts l).getLastD 0⟩)
      (fun _ h' => Unlinks ((starts l).getLastD 0) ((starts m).headD 0) h h') E h := by
    rw [unlink, wp_ite]
    exact ⟨wp_unlinkMiddle hxs, fun hp => wp_unlinkHead hxs (not_not.mp hp)⟩
  rw [starts_cons, headD_cons, removeCurrent, if_neg hxs.start_ne_zero, wp_bind,
    wp_readHeader, hsize, hxs.prev_start, hxs.next_start, wp_bind,
    wp_checkPtr hxs.end_lt hptr, wp_bind]
  refine wp_mono hunl (fun _ h' hlnk => ?_) fun _ _ => id
  rw [wp_bind, wp_freeBlock_new (alignOffset_eq_zero hb.start_mod), wp_pure]
  exact ⟨rfl, hxs.remove rfl rfl hlnk, hxs.keepsOutside_of_unlinks hlnk⟩

end

namespace IsFreeList

variable (hxs : IsFreeList h (l ++ m))
include hxs

lemma next_getLastD (hp : (starts l).getLastD 0 ≠ 0) :
    h.next ((starts l).getLastD 0) = (starts m).headD 0 := by
  rcases eq_nil_or_concat l with rfl | ⟨l, c, rfl⟩
  · exact absurd rfl hp
  · simp only [concat_eq_append, append_assoc, singleton_append] at hxs
    simpa using hxs.next_start

lemma prev_headD (hn : (starts m).headD 0 ≠ 0) :
    h.prev ((starts m).headD 0) = (starts l).getLastD 0 := by
  cases m with
  | nil => exact absurd rfl hn
  | cons c m => exact hxs.prev_start

lemma head_eq_headD_iff : (starts m).headD 0 = h.head ↔ (starts l).getLastD 0 = 0 := by
  rw [hxs.head_eq, starts_append, headD_append, hxs.left.headD_eq_ite]
  split_ifs with hp
  · exact iff_of_true rfl hp
  · refine iff_of_false (fun heq => ?_) hp
    have hne : (starts l).headD 0 ≠ 0 := fun h0 =>
      hp (hxs.left.getLastD_eq_zero_iff.mpr (hxs.left.headD_eq_zero_iff.mp h0))
    have hmem := (mem_cons.mp (headD_mem_cons (starts l) 0)).resolve_left hne
    exact ne_headD (starts_append l m ▸ hxs.nodup) (starts_append l m ▸ hxs.zero_notMem) hmem
      heq.symm

lemma tail_eq_ite :
    h.tail = if (starts m).headD 0 = 0 then (starts l).getLastD 0 else (starts m).getLastD 0 := by
  rw [hxs.tail_eq, starts_append, getLastD_append, hxs.right.getLastD_eq_ite]

end IsFreeList

lemma wp_linkHead (hxs : IsFreeList h (l ++ m)) (hp : (starts l).getLastD 0 = 0) :
    wp (linkHead b.start) (fun _ h' =>
      Links b ((starts l).getLastD 0) ((starts m).headD 0) h h') E (h.write b.start b.len) := by
  have hhead := hxs.head_eq_headD_iff.mpr hp
  have htail : h.tail = 0 ↔ (starts m).headD 0 = 0 := by
    rw [hxs.tail_eq_ite, hp]
    split_ifs with hm
    · exact iff_of_true rfl hm
    · exact hxs.right.getLastD_eq_zero_iff.trans hxs.right.headD_eq_zero_iff.symm
  rw [hp]
  generalize (starts m).headD 0 = n at *
  simp only [linkHead, wp_bind, wp_get, wp_setNext, wp_setPrev, wp_ifNonNull, wp_modify]
  simp only [write_head, ← hhead]
  constructor
  · intro hn
    exact ⟨fun a => by simp [hn], by simp, by simp [htail], rfl, rfl⟩
  · rintro rfl
    exact ⟨fun a => by simp, by simp, by simp [htail], rfl, rfl⟩

lemma wp_linkMiddle (hxs : IsFreeList h (l ++ m)) (hb : AreBlocks h (l ++ b :: m))
    (hp : (starts l).getLastD 0 ≠ 0) (hn : (starts m).headD 0 ≠ 0) :
    wp (linkMiddle ((starts m).headD 0) b.start) (fun _ h' =>
      Links b ((starts l).getLastD 0) ((starts m).headD 0) h h') E (h.write b.start b.len) := by
  have hsep := hb.apart_new (AreBlocks.headD_mem m)
  have hprev := hxs.prev_headD hn
  generalize (starts l).getLastD 0 = p at *
  generalize (starts m).headD 0 = n at *
  have hread : ((h.write b.start b.len).write (b.start + 8) n).prev n = p := by
    rw [prev, write_memory, if_neg (by omega), write_memory, if_neg (by omega)]
    exact hprev
  simp only [linkMiddle, wp_bind, wp_readHeader, wp_setNext, wp_setPrev, wp_ifNonNull, hread]
  exact ⟨fun _ => ⟨fun a => by simp [hn, hp], by simp [hp], by simp [hn], rfl, rfl⟩,
    fun h0 => absurd h0 hp⟩

lemma wp_linkEnd (hxs : IsFreeList h (l ++ m)) (hb : AreBlocks h (l ++ b :: m))
    (hp : (starts l).getLastD 0 ≠ 0) (hn : (starts m).headD 0 = 0) :
    wp (linkEnd b.start) (fun _ h' =>
      Links b ((starts l).getLastD 0) ((starts m).headD 0) h h') E (h.write b.start b.len) := by
  have hsep := hb.apart_new (AreBlocks.getLastD_mem l)
  have hnext := hxs.next_getLastD hp
  have hptr := hxs.left.isPtr getLastD_mem_cons
  have htail := hxs.tail_eq_ite
  rw [if_pos hn] at htail
  rw [hn] at hnext ⊢
  generalize (starts l).getLastD 0 = p at *
  have hread : (h.write b.start b.len).next p = 0 := by
    rw [next, write_memory, if_neg (by omega)]
    exact hnext
  rw [linkEnd, wp_bind, wp_get, wp_bind, write_tail, htail,
    wp_checkPtr (h := h.write b.start b.len) hxs.end_lt hptr, if_pos hp]
  simp only [wp_bind, wp_readHeader, wp_checked_assert hread, wp_setNext, wp_setPrev, wp_modify]
  refine ⟨fun a => ?_, by simp [hp], by simp, rfl, rfl⟩
  simp only [write_memory]
  split_ifs <;> omega

lemma AreBlocks.keepsOutside_of_links {h' : Heap} (hb : AreBlocks h (l ++ b :: m))
    (hlnk : Links b ((starts l).getLastD 0) ((starts m).headD 0) h h') :
    KeepsOutside (l ++ b :: m) h h' := by
  refine ⟨fun a ha => ?_, hlnk.size_eq, hlnk.initialized_eq⟩
  have hp := hb.ne_header ha (AreBlocks.getLastD_mem l) (d := 8) (by decide)
  have hn := hb.ne_header ha (AreBlocks.headD_mem_right m) (d := 16) (by decide)
  have h0 : b.start ≠ 0 := fun h0 => hb.zero_notMem (by simp [← h0])
  have hnew : ∀ d < 24, a ≠ b.start + d := fun d hd heq =>
    hb.ne_header ha (p := b.start) (by simp) hd ⟨h0, heq⟩
  rw [hlnk.memory_eq, if_neg hn, if_neg hp, if_neg (hnew 16 (by decide)),
    if_neg (hnew 8 (by decide))]
  exact if_neg (hnew 0 (by decide))

lemma wp_insertBeforeCurrent (hxs : IsFreeList h (l ++ m)) (hb : AreBlocks h (l ++ b :: m))
    {newBlock : FreeBlock} (haddr : newBlock.address = b.start) (hsize : newBlock.size = b.len) :
    wp (insertBeforeCurrent ((starts m).headD 0) newBlock)
      (fun _ h' => IsFreeList h' (l ++ b :: m) ∧ KeepsOutside (l ++ b :: m) h h') E h := by
  have hlen := (hb.block b (by simp)).le_len
  have h0 : b.start ≠ 0 := fun h0 => hb.zero_notMem (by simp [← h0])
  have hptr := hb.isPtr (p := b.start) (by simp)
  have hne : b.len ≠ 0 := by omega
  have hlnk : wp (do
      let h ← get
      if (starts m).headD 0 = h.head then linkHead b.start
      else if (starts m).headD 0 ≠ 0 then linkMiddle ((starts m).headD 0) b.start
      else linkEnd b.start) (fun _ h' =>
      Links b ((starts l).getLastD 0) ((starts m).headD 0) h h') E (h.write b.start b.len) := by
    rw [wp_bind, wp_get, wp_ite, wp_ite]
    exact ⟨fun hhead => wp_linkHead hxs (hxs.head_eq_headD_iff.mp hhead), fun hhead =>
      ⟨wp_linkMiddle hxs hb (hxs.head_eq_headD_iff.not.mp hhead), fun hn =>
        wp_linkEnd hxs hb (hxs.head_eq_headD_iff.not.mp hhead) (not_not.mp hn)⟩⟩
  rw [insertBeforeCurrent, haddr, hsize, wp_bind, wp_checked_assert hne, wp_bind,
    wp_checkPtr hxs.end_lt hptr, if_neg h0, wp_bind, wp_setSize]
  exact wp_mono hlnk (fun _ h' hlnk =>
    ⟨hxs.insert hb rfl rfl hlnk, hb.keepsOutside_of_links hlnk⟩) fun _ _ => id

lemma wp_extendCurrent {k : ℕ} (hxs : IsFreeList h (l ++ r :: m))
    (hb : AreBlocks h (l ++ ⟨r.start, r.len + k⟩ :: m)) :
    wp (extendCurrent ((starts (r :: m)).headD 0) k)
      (fun _ h' => IsFreeList h' (l ++ ⟨r.start, r.len + k⟩ :: m) ∧
        KeepsOutside (l ++ r :: m) h h') E h := by
  have hsize : h.memory r.start = r.len := hxs.size_eq r (by simp)
  have hlt : r.len + k < 2 ^ 64 := by
    have hle := (hb.block ⟨r.start, r.len + k⟩ (by simp)).le_end
    have hend := hxs.end_lt
    dsimp only at hle
    omega
  rw [starts_cons, headD_cons, extendCurrent, wp_ifNonNull, wp_bind, wp_readHeader, hsize,
    wp_bind, wp_checkedAdd hlt, wp_setSize]
  refine ⟨fun _ => ⟨hxs.extend hb, fun a ha => ?_, rfl, rfl⟩, fun h0 => absurd h0 hxs.start_ne_zero⟩
  have hne := hxs.ne_header ha (p := r.start) (by simp) (d := 0) (by decide)
  rw [write_memory]
  exact if_neg fun heq => hne ⟨hxs.start_ne_zero, heq⟩

end cursor

end Kernel.Memory.Heap
