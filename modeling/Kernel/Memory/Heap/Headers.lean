import Kernel.Core.Runs
import Kernel.Memory.Heap.Properties

/-!
# What `dealloc` finds in a header

A header has eight bits for the padding, which can be as large as the alignment.
-/

namespace Kernel.Memory.Heap

open Core Action List

structure BlockAllocation extends Allocation where
  block : Range
  deriving DecidableEq

structure Session where
  heap : Heap
  live : List BlockAllocation

inductive Operation where
  | alloc (supply : Supply) (layout : Layout) (fuel : ℕ)
  | dealloc (i fuel : ℕ)
  | write (i offset word : ℕ)

def Session.step : Operation → Session → Option (BlockAllocation × Session)
  | .alloc supply layout fuel, s =>
    match allocTaking supply layout fuel s.heap with
    | (.ok (pointer, block), heap) =>
      some (⟨⟨pointer, layout⟩, block⟩, ⟨heap, ⟨⟨pointer, layout⟩, block⟩ :: s.live⟩)
    | (.error _, _) => none
  | .dealloc i fuel, s =>
    s.live[i]?.bind fun a =>
      match dealloc fuel a.pointer a.layout s.heap with
      | (.ok (), heap) => some (a, ⟨heap, s.live.eraseIdx i⟩)
      | (.error _, _) => none
  | .write i offset word, s =>
    s.live[i]?.bind fun a =>
      if offset < a.layout.size then
        some (a, ⟨s.heap.write ((a.pointer + offset) / 8 * 8) word, s.live⟩)
      else none

inductive Session.Stepped (s : Session) : Operation → BlockAllocation → Session → Prop where
  | alloc {supply : Supply} {layout : Layout} {fuel pointer : ℕ} {block : Range} {heap : Heap}
      (hcall : allocTaking supply layout fuel s.heap = (.ok (pointer, block), heap)) :
      Stepped s (.alloc supply layout fuel) ⟨⟨pointer, layout⟩, block⟩
        ⟨heap, ⟨⟨pointer, layout⟩, block⟩ :: s.live⟩
  | dealloc {i fuel : ℕ} {l m : List BlockAllocation} {a : BlockAllocation} {heap : Heap}
      (hlive : s.live = l ++ a :: m)
      (hcall : Heap.dealloc fuel a.pointer a.layout s.heap = (.ok (), heap)) :
      Stepped s (.dealloc i fuel) a ⟨heap, l ++ m⟩
  | write {i offset word : ℕ} {a : BlockAllocation} (ha : a ∈ s.live)
      (hoffset : offset < a.layout.size) :
      Stepped s (.write i offset word) a
        ⟨s.heap.write ((a.pointer + offset) / 8 * 8) word, s.live⟩

variable {h h' : Heap} {s s' : Session} {layout : Layout} {ptr : ℕ} {b : Range}
  {op : Operation} {a : BlockAllocation}

lemma Session.stepped_of_step (hstep : s.step op = some (a, s')) : s.Stepped op a s' := by
  cases op with
  | alloc supply layout fuel =>
    simp only [step] at hstep
    split at hstep
    · rename_i pointer block heap hcall
      cases hstep
      exact .alloc hcall
    · cases hstep
  | dealloc i fuel =>
    simp only [step, Option.bind_eq_some_iff] at hstep
    obtain ⟨a', ha, hstep⟩ := hstep
    obtain ⟨hi, rfl⟩ := List.getElem?_eq_some_iff.mp ha
    split at hstep
    · rename_i heap hcall
      cases hstep
      rw [eraseIdx_eq_take_drop_succ]
      exact .dealloc (by rw [getElem_cons_drop, take_append_drop]) hcall
    · cases hstep
  | write i offset word =>
    simp only [step, Option.bind_eq_some_iff, Option.ite_none_right_eq_some] at hstep
    obtain ⟨a', ha, hoff, hstep⟩ := hstep
    cases hstep
    exact .write (mem_of_getElem? ha) hoff

/-! ### The padding field -/

lemma AllocatedBlockHeader.padding_new_mod (size padding : ℕ) :
    AllocatedBlockHeader.padding (AllocatedBlockHeader.new size padding) = padding % 2 ^ 8 := by
  simp only [AllocatedBlockHeader.padding, AllocatedBlockHeader.new]
  omega

lemma LaidOut.wp_freedBlock (hl : LaidOut layout ptr b h)
    (hend : kernelHeapStart + h.heapSizeInBytes < 2 ^ 64) :
    wp (freedBlock ptr layout) (fun found _ => ∀ block, found = some block →
      block.address = b.start + layout.padding b.start - layout.padding b.start % 256)
      (fun _ _ => True) h := by
  have hstart_le := hl.isBlock.start_le
  have hle_end := hl.isBlock.le_end
  have hptr := hl.pointer_eq
  have hdata := hl.data
  simp only [kernelHeapStart, allocatedBlockHeaderSize] at hstart_le hle_end hend hptr
  have hhd : VirtualAddress.offset ptr (-allocatedBlockHeaderSize) =
      b.start + layout.padding b.start := by
    rw [allocatedBlockHeaderSize, VirtualAddress.offset_neg (by omega) (by omega), hptr,
      Nat.add_sub_cancel]
  rw [freedBlock, if_neg (by omega)]
  dsimp only
  rw [hhd, if_neg (by omega), wp_bind, wp_get, wp_bind]
  refine wp_lift (fun _ _ => ?_) fun _ _ => trivial
  rw [wp_bind]
  refine wp_lift (fun block hblk => ?_) fun _ _ => trivial
  rintro _ ⟨⟩
  rw [hl.header, AllocatedBlockHeader.padding_new_mod, VirtualAddress.offset_neg (by omega)
    (by omega), FreeBlock.new] at hblk
  split_ifs at hblk
  cases hblk
  rfl

structure Session.Sound (s : Session) : Prop where
  invariant : Invariant s.heap (s.live.map BlockAllocation.toAllocation)
  blockOf_eq : ∀ a ∈ s.live, s.heap.blockOf a.pointer = a.block

abbrev HeapEvent := Event Session Operation BlockAllocation

def NonEmpty (e : HeapEvent) : Prop :=
  match e.call with
  | .alloc _ layout _ => layout.size ≠ 0
  | .dealloc _ _ | .write _ _ _ => True

def PaddingFits (e : HeapEvent) : Prop :=
  match e.call with
  | .alloc _ layout _ => layout.padding e.result.block.start < 256
  | .dealloc _ _ | .write _ _ _ => True

lemma Session.Sound.step (hs : s.Sound) (hstep : s.step op = some (a, s'))
    (hsize : NonEmpty ⟨op, a, s, s'⟩) (hfits : PaddingFits ⟨op, a, s, s'⟩) : s'.Sound := by
  cases stepped_of_step hstep with
  | alloc hcall =>
    obtain ⟨hinv, hblk, hhdr⟩ := hs.invariant.allocTaking hsize hcall hfits
    refine ⟨hinv, fun a ha => ?_⟩
    rcases mem_cons.mp ha with rfl | ha
    · exact hblk
    · exact (blockOf_congr (hhdr _ (mem_map_of_mem ha))).trans (hs.blockOf_eq a ha)
  | @dealloc _ _ l m a heap hlive hcall =>
    obtain ⟨hinv, hblks⟩ := hs
    rw [hlive, map_append, map_cons] at hinv
    obtain ⟨hinv', hhdr⟩ := hinv.dealloc hcall
    rw [← map_append] at hinv' hhdr
    refine ⟨hinv', fun a' ha' => ?_⟩
    have ha : a' ∈ s.live := by
      rw [hlive]
      exact perm_middle.mem_iff.mpr (mem_cons_of_mem a ha')
    exact (blockOf_congr (hhdr _ (mem_map_of_mem ha'))).trans (hblks a' ha)
  | write ha hoff =>
    obtain ⟨hinv, hhdr⟩ := hs.invariant.write (mem_map_of_mem ha)
      ⟨Nat.le_add_right _ _, Nat.add_lt_add_left hoff _⟩
    exact ⟨hinv, fun a ha => (blockOf_congr (hhdr _ (mem_map_of_mem ha))).trans
      (hs.blockOf_eq a ha)⟩

def Session.new (memory : ℕ → ℕ) : Session := ⟨newUninit memory, []⟩

instance (e : HeapEvent) : Decidable (NonEmpty e) :=
  match e with
  | ⟨.alloc _ layout _, _, _, _⟩ => inferInstanceAs (Decidable (layout.size ≠ 0))
  | ⟨.dealloc _ _, _, _, _⟩ | ⟨.write _ _ _, _, _, _⟩ => inferInstanceAs (Decidable True)

instance (e : HeapEvent) : Decidable (PaddingFits e) :=
  match e with
  | ⟨.alloc _ layout _, a, _, _⟩ => inferInstanceAs (Decidable (layout.padding a.block.start < 256))
  | ⟨.dealloc _ _, _, _, _⟩ | ⟨.write _ _ _, _, _, _⟩ => inferInstanceAs (Decidable True)

end Kernel.Memory.Heap
