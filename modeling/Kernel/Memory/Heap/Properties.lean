import Kernel.Memory.Heap.Allocator

/-!
# The free blocks and the live blocks partition the heap

A run is any sequence of allocations, deallocations of live pointers and writes into live
allocations.
-/

namespace Kernel.Memory.Heap

open Core Action List

structure Allocation where
  pointer : ℕ
  layout : Layout
  deriving DecidableEq

inductive Run : Heap → List Allocation → Prop
  | start (memory : ℕ → ℕ) : Run (newUninit memory) []
  | alloc {h h' : Heap} {live : List Allocation} {layout : Layout} {supply : Supply}
      {fuel ptr : ℕ} (hrun : Run h live) (hsize : layout.size ≠ 0) (halign : layout.align ≤ 256)
      (hcall : Heap.alloc supply layout fuel h = (.ok ptr, h')) : Run h' (⟨ptr, layout⟩ :: live)
  | dealloc {h h' : Heap} {l m : List Allocation} {a : Allocation} {fuel : ℕ}
      (hrun : Run h (l ++ a :: m))
      (hcall : Heap.dealloc fuel a.pointer a.layout h = (.ok (), h')) : Run h' (l ++ m)
  | write {h : Heap} {live : List Allocation} {a : Allocation} {x w : ℕ} (hrun : Run h live)
      (ha : a ∈ live) (hx : a.pointer ≤ x ∧ x < a.pointer + a.layout.size) :
      Run (h.write (x / 8 * 8) w) live

def blocks (h : Heap) (live : List Allocation) : List Range := live.map fun a => h.blockOf a.pointer

structure Partitioned (h : Heap) (live : List Allocation) : Prop where
  partitions : ∃ free, IsFreeList h free ∧ Partitions (free ++ blocks h live) kernelHeapStart
    (kernelHeapStart + h.heapSizeInBytes)
  aligned : ∀ a ∈ live, a.pointer % a.layout.align = 0
  header : ∀ a ∈ live, (h.blockOf a.pointer).start + AllocatedBlockHeader.padding
    (h.memory (a.pointer - allocatedBlockHeaderSize)) + allocatedBlockHeaderSize = a.pointer
  data : ∀ a ∈ live,
    a.pointer + a.layout.size ≤ (h.blockOf a.pointer).start + (h.blockOf a.pointer).len
  disjoint : live.Pairwise fun a b => (h.blockOf a.pointer).Disjoint (h.blockOf b.pointer)

structure Invariant (h : Heap) (live : List Allocation) : Prop where
  divided : Divided h (blocks h live)
  placed : ∀ a ∈ live, Placed a.layout a.pointer h
  uninit : h.initialized = false → h.heapSizeInBytes = 0

variable {h h' : Heap} {live l m : List Allocation} {a : Allocation} {layout : Layout}

lemma blocks_middle :
    (blocks h (l ++ a :: m)).Perm (h.blockOf a.pointer :: blocks h (l ++ m)) :=
  perm_middle.map fun a : Allocation => h.blockOf a.pointer

lemma mem_blocks (ha : a ∈ live) : h.blockOf a.pointer ∈ blocks h live :=
  mem_map_of_mem ha

variable {ptr : ℕ}

lemma Placed.header_mem (hp : Placed layout ptr h) :
    ptr - allocatedBlockHeaderSize ∈ h.blockOf ptr := by
  have hhd := hp.header
  have hdata := hp.data
  simp only [allocatedBlockHeaderSize] at hhd ⊢
  rw [Range.mem_iff]
  omega

lemma blockOf_congr (hmem : h'.memory (ptr - allocatedBlockHeaderSize) =
    h.memory (ptr - allocatedBlockHeaderSize)) : h'.blockOf ptr = h.blockOf ptr := by
  rw [blockOf, blockOf, hmem]

variable {used : List Range}

lemma Divided.isBlock {r : Range} (hd : Divided h' used) (hr : r ∈ used)
    (hb : IsBlock h r) : IsBlock h' r := by
  obtain ⟨xs, -, hpart⟩ := hd.exists_free
  have hlen := hb.le_len
  obtain ⟨hle, hge⟩ := hpart.bounds (mem_append_right xs hr) (by omega)
  exact ⟨hle, hge, hb.start_mod, hb.len_mod, hb.le_len⟩

def KeepsHeaders (live : List Allocation) (h h' : Heap) : Prop :=
  ∀ a ∈ live, h'.memory (a.pointer - allocatedBlockHeaderSize) =
    h.memory (a.pointer - allocatedBlockHeaderSize)

lemma Keeps.keepsHeaders (hkp : Keeps (blocks h live) h h')
    (hpl : ∀ a ∈ live, Placed a.layout a.pointer h) : KeepsHeaders live h h' := fun a ha =>
  hkp.memory_eq _ (coverage_pos_iff.mpr ⟨_, mem_blocks ha, (hpl a ha).header_mem⟩)

lemma KeepsHeaders.placed (hkp : KeepsHeaders live h h')
    (hpl : ∀ a ∈ live, Placed a.layout a.pointer h) (hd : Divided h' used)
    (hsub : blocks h live ⊆ used) :
    blocks h' live = blocks h live ∧ ∀ a ∈ live, Placed a.layout a.pointer h' := by
  refine ⟨map_congr_left fun a ha => blockOf_congr (hkp a ha), fun a ha => ?_⟩
  obtain ⟨hb, hal, hword, hhd, hdata⟩ := hpl a ha
  have hblk := blockOf_congr (hkp a ha)
  refine ⟨?_, hal, hword, ?_, ?_⟩
  · rw [hblk]
    exact hd.isBlock (hsub (mem_blocks ha)) hb
  · rw [hblk, hkp a ha]
    exact hhd
  · rw [hblk]
    exact hdata

lemma Divided.pairwise_disjoint (hd : Divided h (blocks h live)) :
    live.Pairwise fun a b => (h.blockOf a.pointer).Disjoint (h.blockOf b.pointer) := by
  obtain ⟨xs, -, hpart⟩ := hd.exists_free
  exact pairwise_map.mp (pairwise_append.mp hpart.pairwise_disjoint).2.1

namespace Invariant

variable {supply : Supply} {fuel ptr : ℕ}

lemma allocTaking {b : Range} (hinv : Invariant h live)
    (hsize : layout.size ≠ 0) (hcall : Heap.allocTaking supply layout fuel h = (.ok (ptr, b), h'))
    (hpad : layout.padding b.start < 256) :
    Invariant h' (⟨ptr, layout⟩ :: live) ∧ h'.blockOf ptr = b ∧ KeepsHeaders live h h' := by
  obtain ⟨hd, hlaid, hkp, hinit⟩ := wp_ok
    (hinv.divided.wp_allocTaking hinv.uninit (pos_of_ne_zero hsize)) hcall
  have hblk := hlaid.blockOf_eq hd.end_lt hpad
  have hhdr := hkp.keepsHeaders hinv.placed
  obtain ⟨hblks, hpl⟩ := hhdr.placed hinv.placed hd (subset_cons_self _ _)
  refine ⟨⟨?_, fun a ha => ?_, fun huni => ?_⟩, hblk, hhdr⟩
  · rw [← hblks, ← hblk] at hd
    exact hd
  · rcases mem_cons.mp ha with rfl | ha
    · exact hlaid.placed hd.end_lt hpad
    · exact hpl a ha
  · rw [hinit] at huni
    cases huni

lemma alloc (hinv : Invariant h live) (hsize : layout.size ≠ 0)
    (hali : layout.align ≤ 256) (hcall : Heap.alloc supply layout fuel h = (.ok ptr, h')) :
    Invariant h' (⟨ptr, layout⟩ :: live) := by
  rw [alloc_eq, map_eq_pure_bind, bind_eq_ok_iff] at hcall
  obtain ⟨⟨ptr', b⟩, h₁, hcall, heq⟩ := hcall
  cases heq
  exact (hinv.allocTaking hsize hcall ((layout.padding_lt _).trans_le hali)).1

lemma dealloc (hinv : Invariant h (l ++ a :: m))
    (hcall : Heap.dealloc fuel a.pointer a.layout h = (.ok (), h')) :
    Invariant h' (l ++ m) ∧ KeepsHeaders (l ++ m) h h' := by
  have hpl : ∀ b ∈ l ++ m, Placed b.layout b.pointer h := fun b hb =>
    hinv.placed b (perm_middle.mem_iff.mpr (mem_cons_of_mem a hb))
  have hdiv : Divided h (h.blockOf a.pointer :: blocks h (l ++ m)) :=
    hinv.divided.congr fun x => (coverage_perm blocks_middle x).symm
  obtain ⟨hd, hkp, hsize⟩ := wp_ok
    (hdiv.wp_dealloc (hinv.placed a (by simp))) hcall
  have hhdr := hkp.keepsHeaders hpl
  obtain ⟨hblks, hpl'⟩ := hhdr.placed hpl hd (List.Subset.refl _)
  refine ⟨⟨hblks.symm ▸ hd, hpl', fun huni => ?_⟩, hhdr⟩
  rw [hsize]
  refine hinv.uninit ?_
  by_contra hne
  rw [hkp.initialized (by simpa using hne)] at huni
  cases huni

lemma write {x w : ℕ} (hinv : Invariant h live) (ha : a ∈ live)
    (hx : a.pointer ≤ x ∧ x < a.pointer + a.layout.size) :
    Invariant (h.write (x / 8 * 8) w) live ∧ KeepsHeaders live h (h.write (x / 8 * 8) w) := by
  have hpl := hinv.placed a ha
  have hhd := hpl.header
  have hdata := hpl.data
  have hword := hpl.word_aligned
  simp only [allocatedBlockHeaderSize] at hhd
  have hmem : x / 8 * 8 ∈ h.blockOf a.pointer := by
    rw [Range.mem_iff]
    omega
  have hkp : KeepsHeaders live h (h.write (x / 8 * 8) w) := fun b hb => by
    rw [write_memory, if_neg]
    intro heq
    by_cases hab : a = b
    · subst hab
      simp only [allocatedBlockHeaderSize] at heq
      omega
    · have : Std.Symm fun a b : Allocation =>
          (h.blockOf a.pointer).Disjoint (h.blockOf b.pointer) :=
        ⟨fun _ _ hdisj x hx hx' => hdisj x hx' hx⟩
      exact hinv.divided.pairwise_disjoint.forall ha hb hab _ hmem
        (heq ▸ (hinv.placed b hb).header_mem)
  have hd : Divided (h.write (x / 8 * 8) w) (blocks h live) :=
    hinv.divided.write (coverage_pos_iff.mpr ⟨_, mem_blocks ha, hmem⟩)
  obtain ⟨hblks, hpl'⟩ := hkp.placed hinv.placed hd (List.Subset.refl _)
  exact ⟨⟨hblks.symm ▸ hd, hpl', hinv.uninit⟩, hkp⟩

lemma start (memory : ℕ → ℕ) : Invariant (newUninit memory) [] := by
  have hlt : kernelHeapStart + 0 < 2 ^ 64 := by decide
  refine ⟨⟨⟨[], ⟨⟨nofun, .nil⟩, trivial, rfl, rfl, nofun, hlt⟩, fun x => ?_⟩, rfl⟩, nofun,
    fun _ => rfl⟩
  change 0 = _
  rw [if_neg]
  change ¬ (_ ∧ x < kernelHeapStart)
  omega

end Invariant

lemma Run.invariant (hrun : Run h live) : Invariant h live := by
  induction hrun with
  | start memory => exact .start memory
  | alloc _ hsize hali hcall ih => exact ih.alloc hsize hali hcall
  | dealloc _ hcall ih => exact (ih.dealloc hcall).1
  | write _ ha hx ih => exact (ih.write ha hx).1

/-- In every state of a run the free blocks and the blocks of the live allocations partition the
heap, and the live allocations are in place. -/
theorem run_partitioned (hrun : Run h live) : Partitioned h live := by
  have hinv := hrun.invariant
  exact
    { partitions := hinv.divided.exists_free
      aligned := fun a ha => (hinv.placed a ha).aligned
      header := fun a ha => (hinv.placed a ha).header
      data := fun a ha => (hinv.placed a ha).data
      disjoint := hinv.divided.pairwise_disjoint }

def smallLayout : Layout := ⟨100, 16, ⟨4, rfl⟩, by decide⟩

def largeLayout : Layout := ⟨100000, 256, ⟨8, rfl⟩, by decide⟩

/-- The second allocation grows the heap, and then the first one is freed. -/
theorem run_partitioned_after_growth :
    ∃ h, Run h [⟨kernelHeapStart + 256, largeLayout⟩] ∧ h.heapSizeInBytes = 33 * pageSize ∧
      Partitioned h [⟨kernelHeapStart + 256, largeLayout⟩] := by
  have hsm : Run (alloc (fun _ _ => true) smallLayout 3 (newUninit fun _ => 0)).2
      [⟨kernelHeapStart + 16, smallLayout⟩] :=
    .alloc (.start _) (by decide) (by decide) (Prod.ext (by decide +kernel) rfl)
  have hlg : Run (alloc (fun _ _ => true) largeLayout 3
      (alloc (fun _ _ => true) smallLayout 3 (newUninit fun _ => 0)).2).2
      [⟨kernelHeapStart + 256, largeLayout⟩, ⟨kernelHeapStart + 16, smallLayout⟩] :=
    .alloc hsm (by decide) (by decide) (Prod.ext (by decide +kernel) rfl)
  have hfrd : Run (dealloc 3 (kernelHeapStart + 16) smallLayout
      (alloc (fun _ _ => true) largeLayout 3
      (alloc (fun _ _ => true) smallLayout 3 (newUninit fun _ => 0)).2).2).2
      [⟨kernelHeapStart + 256, largeLayout⟩] :=
    .dealloc (l := [⟨kernelHeapStart + 256, largeLayout⟩]) (m := []) hlg
      (Prod.ext (by decide +kernel) rfl)
  exact ⟨_, hfrd, by decide +kernel, run_partitioned hfrd⟩

end Kernel.Memory.Heap
