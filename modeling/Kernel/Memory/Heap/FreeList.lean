import Kernel.Core.Linked
import Kernel.Core.Ranges
import Kernel.Memory.Heap.Basic

/-!
# The free list

`IsFreeList h xs` says that `xs` are the free blocks of the heap: linked in both directions, sorted,
disjoint, aligned and large enough for a header.
-/

namespace Kernel.Memory.Heap

open Core List Function

@[simp] lemma write_memory (h : Heap) (a w b : ℕ) :
    (h.write a w).memory b = if b = a then w else h.memory b := by
  simp [write, update_apply]

@[simp] lemma write_head (h : Heap) (a w : ℕ) : (h.write a w).head = h.head := rfl

@[simp] lemma write_tail (h : Heap) (a w : ℕ) : (h.write a w).tail = h.tail := rfl

@[simp] lemma write_heapSizeInBytes (h : Heap) (a w : ℕ) :
    (h.write a w).heapSizeInBytes = h.heapSizeInBytes := rfl

structure IsBlock (h : Heap) (r : Range) : Prop where
  start_le : kernelHeapStart ≤ r.start
  le_end : r.start + r.len ≤ kernelHeapStart + h.heapSizeInBytes
  start_mod : r.start % 8 = 0
  len_mod : r.len % 8 = 0
  le_len : 24 ≤ r.len

def Precedes (r s : Range) : Prop := r.start + r.len ≤ s.start

def starts (xs : List Range) : List ℕ := xs.map Range.start

structure AreBlocks (h : Heap) (xs : List Range) : Prop where
  block : ∀ r ∈ xs, IsBlock h r
  sorted : xs.Pairwise Precedes

structure IsFreeList (h : Heap) (xs : List Range) : Prop extends AreBlocks h xs where
  linked : Linked h.next h.prev 0 (starts xs) 0
  head_eq : h.head = (starts xs).headD 0
  tail_eq : h.tail = (starts xs).getLastD 0
  size_eq : ∀ r ∈ xs, h.memory r.start = r.len
  end_lt : kernelHeapStart + h.heapSizeInBytes < 2 ^ 64

structure KeepsOutside (rs : List Range) (h h' : Heap) : Prop where
  memory_eq : ∀ a, coverage rs a = 0 → h'.memory a = h.memory a
  size_eq : h'.heapSizeInBytes = h.heapSizeInBytes
  initialized_eq : h'.initialized = h.initialized

structure Unlinks (p n : ℕ) (h h' : Heap) : Prop where
  memory_eq : ∀ a, h'.memory a = if p ≠ 0 ∧ a = p + 8 then n
    else if n ≠ 0 ∧ a = n + 16 then p else h.memory a
  head_eq : h'.head = if p = 0 then n else h.head
  tail_eq : h'.tail = if n = 0 then p else h.tail
  size_eq : h'.heapSizeInBytes = h.heapSizeInBytes
  initialized_eq : h'.initialized = h.initialized

structure Links (b : Range) (p n : ℕ) (h h' : Heap) : Prop where
  memory_eq : ∀ a, h'.memory a = if n ≠ 0 ∧ a = n + 16 then b.start
    else if p ≠ 0 ∧ a = p + 8 then b.start
    else if a = b.start + 16 then p else if a = b.start + 8 then n
    else if a = b.start then b.len else h.memory a
  head_eq : h'.head = if p = 0 then b.start else h.head
  tail_eq : h'.tail = if n = 0 then b.start else h.tail
  size_eq : h'.heapSizeInBytes = h.heapSizeInBytes
  initialized_eq : h'.initialized = h.initialized

lemma precedes_or_precedes {xs : List Range} {r s : Range} (hxs : xs.Pairwise Precedes)
    (hr : r ∈ xs) (hs : s ∈ xs) : r = s ∨ Precedes r s ∨ Precedes s r := by
  induction xs with
  | nil => cases hr
  | cons x xs ih =>
    obtain ⟨hx, hxs⟩ := pairwise_cons.mp hxs
    rcases mem_cons.mp hr with rfl | hr' <;> rcases mem_cons.mp hs with rfl | hs'
    · exact .inl rfl
    · exact .inr (.inl (hx s hs'))
    · exact .inr (.inr (hx r hr'))
    · exact ih hxs hr' hs'

@[simp] lemma starts_nil : starts [] = [] := rfl

@[simp] lemma starts_cons (r : Range) (xs : List Range) :
    starts (r :: xs) = r.start :: starts xs := rfl

@[simp] lemma starts_append (l m : List Range) : starts (l ++ m) = starts l ++ starts m :=
  map_append

lemma mem_starts {xs : List Range} {p : ℕ} : p ∈ starts xs ↔ ∃ r ∈ xs, r.start = p :=
  mem_map

lemma start_mem {xs : List Range} {r : Range} (hr : r ∈ xs) : r.start ∈ starts xs :=
  mem_map_of_mem hr

lemma mem_middle {l m : List Range} {r s : Range} (hs : s ∈ l ++ m) : s ∈ l ++ r :: m :=
  perm_middle.mem_iff.mpr (mem_cons_of_mem r hs)

section blocks

variable {h h' : Heap} {xs ys l m : List Range} {r b : Range} {p q n : ℕ}

lemma IsBlock.congr (hb : IsBlock h r) (hsize : h'.heapSizeInBytes = h.heapSizeInBytes) :
    IsBlock h' r :=
  ⟨hb.start_le, hsize ▸ hb.le_end, hb.start_mod, hb.len_mod, hb.le_len⟩

namespace AreBlocks

lemma congr (hxs : AreBlocks h xs) (hsize : h'.heapSizeInBytes = h.heapSizeInBytes) :
    AreBlocks h' xs :=
  ⟨fun r hr => (hxs.block r hr).congr hsize, hxs.sorted⟩

lemma sublist (hxs : AreBlocks h xs) (hsub : ys.Sublist xs) : AreBlocks h ys :=
  ⟨fun r hr => hxs.block r (hsub.subset hr), hxs.sorted.sublist hsub⟩

lemma left (hxs : AreBlocks h (l ++ m)) : AreBlocks h l :=
  hxs.sublist (sublist_append_left l m)

lemma right (hxs : AreBlocks h (l ++ m)) : AreBlocks h m :=
  hxs.sublist (sublist_append_right l m)

lemma tail (hxs : AreBlocks h (r :: m)) : AreBlocks h m :=
  hxs.sublist (sublist_cons_self r m)

lemma erase (hxs : AreBlocks h (l ++ r :: m)) : AreBlocks h (l ++ m) :=
  hxs.sublist ((sublist_cons_self r m).append_left l)

lemma start_bounds (hxs : AreBlocks h xs) (hp : p ∈ starts xs) :
    kernelHeapStart ≤ p ∧ p + 24 ≤ kernelHeapStart + h.heapSizeInBytes := by
  obtain ⟨r, hr, rfl⟩ := mem_starts.mp hp
  have hb := hxs.block r hr
  exact ⟨hb.start_le, (Nat.add_le_add_left hb.le_len _).trans hb.le_end⟩

lemma zero_notMem (hxs : AreBlocks h xs) : 0 ∉ starts xs := fun h0 =>
  absurd (hxs.start_bounds h0).1 (by decide)

lemma nodup (hxs : AreBlocks h xs) : (starts xs).Nodup := by
  refine pairwise_map.mpr (hxs.sorted.imp_of_mem fun {r s} hr _ hrs => ?_)
  have := (hxs.block r hr).le_len
  unfold Precedes at hrs
  omega

lemma start_notMem (hxs : AreBlocks h (l ++ r :: m)) : r.start ∉ starts (l ++ m) := by
  have hnd := hxs.nodup
  rw [starts_append, starts_cons, nodup_middle] at hnd
  rw [starts_append]
  exact hnd.notMem

lemma coverage_pos (hxs : AreBlocks h xs) (hp : p ∈ starts xs) {d : ℕ} (hd : d < 24) :
    0 < coverage xs (p + d) := by
  obtain ⟨r, hr, rfl⟩ := mem_starts.mp hp
  have := (hxs.block r hr).le_len
  exact coverage_pos_iff.mpr ⟨r, hr, by omega, by omega⟩

lemma apart (hxs : AreBlocks h xs) (hp : p ∈ 0 :: starts xs) (hq : q ∈ starts xs) :
    p = 0 ∨ q = p ∨ q + 24 ≤ p ∨ p + 24 ≤ q := by
  rcases mem_cons.mp hp with rfl | hp
  · exact .inl rfl
  obtain ⟨r, hr, rfl⟩ := mem_starts.mp hp
  obtain ⟨s, hs, rfl⟩ := mem_starts.mp hq
  have hlen_r := (hxs.block r hr).le_len
  have hlen_s := (hxs.block s hs).le_len
  rcases precedes_or_precedes hxs.sorted hr hs with rfl | hrs | hsr
  · exact .inr (.inl rfl)
  · exact .inr (.inr (.inr ((Nat.add_le_add_left hlen_r _).trans hrs)))
  · exact .inr (.inr (.inl ((Nat.add_le_add_left hlen_s _).trans hsr)))

lemma apart_new (hb : AreBlocks h (l ++ b :: m)) (hq : q ∈ 0 :: starts (l ++ m)) :
    q = 0 ∨ q + 24 ≤ b.start ∨ b.start + 24 ≤ q := by
  rcases mem_cons.mp hq with rfl | hq
  · exact .inl rfl
  · obtain ⟨s, hs, rfl⟩ := mem_starts.mp hq
    have hs_mem : s.start ∈ starts (l ++ b :: m) := start_mem (mem_middle hs)
    rcases hb.apart (mem_cons_of_mem 0 hs_mem) (start_mem (r := b) (by simp)) with
      h0 | heq | hsep
    · exact .inl h0
    · exact absurd (heq ▸ hq) hb.start_notMem
    · exact .inr hsep.symm

lemma headD_eq_zero_iff (hxs : AreBlocks h xs) : (starts xs).headD 0 = 0 ↔ xs = [] := by
  cases xs with
  | nil => simp
  | cons r xs => simpa using fun h0 => hxs.zero_notMem (by simp [h0])

lemma getLastD_eq_zero_iff (hxs : AreBlocks h xs) : (starts xs).getLastD 0 = 0 ↔ xs = [] := by
  rcases eq_nil_or_concat xs with rfl | ⟨l, r, rfl⟩
  · simp
  · simpa using fun h0 => hxs.zero_notMem (by simp [h0])

lemma headD_eq_ite (hxs : AreBlocks h xs) (a : ℕ) :
    (starts xs).headD a = if (starts xs).getLastD 0 = 0 then a else (starts xs).headD 0 := by
  have hzero := hxs.getLastD_eq_zero_iff
  cases xs with
  | nil => rw [if_pos (hzero.mpr rfl)]; rfl
  | cons r xs => rw [if_neg (hzero.not.mpr (cons_ne_nil r xs))]; rfl

lemma getLastD_eq_ite (hxs : AreBlocks h xs) (a : ℕ) :
    (starts xs).getLastD a = if (starts xs).headD 0 = 0 then a else (starts xs).getLastD 0 := by
  have hzero := hxs.headD_eq_zero_iff
  cases xs with
  | nil => rw [if_pos (hzero.mpr rfl)]; rfl
  | cons r xs => rw [if_neg (hzero.not.mpr (cons_ne_nil r xs))]; rfl

lemma headD_mem (m : List Range) : (starts m).headD 0 ∈ 0 :: starts (l ++ m) :=
  cons_subset_cons 0 (by simp) (headD_mem_cons (starts m) 0)

lemma getLastD_mem (l : List Range) : (starts l).getLastD 0 ∈ 0 :: starts (l ++ m) :=
  cons_subset_cons 0 (by simp) getLastD_mem_cons

lemma headD_mem_right (m : List Range) : (starts m).headD 0 ∈ 0 :: starts (l ++ r :: m) := by
  rw [append_cons]
  exact headD_mem m

lemma ne_header (hxs : AreBlocks h xs) {a d : ℕ} (ha : coverage xs a = 0)
    (hp : p ∈ 0 :: starts xs) (hd : d < 24) : ¬ (p ≠ 0 ∧ a = p + d) := by
  rintro ⟨h0, rfl⟩
  have hpos := hxs.coverage_pos ((mem_cons.mp hp).resolve_left h0) hd
  omega

lemma separate (hxs : AreBlocks h (l ++ m)) (hp : (starts l).getLastD 0 = p)
    (hn : (starts m).headD 0 = n) (hq : q ∈ starts (l ++ m)) :
    q ≠ 0 ∧ (p = 0 ∨ q = p ∨ q + 24 ≤ p ∨ p + 24 ≤ q) ∧
      (n = 0 ∨ q = n ∨ q + 24 ≤ n ∨ n + 24 ≤ q) :=
  ⟨fun h0 => hxs.zero_notMem (h0 ▸ hq), hxs.apart (hp ▸ getLastD_mem l) hq,
    hxs.apart (hn ▸ headD_mem m) hq⟩

end AreBlocks

/-! ### The words of the headers -/

lemma header_ne {d e : ℕ} (h : p = 0 ∨ q = p ∨ q + 24 ≤ p ∨ p + 24 ≤ q) (hd : d < 24)
    (he : e < 24) (hne : d ≠ e) : ¬ (p ≠ 0 ∧ q + d = p + e) := by
  omega

lemma header_eq_iff {d : ℕ} (h0 : q ≠ 0) : p ≠ 0 ∧ q + d = p + d ↔ q = p := by
  omega

lemma new_ne {d e c : ℕ} (h : q = 0 ∨ q + 24 ≤ c ∨ c + 24 ≤ q) (hd : d < 24) (he : e < 24) :
    ¬ (q ≠ 0 ∧ q + d = c + e) := by
  omega

namespace Unlinks

lemma next_eq (hlin : Unlinks p n h h') (h0 : q ≠ 0)
    (hqn : n = 0 ∨ q = n ∨ q + 24 ≤ n ∨ n + 24 ≤ q) :
    h'.next q = if q = p then n else h.next q := by
  rw [next, hlin.memory_eq, if_neg (header_ne hqn (by decide) (by decide) (by decide))]
  exact if_congr (header_eq_iff h0) rfl rfl

lemma prev_eq (hlin : Unlinks p n h h') (h0 : q ≠ 0)
    (hqp : p = 0 ∨ q = p ∨ q + 24 ≤ p ∨ p + 24 ≤ q) :
    h'.prev q = if q = n then p else h.prev q := by
  rw [prev, hlin.memory_eq, if_neg (header_ne hqp (by decide) (by decide) (by decide))]
  exact if_congr (header_eq_iff h0) rfl rfl

lemma start_eq (hlin : Unlinks p n h h') (hqp : p = 0 ∨ q = p ∨ q + 24 ≤ p ∨ p + 24 ≤ q)
    (hqn : n = 0 ∨ q = n ∨ q + 24 ≤ n ∨ n + 24 ≤ q) : h'.memory q = h.memory q := by
  have hold := hlin.memory_eq (q + 0)
  rwa [if_neg (header_ne hqp (by decide) (by decide) (by decide)),
    if_neg (header_ne hqn (by decide) (by decide) (by decide))] at hold

end Unlinks

namespace Links

section

variable (hlin : Links b p n h h') (h0 : q ≠ 0)

include hlin h0

lemma memory_old (hbq : q = 0 ∨ q + 24 ≤ b.start ∨ b.start + 24 ≤ q) {d : ℕ} (hd : d < 24) :
    h'.memory (q + d) = if n ≠ 0 ∧ q + d = n + 16 then b.start
      else if p ≠ 0 ∧ q + d = p + 8 then b.start else h.memory (q + d) := by
  have hne : ∀ e < 24, q + d ≠ b.start + e := fun e he heq => new_ne hbq hd he ⟨h0, heq⟩
  have hst : q + d ≠ b.start := hne 0 (by decide)
  rw [hlin.memory_eq, if_neg (hne 16 (by decide)), if_neg (hne 8 (by decide)), if_neg hst]

lemma next_eq (hqn : n = 0 ∨ q = n ∨ q + 24 ≤ n ∨ n + 24 ≤ q)
    (hbq : q = 0 ∨ q + 24 ≤ b.start ∨ b.start + 24 ≤ q) :
    h'.next q = if q = p then b.start else h.next q := by
  rw [next, hlin.memory_old h0 hbq (by decide),
    if_neg (header_ne hqn (by decide) (by decide) (by decide))]
  exact if_congr (header_eq_iff h0) rfl rfl

lemma prev_eq (hqp : p = 0 ∨ q = p ∨ q + 24 ≤ p ∨ p + 24 ≤ q)
    (hbq : q = 0 ∨ q + 24 ≤ b.start ∨ b.start + 24 ≤ q) :
    h'.prev q = if q = n then b.start else h.prev q := by
  rw [prev, hlin.memory_old h0 hbq (by decide),
    if_neg (header_ne hqp (by decide) (by decide) (by decide))]
  exact if_congr (header_eq_iff h0) rfl rfl

lemma start_eq
    (hqp : p = 0 ∨ q = p ∨ q + 24 ≤ p ∨ p + 24 ≤ q) (hqn : n = 0 ∨ q = n ∨ q + 24 ≤ n ∨ n + 24 ≤ q)
    (hbq : q = 0 ∨ q + 24 ≤ b.start ∨ b.start + 24 ≤ q) : h'.memory q = h.memory q := by
  have hold := hlin.memory_old h0 hbq (d := 0) (by decide)
  rwa [if_neg (header_ne hqn (by decide) (by decide) (by decide)),
    if_neg (header_ne hqp (by decide) (by decide) (by decide))] at hold

end

section new

variable (hlin : Links b p n h h') (hbp : p = 0 ∨ p + 24 ≤ b.start ∨ b.start + 24 ≤ p)
  (hbn : n = 0 ∨ n + 24 ≤ b.start ∨ b.start + 24 ≤ n)
include hlin hbp hbn

lemma memory_new {d : ℕ} (hd : d < 24) :
    h'.memory (b.start + d) = if b.start + d = b.start + 16 then p
      else if b.start + d = b.start + 8 then n
      else if b.start + d = b.start then b.len else h.memory (b.start + d) := by
  rw [hlin.memory_eq, if_neg fun heq => new_ne hbn (by decide) hd ⟨heq.1, heq.2.symm⟩,
    if_neg fun heq => new_ne hbp (by decide) hd ⟨heq.1, heq.2.symm⟩]

lemma next_new : h'.next b.start = n := by
  rw [next, hlin.memory_new hbp hbn (by decide), if_neg (by simp), if_pos rfl]

lemma prev_new : h'.prev b.start = p := by
  rw [prev, hlin.memory_new hbp hbn (by decide), if_pos rfl]

lemma start_new : h'.memory b.start = b.len := by
  have hnew := hlin.memory_new hbp hbn (d := 0) (by decide)
  rwa [if_neg (by simp), if_neg (by simp), if_pos (add_zero _)] at hnew

end new

end Links

namespace IsFreeList

lemma map_starts (hxs : IsFreeList h xs) :
    (starts xs).map (fun p => ⟨p, h.memory p⟩) = xs := by
  rw [starts, map_map]
  refine (map_congr_left fun r hr => ?_).trans (map_id _)
  rw [comp_apply, hxs.size_eq r hr]
  rfl

lemma unique (hxs : IsFreeList h xs) (hys : IsFreeList h ys) : xs = ys := by
  rw [← hxs.map_starts, ← hys.map_starts, hxs.linked.eq_of_headD hys.linked hxs.zero_notMem
    hys.zero_notMem (hxs.head_eq.symm.trans hys.head_eq)]

lemma length_lt (hxs : IsFreeList h xs) : xs.length < 2 ^ 40 := by
  have hsub : starts xs ⊆ range' kernelHeapStart h.heapSizeInBytes := fun p hp => by
    have := hxs.start_bounds hp
    exact mem_range'_1.mpr (by omega)
  have hle := (hxs.nodup.subperm hsub).length_le
  have hend := hxs.end_lt
  rw [starts, length_map, length_range'] at hle
  simp only [kernelHeapStart] at hend
  omega
lemma congr (hxs : IsFreeList h xs) (hmem : ∀ a, 0 < coverage xs a → h'.memory a = h.memory a)
    (hhead : h'.head = h.head) (htail : h'.tail = h.tail)
    (hsize : h'.heapSizeInBytes = h.heapSizeInBytes) : IsFreeList h' xs where
  toAreBlocks := hxs.toAreBlocks.congr hsize
  linked := hxs.linked.congr fun p hp =>
    ⟨hmem _ (hxs.coverage_pos hp (by decide)), hmem _ (hxs.coverage_pos hp (by decide))⟩
  head_eq := hhead.trans hxs.head_eq
  tail_eq := htail.trans hxs.tail_eq
  size_eq r hr := by
    have hpos := hxs.coverage_pos (start_mem hr) (d := 0) (by decide)
    exact (hmem _ hpos).trans (hxs.size_eq r hr)
  end_lt := hsize ▸ hxs.end_lt

lemma remove (hxs : IsFreeList h (l ++ r :: m)) (hp : (starts l).getLastD 0 = p)
    (hn : (starts m).headD 0 = n) (hlin : Unlinks p n h h') : IsFreeList h' (l ++ m) := by
  have hlm := hxs.toAreBlocks.erase
  refine ⟨hlm.congr hlin.size_eq, ?_, ?_, ?_, fun s hs => ?_, hlin.size_eq ▸ hxs.end_lt⟩
  · have hlnk := hxs.linked
    rw [starts_append, starts_cons] at hlnk
    rw [starts_append]
    refine hlnk.remove (starts_append l m ▸ hlm.nodup) (starts_append l m ▸ hlm.zero_notMem)
      (starts_append l m ▸ hlm.zero_notMem) (fun q hq => ?_) fun q hq => ?_
    · obtain ⟨h0, -, hqn⟩ := hlm.separate hp hn (starts_append l m ▸ hq)
      rw [hp, hn, hlin.next_eq h0 hqn]
    · obtain ⟨h0, hqp, -⟩ := hlm.separate hp hn (starts_append l m ▸ hq)
      rw [hp, hn, hlin.prev_eq h0 hqp]
  · rw [hlin.head_eq, hxs.head_eq, starts_append, starts_append, headD_append, headD_append, hn,
      hlm.left.headD_eq_ite n, hlm.left.headD_eq_ite (List.headD _ 0), hp]
    split_ifs <;> rfl
  · rw [hlin.tail_eq, hxs.tail_eq, starts_append, starts_append, getLastD_append,
      getLastD_append, hp, starts_cons, getLastD_cons, hlm.right.getLastD_eq_ite p,
      hlm.right.getLastD_eq_ite r.start, hn]
    split_ifs <;> rfl
  · obtain ⟨-, hqp, hqn⟩ := hlm.separate hp hn (start_mem hs)
    rw [hlin.start_eq hqp hqn, hxs.size_eq s (mem_middle hs)]

lemma insert (hxs : IsFreeList h (l ++ m)) (hb : AreBlocks h (l ++ b :: m))
    (hp : (starts l).getLastD 0 = p) (hn : (starts m).headD 0 = n) (hlin : Links b p n h h') :
    IsFreeList h' (l ++ b :: m) := by
  have hlm := hxs.toAreBlocks
  have hbp := hb.apart_new (hp ▸ AreBlocks.getLastD_mem l)
  have hbn := hb.apart_new (hn ▸ AreBlocks.headD_mem m)
  refine ⟨hb.congr hlin.size_eq, ?_, ?_, ?_, fun s hs => ?_, hlin.size_eq ▸ hxs.end_lt⟩
  · have hlnk := hxs.linked
    rw [starts_append] at hlnk
    rw [starts_append, starts_cons]
    refine hlnk.insert (starts_append l m ▸ hlm.nodup) (starts_append l m ▸ hlm.zero_notMem)
      (starts_append l m ▸ hlm.zero_notMem) (fun q hq => ?_) (fun q hq => ?_) ?_ ?_
    · obtain ⟨h0, -, hqn⟩ := hlm.separate hp hn (starts_append l m ▸ hq)
      have hbq := hb.apart_new (mem_cons_of_mem 0 (starts_append l m ▸ hq))
      rw [hp, hlin.next_eq h0 hqn hbq]
    · obtain ⟨h0, hqp, -⟩ := hlm.separate hp hn (starts_append l m ▸ hq)
      have hbq := hb.apart_new (mem_cons_of_mem 0 (starts_append l m ▸ hq))
      rw [hn, hlin.prev_eq h0 hqp hbq]
    · rw [hn, hlin.next_new hbp hbn]
    · rw [hp, hlin.prev_new hbp hbn]
  · rw [hlin.head_eq, hxs.head_eq, starts_append, starts_append, headD_append, headD_append,
      hlm.left.headD_eq_ite (List.headD _ 0), hlm.left.headD_eq_ite (List.headD _ 0), hp]
    split_ifs <;> rfl
  · rw [hlin.tail_eq, hxs.tail_eq, starts_append, starts_append, getLastD_append,
      getLastD_append, hp, starts_cons, getLastD_cons, hlm.right.getLastD_eq_ite p,
      hlm.right.getLastD_eq_ite b.start, hn]
    split_ifs <;> rfl
  · rcases mem_cons.mp (perm_middle.mem_iff.mp hs) with rfl | hs
    · exact hlin.start_new hbp hbn
    · obtain ⟨h0, hqp, hqn⟩ := hlm.separate hp hn (start_mem hs)
      have hbq := hb.apart_new (mem_cons_of_mem 0 (start_mem hs))
      rw [hlin.start_eq h0 hqp hqn hbq, hxs.size_eq s hs]

lemma extend {k : ℕ} (hxs : IsFreeList h (l ++ r :: m))
    (hb : AreBlocks h (l ++ ⟨r.start, r.len + k⟩ :: m)) :
    IsFreeList (h.write r.start (r.len + k)) (l ++ ⟨r.start, r.len + k⟩ :: m) := by
  have hsta : starts (l ++ ⟨r.start, r.len + k⟩ :: m) = starts (l ++ r :: m) := by simp
  have hr : r.start ∈ 0 :: starts (l ++ r :: m) := by simp
  refine ⟨hb.congr rfl, hsta ▸ hxs.linked.congr fun q hq => ?_, hsta ▸ hxs.head_eq,
    hsta ▸ hxs.tail_eq, fun s hs => ?_, hxs.end_lt⟩
  · have hsep := hxs.apart hr hq
    have h0 : r.start ≠ 0 := fun h0 => hxs.zero_notMem (by simp [← h0])
    constructor
    · rw [next, next, write_memory, if_neg (by omega)]
    · rw [prev, prev, write_memory, if_neg (by omega)]
  · rw [write_memory]
    rcases mem_cons.mp (perm_middle.mem_iff.mp hs) with rfl | hs
    · exact if_pos rfl
    · have hne : s.start ≠ r.start := fun heq => hxs.start_notMem (heq ▸ start_mem hs)
      rw [if_neg hne]
      exact hxs.size_eq s (mem_middle hs)

end IsFreeList

end blocks

end Kernel.Memory.Heap
