import Kernel.Memory.Heap.Cursor

/-!
# Searching and extending the free list

The loops over the free list, by induction on the fuel.
-/

namespace Kernel.Memory.Heap

open Core Action List VirtualAddress Nat

variable {h : Heap} {l m xs : List Range} {r b : Range} {fuel : ℕ}

lemma AreBlocks.insertBlock (hxs : AreBlocks h (l ++ m)) (hb : IsBlock h b)
    (hl : ∀ r ∈ l, Precedes r b) (hm : ∀ r ∈ m, Precedes b r) : AreBlocks h (l ++ b :: m) := by
  refine ⟨fun r hr => ?_, ?_⟩
  · rcases mem_cons.mp (perm_middle.mem_iff.mp hr) with rfl | hr
    · exact hb
    · exact hxs.block r hr
  · have hsort := pairwise_append.mp hxs.sorted
    refine pairwise_append.mpr
      ⟨hsort.1, pairwise_cons.mpr ⟨hm, hsort.2.1⟩, fun r hr s hs => ?_⟩
    rcases mem_cons.mp hs with rfl | hs
    · exact hl r hr
    · exact hsort.2.2 r hr s hs

lemma AreBlocks.precedes_left (hxs : AreBlocks h (l ++ r :: m)) : ∀ s ∈ l, Precedes s r :=
  fun s hs => (pairwise_append.mp hxs.sorted).2.2 s hs r mem_cons_self

lemma AreBlocks.precedes_right (hxs : AreBlocks h (l ++ r :: m)) : ∀ s ∈ m, Precedes r s :=
  (pairwise_cons.mp (pairwise_append.mp hxs.sorted).2.1).1

lemma VirtualAddress.add_of_lt {v k : ℕ} (hlt : v + k < 2 ^ 64) : add v k = v + k :=
  wrappingAdd_of_lt hlt

def RunsOutOfFuel (fuel : ℕ) (blocks : List Range) (e : Halt) (_ : Heap) : Prop :=
  e = .running ∧ fuel ≤ blocks.length

lemma KeepsOutside.trans {rs ss ts : List Range} {h' h'' : Heap} (h₁ : KeepsOutside rs h h')
    (h₂ : KeepsOutside ss h' h'')
    (hts : ∀ a, coverage ts a = 0 → coverage rs a = 0 ∧ coverage ss a = 0) :
    KeepsOutside ts h h'' where
  memory_eq a ha := (h₂.memory_eq a (hts a ha).2).trans (h₁.memory_eq a (hts a ha).1)
  size_eq := h₂.size_eq.trans h₁.size_eq
  initialized_eq := h₂.initialized_eq.trans h₁.initialized_eq

lemma coverage_middle (l m : List Range) (r : Range) (x : ℕ) :
    coverage (l ++ r :: m) x = coverage (l ++ m) x + r.ind x := by
  rw [coverage_perm perm_middle, coverage_cons, add_comm]

/-! ### Adding a block -/

structure Adds (b : Range) (xs : List Range) (h h' : Heap) : Prop where
  exists_free : ∃ ys, IsFreeList h' ys ∧ ∀ x, coverage ys x = coverage xs x + b.ind x
  keeps : KeepsOutside (b :: xs) h h'

/-- A free block contains the range. -/
def HasBlock (b : Range) (h : Heap) : Prop :=
  ∃ ys, IsFreeList h ys ∧ ∃ y ∈ ys, y.start ≤ b.start ∧ b.start + b.len ≤ y.start + y.len

section add

variable {newBlock : FreeBlock} (haddr : newBlock.address = b.start)
  (hsize : newBlock.size = b.len)
include haddr hsize

variable {E : Halt → Heap → Prop}

lemma wp_insert (hxs : IsFreeList h (l ++ m)) (hb : IsBlock h b)
    (hl : ∀ r ∈ l, Precedes r b) (hm : ∀ r ∈ m, Precedes b r) :
    wp (insertBeforeCurrent ((starts m).headD 0) newBlock)
      (fun _ h' => Adds b (l ++ m) h h' ∧ HasBlock b h') E h := by
  refine wp_mono (wp_insertBeforeCurrent hxs (hxs.insertBlock hb hl hm) haddr hsize) ?_
    fun _ _ => id
  rintro - h' ⟨hys, hkp⟩
  refine ⟨⟨⟨_, hys, coverage_middle l m b⟩, fun a ha => hkp.memory_eq a ?_, hkp.size_eq,
    hkp.initialized_eq⟩, _, hys, b, by simp, le_rfl, le_rfl⟩
  rw [coverage_middle, add_comm, ← coverage_cons, ha]

lemma wp_merge_before (hxs : IsFreeList h (l ++ r :: m))
    (hb : IsBlock h b) (hl : ∀ r ∈ l, Precedes r b) (hadj : b.start + b.len = r.start) :
    wp (do
      let (_, cursor) ← removeCurrent ((starts (r :: m)).headD 0)
      let size ← checked (checkedAdd newBlock.size r.len)
      insertBeforeCurrent cursor { newBlock with size })
      (fun _ h' => Adds b (l ++ r :: m) h h' ∧ HasBlock b h') E h := by
  have hr := hxs.block r (by simp)
  have hmrg : IsBlock h ⟨b.start, b.len + r.len⟩ := by
    refine ⟨hb.start_le, ?_, hb.start_mod, ?_, ?_⟩
    · have := hr.le_end
      dsimp only
      omega
    · have := hb.len_mod
      have := hr.len_mod
      dsimp only
      omega
    · exact hb.le_len.trans le_self_add
  have hlt : newBlock.size + r.len < 2 ^ 64 := by
    have hle := hmrg.le_end
    have hend := hxs.end_lt
    dsimp only at hle
    omega
  rw [wp_bind]
  refine wp_mono (wp_removeCurrent hxs) ?_ fun _ _ => id
  rintro - h₁ ⟨rfl, hlm, hkp⟩
  simp only [wp_bind]
  rw [wp_checkedAdd hlt]
  have hblks : AreBlocks h₁ (l ++ ⟨b.start, b.len + r.len⟩ :: m) :=
    hlm.insertBlock (hmrg.congr hkp.size_eq) hl fun s hs => by
      have := hxs.precedes_right s hs
      unfold Precedes at this ⊢
      dsimp only
      omega
  refine wp_mono (wp_insertBeforeCurrent hlm hblks haddr (by simp [hsize])) ?_ fun _ _ => id
  rintro - h₂ ⟨hys, hkp'⟩
  have hind : ∀ x, Range.ind ⟨b.start, b.len + r.len⟩ x = b.ind x + r.ind x := fun x => by
    rw [Range.ind_split, hadj]
  refine ⟨⟨⟨_, hys, fun x => ?_⟩, hkp.trans hkp' fun a ha => ?_⟩,
    _, hys, ⟨b.start, b.len + r.len⟩, by simp, le_rfl, by dsimp only; omega⟩
  · rw [coverage_middle, coverage_middle, hind]
    omega
  · rw [coverage_cons, coverage_middle] at ha
    rw [coverage_middle, coverage_middle, hind]
    omega

omit haddr in
lemma wp_merge_after (hxs : IsFreeList h (l ++ r :: m)) (hb : IsBlock h b)
    (hm : ∀ s ∈ m, Precedes s b ∨ Precedes b s) (hadj : b.start = r.start + r.len) :
    wp (extendCurrent ((starts (r :: m)).headD 0) newBlock.size)
      (fun _ h' => Adds b (l ++ r :: m) h h' ∧ HasBlock b h') E h := by
  have hr := hxs.block r (by simp)
  have hext : IsBlock h ⟨r.start, r.len + b.len⟩ := by
    refine ⟨hr.start_le, ?_, hr.start_mod, ?_, hr.le_len.trans le_self_add⟩
    · have := hb.le_end
      dsimp only
      omega
    · have := hb.len_mod
      have := hr.len_mod
      dsimp only
      omega
  have hblks : AreBlocks h (l ++ ⟨r.start, r.len + b.len⟩ :: m) := by
    refine hxs.erase.insertBlock hext (fun s hs => hxs.precedes_left s hs) fun s hs => ?_
    have hrs := hxs.precedes_right s hs
    have hlen := (hxs.right.tail.block s hs).le_len
    have hsb := hm s hs
    unfold Precedes at *
    dsimp only
    omega
  rw [hsize]
  refine wp_mono (wp_extendCurrent hxs hblks) ?_ fun _ _ => id
  rintro - h' ⟨hys, hkp⟩
  refine ⟨⟨⟨_, hys, fun x => ?_⟩, fun a ha => hkp.memory_eq a ?_, hkp.size_eq,
    hkp.initialized_eq⟩, _, hys, ⟨r.start, r.len + b.len⟩, by simp, by dsimp only; omega,
    by dsimp only; omega⟩
  · have hind : Range.ind ⟨r.start, r.len + b.len⟩ x = r.ind x + b.ind x := by
      rw [Range.ind_split, ← hadj]
    rw [coverage_middle, coverage_middle, hind, add_assoc]
  · rw [coverage_cons] at ha
    omega

lemma checkAdjacency_eq (hb : IsBlock h b) (hr : IsBlock h r)
    (hend : kernelHeapStart + h.heapSizeInBytes < 2 ^ 64) :
    newBlock.checkAdjacency hr.toFreeBlock = if b.start + b.len = r.start then .before
      else if b.start = r.start + r.len then .after else .notAdjacent := by
  have hle_b := hb.le_end
  have hle_r := hr.le_end
  rw [FreeBlock.checkAdjacency, hr.toFreeBlock_address, hr.toFreeBlock_size, haddr, hsize,
    VirtualAddress.add_of_lt (by omega), VirtualAddress.add_of_lt (by omega)]

lemma wp_addFrom (hxs : IsFreeList h (l ++ m)) (hb : IsBlock h b)
    (hl : ∀ r ∈ l, Precedes r b) (hm : ∀ r ∈ m, Precedes r b ∨ Precedes b r) :
    wp (addFrom newBlock fuel ((starts m).headD 0))
      (fun _ h' => Adds b (l ++ m) h h' ∧ HasBlock b h') (RunsOutOfFuel fuel m) h := by
  induction fuel generalizing l m with
  | zero => exact ⟨rfl, zero_le _⟩
  | succ fuel ih =>
    rw [addFrom, wp_bind]
    cases m with
    | nil =>
      rw [wp_current_nil]
      exact wp_insert haddr hsize hxs hb hl (by simp)
    | cons r m =>
      rw [wp_current_cons hxs]
      have hr := hxs.block r (by simp)
      dsimp only
      rw [checkAdjacency_eq haddr hsize hb hr hxs.end_lt]
      by_cases hbef : b.start + b.len = r.start
      · rw [if_pos hbef]
        exact wp_merge_before haddr hsize hxs hb hl hbef
      by_cases haft : b.start = r.start + r.len
      · rw [if_neg hbef, if_pos haft]
        exact wp_merge_after hsize hxs hb (fun s hs => hm s (mem_cons_of_mem r hs)) haft
      rw [if_neg hbef, if_neg haft]
      dsimp only
      rw [wp_ite, haddr, hr.toFreeBlock_address]
      have hrb := hm r mem_cons_self
      have hlen := hr.le_len
      constructor
      · intro hlt
        have hbr : Precedes b r := hrb.resolve_left fun hrb => by
          unfold Precedes at hrb
          omega
        refine wp_insert haddr hsize hxs hb hl fun s hs => ?_
        rcases mem_cons.mp hs with rfl | hs
        · exact hbr
        · have hrs := hxs.precedes_right s hs
          unfold Precedes at *
          omega
      · intro hge
        have hrb : Precedes r b := hrb.resolve_right fun hbr => by
          have := hb.le_len
          unfold Precedes at hbr
          omega
        rw [wp_bind, wp_moveNext hxs]
        rw [append_cons] at hxs ⊢
        refine wp_mono (ih hxs (fun s hs => ?_) fun s hs => hm s (mem_cons_of_mem r hs))
          (fun _ _ => id) fun e _ he => ⟨he.1, succ_le_succ he.2⟩
        rcases mem_append.mp hs with hs | hs
        · exact hl s hs
        · rwa [mem_singleton.mp hs]

lemma wp_addFreeBlock (hxs : IsFreeList h xs) (hb : IsBlock h b)
    (hdis : ∀ x, coverage xs x + b.ind x ≤ 1) :
    wp (addFreeBlock fuel newBlock) (fun _ h' => Adds b xs h h' ∧ HasBlock b h')
      (RunsOutOfFuel fuel xs) h := by
  rw [addFreeBlock, wp_bind, wp_cursor hxs]
  refine wp_addFrom (l := []) haddr hsize hxs hb (by simp) fun r hr => ?_
  have hr_len := (hxs.block r hr).le_len
  have hb_len := hb.le_len
  have hdisj : ∀ x, x ∈ r → x ∉ b := fun x hxr hxb => by
    have hpos := coverage_pos_iff.mpr ⟨r, hr, hxr⟩
    have hle := hdis x
    rw [Range.ind_eq_one hxb] at hle
    omega
  have h₁ := hdisj r.start ⟨le_refl _, by omega⟩
  have h₂ := hdisj b.start
  rw [Range.mem_iff] at h₁ h₂
  rw [Range.mem_iff] at h₂
  unfold Precedes
  omega

end add

/-! ### Searching for a block -/

variable {layout : Layout}

lemma Layout.align_pos (layout : Layout) : 0 < layout.align := by
  obtain ⟨k, hk⟩ := layout.align_isPowerOfTwo
  rw [hk]
  positivity

def Layout.padding (layout : Layout) (address : ℕ) : ℕ :=
  alignOffset (address + allocatedBlockHeaderSize) layout.align

lemma Layout.padding_lt (layout : Layout) (address : ℕ) : layout.padding address < layout.align :=
  mod_lt _ layout.align_pos

lemma IsBlock.alignOffset_eq (hr : IsBlock h r)
    (hend : kernelHeapStart + h.heapSizeInBytes < 2 ^ 64) (layout : Layout) :
    VirtualAddress.alignOffset (VirtualAddress.add r.start allocatedBlockHeaderSize) layout.align =
      layout.padding r.start := by
  have hle := hr.le_end
  have hlen := hr.le_len
  have hlt : r.start + allocatedBlockHeaderSize < 2 ^ 64 := by
    simp only [allocatedBlockHeaderSize]
    omega
  rw [VirtualAddress.add_of_lt hlt, Layout.padding]

def Layout.requiredSize (layout : Layout) (address : ℕ) : ℕ :=
  layout.size + allocatedBlockHeaderSize + layout.padding address

lemma Layout.requiredSize_lt (layout : Layout) (address : ℕ) :
    layout.requiredSize address < 2 ^ 64 := by
  have hsize := layout.size_le
  have hpad := layout.padding_lt address
  simp only [requiredSize, allocatedBlockHeaderSize]
  omega

structure Takes (layout : Layout) (xs : List Range) (h : Heap) (block : FreeBlock) (r : Range)
    (h' : Heap) : Prop where
  address_eq : block.address = r.start
  size_eq : block.size = r.len
  isBlock : IsBlock h r
  requiredSize_le : layout.requiredSize r.start ≤ r.len
  exists_free : ∃ ys, IsFreeList h' ys ∧ ∀ x, coverage xs x = coverage ys x + r.ind x
  keeps : KeepsOutside xs h h'

def Finds (layout : Layout) (xs : List Range) (h : Heap) (result : Option FreeBlock) (h' : Heap) :
    Prop :=
  match result with
  | none => h' = h ∧ ∀ r ∈ xs, r.len < layout.requiredSize r.start
  | some block => ∃ r, Takes layout xs h block r h'

lemma wp_findFrom (hxs : IsFreeList h (l ++ m))
    (hl : ∀ r ∈ l, r.len < layout.requiredSize r.start) :
    wp (findFrom layout fuel ((starts m).headD 0)) (Finds layout (l ++ m) h)
      (RunsOutOfFuel fuel m) h := by
  induction fuel generalizing l m with
  | zero => exact ⟨rfl, zero_le _⟩
  | succ fuel ih =>
    rw [findFrom, wp_bind]
    cases m with
    | nil =>
      rw [wp_current_nil, wp_pure]
      exact ⟨rfl, by simpa using hl⟩
    | cons r m =>
      rw [wp_current_cons hxs]
      have hr := hxs.block r (by simp)
      have hlt : layout.requiredSize r.start < 2 ^ 64 := layout.requiredSize_lt r.start
      have hsize : layout.size + allocatedBlockHeaderSize < 2 ^ 64 :=
        le_self_add.trans_lt hlt
      dsimp only
      rw [wp_bind, wp_checkedAdd hsize, wp_bind, hr.toFreeBlock_address,
        hr.alignOffset_eq hxs.end_lt, wp_checkedAdd hlt, wp_ite]
      constructor
      · intro hle
        rw [wp_bind]
        refine wp_mono (wp_removeCurrent hxs) ?_ fun _ _ => False.elim
        rintro - h' ⟨rfl, hlm, hkp⟩
        exact ⟨r, rfl, rfl, hr, hle, ⟨_, hlm, coverage_middle l m r⟩, hkp⟩
      · intro hlt
        rw [wp_bind, wp_moveNext hxs]
        rw [append_cons] at hxs ⊢
        refine wp_mono (ih hxs fun s hs => ?_) (fun _ _ => id)
          fun e _ he => ⟨he.1, succ_le_succ he.2⟩
        rcases mem_append.mp hs with hs | hs
        · exact hl s hs
        · rw [mem_singleton.mp hs]
          exact Nat.lt_of_not_le hlt

end Kernel.Memory.Heap
