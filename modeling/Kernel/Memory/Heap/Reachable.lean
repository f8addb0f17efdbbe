import Kernel.Memory.Heap.Properties

/-!
# The methods of the heap

The free list is well formed in every state that the methods lead to. Each growth adds a block that
is larger than the heap was before.
-/

namespace Kernel.Memory.Heap

open Core Action List

variable {h h' : Heap} {xs : List Range} {layout : Layout} {supply : Supply} {fuel : ℕ}

/-! ### The free list -/

/-- The methods are called in any order. The heap grows only when a search has initialized it, and
others write to the memory outside of the free blocks. -/
inductive Reachable : Heap → Prop
  | start (memory : ℕ → ℕ) : Reachable (newUninit memory)
  | init {h h' : Heap} {supply : Supply} (hreach : Reachable h)
      (hcall : Heap.init supply h = (.ok (), h')) : Reachable h'
  | find {h h' : Heap} {supply : Supply} {fuel : ℕ} {layout : Layout} {found : Option FreeBlock}
      (hreach : Reachable h)
      (hcall : findSuitableFreeBlock supply fuel layout h = (.ok found, h')) : Reachable h'
  | add {h h' : Heap} {fuel : ℕ} {block : FreeBlock} (hreach : Reachable h)
      (hblock : IsBlock h ⟨block.address, block.size⟩)
      (hdisj : ∀ xs, IsFreeList h xs → ∀ r ∈ xs, r.Disjoint ⟨block.address, block.size⟩)
      (hcall : addFreeBlock fuel block h = (.ok (), h')) : Reachable h'
  | grow {h h' : Heap} {supply : Supply} {fuel : ℕ} {layout : Layout} (hreach : Reachable h)
      (hinit : h.initialized = true)
      (hcall : increaseHeapSize supply fuel layout h = (.ok (), h')) : Reachable h'
  | write {h : Heap} {a w : ℕ} (hreach : Reachable h)
      (hfree : ∀ xs, IsFreeList h xs → coverage xs a = 0) : Reachable (h.write a w)

lemma AreBlocks.coverage_le (hxs : AreBlocks h xs) (x : ℕ) :
    coverage xs x ≤
      if kernelHeapStart ≤ x ∧ x < kernelHeapStart + h.heapSizeInBytes then 1 else 0 := by
  obtain ⟨hblks, hsort⟩ := hxs
  induction hsort with
  | nil => exact Nat.zero_le _
  | @cons r xs hr _ ih =>
    obtain ⟨hrb, hblks⟩ := forall_mem_cons.mp hblks
    have hle := ih hblks
    rw [coverage_cons]
    by_cases hx : x ∈ r
    · have hzero : ¬ 0 < coverage xs x := fun hpos => by
        obtain ⟨s, hs, hxs⟩ := coverage_pos_iff.mp hpos
        have hrs := hr s hs
        rw [Range.mem_iff] at hx hxs
        unfold Precedes at hrs
        omega
      rw [Range.ind_eq_one hx, if_pos ⟨hrb.start_le.trans hx.1, hx.2.trans_le hrb.le_end⟩]
      omega
    · rw [Range.ind_eq_zero hx, zero_add]
      exact hle

lemma IsFreeList.exists_divided (hxs : IsFreeList h xs) (hmod : h.heapSizeInBytes % pageSize = 0) :
    ∃ used, Divided h used := by
  obtain ⟨used, hpart⟩ := exists_partitions hxs.coverage_le
  exact ⟨used, ⟨xs, hxs, hpart⟩, hmod⟩

structure Tidy (h : Heap) : Prop where
  exists_divided : ∃ used, Divided h used
  initialized_iff : h.initialized = true ↔ 0 < h.heapSizeInBytes

lemma Tidy.uninit (ht : Tidy h) (hinit : h.initialized = false) : h.heapSizeInBytes = 0 := by
  by_contra hne
  rw [ht.initialized_iff.mpr (pos_of_ne_zero hne)] at hinit
  cases hinit

lemma Tidy.init (ht : Tidy h) (hcall : Heap.init supply h = (.ok (), h')) : Tidy h' := by
  obtain ⟨used, hd⟩ := ht.exists_divided
  have hinit : h.initialized = false := by
    simp only [Heap.init, bind_eq_ok_iff] at hcall
    obtain ⟨_, _, hget, _, _, -, _, _, hassert, -⟩ := hcall
    cases hget
    exact assert_eq_ok.mp (lift_eq_ok_iff.mp hassert).1
  have heq : ensureInit supply h = Heap.init supply h :=
    congrFun (if_neg (c := h.initialized = true) (by simp [hinit])) h
  obtain ⟨hd', -, hinit', hsize⟩ := wp_ok
    (hd.wp_ensureInit (E := fun _ _ => True) (fun _ _ _ _ => trivial) ht.uninit) (heq.trans hcall)
  obtain ⟨hinit₀, -⟩ | ⟨-, hsize⟩ := hsize
  · rw [hinit] at hinit₀
    cases hinit₀
  · exact ⟨⟨used, hd'⟩, iff_of_true hinit' (by rw [hsize]; decide)⟩

lemma Tidy.find {found : Option FreeBlock} (ht : Tidy h)
    (hcall : findSuitableFreeBlock supply fuel layout h = (.ok found, h')) : Tidy h' := by
  obtain ⟨used, hd⟩ := ht.exists_divided
  obtain ⟨-, hinit, hfd⟩ := wp_ok (hd.wp_findSuitableFreeBlock (E := fun _ _ => True)
    (fun _ _ => trivial) (fun _ _ _ _ => trivial) ht.uninit) hcall
  cases found with
  | none =>
    obtain ⟨hd', ⟨-, rfl⟩ | ⟨-, hsize⟩, -⟩ := hfd
    · exact ht
    · exact ⟨⟨used, hd'⟩, iff_of_true hinit (by rw [hsize]; decide)⟩
  | some block =>
    obtain ⟨r, hr⟩ := hfd
    refine ⟨⟨_, hr.divided⟩, iff_of_true hinit ?_⟩
    have hst := hr.isBlock.start_le
    have hle := hr.isBlock.le_end
    have hlen := hr.isBlock.le_len
    omega

lemma Tidy.grow (ht : Tidy h) (hinit : h.initialized = true)
    (hcall : increaseHeapSize supply fuel layout h = (.ok (), h')) : Tidy h' := by
  obtain ⟨used, hd⟩ := ht.exists_divided
  have hpos := ht.initialized_iff.mp hinit
  obtain ⟨hd', hkp, hsize, -⟩ := wp_ok (hd.wp_increaseHeapSize (E := fun _ _ => True)
    (fun _ _ => trivial) (fun _ _ _ _ => trivial) (.inl hpos) fun _ _ => trivial) hcall
  exact ⟨⟨used, hd'⟩, iff_of_true (hkp.initialized hinit) (by omega)⟩

lemma Reachable.tidy (hreach : Reachable h) : Tidy h := by
  induction hreach with
  | start memory => exact ⟨⟨[], (Invariant.start memory).divided⟩, by simp [newUninit]⟩
  | init _ hcall ih => exact ih.init hcall
  | find _ hcall ih => exact ih.find hcall
  | @add h h' _ block _ hblock hdisj hcall ih =>
    obtain ⟨used, ⟨xs, hxs, -⟩, hmod⟩ := ih.exists_divided
    have hdis : ∀ x, coverage xs x + Range.ind ⟨block.address, block.size⟩ x ≤ 1 := fun x => by
      have hle := (hxs.coverage_le x).trans (ite_le_one le_rfl zero_le_one)
      by_cases hx : x ∈ (⟨block.address, block.size⟩ : Range)
      · have hzero : ¬ 0 < coverage xs x := fun hpos => by
          obtain ⟨r, hr, hxr⟩ := coverage_pos_iff.mp hpos
          exact hdisj xs hxs r hr x hxr hx
        rw [Range.ind_eq_one hx]
        omega
      · rwa [Range.ind_eq_zero hx]
    obtain ⟨⟨⟨ys, hys, -⟩, hkp⟩, -⟩ := wp_ok (wp_addFreeBlock rfl rfl hxs hblock hdis) hcall
    refine ⟨hys.exists_divided (hkp.size_eq ▸ hmod), ?_⟩
    rw [hkp.initialized_eq, hkp.size_eq]
    exact ih.initialized_iff
  | grow _ hinit hcall ih => exact ih.grow hinit hcall
  | @write h a w _ hfree ih =>
    obtain ⟨used, ⟨xs, hxs, -⟩, hmod⟩ := ih.exists_divided
    have hys : IsFreeList (h.write a w) xs := by
      refine hxs.congr (fun c hc => ?_) rfl rfl rfl
      rw [write_memory, if_neg]
      rintro rfl
      exact hc.ne' (hfree xs hxs)
    exact ⟨hys.exists_divided hmod, ih.initialized_iff⟩

/-- In every state the free list is well formed: its blocks are sorted and disjoint, and its head
and tail are null together. -/
theorem isFreeList_of_reachable (hreach : Reachable h) :
    ∃ xs, IsFreeList h xs ∧ (h.head = 0 ↔ h.tail = 0) ∧
      xs.Pairwise fun r s => r.start < s.start ∧ r.Disjoint s := by
  obtain ⟨used, ⟨xs, hxs, -⟩, -⟩ := hreach.tidy.exists_divided
  refine ⟨xs, hxs, ?_, hxs.sorted.imp_of_mem fun {r s} hr _ hrs => ⟨?_, fun x hx hxs => ?_⟩⟩
  · rw [hxs.head_eq, hxs.tail_eq, hxs.headD_eq_zero_iff, hxs.getLastD_eq_zero_iff]
  · have := (hxs.block r hr).le_len
    unfold Precedes at hrs
    omega
  · rw [Range.mem_iff] at hx hxs
    unfold Precedes at hrs
    omega

/-- The heap is initialized and grows. -/
theorem isFreeList_of_reachable_growth :
    ∃ h, Reachable h ∧ h.heapSizeInBytes = 33 * pageSize ∧ ∃ xs, IsFreeList h xs ∧ xs ≠ [] := by
  have hinit : Reachable (init (fun _ _ => true) (newUninit fun _ => 0)).2 :=
    .init (.start _) (Prod.ext (by decide +kernel) rfl)
  have hgrow : Reachable (increaseHeapSize (fun _ _ => true) 3 largeLayout
      (init (fun _ _ => true) (newUninit fun _ => 0)).2).2 :=
    .grow hinit (by decide +kernel) (Prod.ext (by decide +kernel) rfl)
  obtain ⟨xs, hxs, -⟩ := isFreeList_of_reachable hgrow
  refine ⟨_, hgrow, by decide +kernel, xs, hxs, ?_⟩
  rintro rfl
  exact absurd hxs.head_eq (by decide +kernel)

/-! ### Assertions -/

/-- The states in which the searches of an allocation begin. -/
inductive Searches (supply : Supply) (layout : Layout) (h : Heap) : Heap → Prop
  | first : Searches supply layout h h
  | again {h₁ h₂ h₃ : Heap} {fuel fuel' : ℕ} (hs : Searches supply layout h h₁)
      (hfind : findSuitableFreeBlock supply fuel layout h₁ = (.ok none, h₂))
      (hgrow : increaseHeapSize supply fuel' layout h₂ = (.ok (), h₃)) :
      Searches supply layout h h₃

lemma Searches.divided {used : List Range} (hs : Searches supply layout h h') (hd : Divided h used)
    (huni : h.initialized = false → h.heapSizeInBytes = 0) (hsize : 0 < layout.size) :
    Divided h' used ∧ (h'.initialized = false → h'.heapSizeInBytes = 0) := by
  induction hs with
  | first => exact ⟨hd, huni⟩
  | again _ hfind hgrow ih =>
    obtain ⟨-, hinit, hd₂, -⟩ := wp_ok (ih.1.wp_findSuitableFreeBlock (E := fun _ _ => True)
      (fun _ _ => trivial) (fun _ _ _ _ => trivial) ih.2) hfind
    obtain ⟨hd₃, hkp, -⟩ := wp_ok (hd₂.wp_increaseHeapSize (E := fun _ _ => True)
      (fun _ _ => trivial) (fun _ _ _ _ => trivial) (.inr hsize) fun _ _ => trivial) hgrow
    refine ⟨hd₃, fun huni => ?_⟩
    rw [hkp.initialized hinit] at huni
    cases huni

lemma ne_assertion {α : Type} {x : HeapM α} {Q : α → Heap → Prop} (hx : wp x Q Excused h) :
    (x h).1 ≠ .error (.panicked .assertion) := by
  unfold wp at hx
  rcases hrun : x h with ⟨e | a, h'⟩
  · rw [hrun] at hx
    rintro ⟨⟩
    exact hx rfl
  · exact nofun

/-- No assertion fails in an allocation or in a deallocation of a live pointer, and the block that
an allocation finds is at least as large as the part that it takes of it. -/
theorem no_assertion_fails {live : List Allocation} (hrun : Run h live) :
    (∀ supply layout, layout.size ≠ 0 → layout.align ≤ 256 →
      (∀ fuel, (alloc supply layout fuel h).1 ≠ .error (.panicked .assertion)) ∧
      ∀ fuel h₁ h₂ block, Searches supply layout h h₁ →
        findSuitableFreeBlock supply fuel layout h₁ = (.ok (some block), h₂) →
        ∃ padding req, requiredBlock block layout = .ok (padding, req) ∧ req ≤ block.size) ∧
    ∀ a ∈ live, ∀ fuel,
      (dealloc fuel a.pointer a.layout h).1 ≠ .error (.panicked .assertion) := by
  have hinv := hrun.invariant
  refine ⟨fun supply layout hsize _ => ⟨fun fuel => ?_, fun fuel h₁ h₂ block hs hfind => ?_⟩,
    fun a ha fuel => ?_⟩
  · rw [alloc_eq, map_eq_pure_bind]
    refine ne_assertion (Q := fun _ _ => True) ?_
    rw [wp_bind]
    exact wp_mono (hinv.divided.wp_allocTaking hinv.uninit (pos_of_ne_zero hsize))
      (fun _ _ _ => trivial) fun _ _ => id
  · obtain ⟨hd, huni⟩ := hs.divided hinv.divided hinv.uninit (pos_of_ne_zero hsize)
    obtain ⟨-, -, r, ht⟩ := wp_ok (hd.wp_findSuitableFreeBlock (E := fun _ _ => True)
      (fun _ _ => trivial) (fun _ _ _ _ => trivial) huni) hfind
    obtain ⟨req, hreq, -, -, -, hle⟩ := ht.isBlock.requiredBlock_eq_ok ht.divided.end_lt
      ht.requiredSize_le ht.address_eq
    exact ⟨_, req, hreq, ht.size_eq ▸ hle⟩
  · obtain ⟨l, m, rfl⟩ := append_of_mem ha
    have hdiv : Divided h (h.blockOf a.pointer :: blocks h (l ++ m)) :=
      hinv.divided.congr fun x => (coverage_perm blocks_middle x).symm
    exact ne_assertion (hdiv.wp_dealloc (hinv.placed a ha))

theorem no_assertion_fails_start :
    (alloc (fun _ _ => true) smallLayout 3 (newUninit fun _ => 0)).1 ≠
      .error (.panicked .assertion) :=
  ((no_assertion_fails (.start _)).1 _ smallLayout (by decide) (by decide)).1 3

/-! ### Growth -/

/-- A free block is large enough, or the heap can grow until one is. -/
def Room (layout : Layout) (h : Heap) : Prop :=
  (∃ xs, IsFreeList h xs ∧ ∃ r ∈ xs, layout.requiredSize r.start ≤ r.len) ∨
    6 * (layout.size + layout.align + 8) + 2 ^ 17 ≤ 2 ^ 40 ∧
      5 * (h.heapSizeInBytes + 2 ^ 15) + 2 * (layout.size + layout.align) + 2 ^ 14 ≤ 2 ^ 41

lemma Divided.wp_allocTaking_ends {used : List Range} (layout : Layout)
    (hall : ∀ n k, supply n k = true) (hd : Divided h used)
    (hinit : h.initialized = true ↔ 0 < h.heapSizeInBytes)
    (hfuel : 2 ^ 41 < fuel + h.heapSizeInBytes) :
    wp (allocTaking supply layout fuel) (fun _ _ => True)
      (fun e _ => e = .panicked .overflow ∧ ¬ Room layout h) h := by
  induction fuel generalizing h with
  | zero =>
    have hend := hd.end_lt
    simp only [kernelHeapStart] at hend
    omega
  | succ fuel ih =>
    have hend := hd.end_lt
    have hunw : ∀ n k, supply n k = false → ∀ h' : Heap,
        Halt.panicked .unwrap = .panicked .overflow ∧ ¬ Room layout h := fun n k hno =>
      absurd (hall n k) (by simp [hno])
    have hrun : fuel < 2 ^ 40 → ∀ h' : Heap,
        Halt.running = .panicked .overflow ∧ ¬ Room layout h := fun hlt => by
      simp only [kernelHeapStart] at hend
      omega
    rw [allocTaking, wp_bind]
    refine wp_mono (hd.wp_findSuitableFreeBlock hrun hunw (Tidy.uninit ⟨⟨_, hd⟩, hinit⟩)) ?_
      fun _ _ => id
    rintro (_ | block) h₁ ⟨hkp, hinit₁, hfd⟩
    · obtain ⟨hd₁, hsize, hsmall⟩ := hfd
      have huni := Tidy.uninit ⟨⟨_, hd⟩, hinit⟩
      have hno : ¬ ∃ xs, IsFreeList h xs ∧ ∃ r ∈ xs, layout.requiredSize r.start ≤ r.len := by
        rintro ⟨xs, hxs, r, hr, hle⟩
        obtain ⟨-, rfl⟩ | ⟨hinit₀, -⟩ := hsize
        · exact (hsmall xs hxs r hr).not_ge hle
        · obtain rfl := hxs.eq_nil (huni hinit₀)
          cases hr
      have hsizes : 0 < h₁.heapSizeInBytes ∧ h.heapSizeInBytes ≤ h₁.heapSizeInBytes ∧
          h₁.heapSizeInBytes ≤ h.heapSizeInBytes + 2 ^ 15 := by
        obtain ⟨hinit₀, rfl⟩ | ⟨hinit₀, hsize⟩ := hsize
        · exact ⟨hinit.mp hinit₀, le_rfl, le_self_add⟩
        · rw [hsize, huni hinit₀]
          decide
      obtain ⟨hge, hlt⟩ := growth_bounds h₁ layout
      have hover : 2 ^ 64 ≤ kernelHeapStart + (h₁.heapSizeInBytes + h₁.growth layout) →
          ¬ Room layout h := fun hover hroom => by
        obtain ⟨-, hroom⟩ := hroom.resolve_left hno
        simp only [kernelHeapStart, pageSize] at hover hlt
        omega
      rw [wp_bind]
      refine wp_mono (hd₁.wp_increaseHeapSize hrun hunw (.inl hsizes.1) fun hend _ =>
        ⟨rfl, hover hend⟩) ?_ fun _ _ => id
      rintro - h₂ ⟨hd₂, hkp₂, hsize₂, ys, hys, y, hy, hst, hle⟩
      refine wp_mono (ih hd₂ (iff_of_true (hkp₂.initialized hinit₁) (by omega)) (by omega))
        (fun _ _ => id) fun e _ he => ⟨he.1, fun hroom => he.2 ?_⟩
      obtain ⟨hN, hroom⟩ := hroom.resolve_left hno
      dsimp only at hst hle
      by_cases hfit : layout.size + layout.align + 8 ≤ h₁.growth layout
      · have hpad := layout.padding_lt y.start
        refine .inl ⟨ys, hys, y, hy, ?_⟩
        simp only [Layout.requiredSize, allocatedBlockHeaderSize]
        omega
      · refine .inr ⟨hN, ?_⟩
        have hthree : 3 * h₁.heapSizeInBytes ≤ 2 * h₁.growth layout + 1 := by omega
        rw [hsize₂]
        linarith
    · obtain ⟨r, ht⟩ := hfd
      exact wp_mono (ht.wp_takeBlock hrun) (fun _ _ _ => trivial) fun _ _ => id

/-- If there are always pages, an allocation ends: it finds a block after finitely many growths,
or the heap is stopped by the end of the address space, which is not so if the heap and the layout
are small against it. -/
theorem alloc_ends (hreach : Reachable h) (hall : ∀ n k, supply n k = true) (layout : Layout)
    (hfuel : 2 ^ 41 < fuel) :
    (∃ ptr h', alloc supply layout fuel h = (.ok ptr, h')) ∨
      2 ^ 39 < 5 * (h.heapSizeInBytes + layout.size + layout.align) ∧
        ∃ h', alloc supply layout fuel h = (.error (.panicked .overflow), h') := by
  obtain ⟨used, hd⟩ := hreach.tidy.exists_divided
  have hwp := hd.wp_allocTaking_ends layout hall hreach.tidy.initialized_iff
    (hfuel.trans_le le_self_add)
  unfold wp at hwp
  rw [alloc_eq, map_eq_pure_bind]
  rcases hrun : allocTaking supply layout fuel h with ⟨e | ⟨ptr, b⟩, h'⟩
  · rw [hrun] at hwp
    obtain ⟨rfl, hroom⟩ := hwp
    refine .inr ⟨?_, h', bind_of_error hrun⟩
    by_contra hle
    exact hroom (.inr (by omega))
  · exact .inl ⟨ptr, h', bind_of_ok hrun⟩

theorem alloc_ends_small :
    ∃ ptr h', alloc (fun _ _ => true) smallLayout (2 ^ 41 + 1) (newUninit fun _ => 0) =
      (.ok ptr, h') :=
  (alloc_ends (.start _) (fun _ _ => rfl) smallLayout (by decide)).resolve_right
    fun hlarge => absurd hlarge.1 (by decide)

def hugeLayout : Layout := ⟨2 ^ 40, 2 ^ 3, ⟨3, rfl⟩, by decide⟩

/-- No block for a layout of the size of the heap's address space is ever found. -/
theorem alloc_never_finds :
    ¬ ∃ fuel ptr h', alloc (fun _ _ => true) hugeLayout fuel (newUninit fun _ => 0) =
      (.ok ptr, h') := by
  rintro ⟨fuel, ptr, h', hcall⟩
  rw [alloc_eq, map_eq_pure_bind, bind_eq_ok_iff] at hcall
  obtain ⟨⟨ptr', b⟩, h₁, hcall, -⟩ := hcall
  obtain ⟨hd, hlaid, -⟩ := wp_ok
    ((Invariant.start _).divided.wp_allocTaking (fun _ => rfl) (by decide)) hcall
  have hend := hd.end_lt
  have hst := hlaid.isBlock.start_le
  have hle := hlaid.isBlock.le_end
  have hdata := hlaid.data
  have hptr := hlaid.pointer_eq
  simp only [hugeLayout, kernelHeapStart] at *
  omega

end Kernel.Memory.Heap
