import Kernel.Memory.Paging.Traverse

/-!
# What the drop of a page table returns

A drop changes only the bits of the pages that the table maps and of its level tables.
-/

namespace Kernel.Memory

open Core Action PageTableEntry List PhysicalMemoryAllocator PageTableIter

lemma length_of_follow {tables : ℕ → LevelTable} {lvl a b : ℕ} {q : List (Fin 512)}
    (hlvl : lvl ≤ 3) (h : RadixTree.follow tableChild tables lvl a q = some b) :
    lvl + q.length ≤ 3 := by
  induction q generalizing lvl a with
  | nil => exact hlvl
  | cons i q ih =>
    rw [RadixTree.follow] at h
    cases hch : tableChild lvl (tables a i) with
    | none =>
      rw [hch] at h
      cases h
    | some next =>
      rw [hch] at h
      have hlt : lvl < 3 := by
        by_contra hge
        rw [tableChild, tableRef, if_pos (by omega)] at hch
        cases hch
      have := ih hlt h
      rw [length_cons]
      omega

namespace PageTable

variable {pt kt : PageTable} {users : List PageTable} {s : TableMemory}
  {pma pma' : PhysicalMemoryAllocator}

/-- The iterator is at the end, or at the entry that a page begins with. -/
def Stands (pt : PageTable) (s : TableMemory) (it : PageTableIter) : Prop :=
  it.currentEntry s.tables = none ∨ ∃ x, PageTableIter.At pt s x it ∧ pt.Begins s x

lemma startingAt_stands {it : PageTableIter}
    (hit : startingAt s.tables pt 0 0 0 0 = .ok it) : pt.Stands s it := by
  obtain ⟨it', hrun, hat | ⟨hnone, -⟩⟩ := startingAt_cases pt s 0 0 0 0
  · cases hit.symm.trans hrun
    exact .inr ⟨_, hat.chunk, begins_chunk hat.lt⟩
  · cases hit.symm.trans hrun
    exact .inl hnone

lemma Stands.next {it it' : PageTableIter} {r : MappedRegion} (h : pt.Stands s it)
    (hroot : ∀ x < halfPages, (pt.view s x).level = 0 → (pt.view s x).entry.valid = false)
    (hrun : it.next s.tables = .ok (some (r, it'))) :
    (∃ x < halfPages, pt.IsLeaf s x ∧ r = pt.region s x) ∧ pt.Stands s it' := by
  rcases h with hnone | ⟨x, hat, hbeg⟩
  · cases hrun.symm.trans (PageTableIter.next_of_none hnone)
  obtain ⟨it₁, hmove, ⟨y, -, hat, hbeg, hval, -⟩ | ⟨hnone, -⟩⟩ :=
    hat.move hbeg (PageTableIter.sub_lt_maxSteps x)
  · have hlev : (pt.view s y).level ≠ 0 := fun hzero => by
      cases hval.symm.trans (hroot y hat.lt hzero)
    have hleaf : pt.IsLeaf s y := by
      refine ⟨hbeg, fun hfr => ?_⟩
      rw [frame_eq_base hlev, Option.map_eq_none_iff] at hfr
      rw [PageTableIter.next, checked_bind_of_ok hmove, hat.currentEntry_eq] at hrun
      dsimp only at hrun
      rw [hat.lvl_eq, hfr] at hrun
      cases hrun
    obtain ⟨it₂, hnext, hend⟩ := hat.nextEntry hbeg
    cases hrun.symm.trans (hat.next_of_leaf hleaf hmove hnext)
    refine ⟨⟨y, hat.lt, hleaf, rfl⟩, ?_⟩
    rcases hend with ⟨-, hat', hbeg'⟩ | ⟨-, hstk⟩
    · exact .inr ⟨_, hat', hbeg'⟩
    · exact .inl (by rw [PageTableIter.currentEntry, hstk])
  · rw [PageTableIter.next, checked_bind_of_ok hmove, hnone] at hrun
    cases hrun

structure ChangedIn (pt : PageTable) (s : TableMemory) (pma : PhysicalMemoryAllocator) :
    Prop where
  memoryStart_eq : pma.memoryStart = s.pma.memoryStart
  length_eq : pma.allocatedPages.length = s.pma.allocatedPages.length
  changed : ∀ i, pma.allocatedPages[i]? = s.pma.allocatedPages[i]? ∨
    pt.IsTable s (s.pma.pageAddress i) ∨
    ∃ x < halfPages, pt.frame s x = some (s.pma.pageAddress i)

lemma ChangedIn.refl (pt : PageTable) (s : TableMemory) : pt.ChangedIn s s.pma :=
  ⟨rfl, rfl, fun _ => .inl rfl⟩

lemma ChangedIn.fill {start count : ℕ} (h : pt.ChangedIn s pma)
    (hfill : pma.Filled start count false pma')
    (hpgs : ∀ j < count, pt.IsTable s (s.pma.pageAddress (start + j)) ∨
      ∃ x < halfPages, pt.frame s x = some (s.pma.pageAddress (start + j))) :
    pt.ChangedIn s pma' where
  memoryStart_eq := hfill.memoryStart_eq.trans h.memoryStart_eq
  length_eq := hfill.length_eq.trans h.length_eq
  changed i := by
    rw [hfill.getElem?_eq]
    split_ifs with hin
    · have hpage := hpgs (i - start) (by omega)
      rw [Nat.add_sub_cancel' hin.1] at hpage
      exact .inr hpage
    · exact h.changed i

lemma freeRegions_changedIn (hsnd : Sound kt users s) (hpt : pt ∈ users) {steps : ℕ}
    {it : PageTableIter} (hit : pt.Stands s it) (h : pt.ChangedIn s pma)
    (hrun : freeRegions s.tables steps it pma = .ok pma') : pt.ChangedIn s pma' := by
  induction steps generalizing it pma with
  | zero =>
    cases hrun
    exact h
  | succ steps ih =>
    obtain ⟨found, hnext, hrun⟩ := bind_eq_ok.mp hrun
    cases found with
    | none =>
      cases hrun
      exact h
    | some found =>
      obtain ⟨region, it'⟩ := found
      obtain ⟨pma₁, hfree, hrun⟩ := bind_eq_ok.mp hrun
      obtain ⟨⟨x, hx, hleaf, hreg⟩, hit'⟩ := hit.next (hsnd.root_invalid pt hpt) hnext
      refine ih hit' ?_ hrun
      obtain ⟨i, -, hi⟩ := (hsnd.isData pt x _ ⟨hpt, hx, hleaf.frame_eq⟩).inUse
      rw [hreg, hi, pageAddress, ← h.memoryStart_eq] at hfree
      refine h.fill (freePages_ok hfree) fun j hj => .inr ?_
      have hend := hleaf.1.end_le hx
      refine ⟨x + j, hend.trans_lt' (Nat.add_lt_add_left hj x), ?_⟩
      rw [hleaf.frame_add hx hj, hi, pageAddress, pageAddress, add_mul, add_assoc]

lemma tableRef_aligned {e : PageTableEntry} {lvl t : ℕ} (h : e.tableRef lvl = some t) :
    t % pageSize = 0 := by
  rw [tableRef] at h
  split_ifs at h
  rw [tablePhyAddr] at h
  split_ifs at h
  obtain rfl := Option.some.inj h
  rw [Nat.shiftLeft_eq]
  exact Nat.mul_mod_left _ _

lemma ChangedIn.free {table : ℕ} (h : pt.ChangedIn s pma)
    (hst : s.pma.memoryStart % pageSize = 0) (hal : table % pageSize = 0)
    (htab : pt.IsTable s table) (hrun : pma.free table = .ok pma') : pt.ChangedIn s pma' := by
  have hle : s.pma.memoryStart ≤ table := by
    rw [PhysicalMemoryAllocator.free, PhysicalMemoryAllocator.freePages, bind_eq_ok] at hrun
    obtain ⟨_, hsub, -⟩ := hrun
    rw [← h.memoryStart_eq]
    exact (checkedSub_eq_ok.mp hsub).1
  obtain ⟨i, hi⟩ : ∃ i, table = s.pma.pageAddress i := by
    refine ⟨(table - s.pma.memoryStart) / pageSize, ?_⟩
    simp only [PhysicalMemoryAllocator.pageAddress, pageSize] at hst hal ⊢
    omega
  rw [hi, PhysicalMemoryAllocator.pageAddress, ← h.memoryStart_eq] at hrun
  refine h.fill (PhysicalMemoryAllocator.freePages_ok hrun) fun j hj => .inl ?_
  obtain rfl : j = 0 := by omega
  rwa [add_zero, ← hi]

lemma dropTable_changedIn (hst : s.pma.memoryStart % pageSize = 0) {depth lvl table : ℕ}
    {q : List (Fin 512)} (hlen : q.length = lvl)
    (hq : RadixTree.follow tableChild s.tables 0 pt.level0PhyAddr q = some table)
    (hal : table % pageSize = 0) (h : pt.ChangedIn s pma)
    (hrun : dropTable s.tables depth lvl table pma = .ok pma') : pt.ChangedIn s pma' := by
  induction depth generalizing lvl table q pma pma' with
  | zero =>
    cases hrun
    exact h
  | succ depth ih =>
    rw [dropTable, bind_eq_ok] at hrun
    obtain ⟨pma₁, hloop, hfree⟩ := hrun
    refine ChangedIn.free ?_ hst hal ⟨q, hq⟩ hfree
    refine foldlM_invariant (pt.ChangedIn s) (fun i _ pma₂ pma₃ h₂ hstep => ?_) h hloop
    cases href : (s.tables table i).tableRef lvl with
    | none =>
      rw [href] at hstep
      cases hstep
      exact h₂
    | some t =>
      rw [href] at hstep
      refine ih (q := q ++ [i]) (by simp [hlen]) ?_ (tableRef_aligned href) h₂ hstep
      rw [RadixTree.follow_append, hq, Option.bind_some, RadixTree.follow, zero_add, hlen,
        tableChild, href]
      rfl

lemma Sound.drop {before after : List PageTable}
    (h : Sound kt (before ++ pt :: after) s) (hchg : pt.ChangedIn s pma) :
    Sound kt (before ++ after) { s with pma } := by
  have hmem : pt ∈ before ++ pt :: after := mem_append_right _ mem_cons_self
  have hsub : (before ++ after).Sublist (before ++ pt :: after) :=
    (sublist_cons_self pt after).append_left before
  have hoth : ∀ pt' ∈ kt :: (before ++ after),
      pt ≠ pt' ∧ pt' ∈ kt :: (before ++ pt :: after) := by
    intro pt' hpt'
    refine ⟨?_, (hsub.cons_cons kt).subset hpt'⟩
    rintro rfl
    rcases mem_cons.mp hpt' with rfl | hpt'
    · exact h.ne_kernel hmem rfl
    · have hpair := (pairwise_append.mp (pairwise_cons.mp h.separate).2)
      rcases mem_append.mp hpt' with hpt' | hpt'
      · exact hpair.2.2 pt hpt' pt mem_cons_self _ (isTable_root pt s) (isTable_root pt s)
      · exact rel_of_pairwise_cons hpair.2.1 hpt' _ (isTable_root pt s) (isTable_root pt s)
  refine h.of_pma hsub hchg.memoryStart_eq hchg.length_eq (fun i hi => ?_)
    fun pt' x a ha => ?_
  · rcases hchg.changed i with hsame | htab | ⟨x, hx, hfr⟩
    · exact .inl (hsame ▸ hi)
    · refine .inr fun pt' hpt' htab' => ?_
      exact h.separate_of_ne (.tail _ hmem) (hoth pt' hpt').2 (hoth pt' hpt').1 _ htab htab'
    · exact .inr fun pt' hpt' =>
        (h.isData pt x _ ⟨hmem, hx, hfr⟩).not_isTable pt' (hoth pt' hpt').2
  · have hpt' := hoth pt' (.tail _ ha.1)
    have hheld : Held (before ++ pt :: after) s pt' x a := ⟨hsub.subset ha.1, ha.2⟩
    have hdata := h.isData pt' x a hheld
    refine hdata.inUse.mono hchg.memoryStart_eq fun i hi hall => ?_
    subst hi
    rcases hchg.changed i with hsame | htab | ⟨y, hy, hfr⟩
    · exact hsame.trans hall
    · exact absurd htab (hdata.not_isTable pt (.tail _ hmem))
    · exact absurd (h.injective pt y pt' x _ ⟨hmem, hy, hfr⟩ hheld).1 hpt'.1

end PageTable

end Kernel.Memory
