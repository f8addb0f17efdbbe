import Kernel.Memory.PhysicalMemoryAllocator.Properties

/-!
# Allocating pages in pieces

`try_alloc_contig` returns fewer pages than it was asked for if the first run of free pages is too
short.
-/

namespace Kernel.Memory

open Core List Finset Nat

/-! ### The searches -/

lemma firstFree_le (all bits : List Bool) (i : ℕ) {p : ℕ}
    (hbits : all.drop i = bits) (hp : i ≤ p) (hfree : all[p]? = some false) :
    ∃ s rest, firstFree bits i = some (s, rest) ∧ s ≤ p := by
  induction bits generalizing i with
  | nil =>
    have hlt := (List.getElem?_eq_some_iff.mp hfree).1
    have hle := drop_eq_nil_iff.mp hbits
    omega
  | cons b bits ih =>
    cases b with
    | true =>
      have hrest : all.drop (i + 1) = bits := by rw [← tail_drop, hbits, tail_cons]
      have hne : i ≠ p := by
        rintro rfl
        rw [← List.head?_drop, hbits] at hfree
        cases hfree
      exact ih (i + 1) hrest (by omega)
    | false => exact ⟨i, bits, rfl, hp⟩

lemma countFollowing_none {bits : List Bool} {seen missing : ℕ}
    (h : countFollowing seen missing bits = none) : bits.length < missing := by
  induction missing generalizing seen bits with
  | zero => cases h
  | succ missing ih =>
    cases bits with
    | nil => exact succ_pos missing
    | cons b bits =>
      cases b with
      | true => cases h
      | false => exact succ_lt_succ (ih h)

namespace PhysicalMemoryAllocator

def freeIndices (pma : PhysicalMemoryAllocator) : Finset ℕ :=
  (Finset.range pma.allocatedPages.length).filter fun p => pma.allocatedPages[p]? = some false

variable {pma pma' : PhysicalMemoryAllocator} {start n k : ℕ}

@[simp] lemma mem_freeIndices {p : ℕ} :
    p ∈ pma.freeIndices ↔ pma.allocatedPages[p]? = some false := by
  rw [freeIndices, Finset.mem_filter, Finset.mem_range]
  exact and_iff_right_of_imp fun h => (List.getElem?_eq_some_iff.mp h).1

/-! ### One call -/

structure Round (pma : PhysicalMemoryAllocator) (n start k : ℕ) (pma' : PhysicalMemoryAllocator) :
    Prop where
  returns : pma.tryAllocContig n = .ok (.ok (pma.pageAddress start, k), pma')
  pos : 1 ≤ k
  le : k ≤ n
  free : FreeRun pma.allocatedPages start k
  lowest : ∀ p ∈ pma.freeIndices, start ≤ p
  filled : pma.Filled start k true pma'

lemma exists_round (hn : 1 ≤ n) (hle : n ≤ pma.freeIndices.card)
    (haddr : ∀ p ∈ pma.freeIndices, pma.pageAddress p < 2 ^ 64) :
    ∃ start k pma', Round pma n start k pma' := by
  obtain ⟨p, hp⟩ : pma.freeIndices.Nonempty := card_pos.mp (by omega)
  obtain ⟨start, bits, hfst, -⟩ :=
    firstFree_le pma.allocatedPages pma.allocatedPages 0 rfl (zero_le p) (mem_freeIndices.mp hp)
  obtain ⟨hbit, hrest⟩ := firstFree_some pma.allocatedPages 0 rfl hfst
  have hlow : ∀ p ∈ pma.freeIndices, start ≤ p := fun p hp => by
    obtain ⟨s, rest, hfst', hle⟩ := firstFree_le pma.allocatedPages pma.allocatedPages 0 rfl
      (zero_le p) (mem_freeIndices.mp hp)
    rw [hfst] at hfst'
    cases hfst'
    exact hle
  cases hcnt : countFollowing 0 (n - 1) bits with
  | none =>
    -- all free pages are behind `start`, and these are too few
    have hsub : pma.freeIndices ⊆ Finset.Ico start pma.allocatedPages.length := fun p hp =>
      mem_Ico.mpr
        ⟨hlow p hp, (List.getElem?_eq_some_iff.mp (mem_freeIndices.mp hp)).1⟩
    have hcard := card_le_card hsub
    have hlen := countFollowing_none hcnt
    rw [← hrest, length_drop] at hlen
    rw [card_Ico] at hcard
    omega
  | some k =>
    have hone : FreeRun pma.allocatedPages start (0 + 1) := by
      intro p h₁ h₂
      have hp : p = start := by omega
      exact hp ▸ hbit
    obtain ⟨hfree, hpos⟩ := countFollowing_some 0 hrest hone hcnt
    have hle := countFollowing_le hcnt
    have hst : pma.pageAddress start < 2 ^ 64 := haddr start (mem_freeIndices.mpr hbit)
    obtain ⟨⟨a, pma'⟩, htake⟩ := (take_returns_iff (hfree.le_length hpos)).mpr hst
    obtain ⟨rfl, hfil⟩ := take_ok htake
    refine ⟨start, k, pma', ?_, hpos, by omega, hfree, hlow, hfil⟩
    have hsub : checkedSub n 1 = .ok (n - 1) := checkedSub_eq_ok.mpr ⟨hn, rfl⟩
    simp only [tryAllocContig, hfst, checked_bind_of_ok hsub, hcnt]
    exact bind_eq_ok.mpr ⟨_, htake, rfl⟩

lemma Round.freeIndices_eq (h : Round pma n start k pma') :
    pma'.freeIndices = pma.freeIndices \ Finset.Ico start (start + k) := by
  ext p
  rw [mem_sdiff, mem_Ico, mem_freeIndices, mem_freeIndices, h.filled.getElem?_eq]
  split_ifs with hp <;> simp [hp]

lemma Round.subset (h : Round pma n start k pma') :
    Finset.Ico start (start + k) ⊆ pma.freeIndices := fun p hp =>
  mem_freeIndices.mpr (h.free p (mem_Ico.mp hp).1 (mem_Ico.mp hp).2)

lemma Round.card (h : Round pma n start k pma') :
    pma'.freeIndices.card + k = pma.freeIndices.card := by
  have hsub := card_le_card h.subset
  have hcard := card_sdiff_of_subset h.subset
  rw [← h.freeIndices_eq] at hcard
  rw [card_Ico] at hsub hcard
  omega

/-! ### The loop -/

/-- Ask for the pages that are missing until there are none: the ranges in the order in which they
were returned. `none` if that takes more than the given number of calls. -/
def allocMissing : (rounds missing : ℕ) → PhysicalMemoryAllocator →
    Option (Checked (Except MemoryError (List Allocation) × PhysicalMemoryAllocator))
  | _, 0, pma => some (.ok (.ok [], pma))
  | 0, _ + 1, _ => none
  | rounds + 1, missing + 1, pma =>
    match pma.tryAllocContig (missing + 1) with
    | .error p => some (.error p)
    | .ok (.error e, pma) => some (.ok (.error e, pma))
    | .ok (.ok (addr, size), pma) =>
      match checkedSub (missing + 1) size with
      | .error p => some (.error p)
      | .ok missing => do
        match ← allocMissing rounds missing pma with
        | .error p => some (.error p)
        | .ok (.error e, pma) => some (.ok (.error e, pma))
        | .ok (.ok ranges, pma) => some (.ok (.ok (⟨addr, size⟩ :: ranges), pma))

inductive Rounds : PhysicalMemoryAllocator → ℕ → List Allocation → PhysicalMemoryAllocator → Prop
    where
  | nil {pma : PhysicalMemoryAllocator} : Rounds pma 0 [] pma
  | cons {pma pma₁ pma' : PhysicalMemoryAllocator} {n start k : ℕ} {ranges : List Allocation}
      (hround : Round pma n start k pma₁) (hrest : Rounds pma₁ (n - k) ranges pma') :
      Rounds pma n (⟨pma.pageAddress start, k⟩ :: ranges) pma'

variable {ranges : List Allocation}

lemma exists_rounds (hle : n ≤ pma.freeIndices.card)
    (haddr : ∀ p ∈ pma.freeIndices, pma.pageAddress p < 2 ^ 64) :
    ∃ ranges pma', Rounds pma n ranges pma' ∧
      ∀ rounds, n ≤ rounds → allocMissing rounds n pma = some (.ok (.ok ranges, pma')) := by
  induction n using Nat.strong_induction_on generalizing pma with
  | _ n ih =>
    rcases n with _ | missing
    · exact ⟨[], pma, .nil, fun rounds _ => by cases rounds <;> rfl⟩
    · obtain ⟨start, k, pma₁, hrd⟩ := exists_round (succ_pos missing) hle haddr
      have hcard := hrd.card
      have hpos := hrd.pos
      have haddr₁ : ∀ p ∈ pma₁.freeIndices, pma₁.pageAddress p < 2 ^ 64 := fun p hp => by
        rw [hrd.freeIndices_eq] at hp
        rw [pageAddress, hrd.filled.memoryStart_eq]
        exact haddr p (sdiff_subset hp)
      obtain ⟨ranges, pma', hrest, hret⟩ :=
        ih (missing + 1 - k) (by omega) (by omega) haddr₁
      refine ⟨_, pma', .cons hrd hrest, fun rounds hrds => ?_⟩
      obtain ⟨rounds, rfl⟩ : ∃ r, rounds = r + 1 := ⟨rounds - 1, by omega⟩
      have hsub : checkedSub (missing + 1) k = .ok (missing + 1 - k) :=
        checkedSub_eq_ok.mpr ⟨hrd.le, rfl⟩
      simp only [allocMissing, hrd.returns, hsub, hret rounds (by omega)]
      rfl

lemma pageAddress_mem_range {p : ℕ} :
    pma.pageAddress p ∈ Allocation.range ⟨pma.pageAddress start, k⟩ ↔
      p ∈ Finset.Ico start (start + k) := by
  simp only [Allocation.range, Range.mem_iff, pageAddress, pageSize, mem_Ico]
  omega

lemma Rounds.marked (h : Rounds pma n ranges pma') :
    ∃ pages ⊆ pma.freeIndices, pages.card = n ∧
      (∀ p, p ∈ pages ↔ ∃ r ∈ ranges, pma.pageAddress p ∈ r.range) ∧
      ∀ p, pma'.allocatedPages[p]? = if p ∈ pages then some true else pma.allocatedPages[p]? := by
  induction h with
  | nil => exact ⟨∅, Finset.empty_subset _, rfl, by simp, by simp⟩
  | @cons pma pma₁ pma' n start k ranges hrd _ ih =>
    obtain ⟨pages, hsub, hcard, hmem, hbits⟩ := ih
    have hfree := hrd.freeIndices_eq
    have hle := hrd.le
    have hdisj : Disjoint (Finset.Ico start (start + k)) pages := by
      rw [Finset.disjoint_right]
      intro p hp
      have := hsub hp
      rw [hfree] at this
      exact (Finset.mem_sdiff.mp this).2
    have hst : pma₁.pageAddress = pma.pageAddress := by
      funext p
      rw [pageAddress, hrd.filled.memoryStart_eq, pageAddress]
    refine ⟨Finset.Ico start (start + k) ∪ pages, ?_, ?_, fun p => ?_, fun p => ?_⟩
    · refine Finset.union_subset hrd.subset (hsub.trans ?_)
      rw [hfree]
      exact Finset.sdiff_subset
    · rw [Finset.card_union_of_disjoint hdisj, card_Ico, hcard]
      omega
    · rw [Finset.mem_union, hmem, hst, exists_mem_cons_iff, pageAddress_mem_range]
    · rw [hbits, hrd.filled.getElem?_eq]
      simp only [Finset.mem_union, Finset.mem_Ico]
      by_cases hp : p ∈ pages
      · rw [if_pos hp, if_pos (.inr hp)]
      · simp only [hp, or_false, if_false]

/-- If there are at least `n` free pages, then asking for the pages that are missing gets `n`
different pages: no call fails, and each one returns free pages from the lowest one on. -/
theorem allocMissing_exact (hle : n ≤ pma.freeIndices.card)
    (haddress : ∀ p ∈ pma.freeIndices, pma.pageAddress p < 2 ^ 64) :
    ∃ ranges pma' pages, (∀ rounds, n ≤ rounds →
        allocMissing rounds n pma = some (.ok (.ok ranges, pma'))) ∧
      Rounds pma n ranges pma' ∧ pages ⊆ pma.freeIndices ∧ pages.card = n ∧
      (∀ p, p ∈ pages ↔ ∃ r ∈ ranges, pma.pageAddress p ∈ r.range) ∧
      ∀ p, pma'.allocatedPages[p]? = if p ∈ pages then some true else pma.allocatedPages[p]? := by
  obtain ⟨ranges, pma', hrds, hret⟩ := exists_rounds hle haddress
  obtain ⟨pages, hsub, hcard, hmem, hbits⟩ := hrds.marked
  exact ⟨ranges, pma', pages, hret, hrds, hsub, hcard, hmem, hbits⟩

/-- Three pages out of two runs, the second of which reaches the end of memory. -/
theorem allocMissing_exact_two_runs :
    ∃ ranges pma', allocMissing 3 3 ⟨[true, false, true, false, false], 0x4000_0000⟩ =
        some (.ok (.ok ranges, pma')) ∧
      Rounds ⟨[true, false, true, false, false], 0x4000_0000⟩ 3 ranges pma' := by
  obtain ⟨ranges, pma', -, hret, hrds, -⟩ :=
    @allocMissing_exact ⟨[true, false, true, false, false], 0x4000_0000⟩ 3 (by decide) (by decide)
  exact ⟨ranges, pma', hret 3 le_rfl, hrds⟩

end PhysicalMemoryAllocator

end Kernel.Memory
