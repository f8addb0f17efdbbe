import Kernel.Core.Ranges
import Kernel.Memory.PhysicalMemoryAllocator.Basic

/-!
# Runs of the physical memory allocator

A successful call turns free bits into allocated ones and a free turns them back.
-/

namespace Kernel.Memory

open Core Relation

/-! ### The searches -/

def FreeRun (bits : List Bool) (start count : ℕ) : Prop :=
  ∀ p, start ≤ p → p < start + count → bits[p]? = some false

variable {all bits : List Bool}

private lemma getElem?_of_drop {b : Bool} {i : ℕ}
    (h : all.drop i = b :: bits) : all[i]? = some b ∧ all.drop (i + 1) = bits := by
  constructor
  · rw [← List.head?_drop, h, List.head?_cons]
  · rw [← List.tail_drop, h, List.tail_cons]

variable {start : ℕ}

lemma FreeRun.extend {i : ℕ} (h : FreeRun bits start (i - start))
    (hi : bits[i]? = some false) : FreeRun bits start (i + 1 - start) := by
  intro p h₁ h₂
  by_cases hp : p = i
  · exact hp ▸ hi
  · exact h p h₁ (by omega)

/-- What the result of a search says about the bitmap: the first run of `n` free pages was found,
or there is none, and the last page decides which of the two errors it is. -/
def Search.Correct (all : List Bool) (n : ℕ) : Search → Prop
  | .found start => FreeRun all start n ∧ ∀ s < start, ¬ FreeRun all s n
  | .outOfMemory => (∀ s, ¬ FreeRun all s n) ∧ all.getLast? ≠ some false
  | .insufficent => (∀ s, ¬ FreeRun all s n) ∧ all.getLast? = some false

variable {n s : ℕ}

lemma not_freeRun {p : ℕ} (hp : all[p]? ≠ some false) (hs : s ≤ p)
    (hlt : p < s + n) : ¬ FreeRun all s n :=
  fun h => hp (h p hs hlt)

mutual

lemma skipAllocated_correct {n : ℕ} (hn : 1 ≤ n) (all bits : List Bool) (i : ℕ)
    (hbits : all.drop i = bits) (hlast : i = 0 ∨ all[i - 1]? = some true)
    (hno : ∀ s < i, ¬ FreeRun all s n) : (skipAllocated n bits i).Correct all n := by
  match bits with
  | [] =>
    have hle : all.length ≤ i := List.drop_eq_nil_iff.mp hbits
    simp only [skipAllocated, Search.Correct]
    constructor
    · intro s
      rcases lt_or_ge s i with hs | hs
      · exact hno s hs
      · exact not_freeRun (p := s) (by simp [List.getElem?_eq_none (hle.trans hs)]) le_rfl
          (by omega)
    · rw [List.getLast?_eq_getElem?]
      rcases hlast with rfl | hlast
      · simp [List.eq_nil_of_length_eq_zero (Nat.le_zero.mp hle)]
      · have hlt := (List.getElem?_eq_some_iff.mp hlast).1
        obtain hpred : all.length - 1 = i - 1 := by omega
        simp [hpred, hlast]
  | true :: bits =>
    obtain ⟨hi, hrest⟩ := getElem?_of_drop hbits
    simp only [skipAllocated]
    refine skipAllocated_correct hn all bits (i + 1) hrest (.inr hi) fun s hs => ?_
    rcases Nat.lt_succ_iff_lt_or_eq.mp hs with hs | rfl
    · exact hno s hs
    · exact not_freeRun (by simp [hi]) le_rfl (by omega)
  | false :: bits =>
    obtain ⟨hi, hrest⟩ := getElem?_of_drop hbits
    simp only [skipAllocated]
    refine checkFollowing_correct hn all (n - 1) bits (i + 1) hrest (by omega) (by omega) ?_ hno
    exact FreeRun.extend (fun p h₁ h₂ => absurd h₂ (by omega)) hi

lemma checkFollowing_correct {n start : ℕ} (hn : 1 ≤ n) (all : List Bool) (missing : ℕ)
    (bits : List Bool) (i : ℕ) (hbits : all.drop i = bits) (hi : start + n = i + missing)
    (hst : start < i) (hfree : FreeRun all start (i - start))
    (hno : ∀ s < start, ¬ FreeRun all s n) :
    (checkFollowing n start missing bits i).Correct all n := by
  match missing, bits with
  | 0, bits =>
    have hcnt : i - start = n := by omega
    simp only [checkFollowing, Search.Correct]
    exact ⟨hcnt ▸ hfree, hno⟩
  | missing + 1, [] =>
    have hle : all.length ≤ i := List.drop_eq_nil_iff.mp hbits
    have hpred := hfree (i - 1) (by omega) (by omega)
    have hlt := (List.getElem?_eq_some_iff.mp hpred).1
    simp only [checkFollowing, Search.Correct]
    constructor
    · intro s
      rcases lt_or_ge s start with hs | hs
      · exact hno s hs
      · exact not_freeRun (p := s + n - 1) (by simp [List.getElem?_eq_none (show
          all.length ≤ s + n - 1 by omega)]) (by omega) (by omega)
    · obtain hlast : all.length - 1 = i - 1 := by omega
      rw [List.getLast?_eq_getElem?, hlast, hpred]
  | missing + 1, true :: bits =>
    obtain ⟨hbit, hrest⟩ := getElem?_of_drop hbits
    simp only [checkFollowing]
    refine skipAllocated_correct hn all bits (i + 1) hrest (.inr hbit) fun s hs => ?_
    rcases lt_or_ge s start with hs' | hs'
    · exact hno s hs'
    · exact not_freeRun (by simp [hbit]) (Nat.le_of_lt_succ hs) (by omega)
  | missing + 1, false :: bits =>
    obtain ⟨hbit, hrest⟩ := getElem?_of_drop hbits
    simp only [checkFollowing]
    exact checkFollowing_correct hn all missing bits (i + 1) hrest (by omega) (by omega)
      (hfree.extend hbit) hno

end

lemma search_correct (hn : 1 ≤ n) (bits : List Bool) :
    (skipAllocated n bits 0).Correct bits n :=
  skipAllocated_correct hn bits bits 0 rfl (.inl rfl) nofun

lemma skipAllocated_found (hn : 1 ≤ n)
    (h : skipAllocated n bits 0 = .found s) : FreeRun bits s n := by
  have hcor := search_correct hn bits
  rw [h] at hcor
  exact hcor.1

lemma FreeRun.le_length (h : FreeRun bits start n) (hn : 1 ≤ n) :
    start + n ≤ bits.length := by
  have hlast := (List.getElem?_eq_some_iff.mp (h (start + n - 1) (by omega) (by omega))).1
  omega

lemma firstFree_some (all : List Bool) {rest : List Bool} (i : ℕ)
    (hbits : all.drop i = bits) (h : firstFree bits i = some (s, rest)) :
    all[s]? = some false ∧ all.drop (s + 1) = rest := by
  induction bits generalizing i with
  | nil => simp [firstFree] at h
  | cons b bits ih =>
    obtain ⟨hbit, hrest⟩ := getElem?_of_drop hbits
    cases b with
    | true => exact ih (i + 1) hrest h
    | false =>
      simp only [firstFree, Option.some.injEq, Prod.mk.injEq] at h
      obtain ⟨rfl, rfl⟩ := h
      exact ⟨hbit, hrest⟩

lemma countFollowing_some {missing k : ℕ} (seen : ℕ)
    (hbits : all.drop (start + seen + 1) = bits) (hfree : FreeRun all start (seen + 1))
    (h : countFollowing seen missing bits = some k) : FreeRun all start k ∧ 1 ≤ k := by
  induction missing generalizing seen bits with
  | zero =>
    simp only [countFollowing, Option.some.injEq] at h
    subst h
    exact ⟨hfree, by omega⟩
  | succ missing ih =>
    cases bits with
    | nil => simp [countFollowing] at h
    | cons b bits =>
      obtain ⟨hbit, hrest⟩ := getElem?_of_drop hbits
      cases b with
      | true =>
        simp only [countFollowing, Option.some.injEq] at h
        subst h
        exact ⟨hfree, by omega⟩
      | false =>
        simp only [countFollowing] at h
        refine ih (seen + 1) hrest ?_ h
        intro p h₁ h₂
        by_cases hp : p = start + seen + 1
        · exact hp ▸ hbit
        · exact hfree p h₁ (by omega)

lemma countFollowing_le {seen missing k : ℕ}
    (h : countFollowing seen missing bits = some k) : k ≤ seen + missing + 1 := by
  induction missing generalizing seen bits with
  | zero =>
    simp only [countFollowing, Option.some.injEq] at h
    omega
  | succ missing ih =>
    cases bits with
    | nil => simp [countFollowing] at h
    | cons b bits =>
      cases b with
      | true =>
        simp only [countFollowing, Option.some.injEq] at h
        omega
      | false =>
        have := ih h
        omega

lemma fillRange_ok {bits' : List Bool} {count : ℕ} {v : Bool}
    (h : fillRange bits start count v = .ok bits') :
    start + count ≤ bits.length ∧ bits'.length = bits.length ∧
      ∀ p, bits'[p]? = if start ≤ p ∧ p < start + count then some v else bits[p]? := by
  obtain ⟨hle, rfl⟩ := ite_eq_ok.mp h
  refine ⟨hle, by simp; omega, fun p => ?_⟩
  have hlen : (bits.take start).length = start := by simp; omega
  rw [List.append_assoc]
  rcases lt_or_ge p start with hp | hp
  · rw [List.getElem?_append_left (by omega), List.getElem?_take_of_lt hp, if_neg (by omega)]
  · rw [List.getElem?_append_right (by omega), hlen]
    by_cases hp' : p < start + count
    · rw [List.getElem?_append_left (by simp; omega), if_pos ⟨hp, hp'⟩,
        List.getElem?_replicate, if_pos (by omega)]
    · rw [List.getElem?_append_right (by simp; omega), if_neg (by omega),
        List.length_replicate, List.getElem?_drop]
      congr 1
      omega

namespace PhysicalMemoryAllocator

/-! ### What one call does -/

structure Filled (pma : PhysicalMemoryAllocator) (start count : ℕ) (v : Bool)
    (pma' : PhysicalMemoryAllocator) : Prop where
  memoryStart_eq : pma'.memoryStart = pma.memoryStart
  length_eq : pma'.allocatedPages.length = pma.allocatedPages.length
  le_length : start + count ≤ pma.allocatedPages.length
  getElem?_eq : ∀ p, pma'.allocatedPages[p]? =
    if start ≤ p ∧ p < start + count then some v else pma.allocatedPages[p]?

variable {pma pma' : PhysicalMemoryAllocator} {start count a : ℕ}

lemma take_ok (h : pma.take start count = .ok (a, pma')) :
    a = pma.memoryStart + start * pageSize ∧ pma.Filled start count true pma' := by
  simp only [take, bind_eq_ok, checkedMul_eq_ok, checkedAdd_eq_ok] at h
  obtain ⟨bits, hbits, _, ⟨_, rfl⟩, _, ⟨_, rfl⟩, hret⟩ := h
  cases hret
  obtain ⟨hle, hlen, hget⟩ := fillRange_ok hbits
  exact ⟨rfl, rfl, hlen, hle, hget⟩

lemma take_returns_iff (hle : start + count ≤ pma.allocatedPages.length) :
    (∃ r, pma.take start count = .ok r) ↔ pma.memoryStart + start * pageSize < 2 ^ 64 := by
  constructor
  · rintro ⟨r, h⟩
    simp only [take, bind_eq_ok, checkedMul_eq_ok, checkedAdd_eq_ok] at h
    obtain ⟨_, _, _, ⟨_, rfl⟩, _, ⟨hlt, rfl⟩, _⟩ := h
    exact hlt
  · intro hlt
    exact ⟨_, bind_eq_ok.mpr ⟨_, if_pos hle, bind_eq_ok.mpr ⟨_, checkedMul_eq_ok.mpr
      ⟨(Nat.le_add_left _ _).trans_lt hlt, rfl⟩, bind_eq_ok.mpr ⟨_, checkedAdd_eq_ok.mpr
      ⟨hlt, rfl⟩, rfl⟩⟩⟩⟩

lemma take_returns (hcnt : 1 ≤ count) (hle : start + count ≤ pma.allocatedPages.length)
    (hend : pma.memoryStart + pma.allocatedPages.length * pageSize ≤ 2 ^ 64) :
    ∃ pma', pma.take start count = .ok (pma.memoryStart + start * pageSize, pma') := by
  have hlt : pma.memoryStart + (start + count) * pageSize ≤ 2 ^ 64 :=
    (Nat.add_le_add_left (Nat.mul_le_mul_right _ hle) _).trans hend
  obtain ⟨⟨a, pma'⟩, htake⟩ := (take_returns_iff hle).mpr (by simp only [pageSize] at *; omega)
  exact ⟨pma', by rw [htake, (take_ok htake).1]⟩

variable {n : ℕ}

lemma allocContig_ok (hn : 1 ≤ n) (h : pma.allocContig n = .ok (.ok a, pma')) :
    ∃ start, FreeRun pma.allocatedPages start n ∧
      a = pma.memoryStart + start * pageSize ∧ pma.Filled start n true pma' := by
  unfold allocContig at h
  split at h
  · cases h
  · simp only [bind_eq_ok] at h
    obtain ⟨_, _, hret⟩ := h
    cases hret
  · rename_i start hsea
    simp only [bind_eq_ok] at h
    obtain ⟨_, _, ⟨a', pma''⟩, htake, hret⟩ := h
    cases hret
    exact ⟨start, skipAllocated_found hn hsea, take_ok htake⟩

variable {e : MemoryError}

lemma allocContig_error (h : pma.allocContig n = .ok (.error e, pma')) : pma' = pma := by
  unfold allocContig at h
  split at h
  · cases h; rfl
  · simp only [bind_eq_ok] at h
    obtain ⟨_, _, hret⟩ := h
    cases hret; rfl
  · simp only [bind_eq_ok] at h
    obtain ⟨_, _, _, _, hret⟩ := h
    cases hret

lemma pos_of_allocContig (h : pma.allocContig n = .ok (.ok a, pma')) : 1 ≤ n := by
  unfold allocContig at h
  split at h
  · cases h
  · obtain ⟨_, _, hret⟩ := bind_eq_ok.mp h
    cases hret
  · obtain ⟨_, hsub, -⟩ := bind_eq_ok.mp h
    exact (checkedSub_eq_ok.mp hsub).1

lemma not_freeRun_of_allocContig
    (hn : 1 ≤ n) (h : pma.allocContig n = .ok (.error e, pma')) (start : ℕ) :
    ¬ FreeRun pma.allocatedPages start n := by
  have hcor := search_correct hn pma.allocatedPages
  unfold allocContig at h
  cases hsea : skipAllocated n pma.allocatedPages 0 with
  | outOfMemory | insufficent =>
    rw [hsea] at hcor
    exact hcor.1 start
  | found first =>
    rw [hsea] at h
    obtain ⟨_, -, h⟩ := bind_eq_ok.mp h
    obtain ⟨_, -, hret⟩ := bind_eq_ok.mp h
    cases hret

lemma tryAllocContig_ok {k : ℕ} (h : pma.tryAllocContig n = .ok (.ok (a, k), pma')) :
    ∃ start, FreeRun pma.allocatedPages start k ∧ 1 ≤ k ∧
      a = pma.memoryStart + start * pageSize ∧ pma.Filled start k true pma' := by
  unfold tryAllocContig at h
  split at h
  · cases h
  · rename_i start bits hfst
    obtain ⟨missing, -, h⟩ := bind_eq_ok.mp h
    split at h
    · simp only [bind_eq_ok] at h
      obtain ⟨_, _, hret⟩ := h
      cases hret
    · rename_i k' hcnt
      simp only [bind_eq_ok] at h
      obtain ⟨⟨a', pma''⟩, htake, hret⟩ := h
      cases hret
      obtain ⟨hbit, hrest⟩ := firstFree_some pma.allocatedPages 0 rfl hfst
      have hone : FreeRun pma.allocatedPages start (0 + 1) := by
        intro p h₁ h₂
        have hp : p = start := by omega
        exact hp ▸ hbit
      obtain ⟨hfree, hpos⟩ := countFollowing_some 0 hrest hone hcnt
      exact ⟨start, hfree, hpos, take_ok htake⟩

lemma tryAllocContig_error (h : pma.tryAllocContig n = .ok (.error e, pma')) : pma' = pma := by
  unfold tryAllocContig at h
  split at h
  · cases h; rfl
  · obtain ⟨missing, -, h⟩ := bind_eq_ok.mp h
    split at h
    · simp only [bind_eq_ok] at h
      obtain ⟨_, _, hret⟩ := h
      cases hret; rfl
    · simp only [bind_eq_ok] at h
      obtain ⟨_, _, hret⟩ := h
      cases hret

lemma freePages_ok (h : pma.freePages (pma.memoryStart + start * pageSize) count = .ok pma') :
    pma.Filled start count false pma' := by
  simp only [freePages, bind_eq_ok, checkedSub_eq_ok] at h
  obtain ⟨_, ⟨_, rfl⟩, bits, hbits, hret⟩ := h
  cases hret
  rw [Nat.add_sub_cancel_left, divCeil_mul_pageSize] at hbits
  obtain ⟨hle, hlen, hget⟩ := fillRange_ok hbits
  exact ⟨rfl, hlen, hle, hget⟩

lemma freePages_returns (hle : start + count ≤ pma.allocatedPages.length) :
    ∃ pma', pma.freePages (pma.memoryStart + start * pageSize) count = .ok pma' := by
  obtain ⟨bits, hfill⟩ : ∃ bits, fillRange pma.allocatedPages start count false = .ok bits :=
    ⟨_, if_pos hle⟩
  have hsub : checkedSub (pma.memoryStart + start * pageSize) pma.memoryStart =
      .ok (start * pageSize) :=
    checkedSub_eq_ok.mpr ⟨Nat.le_add_right _ _, (Nat.add_sub_cancel_left _ _).symm⟩
  refine ⟨{ pma with allocatedPages := bits }, bind_eq_ok.mpr ⟨_, hsub, ?_⟩⟩
  rw [divCeil_mul_pageSize]
  exact bind_eq_ok.mpr ⟨_, hfill, rfl⟩

def FirstFit (pma : PhysicalMemoryAllocator) (n : ℕ) : Prop :=
  match pma.allocContig n with
  | .ok (.ok a, pma') => ∃ start, FreeRun pma.allocatedPages start n ∧
      (∀ s < start, ¬ FreeRun pma.allocatedPages s n) ∧
      a = pma.memoryStart + start * pageSize ∧ pma.Filled start n true pma'
  | .ok (.error _, pma') => (∀ s, ¬ FreeRun pma.allocatedPages s n) ∧ pma' = pma
  | .error _ => False

/-- The numbers that `alloc_contig` computes are in range. The size of an allocation is computed
for one of the two errors only, which is returned when the last page is free. -/
structure Representable (pma : PhysicalMemoryAllocator) (n : ℕ) : Prop where
  address : ∀ start, FreeRun pma.allocatedPages start n →
    (∀ s < start, ¬ FreeRun pma.allocatedPages s n) → pma.memoryStart + start * pageSize < 2 ^ 64
  size : (∃ start, FreeRun pma.allocatedPages start n) ∨
    pma.allocatedPages.getLast? ≠ some false ∨ n * pageSize < 2 ^ 64

lemma first_unique {bits : List Bool} {start' : ℕ} (h : FreeRun bits start n)
    (hfst : ∀ s < start, ¬ FreeRun bits s n) (h' : FreeRun bits start' n)
    (hfst' : ∀ s < start', ¬ FreeRun bits s n) : start' = start :=
  le_antisymm (not_lt.mp fun hlt => hfst' _ hlt h) (not_lt.mp fun hlt => hfst _ hlt h')

/-- `alloc_contig` is a first-fit allocator as long as the numbers that it computes are in range:
it succeeds if and only if there are `n` free pages in a row, takes the first of them, and changes
nothing otherwise. -/
theorem firstFit_iff_representable (pma : PhysicalMemoryAllocator) {n : ℕ} (hn : 1 ≤ n) :
    pma.FirstFit n ↔ pma.Representable n := by
  have hcor := search_correct hn pma.allocatedPages
  have hsub : checkedSub n 1 = .ok (n - 1) := checkedSub_eq_ok.mpr ⟨hn, rfl⟩
  unfold FirstFit allocContig
  cases hsea : skipAllocated n pma.allocatedPages 0 with
  | outOfMemory =>
    rw [hsea] at hcor
    exact iff_of_true ⟨hcor.1, rfl⟩
      ⟨fun start hrun => absurd hrun (hcor.1 start), .inr (.inl hcor.2)⟩
  | insufficent =>
    rw [hsea] at hcor
    obtain ⟨hno, hlast⟩ := hcor
    -- the size of the allocation is part of the error
    by_cases hlt : n * pageSize < 2 ^ 64
    · have hsize : checkedMul n pageSize = .ok (n * pageSize) := checkedMul_eq_ok.mpr ⟨hlt, rfl⟩
      simp only [hsize]
      exact iff_of_true ⟨hno, rfl⟩
        ⟨fun start hrun => absurd hrun (hno start), .inr (.inr hlt)⟩
    · have hsize : checkedMul n pageSize = .error .overflow := if_neg hlt
      simp only [hsize]
      refine iff_of_false id fun h => ?_
      rcases h.size with ⟨start, hrun⟩ | hlast' | hlt'
      · exact hno start hrun
      · exact hlast' hlast
      · exact hlt hlt'
  | found start =>
    rw [hsea] at hcor
    obtain ⟨hrun, hfst⟩ := hcor
    have hret := take_returns_iff (hrun.le_length hn)
    cases htake : pma.take start n with
    | error p =>
      simp only [checked_bind_of_ok hsub, htake]
      refine iff_of_false id fun h => ?_
      obtain ⟨r, hr⟩ := hret.mpr (h.address start hrun hfst)
      rw [htake] at hr
      cases hr
    | ok r =>
      obtain ⟨a, pma'⟩ := r
      simp only [checked_bind_of_ok hsub, htake]
      refine iff_of_true ⟨start, hrun, hfst, take_ok htake⟩
        ⟨fun s hs hfst' => ?_, .inl ⟨_, hrun⟩⟩
      rw [first_unique hrun hfst hs hfst']
      exact hret.mp ⟨_, htake⟩

/-- The pages behind a reserved page are the first run of two. -/
theorem firstFit_iff_representable_two_pages :
    Representable ⟨[true, false, false, false], 0x4000_0000⟩ 2 ∧
      FirstFit ⟨[true, false, false, false], 0x4000_0000⟩ 2 := by
  have h : Representable ⟨[true, false, false, false], 0x4000_0000⟩ 2 := by
    refine ⟨fun start hrun _ => ?_, .inr (.inr (by decide))⟩
    have hle : start + 2 ≤ 4 := hrun.le_length (by decide)
    simp only [pageSize]
    omega
  exact ⟨h, (firstFit_iff_representable _ (by decide)).mpr h⟩

/-- The size of an allocation that is larger than the address space makes the call panic. -/
theorem allocContig_overflows : ¬ FirstFit ⟨[false], 0x4000_0000⟩ (2 ^ 52) := by
  have hrun : allocContig ⟨[false], 0x4000_0000⟩ (2 ^ 52) = .error .overflow := by
    decide +kernel
  rw [FirstFit, hrun]
  exact id

lemma skipAllocated_one (bits : List Bool) (i : ℕ) :
    skipAllocated 1 bits i = .outOfMemory ∨ ∃ start, skipAllocated 1 bits i = .found start := by
  induction bits generalizing i with
  | nil => exact .inl (by simp only [skipAllocated])
  | cons bit bits ih =>
    cases bit with
    | true =>
      simp only [skipAllocated]
      exact ih (i + 1)
    | false => exact .inr ⟨i, by simp only [skipAllocated, Nat.sub_self, checkFollowing]⟩

lemma alloc_cases (pma : PhysicalMemoryAllocator)
    (hend : pma.memoryStart + pma.allocatedPages.length * pageSize ≤ 2 ^ 64) :
    pma.alloc = .ok (.error .outOfMemory, pma) ∨
      ∃ start pma', pma.alloc = .ok (.ok (pma.memoryStart + start * pageSize), pma') ∧
        pma.allocatedPages[start]? = some false ∧ pma.Filled start 1 true pma' := by
  rcases skipAllocated_one pma.allocatedPages 0 with hsea | ⟨start, hsea⟩
  · exact .inl (by rw [alloc, allocContig, hsea])
  · right
    have hfree := skipAllocated_found (le_refl 1) hsea start (le_refl _) (by omega)
    obtain ⟨hlt, -⟩ := List.getElem?_eq_some_iff.mp hfree
    obtain ⟨pma', htake⟩ := take_returns (le_refl 1) hlt hend
    refine ⟨start, pma', ?_, hfree, (take_ok htake).2⟩
    rw [alloc, allocContig, hsea]
    exact bind_eq_ok.mpr ⟨0, rfl, bind_eq_ok.mpr ⟨_, htake, rfl⟩⟩

lemma tryAllocContig_cases (pma : PhysicalMemoryAllocator) (hn : 1 ≤ n)
    (hlt : n * pageSize < 2 ^ 64)
    (hend : pma.memoryStart + pma.allocatedPages.length * pageSize ≤ 2 ^ 64) :
    (∃ e, pma.tryAllocContig n = .ok (.error e, pma)) ∨
      ∃ start k pma',
        pma.tryAllocContig n = .ok (.ok (pma.memoryStart + start * pageSize, k), pma') ∧
        1 ≤ k ∧ k ≤ n ∧ FreeRun pma.allocatedPages start k ∧ pma.Filled start k true pma' := by
  have hsub : checkedSub n 1 = .ok (n - 1) := checkedSub_eq_ok.mpr ⟨hn, rfl⟩
  cases hfst : firstFree pma.allocatedPages 0 with
  | none => exact .inl ⟨_, by rw [tryAllocContig, hfst]⟩
  | some found =>
    obtain ⟨start, bits⟩ := found
    obtain ⟨hbit, hrest⟩ := firstFree_some pma.allocatedPages 0 rfl hfst
    cases hcnt : countFollowing 0 (n - 1) bits with
    | none =>
      refine .inl ⟨.insufficentForAllocation (n * pageSize), ?_⟩
      simp only [tryAllocContig, hfst, checked_bind_of_ok hsub, hcnt]
      exact bind_eq_ok.mpr ⟨_, checkedMul_eq_ok.mpr ⟨hlt, rfl⟩, rfl⟩
    | some k =>
      have hone : FreeRun pma.allocatedPages start (0 + 1) := by
        intro p h₁ h₂
        have hp : p = start := by omega
        exact hp ▸ hbit
      obtain ⟨hfree, hpos⟩ := countFollowing_some 0 hrest hone hcnt
      have hle := countFollowing_le hcnt
      obtain ⟨pma', htake⟩ := take_returns hpos (hfree.le_length hpos) hend
      refine .inr ⟨start, k, pma', ?_, hpos, by omega, hfree, (take_ok htake).2⟩
      simp only [tryAllocContig, hfst, checked_bind_of_ok hsub, hcnt]
      exact bind_eq_ok.mpr ⟨_, htake, rfl⟩

/-! ### Runs -/

structure Allocation where
  base : ℕ
  pageCount : ℕ
  deriving DecidableEq, Repr

def Allocation.range (a : Allocation) : Range := ⟨a.base, a.pageCount * pageSize⟩

structure Session where
  pma : PhysicalMemoryAllocator
  live : List Allocation

inductive Step : Session → Session → Prop where
  | alloc {pma pma' live a} (h : pma.alloc = .ok (.ok a, pma')) :
      Step ⟨pma, live⟩ ⟨pma', ⟨a, 1⟩ :: live⟩
  | allocError {pma pma' live e} (h : pma.alloc = .ok (.error e, pma')) :
      Step ⟨pma, live⟩ ⟨pma', live⟩
  | allocContig {pma pma' live n a} (hn : 1 ≤ n)
      (h : pma.allocContig n = .ok (.ok a, pma')) : Step ⟨pma, live⟩ ⟨pma', ⟨a, n⟩ :: live⟩
  | allocContigError {pma pma' live n e} (hn : 1 ≤ n)
      (h : pma.allocContig n = .ok (.error e, pma')) : Step ⟨pma, live⟩ ⟨pma', live⟩
  | tryAllocContig {pma pma' live n a k} (hn : 1 ≤ n)
      (h : pma.tryAllocContig n = .ok (.ok (a, k), pma')) :
      Step ⟨pma, live⟩ ⟨pma', ⟨a, k⟩ :: live⟩
  | tryAllocContigError {pma pma' live n e} (hn : 1 ≤ n)
      (h : pma.tryAllocContig n = .ok (.error e, pma')) : Step ⟨pma, live⟩ ⟨pma', live⟩
  | free {pma pma' live a} (hlive : ⟨a, 1⟩ ∈ live) (h : pma.free a = .ok pma') :
      Step ⟨pma, live⟩ ⟨pma', live.erase ⟨a, 1⟩⟩
  | freePages {pma pma' live a n} (hlive : ⟨a, n⟩ ∈ live)
      (h : pma.freePages a n = .ok pma') : Step ⟨pma, live⟩ ⟨pma', live.erase ⟨a, n⟩⟩

def Reachable (initial : PhysicalMemoryAllocator) (s : Session) : Prop :=
  ReflTransGen Step ⟨initial, []⟩ s

def pageAddress (pma : PhysicalMemoryAllocator) (p : ℕ) : ℕ :=
  pma.memoryStart + p * pageSize

def InBitmap (pma : PhysicalMemoryAllocator) (a : Allocation) : Prop :=
  ∃ start, a.base = pma.pageAddress start ∧
    start + a.pageCount ≤ pma.allocatedPages.length

def bit (pma : PhysicalMemoryAllocator) (p : ℕ) : ℕ :=
  if pma.allocatedPages[p]? = some true then 1 else 0

variable {p : ℕ}

lemma bit_eq_one (h : pma.IsAllocated p) :
    pma.bit p = 1 := if_pos h

lemma bit_eq_zero (h : ¬ pma.IsAllocated p) :
    pma.bit p = 0 := if_neg h

lemma bit_le_one (pma : PhysicalMemoryAllocator) (p : ℕ) : pma.bit p ≤ 1 := by
  unfold bit
  split_ifs <;> omega

lemma bit_of_free (h : pma.allocatedPages[p]? = some false) : pma.bit p = 0 :=
  bit_eq_zero (by simp [IsAllocated, h])

lemma Filled.bit_eq {v : Bool} (h : pma.Filled start count v pma') (p : ℕ) :
    pma'.bit p = if start ≤ p ∧ p < start + count then v.toNat else pma.bit p := by
  simp only [bit, h.getElem?_eq p]
  split_ifs <;> simp_all

open Allocation

structure Invariant (initial : PhysicalMemoryAllocator) (s : Session) : Prop where
  memoryStart_eq : s.pma.memoryStart = initial.memoryStart
  length_eq : s.pma.allocatedPages.length = initial.allocatedPages.length
  inBitmap : ∀ a ∈ s.live, initial.InBitmap a
  count : ∀ p < initial.allocatedPages.length, s.pma.bit p =
    initial.bit p + coverage (s.live.map range) (initial.pageAddress p)

lemma range_ind (pma : PhysicalMemoryAllocator) (start n p : ℕ) :
    (range ⟨pma.pageAddress start, n⟩).ind (pma.pageAddress p) =
      if start ≤ p ∧ p < start + n then 1 else 0 := by
  have hiff : pma.pageAddress p ∈ range ⟨pma.pageAddress start, n⟩ ↔
      start ≤ p ∧ p < start + n := by
    simp only [Range.mem_iff, range, pageAddress, pageSize]
    omega
  simp only [Range.ind, hiff]

lemma invariant_init (initial : PhysicalMemoryAllocator) : Invariant initial ⟨initial, []⟩ where
  memoryStart_eq := rfl
  length_eq := rfl
  inBitmap := by simp
  count := by simp

variable {initial : PhysicalMemoryAllocator} {s : Session}

lemma Invariant.add (hs : Invariant initial s) (hfree : FreeRun s.pma.allocatedPages start n)
    (hfill : s.pma.Filled start n true pma') :
    Invariant initial ⟨pma', ⟨s.pma.memoryStart + start * pageSize, n⟩ :: s.live⟩ where
  memoryStart_eq := hfill.memoryStart_eq.trans hs.memoryStart_eq
  length_eq := hfill.length_eq.trans hs.length_eq
  inBitmap := by
    intro a ha
    rcases List.mem_cons.mp ha with rfl | ha
    · exact ⟨start, by rw [pageAddress, hs.memoryStart_eq], hs.length_eq ▸ hfill.le_length⟩
    · exact hs.inBitmap a ha
  count := by
    intro p hp
    have hcnt := hs.count p hp
    rw [hfill.bit_eq, List.map_cons, coverage_cons, hs.memoryStart_eq, ← pageAddress, range_ind]
    split_ifs with hin
    · -- the page was free, so it was counted nowhere before
      have hclr := bit_of_free (hfree p hin.1 hin.2)
      rw [Bool.toNat_true]
      omega
    · omega

lemma Invariant.remove (hs : Invariant initial s) (hlive : ⟨initial.pageAddress start, n⟩ ∈ s.live)
    (hfill : s.pma.Filled start n false pma') :
    Invariant initial ⟨pma', s.live.erase ⟨initial.pageAddress start, n⟩⟩ where
  memoryStart_eq := hfill.memoryStart_eq.trans hs.memoryStart_eq
  length_eq := hfill.length_eq.trans hs.length_eq
  inBitmap := fun a ha => hs.inBitmap a (List.mem_of_mem_erase ha)
  count := by
    intro p hp
    have hcnt := hs.count p hp
    have hperm := (List.perm_cons_erase hlive).map range
    rw [coverage_perm hperm, List.map_cons, coverage_cons, range_ind] at hcnt
    rw [hfill.bit_eq]
    dsimp only
    split_ifs at hcnt ⊢ with hin
    · -- the bit is set and the removed allocation already accounts for it
      have hle := s.pma.bit_le_one p
      rw [Bool.toNat_false]
      omega
    · omega

lemma Invariant.perm {live : List Allocation}
    (hs : Invariant initial s) (h : live.Perm s.live) : Invariant initial ⟨s.pma, live⟩ where
  memoryStart_eq := hs.memoryStart_eq
  length_eq := hs.length_eq
  inBitmap a ha := hs.inBitmap a (h.subset ha)
  count p hp := by
    rw [coverage_perm (h.map range)]
    exact hs.count p hp

lemma coverage_singles (pma : PhysicalMemoryAllocator) (P : ℕ → Bool) (n p : ℕ) :
    coverage ((((List.range n).filter P).map fun i =>
      (⟨pma.pageAddress i, 1⟩ : Allocation)).map range) (pma.pageAddress p) =
      if p < n ∧ P p then 1 else 0 := by
  induction n with
  | zero => simp
  | succ n ih =>
    rw [List.range_succ, List.filter_append, List.map_append, List.map_append, coverage_append, ih]
    by_cases hn : P n = true
    · rw [List.filter_cons_of_pos hn, List.filter_nil, List.map_singleton, List.map_singleton,
        coverage_cons, coverage_nil, range_ind]
      by_cases hp : p = n
      · subst hp
        simp [hn]
      · rw [if_neg (show ¬ (n ≤ p ∧ p < n + 1) by omega), add_zero, add_zero]
        exact if_congr (and_congr_left fun _ => by omega) rfl rfl
    · rw [List.filter_cons_of_neg hn, List.filter_nil, List.map_nil, List.map_nil, coverage_nil,
        add_zero]
      refine if_congr (and_congr_left fun hp => ?_) rfl rfl
      have hne : p ≠ n := by
        rintro rfl
        exact hn hp
      omega

lemma Invariant.grow
    (hs : Invariant initial s) (hst : pma'.memoryStart = s.pma.memoryStart)
    (hlen : pma'.allocatedPages.length = s.pma.allocatedPages.length)
    (hbits : ∀ i : ℕ, pma'.allocatedPages[i]? = s.pma.allocatedPages[i]? ∨
      s.pma.allocatedPages[i]? = some false ∧ pma'.allocatedPages[i]? = some true) :
    ∃ new, Invariant initial ⟨pma', s.live ++ new⟩ ∧ ∀ a ∈ new, a.pageCount = 1 ∧
      ∃ i : ℕ, a.base = initial.pageAddress i ∧ s.pma.allocatedPages[i]? = some false ∧
        pma'.allocatedPages[i]? = some true := by
  let P : ℕ → Bool := fun i =>
    s.pma.allocatedPages[i]? = some false ∧ pma'.allocatedPages[i]? = some true
  refine ⟨((List.range initial.allocatedPages.length).filter P).map fun i =>
    ⟨initial.pageAddress i, 1⟩, ⟨hst.trans hs.memoryStart_eq, hlen.trans hs.length_eq,
      fun a ha => ?_, fun p hp => ?_⟩, fun a ha => ?_⟩
  · rcases List.mem_append.mp ha with ha | ha
    · exact hs.inBitmap a ha
    · obtain ⟨i, hi, rfl⟩ := List.mem_map.mp ha
      exact ⟨i, rfl, List.mem_range.mp (List.mem_filter.mp hi).1⟩
  · rw [List.map_append, coverage_append, coverage_singles, ← add_assoc, ← hs.count p hp]
    rcases hbits p with hsame | ⟨hfree, htk⟩
    · have hP : P p = false := by
        simp only [P, hsame, decide_eq_false_iff_not]
        rintro ⟨h₁, h₂⟩
        cases h₁.symm.trans h₂
      simp only [bit, hsame, hP, Bool.false_eq_true, and_false, if_false, add_zero]
    · have hP : P p = true := decide_eq_true ⟨hfree, htk⟩
      rw [if_pos ⟨hp, hP⟩, bit_eq_one htk, bit_of_free hfree]
  · obtain ⟨i, hi, rfl⟩ := List.mem_map.mp ha
    exact ⟨rfl, i, rfl, of_decide_eq_true (List.mem_filter.mp hi).2⟩

lemma Invariant.free {a : Allocation} (hs : Invariant initial s) (hlive : a ∈ s.live)
    (h : s.pma.freePages a.base a.pageCount = .ok pma') :
    Invariant initial ⟨pma', s.live.erase a⟩ := by
  obtain ⟨start, hbase, hle⟩ := hs.inBitmap a hlive
  obtain ⟨base, n⟩ := a
  subst hbase
  rw [pageAddress, ← hs.memoryStart_eq] at h
  exact hs.remove hlive (freePages_ok h)

lemma Step.invariant {t : Session} (hstep : Step s t)
    (hs : Invariant initial s) : Invariant initial t := by
  cases hstep with
  | alloc h =>
    obtain ⟨start, hfree, rfl, hfill⟩ := allocContig_ok (le_refl 1) h
    exact hs.add hfree hfill
  | allocContig hn h =>
    obtain ⟨start, hfree, rfl, hfill⟩ := allocContig_ok hn h
    exact hs.add hfree hfill
  | tryAllocContig hn h =>
    obtain ⟨start, hfree, _, rfl, hfill⟩ := tryAllocContig_ok h
    exact hs.add hfree hfill
  | allocError h | allocContigError _ h => rwa [allocContig_error h]
  | tryAllocContigError _ h => rwa [tryAllocContig_error h]
  | free hlive h | freePages hlive h => exact hs.free hlive h

lemma Reachable.invariant (h : Reachable initial s) : Invariant initial s := by
  induction h with
  | refl => exact invariant_init initial
  | tail _ hstep ih => exact hstep.invariant ih

/-! ### What holds along every run -/

section

variable {initial : PhysicalMemoryAllocator} {s : Session}

variable {a : Allocation} {p : ℕ}

private lemma mem_range_iff (ha : initial.InBitmap a) {x : ℕ}
    (hx : initial.pageAddress p ≤ x) (hx' : x < initial.pageAddress (p + 1)) :
    x ∈ a.range ↔ initial.pageAddress p ∈ a.range := by
  obtain ⟨start, hbase, _⟩ := ha
  simp only [Range.mem_iff, range, hbase, pageAddress, pageSize] at hx hx' ⊢
  omega

private lemma InBitmap.bounds (ha : initial.InBitmap a) :
    initial.memoryStart ≤ a.base ∧
      a.base + a.pageCount * pageSize ≤
        initial.memoryStart + initial.allocatedPages.length * pageSize := by
  obtain ⟨start, hbase, hle⟩ := ha
  simp only [hbase, pageAddress, pageSize]
  omega

lemma Invariant.coverage_le_one (hs : Invariant initial s) (x : ℕ) :
    coverage (s.live.map range) x ≤ 1 := by
  by_contra hgt
  have hpos : 0 < coverage (s.live.map range) x := by omega
  obtain ⟨r, hr, hx⟩ := coverage_pos_iff.mp hpos
  obtain ⟨a, ha, rfl⟩ := List.mem_map.mp hr
  have hbds := (hs.inBitmap a ha).bounds
  -- all the bytes of the page of `x` have the same coverage
  obtain ⟨p, hp⟩ : ∃ p, p = (x - initial.memoryStart) / pageSize := ⟨_, rfl⟩
  simp only [Range.mem_iff, range, pageSize] at hx hbds hp
  have hpage : coverage (s.live.map range) x =
      coverage (s.live.map range) (initial.pageAddress p) := by
    refine coverage_congr fun r hr => ?_
    obtain ⟨b, hb, rfl⟩ := List.mem_map.mp hr
    refine mem_range_iff (hs.inBitmap b hb) ?_ ?_ <;> simp only [pageAddress, pageSize] <;> omega
  have hcnt := hs.count p (by omega)
  have hle := s.pma.bit_le_one p
  omega

lemma Invariant.isAllocated_iff (hs : Invariant initial s)
    (hp : p < initial.allocatedPages.length) :
    s.pma.IsAllocated p ↔
      initial.IsAllocated p ∨ ∃ a ∈ s.live, initial.pageAddress p ∈ a.range := by
  have hcnt := hs.count p hp
  have hlive : 0 < coverage (s.live.map range) (initial.pageAddress p) ↔
      ∃ a ∈ s.live, initial.pageAddress p ∈ a.range := by
    rw [coverage_pos_iff]
    simp only [List.mem_map, exists_exists_and_eq_and]
  rw [← hlive]
  by_cases h : s.pma.IsAllocated p <;> by_cases h₀ : initial.IsAllocated p <;>
    simp only [h, h₀, bit_eq_one, bit_eq_zero, not_false_eq_true, true_or, false_or, true_iff,
      false_iff] at hcnt ⊢ <;> omega

lemma Invariant.reserved_disjoint (hs : Invariant initial s)
    (hp : initial.IsAllocated p) (ha : a ∈ s.live) :
    Range.Disjoint ⟨initial.pageAddress p, pageSize⟩ a.range := by
  intro x hx hxa
  have hlt : p < initial.allocatedPages.length := (List.getElem?_eq_some_iff.mp hp).1
  have hcnt := hs.count p hlt
  have hpage : initial.pageAddress p ∈ a.range := by
    refine (mem_range_iff (hs.inBitmap a ha) hx.1 ?_).mp hxa
    simp only [Range.mem_iff, pageAddress, pageSize] at hx ⊢
    omega
  have hpos := coverage_pos_iff.mpr ⟨_, List.mem_map_of_mem ha, hpage⟩
  rw [bit_eq_one hp] at hcnt
  have hle := s.pma.bit_le_one p
  omega

lemma Invariant.eq_initial (hs : Invariant initial s) (hlive : s.live = []) :
    s.pma = initial := by
  have hbits : s.pma.allocatedPages = initial.allocatedPages := by
    refine List.ext_getElem hs.length_eq fun p h₁ h₂ => ?_
    have hcnt := hs.count p h₂
    simp only [hlive, List.map_nil, coverage_nil, add_zero, bit, List.getElem?_eq_getElem h₁,
      List.getElem?_eq_getElem h₂, Option.some.injEq] at hcnt
    cases h : s.pma.allocatedPages[p] <;> cases h' : initial.allocatedPages[p] <;>
      simp [h, h'] at hcnt ⊢
  have hst := hs.memoryStart_eq
  cases hpma : s.pma
  cases hinit : initial
  simp_all

def freeAll (pma : PhysicalMemoryAllocator) (order : List Allocation) :
    Checked PhysicalMemoryAllocator :=
  order.foldlM (fun pma a => pma.freePages a.base a.pageCount) pma

lemma Invariant.freeAll_eq (hs : Invariant initial s) {order : List Allocation}
    (hord : order.Perm s.live) : s.pma.freeAll order = .ok initial := by
  induction order generalizing s with
  | nil => exact congrArg Except.ok (hs.eq_initial hord.nil_eq.symm)
  | cons a order ih =>
    have ha : a ∈ s.live := hord.subset List.mem_cons_self
    obtain ⟨start, hbase, hle⟩ := hs.inBitmap a ha
    have hret : ∃ pma', s.pma.freePages a.base a.pageCount = .ok pma' := by
      rw [hbase, pageAddress, ← hs.memoryStart_eq]
      exact freePages_returns (hs.length_eq ▸ hle)
    obtain ⟨pma', hfree⟩ := hret
    have hrest : order.Perm (s.live.erase a) := by
      have := hord.erase a
      rwa [List.erase_cons_head] at this
    have hall := ih (hs.free ha hfree) hrest
    rw [freeAll, List.foldlM_cons]
    exact bind_eq_ok.mpr ⟨pma', hfree, hall⟩

/-- Along every run of the allocator the bitmap marks exactly the reserved pages and the pages
of the live allocations, which are disjoint and inside RAM; failing calls change nothing, and
freeing everything brings the initial bitmap back. -/
theorem reachable_bitmap_exact (h : Reachable initial s) :
    (∀ p < initial.allocatedPages.length, s.pma.IsAllocated p ↔
      initial.IsAllocated p ∨ ∃ a ∈ s.live, initial.pageAddress p ∈ a.range) ∧
    (s.live.map range).Pairwise Range.Disjoint ∧
    (∀ p, initial.IsAllocated p → ∀ a ∈ s.live,
      Range.Disjoint ⟨initial.pageAddress p, pageSize⟩ a.range) ∧
    (∀ a ∈ s.live, initial.memoryStart ≤ a.base ∧ a.base + a.pageCount * pageSize ≤
      initial.memoryStart + initial.allocatedPages.length * pageSize) ∧
    (∀ e pma', s.pma.alloc = .ok (.error e, pma') → pma' = s.pma) ∧
    (∀ n e pma', s.pma.allocContig n = .ok (.error e, pma') → pma' = s.pma) ∧
    (∀ n e pma', s.pma.tryAllocContig n = .ok (.error e, pma') → pma' = s.pma) ∧
    (∀ order, order.Perm s.live → s.pma.freeAll order = .ok initial) := by
  have hs := h.invariant
  exact ⟨fun p hp => hs.isAllocated_iff hp, pairwise_disjoint_of_coverage_le_one hs.coverage_le_one,
    fun p hp a ha => hs.reserved_disjoint hp ha, fun a ha => (hs.inBitmap a ha).bounds,
    fun e pma' => allocContig_error, fun n e pma' => allocContig_error,
    fun n e pma' => tryAllocContig_error, fun order => hs.freeAll_eq⟩

/-- Two pages taken behind a reserved one, and given back. -/
theorem reachable_bitmap_exact_two_pages :
    Reachable ⟨[true, false, false], 0x4000_0000⟩
      ⟨⟨[true, true, true], 0x4000_0000⟩, [⟨0x4000_1000, 2⟩]⟩ ∧
    freeAll ⟨[true, true, true], 0x4000_0000⟩ [⟨0x4000_1000, 2⟩] =
      .ok ⟨[true, false, false], 0x4000_0000⟩ := by
  have h : Reachable ⟨[true, false, false], 0x4000_0000⟩
      ⟨⟨[true, true, true], 0x4000_0000⟩, [⟨0x4000_1000, 2⟩]⟩ :=
    .single (.allocContig (n := 2) (by decide) rfl)
  exact ⟨h, (reachable_bitmap_exact h).2.2.2.2.2.2.2 _ (List.Perm.refl _)⟩

end

end PhysicalMemoryAllocator

end Kernel.Memory
