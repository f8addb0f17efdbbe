import Mathlib.Tactic
import Mathlib.Data.List.Perm.Basic

/-!
# Finite collections of address ranges

A collection of ranges is described by its coverage: how many of them contain a given address.
-/

namespace Kernel.Core

open List

/-- The addresses `start, start + 1, …, start + len - 1`. -/
structure Range where
  start : ℕ
  len : ℕ
  deriving DecidableEq, Repr

namespace Range

instance : Membership ℕ Range := ⟨fun r x => r.start ≤ x ∧ x < r.start + r.len⟩

variable {r : Range} {x : ℕ}

lemma mem_iff : x ∈ r ↔ r.start ≤ x ∧ x < r.start + r.len := Iff.rfl

instance (r : Range) (x : ℕ) : Decidable (x ∈ r) :=
  inferInstanceAs (Decidable (r.start ≤ x ∧ x < r.start + r.len))

/-- No address lies in both ranges. -/
def Disjoint (r s : Range) : Prop := ∀ x, x ∈ r → x ∉ s

/-- `1` on the range and `0` outside of it. -/
def ind (r : Range) (x : ℕ) : ℕ := if x ∈ r then 1 else 0

lemma ind_eq_one (h : x ∈ r) : r.ind x = 1 := if_pos h

lemma ind_eq_zero (h : x ∉ r) : r.ind x = 0 := if_neg h

/-- Cutting a range in two does not change what it covers. -/
lemma ind_split (a m n x : ℕ) : ind ⟨a, m + n⟩ x = ind ⟨a, m⟩ x + ind ⟨a + m, n⟩ x := by
  simp only [ind, mem_iff]
  split_ifs <;> omega

end Range

/-- The number of ranges of the collection that contain `x`. -/
def coverage (rs : List Range) (x : ℕ) : ℕ := (rs.map (·.ind x)).sum

@[simp] lemma coverage_nil (x : ℕ) : coverage [] x = 0 := rfl

@[simp] lemma coverage_cons (r : Range) (rs : List Range) (x : ℕ) :
    coverage (r :: rs) x = r.ind x + coverage rs x := by
  simp [coverage]

@[simp] lemma coverage_append (rs ss : List Range) (x : ℕ) :
    coverage (rs ++ ss) x = coverage rs x + coverage ss x := by
  simp [coverage]

variable {rs ss : List Range}

lemma coverage_perm (h : rs.Perm ss) (x : ℕ) :
    coverage rs x = coverage ss x :=
  (h.map _).sum_eq

variable {x : ℕ}

lemma coverage_congr {y : ℕ} (h : ∀ r ∈ rs, x ∈ r ↔ y ∈ r) :
    coverage rs x = coverage rs y := by
  unfold coverage
  congr 1
  exact map_congr_left fun r hr => if_congr (h r hr) rfl rfl

lemma coverage_pos_iff : 0 < coverage rs x ↔ ∃ r ∈ rs, x ∈ r := by
  induction rs with
  | nil => simp
  | cons r rs ih =>
    rw [coverage_cons, exists_mem_cons_iff, ← ih]
    by_cases h : x ∈ r
    · simp [h, Range.ind_eq_one h]
    · simp [h, Range.ind_eq_zero h]

lemma coverage_le_of_sublist (h : rs.Sublist ss) (x : ℕ) :
    coverage rs x ≤ coverage ss x :=
  (h.map _).sum_le_sum fun _ _ => Nat.zero_le _

/-- Removing the first range that is found takes away what it covers. -/
lemma coverage_map_eraseP {α : Type*} {l : List α} {p : α → Bool} {a : α} (f : α → Range)
    (h : l.find? p = some a) (x : ℕ) :
    (f a).ind x + coverage ((l.eraseP p).map f) x = coverage (l.map f) x := by
  induction l with
  | nil => cases h
  | cons b l ih =>
    cases hb : p b with
    | true =>
      rw [List.find?_cons_of_pos hb, Option.some.injEq] at h
      rw [eraseP_cons_of_pos hb, map_cons, coverage_cons, h]
    | false =>
      rw [List.find?_cons_of_neg (by simp [hb])] at h
      have hrest := ih h
      rw [eraseP_cons_of_neg (by simp [hb]), map_cons, map_cons, coverage_cons, coverage_cons]
      omega

/-- Ranges that cover no address twice are pairwise disjoint. -/
lemma pairwise_disjoint_of_coverage_le_one (h : ∀ x, coverage rs x ≤ 1) :
    rs.Pairwise Range.Disjoint := by
  induction rs with
  | nil => exact .nil
  | cons r rs ih =>
    simp only [coverage_cons] at h
    refine pairwise_cons.mpr ⟨fun s hs x hr hx => ?_, ih fun x => ?_⟩
    · have hpos := coverage_pos_iff.mpr ⟨s, hs, hx⟩
      have := h x
      rw [Range.ind_eq_one hr] at this
      omega
    · have := h x
      omega

/-- Every address of `[lo, hi)` lies in exactly one range, and no other address in any. -/
def Partitions (rs : List Range) (lo hi : ℕ) : Prop :=
  ∀ x, coverage rs x = if lo ≤ x ∧ x < hi then 1 else 0

namespace Partitions

variable {rs : List Range} {lo hi : ℕ}

lemma coverage_le_one (h : Partitions rs lo hi) (x : ℕ) : coverage rs x ≤ 1 := by
  rw [h x]
  split_ifs <;> omega

lemma pairwise_disjoint (h : Partitions rs lo hi) : rs.Pairwise Range.Disjoint :=
  pairwise_disjoint_of_coverage_le_one h.coverage_le_one

lemma exists_mem_iff (h : Partitions rs lo hi) {x : ℕ} :
    (∃ r ∈ rs, x ∈ r) ↔ lo ≤ x ∧ x < hi := by
  rw [← coverage_pos_iff, h x]
  split_ifs with hx <;> simp [hx]

/-- A non-empty range of the partition lies inside the interval. -/
lemma bounds (h : Partitions rs lo hi) {r : Range} (hr : r ∈ rs) (hlen : 0 < r.len) :
    lo ≤ r.start ∧ r.start + r.len ≤ hi := by
  have hfst : r.start ∈ r := ⟨le_refl _, by omega⟩
  have hlast : r.start + r.len - 1 ∈ r := ⟨by omega, by omega⟩
  have h₁ := h.exists_mem_iff.mp ⟨r, hr, hfst⟩
  have h₂ := h.exists_mem_iff.mp ⟨r, hr, hlast⟩
  omega

end Partitions

lemma coverage_map_singleton (l : List ℕ) (x : ℕ) : coverage (l.map (⟨·, 1⟩)) x = l.count x := by
  induction l with
  | nil => rfl
  | cons a l ih =>
    have hind : Range.ind ⟨a, 1⟩ x = if a = x then 1 else 0 :=
      if_congr (by rw [Range.mem_iff]; dsimp only; omega) rfl rfl
    rw [map_cons, coverage_cons, ih, hind, count_cons, add_comm]
    simp only [beq_iff_eq]

/-- Ranges that cover no address of an interval twice are a part of a partition. -/
lemma exists_partitions {lo hi : ℕ}
    (h : ∀ x, coverage rs x ≤ if lo ≤ x ∧ x < hi then 1 else 0) :
    ∃ ss, Partitions (rs ++ ss) lo hi := by
  refine ⟨((range hi).filter fun x => lo ≤ x ∧ coverage rs x = 0).map (⟨·, 1⟩), fun x => ?_⟩
  have hx := h x
  rw [coverage_append, coverage_map_singleton, (nodup_range.filter _).count]
  simp only [mem_filter, mem_range, decide_eq_true_eq]
  split_ifs at hx ⊢ <;> omega

end Kernel.Core
