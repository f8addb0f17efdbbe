import Mathlib.Tactic
import Mathlib.Logic.Function.Basic

/-!
# Rings

A ring has `n` slots. The entries written to it are numbered from 0 on, and entry number `k` goes to
slot `k % n`.
-/

namespace Kernel.Core

open Function Nat

variable {α : Type*} {n k a b : ℕ}

/-! ### Positions -/

/-- The tag of entry number `k`: it is set on the first pass and inverted on every wrap. -/
def pass (n k : ℕ) : Bool := k / n % 2 = 0

/-- Two entries with one slot are at least a whole pass apart. -/
lemma eq_of_slot_eq (h : a % n = b % n) (hle : a ≤ b) (hlt : b < a + n) : a = b := by
  obtain ⟨c, rfl⟩ := Nat.exists_eq_add_of_le hle
  have hdvd : n ∣ c := by
    have hmod : a + 0 ≡ a + c [MOD n] := h
    exact (modEq_zero_iff_dvd).mp (Nat.ModEq.add_left_cancel' a hmod).symm
  have hzero := eq_zero_of_dvd_of_lt hdvd (by omega)
  omega

/-- The slot behind the last one is the first one. -/
lemma slot_succ (hn : 0 < n) (k : ℕ) :
    (k + 1) % n = if n ≤ k % n + 1 then 0 else k % n + 1 := by
  have hlt := mod_lt k hn
  rw [add_mod]
  split_ifs with hwrap
  · have hlast : k % n + 1 = n := by omega
    rcases lt_or_ge 1 n with h | h
    · rw [mod_eq_of_lt h, hlast, mod_self]
    · obtain rfl : n = 1 := by omega
      exact mod_one _
  · rw [mod_eq_of_lt (a := 1) (by omega), mod_eq_of_lt (by omega)]

/-- The tag is inverted where the slot goes back to the first one. -/
lemma pass_succ (hn : 0 < n) (k : ℕ) :
    pass n (k + 1) = if n ≤ k % n + 1 then !pass n k else pass n k := by
  have hlt := mod_lt k hn
  have hdiv : (k + 1) / n = if n ≤ k % n + 1 then k / n + 1 else k / n := by
    rw [Nat.succ_div]
    by_cases hdvd : n ∣ k + 1
    · have hmod : (k + 1) % n = 0 := mod_eq_zero_of_dvd hdvd
      rw [slot_succ hn] at hmod
      split_ifs at hmod ⊢ with hwrap
      rfl
    · have hmod : (k + 1) % n ≠ 0 := fun hzero => hdvd (dvd_of_mod_eq_zero hzero)
      rw [slot_succ hn] at hmod
      split_ifs at hmod ⊢ with hwrap
      · exact absurd rfl hmod
      · rfl
  rw [pass, hdiv]
  split_ifs with hwrap
  · rw [pass, ← decide_not, decide_eq_decide]
    omega
  · rfl

/-- One pass later the tag is the other one. -/
lemma pass_add_self (hn : 0 < n) (k : ℕ) : pass n (k + n) = !pass n k := by
  rw [pass, pass, add_div_right k hn, ← decide_not, decide_eq_decide]
  omega

lemma pass_of_lt (h : k < n) : pass n k = true := by
  rw [pass, div_eq_of_lt h]
  rfl

/-! ### Contents -/

/-- The ring holds the entries of `l` from number `a` on. -/
def Stored (n : ℕ) (memory : ℕ → α) (l : List α) (a : ℕ) : Prop :=
  ∀ k x, a ≤ k → l[k]? = some x → memory (k % n) = x

variable {memory : ℕ → α} {l : List α} {x : α}

lemma Stored.mono (h : Stored n memory l a) (hle : a ≤ b) : Stored n memory l b :=
  fun k x hk hx => h k x (hle.trans hk) hx

/-- The slot of the next entry can be written while the ring has room. -/
lemma Stored.write (h : Stored n memory l a) (hlt : l.length < a + n) (x : α) :
    Stored n (update memory (l.length % n) x) l a := by
  intro k y hk hy
  have hlen := (List.getElem?_eq_some_iff.mp hy).1
  rw [update_of_ne]
  · exact h k y hk hy
  · intro hslot
    have heq := eq_of_slot_eq hslot hlen.le (by omega)
    omega

/-- An entry that is in its slot belongs to the contents. -/
lemma Stored.append (h : Stored n memory l a) (hx : memory (l.length % n) = x) :
    Stored n memory (l ++ [x]) a := by
  intro k y hk hy
  rcases lt_or_ge k l.length with hlt | hge
  · rw [List.getElem?_append_left hlt] at hy
    exact h k y hk hy
  · rw [List.getElem?_append_right hge, List.getElem?_singleton] at hy
    split_ifs at hy with hzero
    cases hy
    have hlast : k = l.length := by omega
    rw [hlast, hx]

/-- An entry is written behind the others. -/
lemma Stored.push (h : Stored n memory l a) (hlt : l.length < a + n) (x : α) :
    Stored n (update memory (l.length % n) x) (l ++ [x]) a :=
  (h.write hlt x).append (update_self _ _ _)

end Kernel.Core
