import Mathlib.Tactic

/-!
# Checked machine arithmetic

An operation on machine words that the compiler checks returns its exact result or panics.
-/

namespace Kernel.Core

/-- Reasons for which a call stops the machine instead of returning. -/
inductive Panic where
  | overflow
  | assertion
  | outOfBounds
  | unwrap
  | todo
  | explicit
  deriving DecidableEq, Repr

/-- A checked computation: it returns a value or it panics. -/
abbrev Checked := Except Panic

def checkedAdd (a b : ℕ) : Checked ℕ :=
  if a + b < 2 ^ 64 then .ok (a + b) else .error .overflow

def checkedSub (a b : ℕ) : Checked ℕ :=
  if b ≤ a then .ok (a - b) else .error .overflow

def checkedMul (a b : ℕ) : Checked ℕ :=
  if a * b < 2 ^ 64 then .ok (a * b) else .error .overflow

/-- Checked addition on 16-bit words. -/
def checkedAdd16 (a b : ℕ) : Checked ℕ :=
  if a + b < 2 ^ 16 then .ok (a + b) else .error .overflow

def wrappingAdd (a b : ℕ) : ℕ := (a + b) % 2 ^ 64

/-- Checked addition on 64-bit words. -/
def checkedAddWord (a b : BitVec 64) : Checked (BitVec 64) :=
  if a.toNat + b.toNat < 2 ^ 64 then .ok (a + b) else .error .overflow

/-- `assert!`. -/
def assert (p : Prop) [Decidable p] : Checked Unit :=
  if p then .ok () else .error .assertion

variable {p : Prop}

/-- A computation guarded by `p` returns exactly when `p` holds. -/
lemma ite_eq_ok {α : Type*} [Decidable p] {a c : α} {e : Panic} :
    (if p then .ok a else .error e : Checked α) = .ok c ↔ p ∧ c = a := by
  by_cases h : p
  · rw [if_pos h, Except.ok.injEq, eq_comm]
    exact ⟨fun hc => ⟨h, hc⟩, And.right⟩
  · rw [if_neg h]
    exact ⟨nofun, fun hc => absurd hc.1 h⟩

variable {a b c : ℕ}

@[simp] lemma checkedAdd_eq_ok :
    checkedAdd a b = .ok c ↔ a + b < 2 ^ 64 ∧ c = a + b := ite_eq_ok

@[simp] lemma checkedSub_eq_ok :
    checkedSub a b = .ok c ↔ b ≤ a ∧ c = a - b := ite_eq_ok

@[simp] lemma checkedMul_eq_ok :
    checkedMul a b = .ok c ↔ a * b < 2 ^ 64 ∧ c = a * b := ite_eq_ok

@[simp] lemma checkedAdd16_eq_ok :
    checkedAdd16 a b = .ok c ↔ a + b < 2 ^ 16 ∧ c = a + b := ite_eq_ok

lemma checkedAddWord_eq_ok {a b c : BitVec 64} :
    checkedAddWord a b = .ok c ↔ a.toNat + b.toNat < 2 ^ 64 ∧ c = a + b := ite_eq_ok

@[simp] lemma assert_eq_ok [Decidable p] {u : Unit} :
    assert p = .ok u ↔ p := by
  rw [assert, ite_eq_ok]
  exact and_iff_left rfl

lemma wrappingAdd_of_lt (h : a + b < 2 ^ 64) : wrappingAdd a b = a + b :=
  Nat.mod_eq_of_lt h

variable {α β : Type}

/-- A checked sequence returns exactly when both of its parts do. -/
lemma bind_eq_ok {x : Checked α} {f : α → Checked β} {b : β} :
    (x >>= f) = .ok b ↔ ∃ a, x = .ok a ∧ f a = .ok b := by
  cases x with
  | error e => exact ⟨nofun, nofun⟩
  | ok a =>
    constructor
    · intro h
      exact ⟨a, rfl, h⟩
    · rintro ⟨a', ha, h⟩
      cases ha
      exact h

/-- The first part of a sequence returns. -/
lemma checked_bind_of_ok {x : Checked α} {f : α → Checked β} {a : α}
    (h : x = .ok a) : (x >>= f) = f a := by
  rw [h]
  rfl

/-- What every round of a loop keeps, the loop keeps. -/
lemma foldlM_invariant {f : β → α → Checked β} {l : List α} {b b' : β}
    (I : β → Prop) (hstep : ∀ a ∈ l, ∀ b b', I b → f b a = .ok b' → I b') (hb : I b)
    (h : l.foldlM f b = .ok b') : I b' := by
  induction l generalizing b with
  | nil =>
    cases h
    exact hb
  | cons a l ih =>
    rw [List.foldlM_cons, bind_eq_ok] at h
    obtain ⟨b₁, hb₁, hrest⟩ := h
    exact ih (fun a' ha' => hstep a' (.tail _ ha')) (hstep a List.mem_cons_self b b₁ hb hb₁) hrest

end Kernel.Core
