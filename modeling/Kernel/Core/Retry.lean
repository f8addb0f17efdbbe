import Mathlib.Tactic

/-!
# Machines with spurious failures

A step may fail spuriously, as a weak compare-exchange does. A stream says which steps fail.
-/

namespace Kernel.Core

variable {σ : Type*} {step : Bool → σ → σ} {spurious : ℕ → Bool} {P Q : σ → Prop} {s s' : σ}

/-- The state after `k` steps, of which those marked in `spurious` fail spuriously. -/
def runSteps (step : Bool → σ → σ) (spurious : ℕ → Bool) : ℕ → σ → σ
  | 0, s => s
  | k + 1, s => runSteps step (fun i => spurious (i + 1)) k (step (spurious 0) s)

/-- Only finitely many steps fail spuriously. -/
def FinitelyOften (spurious : ℕ → Bool) : Prop := ∃ N, ∀ n ≥ N, spurious n = false

/-- The machine gets into a state of `P`, whatever the spurious failures. -/
def Settles (step : Bool → σ → σ) (P : σ → Prop) (s : σ) : Prop :=
  ∀ spurious, FinitelyOften spurious → ∃ k, P (runSteps step spurious k s)

lemma FinitelyOften.shift (h : FinitelyOften spurious) :
    FinitelyOften fun i => spurious (i + 1) := by
  obtain ⟨N, hN⟩ := h
  exact ⟨N, fun n hn => hN (n + 1) (by omega)⟩

lemma Settles.of_mem (h : P s) : Settles step P s := fun _ _ => ⟨0, h⟩

lemma Settles.mono (h : Settles step P s) (hPQ : ∀ s, P s → Q s) : Settles step Q s := by
  intro spurious hfin
  obtain ⟨k, hk⟩ := h spurious hfin
  exact ⟨k, hPQ _ hk⟩

/-- One step, which may fail or not. -/
lemma Settles.next (h : ∀ b, Settles step P (step b s)) : Settles step P s := by
  intro spurious hfin
  obtain ⟨k, hk⟩ := h (spurious 0) _ hfin.shift
  exact ⟨k + 1, hk⟩

/-- One step that does not depend on the spurious failures. -/
lemma Settles.of_step (s' : σ) (h : ∀ b, step b s = s') (hset : Settles step P s') :
    Settles step P s := .next fun b => by rwa [h]

/-- A loop around a step that may fail spuriously: it is repeated until it succeeds. -/
lemma Settles.retry (hsuc : Settles step P (step false s))
    (hback : ∀ b, step b (step true s) = s) : Settles step P s := by
  rintro spurious ⟨N, hN⟩
  -- two steps later the same state is reached with two failures less to come
  induction N using Nat.strong_induction_on generalizing spurious with
  | h N ih =>
    cases hfst : spurious 0 with
    | false =>
      obtain ⟨k, hk⟩ := hsuc _ (FinitelyOften.shift ⟨N, hN⟩)
      exact ⟨k + 1, by rwa [runSteps, hfst]⟩
    | true =>
      have hpos : 0 < N := by
        by_contra h0
        have := hN 0 (by omega)
        simp_all
      obtain ⟨k, hk⟩ := ih (N - 1) (by omega) (fun i => spurious (i + 2))
        fun n hn => hN (n + 2) (by omega)
      refine ⟨k + 2, ?_⟩
      rw [runSteps, hfst, runSteps, hback]
      exact hk

/-- A set of states that the machine does not leave has to meet `P` if the machine settles. -/
lemma not_settles (S : σ → Prop) (hs : S s) (hstep : ∀ s, S s → S (step false s))
    (hP : ∀ s, S s → ¬ P s) : ¬ Settles step P s := by
  intro h
  obtain ⟨k, hk⟩ := h (fun _ => false) ⟨0, fun _ _ => rfl⟩
  have hrun : ∀ k s, S s → S (runSteps step (fun _ => false) k s) := by
    intro k
    induction k with
    | zero => exact fun s hs => hs
    | succ k ih => exact fun s hs => ih _ (hstep s hs)
  exact hP _ (hrun k s hs) hk

lemma runSteps_add (j k : ℕ) (s : σ) : runSteps step spurious (j + k) s =
    runSteps step (fun i => spurious (i + j)) k (runSteps step spurious j s) := by
  induction j generalizing spurious s with
  | zero => simp [runSteps]
  | succ j ih =>
    rw [add_right_comm, runSteps, ih, runSteps]
    simp only [add_assoc]

lemma runSteps_of_fixed (h : ∀ b, step b s = s) (k : ℕ) : runSteps step spurious k s = s := by
  induction k generalizing spurious with
  | zero => rfl
  | succ k ih => rw [runSteps, h, ih]

/-- A run does not visit two different states that the machine stops in. -/
lemma runSteps_unique (hs : ∀ b, step b s = s) (hs' : ∀ b, step b s' = s') {s₀ : σ} {j k : ℕ}
    (hj : runSteps step spurious j s₀ = s) (hk : runSteps step spurious k s₀ = s') : s = s' := by
  rcases le_total j k with hle | hle
  · obtain ⟨d, rfl⟩ := Nat.exists_eq_add_of_le hle
    rw [runSteps_add, hj, runSteps_of_fixed hs] at hk
    exact hk
  · obtain ⟨d, rfl⟩ := Nat.exists_eq_add_of_le hle
    rw [runSteps_add, hk, runSteps_of_fixed hs'] at hj
    exact hj.symm

end Kernel.Core
