import Mathlib.Tactic

/-!
# Runs of calls

A call returns a result and the new state, or the run ends with it. The latest event of a run is the
first one of its list.
-/

namespace Kernel.Core

open List

/-- A call that has returned. -/
structure Event (σ κ ρ : Type) where
  call : κ
  result : ρ
  before : σ
  after : σ

variable {σ κ ρ : Type}

/-- The events of a run from `s₀` and the state at its end. -/
inductive Run (step : κ → σ → Option (ρ × σ)) (s₀ : σ) : List (Event σ κ ρ) → σ → Prop where
  | nil : Run step s₀ [] s₀
  | call {events s c r s'} (h : Run step s₀ events s) (hstep : step c s = some (r, s')) :
      Run step s₀ (⟨c, r, s, s'⟩ :: events) s'

variable {step : κ → σ → Option (ρ × σ)} {s₀ s : σ} {events : List (Event σ κ ρ)}
  {I : σ → Prop} {A P : Event σ κ ρ → Prop}

/-- What admissible events keep holds at the end of every run of admissible events. -/
lemma Run.invariant (h : Run step s₀ events s) (hinit : I s₀)
    (hkeep : ∀ c s r s', I s → step c s = some (r, s') → A ⟨c, r, s, s'⟩ → I s')
    (hok : ∀ e ∈ events, A e) : I s := by
  induction h with
  | nil => exact hinit
  | call _ hstep ih =>
    obtain ⟨hlast, hbef⟩ := forall_mem_cons.mp hok
    exact hkeep _ _ _ _ (ih hbef) hstep hlast

/-- Among the runs whose events are all in `D`, `P` holds for every event exactly if every event is
admissible. -/
lemma Run.forall_iff_of {D : Event σ κ ρ → Prop} (h : Run step s₀ events s)
    (hD : ∀ e ∈ events, D e) (hinit : I s₀)
    (hkeep : ∀ c s r s', I s → step c s = some (r, s') → D ⟨c, r, s, s'⟩ → A ⟨c, r, s, s'⟩ → I s')
    (hiff : ∀ c s r s', I s → step c s = some (r, s') → D ⟨c, r, s, s'⟩ →
      (P ⟨c, r, s, s'⟩ ↔ A ⟨c, r, s, s'⟩)) :
    (∀ e ∈ events, P e) ↔ ∀ e ∈ events, A e := by
  induction h with
  | nil => exact ⟨fun _ _ => nofun, fun _ _ => nofun⟩
  | call hrun hstep ih =>
    obtain ⟨hlast, hD⟩ := forall_mem_cons.mp hD
    rw [forall_mem_cons, forall_mem_cons, ih hD]
    refine and_congr_left fun hbef => ?_
    refine hiff _ _ _ _ ?_ hstep hlast
    exact hrun.invariant (A := fun e => D e ∧ A e) hinit
      (fun c s r s' hs hstep hok => hkeep c s r s' hs hstep hok.1 hok.2)
      fun e he => ⟨hD e he, hbef e he⟩

/-- `P` holds for every event exactly if every event is admissible. -/
lemma Run.forall_iff (h : Run step s₀ events s) (hinit : I s₀)
    (hkeep : ∀ c s r s', I s → step c s = some (r, s') → A ⟨c, r, s, s'⟩ → I s')
    (hiff : ∀ c s r s', I s → step c s = some (r, s') → (P ⟨c, r, s, s'⟩ ↔ A ⟨c, r, s, s'⟩)) :
    (∀ e ∈ events, P e) ↔ ∀ e ∈ events, A e :=
  h.forall_iff_of (D := fun _ => True) (fun _ _ => trivial) hinit
    (fun c s r s' hs hstep _ => hkeep c s r s' hs hstep)
    fun c s r s' hs hstep _ => hiff c s r s' hs hstep

/-- A run goes on with another one. -/
lemma Run.append {s' : σ} {events' : List (Event σ κ ρ)} (h : Run step s₀ events s)
    (h' : Run step s events' s') : Run step s₀ (events' ++ events) s' := by
  induction h' with
  | nil => exact h
  | call _ hstep ih => exact .call ih hstep

/-- The events of some calls and the state after them, if they all return. -/
def execute (step : κ → σ → Option (ρ × σ)) (s₀ : σ) :
    List κ → Option (List (Event σ κ ρ) × σ)
  | [] => some ([], s₀)
  | c :: calls =>
    (execute step s₀ calls).bind fun (events, s) =>
      (step c s).map fun (r, s') => (⟨c, r, s, s'⟩ :: events, s')

/-- The calls that are executed, the latest one first, make a run. -/
lemma Run.of_execute {calls : List κ} (h : execute step s₀ calls = some (events, s)) :
    Run step s₀ events s := by
  induction calls generalizing events s with
  | nil =>
    cases h
    exact .nil
  | cons c calls ih =>
    simp only [execute, Option.bind_eq_some_iff, Option.map_eq_some_iff, Prod.exists] at h
    obtain ⟨events, s, hbef, r, s', hstep, heq⟩ := h
    cases heq
    exact .call (ih hbef) hstep

/-- A run of given calls and what can be seen by executing them. -/
lemma Run.exists_of_execute (step : κ → σ → Option (ρ × σ)) (s₀ : σ) (calls : List κ)
    {Q : List (Event σ κ ρ) → σ → Prop} (h : ∃ x ∈ execute step s₀ calls, Q x.1 x.2) :
    ∃ events s, Run step s₀ events s ∧ Q events s := by
  obtain ⟨⟨events, s⟩, hx, hQ⟩ := h
  exact ⟨events, s, .of_execute hx, hQ⟩

/-! ### What a run has returned -/

/-- What `f` sees of the results of a run, the oldest one first. -/
def history {α : Type} (f : ρ → Option α) (events : List (Event σ κ ρ)) : List α :=
  (events.filterMap fun e => f e.result).reverse

section history

variable {α : Type} {f : ρ → Option α} {e : Event σ κ ρ} {a : α}

lemma history_cons : history f (e :: events) = history f events ++ (f e.result).toList := by
  cases h : f e.result <;> simp [history, h]

lemma history_cons_some (h : f e.result = some a) :
    history f (e :: events) = history f events ++ [a] := by
  simp [history, h]

lemma history_cons_none (h : f e.result = none) : history f (e :: events) = history f events := by
  simp [history, h]

lemma mem_history_cons :
    a ∈ history f (e :: events) ↔ f e.result = some a ∨ a ∈ history f events := by
  rw [history_cons, mem_append, Option.mem_toList, or_comm]

lemma mem_history : a ∈ history f events ↔ ∃ e ∈ events, f e.result = some a := by
  rw [history, mem_reverse, mem_filterMap]

end history

end Kernel.Core
