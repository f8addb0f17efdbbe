import Kernel.Core.Runs
import Kernel.Kapi.Commands

/-!
# Exit states

An `ExitState` publishes the exit code of a thread or a process, once, and wakes the futures that
wait for it.
-/

namespace Kernel.Process

open Core Kapi List

structure ExitState where
  code : Option ThreadExit
  wakers : List ℕ
  deriving DecidableEq

namespace ExitState

def new : ExitState := ⟨none, []⟩

def callOnce (val : ThreadExit) (s : ExitState) : ExitState :=
  { s with code := some (s.code.getD val) }

def drain (s : ExitState) : List ℕ × ExitState := (s.wakers, { s with wakers := [] })

def push (waker : ℕ) (s : ExitState) : ExitState := { s with wakers := s.wakers ++ [waker] }

def set (val : ThreadExit) (s : ExitState) : List ℕ × ExitState := (s.callOnce val).drain

lemma code_set (val : ThreadExit) (s : ExitState) :
    (s.set val).2.code = some (s.code.getD val) := rfl

end ExitState

/-! ### Futures and calls of `set` in flight -/

structure ExitWatch where
  state : ExitState
  polls : List ℕ
  sets : ℕ
  deriving DecidableEq

open ExitWatch

inductive ExitAct where
  | readCode (future : ℕ)
  | pushWaker (future : ℕ)
  | storeCode (val : ThreadExit)
  | drainWakers
  deriving DecidableEq

inductive ExitOutcome where
  | ready (val : ThreadExit)
  | unset
  | pending (future : ℕ)
  | stored
  | woken (futures : List ℕ)
  deriving DecidableEq

def ExitOutcome.registered? : ExitOutcome → Option ℕ
  | .pending future => some future
  | .ready _ | .unset | .stored | .woken _ => none

def ExitOutcome.woken? : ExitOutcome → Option (List ℕ)
  | .woken futures => some futures
  | .ready _ | .unset | .stored | .pending _ => none

namespace ExitWatch

def new : ExitWatch := ⟨.new, [], 0⟩

def step : ExitAct → ExitWatch → Option (ExitOutcome × ExitWatch)
  | .readCode future, s =>
    match s.state.code with
    | some c => some (.ready c, s)
    | none => some (.unset, { s with polls := future :: s.polls })
  | .pushWaker future, s =>
    if future ∈ s.polls then
      some (.pending future, { s with state := s.state.push future, polls := s.polls.erase future })
    else none
  | .storeCode val, s =>
    some (.stored, { s with state := s.state.callOnce val, sets := s.sets + 1 })
  | .drainWakers, s =>
    if 0 < s.sets then
      some (.woken s.state.drain.1, { s with state := s.state.drain.2, sets := s.sets - 1 })
    else none

end ExitWatch

abbrev ExitEvent := Core.Event ExitWatch ExitAct ExitOutcome

def registeredIn (events : List ExitEvent) : List ℕ := history ExitOutcome.registered? events

def wokenIn (events : List ExitEvent) : List ℕ := (history ExitOutcome.woken? events).flatten

def Late (e : ExitEvent) : Prop :=
  (∃ future, e.call = .pushWaker future) ∧ e.before.state.code.isSome ∧ e.before.sets = 0

instance : DecidablePred Late
  | ⟨.pushWaker future, _, s, _⟩ =>
    decidable_of_iff (s.state.code.isSome ∧ s.sets = 0) ⟨fun h => ⟨⟨future, rfl⟩, h⟩, fun h => h.2⟩
  | ⟨.readCode _, _, _, _⟩ | ⟨.storeCode _, _, _, _⟩ | ⟨.drainWakers, _, _, _⟩ => .isFalse nofun

def RegisteredLate (events : List ExitEvent) : Prop :=
  ∃ e ∈ events.takeWhile fun e => decide (e.call ≠ .drainWakers), Late e

instance (events : List ExitEvent) : Decidable (RegisteredLate events) :=
  inferInstanceAs (Decidable (∃ e ∈ events.takeWhile _, Late e))

section

variable {e : ExitEvent} {events : List ExitEvent} {s : ExitWatch}

lemma registeredLate_cons_drain (he : e.call = .drainWakers) : ¬ RegisteredLate (e :: events) := by
  rintro ⟨e', he', -⟩
  rw [takeWhile_cons_of_neg (by simp [he])] at he'
  cases he'

lemma registeredLate_cons (he : e.call ≠ .drainWakers) :
    RegisteredLate (e :: events) ↔ Late e ∨ RegisteredLate events := by
  rw [RegisteredLate, takeWhile_cons_of_pos (by simpa using he)]
  simp only [mem_cons, exists_eq_or_imp]
  rfl

lemma registeredLate_cons_other (he : e.call ≠ .drainWakers)
    (hpush : ∀ future, e.call ≠ .pushWaker future) :
    RegisteredLate (e :: events) ↔ RegisteredLate events := by
  rw [registeredLate_cons he]
  exact or_iff_right fun ⟨⟨future, hcall⟩, _⟩ => hpush future hcall

lemma registeredIn_eq (hrun : Core.Run step .new events s) :
    registeredIn events = wokenIn events ++ s.state.wakers := by
  induction hrun with
  | nil => rfl
  | @call events s a o s' _ hstep ih =>
    rw [registeredIn, wokenIn] at ih ⊢
    cases a with
    | readCode future =>
      rw [step] at hstep
      split at hstep <;> cases hstep <;> exact ih
    | pushWaker future =>
      rw [step] at hstep
      split_ifs at hstep
      cases hstep
      rw [history_cons_some (a := future) rfl, history_cons_none rfl, ih, append_assoc]
      rfl
    | storeCode val =>
      cases hstep
      exact ih
    | drainWakers =>
      rw [step] at hstep
      split_ifs at hstep
      cases hstep
      rw [history_cons_none rfl, history_cons_some (a := s.state.wakers) rfl, ih, flatten_append]
      simp [ExitState.drain]

lemma wakers_ne_nil_of_registeredLate (hrun : Core.Run step .new events s)
    (hlate : RegisteredLate events) : s.state.wakers ≠ [] := by
  induction hrun with
  | nil =>
    obtain ⟨e, he, -⟩ := hlate
    cases he
  | @call events s a o s' _ hstep ih =>
    cases a with
    | readCode future =>
      rw [registeredLate_cons_other (e := ⟨.readCode future, o, s, s'⟩) nofun nofun] at hlate
      rw [step] at hstep
      split at hstep <;> cases hstep <;> exact ih hlate
    | pushWaker future =>
      rw [step] at hstep
      split_ifs at hstep
      cases hstep
      exact append_ne_nil_of_right_ne_nil _ (cons_ne_nil _ _)
    | storeCode val =>
      rw [registeredLate_cons_other (e := ⟨.storeCode val, o, s, s'⟩) nofun nofun] at hlate
      cases hstep
      exact ih hlate
    | drainWakers => exact absurd hlate (registeredLate_cons_drain rfl)

lemma registeredLate_of_wakers_ne_nil (hrun : Core.Run step .new events s)
    (hcode : s.state.code.isSome) (hsets : s.sets = 0) (hwks : s.state.wakers ≠ []) :
    RegisteredLate events := by
  induction hrun with
  | nil => cases hcode
  | @call events s a o s' _ hstep ih =>
    cases a with
    | readCode future =>
      rw [registeredLate_cons_other (e := ⟨.readCode future, o, s, s'⟩) nofun nofun]
      rw [step] at hstep
      split at hstep <;> cases hstep <;> exact ih hcode hsets hwks
    | pushWaker future =>
      rw [step] at hstep
      split_ifs at hstep
      cases hstep
      rw [registeredLate_cons (e := ⟨.pushWaker future, _, s, _⟩) nofun]
      exact .inl ⟨⟨future, rfl⟩, hcode, hsets⟩
    | storeCode val =>
      cases hstep
      exact absurd hsets (Nat.succ_ne_zero _)
    | drainWakers =>
      rw [step] at hstep
      split_ifs at hstep
      cases hstep
      exact absurd rfl hwks

/-- Once the code is set and every call of `set` has returned, the list of wakers is empty and
everything that was registered has been woken, exactly if no waker has been registered late since
the wakers were drained. -/
theorem woken_iff_not_registeredLate (hrun : Core.Run step .new events s)
    (hcode : s.state.code.isSome) (hsets : s.sets = 0) :
    (s.state.wakers = [] ∧ wokenIn events = registeredIn events) ↔ ¬ RegisteredLate events := by
  constructor
  · rintro ⟨hwks, -⟩ hlate
    exact wakers_ne_nil_of_registeredLate hrun hlate hwks
  · intro hlate
    have hwks : s.state.wakers = [] := by
      by_contra hne
      exact hlate (registeredLate_of_wakers_ne_nil hrun hcode hsets hne)
    refine ⟨hwks, ?_⟩
    rw [registeredIn_eq hrun, hwks, append_nil]

end

theorem woken_iff_not_registeredLate_two :
    ∃ events s, Core.Run step .new events s ∧ registeredIn events = [0, 1] ∧
      s.state.wakers = [] ∧ wokenIn events = registeredIn events := by
  obtain ⟨events, s, hrun, hreg, hcode, hsets, hlate⟩ := Run.exists_of_execute
    step .new [.drainWakers, .pushWaker 1, .storeCode .killed, .pushWaker 0,
      .readCode 1, .readCode 0]
    (Q := fun events s => registeredIn events = [0, 1] ∧ s.state.code.isSome ∧ s.sets = 0 ∧
      ¬ RegisteredLate events) (by decide +kernel)
  exact ⟨events, s, hrun, hreg, (woken_iff_not_registeredLate hrun hcode hsets).mpr hlate⟩

/-- The code is set and the wakers are drained between the two steps of a poll: the future returns
`Pending`, and nothing will wake it. -/
theorem registered_never_woken :
    ∃ events s, Core.Run step .new events s ∧ s.state.code = some (.normal 7) ∧
      s.sets = 0 ∧ s.polls = [] ∧ s.state.wakers = [0] ∧ registeredIn events = [0] ∧
      wokenIn events = [] :=
  Run.exists_of_execute step .new
    [.pushWaker 0, .drainWakers, .storeCode (.normal 7), .readCode 0]
    (Q := fun events s => s.state.code = some (.normal 7) ∧ s.sets = 0 ∧ s.polls = [] ∧
      s.state.wakers = [0] ∧ registeredIn events = [0] ∧ wokenIn events = []) (by decide +kernel)

end Kernel.Process
