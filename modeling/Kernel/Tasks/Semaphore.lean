import Mathlib.Logic.Function.Basic
import Mathlib.Tactic

/-!
# Semaphores for tasks and threads

A semaphore is a counter and a queue of wakers.
-/

namespace Kernel.Tasks

open Function

inductive WaitKind where
  | task
  | thread
  | attempt
  deriving DecidableEq

inductive SemaphoreWaker where
  | task (t : ℕ)
  | thread (t : ℕ)
  deriving DecidableEq

structure Semaphore where
  count : ℕ
  wakerQueue : List SemaphoreWaker
  woken : ℕ → Bool

inductive Waiting where
  | load
  | compareExchange (count : ℕ) (pos : 0 < count)
  | push
  | pending

inductive WaitResult where
  | waiting (w : Waiting)
  | acquired
  | failed

inductive Signalling where
  | fetchAdd
  | pop
  | wake (w : SemaphoreWaker)

def WaitResult.permits : WaitResult → ℕ
  | .acquired => 1
  | _ => 0

def Signalling.permits : Signalling → ℕ
  | .fetchAdd => 1
  | _ => 0

namespace Semaphore

def new (count : ℕ) : Semaphore := ⟨count, [], fun _ => false⟩

def loaded (kind : WaitKind) (count : ℕ) : WaitResult :=
  if h : count = 0 then
    match kind with
    | .attempt => .failed
    | .task | .thread => .waiting .push
  else .waiting (.compareExchange count (Nat.pos_of_ne_zero h))

def waitStep (kind : WaitKind) (t : ℕ) (s : Semaphore) : Waiting → Semaphore × WaitResult
  | .load => (s, loaded kind s.count)
  | .compareExchange count _ =>
    if s.count = count then ({ s with count := count - 1 }, .acquired)
    else
      match kind with
      | .attempt => (s, .failed)
      | .task | .thread => (s, loaded kind s.count)
  | .push =>
    let waker :=
      match kind with
      | .thread => SemaphoreWaker.thread t
      | .task | .attempt => .task t
    ({ s with wakerQueue := s.wakerQueue ++ [waker], woken := update s.woken t false },
      .waiting .pending)
  | .pending =>
    match kind with
    | .thread => (s, .waiting (if s.woken t then .load else .pending))
    | .task | .attempt => (s, .waiting .load)

def signalStep (s : Semaphore) : Signalling → Semaphore × Option Signalling
  | .fetchAdd => ({ s with count := (s.count + 1) % 2 ^ 64 }, some .pop)
  | .pop =>
    match s.wakerQueue with
    | [] => (s, none)
    | waker :: rest => ({ s with wakerQueue := rest }, some (.wake waker))
  | .wake (.task t) | .wake (.thread t) =>
    ({ s with woken := update s.woken t true }, none)

variable {kind : WaitKind} {t : ℕ} {s : Semaphore} {w : Waiting}

lemma permits_loaded (kind : WaitKind) (count : ℕ) : (loaded kind count).permits = 0 := by
  unfold loaded
  split
  · cases kind <;> rfl
  · rfl

lemma waitStep_permits (kind : WaitKind) (t : ℕ) (s : Semaphore) (w : Waiting) :
    (s.waitStep kind t w).1.count + (s.waitStep kind t w).2.permits = s.count := by
  cases w with
  | load => simp [waitStep, permits_loaded]
  | compareExchange count pos =>
    simp only [waitStep]
    split_ifs with heq
    · simp only [WaitResult.permits]
      omega
    · cases kind with
      | task | thread => rw [permits_loaded, add_zero]
      | attempt => rfl
  | push => simp [waitStep, WaitResult.permits]
  | pending => cases kind <;> simp [waitStep, WaitResult.permits]

lemma waitStep_failed (h : (s.waitStep kind t w).2 = .failed) : kind = .attempt := by
  cases kind with
  | attempt => rfl
  | task | thread => cases w <;> simp [waitStep, loaded] at h <;> split_ifs at h

lemma signalStep_permits {p : Signalling} (h : s.count + p.permits < 2 ^ 64) :
    (s.signalStep p).1.count + (s.signalStep p).2.elim 0 Signalling.permits =
      s.count + p.permits := by
  cases p with
  | fetchAdd =>
    simp only [signalStep, Signalling.permits, Option.elim] at h ⊢
    exact Nat.mod_eq_of_lt h
  | pop =>
    simp only [signalStep]
    split <;> simp [Signalling.permits]
  | wake w => cases w <;> simp [signalStep, Signalling.permits]

end Semaphore

end Kernel.Tasks
