import Kernel.Process.Thread.Basic

/-!
# The threads across exceptions

The machine executes one thread at a time.
-/

namespace Kernel.Process

open Core Function

structure Machine where
  cpu : Cpu
  threads : ThreadObjects
  table : List ThreadRef
  scheduler : ThreadScheduler

inductive ThreadOp where
  | scheduleNextThread
  | makeTaskExecutorCurrent
  | addThread (thread : ThreadRef)
  | removeThread (thread : ThreadRef)
  | setState (thread : ThreadRef) (new : ThreadState)
  | register (thread : ThreadRef)
  | unregister (tid : ThreadId)
  | writeRegisters (registers : Registers)

namespace Machine

def perform (m : Machine) : ThreadOp → Checked Machine
  | .scheduleNextThread => do
    let scheduler ← m.scheduler.scheduleNextThread m.threads
    pure { m with scheduler }
  | .makeTaskExecutorCurrent =>
    match threadForId m.threads m.table taskThread with
    | none => .error .unwrap
    | some t => pure { m with scheduler.currentThread := t }
  | .addThread t => pure { m with scheduler := m.scheduler.addThread m.threads t }
  | .removeThread t => do
    let scheduler ← m.scheduler.removeThread m.threads t
    pure { m with scheduler }
  | .setState t new =>
    pure { m with threads := update m.threads t { m.threads t with state := new } }
  | .register t => pure { m with table := t :: m.table }
  | .unregister tid =>
    pure { m with table := m.table.eraseP fun t => (m.threads t).id = tid }
  | .writeRegisters registers => pure { m with cpu.registers := registers }

def performAll : List ThreadOp → Machine → Checked Machine
  | [], m => pure m
  | op :: ops, m => do performAll ops (← m.perform op)

def pauseCurrentThread (m : Machine) : Machine :=
  let t := m.scheduler.currentThread
  { m with threads :=
      update m.threads t { m.threads t with execState := .save m.cpu } }

def resumeCurrentThread (m : Machine) : Machine :=
  { m with cpu := (m.threads m.scheduler.currentThread).execState.restore }

def exception (ops : List ThreadOp) (m : Machine) : Checked Machine := do
  pure (← performAll ops m.pauseCurrentThread).resumeCurrentThread

def TaskOp (m : Machine) : ThreadOp → Prop
  | .removeThread t => (m.threads t).id ≠ (m.threads m.scheduler.currentThread).id
  | .addThread _ | .setState _ _ | .register _ | .unregister _ => True
  | .scheduleNextThread | .makeTaskExecutorCurrent | .writeRegisters _ => False

end Machine

/-! ### Histories -/

inductive Event where
  | exception (cpu : Cpu)
  | resumed (thread : ThreadRef) (cpu : Cpu)

def executing (first : ThreadRef) : List Event → ThreadRef
  | [] => first
  | .resumed t _ :: _ => t
  | .exception _ :: history => executing first history

def context (initial : ThreadRef → Cpu) (first t : ThreadRef) : List Event → Cpu
  | [] => initial t
  | .resumed _ _ :: history => context initial first t history
  | .exception cpu :: history =>
    if executing first history = t then cpu else context initial first t history

inductive Run (m₀ : Machine) : List Event → Machine → Prop where
  | start : Run m₀ [] m₀
  | execute {history m} (h : Run m₀ history m) (cpu : Cpu) : Run m₀ history { m with cpu }
  | task {history m m'} (h : Run m₀ history m) (op : ThreadOp) (hop : m.TaskOp op)
      (hperform : m.perform op = .ok m') : Run m₀ history m'
  | exception {history m m'} (h : Run m₀ history m) (ops : List ThreadOp)
      (hexception : m.exception ops = .ok m') :
      Run m₀ (.resumed m'.scheduler.currentThread m'.cpu :: .exception m.cpu :: history) m'

/-! ### What the operations leave alone -/

section perform

variable {m m' : Machine} {op : ThreadOp}

lemma Machine.execState_of_perform (h : m.perform op = .ok m') (t : ThreadRef) :
    (m'.threads t).execState = (m.threads t).execState := by
  cases op with
  | scheduleNextThread | removeThread t =>
    obtain ⟨s, -, hs⟩ := bind_eq_ok.mp h
    cases hs
    rfl
  | makeTaskExecutorCurrent =>
    simp only [Machine.perform] at h
    split at h
    · cases h
    · cases h
      rfl
  | setState u new =>
    cases h
    by_cases htu : t = u
    · subst htu
      simp
    · simp [htu]
  | addThread _ | register _ | unregister _ | writeRegisters _ => cases h; rfl

lemma Machine.execState_of_performAll {ops : List ThreadOp}
    (h : Machine.performAll ops m = .ok m') (t : ThreadRef) :
    (m'.threads t).execState = (m.threads t).execState := by
  induction ops generalizing m with
  | nil =>
    cases h
    rfl
  | cons op ops ih =>
    obtain ⟨m₁, hop, hops⟩ := bind_eq_ok.mp h
    rw [ih hops, execState_of_perform hop]

lemma Machine.currentThread_of_taskOp (hop : m.TaskOp op) (h : m.perform op = .ok m') :
    m'.scheduler.currentThread = m.scheduler.currentThread := by
  cases op with
  | removeThread t =>
    obtain ⟨s, hrem, hs⟩ := bind_eq_ok.mp h
    cases hs
    exact ThreadScheduler.currentThread_of_removeThread hop hrem
  | addThread _ | setState _ _ | register _ | unregister _ => cases h; rfl
  | scheduleNextThread | makeTaskExecutorCurrent | writeRegisters _ => exact hop.elim

end perform

/-! ### Runs -/

variable {m₀ m m' : Machine} {history : List Event}

structure Saved (m₀ : Machine) (history : List Event) (m : Machine) : Prop where
  current : m.scheduler.currentThread = executing m₀.scheduler.currentThread history
  execState : ∀ t, (m.threads t).execState.restore =
    context (fun t => (m₀.threads t).execState.restore) m₀.scheduler.currentThread t history

lemma Saved.exception {ops : List ThreadOp} (h : Saved m₀ history m)
    (hexc : m.exception ops = .ok m') :
    m'.cpu = context (fun t => (m₀.threads t).execState.restore) m₀.scheduler.currentThread
        m'.scheduler.currentThread (.exception m.cpu :: history) ∧
      Saved m₀ (.resumed m'.scheduler.currentThread m'.cpu :: .exception m.cpu :: history) m' := by
  obtain ⟨m₁, hops, hm'⟩ := bind_eq_ok.mp hexc
  cases hm'
  -- Only the executing thread was written to, with the registers at the exception.
  have hsav : ∀ t, (m₁.threads t).execState.restore =
      context (fun t => (m₀.threads t).execState.restore) m₀.scheduler.currentThread t
        (.exception m.cpu :: history) := by
    intro t
    rw [Machine.execState_of_performAll hops, context, ← h.current]
    split_ifs with ht
    · subst ht
      simp [Machine.pauseCurrentThread]
    · rw [← h.execState]
      simp [Machine.pauseCurrentThread, Ne.symm ht]
  exact ⟨hsav _, rfl, hsav⟩

lemma Run.saved (h : Run m₀ history m) : Saved m₀ history m := by
  induction h with
  | start => exact ⟨rfl, fun _ => rfl⟩
  | execute _ cpu ih => exact ⟨ih.current, ih.execState⟩
  | task _ op hop hper ih =>
    refine ⟨(Machine.currentThread_of_taskOp hop hper).trans ih.current, fun t => ?_⟩
    rw [Machine.execState_of_perform hper, ih.execState]
  | exception _ ops hexc ih => exact (ih.exception hexc).2

/-- Between two exceptions the scheduler's current thread is the one that executes. Whenever a
thread is resumed, it gets back the registers of the last exception that was taken while it was
executing, or its initial ones. -/
theorem run_resumes_context (h : Run m₀ history m) :
    m.scheduler.currentThread = executing m₀.scheduler.currentThread history ∧
      ∀ later t cpu earlier, history = later ++ .resumed t cpu :: earlier →
        cpu = context (fun t => (m₀.threads t).execState.restore) m₀.scheduler.currentThread t
          earlier := by
  refine ⟨h.saved.current, ?_⟩
  induction h with
  | start => simp
  | execute _ cpu ih | task _ op hop hper ih => exact ih
  | exception hrun ops hexc ih =>
    intro later t cpu earlier hhis
    match later with
    | [] =>
      cases hhis
      exact (hrun.saved.exception hexc).1
    | [_] => cases hhis
    | _ :: _ :: later =>
      simp only [List.cons_append, List.cons.injEq] at hhis
      exact ih later t cpu earlier hhis.2.2

def Cpu.filled (n : BitVec 64) : Cpu := ⟨fun _ => n, n, n, n⟩

def sampleMachine : Machine where
  cpu := .filled 1
  threads
    | 0 => ⟨idleThread, .running, .low, .save (.filled 0)⟩
    | _ => ⟨taskThread, .running, .normal, .save (.filled 10)⟩
  table := [1, 0]
  scheduler := .new 0

/-- The second thread is started and removed again, which resumes the idle thread. -/
theorem run_resumes_context_idle : ∃ m,
    Run sampleMachine [.resumed 0 (.filled 1), .exception (.filled 11), .resumed 1 (.filled 10),
      .exception (.filled 1)] m ∧ m.scheduler.currentThread = 0 := by
  have hrun := (Run.start : Run sampleMachine [] sampleMachine)
    |>.task (.addThread 1) trivial rfl
    |>.exception [.scheduleNextThread] rfl
    |>.execute (.filled 11)
    |>.exception [.removeThread 1] rfl
  exact ⟨_, hrun, (run_resumes_context hrun).1⟩

end Kernel.Process
