import Kernel.Core.Checked

/-!
# Threads and the thread scheduler

An `Arc<Thread>` is the address of a thread object, so two references to one thread see the same
state.
-/

namespace Kernel.Process

open Core

abbrev Registers := Fin 31 → BitVec 64

/-- The registers of the processor that belong to the thread it executes. -/
@[ext] structure Cpu where
  registers : Registers
  spsrEl1 : BitVec 64
  elrEl1 : BitVec 64
  spEl0 : BitVec 64
  deriving DecidableEq

structure ExecutionState where
  registerState : Registers
  programStatus : BitVec 64
  pc : BitVec 64
  sp : BitVec 64
  deriving DecidableEq

def ExecutionState.save (cpu : Cpu) : ExecutionState where
  registerState := cpu.registers
  programStatus := cpu.spsrEl1
  pc := cpu.elrEl1
  sp := cpu.spEl0

def ExecutionState.restore (e : ExecutionState) : Cpu where
  registers := e.registerState
  spsrEl1 := e.programStatus
  elrEl1 := e.pc
  spEl0 := e.sp

@[simp] lemma ExecutionState.restore_save (cpu : Cpu) : (save cpu).restore = cpu := rfl

inductive ThreadPriority where
  | high
  | normal
  | low
  deriving DecidableEq

inductive ThreadState where
  | running
  | waiting
  deriving DecidableEq

abbrev ThreadId := ℕ

structure Thread where
  id : ThreadId
  state : ThreadState
  priority : ThreadPriority
  execState : ExecutionState

abbrev ThreadRef := ℕ

abbrev ThreadObjects := ThreadRef → Thread

def idleThread : ThreadId := 0

def taskThread : ThreadId := 1

structure RunQueue where
  threads : List ThreadRef
  next : ℕ
  deriving DecidableEq

structure ThreadScheduler where
  queues : ThreadPriority → RunQueue
  currentThread : ThreadRef

namespace ThreadScheduler

def new (idle : ThreadRef) : ThreadScheduler where
  queues
    | .low => ⟨[idle], 0⟩
    | _ => ⟨[], 0⟩
  currentThread := idle

def setQueue (s : ThreadScheduler) (priority : ThreadPriority) (queue : RunQueue) :
    ThreadScheduler :=
  { s with queues := Function.update s.queues priority queue }

def skipWaiting (threads : ThreadObjects) (queue : List ThreadRef) :
    (skips next : ℕ) → Checked (ℕ × ℕ)
  | skips, next =>
    match queue[next]? with
    | none => .error .outOfBounds
    | some t =>
      if (threads t).state = .running then .ok (skips, next)
      else
        match skips with
        | 0 => .error .overflow
        | skips + 1 => skipWaiting threads queue skips ((next + 1) % queue.length)

def scheduleFrom (threads : ThreadObjects) :
    List ThreadPriority → ThreadScheduler → Checked ThreadScheduler
  | [], _ => .error .explicit
  | priority :: rest, s =>
    let queue := s.queues priority
    if queue.threads = [] then scheduleFrom threads rest s
    else do
      let next := if queue.next ≥ queue.threads.length then 0 else queue.next
      let (skips, next) ← skipWaiting threads queue.threads queue.threads.length next
      if skips = 0 then
        scheduleFrom threads rest (s.setQueue priority { queue with next })
      else
        match queue.threads[next]? with
        | none => .error .outOfBounds
        | some t =>
          let queue := { queue with next := (next + 1) % queue.threads.length }
          pure { s.setQueue priority queue with currentThread := t }

def scheduleNextThread (threads : ThreadObjects) (s : ThreadScheduler) : Checked ThreadScheduler :=
  scheduleFrom threads [.high, .normal, .low] s

def addThread (threads : ThreadObjects) (thread : ThreadRef) (s : ThreadScheduler) :
    ThreadScheduler :=
  let priority := (threads thread).priority
  let queue := s.queues priority
  s.setQueue priority { queue with threads := queue.threads ++ [thread] }

def removeThread (threads : ThreadObjects) (thread : ThreadRef) (s : ThreadScheduler) :
    Checked ThreadScheduler :=
  let priority := (threads thread).priority
  let queue := s.queues priority
  let retained := queue.threads.filter fun t => (threads t).id ≠ (threads thread).id
  let s := s.setQueue priority { queue with threads := retained }
  if (threads thread).id = (threads s.currentThread).id then scheduleNextThread threads s
  else pure s

lemma currentThread_of_removeThread {threads : ThreadObjects} {thread : ThreadRef}
    {s s' : ThreadScheduler} (hne : (threads thread).id ≠ (threads s.currentThread).id)
    (h : s.removeThread threads thread = .ok s') : s'.currentThread = s.currentThread := by
  have hrem : s.removeThread threads thread = pure _ := if_neg hne
  rw [hrem] at h
  cases h
  rfl

end ThreadScheduler

def threadForId (threads : ThreadObjects) (table : List ThreadRef) (tid : ThreadId) :
    Option ThreadRef :=
  table.find? fun t => (threads t).id = tid

end Kernel.Process
