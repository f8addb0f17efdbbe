import Kernel.Memory.Basic

/-!
# Commands and completions

The messages that a process and the kernel exchange through their queues, and the room that a
queue needs for them.
-/

namespace Kernel.Kapi

open Core

abbrev ProcessId := ℕ

abbrev ThreadId := ℕ

abbrev QueueId := BitVec 16

def pathMaxLen : ℕ := 4096

def firstRecvQueueId : QueueId := 1

def firstSendQueueId : QueueId := 2

structure Path where
  text : ℕ
  len : ℕ
  deriving DecidableEq, Repr

structure Buffer where
  data : ℕ
  len : ℕ
  deriving DecidableEq, Repr

/-! ### Completions -/

inductive ErrorCode where
  | unknownCommand
  | unsupportedOperation
  | outOfMemory
  | notFound
  | outOfBounds
  | outOfIds
  | badFormat
  | device
  | invalidId
  | invalidSize
  | invalidPointer
  | invalidUtf8
  | inUse
  | internal
  deriving DecidableEq, Repr

inductive ThreadExit where
  | normal (code : BitVec 16)
  | pageFault
  | killed
  deriving DecidableEq, Repr

structure NewQueue where
  id : QueueId
  start : ℕ
  deriving DecidableEq, Repr

inductive CompletionKind where
  | invalid
  | success
  | test (pid : ProcessId) (arg : BitVec 64)
  | newQueue (queue : NewQueue)
  | newThread (id : ThreadId)
  | threadExit (exit : ThreadExit)
  | newProcess (id : ProcessId)
  | err (code : ErrorCode)
  deriving DecidableEq, Repr

structure Completion where
  responseToId : BitVec 16
  kind : CompletionKind
  deriving DecidableEq, Repr

/-! ### Commands -/

structure CreateSubmissionQueue where
  size : ℕ
  associatedCompletionQueue : QueueId
  deriving DecidableEq, Repr

structure SpawnThread where
  entryPoint : ℕ
  stackSize : ℕ
  userData : ℕ
  sendCompletionOnExit : Bool
  deriving DecidableEq, Repr

structure SpawnProcess where
  binaryPath : Path
  parameters : Buffer
  sendCompletionOnMainThreadExit : Bool
  deriving DecidableEq, Repr

inductive CommandKind where
  | invalid
  | test (arg : BitVec 64)
  | createCompletionQueue (size : ℕ)
  | createSubmissionQueue (info : CreateSubmissionQueue)
  | destroyQueue (id : QueueId)
  | spawnThread (info : SpawnThread)
  | watchThread (threadId : ThreadId)
  | spawnProcess (info : SpawnProcess)
  | watchProcess (processId : ProcessId)
  | killProcess (processId : ProcessId)
  deriving DecidableEq, Repr

structure Command where
  kind : CommandKind
  id : BitVec 16
  deriving DecidableEq, Repr

/-! ### The size of a queue -/

inductive Message where
  | command
  | completion
  deriving DecidableEq, Repr

/-- `size_of::<Slot<T>>()`: the stamp of 8 bytes and the message. A command is 56 bytes long, as
its longest kind is the one to spawn a process, and a completion 32 bytes. -/
def Message.slotSize : Message → ℕ
  | .command => 64
  | .completion => 40

def countersSize : ℕ := 256

def queueSizeInBytes (message : Message) (capacity : ℕ) : Checked ℕ := do
  checkedAdd countersSize (← checkedMul message.slotSize capacity)

def queuePages (message : Message) (capacity : ℕ) : Checked ℕ := do
  return Memory.divCeil (← queueSizeInBytes message capacity) Memory.pageSize

lemma queuePages_eq_ok {message : Message} {capacity n : ℕ} :
    queuePages message capacity = .ok n ↔
      countersSize + message.slotSize * capacity < 2 ^ 64 ∧
        n = Memory.divCeil (countersSize + message.slotSize * capacity) Memory.pageSize := by
  constructor
  · intro h
    simp only [queuePages, queueSizeInBytes, bind_eq_ok, checkedMul_eq_ok, checkedAdd_eq_ok] at h
    obtain ⟨_, ⟨_, ⟨_, rfl⟩, hlt, rfl⟩, hret⟩ := h
    cases hret
    exact ⟨hlt, rfl⟩
  · rintro ⟨hlt, rfl⟩
    simp only [queuePages, queueSizeInBytes, bind_eq_ok, checkedMul_eq_ok, checkedAdd_eq_ok]
    exact ⟨_, ⟨_, ⟨by omega, rfl⟩, hlt, rfl⟩, rfl⟩

lemma queuePages_pos {message : Message} {capacity n : ℕ}
    (h : queuePages message capacity = .ok n) : 0 < n := by
  obtain ⟨-, rfl⟩ := queuePages_eq_ok.mp h
  simp only [Memory.divCeil, Memory.pageSize, countersSize]
  omega

end Kernel.Kapi
