import Kernel.Core.Checked
import Mathlib.Logic.Function.Basic
import Mathlib.Data.Fintype.Basic

/-!
# The queues of an NVMe device

Rings of commands that the driver writes, and of completions that the device writes.
-/

namespace Kernel.Storage.Nvme

open Core Function

abbrev QueueId := BitVec 16

/-! ### Commands -/

abbrev Words := Fin 16 → BitVec 32

def Words.zero : Words := fun _ => 0

structure Command where
  newTail : ℕ
  slot : ℕ

/-! ### Submission queues -/

structure SubmissionQueue where
  id : QueueId
  entryCount : ℕ
  tail : ℕ

namespace SubmissionQueue

def new (id : QueueId) (entryCount : ℕ) : SubmissionQueue := ⟨id, entryCount, 0⟩

def full (head : ℕ) (q : SubmissionQueue) : Checked Bool := do
  let next ← checkedAdd16 q.tail 1
  return head = next

def begin (head : ℕ) (q : SubmissionQueue) : Checked (Option Command) := do
  let full ← q.full head
  if full then return none
  else
    let next ← checkedAdd16 q.tail 1
    return some ⟨next % q.entryCount, q.tail⟩

def submit (cmd : Command) (q : SubmissionQueue) : SubmissionQueue := { q with tail := cmd.newTail }

end SubmissionQueue

/-! ### Completions -/

abbrev CompletionStatus := BitVec 16

namespace CompletionStatus

def statusCodeType (s : CompletionStatus) : ℕ := (s.extractLsb 11 9).toNat

def statusCode (s : CompletionStatus) : ℕ := (s.extractLsb 8 1).toNat

def phaseTag (s : CompletionStatus) : Bool := s.getLsbD 0

end CompletionStatus

structure Completion where
  cmd : BitVec 32
  res : BitVec 32
  head : ℕ
  sqid : QueueId
  id : BitVec 16
  status : CompletionStatus
  deriving DecidableEq

def Completion.zero : Completion := ⟨0, 0, 0, 0, 0, 0⟩

/-! ### Completion queues -/

structure CompletionQueue where
  id : QueueId
  entryCount : ℕ
  head : ℕ
  currentPhase : Bool
  assocSubmitQueueHeads : QueueId → Option ℕ

namespace CompletionQueue

def new (id : QueueId) (entryCount : ℕ) : CompletionQueue :=
  ⟨id, entryCount, 0, true, fun _ => none⟩

def associate (id : QueueId) (q : CompletionQueue) : CompletionQueue :=
  { q with assocSubmitQueueHeads := update q.assocSubmitQueueHeads id (some 0) }

inductive Popping where
  | store (slot : ℕ)
  | ring (slot : ℕ)
  | copy (slot : ℕ)

def advance (q : CompletionQueue) : Checked CompletionQueue := do
  let head ← checkedAdd16 q.head 1
  if head ≥ q.entryCount then
    return { q with head := 0, currentPhase := !q.currentPhase }
  else
    return { q with head }

def test (entry : Completion) (q : CompletionQueue) :
    Checked (Option (CompletionQueue × Popping)) :=
  if entry.status.phaseTag = q.currentPhase then do
    let q' ← q.advance
    return some (q', .store q.head)
  else return none

def storeHead (entry : Completion) (q : CompletionQueue) : Checked CompletionQueue :=
  match q.assocSubmitQueueHeads entry.sqid with
  | some _ =>
    return { q with
      assocSubmitQueueHeads :=
        update q.assocSubmitQueueHeads entry.sqid (some entry.head) }
  | none => throw .unwrap

end CompletionQueue

end Kernel.Storage.Nvme
