import Kernel.Error
import Kernel.Storage.Nvme.Configure

/-!
# Admin commands

The queues of the driver delete themselves when they are dropped, by an admin command whose
completion nobody waits for.
-/

namespace Kernel.Storage.Nvme

open Core Action Memory List

/-! ### Commands and completions -/

inductive AdminCommand where
  | identify (namespaceId : BitVec 32)
  | createIoCompletionQueue (id : QueueId) (size : ℕ) (interruptIndex : BitVec 16)
  | createIoSubmissionQueue (id : QueueId) (size : ℕ) (completionQueueId : QueueId)
  | deleteIoSubmissionQueue (id : QueueId)
  | deleteIoCompletionQueue (id : QueueId)
  deriving DecidableEq

def AdminCommand.deletes : AdminCommand → Bool
  | deleteIoSubmissionQueue _ | deleteIoCompletionQueue _ => true
  | identify _ | createIoCompletionQueue _ _ _ | createIoSubmissionQueue _ _ _ => false

structure Reply where
  status : CompletionStatus
  head : ℕ

structure Answer where
  command : ℕ
  completion : ℕ
  deriving DecidableEq

inductive IoQueue where
  | submission (id : QueueId)
  | completion (id : QueueId)
  deriving DecidableEq

structure AdminQueues where
  queue : SubmissionQueue
  head : ℕ
  commands : List AdminCommand
  popped : ℕ
  answers : List Answer
  live : List IoQueue

abbrev AdminM := Action AdminQueues Panic

namespace AdminQueues

def configured : AdminQueues where
  queue := { SubmissionQueue.new 0 adminSubmissionEntries with tail := 2 }
  head := 2
  commands := [.identify 0, .identify 0]
  popped := 2
  answers := [⟨0, 0⟩, ⟨1, 1⟩]
  live := []

def submit (cmd : AdminCommand) : AdminM Unit := fun s =>
  match s.queue.begin s.head with
  | .ok (some c) =>
    (.ok (), { s with queue := s.queue.submit c, commands := s.commands ++ [cmd] })
  | .ok none => (.error .unwrap, s)
  | .error p => (.error p, s)

def answer (s : AdminQueues) : Answer := ⟨s.commands.length - 1, s.popped⟩

def busyWaitForCompletion (r : Reply) : AdminM CompletionStatus := fun s =>
  (.ok r.status,
    { s with head := r.head, popped := s.popped + 1, answers := s.answers ++ [s.answer] })

def perform (cmd : AdminCommand) (r : Reply) : AdminM CompletionStatus := do
  submit cmd
  busyWaitForCompletion r

/-! ### I/O queues -/

def dropQueue : IoQueue → AdminM Unit
  | .submission id => submit (.deleteIoSubmissionQueue id)
  | .completion id => submit (.deleteIoCompletionQueue id)

inductive QueueCreateError where
  | generic (code : ℕ)
  | invalidQueueId
  | invalidQueueSize
  | invalidInterruptVectorIndex
  | invalidCompletionQueueId

def completionQueueResult (status : CompletionStatus) : Checked (Except QueueCreateError Unit) :=
  match status.statusCodeType, status.statusCode with
  | 0, 0 => .ok (.ok ())
  | 0, code => .ok (.error (.generic code))
  | 1, 1 => .ok (.error .invalidQueueId)
  | 1, 2 => .ok (.error .invalidQueueSize)
  | 1, 8 => .ok (.error .invalidInterruptVectorIndex)
  | _, _ => .error .explicit

def submissionQueueResult (status : CompletionStatus) : Checked (Except QueueCreateError Unit) :=
  match status.statusCodeType, status.statusCode with
  | 0, 0 => .ok (.ok ())
  | 0, code => .ok (.error (.generic code))
  | 1, 1 => .ok (.error .invalidCompletionQueueId)
  | 1, 2 => .ok (.error .invalidQueueId)
  | 1, 8 => .ok (.error .invalidQueueSize)
  | _, _ => .error .explicit

def finishQueue (q : IoQueue) (result : Except QueueCreateError Unit) :
    AdminM (Except Error IoQueue) :=
  match result with
  | .ok _ => pure (.ok q)
  | .error _ => do
    dropQueue q
    return .error (.other "NVMe device failed to create queue" (some .device))

def newIoCompletionQueue (id : QueueId) (entryCount : ℕ) (interruptIndex : BitVec 16)
    (memory : Except MemoryError Unit) (r : Reply) : AdminM (Except Error IoQueue) :=
  match memory with
  | .error e =>
    return .error (.memory "failed to allocate memory for NVMe completion queue" e)
  | .ok _ => do
    let status ← perform (.createIoCompletionQueue id entryCount interruptIndex) r
    let result ← lift (fun p => p) (completionQueueResult status)
    finishQueue (.completion id) result

def newIoSubmissionQueue (id : QueueId) (entryCount : ℕ) (completionQueueId : QueueId)
    (memory : Except MemoryError Unit) (r : Reply) : AdminM (Except Error IoQueue) :=
  match memory with
  | .error e =>
    return .error (.memory "allocate backing memory for NVMe submission queue" e)
  | .ok _ => do
    let status ← perform (.createIoSubmissionQueue id entryCount completionQueueId) r
    let result ← lift (fun p => p) (submissionQueueResult status)
    finishQueue (.submission id) result

/-! ### Block stores -/

structure OpenArgs where
  namespaceId : BitVec 32
  lookup : Except Error Unit
  completionMemory : Except MemoryError Unit
  completionReply : Reply
  submissionMemory : Except MemoryError Unit
  submissionReply : Reply
  bufferMemory : Except MemoryError Unit
  identifyReply : Reply

def identifyNamespace (args : OpenArgs) (cq sq : IoQueue) : AdminM (Except Error Unit) :=
  match args.bufferMemory with
  | .error e => do
    dropQueue cq
    dropQueue sq
    return .error (.memory "failed to allocate memory to recieve NVMe device properties" e)
  | .ok _ => do
    let _ ← perform (.identify args.namespaceId) args.identifyReply
    modify fun s => { s with live := s.live ++ [sq, cq] }
    return .ok ()

def openSubmissionQueue (args : OpenArgs) (cq : IoQueue) : AdminM (Except Error Unit) := do
  let sq ← newIoSubmissionQueue 1 (2 * pageSize / submissionEntrySize) 1 args.submissionMemory
    args.submissionReply
  match sq with
  | .error e => do
    dropQueue cq
    return .error e
  | .ok sq => identifyNamespace args cq sq

def openBlockStore (args : OpenArgs) : AdminM (Except Error Unit) :=
  match args.lookup with
  | .error e => return .error e
  | .ok _ => do
    let cq ← newIoCompletionQueue 1 (2 * pageSize / completionEntrySize)
      (args.namespaceId.setWidth 16) args.completionMemory args.completionReply
    match cq with
    | .error e => return .error e
    | .ok cq => openSubmissionQueue args cq

inductive Call where
  | openBlockStore (args : OpenArgs)
  | drop (i : ℕ)

def dropLive (i : ℕ) : AdminM (Except Error Unit) := fun s =>
  match s.live[i]? with
  | none => (.error .outOfBounds, s)
  | some q => ((dropQueue q >>= fun _ => pure (.ok ())) { s with live := s.live.eraseIdx i })

def Call.run : Call → AdminM (Except Error Unit)
  | openBlockStore args => AdminQueues.openBlockStore args
  | drop i => dropLive i

def call (c : Call) (s : AdminQueues) : Option (Except Error Unit × AdminQueues) :=
  match c.run s with
  | (.ok r, s') => some (r, s')
  | (.error _, _) => none

/-! ### Who gets which completion -/

def deletions (commands : List AdminCommand) : ℕ := commands.countP (·.deletes)

structure Shifted (s : AdminQueues) : Prop where
  popped_add : s.popped + deletions s.commands = s.commands.length
  answers : ∀ a ∈ s.answers, a.command < s.commands.length ∧
    a.completion + deletions (s.commands.take a.command) = a.command

variable {s : AdminQueues} {cmd : AdminCommand}

lemma shifted_configured : Shifted configured := by
  refine ⟨rfl, fun a ha => ?_⟩
  rcases mem_cons.mp ha with rfl | ha
  · decide
  · obtain rfl := mem_singleton.mp ha
    decide

lemma deletions_append : deletions (s.commands ++ [cmd]) =
    deletions s.commands + if cmd.deletes then 1 else 0 := by
  rw [deletions, countP_append, countP_singleton]
  rfl

lemma Shifted.answers_append (h : Shifted s) (cmd : AdminCommand) :
    ∀ a ∈ s.answers, a.command < (s.commands ++ [cmd]).length ∧
      a.completion + deletions ((s.commands ++ [cmd]).take a.command) = a.command := by
  intro a ha
  obtain ⟨hlt, heq⟩ := h.answers a ha
  rw [length_append, take_append_of_le_length hlt.le]
  exact ⟨hlt.trans_le le_self_add, heq⟩

lemma submit_cases (cmd : AdminCommand) (s : AdminQueues) :
    (∃ p, submit cmd s = (.error p, s)) ∨
      ∃ queue, submit cmd s = (.ok (), { s with queue, commands := s.commands ++ [cmd] }) := by
  rw [submit]
  cases s.queue.begin s.head with
  | error p => exact .inl ⟨p, rfl⟩
  | ok r =>
    cases r with
    | none => exact .inl ⟨_, rfl⟩
    | some c => exact .inr ⟨_, rfl⟩

lemma maintains_dropQueue (q : IoQueue) : Maintains Shifted (dropQueue q) := by
  have hsub : ∀ cmd : AdminCommand, cmd.deletes = true → Maintains Shifted (submit cmd) := by
    intro cmd hdel s h
    rcases submit_cases cmd s with ⟨p, hrun⟩ | ⟨queue, hrun⟩
    · rw [hrun]
      exact h
    · rw [hrun]
      refine ⟨?_, h.answers_append cmd⟩
      have hpop := h.popped_add
      dsimp only
      rw [deletions_append, if_pos hdel, length_append, length_singleton]
      omega
  cases q with
  | submission id | completion id => exact hsub _ rfl

lemma maintains_perform (r : Reply) (hcmd : cmd.deletes = false) :
    Maintains Shifted (perform cmd r) := by
  intro s h
  rcases submit_cases cmd s with ⟨p, hrun⟩ | ⟨queue, hrun⟩
  · rw [perform, bind_of_error hrun]
    exact h
  · rw [perform, bind_of_ok hrun]
    have hpop := h.popped_add
    refine ⟨?_, fun a ha => ?_⟩
    · change s.popped + 1 + deletions (s.commands ++ [cmd]) = (s.commands ++ [cmd]).length
      rw [deletions_append, hcmd, length_append, length_singleton]
      simp only [Bool.false_eq_true, if_false]
      omega
    · rcases mem_append.mp ha with ha | ha
      · exact h.answers_append cmd a ha
      · obtain rfl := mem_singleton.mp ha
        have hlast : (s.commands ++ [cmd]).length - 1 = s.commands.length := by simp
        change (s.commands ++ [cmd]).length - 1 < (s.commands ++ [cmd]).length ∧
          s.popped + deletions ((s.commands ++ [cmd]).take ((s.commands ++ [cmd]).length - 1)) =
            (s.commands ++ [cmd]).length - 1
        rw [hlast, take_left', length_append]
        · exact ⟨lt_add_one _, hpop⟩
        · rfl

lemma maintains_finishQueue (q : IoQueue) (result : Except QueueCreateError Unit) :
    Maintains Shifted (finishQueue q result) := by
  cases result with
  | ok _ => exact maintains_pure _
  | error e => exact (maintains_dropQueue q).bind fun _ => maintains_pure _

lemma maintains_openBlockStore (args : OpenArgs) : Maintains Shifted (openBlockStore args) := by
  have hcom : ∀ id entryCount interruptIndex memory r,
      Maintains Shifted (newIoCompletionQueue id entryCount interruptIndex memory r) := by
    intro id entryCount interruptIndex memory r
    cases memory with
    | error e => exact maintains_pure _
    | ok _ =>
      exact (maintains_perform r rfl).bind fun _ => (maintains_lift _ _).bind fun _ =>
        maintains_finishQueue _ _
  have hsub : ∀ id entryCount completionQueueId memory r,
      Maintains Shifted (newIoSubmissionQueue id entryCount completionQueueId memory r) := by
    intro id entryCount completionQueueId memory r
    cases memory with
    | error e => exact maintains_pure _
    | ok _ =>
      exact (maintains_perform r rfl).bind fun _ => (maintains_lift _ _).bind fun _ =>
        maintains_finishQueue _ _
  have hide : ∀ cq sq, Maintains Shifted (identifyNamespace args cq sq) := by
    intro cq sq
    rw [identifyNamespace]
    cases args.bufferMemory with
    | error e =>
      exact (maintains_dropQueue cq).bind fun _ => (maintains_dropQueue sq).bind fun _ =>
        maintains_pure _
    | ok _ =>
      refine (maintains_perform _ rfl).bind fun _ => (maintains_modify ?_).bind fun _ =>
        maintains_pure _
      exact fun s h => ⟨h.popped_add, h.answers⟩
  rw [openBlockStore]
  cases args.lookup with
  | error e => exact maintains_pure _
  | ok _ =>
    refine (hcom _ _ _ _ _).bind fun cq => ?_
    cases cq with
    | error e => exact maintains_pure _
    | ok cq =>
      refine (hsub _ _ _ _ _).bind fun sq => ?_
      cases sq with
      | error e => exact (maintains_dropQueue cq).bind fun _ => maintains_pure _
      | ok sq => exact hide cq sq

lemma Shifted.call {c : Call} {r : Except Error Unit} {s' : AdminQueues} (h : Shifted s)
    (hstep : call c s = some (r, s')) : Shifted s' := by
  have hmai : Shifted (c.run s).2 := by
    cases c with
    | openBlockStore args => exact maintains_openBlockStore args s h
    | drop i =>
      rw [Call.run, dropLive]
      cases s.live[i]? with
      | none => exact h
      | some q =>
        exact (maintains_dropQueue q).bind (fun _ => maintains_pure _) _ ⟨h.popped_add, h.answers⟩
  rw [AdminQueues.call] at hstep
  cases hrun : c.run s with
  | mk result s₁ =>
    rw [hrun] at hmai hstep
    cases result with
    | error p => cases hstep
    | ok r =>
      cases hstep
      exact hmai

/-- In every run, a completion that somebody has waited for answers the command submitted before it
exactly if no queue had been deleted by then. -/
theorem answers_own_iff {events : List (Event AdminQueues Call (Except Error Unit))}
    (hrun : Run call configured events s) :
    ∀ a ∈ s.answers, a.completion = a.command ↔
      ∀ cmd ∈ s.commands.take a.command, cmd.deletes = false := by
  have hshi : Shifted s := hrun.invariant (A := fun _ => True) shifted_configured
    (fun c s r s' h hstep _ => h.call hstep) fun _ _ => trivial
  intro a ha
  obtain ⟨-, heq⟩ := hshi.answers a ha
  have hzero : a.completion = a.command ↔ deletions (s.commands.take a.command) = 0 := by omega
  rw [hzero, deletions, countP_eq_zero]
  simp

def successful (head : ℕ) : Reply := ⟨1, head⟩

def sampleOpen (k : ℕ) : Call :=
  .openBlockStore ⟨1, .ok (), .ok (), successful (k + 1), .ok (), successful (k + 2), .ok (),
    successful (k + 3)⟩

theorem answers_own_iff_open :
    ∃ events s, Run call configured events s ∧ s.answers.length = 5 ∧
      ∀ a ∈ s.answers, a.completion = a.command := by
  obtain ⟨events, s, hrun, hlen, hdel⟩ := Run.exists_of_execute call configured
    [sampleOpen 2] (Q := fun _ s => s.answers.length = 5 ∧
      ∀ a ∈ s.answers, ∀ cmd ∈ s.commands.take a.command, cmd.deletes = false) (by decide +kernel)
  exact ⟨events, s, hrun, hlen, fun a ha =>
    (answers_own_iff hrun a ha).mpr (hdel a ha)⟩

/-- After a queue has been dropped, opening the next block store takes the completion of the
deletion for the one of its own command. -/
theorem answers_other :
    ∃ events s, Run call configured events s ∧ ⟨6, 5⟩ ∈ s.answers ∧
      s.commands[5]? = some (.deleteIoSubmissionQueue 1) ∧
      s.commands[6]? = some (.createIoCompletionQueue 1 512 1) :=
  Run.exists_of_execute call configured [sampleOpen 6, .drop 0, sampleOpen 2]
    (Q := fun _ s => ⟨6, 5⟩ ∈ s.answers ∧ s.commands[5]? = some (.deleteIoSubmissionQueue 1) ∧
      s.commands[6]? = some (.createIoCompletionQueue 1 512 1)) (by decide +kernel)

end AdminQueues

end Kernel.Storage.Nvme
