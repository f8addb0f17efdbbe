import Kernel.Kapi.Commands
import Kernel.Tasks.Executor

/-!
# The way of a command through the kernel

`dispatch_new_commands` polls the submission queues until they are empty and spawns a task for each
command.
-/

namespace Kernel.Process

open Core Kapi Tasks List Option Executor Function

structure CommandTask where
  command : Command
  recv : ℕ
  deriving DecidableEq

structure SendQueue where
  capacity : ℕ
  pending : List Command
  recv : ℕ
  deriving DecidableEq

structure RecvQueue where
  capacity : ℕ
  completions : List Completion
  deriving DecidableEq

structure Dispatcher where
  executor : Executor
  sendQueues : List SendQueue
  recvQueues : ℕ → Option RecvQueue
  dispatched : List (ℕ × CommandTask)

inductive DispatchAct where
  | submit (queue : ℕ) (command : Command)
  | drain (recv : ℕ)
  | destroy (recv : ℕ)
  | enter
  | spawnOther
  | postOther (recv : ℕ) (completion : Completion)
  | executor (act : ExecutorAct)
  | complete (kind : CompletionKind)

inductive DispatchOutcome where
  | done
  | posted (task : ℕ) (recv : ℕ) (completion : Completion)
  | dropped (task : ℕ)
  | panicked (p : Panic)
  deriving DecidableEq

namespace DispatchOutcome

def posted? : DispatchOutcome → Option (ℕ × ℕ × Completion)
  | .posted task recv completion => some (task, recv, completion)
  | .done | .dropped _ | .panicked _ => none

def dropped? : DispatchOutcome → Option ℕ
  | .dropped task => some task
  | .done | .posted _ _ _ | .panicked _ => none

def answered? : DispatchOutcome → Option ℕ
  | .posted task _ _ | .dropped task => some task
  | .done | .panicked _ => none

def panicked? : DispatchOutcome → Option Panic
  | .panicked p => some p
  | .done | .posted _ _ _ | .dropped _ => none

end DispatchOutcome

namespace Dispatcher

def new (sendQueues : List SendQueue) (recvQueues : ℕ → Option RecvQueue) : Dispatcher :=
  ⟨.default, sendQueues, recvQueues, []⟩

def spawnCommand (x : CommandTask) (s : Dispatcher) : Checked Dispatcher := do
  let executor ← s.executor.spawn
  return { s with executor, dispatched := s.dispatched ++ [(s.executor.created, x)] }

def spawnOther (s : Dispatcher) : Checked Dispatcher := do
  let executor ← s.executor.spawn
  return { s with executor }

def dispatchQueue (recv : ℕ) : List Command → Dispatcher → Checked Dispatcher
  | [], s => .ok s
  | command :: rest, s => do dispatchQueue recv rest (← s.spawnCommand ⟨command, recv⟩)

def dispatchQueues : List SendQueue → Dispatcher → Checked Dispatcher
  | [], s => .ok s
  | q :: rest, s => do dispatchQueues rest (← s.dispatchQueue q.recv q.pending)

def dispatchNewCommands (s : Dispatcher) : Checked Dispatcher :=
  dispatchQueues s.sendQueues
    { s with sendQueues := s.sendQueues.map fun q => { q with pending := [] } }

def pendingCommands (s : Dispatcher) : ℕ := (s.sendQueues.map fun q => q.pending.length).sum

def execute (act : ExecutorAct) (s : Dispatcher) : Option (DispatchOutcome × Dispatcher) :=
  (step act s.executor).map fun (o, executor) =>
    (match o.panicked? with
      | some p => .panicked p
      | none => .done, { s with executor })

def complete (kind : CompletionKind) (s : Dispatcher) : Option (DispatchOutcome × Dispatcher) :=
  match s.executor.point with
  | .polling id k =>
    (s.dispatched.lookup k).map fun x =>
      let s' := { s with executor := s.executor.finish id }
      match s.recvQueues x.recv with
      | none => (.dropped k, s')
      | some q =>
        if q.completions.length < q.capacity then
          let completion := ⟨x.command.id, kind⟩
          (.posted k x.recv completion, { s' with
            recvQueues := update s.recvQueues x.recv
              (some { q with completions := q.completions ++ [completion] }) })
        else (.panicked .todo, s)
  | .popNew | .insert _ _ | .pushReady _ | .popReady | .lookup _ => none

def pollsCommand (s : Dispatcher) : Bool :=
  match s.executor.point with
  | .polling _ k => (s.dispatched.lookup k).isSome
  | .popNew | .insert _ _ | .pushReady _ | .popReady | .lookup _ => false

def checked (s : Dispatcher) : Checked Dispatcher → DispatchOutcome × Dispatcher
  | .ok s' => (.done, s')
  | .error p => (.panicked p, s)

def step : DispatchAct → Dispatcher → Option (DispatchOutcome × Dispatcher)
  | .submit queue command, s =>
    (s.sendQueues[queue]?).bind fun q =>
      if q.pending.length < q.capacity then
        some (.done, { s with
          sendQueues := s.sendQueues.set queue { q with pending := q.pending ++ [command] } })
      else none
  | .drain recv, s =>
    (s.recvQueues recv).map fun q => (.done, { s with
      recvQueues := update s.recvQueues recv (some { q with completions := [] }) })
  | .destroy recv, s =>
    some (.done, { s with recvQueues := update s.recvQueues recv none })
  | .enter, s => some (s.checked s.dispatchNewCommands)
  | .spawnOther, s => some (s.checked s.spawnOther)
  | .postOther recv completion, s =>
    (s.recvQueues recv).map fun q => (.done, { s with
      recvQueues := update s.recvQueues recv (some (
        if q.completions.length < q.capacity then
          { q with completions := q.completions ++ [completion] }
        else q)) })
  | .executor .run, s => s.execute .run
  | .executor (.wake id), s => s.execute (.wake id)
  | .executor (.pollReturns ready), s =>
    if ready = true ∧ s.pollsCommand = true then none else s.execute (.pollReturns ready)
  | .executor .takeId, _ | .executor (.pushNew _), _ => none
  | .complete kind, s => s.complete kind

end Dispatcher

abbrev DispatchEvent := Core.Event Dispatcher DispatchAct DispatchOutcome

def answeredIn (events : List DispatchEvent) : List ℕ := history DispatchOutcome.answered? events

def postedIn (events : List DispatchEvent) : List (ℕ × ℕ × Completion) :=
  history DispatchOutcome.posted? events

def droppedIn (events : List DispatchEvent) : List ℕ := history DispatchOutcome.dropped? events

def Holds (s : Executor) (k : ℕ) : Prop := (taskId k, k) ∈ s.unborn ∨ s.tasks (taskId k) = some k

structure Answered (events : List DispatchEvent) (s : Dispatcher) : Prop where
  once : (s.dispatched.map Prod.fst).Nodup ∧ (answeredIn events).Nodup
  kept : ∀ x ∈ s.dispatched, x.1 ∈ answeredIn events ∨ Holds s.executor x.1
  posted : ∀ k recv completion, (k, recv, completion) ∈ postedIn events →
    ∃ x, (k, x) ∈ s.dispatched ∧ recv = x.recv ∧ completion.responseToId = x.command.id
  dropped : ∀ k ∈ droppedIn events, ∃ x, (k, x) ∈ s.dispatched ∧ s.recvQueues x.recv = none

def HasRoom (e : DispatchEvent) : Prop :=
  match e.call with
  | .enter => e.before.pendingCommands ≤
      newTaskQueueCapacity - e.before.executor.newTaskQueue.length
  | .spawnOther => e.before.executor.newTaskQueue.length < newTaskQueueCapacity
  | .executor act => e.before.executor.NeedsReady act →
      e.before.executor.readyQueue.length < readyQueueCapacity
  | .complete _ => ∀ id k x q, e.before.executor.point = .polling id k →
      e.before.dispatched.lookup k = some x → e.before.recvQueues x.recv = some q →
      q.completions.length < q.capacity
  | .submit _ _ | .drain _ | .destroy _ | .postOther _ _ => True

section

variable {events : List DispatchEvent} {s s' : Dispatcher} {a : DispatchAct} {o : DispatchOutcome}

/-! ### Room -/

lemma spawn_eq_ok {e e' : Executor} :
    e.spawn = .ok e' ↔ e.newTaskQueue.length < newTaskQueueCapacity ∧ e' = { e.takeId with
      newTaskQueue := e.newTaskQueue ++ [(e.nextTaskId, e.created)]
      spawning := e.takeId.spawning.erase (e.nextTaskId, e.created) } := ite_eq_ok

lemma spawnOther_eq_ok :
    s.spawnOther = .ok s' ↔ ∃ executor, s.executor.spawn = .ok executor ∧
      s' = { s with executor } := by
  rw [Dispatcher.spawnOther, bind_eq_ok]
  exact exists_congr fun executor => and_congr_right fun _ =>
    ⟨fun h => (Except.ok.inj h).symm, fun h => congrArg _ h.symm⟩

variable {x : CommandTask}

lemma spawnCommand_eq_ok :
    s.spawnCommand x = .ok s' ↔ ∃ executor, s.executor.spawn = .ok executor ∧
      s' = { s with executor, dispatched := s.dispatched ++ [(s.executor.created, x)] } := by
  rw [Dispatcher.spawnCommand, bind_eq_ok]
  exact exists_congr fun executor => and_congr_right fun _ =>
    ⟨fun h => (Except.ok.inj h).symm, fun h => congrArg _ h.symm⟩

def spawnCommands (xs : List CommandTask) (s : Dispatcher) : Checked Dispatcher :=
  xs.foldlM (fun s x => s.spawnCommand x) s

variable {xs : List CommandTask}

lemma spawnCommands_cons :
    spawnCommands (x :: xs) s = s.spawnCommand x >>= spawnCommands xs := foldlM_cons

lemma spawnCommands_append {ys : List CommandTask} :
    spawnCommands (xs ++ ys) s = spawnCommands xs s >>= spawnCommands ys := foldlM_append

lemma dispatchQueue_eq (recv : ℕ) (commands : List Command) (s : Dispatcher) :
    s.dispatchQueue recv commands = spawnCommands (commands.map fun c => ⟨c, recv⟩) s := by
  induction commands generalizing s with
  | nil => rfl
  | cons command rest ih =>
    rw [Dispatcher.dispatchQueue, map_cons, spawnCommands_cons]
    exact congrArg _ (funext fun s => ih s)

lemma dispatchQueues_eq (queues : List SendQueue) (s : Dispatcher) :
    s.dispatchQueues queues =
      spawnCommands (queues.flatMap fun q => q.pending.map fun c => ⟨c, q.recv⟩) s := by
  induction queues generalizing s with
  | nil => rfl
  | cons q rest ih =>
    rw [Dispatcher.dispatchQueues, flatMap_cons, spawnCommands_append, dispatchQueue_eq]
    exact congrArg _ (funext fun s => ih s)

lemma spawnCommands_keeps {I : Dispatcher → Prop}
    (hkeep : ∀ x s s', I s → s.spawnCommand x = .ok s' → I s')
    (hsp : spawnCommands xs s = .ok s') (h : I s) : I s' := by
  induction xs generalizing s with
  | nil =>
    cases hsp
    exact h
  | cons x xs ih =>
    rw [spawnCommands_cons, bind_eq_ok] at hsp
    obtain ⟨s₁, hx, hxs⟩ := hsp
    exact ih hxs (hkeep x s s₁ h hx)

lemma spawnCommands_room (xs : List CommandTask) (s : Dispatcher) :
    (∃ s', spawnCommands xs s = .ok s') ↔
      xs.length ≤ newTaskQueueCapacity - s.executor.newTaskQueue.length := by
  induction xs generalizing s with
  | nil => exact iff_of_true ⟨s, rfl⟩ (Nat.zero_le _)
  | cons x xs ih =>
    rw [spawnCommands_cons, length_cons]
    constructor
    · rintro ⟨s', hsp⟩
      obtain ⟨s₁, hx, hxs⟩ := bind_eq_ok.mp hsp
      obtain ⟨executor, hexec, rfl⟩ := spawnCommand_eq_ok.mp hx
      obtain ⟨hroom, rfl⟩ := spawn_eq_ok.mp hexec
      have hrest := (ih _).mp ⟨s', hxs⟩
      simp only [length_append, length_singleton] at hrest
      omega
    · intro hroom
      have hlt : s.executor.newTaskQueue.length < newTaskQueueCapacity := by omega
      have hx := spawnCommand_eq_ok (x := x).mpr ⟨_, spawn_eq_ok.mpr ⟨hlt, rfl⟩, rfl⟩
      rw [hx]
      refine (ih _).mpr ?_
      simp only [length_append, length_singleton]
      omega

lemma dispatchNewCommands_room :
    (∃ s', s.dispatchNewCommands = .ok s') ↔
      s.pendingCommands ≤ newTaskQueueCapacity - s.executor.newTaskQueue.length := by
  rw [Dispatcher.dispatchNewCommands, dispatchQueues_eq, spawnCommands_room, length_flatMap,
    Dispatcher.pendingCommands]
  simp only [length_map]

lemma checked_panicked_iff {x : Checked Dispatcher} :
    (s.checked x).1.panicked? = none ↔ ∃ s', x = .ok s' := by
  cases x with
  | ok s' => exact iff_of_true rfl ⟨s', rfl⟩
  | error p => exact iff_of_false nofun nofun

variable {act : ExecutorAct}

lemma execute_eq_some (hstep : s.execute act = some (o, s')) :
    ∃ o' executor, step act s.executor = some (o', executor) ∧
      (match o'.panicked? with
        | some p => .panicked p
        | none => .done) = o ∧ s' = { s with executor } := by
  obtain ⟨⟨o', executor⟩, hexec, hret⟩ := map_eq_some_iff.mp hstep
  exact ⟨o', executor, hexec, congrArg Prod.fst hret, (congrArg Prod.snd hret).symm⟩

lemma execute_panicked_iff (hact : ∀ x, act ≠ .pushNew x) (hstep : s.execute act = some (o, s')) :
    o.panicked? = none ↔ HasRoom ⟨.executor act, o, s, s'⟩ := by
  obtain ⟨o', executor, hexec, ho, -⟩ := execute_eq_some hstep
  refine Iff.trans ?_ (panicked_iff_ready hact hexec)
  rw [← ho]
  cases o'.panicked? with
  | none => exact iff_of_true rfl rfl
  | some p => exact iff_of_false nofun nofun

lemma complete_eq_some {kind : CompletionKind} (hstep : s.complete kind = some (o, s')) :
    ∃ id k x, s.executor.point = .polling id k ∧ s.dispatched.lookup k = some x ∧
      (s.recvQueues x.recv = none ∧ o = .dropped k ∧
          s' = { s with executor := s.executor.finish id } ∨ ∃ q, s.recvQueues x.recv = some q ∧
          (q.completions.length < q.capacity ∧ o = .posted k x.recv ⟨x.command.id, kind⟩ ∧
              s' = { s with
                executor := s.executor.finish id
                recvQueues := update s.recvQueues x.recv
                  (some { q with completions := q.completions ++ [⟨x.command.id, kind⟩] }) } ∨
            ¬ q.completions.length < q.capacity ∧ o = .panicked .todo ∧ s' = s)) := by
  rw [Dispatcher.complete] at hstep
  split at hstep
  case h_1 id k hpt =>
    obtain ⟨x, hx, hret⟩ := map_eq_some_iff.mp hstep
    refine ⟨id, k, x, hpt, hx, ?_⟩
    dsimp only at hret
    cases hq : s.recvQueues x.recv with
    | none =>
      rw [hq] at hret
      cases hret
      exact .inl ⟨rfl, rfl, rfl⟩
    | some q =>
      rw [hq] at hret
      refine .inr ⟨q, rfl, ?_⟩
      dsimp only at hret
      split_ifs at hret with hroom
      · cases hret
        exact .inl ⟨hroom, rfl, rfl⟩
      · cases hret
        exact .inr ⟨hroom, rfl, rfl⟩
  all_goals cases hstep

lemma panicked_iff (hstep : Dispatcher.step a s = some (o, s')) :
    o.panicked? = none ↔ HasRoom ⟨a, o, s, s'⟩ := by
  cases a with
  | submit queue command =>
    obtain ⟨q, hq, hstep⟩ := bind_eq_some_iff.mp hstep
    split_ifs at hstep
    cases hstep
    exact iff_of_true rfl trivial
  | drain recv | postOther recv completion =>
    obtain ⟨q, hq, hret⟩ := map_eq_some_iff.mp hstep
    cases hret
    exact iff_of_true rfl trivial
  | destroy recv =>
    cases hstep
    exact iff_of_true rfl trivial
  | enter =>
    have ho : (s.checked s.dispatchNewCommands).1 = o := congrArg Prod.fst (Option.some.inj hstep)
    rw [← ho, checked_panicked_iff]
    exact dispatchNewCommands_room
  | spawnOther =>
    have ho : (s.checked s.spawnOther).1 = o := congrArg Prod.fst (Option.some.inj hstep)
    rw [← ho, checked_panicked_iff]
    constructor
    · rintro ⟨s₁, hs₁⟩
      obtain ⟨executor, hexec, -⟩ := spawnOther_eq_ok.mp hs₁
      exact (spawn_eq_ok.mp hexec).1
    · intro hroom
      exact ⟨_, spawnOther_eq_ok.mpr ⟨_, spawn_eq_ok.mpr ⟨hroom, rfl⟩, rfl⟩⟩
  | executor act =>
    cases act with
    | takeId | pushNew x => cases hstep
    | wake id | run => exact execute_panicked_iff nofun hstep
    | pollReturns ready =>
      rw [Dispatcher.step] at hstep
      split_ifs at hstep
      exact execute_panicked_iff nofun hstep
  | complete kind =>
    obtain ⟨id, k, x, hpt, hx, h⟩ := complete_eq_some hstep
    rcases h with ⟨hnone, rfl, -⟩ | ⟨q, hq, ⟨hroom, rfl, -⟩ | ⟨hroom, rfl, -⟩⟩
    · refine iff_of_true rfl fun id' k' x' q' hpt' hx' hq' => ?_
      cases hpt.symm.trans hpt'
      cases hx.symm.trans hx'
      cases hnone.symm.trans hq'
    · refine iff_of_true rfl fun id' k' x' q' hpt' hx' hq' => ?_
      cases hpt.symm.trans hpt'
      cases hx.symm.trans hx'
      cases hq.symm.trans hq'
      exact hroom
    · exact iff_of_false nofun fun h => hroom (h id k x q hpt hx hq)

/-! ### One step -/

variable {recvQueues : ℕ → Option RecvQueue}

lemma update_recv_none {recv r : ℕ} {q q' : RecvQueue}
    (hq : recvQueues recv = some q) (hr : recvQueues r = none) :
    update recvQueues recv (some q') r = none := by
  have hne : r ≠ recv := fun heq => by
    rw [heq, hq] at hr
    cases hr
  rw [update_of_ne hne, hr]

variable {k : ℕ}

lemma mem_of_lookup (h : s.dispatched.lookup k = some x) :
    (k, x) ∈ s.dispatched := by
  obtain ⟨l₁, l₂, heq, -⟩ := lookup_eq_some_iff.mp h
  rw [heq]
  exact mem_append_right _ mem_cons_self

lemma not_mem_of_pollsCommand {id : TaskId} (hpt : s.executor.point = .polling id k)
    (h : ¬ s.pollsCommand = true) (x : CommandTask) : (k, x) ∉ s.dispatched := by
  intro hmem
  rw [Dispatcher.pollsCommand, hpt] at h
  have hnone : s.dispatched.lookup k = none := not_isSome_iff_eq_none.mp h
  have hne := lookup_eq_none_iff.mp hnone (k, x) hmem
  simp at hne

inductive Dispatched (s : Dispatcher) : DispatchOutcome → Dispatcher → Prop where
  | queues {sendQueues recvQueues}
      (hrecv : ∀ r, s.recvQueues r = none → recvQueues r = none) :
      Dispatched s .done { s with sendQueues, recvQueues }
  | enter {xs sendQueues s'} (h : spawnCommands xs { s with sendQueues } = .ok s') :
      Dispatched s .done s'
  | spawnOther {executor} (h : s.executor.spawn = .ok executor) :
      Dispatched s .done { s with executor }
  | execute {act o executor} (h : step act s.executor = some (o, executor))
      (hok : o.panicked? = none) (hfinish : act = .pollReturns true → ¬ s.pollsCommand = true) :
      Dispatched s .done { s with executor }
  | dropped {id k x} (hpoint : s.executor.point = .polling id k) (hx : (k, x) ∈ s.dispatched)
      (hrecv : s.recvQueues x.recv = none) :
      Dispatched s (.dropped k) { s with executor := s.executor.finish id }
  | posted {id k x q q'} {kind : CompletionKind} (hpoint : s.executor.point = .polling id k)
      (hx : (k, x) ∈ s.dispatched) (hrecv : s.recvQueues x.recv = some q) :
      Dispatched s (.posted k x.recv ⟨x.command.id, kind⟩) { s with
        executor := s.executor.finish id
        recvQueues := update s.recvQueues x.recv (some q') }

lemma dispatched_of_execute (hstep : s.execute act = some (o, s'))
    (hok : o.panicked? = none) (hfin : act = .pollReturns true → ¬ s.pollsCommand = true) :
    Dispatched s o s' := by
  obtain ⟨o', executor, hexec, ho, rfl⟩ := execute_eq_some hstep
  cases hpan : o'.panicked? with
  | none =>
    rw [hpan] at ho
    cases ho
    exact .execute hexec hpan hfin
  | some p =>
    rw [hpan] at ho
    cases ho
    cases hok

lemma dispatched_of_step (hstep : Dispatcher.step a s = some (o, s')) (hok : o.panicked? = none) :
    Dispatched s o s' := by
  cases a with
  | submit queue command =>
    obtain ⟨q, hq, hstep⟩ := bind_eq_some_iff.mp hstep
    split_ifs at hstep
    cases hstep
    exact .queues fun _ hr => hr
  | drain recv | postOther recv completion =>
    obtain ⟨q, hq, hret⟩ := map_eq_some_iff.mp hstep
    cases hret
    exact .queues fun _ => update_recv_none hq
  | destroy recv =>
    cases hstep
    refine .queues fun r hr => ?_
    by_cases heq : r = recv
    · subst heq
      exact update_self _ _ _
    · exact (update_of_ne heq _ _).trans hr
  | enter =>
    rw [Dispatcher.step] at hstep
    cases hdis : s.dispatchNewCommands with
    | error p =>
      rw [hdis] at hstep
      cases hstep
      cases hok
    | ok s₁ =>
      rw [hdis] at hstep
      cases hstep
      rw [Dispatcher.dispatchNewCommands, dispatchQueues_eq] at hdis
      exact .enter hdis
  | spawnOther =>
    rw [Dispatcher.step] at hstep
    cases hsp : s.spawnOther with
    | error p =>
      rw [hsp] at hstep
      cases hstep
      cases hok
    | ok s₁ =>
      rw [hsp] at hstep
      cases hstep
      obtain ⟨executor, hexec, rfl⟩ := spawnOther_eq_ok.mp hsp
      exact .spawnOther hexec
  | executor act =>
    cases act with
    | takeId | pushNew x => cases hstep
    | wake id | run => exact dispatched_of_execute hstep hok nofun
    | pollReturns ready =>
      rw [Dispatcher.step] at hstep
      split_ifs at hstep with hcmd
      refine dispatched_of_execute hstep hok fun heq hpls => hcmd ⟨?_, hpls⟩
      cases heq
      rfl
  | complete kind =>
    obtain ⟨id, k, x, hpt, hx, hcase⟩ := complete_eq_some hstep
    have hmem := mem_of_lookup hx
    rcases hcase with ⟨hnone, rfl, rfl⟩ | ⟨q, hq, ⟨-, rfl, rfl⟩ | ⟨-, rfl, -⟩⟩
    · exact .dropped hpt hmem hnone
    · exact .posted hpt hmem hq
    · cases hok

/-! ### The run of the executor -/

structure Tracked (events : List DispatchEvent) (ran : List ExecutorEvent) (s : Dispatcher) :
    Prop where
  run : Core.Run step .default ran s.executor
  ok : ∀ e ∈ ran, e.result.panicked? = none
  created : ∀ x ∈ s.dispatched, x.1 < s.executor.created
  nodup : (s.dispatched.map Prod.fst).Nodup
  answered : ∀ k, k ∈ answeredIn events ↔ k ∈ finishedIn ran ∧ ∃ x, (k, x) ∈ s.dispatched
  once : (answeredIn events).Nodup
  posted : ∀ k recv completion, (k, recv, completion) ∈ postedIn events →
    ∃ x, (k, x) ∈ s.dispatched ∧ recv = x.recv ∧ completion.responseToId = x.command.id
  dropped : ∀ k ∈ droppedIn events, ∃ x, (k, x) ∈ s.dispatched ∧ s.recvQueues x.recv = none

variable {ran : List ExecutorEvent} {e : DispatchEvent}

lemma Tracked.of_eq (h : Tracked events ran s) (hexec : s'.executor = s.executor)
    (hdisp : s'.dispatched = s.dispatched)
    (hrecv : ∀ r, s.recvQueues r = none → s'.recvQueues r = none)
    (hans : e.result.answered? = none) (hpost : e.result.posted? = none)
    (hdrp : e.result.dropped? = none) : Tracked (e :: events) ran s' where
  run := hexec ▸ h.run
  ok := h.ok
  created := by
    rw [hdisp, hexec]
    exact h.created
  nodup := hdisp ▸ h.nodup
  answered k := by
    rw [answeredIn, history_cons_none hans, hdisp]
    exact h.answered k
  once := by
    rw [answeredIn, history_cons_none hans]
    exact h.once
  posted k recv completion hmem := by
    rw [postedIn, history_cons_none hpost] at hmem
    rw [hdisp]
    exact h.posted k recv completion hmem
  dropped k hmem := by
    rw [droppedIn, history_cons_none hdrp] at hmem
    obtain ⟨x, hx, hnone⟩ := h.dropped k hmem
    exact ⟨x, hdisp ▸ hx, hrecv _ hnone⟩

lemma Tracked.executor {executor : Executor} {e : ExecutorEvent} (h : Tracked events ran s)
    (hrun : Core.Run step .default (e :: ran) executor)
    (hok : e.result.panicked? = none) (hcre : s.executor.created ≤ executor.created)
    (hfin : ∀ k, e.result.finished? = some k → ∀ x, (k, x) ∉ s.dispatched) :
    Tracked events (e :: ran) { s with executor } where
  run := hrun
  ok := forall_mem_cons.mpr ⟨hok, h.ok⟩
  created x hx := (h.created x hx).trans_le hcre
  nodup := h.nodup
  answered k := by
    refine (h.answered k).trans (and_congr_left fun ⟨x, hx⟩ => ?_)
    rw [mem_finishedIn_cons]
    exact (or_iff_right fun hk => hfin k hk x hx).symm
  once := h.once
  posted := h.posted
  dropped := h.dropped

lemma Tracked.dispatch (h : Tracked events ran s) (hk : k < s.executor.created)
    (hnew : ∀ x ∈ s.dispatched, x.1 ≠ k) (hfin : k ∉ finishedIn ran) :
    Tracked events ran { s with dispatched := s.dispatched ++ [(k, x)] } where
  run := h.run
  ok := h.ok
  created := forall_mem_append.mpr ⟨h.created, forall_mem_singleton.mpr hk⟩
  nodup := by
    rw [map_append, nodup_append]
    refine ⟨h.nodup, nodup_singleton _, fun a ha b hb => ?_⟩
    obtain ⟨y, hy, rfl⟩ := mem_map.mp ha
    rw [map_singleton, mem_singleton] at hb
    rw [hb]
    exact hnew y hy
  answered j := by
    refine (h.answered j).trans (and_congr_right fun hj => exists_congr fun y => ?_)
    rw [mem_append, mem_singleton]
    refine (or_iff_left fun heq => hfin ?_).symm
    cases heq
    exact hj
  once := h.once
  posted j recv completion hmem := by
    obtain ⟨y, hy, heq⟩ := h.posted j recv completion hmem
    exact ⟨y, mem_append_left _ hy, heq⟩
  dropped j hmem := by
    obtain ⟨y, hy, hnone⟩ := h.dropped j hmem
    exact ⟨y, mem_append_left _ hy, hnone⟩

lemma Tracked.spawn {executor : Executor} (h : Tracked events ran s)
    (hsp : s.executor.spawn = .ok executor) :
    ∃ ran', Tracked events ran' { s with executor } ∧ finishedIn ran' = finishedIn ran ∧
      executor.created = s.executor.created + 1 := by
  have htake : Executor.step .takeId s.executor = some (.done, s.executor.takeId) := rfl
  have hmem : (s.executor.nextTaskId, s.executor.created) ∈ s.executor.takeId.spawning :=
    mem_cons_self
  have hpush : Executor.step (.pushNew (s.executor.nextTaskId, s.executor.created))
      s.executor.takeId = some (.spawned s.executor.created, executor) := by
    rw [Executor.spawn] at hsp
    rw [Executor.step, if_pos hmem, hsp]
  obtain ⟨-, rfl⟩ := spawn_eq_ok.mp hsp
  have htk := h.executor (.call h.run htake) rfl (Nat.le_succ _) (by rintro k ⟨⟩)
  exact ⟨_, htk.executor (.call htk.run hpush) rfl (le_refl _) (by rintro k ⟨⟩), rfl, rfl⟩

lemma Tracked.spawnCommand (h : ∃ ran, Tracked events ran s)
    (hsp : s.spawnCommand x = .ok s') : ∃ ran, Tracked events ran s' := by
  obtain ⟨ran, h⟩ := h
  obtain ⟨executor, hexec, rfl⟩ := spawnCommand_eq_ok.mp hsp
  obtain ⟨ran', h', hfin, hcre⟩ := h.spawn hexec
  refine ⟨ran', h'.dispatch (hcre ▸ lt_add_one _) (fun y hy => (h.created y hy).ne) ?_⟩
  rw [hfin]
  exact fun hk => ((numbered_of_run h.run h.ok).finished _ hk).ne rfl

lemma Tracked.complete {id : TaskId} {e : DispatchEvent} (h : Tracked events ran s)
    (hcre : s.executor.created < 2 ^ 32) (hpt : s.executor.point = .polling id k)
    (hx : (k, x) ∈ s.dispatched) (hans : e.result.answered? = some k)
    (hpost : ∀ y, e.result.posted? = some y →
      y.1 = k ∧ y.2.1 = x.recv ∧ y.2.2.responseToId = x.command.id)
    (hdrp : ∀ y, e.result.dropped? = some y → y = k ∧ recvQueues x.recv = none)
    (hrecv : ∀ r, s.recvQueues r = none → recvQueues r = none) :
    ∃ ran, Tracked (e :: events) ran
      { s with executor := s.executor.finish id, recvQueues } := by
  have hstep : step (.pollReturns true) s.executor =
      some (.finished k, s.executor.finish id) := by
    rw [step, hpt]
    rfl
  -- The task has not finished before, as it is in the map.
  have hfsh : k ∉ finishedIn ran := by
    have hn := numbered_of_run h.run h.ok
    obtain ⟨htask, -⟩ := hn.polling id k hpt
    obtain ⟨rfl, hlt⟩ := hn.tasks _ _ htask
    have hstg := staged_of_run h.run h.ok hcre k hlt
    cases hstg with
    | unborn _ _ _ hfin | fresh _ _ _ hfin _ | live _ _ _ hfin _ => exact hfin
    | dead _ hnone _ _ => cases hnone.symm.trans htask
  refine ⟨_, .call h.run hstep, forall_mem_cons.mpr ⟨rfl, h.ok⟩, h.created, h.nodup,
    fun j => ?_, ?_, fun j recv completion hmem => ?_, fun j hmem => ?_⟩
  · rw [answeredIn, mem_history_cons, hans, Option.some.injEq, mem_finishedIn_cons]
    by_cases hj : k = j
    · subst hj
      exact iff_of_true (.inl rfl) ⟨.inl rfl, x, hx⟩
    · have hj' : ¬ ExecutorOutcome.finished? (.finished k) = some j := fun h =>
        hj (Option.some.inj h)
      exact (or_iff_right hj).trans ((h.answered j).trans
        (and_congr_left fun _ => (or_iff_right hj').symm))
  · rw [answeredIn, history_cons_some hans]
    refine nodup_append.mpr ⟨h.once, nodup_singleton _, fun j hj j' hj' => ?_⟩
    rw [mem_singleton.mp hj']
    rintro rfl
    exact hfsh ((h.answered j).mp hj).1
  · rcases mem_history_cons.mp hmem with hy | hmem
    · obtain ⟨rfl, hrecv, hid⟩ := hpost _ hy
      exact ⟨x, hx, hrecv, hid⟩
    · exact h.posted j recv completion hmem
  · rcases mem_history_cons.mp hmem with hy | hmem
    · obtain ⟨rfl, hnone⟩ := hdrp _ hy
      exact ⟨x, hx, hnone⟩
    · obtain ⟨y, hy, hnone⟩ := h.dropped j hmem
      exact ⟨y, hy, hrecv _ hnone⟩

lemma Tracked.dispatched (h : Tracked events ran s) (hcre : s.executor.created < 2 ^ 32)
    (hstep : Dispatched s o s') : ∃ ran, Tracked (⟨a, o, s, s'⟩ :: events) ran s' := by
  cases hstep with
  | queues hrecv => exact ⟨ran, h.of_eq rfl rfl hrecv rfl rfl rfl⟩
  | @enter xs sendQueues _ hsp =>
    have hst : Tracked events ran { s with sendQueues } :=
      { h with }
    obtain ⟨ran, h⟩ := spawnCommands_keeps (I := fun s => ∃ ran, Tracked events ran s)
      (fun x s s' hs hx => Tracked.spawnCommand hs hx) hsp ⟨ran, hst⟩
    exact ⟨ran, h.of_eq rfl rfl (fun _ hr => hr) rfl rfl rfl⟩
  | spawnOther hsp =>
    obtain ⟨ran, h, -⟩ := h.spawn hsp
    exact ⟨ran, h.of_eq rfl rfl (fun _ hr => hr) rfl rfl rfl⟩
  | execute hexec hok hfin =>
    have hstd := stepped_of_step hexec hok
    have hexe := h.executor (.call h.run hexec) hok (created_le hstd) fun k hk x => ?_
    · exact ⟨_, hexe.of_eq rfl rfl (fun _ hr => hr) rfl rfl rfl⟩
    · cases hstd with
      | finish hpt =>
        cases hk
        exact not_mem_of_pollsCommand hpt (hfin rfl) x
      | _ => cases hk
  | dropped hpt hx hnone =>
    exact h.complete hcre hpt hx rfl nofun
      (fun y hy => ⟨(Option.some.inj hy).symm, hnone⟩) fun _ hr => hr
  | posted hpt hx hq =>
    refine h.complete hcre hpt hx rfl (fun y hy => ?_) nofun fun _ => update_recv_none hq
    cases hy
    exact ⟨rfl, rfl, rfl⟩

lemma Dispatched.created_le (h : Dispatched s o s') :
    s.executor.created ≤ s'.executor.created := by
  have hspd : ∀ {e e' : Executor}, e.spawn = .ok e' → e.created ≤ e'.created := by
    intro e e' hsp
    obtain ⟨-, rfl⟩ := spawn_eq_ok.mp hsp
    exact Nat.le_succ _
  cases h with
  | enter hsp =>
    refine spawnCommands_keeps (I := fun s' => s.executor.created ≤ s'.executor.created)
      (fun x s₁ s₂ hle hx => ?_) hsp (le_refl _)
    obtain ⟨executor, hexec, rfl⟩ := spawnCommand_eq_ok.mp hx
    exact hle.trans (hspd hexec)
  | spawnOther hsp => exact hspd hsp
  | execute hexec hok _ => exact Tasks.created_le (stepped_of_step hexec hok)
  | queues | dropped | posted => exact le_refl _

lemma tracked_new (sendQueues : List SendQueue) (recvQueues : ℕ → Option RecvQueue) :
    Tracked [] [] (.new sendQueues recvQueues) where
  run := .nil
  ok := forall_mem_nil _
  created := forall_mem_nil _
  nodup := nodup_nil
  answered _ := iff_of_false not_mem_nil fun h => not_mem_nil h.1
  once := nodup_nil
  posted _ _ _ h := absurd h not_mem_nil
  dropped _ h := absurd h not_mem_nil

lemma Tracked.toAnswered (h : Tracked events ran s) (hcre : s.executor.created < 2 ^ 32) :
    Answered events s where
  once := ⟨h.nodup, h.once⟩
  kept x hx := by
    have hstg := staged_of_run h.run h.ok hcre x.1 (h.created x hx)
    cases hstg with
    | unborn hmem _ _ _ => exact .inr (.inl hmem)
    | fresh _ htask _ _ _ | live _ htask _ _ _ => exact .inr (.inr htask)
    | dead _ _ _ hfin => exact .inl ((h.answered x.1).mpr ⟨hfin, x.2, hx⟩)
  posted := h.posted
  dropped := h.dropped

lemma tracked_of_run {sendQueues : List SendQueue}
    (hrun : Core.Run Dispatcher.step (.new sendQueues recvQueues) events s)
    (hok : ∀ e ∈ events, e.result.panicked? = none) (hcre : s.executor.created < 2 ^ 32) :
    ∃ ran, Tracked events ran s := by
  induction hrun with
  | nil => exact ⟨[], tracked_new sendQueues recvQueues⟩
  | call _ hstep ih =>
    obtain ⟨hlast, hbef⟩ := forall_mem_cons.mp hok
    have hdisp := dispatched_of_step hstep hlast
    have hlt := hdisp.created_le.trans_lt hcre
    obtain ⟨ran, h⟩ := ih hbef hlt
    exact h.dispatched hlt hdisp

/-- The kernel panics in a run exactly if something is pushed to a full queue. Otherwise, and if
there are fewer than 2 ^ 32 tasks, every command that is polled leads to exactly one completion. -/
theorem answered_of_hasRoom {sendQueues : List SendQueue} {recvQueues : ℕ → Option RecvQueue}
    (hrun : Core.Run Dispatcher.step (.new sendQueues recvQueues) events s) :
    ((∀ e ∈ events, e.result.panicked? = none) ↔ ∀ e ∈ events, HasRoom e) ∧
      ((∀ e ∈ events, HasRoom e) → s.executor.created < 2 ^ 32 → Answered events s) := by
  have hiff : (∀ e ∈ events, e.result.panicked? = none) ↔ ∀ e ∈ events, HasRoom e :=
    hrun.forall_iff (I := fun _ => True) trivial (fun _ _ _ _ _ _ _ => trivial)
      fun c s r s' _ hstep => panicked_iff hstep
  refine ⟨hiff, fun hroom hcre => ?_⟩
  obtain ⟨ran, h⟩ := tracked_of_run hrun (hiff.mpr hroom) hcre
  exact h.toAnswered hcre

end

def sampleCommand (id : BitVec 16) : Command := ⟨.test 0, id⟩

def firstQueues : Dispatcher := .new [⟨64, [], 0⟩] fun r => if r = 0 then some ⟨64, []⟩ else none

def executorSteps (n : ℕ) : List DispatchAct := List.replicate n (.executor .run)

theorem answered_of_hasRoom_two :
    ∃ events s, Core.Run Dispatcher.step firstQueues events s ∧
      postedIn events = [(0, 0, ⟨7, .success⟩), (1, 0, ⟨8, .success⟩)] ∧ Answered events s := by
  obtain ⟨events, s, hrun, hpost, hok, hcre⟩ := Run.exists_of_execute Dispatcher.step
    firstQueues ([.complete .success] ++ executorSteps 2 ++ [.complete .success] ++
      executorSteps 9 ++ [.enter, .submit 0 (sampleCommand 8), .submit 0 (sampleCommand 7)])
    (Q := fun events s => postedIn events = [(0, 0, ⟨7, .success⟩), (1, 0, ⟨8, .success⟩)] ∧
      (∀ e ∈ events, e.result.panicked? = none) ∧ s.executor.created < 2 ^ 32) (by decide +kernel)
  obtain ⟨hiff, hans⟩ := answered_of_hasRoom hrun
  exact ⟨events, s, hrun, hpost, hans (hiff.mp hok) hcre⟩

/-- There are 33 commands in the submission queue when the kernel is entered: the 33rd task does not
fit into the queue of new tasks. -/
theorem enter_panics :
    ∃ events s, Core.Run Dispatcher.step firstQueues events s ∧
      ∃ e ∈ events, e.before.pendingCommands = 33 ∧ e.before.executor.newTaskQueue = [] ∧
        e.result = .panicked .explicit :=
  Run.exists_of_execute Dispatcher.step firstQueues
    (.enter :: List.replicate 33 (.submit 0 (sampleCommand 7)))
    (Q := fun events _ => ∃ e ∈ events, e.before.pendingCommands = 33 ∧
      e.before.executor.newTaskQueue = [] ∧ e.result = .panicked .explicit) (by decide +kernel)

end Kernel.Process
