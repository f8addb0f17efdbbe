import Kernel.Core.Checked
import Kernel.Core.Runs

/-!
# The task executor

`spawn` puts a task into a bounded queue. `run_forever` moves the new tasks into its map and polls
those whose ids are in the ready queue.
-/

namespace Kernel.Tasks

open Core List Function

abbrev TaskId := BitVec 32

inductive ExecutorPoint where
  | popNew
  | insert (id : TaskId) (task : ℕ)
  | pushReady (id : TaskId)
  | popReady
  | lookup (id : TaskId)
  | polling (id : TaskId) (task : ℕ)
  deriving DecidableEq

structure Executor where
  readyQueue : List TaskId
  newTaskQueue : List (TaskId × ℕ)
  nextTaskId : TaskId
  tasks : TaskId → Option ℕ
  wakerCache : TaskId → Bool
  point : ExecutorPoint
  created : ℕ
  spawning : List (TaskId × ℕ)
  wakers : List TaskId

open Executor

inductive ExecutorAct where
  | takeId
  | pushNew (x : TaskId × ℕ)
  | wake (id : TaskId)
  | run
  | pollReturns (ready : Bool)
  deriving DecidableEq

inductive ExecutorOutcome where
  | done
  | spawned (task : ℕ)
  | polled (task : ℕ)
  | finished (task : ℕ)
  | bottom
  | panicked (p : Panic)
  deriving DecidableEq

namespace ExecutorOutcome

def spawned? : ExecutorOutcome → Option ℕ
  | .spawned task => some task
  | .done | .polled _ | .finished _ | .bottom | .panicked _ => none

def polled? : ExecutorOutcome → Option ℕ
  | .polled task => some task
  | .done | .spawned _ | .finished _ | .bottom | .panicked _ => none

def finished? : ExecutorOutcome → Option ℕ
  | .finished task => some task
  | .done | .spawned _ | .polled _ | .bottom | .panicked _ => none

def panicked? : ExecutorOutcome → Option Panic
  | .panicked p => some p
  | .done | .spawned _ | .polled _ | .finished _ | .bottom => none

end ExecutorOutcome

namespace Executor

def readyQueueCapacity : ℕ := 128

def newTaskQueueCapacity : ℕ := 32

def default : Executor where
  readyQueue := []
  newTaskQueue := []
  nextTaskId := 1
  tasks _ := none
  wakerCache _ := false
  point := .popNew
  created := 0
  spawning := []
  wakers := []

def pushReady (id : TaskId) (s : Executor) : Checked Executor :=
  if s.readyQueue.length < readyQueueCapacity then
    .ok { s with readyQueue := s.readyQueue ++ [id] }
  else .error .unwrap

def takeId (s : Executor) : Executor :=
  { s with
    nextTaskId := s.nextTaskId + 1
    created := s.created + 1
    spawning := (s.nextTaskId, s.created) :: s.spawning }

def pushNew (x : TaskId × ℕ) (s : Executor) : Checked Executor :=
  if s.newTaskQueue.length < newTaskQueueCapacity then
    .ok { s with newTaskQueue := s.newTaskQueue ++ [x], spawning := s.spawning.erase x }
  else .error .explicit

def spawn (s : Executor) : Checked Executor := s.takeId.pushNew (s.nextTaskId, s.created)

def beginPoll (id : TaskId) (task : ℕ) (s : Executor) : Executor :=
  { s with
    wakerCache := Function.update s.wakerCache id true
    wakers := if s.wakerCache id then s.wakers else id :: s.wakers
    point := .polling id task }

def finish (id : TaskId) (s : Executor) : Executor :=
  { s with
    tasks := Function.update s.tasks id none
    wakerCache := Function.update s.wakerCache id false
    point := .popReady }

def run (s : Executor) : Option (ExecutorOutcome × Executor) :=
  match s.point with
  | .popNew =>
    match s.newTaskQueue with
    | [] => some (.done, { s with point := .popReady })
    | (id, task) :: rest => some (.done, { s with newTaskQueue := rest, point := .insert id task })
  | .insert id task =>
    some (.done, { s with tasks := Function.update s.tasks id (some task), point := .pushReady id })
  | .pushReady id =>
    match s.pushReady id with
    | .ok s => some (.done, { s with point := .popNew })
    | .error p => some (.panicked p, s)
  | .popReady =>
    match s.readyQueue with
    | [] => some (.bottom, { s with point := .popNew })
    | id :: rest => some (.done, { s with readyQueue := rest, point := .lookup id })
  | .lookup id =>
    match s.tasks id with
    | none => some (.done, { s with point := .popReady })
    | some task => some (.polled task, s.beginPoll id task)
  | .polling _ _ => none

def step : ExecutorAct → Executor → Option (ExecutorOutcome × Executor)
  | .takeId, s => some (.done, s.takeId)
  | .pushNew x, s =>
    if x ∈ s.spawning then
      match s.pushNew x with
      | .ok s => some (.spawned x.2, s)
      | .error p => some (.panicked p, s)
    else none
  | .wake id, s =>
    if id ∈ s.wakers then
      match s.pushReady id with
      | .ok s => some (.done, s)
      | .error p => some (.panicked p, s)
    else none
  | .run, s => s.run
  | .pollReturns ready, s =>
    match s.point with
    | .polling id task =>
      if ready then some (.finished task, s.finish id)
      else some (.done, { s with point := .popReady })
    | .popNew | .insert _ _ | .pushReady _ | .popReady | .lookup _ => none

end Executor

abbrev ExecutorEvent := Core.Event Executor ExecutorAct ExecutorOutcome

def spawnedIn (events : List ExecutorEvent) : List ℕ := history ExecutorOutcome.spawned? events

def polledIn (events : List ExecutorEvent) : List ℕ := history ExecutorOutcome.polled? events

def finishedIn (events : List ExecutorEvent) : List ℕ := history ExecutorOutcome.finished? events

def taskId (k : ℕ) : TaskId := .ofNat 32 (k + 1)

def WokenSince (k : ℕ) (events : List ExecutorEvent) : Prop :=
  ∃ e ∈ events.takeWhile fun e => decide (e.result ≠ .polled k), e.call = .wake (taskId k)

def Queued (s : Executor) (k : ℕ) : Prop :=
  taskId k ∈ s.readyQueue ∨ s.point = .lookup (taskId k)

lemma taskId_injective {k k' : ℕ} (hk : k < 2 ^ 32) (hk' : k' < 2 ^ 32)
    (h : taskId k = taskId k') : k = k' := by
  have htoNat := congrArg BitVec.toNat h
  simp only [taskId, BitVec.toNat_ofNat] at htoNat
  omega

/-! ### The places of a task -/

def ExecutorPoint.inserting : ExecutorPoint → List (TaskId × ℕ)
  | .insert id task => [(id, task)]
  | .popNew | .pushReady _ | .popReady | .lookup _ | .polling _ _ => []

def Executor.unborn (s : Executor) : List (TaskId × ℕ) :=
  s.spawning ++ s.newTaskQueue ++ s.point.inserting

section

variable {events : List ExecutorEvent} {e : ExecutorEvent} {s s' : Executor} {k : ℕ}

inductive Stage (events : List ExecutorEvent) (s : Executor) (k : ℕ) : Prop where
  | unborn (hmem : (taskId k, k) ∈ s.unborn) (htask : s.tasks (taskId k) = none)
      (hpolled : k ∉ polledIn events) (hfinished : k ∉ finishedIn events)
  | fresh (hmem : (taskId k, k) ∉ s.unborn) (htask : s.tasks (taskId k) = some k)
      (hpolled : k ∉ polledIn events) (hfinished : k ∉ finishedIn events)
      (hqueued : Queued s k ∨ s.point = .pushReady (taskId k))
  | live (hmem : (taskId k, k) ∉ s.unborn) (htask : s.tasks (taskId k) = some k)
      (hpolled : k ∈ polledIn events) (hfinished : k ∉ finishedIn events)
      (hwoken : WokenSince k events → Queued s k)
  | dead (hmem : (taskId k, k) ∉ s.unborn) (htask : s.tasks (taskId k) = none)
      (hpolled : k ∈ polledIn events) (hfinished : k ∈ finishedIn events)

lemma mem_polledIn_cons :
    k ∈ polledIn (e :: events) ↔ e.result.polled? = some k ∨ k ∈ polledIn events :=
  mem_history_cons

lemma mem_finishedIn_cons :
    k ∈ finishedIn (e :: events) ↔ e.result.finished? = some k ∨ k ∈ finishedIn events :=
  mem_history_cons

lemma mem_spawnedIn_cons :
    k ∈ spawnedIn (e :: events) ↔ e.result.spawned? = some k ∨ k ∈ spawnedIn events :=
  mem_history_cons

lemma not_wokenSince_of_polled (he : e.result = .polled k) : ¬ WokenSince k (e :: events) := by
  rintro ⟨e', he', -⟩
  rw [takeWhile_cons_of_neg (by simp [he])] at he'
  cases he'

lemma WokenSince.of_cons (h : WokenSince k (e :: events)) :
    e.call = .wake (taskId k) ∨ WokenSince k events := by
  obtain ⟨e', he', hcall⟩ := h
  by_cases hpoll : e.result = .polled k
  · rw [takeWhile_cons_of_neg (by simp [hpoll])] at he'
    cases he'
  · rw [takeWhile_cons_of_pos (by simpa using hpoll)] at he'
    rcases mem_cons.mp he' with rfl | he'
    · exact .inl hcall
    · exact .inr ⟨e', he', hcall⟩

lemma Stage.frame (h : Stage events s k)
    (hunb : (taskId k, k) ∈ s'.unborn ↔ (taskId k, k) ∈ s.unborn)
    (htsk : s'.tasks (taskId k) = s.tasks (taskId k))
    (hpoll : e.result.polled? ≠ some k) (hfin : e.result.finished? ≠ some k)
    (hqd : s.tasks (taskId k) = some k → Queued s k → Queued s' k)
    (hpush : s.point = .pushReady (taskId k) → Queued s' k ∨ s'.point = .pushReady (taskId k))
    (hwake : e.call = .wake (taskId k) → Queued s' k) : Stage (e :: events) s' k := by
  have hpoll' : k ∈ polledIn (e :: events) ↔ k ∈ polledIn events :=
    mem_polledIn_cons.trans (or_iff_right hpoll)
  have hfin' : k ∈ finishedIn (e :: events) ↔ k ∈ finishedIn events :=
    mem_finishedIn_cons.trans (or_iff_right hfin)
  cases h with
  | unborn hmem htask hp hf =>
    exact .unborn (hunb.mpr hmem) (htsk.trans htask) (mt hpoll'.mp hp)
      (mt hfin'.mp hf)
  | fresh hmem htask hp hf hq =>
    refine .fresh (mt hunb.mp hmem) (htsk.trans htask) (mt hpoll'.mp hp)
      (mt hfin'.mp hf) ?_
    rcases hq with hq | hq
    · exact .inl (hqd htask hq)
    · exact hpush hq
  | live hmem htask hp hf hw =>
    refine .live (mt hunb.mp hmem) (htsk.trans htask) (hpoll'.mpr hp)
      (mt hfin'.mp hf) fun hwok => ?_
    rcases hwok.of_cons with hcall | hwok
    · exact hwake hcall
    · exact hqd htask (hw hwok)
  | dead hmem htask hp hf =>
    exact .dead (mt hunb.mp hmem) (htsk.trans htask) (hpoll'.mpr hp) (hfin'.mpr hf)

structure Numbered (events : List ExecutorEvent) (s : Executor) : Prop where
  next : s.nextTaskId = taskId s.created
  unborn : ∀ x ∈ s.unborn, x.1 = taskId x.2 ∧ x.2 < s.created
  nodup : s.unborn.Nodup
  tasks : ∀ i k, s.tasks i = some k → i = taskId k ∧ k < s.created
  polled : ∀ k ∈ polledIn events, k < s.created
  finished : ∀ k ∈ finishedIn events, k < s.created
  spawned : ∀ k ∈ spawnedIn events, k < s.created ∧ (taskId k, k) ∉ s.spawning
  wakers : ∀ i ∈ s.wakers, ∃ k ∈ polledIn events, i = taskId k
  woken : ∀ e ∈ events, ∀ i, e.call = .wake i → i ∈ s.wakers
  polling : ∀ i k, s.point = .polling i k → s.tasks i = some k ∧ k ∈ polledIn events

lemma numbered_default : Numbered [] .default where
  next := rfl
  unborn := forall_mem_nil _
  nodup := nodup_nil
  tasks _ k h := absurd h.symm (Option.some_ne_none k)
  polled := forall_mem_nil _
  finished := forall_mem_nil _
  spawned := forall_mem_nil _
  wakers := forall_mem_nil _
  woken := forall_mem_nil _
  polling _ _ h := ExecutorPoint.noConfusion h

structure Moved (e : ExecutorEvent) (s s' : Executor) : Prop where
  next : s'.nextTaskId = s.nextTaskId
  created : s'.created = s.created
  unborn : ∀ x ∈ s'.unborn, x ∈ s.unborn
  nodup : s.unborn.Nodup → s'.unborn.Nodup
  tasks : ∀ i k, s'.tasks i = some k → s.tasks i = some k ∨ (i, k) ∈ s.unborn
  spawning : ∀ x ∈ s'.spawning, x ∈ s.spawning
  spawned : ∀ k, e.result.spawned? = some k →
    ∃ i, (i, k) ∈ s.unborn ∧ (s.unborn.Nodup → (i, k) ∉ s'.spawning)
  polled : ∀ k, e.result.polled? = some k → ∃ i, s.tasks i = some k
  finished : ∀ k, e.result.finished? = some k → ∃ i, s.tasks i = some k
  wakers : ∀ i ∈ s'.wakers, i ∈ s.wakers ∨ ∃ k, e.result.polled? = some k ∧ s.tasks i = some k
  mono : ∀ i ∈ s.wakers, i ∈ s'.wakers
  woken : ∀ i, e.call = .wake i → i ∈ s.wakers
  polling : ∀ i k, s'.point = .polling i k → s'.tasks i = s.tasks i ∧
    (s.point = .polling i k ∨ s.tasks i = some k ∧ e.result.polled? = some k)

lemma Numbered.moved (h : Numbered events s) (hmov : Moved e s s') :
    Numbered (e :: events) s' where
  next := by rw [hmov.next, hmov.created, h.next]
  unborn x hx := by
    rw [hmov.created]
    exact h.unborn x (hmov.unborn x hx)
  nodup := hmov.nodup h.nodup
  tasks i k hik := by
    rw [hmov.created]
    rcases hmov.tasks i k hik with hik | hik
    · exact h.tasks i k hik
    · exact h.unborn _ hik
  polled k hk := by
    rw [hmov.created]
    rcases mem_polledIn_cons.mp hk with hk | hk
    · obtain ⟨i, hi⟩ := hmov.polled k hk
      exact (h.tasks i k hi).2
    · exact h.polled k hk
  finished k hk := by
    rw [hmov.created]
    rcases mem_finishedIn_cons.mp hk with hk | hk
    · obtain ⟨i, hi⟩ := hmov.finished k hk
      exact (h.tasks i k hi).2
    · exact h.finished k hk
  spawned k hk := by
    rw [hmov.created]
    rcases mem_spawnedIn_cons.mp hk with hk | hk
    · obtain ⟨i, hmem, hnot⟩ := hmov.spawned k hk
      obtain ⟨rfl, hlt⟩ : i = taskId k ∧ k < s.created := h.unborn _ hmem
      exact ⟨hlt, hnot h.nodup⟩
    · obtain ⟨hlt, hnot⟩ := h.spawned k hk
      exact ⟨hlt, mt (hmov.spawning _) hnot⟩
  wakers i hi := by
    rcases hmov.wakers i hi with hi | ⟨k, hpoll, hi⟩
    · obtain ⟨k, hk, heq⟩ := h.wakers i hi
      exact ⟨k, mem_polledIn_cons.mpr (.inr hk), heq⟩
    · exact ⟨k, mem_polledIn_cons.mpr (.inl hpoll), (h.tasks i k hi).1⟩
  woken e' he' i hcall := by
    rcases mem_cons.mp he' with rfl | he'
    · exact hmov.mono i (hmov.woken i hcall)
    · exact hmov.mono i (h.woken e' he' i hcall)
  polling i k hpt := by
    obtain ⟨htsk, hpt | ⟨htask, hpoll⟩⟩ := hmov.polling i k hpt
    · obtain ⟨htask, hpoll⟩ := h.polling i k hpt
      exact ⟨htsk.trans htask, mem_polledIn_cons.mpr (.inr hpoll)⟩
    · exact ⟨htsk.trans htask, mem_polledIn_cons.mpr (.inl hpoll)⟩

/-! ### One step -/

variable {a : ExecutorAct} {o : ExecutorOutcome}

inductive Stepped (s : Executor) : ExecutorAct → ExecutorOutcome → Executor → Prop where
  | takeId : Stepped s .takeId .done s.takeId
  | pushNew {x} (hmem : x ∈ s.spawning) : Stepped s (.pushNew x) (.spawned x.2) { s with
      newTaskQueue := s.newTaskQueue ++ [x]
      spawning := s.spawning.erase x }
  | wake {id} (hmem : id ∈ s.wakers) :
      Stepped s (.wake id) .done { s with readyQueue := s.readyQueue ++ [id] }
  | noNew (hpoint : s.point = .popNew) (hnew : s.newTaskQueue = []) :
      Stepped s .run .done { s with point := .popReady }
  | popNew {id task rest} (hpoint : s.point = .popNew)
      (hnew : s.newTaskQueue = (id, task) :: rest) :
      Stepped s .run .done { s with newTaskQueue := rest, point := .insert id task }
  | insert {id task} (hpoint : s.point = .insert id task) : Stepped s .run .done { s with
      tasks := Function.update s.tasks id (some task)
      point := .pushReady id }
  | pushReady {id} (hpoint : s.point = .pushReady id) : Stepped s .run .done { s with
      readyQueue := s.readyQueue ++ [id]
      point := .popNew }
  | noReady (hpoint : s.point = .popReady) (hready : s.readyQueue = []) :
      Stepped s .run .bottom { s with point := .popNew }
  | popReady {id rest} (hpoint : s.point = .popReady) (hready : s.readyQueue = id :: rest) :
      Stepped s .run .done { s with readyQueue := rest, point := .lookup id }
  | stale {id} (hpoint : s.point = .lookup id) (htask : s.tasks id = none) :
      Stepped s .run .done { s with point := .popReady }
  | beginPoll {id task} (hpoint : s.point = .lookup id) (htask : s.tasks id = some task) :
      Stepped s .run (.polled task) (s.beginPoll id task)
  | finish {id task} (hpoint : s.point = .polling id task) :
      Stepped s (.pollReturns true) (.finished task) (s.finish id)
  | pending {id task} (hpoint : s.point = .polling id task) :
      Stepped s (.pollReturns false) .done { s with point := .popReady }

lemma stepped_of_run (hstep : s.run = some (o, s')) (hok : o.panicked? = none) :
    Stepped s .run o s' := by
  rw [run] at hstep
  split at hstep
  case h_1 hpt =>
    split at hstep
    case h_1 hnew =>
      cases hstep
      exact .noNew hpt hnew
    case h_2 hnew =>
      cases hstep
      exact .popNew hpt hnew
  case h_2 hpt =>
    cases hstep
    exact .insert hpt
  case h_3 hpt =>
    rw [pushReady] at hstep
    split_ifs at hstep
    · cases hstep
      exact .pushReady hpt
    · cases hstep
      cases hok
  case h_4 hpt =>
    split at hstep
    case h_1 hrdy =>
      cases hstep
      exact .noReady hpt hrdy
    case h_2 hrdy =>
      cases hstep
      exact .popReady hpt hrdy
  case h_5 hpt =>
    split at hstep
    case h_1 htask =>
      cases hstep
      exact .stale hpt htask
    case h_2 htask =>
      cases hstep
      exact .beginPoll hpt htask
  case h_6 => cases hstep

lemma stepped_of_step (hstep : step a s = some (o, s')) (hok : o.panicked? = none) :
    Stepped s a o s' := by
  cases a with
  | takeId =>
    cases hstep
    exact .takeId
  | pushNew x =>
    rw [step, pushNew] at hstep
    split_ifs at hstep with hmem
    · cases hstep
      exact .pushNew hmem
    · cases hstep
      cases hok
  | wake id =>
    rw [step, pushReady] at hstep
    split_ifs at hstep with hmem
    · cases hstep
      exact .wake hmem
    · cases hstep
      cases hok
  | run => exact stepped_of_run hstep hok
  | pollReturns ready =>
    rw [step] at hstep
    split at hstep
    case h_1 hpt =>
      cases ready with
      | true =>
        cases hstep
        exact .finish hpt
      | false =>
        cases hstep
        exact .pending hpt
    all_goals cases hstep

/-! ### Overflow -/

def Executor.NeedsReady (s : Executor) : ExecutorAct → Prop
  | .wake _ => True
  | .run => ∃ id, s.point = .pushReady id
  | .takeId | .pushNew _ | .pollReturns _ => False

lemma run_panicked_iff (hstep : s.run = some (o, s')) :
    o.panicked? = none ↔
      (s.NeedsReady .run → s.readyQueue.length < readyQueueCapacity) := by
  rw [run] at hstep
  split at hstep
  case h_3 hpt =>
    rw [pushReady] at hstep
    split_ifs at hstep with hroom
    · cases hstep
      exact iff_of_true rfl fun _ => hroom
    · cases hstep
      exact iff_of_false nofun fun h => hroom (h ⟨_, hpt⟩)
  case h_6 => cases hstep
  all_goals
    rename_i hpt
    have hnot : ¬ s.NeedsReady .run := by simp [Executor.NeedsReady, hpt]
    refine iff_of_true ?_ fun h => absurd h hnot
    first
      | (cases hstep; rfl)
      | (split at hstep <;> cases hstep <;> rfl)

lemma panicked_iff_ready (ha : ∀ x, a ≠ .pushNew x) (hstep : step a s = some (o, s')) :
    o.panicked? = none ↔
      (s.NeedsReady a → s.readyQueue.length < readyQueueCapacity) := by
  cases a with
  | takeId =>
    cases hstep
    exact iff_of_true rfl nofun
  | pushNew x => exact absurd rfl (ha x)
  | wake id =>
    rw [step, pushReady] at hstep
    split_ifs at hstep with _ hroom
    · cases hstep
      exact iff_of_true rfl fun _ => hroom
    · cases hstep
      exact iff_of_false nofun fun h => hroom (h trivial)
  | run => exact run_panicked_iff hstep
  | pollReturns ready =>
    refine iff_of_true ?_ nofun
    rw [step] at hstep
    split at hstep
    case h_1 => cases ready <;> cases hstep <;> rfl
    all_goals cases hstep

lemma Numbered.takeId (h : Numbered events s) :
    Numbered (⟨.takeId, .done, s, s'⟩ :: events) s.takeId := by
  have hlt : ∀ k, k < s.created → k < s.created + 1 := fun k hk => hk.trans (lt_add_one _)
  have hnew : (s.nextTaskId, s.created) ∉ s.unborn := fun hmem => (h.unborn _ hmem).2.ne rfl
  refine ⟨?_, ?_, ?_, fun i k hik => ?_, fun k hk => hlt k (h.polled k hk),
    fun k hk => hlt k (h.finished k hk), fun k hk => ?_, h.wakers, ?_, h.polling⟩
  · rw [Executor.takeId, h.next]
    exact (BitVec.ofNat_add (s.created + 1) 1).symm
  · exact forall_mem_cons.mpr
      ⟨⟨h.next, lt_add_one _⟩, fun x hx => ⟨(h.unborn x hx).1, hlt _ (h.unborn x hx).2⟩⟩
  · exact nodup_cons.mpr ⟨hnew, h.nodup⟩
  · obtain ⟨hi, hk⟩ := h.tasks i k hik
    exact ⟨hi, hlt k hk⟩
  · obtain ⟨hk, hnot⟩ := h.spawned k hk
    refine ⟨hlt k hk, fun hmem => ?_⟩
    rcases mem_cons.mp hmem with heq | hmem
    · exact hk.ne (congrArg Prod.snd heq)
    · exact hnot hmem
  · exact forall_mem_cons.mpr ⟨nofun, h.woken⟩

lemma Moved.of_eq (hnext : s'.nextTaskId = s.nextTaskId) (hcre : s'.created = s.created)
    (hunb : s'.unborn = s.unborn) (htsk : s'.tasks = s.tasks)
    (hspn : s'.spawning = s.spawning) (hwks : s'.wakers = s.wakers)
    (hspd : e.result.spawned? = none) (hpoll : e.result.polled? = none)
    (hfin : e.result.finished? = none) (hwok : ∀ i, e.call = .wake i → i ∈ s.wakers)
    (hpt : ∀ i k, s'.point = .polling i k → s.point = .polling i k) : Moved e s s' where
  next := hnext
  created := hcre
  unborn x hx := hunb ▸ hx
  nodup hnd := hunb ▸ hnd
  tasks i k hik := .inl (htsk ▸ hik)
  spawning x hx := hspn ▸ hx
  spawned k hk := by cases hspd.symm.trans hk
  polled k hk := by cases hpoll.symm.trans hk
  finished k hk := by cases hfin.symm.trans hk
  wakers i hi := .inl (hwks ▸ hi)
  mono i hi := hwks ▸ hi
  woken := hwok
  polling i k hik := ⟨congrFun htsk i, .inl (hpt i k hik)⟩

lemma unborn_eq (hspn : s'.spawning = s.spawning) (hnew : s'.newTaskQueue = s.newTaskQueue)
    (hpt : ∀ id task, s.point ≠ .insert id task)
    (hpt' : ∀ id task, s'.point ≠ .insert id task) : s'.unborn = s.unborn := by
  rw [unborn, unborn, hspn, hnew]
  cases hp : s.point with
  | insert id task => exact absurd hp (hpt id task)
  | popNew | pushReady _ | popReady | lookup _ | polling _ _ =>
    cases hp' : s'.point with
    | insert id task => exact absurd hp' (hpt' id task)
    | popNew | pushReady _ | popReady | lookup _ | polling _ _ => rfl

lemma perm_pushNew {x : TaskId × ℕ} (hmem : x ∈ s.spawning) :
    (s.spawning.erase x ++ (s.newTaskQueue ++ [x])).Perm (s.spawning ++ s.newTaskQueue) := by
  refine ((perm_append_singleton x _).append_left _).trans ?_
  exact perm_middle.trans ((perm_cons_erase hmem).symm.append_right _)

lemma mem_beginPoll_wakers {id i : TaskId} {task : ℕ} :
    i ∈ (s.beginPoll id task).wakers ↔ i ∈ s.wakers ∨ i = id ∧ s.wakerCache id = false := by
  rw [beginPoll]
  split_ifs with hcac
  · simp [hcac]
  · simp [hcac, or_comm]

lemma Stepped.moved (h : Stepped s a o s') (ha : a ≠ .takeId)
    (hpol : ∀ i k, s.point = .polling i k → s.tasks i = some k) : Moved ⟨a, o, s, s'⟩ s s' := by
  cases h with
  | takeId => exact absurd rfl ha
  | @pushNew x hmem =>
    have hunb := (perm_pushNew hmem).append_right s.point.inserting
    refine ⟨rfl, rfl, fun y hy => hunb.mem_iff.mp hy, hunb.nodup_iff.mpr,
      fun i k hik => .inl hik, fun y hy => mem_of_mem_erase hy, fun k hk => ?_, nofun, nofun,
      fun i hi => .inl hi, fun i hi => hi, nofun, fun i k hik => ⟨rfl, .inl hik⟩⟩
    cases hk
    refine ⟨x.1, ?_, fun hnd hmem' => ?_⟩
    · exact mem_append_left _ (mem_append_left _ hmem)
    · have hnd : s.spawning.Nodup := hnd.of_append_left.of_append_left
      exact (hnd.mem_erase_iff.mp hmem').1 rfl
  | wake hmem =>
    refine .of_eq rfl rfl rfl rfl rfl rfl rfl rfl rfl (fun i hi => ?_) fun i k hik => hik
    cases hi
    exact hmem
  | noNew hpt hnew | pushReady hpt | noReady hpt hrdy | popReady hpt hrdy
  | stale hpt htask | pending hpt =>
    exact .of_eq rfl rfl (unborn_eq rfl rfl (by simp [hpt]) nofun) rfl rfl rfl rfl rfl rfl
      nofun nofun
  | @popNew id task rest hpt hnew =>
    have hperm : (s.spawning ++ rest ++ [(id, task)]).Perm s.unborn := by
      simp only [Executor.unborn, hpt, hnew, ExecutorPoint.inserting, append_nil, append_assoc]
      exact (perm_append_singleton _ _).append_left _
    exact ⟨rfl, rfl, fun y hy => hperm.mem_iff.mp hy, hperm.nodup_iff.mpr, fun i k hik => .inl hik,
      fun y hy => hy, nofun, nofun, nofun, fun i hi => .inl hi, fun i hi => hi, nofun, nofun⟩
  | @insert id task hpt =>
    have hunb : s.unborn = s.spawning ++ s.newTaskQueue ++ [(id, task)] := by
      rw [Executor.unborn, hpt]
      rfl
    have hsub : (s.spawning ++ s.newTaskQueue ++ []).Sublist s.unborn := by
      rw [hunb]
      exact List.Sublist.append_left (nil_sublist _) _
    refine ⟨rfl, rfl, fun x hx => hsub.subset hx, fun hnd => hnd.sublist hsub,
      fun i k hik => ?_, fun y hy => hy, nofun, nofun, nofun, fun i hi => .inl hi,
      fun i hi => hi, nofun, nofun⟩
    simp only [update_apply] at hik
    split_ifs at hik with hi
    · cases hi
      cases hik
      exact .inr (hunb ▸ mem_append_right _ mem_cons_self)
    · exact .inl hik
  | @beginPoll id task hpt htask =>
    have hunb : (s.beginPoll id task).unborn = s.unborn :=
      unborn_eq rfl rfl (by simp [hpt]) nofun
    refine ⟨rfl, rfl, fun x hx => hunb ▸ hx, fun hnd => hunb ▸ hnd,
      fun i k hik => .inl hik, fun y hy => hy, nofun, fun k hk => ?_, nofun, fun i hi => ?_,
      fun i hi => ?_, nofun, fun i k hik => ?_⟩
    · cases hk
      exact ⟨id, htask⟩
    · rcases mem_beginPoll_wakers.mp hi with hi | ⟨rfl, -⟩
      · exact .inl hi
      · exact .inr ⟨task, rfl, htask⟩
    · exact mem_beginPoll_wakers.mpr (.inl hi)
    · cases hik
      exact ⟨rfl, .inr ⟨htask, rfl⟩⟩
  | @finish id task hpt =>
    have hunb : (s.finish id).unborn = s.unborn :=
      unborn_eq rfl rfl (by simp [hpt]) nofun
    refine ⟨rfl, rfl, fun x hx => hunb ▸ hx, fun hnd => hunb ▸ hnd,
      fun i k hik => .inl ?_, fun y hy => hy, nofun, nofun, fun k hk => ?_, fun i hi => .inl hi,
      fun i hi => hi, nofun, nofun⟩
    · simp only [Executor.finish, update_apply] at hik
      split_ifs at hik
      exact hik
    · cases hk
      exact ⟨id, hpol id _ hpt⟩

lemma Numbered.stepped (h : Numbered events s) (hstep : Stepped s a o s') :
    Numbered (⟨a, o, s, s'⟩ :: events) s' := by
  by_cases ha : a = .takeId
  · subst ha
    cases hstep
    exact h.takeId
  · exact h.moved (hstep.moved ha fun i k hik => (h.polling i k hik).1)

def Staged (events : List ExecutorEvent) (s : Executor) : Prop :=
  ∀ k < s.created, Stage events s k

section

variable (h : Staged events s)

include h

lemma Staged.takeId (hn : Numbered events s) (hcre : s.created < 2 ^ 32) :
    Staged (⟨.takeId, .done, s, s'⟩ :: events) s.takeId := by
  intro k hk
  rcases Nat.lt_succ_iff_lt_or_eq.mp hk with hlt | rfl
  · refine (h k hlt).frame ?_ rfl nofun nofun (fun _ hq => hq) .inr nofun
    refine mem_cons.trans (or_iff_right fun heq => ?_)
    exact hlt.ne (congrArg Prod.snd heq)
  · refine .unborn ?_ ?_ (fun hpoll => (hn.polled _ hpoll).ne rfl)
      fun hfin => (hn.finished _ hfin).ne rfl
    · exact hn.next ▸ mem_cons_self
    · cases htask : s.tasks (taskId s.created) with
      | none => exact htask
      | some k =>
        obtain ⟨heq, hlt⟩ := hn.tasks _ _ htask
        exact absurd (taskId_injective hcre (hlt.trans hcre) heq) hlt.ne'

lemma Staged.about (k₀ : ℕ) (hcre : s'.created = s.created)
    (hunb : ∀ k ≠ k₀, (taskId k, k) ∈ s'.unborn ↔ (taskId k, k) ∈ s.unborn)
    (htsk : ∀ k < s.created, k ≠ k₀ → s'.tasks (taskId k) = s.tasks (taskId k))
    (hpoll : ∀ k ≠ k₀, e.result.polled? ≠ some k) (hfin : ∀ k ≠ k₀, e.result.finished? ≠ some k)
    (hqd : ∀ k < s.created, k ≠ k₀ → Queued s k → Queued s' k)
    (hpush : ∀ k, s.point ≠ .pushReady (taskId k)) (hwake : ∀ i, e.call ≠ .wake i)
    (hown : k₀ < s.created → Stage (e :: events) s' k₀) : Staged (e :: events) s' := by
  intro k hk
  rw [hcre] at hk
  by_cases heq : k = k₀
  · exact heq ▸ hown (heq ▸ hk)
  · exact (h k hk).frame (hunb k heq) (htsk k hk heq) (hpoll k heq) (hfin k heq)
      (fun _ => hqd k hk heq) (fun hpt => absurd hpt (hpush k))
      fun hcall => absurd hcall (hwake _)

lemma Staged.of_moved (hcre : s'.created = s.created)
    (hunb : ∀ x, x ∈ s'.unborn ↔ x ∈ s.unborn) (htsk : s'.tasks = s.tasks)
    (hpoll : e.result.polled? = none) (hfin : e.result.finished? = none)
    (hqd : ∀ k, s.tasks (taskId k) = some k → Queued s k → Queued s' k)
    (hpush : ∀ k, s.point = .pushReady (taskId k) → Queued s' k ∨ s'.point = .pushReady (taskId k))
    (hwake : ∀ k, e.call = .wake (taskId k) → Queued s' k) : Staged (e :: events) s' := by
  intro k hk
  rw [hcre] at hk
  refine (h k hk).frame (hunb _) (congrFun htsk _) ?_ ?_ (hqd k) (hpush k) (hwake k)
  · rw [hpoll]
    exact (Option.some_ne_none k).symm
  · rw [hfin]
    exact (Option.some_ne_none k).symm

lemma Staged.of_point (hcre : s'.created = s.created) (hspn : s'.spawning = s.spawning)
    (hnew : s'.newTaskQueue = s.newTaskQueue) (hpt : ∀ id task, s.point ≠ .insert id task)
    (hpt' : ∀ id task, s'.point ≠ .insert id task) (htsk : s'.tasks = s.tasks)
    (hqd : ∀ k, s.tasks (taskId k) = some k → Queued s k → Queued s' k)
    (hpush : ∀ k, s.point = .pushReady (taskId k) → Queued s' k) (hpoll : e.result.polled? = none)
    (hfin : e.result.finished? = none) (hwake : ∀ i, e.call ≠ .wake i) :
    Staged (e :: events) s' := by
  have hunb := unborn_eq hspn hnew hpt hpt'
  exact h.of_moved hcre (fun _ => by rw [hunb]) htsk hpoll hfin hqd
    (fun k hk => .inl (hpush k hk)) fun k hk => absurd hk (hwake _)

variable {id : TaskId} {task : ℕ}

lemma Staged.insert (hn : Numbered events s)
    (hcre : s.created < 2 ^ 32) (hpt : s.point = .insert id task) :
    Staged (⟨.run, .done, s, s'⟩ :: events) { s with
      tasks := Function.update s.tasks id (some task)
      point := .pushReady id } := by
  have hunb : s.unborn = s.spawning ++ s.newTaskQueue ++ [(id, task)] := by
    rw [unborn, hpt]
    rfl
  have hmem : (id, task) ∈ s.unborn := hunb ▸ mem_append_right _ mem_cons_self
  obtain ⟨hid, hlt⟩ : id = taskId task ∧ task < s.created := hn.unborn _ hmem
  subst hid
  have hnot : (taskId task, task) ∉ s.spawning ++ s.newTaskQueue := by
    have hnd := hunb ▸ hn.nodup
    exact fun hmem' => (nodup_append.mp hnd).2.2 _ hmem' _ mem_cons_self rfl
  refine h.about task rfl (fun k hne => ?_) (fun k hk hne => ?_) nofun nofun ?_ ?_ nofun
    fun _ => ?_
  · rw [hunb, mem_append (t := [(taskId task, task)]), mem_singleton]
    refine Iff.trans ?_ (or_iff_left fun heq => hne (congrArg Prod.snd heq)).symm
    rw [unborn, ExecutorPoint.inserting, append_nil]
  · refine update_of_ne (fun heq => hne ?_) _ _
    exact taskId_injective (hk.trans hcre) (hlt.trans hcre) heq
  · rintro k - - (hq | hq)
    · exact .inl hq
    · cases hpt.symm.trans hq
  · simp [hpt]
  · have hstg := h task hlt
    cases hstg with
    | unborn _ _ hpoll hfin =>
      refine .fresh ?_ (update_self _ _ _) hpoll hfin (.inr rfl)
      rwa [unborn, ExecutorPoint.inserting, append_nil]
    | fresh hmem' _ _ _ _ | live hmem' _ _ _ _ | dead hmem' _ _ _ => exact absurd hmem hmem'

lemma Staged.beginPoll (hn : Numbered events s) (hcre : s.created < 2 ^ 32)
    (hpt : s.point = .lookup id) (htask : s.tasks id = some task) :
    Staged (⟨.run, .polled task, s, s'⟩ :: events) (s.beginPoll id task) := by
  obtain ⟨rfl, hlt⟩ := hn.tasks _ _ htask
  have hunb : (s.beginPoll (taskId task) task).unborn = s.unborn :=
    unborn_eq rfl rfl (by simp [hpt]) nofun
  refine h.about task rfl (fun k _ => by rw [hunb]) (fun _ _ _ => rfl) ?_ nofun ?_
    (by simp [hpt]) nofun fun _ => ?_
  · rintro k hne ⟨⟩
    exact hne rfl
  · rintro k hk hne (hq | hq)
    · exact .inl hq
    · have heq := ExecutorPoint.lookup.inj (hpt.symm.trans hq)
      exact absurd (taskId_injective (hlt.trans hcre) (hk.trans hcre) heq).symm hne
  · have hpoll : task ∈ polledIn (⟨.run, .polled task, s, s'⟩ :: events) :=
      mem_polledIn_cons.mpr (.inl rfl)
    have hwok : ¬ WokenSince task (⟨.run, .polled task, s, s'⟩ :: events) :=
      not_wokenSince_of_polled rfl
    have hstg := h task hlt
    cases hstg with
    | unborn _ hnone _ _ | dead _ hnone _ _ => cases hnone.symm.trans htask
    | fresh hmem _ _ hfin _ | live hmem _ _ hfin _ =>
      exact .live (hunb ▸ hmem) htask hpoll hfin fun hw => absurd hw hwok

lemma Staged.finish (hn : Numbered events s)
    (hcre : s.created < 2 ^ 32) (hpt : s.point = .polling id task) :
    Staged (⟨.pollReturns true, .finished task, s, s'⟩ :: events) (s.finish id) := by
  obtain ⟨htask, hpoll⟩ := hn.polling _ _ hpt
  obtain ⟨rfl, hlt⟩ := hn.tasks _ _ htask
  have hunb : (s.finish (taskId task)).unborn = s.unborn :=
    unborn_eq rfl rfl (by simp [hpt]) nofun
  refine h.about task rfl (fun k _ => by rw [hunb]) (fun k hk hne => ?_) nofun ?_ ?_
    (by simp [hpt]) nofun fun _ => ?_
  · refine update_of_ne (fun heq => hne ?_) _ _
    exact taskId_injective (hk.trans hcre) (hlt.trans hcre) heq
  · rintro k hne ⟨⟩
    exact hne rfl
  · rintro k - - (hq | hq)
    · exact .inl hq
    · cases hpt.symm.trans hq
  · refine .dead ?_ (update_self _ _ _) hpoll (mem_finishedIn_cons.mpr (.inl rfl))
    rw [hunb]
    have hstg := h task hlt
    cases hstg with
    | unborn _ hnone _ _ => cases hnone.symm.trans htask
    | fresh hmem _ _ _ _ | live hmem _ _ _ _ | dead hmem _ _ _ => exact hmem

lemma Staged.stepped (hn : Numbered events s)
    (hstep : Stepped s a o s') (hcre : s'.created < 2 ^ 32) :
    Staged (⟨a, o, s, s'⟩ :: events) s' := by
  cases hstep with
  | takeId => exact h.takeId hn ((lt_add_one _).trans hcre)
  | @pushNew x hmem =>
    have hunb := (perm_pushNew hmem).append_right s.point.inserting
    exact h.of_moved rfl (fun y => hunb.mem_iff) rfl rfl rfl (fun k _ hq => hq)
      (fun k hq => .inr hq) nofun
  | @wake id hmem =>
    refine h.of_moved rfl (fun _ => Iff.rfl) rfl rfl rfl (fun k _ hq => ?_) (fun k hq => .inr hq)
      fun k hcall => ?_
    · exact hq.imp_left (mem_append_left _)
    · cases hcall
      exact .inl (mem_append_right _ mem_cons_self)
  | noNew hpt hnew | noReady hpt hrdy | pending hpt =>
    refine h.of_point rfl rfl rfl (by simp [hpt]) nofun rfl (fun k _ hq => ?_)
      (by simp [hpt]) rfl rfl nofun
    exact hq.imp_right fun hq => by cases hpt.symm.trans hq
  | popNew hpt hnew =>
    refine h.of_moved rfl (fun y => ?_) rfl rfl rfl (fun k _ hq => ?_) (by simp [hpt]) nofun
    · simp only [unborn, hpt, hnew, ExecutorPoint.inserting, mem_append,
        mem_cons, not_mem_nil, or_false]
      rw [or_assoc]
      exact or_congr_right or_comm
    · exact hq.imp_right fun hq => by cases hpt.symm.trans hq
  | insert hpt => exact h.insert hn hcre hpt
  | pushReady hpt =>
    refine h.of_point rfl rfl rfl (by simp [hpt]) nofun rfl (fun k _ hq => ?_) (fun k hq => ?_)
      rfl rfl nofun
    · rcases hq with hq | hq
      · exact .inl (mem_append_left _ hq)
      · cases hpt.symm.trans hq
    · have heq := ExecutorPoint.pushReady.inj (hpt.symm.trans hq)
      exact .inl (heq ▸ mem_append_right _ mem_cons_self)
  | popReady hpt hrdy =>
    refine h.of_point rfl rfl rfl (by simp [hpt]) nofun rfl (fun k _ hq => ?_)
      (by simp [hpt]) rfl rfl nofun
    rcases hq with hq | hq
    · rcases mem_cons.mp (hrdy ▸ hq) with heq | hq
      · exact .inr (congrArg ExecutorPoint.lookup heq.symm)
      · exact .inl hq
    · cases hpt.symm.trans hq
  | stale hpt htask =>
    refine h.of_point rfl rfl rfl (by simp [hpt]) nofun rfl (fun k hk hq => ?_)
      (by simp [hpt]) rfl rfl nofun
    rcases hq with hq | hq
    · exact .inl hq
    -- The task with this id has finished, so the id is none of a task in the map.
    · rw [← ExecutorPoint.lookup.inj (hpt.symm.trans hq), htask] at hk
      cases hk
  | beginPoll hpt htask => exact h.beginPoll hn hcre hpt htask
  | finish hpt => exact h.finish hn hcre hpt

end

/-! ### Runs -/

def NeverAgain (events : List ExecutorEvent) : Prop :=
  events.Pairwise fun later earlier =>
    ∀ k, later.result = .polled k → earlier.result ≠ .finished k

lemma NeverAgain.stepped (h : NeverAgain events) (hn : Numbered events s) (hs : Staged events s)
    (hstep : Stepped s a o s') : NeverAgain (⟨a, o, s, s'⟩ :: events) := by
  refine pairwise_cons.mpr ⟨fun e he k hpoll hfin => ?_, h⟩
  have hmem : k ∈ finishedIn events :=
    mem_history.mpr ⟨e, he, by rw [hfin]; rfl⟩
  cases hstep with
  | beginPoll hpt htask =>
    cases hpoll
    obtain ⟨rfl, hlt⟩ := hn.tasks _ _ htask
    have hstg := hs k hlt
    cases hstg with
    | unborn _ hnone _ _ | dead _ hnone _ _ => cases hnone.symm.trans htask
    | fresh _ _ _ hnot _ | live _ _ _ hnot _ => exact hnot hmem
  | _ => cases hpoll

lemma created_le (hstep : Stepped s a o s') : s.created ≤ s'.created := by
  cases hstep with
  | takeId => exact Nat.le_succ _
  | _ => exact le_refl _

section

variable (hrun : Core.Run step .default events s)
  (hok : ∀ e ∈ events, e.result.panicked? = none)

include hrun hok

lemma numbered_of_run : Numbered events s := by
  induction hrun with
  | nil => exact numbered_default
  | call _ hstep ih =>
    obtain ⟨hlast, hbef⟩ := forall_mem_cons.mp hok
    exact (ih hbef).stepped (stepped_of_step hstep hlast)

lemma staged_of_run (hcre : s.created < 2 ^ 32) :
    Staged events s := by
  induction hrun with
  | nil => exact fun k hk => absurd hk (Nat.not_lt_zero k)
  | call hrun hstep ih =>
    obtain ⟨hlast, hbef⟩ := forall_mem_cons.mp hok
    have hstd := stepped_of_step hstep hlast
    have hs := ih hbef ((created_le hstd).trans_lt hcre)
    exact hs.stepped (numbered_of_run hrun hbef) hstd hcre

lemma neverAgain_of_run (hcre : s.created < 2 ^ 32) :
    NeverAgain events := by
  induction hrun with
  | nil => exact List.Pairwise.nil
  | call hrun hstep ih =>
    obtain ⟨hlast, hbef⟩ := forall_mem_cons.mp hok
    have hstd := stepped_of_step hstep hlast
    have hlt := (created_le hstd).trans_lt hcre
    exact (ih hbef hlt).stepped (numbered_of_run hrun hbef)
      (staged_of_run hrun hbef hlt) hstd

end

structure Served (events : List ExecutorEvent) (s : Executor) : Prop where
  never_again : NeverAgain events
  polled : ∀ e older, events = e :: older → e.result = .bottom → s.newTaskQueue = [] →
    s.readyQueue = [] → ∀ k ∈ spawnedIn events, k ∈ polledIn events
  queued : ∀ k ∉ finishedIn events, k < s.created → WokenSince k events → Queued s k

/-- In all runs without overflow in which fewer than 2 ^ 32 tasks are spawned, the executor serves
its tasks. -/
theorem served_of_run (hrun : Core.Run step .default events s)
    (hok : ∀ e ∈ events, e.result.panicked? = none) (hcreated : s.created < 2 ^ 32) :
    Served events s := by
  have hn := numbered_of_run hrun hok
  have hs := staged_of_run hrun hok hcreated
  refine ⟨neverAgain_of_run hrun hok hcreated, ?_, fun k hlive hk hwok => ?_⟩
  · rintro ⟨a, o, s₁, s₂⟩ older rfl rfl hnew hrdy k hk
    cases hrun with
    | call hrun hstep =>
      obtain ⟨hlt, hspn⟩ := hn.spawned k hk
      have hpt : s.point = .popNew := by
        have hstd := stepped_of_step hstep rfl
        cases hstd
        rfl
      have hstg := hs k hlt
      cases hstg with
      | unborn hmem _ _ _ =>
        rw [unborn, hnew, hpt, ExecutorPoint.inserting, append_nil, append_nil] at hmem
        exact absurd hmem hspn
      | fresh _ _ _ _ hqd =>
        rw [Queued, hrdy, hpt] at hqd
        simp at hqd
      | live _ _ hpoll _ _ | dead _ _ hpoll _ => exact hpoll
  · obtain ⟨e, he, hcall⟩ := hwok
    have hwak := hn.woken e ((takeWhile_sublist _).subset he) _ hcall
    obtain ⟨k', hpoll, heq⟩ := hn.wakers _ hwak
    have hkk := taskId_injective (hk.trans hcreated) ((hn.polled k' hpoll).trans hcreated) heq
    subst hkk
    have hstg := hs k hk
    cases hstg with
    | unborn _ _ hnot _ | fresh _ _ hnot _ _ => exact absurd hpoll hnot
    | live _ _ _ _ hq => exact hq ⟨e, he, hcall⟩
    | dead _ _ _ hfin => exact absurd hfin hlive

end

def sampleActs : List ExecutorAct :=
  [.run, .pollReturns true, .run, .run, .pollReturns false, .wake 1, .run, .run, .run, .run, .run,
    .run, .pushNew (1, 0), .takeId]

theorem served_of_run_twice :
    ∃ events s, Core.Run step .default events s ∧ polledIn events = [0, 0] ∧
      finishedIn events = [0] ∧ Served events s := by
  obtain ⟨events, s, hrun, hpoll, hfin, hok, hcre⟩ := Run.exists_of_execute
    step .default sampleActs
    (Q := fun events s => polledIn events = [0, 0] ∧ finishedIn events = [0] ∧
      (∀ e ∈ events, e.result.panicked? = none) ∧ s.created < 2 ^ 32) (by decide +kernel)
  exact ⟨events, s, hrun, hpoll, hfin, served_of_run hrun hok hcre⟩

end Kernel.Tasks
