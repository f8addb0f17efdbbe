import Kernel.Core.Interleaving
import Kernel.Process.Basic

/-!
# Queue commands of one process

A task that creates a queue waits once, with an id but before the new queue is registered. Between
two waits a task runs alone.
-/

namespace Kernel.Process

open Core Action Memory Kapi ProcessM ProcessState List

/-! ### What keeps the queues of a process -/

structure Queues where
  nextQueueId : BitVec 16
  sendQueues : List (UserQueue × UserQueue)
  recvQueues : List UserQueue

def ProcessState.queues (s : ProcessState) : Queues :=
  ⟨s.proc.nextQueueId, s.proc.sendQueues, s.proc.recvQueues⟩

section keeps

variable {γ : Type} {g : ProcessState → γ}

variable {α : Type}

lemma keeps_paging (hg : ∀ s memory, g { s with memory } = g s) (reason : String)
    (x : PageTable.PagingM α) : Keeps g (paging reason x) := by
  intro s
  rw [paging]
  split
  · exact hg s _
  · exact hg s _

lemma keeps_allocator {β : Type} {put : β → ProcessState → ProcessState}
    (hg : ∀ b s, g (put b s) = g s) (reason : String) (x : Checked (Except MemoryError α × β)) :
    Keeps g (allocator reason put x) := by
  intro s
  rcases x with p | ⟨e | a, b⟩
  · rfl
  · exact hg b s
  · exact hg b s

lemma keeps_checked (x : Checked α) : Keeps g (checked x : ProcessM α) := keeps_lift _ _

variable {kernelTable : PageTable}

lemma keeps_allocPages (hg : ∀ s memory, g { s with memory } = g s) (vaddr : ℕ)
    (kvaddr : Option ℕ) (rounds offset pageCount : ℕ) :
    Keeps g (allocPages kernelTable vaddr kvaddr rounds offset pageCount) := by
  induction rounds generalizing offset pageCount with
  | zero => exact keeps_pure ()
  | succ rounds ih =>
    refine Keeps.ite ?_ (keeps_pure ())
    refine Keeps.bind (keeps_get.bind fun _ => keeps_allocator (fun _ s => hg s _) _ _)
      fun paddr => ?_
    refine Keeps.bind (keeps_get.bind fun _ => keeps_paging hg _ _) fun _ => ?_
    refine Keeps.bind ?_ fun _ => ?_
    · cases kvaddr with
      | none => exact keeps_pure ()
      | some kvaddr => exact keeps_paging hg _ _
    · exact (keeps_checked _).bind fun _ => (keeps_checked _).bind fun _ =>
        (keeps_checked _).bind fun _ => ih _ _

end keeps

section queues

variable {kernelTable : PageTable}

lemma keeps_allocMemory (pageCount : ℕ) (shareWithKernel : Bool) :
    Keeps queues (allocMemory kernelTable pageCount shareWithKernel) := by
  refine Keeps.bind (keeps_get.bind fun _ => keeps_allocator (by intros; rfl) _ _) fun vaddr => ?_
  refine Keeps.bind ?_ fun kvaddr => ?_
  · cases shareWithKernel with
    | false => exact keeps_pure none
    | true =>
      exact Keeps.map (keeps_get.bind fun _ => keeps_allocator (by intros; rfl) _ _)
  · exact (keeps_allocPages (fun _ _ => rfl) _ _ _ _ _).bind fun _ => keeps_pure _

lemma keeps_freeAddresses (ptr pageCount : ℕ) :
    Keeps queues (freeAddresses ptr pageCount) := by
  intro s
  rw [freeAddresses]
  split <;> rfl

lemma keeps_freeMemory (ptr pageCount : ℕ) :
    Keeps queues (freeMemory ptr pageCount) :=
  Keeps.bind keeps_get fun _ => (keeps_paging (fun _ _ => rfl) _ _).bind fun _ =>
    keeps_freeAddresses _ _

lemma keeps_freeQueue (region : Option (ℕ × ℕ × ℕ)) :
    Keeps queues (freeQueue kernelTable region) := by
  rcases region with _ | ⟨userAddr, kernelAddr, pageCount⟩
  · exact keeps_throw _
  · exact (keeps_freeMemory _ _).bind fun _ => keeps_paging (fun _ _ => rfl) _ _

lemma keeps_regionOf (message : Message) (q : Option UserQueue) :
    Keeps queues (regionOf message q) := by
  cases q with
  | none => exact keeps_pure none
  | some q => exact (keeps_checked _).map

variable {s : ProcessState} {id : QueueId} {pageCount size : ℕ}

lemma wp_finishQueue :
    wp (finishQueue kernelTable id pageCount size)
      (fun q s' => q.id = id ∧ s'.queues = s.queues) (fun _ s' => s'.queues = s.queues) s := by
  rw [finishQueue, wp_bind]
  refine wp_mono (wp_of_keeps (keeps_allocMemory pageCount true)) ?_ fun _ _ h => h
  rintro ⟨userBaseAddress, _ | rootAddress⟩ s' h
  · exact h
  · rw [wp_ite]
    refine ⟨fun _ => h, fun _ => ?_⟩
    rw [wp_bind]
    exact wp_lift (fun _ _ => ⟨rfl, h⟩) fun _ _ => h

structure Removed (id : QueueId) (q q' : Queues) : Prop where
  nextQueueId_eq : q'.nextQueueId = q.nextQueueId
  sendQueues_sublist : q'.sendQueues.Sublist q.sendQueues
  recvQueues_eq : q'.recvQueues = q.recvQueues.eraseP fun q => q.id = id

lemma wp_removeQueue :
    wp (removeQueue kernelTable id) (fun _ s' => Removed id s.queues s'.queues)
      (fun _ s' => Removed id s.queues s'.queues) s := by
  have hrecv : ∀ s' : ProcessState, s'.queues = ⟨s.queues.nextQueueId, s.queues.sendQueues,
      s.queues.recvQueues.eraseP fun q => q.id = id⟩ → Removed id s.queues s'.queues :=
    fun s' h => ⟨by rw [h], by rw [h], by rw [h]⟩
  rw [removeQueue, removeRecv, wp_bind, wp_bind, wp_get, wp_bind, wp_modify, wp_pure, wp_bind]
  refine wp_mono (wp_of_keeps (keeps_regionOf _ _)) (fun recv s₁ h₁ => ?_) fun _ _ h => hrecv _ h
  rw [removeSend, wp_bind, wp_bind, wp_get, wp_bind, wp_modify, wp_pure, wp_bind]
  have hsend : ∀ s' : ProcessState, s'.queues = ⟨s₁.queues.nextQueueId,
      s₁.queues.sendQueues.eraseP fun q => q.1.id = id, s₁.queues.recvQueues⟩ →
      Removed id s.queues s'.queues := fun s' h => by
    rw [h₁] at h
    exact ⟨by rw [h]; rfl, by rw [h]; exact eraseP_sublist, by rw [h]; rfl⟩
  refine wp_mono (wp_of_keeps (keeps_regionOf _ _)) (fun send s₂ h₂ => ?_) fun _ _ h => hsend _ h
  exact wp_mono (wp_of_keeps (keeps_freeQueue _)) (fun _ s' h => hsend s' (h.trans h₂))
    fun _ s' h => hsend s' (h.trans h₂)

end queues

/-! ### Tasks -/

inductive QueueTask where
  | createCompletion (size : ℕ)
  | createSubmission (info : CreateSubmissionQueue)
  | destroy (id : QueueId)
  | completionWaiting (id : QueueId) (pageCount size : ℕ)
  | submissionWaiting (recv : UserQueue) (id : QueueId) (pageCount size : ℕ)
  | finished (result : Except Failure CompletionKind)

namespace QueueTask

def IsCommand : QueueTask → Prop
  | .createCompletion _ | .createSubmission _ | .destroy _ => True
  | _ => False

instance : DecidablePred IsCommand := fun c => by
  cases c <;> unfold IsCommand <;> infer_instance

def resume {α : Type} (next : α → QueueTask) :
    Except Failure α × ProcessState → ProcessState × QueueTask
  | (.ok a, s) => (s, next a)
  | (.error e, s) => (s, .finished (.error e))

def prepareSubmission (info : CreateSubmissionQueue) : ProcessM (UserQueue × QueueId × ℕ) := do
  let recv ← findRecv info.associatedCompletionQueue
  let queue ← prepareQueue .command info.size
  pure (recv, queue)

def step (kernelTable : PageTable) (s : ProcessState) : QueueTask → ProcessState × QueueTask
  | .createCompletion size =>
    resume (fun (id, pageCount) => .completionWaiting id pageCount size)
      (prepareQueue .completion size s)
  | .createSubmission info =>
    resume (fun (recv, id, pageCount) => .submissionWaiting recv id pageCount info.size)
      (prepareSubmission info s)
  | .destroy id => resume (fun _ => .finished (.ok .success)) (destroyQueue kernelTable id s)
  | .completionWaiting id pageCount size =>
    resume (fun queue => .finished (.ok (.newQueue queue)))
      (finishCompletionQueue kernelTable id pageCount size s)
  | .submissionWaiting recv id pageCount size =>
    resume (fun queue => .finished (.ok (.newQueue queue)))
      (finishSubmissionQueue kernelTable recv id pageCount size s)
  | .finished result => (s, .finished result)

def scheduled (kernelTable : PageTable) (_ : Unit) (_ : ℕ) (s : ProcessState) (c : QueueTask) :
    ProcessState × QueueTask := c.step kernelTable s

def program (kernelTable : PageTable) : Program ProcessState QueueTask :=
  .ofFun (scheduled kernelTable) IsCommand

def pending : QueueTask → Option QueueId
  | .completionWaiting id _ _ | .submissionWaiting _ id _ _ => some id
  | _ => none

inductive Effect : Queues → QueueTask → Queues → QueueTask → Prop where
  | stay {q c c'} (h : c'.pending = none) : Effect q c q c'
  | take {q c c'} (hid : q.nextQueueId ≠ 0) (hc : c.pending = none)
      (h : ∀ id, c'.pending = some id → id = q.nextQueueId) :
      Effect q c { q with nextQueueId := q.nextQueueId + 1 } c'
  | recv {q c c' queue} (hc : c.pending = some queue.id) (h : c'.pending = none) :
      Effect q c { q with recvQueues := queue :: q.recvQueues } c'
  | send {q c' queue r pageCount size} (h : c'.pending = none) :
      Effect q (.submissionWaiting r queue.id pageCount size)
        { q with sendQueues := (queue, r) :: q.sendQueues } c'
  | remove {q id q' c c'} (hunused : ∀ e ∈ q.sendQueues, e.2.id ≠ id)
      (hremoved : Removed id q q') (hc : c.pending = none) (h : c'.pending = none) :
      Effect q c q' c'

section effect

variable {kernelTable : PageTable} {s : ProcessState} {c : QueueTask}

lemma effect_resume {α : Type} {x : ProcessM α} {next : α → QueueTask}
    (h : wp x (fun a s' => Effect s.queues c s'.queues (next a))
      (fun e s' => Effect s.queues c s'.queues (.finished (.error e))) s) :
    Effect s.queues c (resume next (x s)).1.queues (resume next (x s)).2 := by
  unfold wp at h
  cases hrun : x s with
  | mk result s' =>
    rw [hrun] at h
    cases result with
    | ok a | error e => exact h

lemma wp_prepareQueue {message : Message} {numElements : ℕ} :
    wp (prepareQueue message numElements)
      (fun queue s' => s.queues.nextQueueId ≠ 0 ∧ queue.1 = s.queues.nextQueueId ∧
        s'.queues = { s.queues with nextQueueId := s.queues.nextQueueId + 1 })
      (fun _ s' => s'.queues = s.queues ∨ s.queues.nextQueueId ≠ 0 ∧
        s'.queues = { s.queues with nextQueueId := s.queues.nextQueueId + 1 }) s := by
  rw [prepareQueue, wp_ite]
  refine ⟨fun _ => .inl rfl, fun _ => ?_⟩
  rw [wp_bind, wp, nextQueueId]
  dsimp only
  split_ifs with hid
  · exact .inl rfl
  · dsimp only
    rw [wp_bind]
    exact wp_lift (fun _ _ => ⟨hid, rfl, rfl⟩) fun _ _ => .inr ⟨hid, rfl⟩

lemma Effect.of_prepare_error {q q' : Queues} (hc : c.pending = none) (e : Failure)
    (h : q' = q ∨ q.nextQueueId ≠ 0 ∧ q' = { q with nextQueueId := q.nextQueueId + 1 }) :
    Effect q c q' (.finished (.error e)) := by
  rcases h with rfl | ⟨hid, rfl⟩
  · exact .stay rfl
  · exact .take hid hc nofun

lemma step_effect (kernelTable : PageTable) (s : ProcessState) (c : QueueTask) :
    Effect s.queues c (c.step kernelTable s).1.queues (c.step kernelTable s).2 := by
  cases c with
  | createCompletion size =>
    refine effect_resume (wp_mono wp_prepareQueue ?_ fun e s' h => .of_prepare_error rfl e h)
    rintro ⟨id, pageCount⟩ s' ⟨hid, rfl, hqs⟩
    rw [hqs]
    exact .take hid rfl fun _ h => (Option.some.inj h).symm
  | createSubmission info =>
    refine effect_resume ?_
    rw [prepareSubmission, wp_bind, findRecv, wp_bind, wp_get]
    split
    · rw [wp_pure, wp_bind]
      refine wp_mono wp_prepareQueue ?_ fun e s' h => .of_prepare_error rfl e h
      rintro ⟨id, pageCount⟩ s' ⟨hid, rfl, hqs⟩
      rw [wp_pure, hqs]
      exact .take hid rfl fun _ h => (Option.some.inj h).symm
    · exact .stay rfl
  | destroy id =>
    refine effect_resume ?_
    rw [destroyQueue, wp_bind, wp_get, wp_ite]
    refine ⟨fun _ => .stay rfl, fun hunu => ?_⟩
    have hne : ∀ e ∈ s.queues.sendQueues, e.2.id ≠ id := by
      intro e he heq
      exact hunu (any_eq_true.mpr ⟨e, he, decide_eq_true heq⟩)
    exact wp_mono wp_removeQueue (fun _ _ h => .remove hne h rfl rfl)
      fun _ _ h => .remove hne h rfl rfl
  | completionWaiting id pageCount size =>
    refine effect_resume ?_
    rw [finishCompletionQueue, wp_bind]
    refine wp_mono wp_finishQueue ?_ fun _ s' h => by rw [h]; exact .stay rfl
    rintro queue s' ⟨rfl, hqs⟩
    rw [wp_bind, pushRecv, wp_modify, wp_pure]
    have hpush : queues
        { s' with proc.recvQueues := queue :: s'.proc.recvQueues } =
        { s.queues with recvQueues := queue :: s.queues.recvQueues } := by
      rw [← hqs]
      rfl
    rw [hpush]
    exact .recv rfl rfl
  | submissionWaiting recv id pageCount size =>
    refine effect_resume ?_
    rw [finishSubmissionQueue, wp_bind]
    refine wp_mono wp_finishQueue ?_ fun _ s' h => by rw [h]; exact .stay rfl
    rintro queue s' ⟨rfl, hqs⟩
    rw [wp_bind, pushSend, wp_modify, wp_pure]
    have hpush : queues
        { s' with proc.sendQueues := (queue, recv) :: s'.proc.sendQueues } =
        { s.queues with sendQueues := (queue, recv) :: s.queues.sendQueues } := by
      rw [← hqs]
      rfl
    rw [hpush]
    exact .send rfl
  | finished result => exact .stay rfl

end effect

/-! ### Queue ids -/

def Issued (next id : BitVec 16) : Prop := id ≠ 0 ∧ (next = 0 ∨ id.toNat < next.toNat)

instance (next id : BitVec 16) : Decidable (Issued next id) :=
  inferInstanceAs (Decidable (_ ∧ _))

lemma issued_add_one {next id : BitVec 16} (hnext : next ≠ 0) :
    Issued (next + 1) id ↔ id = next ∨ Issued next id := by
  unfold Issued
  bv_omega

lemma not_issued_self {next : BitVec 16} (hnext : next ≠ 0) : ¬ Issued next next := by
  rintro ⟨-, h | h⟩
  · exact hnext h
  · exact absurd h (lt_irrefl _)

def holds (id : QueueId) (c : QueueTask) : ℕ := if c.pending = some id then 1 else 0

def uses (id : QueueId) (q : Queues) (cs : List QueueTask) : ℕ :=
  (q.sendQueues.map fun e => e.1.id).count id + (q.recvQueues.map fun e => e.id).count id +
    total (holds id) cs

def IdsInv (q : Queues) (cs : List QueueTask) : Prop :=
  ∀ id, uses id q cs ≤ if Issued q.nextQueueId id then 1 else 0

variable {q q' : Queues} {cs : List QueueTask} {c c' : QueueTask} {t : ℕ}

lemma holds_of_pending (h : c.pending = none) (id : QueueId) : holds id c = 0 := by
  simp [holds, h]

lemma IdsInv.step (h : IdsInv q cs) (hc : cs[t]? = some c) (heff : Effect q c q' c') :
    IdsInv q' (cs.set t c') := by
  intro id
  have hid := h id
  have htot := total_set (holds id) c' hc
  simp only [uses] at hid ⊢
  cases heff with
  | stay hc' =>
    rw [holds_of_pending hc'] at htot
    omega
  | take hnext hpend hc' =>
    rw [holds_of_pending hpend] at htot
    have hself := not_issued_self hnext
    have hiss : Issued (q.nextQueueId + 1) id ↔ _ := issued_add_one hnext
    have hnew : holds id c' ≤ if id = q.nextQueueId then 1 else 0 := by
      rw [holds]
      split_ifs with hsome hne
      · exact le_refl _
      · exact absurd (hc' id hsome) hne
      all_goals exact Nat.zero_le _
    dsimp only
    by_cases hsame : id = q.nextQueueId
    · subst hsame
      rw [if_neg hself] at hid
      rw [if_pos rfl] at hnew
      rw [if_pos (hiss.mpr (.inl rfl))]
      omega
    · rw [if_neg hsame] at hnew
      have hiff : Issued (q.nextQueueId + 1) id ↔ Issued q.nextQueueId id :=
        hiss.trans (or_iff_right hsame)
      simp only [hiff]
      omega
  | recv hpend hc' =>
    rename_i queue
    rw [holds_of_pending hc'] at htot
    have hold : holds id c = if queue.id = id then 1 else 0 := by
      simp only [holds, hpend, Option.some.injEq]
    simp only [map_cons, count_cons, beq_iff_eq]
    omega
  | send hc' =>
    rename_i queue r pageCount size
    rw [holds_of_pending hc'] at htot
    have hold : holds id (.submissionWaiting r queue.id pageCount size) =
        if queue.id = id then 1 else 0 := by
      simp only [holds, pending, Option.some.injEq]
    simp only [map_cons, count_cons, beq_iff_eq]
    omega
  | remove hunu hrem hpend hc' =>
    rw [holds_of_pending hpend, holds_of_pending hc'] at htot
    have hsend := (hrem.sendQueues_sublist.map fun e => e.1.id).count_le id
    have hrecv : (q'.recvQueues.map fun e => e.id).count id ≤
        (q.recvQueues.map fun e => e.id).count id := by
      rw [hrem.recvQueues_eq]
      exact (eraseP_sublist.map fun e : UserQueue => e.id).count_le id
    rw [hrem.nextQueueId_eq]
    omega

lemma IdsInv.append (h : IdsInv q cs) (hc : c.IsCommand) : IdsInv q (cs ++ [c]) := by
  intro id
  have hzero : holds id c = 0 := by
    cases c <;> first | exact hc.elim | rfl
  have hid := h id
  rw [uses, total_append_singleton, hzero]
  exact hid

def IsNew (s : ProcessState) : Prop := s.queues = ⟨firstRecvQueueId, [], []⟩

variable {kernelTable : PageTable} {s : ProcessState}

lemma idsInv_of_reachable {cfg : Config _ _}
    (hnew : IsNew s) (h : (program kernelTable).Reachable s cfg) :
    IdsInv cfg.shared.queues cfg.calls := by
  refine h.induct (I := fun s cs => IdsInv s.queues cs) ?_ ?_ ?_
  · intro id
    rw [hnew]
    exact Nat.zero_le _
  · exact fun s cs c hinv hst => hinv.append hst
  · rintro s cs t c s' c' hinv hc ⟨_, hstep⟩
    have heff := step_effect kernelTable s c
    rw [scheduled] at hstep
    rw [← hstep] at heff
    exact hinv.step hc heff

def IdsDistinct (q : Queues) : Prop :=
  ((q.sendQueues.map fun e => e.1.id) ++ q.recvQueues.map fun e => e.id).Nodup

lemma IdsInv.distinct (h : IdsInv q cs) : IdsDistinct q := by
  rw [IdsDistinct, nodup_iff_count_le_one]
  intro id
  rw [count_append]
  have hid := h id
  rw [uses] at hid
  split_ifs at hid <;> omega

/-! ### Associated queues -/

def Associated (q : Queues) : Prop := ∀ e ∈ q.sendQueues, e.2 ∈ q.recvQueues

instance (q : Queues) : Decidable (Associated q) :=
  inferInstanceAs (Decidable (∀ e ∈ q.sendQueues, e.2 ∈ q.recvQueues))

def Present (q : Queues) : QueueTask → Prop
  | .submissionWaiting recv _ _ _ => recv ∈ q.recvQueues
  | _ => True

instance (q : Queues) (c : QueueTask) : Decidable (c.Present q) := by
  cases c <;> unfold Present <;> infer_instance

def registersPresent : Program.Discipline ProcessState QueueTask where
  start _ _ := True
  step s _ c := c.Present s.queues

instance (cs : List QueueTask) (c : QueueTask) : Decidable (registersPresent.start cs c) :=
  .isTrue trivial

instance (s : ProcessState) (cs : List QueueTask) (c : QueueTask) :
    Decidable (registersPresent.step s cs c) := inferInstanceAs (Decidable (c.Present s.queues))

lemma Associated.step (h : Associated q) (heff : Effect q c q' c') (hpre : c.Present q) :
    Associated q' := by
  cases heff with
  | stay | take => exact h
  | recv => exact fun e he => mem_cons_of_mem _ (h e he)
  | send =>
    rintro e (_ | ⟨_, he⟩)
    · exact hpre
    · exact h e he
  | remove hunu hrem =>
    intro e he
    have he := hrem.sendQueues_sublist.subset he
    rw [hrem.recvQueues_eq]
    exact (mem_eraseP_of_neg (by simpa using hunu e he)).mpr (h e he)

lemma associated_of_reachable {cfg : Config _ _}
    (hnew : IsNew s) (h : (program kernelTable).ReachableUnder registersPresent s cfg) :
    Associated cfg.shared.queues := by
  refine h.induct (I := fun s _ => Associated s.queues) ?_ ?_ ?_
  · intro e he
    rw [hnew] at he
    cases he
  · exact fun s cs c hinv _ _ => hinv
  · rintro s cs t c s' c' hinv hc ⟨_, hstep⟩ hd
    have heff := step_effect kernelTable s c
    rw [scheduled] at hstep
    rw [← hstep] at heff
    exact hinv.step heff hd

/-! ### The answer to `DestroyQueue` -/

def AnsweredWith {α : Type} (code : ErrorCode) (result : Except Failure α) : Prop :=
  ∃ e, result = .error (.error e) ∧ e.asCode = .ok code

def NotInUse (f : Failure) : Prop := ∀ e, f = .error e → e.asCode ≠ .ok .inUse

lemma notInUse_ofPagingError (reason : String) (e : PageTable.PagingError) :
    NotInUse (ofPagingError reason e) := by
  intro e' he
  cases e with
  | panic p => cases he
  | memory source =>
    cases he
    rcases source with _ | _ | (_ | _ | _ | _ | _) <;> exact nofun

lemma wp_paging_notInUse {α : Type} (reason : String) (x : PageTable.PagingM α) :
    wp (paging reason x) (fun _ _ => True) (fun e _ => NotInUse e) s := by
  rw [wp, paging]
  cases x s.memory with
  | mk result memory =>
    cases result with
    | ok a => trivial
    | error e => exact notInUse_ofPagingError reason e

lemma wp_checked_notInUse {α : Type} (x : Checked α) :
    wp (checked x : ProcessM α) (fun _ _ => True) (fun e _ => NotInUse e) s :=
  wp_lift (fun _ _ => trivial) fun _ _ _ => nofun

lemma wp_removeQueue_notInUse {id : QueueId} :
    wp (removeQueue kernelTable id) (fun _ _ => True) (fun e _ => NotInUse e) s := by
  have hreg : ∀ message (queue : Option UserQueue) s, wp (regionOf message queue)
      (fun _ _ => True) (fun e _ => NotInUse e) s := by
    intro message queue s
    cases queue with
    | none => trivial
    | some queue =>
      change wp (checked _ >>= fun r => pure (some r)) _ _ _
      rw [wp_bind]
      exact wp_mono (wp_checked_notInUse _) (fun _ _ _ => trivial) fun _ _ h => h
  rw [removeQueue, removeRecv, wp_bind, wp_bind, wp_get, wp_bind, wp_modify, wp_pure, wp_bind]
  refine wp_mono (hreg _ _ _) (fun recv s₁ _ => ?_) fun _ _ h => h
  rw [removeSend, wp_bind, wp_bind, wp_get, wp_bind, wp_modify, wp_pure, wp_bind]
  refine wp_mono (hreg _ _ _) (fun send s₂ _ => ?_) fun _ _ h => h
  rcases recv.or send with _ | ⟨userAddr, kernelAddr, pageCount⟩
  · rintro e ⟨⟩ ⟨⟩
  · rw [freeQueue, wp_bind, freeMemory, wp_bind, wp_get, wp_bind]
    refine wp_mono (wp_paging_notInUse _ _) (fun _ s₃ _ => ?_) fun _ _ h => h
    rw [wp, freeAddresses]
    split
    · rename_i hfree
      split at hfree
      · cases hfree
      · cases hfree
        exact wp_paging_notInUse _ _
    · rename_i hfree
      split at hfree
      · cases hfree
        rintro e ⟨⟩
      · cases hfree

lemma destroyQueue_inUse_iff (kernelTable : PageTable) (s : ProcessState) (id : QueueId) :
    AnsweredWith .inUse (destroyQueue kernelTable id s).1 ↔
      ∃ e ∈ s.queues.sendQueues, e.2.id = id := by
  have hiff : (s.proc.sendQueues.any fun q => q.2.id = id) = true ↔
      ∃ e ∈ s.queues.sendQueues, e.2.id = id := by
    simp [queues]
  by_cases hused : (s.proc.sendQueues.any fun q => q.2.id = id) = true
  · refine iff_of_true ⟨.misc "completion queue still in use" (some .inUse), ?_, rfl⟩
      (hiff.mp hused)
    change ((if _ then _ else _ : ProcessM Unit) s).1 = _
    rw [if_pos hused]
    rfl
  · refine iff_of_false ?_ (mt hiff.mpr hused)
    rintro ⟨e, he, hcode⟩
    have hrun : destroyQueue kernelTable id s = removeQueue kernelTable id s := by
      change (if _ then _ else _ : ProcessM Unit) s = _
      rw [if_neg hused]
    have hwp : wp (removeQueue kernelTable id) _ _ s := wp_removeQueue_notInUse
    rw [wp, ← hrun] at hwp
    cases hres : destroyQueue kernelTable id s with
    | mk result s' =>
      rw [hres] at hwp he
      obtain rfl : result = .error (.error e) := he
      exact hwp e rfl hcode

/-! ### Results -/

/-- In every run the ids of the queues are distinct and `DestroyQueue` is answered with `InUse`
exactly for a queue that a submission queue is associated with. If every submission queue is
registered while its completion queue is still there, the associated completion queues are always
there. -/
theorem reachable_queues {kernelTable : PageTable} {s : ProcessState} (hnew : IsNew s) :
    (∀ cfg, (program kernelTable).Reachable s cfg → IdsDistinct cfg.shared.queues ∧
      ∀ id, AnsweredWith .inUse (destroyQueue kernelTable id cfg.shared).1 ↔
        ∃ e ∈ cfg.shared.queues.sendQueues, e.2.id = id) ∧
    ∀ cfg, (program kernelTable).ReachableUnder registersPresent s cfg →
      Associated cfg.shared.queues :=
  ⟨fun _ h => ⟨(idsInv_of_reachable hnew h).distinct,
    fun id => destroyQueue_inUse_iff kernelTable _ id⟩, fun _ h => associated_of_reachable hnew h⟩

def sampleKernelTable : PageTable := ⟨true, 0, 0x1000⟩

def sampleProcess : Process where
  id := 1
  pageTables := ⟨false, 1, 0x2000⟩
  addressSpaceAllocator := .new 0x1000 (0x0000_ffff_ffff_ffff / pageSize)
  nextQueueId := firstRecvQueueId
  sendQueues := []
  recvQueues := []

def sampleState : ProcessState where
  memory := ⟨fun _ _ => .invalid, ⟨List.replicate 24 false, 0x10000⟩⟩
  virtualAddressAllocator := .new 0xffff_0001_0000_0000 (0x0100_0000_0000 / pageSize)
  proc := sampleProcess

def twoQueues : List (Act Unit QueueTask) :=
  [.start (.createCompletion 1), .step 0 (), .step 0 (), .start (.createSubmission ⟨1, 1⟩),
    .step 1 (), .step 1 ()]

theorem reachable_queues_two :
    Associated (twoQueues.foldl (act (scheduled sampleKernelTable))
      ⟨sampleState, []⟩).shared.queues ∧
    (twoQueues.foldl (act (scheduled sampleKernelTable))
      ⟨sampleState, []⟩).shared.queues.sendQueues.length = 1 := by
  have hnew : IsNew sampleState := rfl
  refine ⟨(reachable_queues hnew).2 _ (Obeys.reachableUnder ?_), by decide +kernel⟩
  decide +kernel

def destroyWhileWaiting : List (Act Unit QueueTask) :=
  [.start (.createCompletion 1), .step 0 (), .step 0 (), .start (.createSubmission ⟨1, 1⟩),
    .step 1 (), .start (.destroy 1), .step 2 (), .step 1 ()]

/-- The submission queue ends up associated with a completion queue that does not exist. -/
theorem reachable_not_associated :
    ∃ cfg, (program sampleKernelTable).Reachable sampleState cfg ∧
      ¬ Associated cfg.shared.queues := by
  refine ⟨destroyWhileWaiting.foldl (act (scheduled sampleKernelTable)) ⟨sampleState, []⟩,
    reachable_schedule ?_, by decide +kernel⟩
  intro c hc
  simp only [destroyWhileWaiting, mem_cons, Act.start.injEq, reduceCtorEq, false_or, or_false,
    not_mem_nil] at hc
  rcases hc with rfl | rfl | rfl <;> trivial

end QueueTask

end Kernel.Process
