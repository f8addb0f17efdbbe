import Kernel.Core.Runs
import Kernel.Storage.Nvme.Queue

/-!
# Waiting for completions

A command is submitted with an id of its own, and its future waits for the completion with this id.
-/

namespace Kernel.Storage.Nvme

open Core List Function

structure Delivery where
  command : ℕ
  completion : Completion
  deriving DecidableEq

inductive PendingCompletion where
  | waiting (future : ℕ)
  | ready (r : Delivery)

structure CompletionFuture where
  cmdId : BitVec 16
  result : Option Delivery

structure CompletionQueueHandle where
  nextCmdId : BitVec 16
  pendingCompletions : BitVec 16 → Option PendingCompletion
  submitted : ℕ
  futures : ℕ → Option CompletionFuture
  completed : List ℕ
  posted : List Delivery
  interruptPending : Bool
  handling : Bool
  woken : List ℕ

inductive CompletionQueueHandle.Act where
  | waitForCompletion
  | poll (k : ℕ)
  | complete (r : Delivery)
  | takeInterrupt
  | handleInterrupt

inductive CompletionQueueHandle.Outcome where
  | done
  | resolved (k : ℕ) (r : Delivery)
  | panicked
  deriving DecidableEq

namespace CompletionQueueHandle

def new : CompletionQueueHandle where
  nextCmdId := 0
  pendingCompletions := fun _ => none
  submitted := 0
  futures := fun _ => none
  completed := []
  posted := []
  interruptPending := false
  handling := false
  woken := []

def waitForCompletion (s : CompletionQueueHandle) : CompletionQueueHandle :=
  { s with
    nextCmdId := s.nextCmdId + 1
    submitted := s.submitted + 1
    futures := update s.futures s.submitted (some ⟨s.nextCmdId, none⟩) }

def poll (k : ℕ) (cmdId : BitVec 16) (s : CompletionQueueHandle) :
    Outcome × CompletionQueueHandle :=
  match s.pendingCompletions cmdId with
  | none | some (.waiting _) =>
    (.done, { s with
      pendingCompletions := update s.pendingCompletions cmdId (some (.waiting k)) })
  | some (.ready r) =>
    (.resolved k r, { s with
      pendingCompletions := update s.pendingCompletions cmdId none
      futures := update s.futures k (some ⟨cmdId, some r⟩) })

def deliver (r : Delivery) (s : CompletionQueueHandle) : Outcome × CompletionQueueHandle :=
  match s.pendingCompletions r.completion.id with
  | some (.waiting k) =>
    (.done, { s with
      pendingCompletions :=
        update s.pendingCompletions r.completion.id (some (.ready r))
      woken := k :: s.woken })
  | some (.ready _) => (.panicked, s)
  | none =>
    (.done, { s with
      pendingCompletions :=
        update s.pendingCompletions r.completion.id (some (.ready r)) })

def handleInterrupt (s : CompletionQueueHandle) : Outcome × CompletionQueueHandle :=
  match s.posted with
  | r :: posted => deliver r { s with posted, handling := false }
  | [] => (.done, { s with handling := false })

def Completable (r : Delivery) (s : CompletionQueueHandle) : Prop :=
  r.command ∉ s.completed ∧ ∃ f ∈ s.futures r.command, f.cmdId = r.completion.id

instance (r : Delivery) (s : CompletionQueueHandle) : Decidable (Completable r s) :=
  inferInstanceAs (Decidable (_ ∧ _))

def step : Act → CompletionQueueHandle → Option (Outcome × CompletionQueueHandle)
  | .waitForCompletion, s => some (.done, s.waitForCompletion)
  | .poll k, s =>
    match s.futures k with
    | some ⟨cmdId, none⟩ => some (s.poll k cmdId)
    | some ⟨_, some _⟩ | none => none
  | .complete r, s =>
    if Completable r s then
      some (.done, { s with
        completed := r.command :: s.completed
        posted := s.posted ++ [r]
        interruptPending := true })
    else none
  | .takeInterrupt, s =>
    if s.interruptPending ∧ ¬ s.handling then
      some (.done, { s with interruptPending := false, handling := true })
    else none
  | .handleInterrupt, s => if s.handling then some s.handleInterrupt else none

end CompletionQueueHandle

open CompletionQueueHandle (Act Outcome step Completable)

abbrev HandleEvent := Event CompletionQueueHandle Act Outcome

/-- What should hold in every state: a future has resolved only with the completion of its own
command, and when no interrupt is pending or being handled, no completion has been left in the queue
while its future waits. -/
structure Delivered (s : CompletionQueueHandle) : Prop where
  own : ∀ k f r, s.futures k = some f → f.result = some r → r.command = k
  popped : s.interruptPending = false → s.handling = false →
    ∀ r ∈ s.posted, ∀ f, s.futures r.command = some f → f.result ≠ none

def Orderly (e : HandleEvent) : Prop :=
  match e.call with
  | .waitForCompletion =>
    ∀ k < e.before.submitted, ∀ f ∈ e.before.futures k,
      f.result = none → f.cmdId ≠ e.before.nextCmdId
  | .complete _ => e.before.interruptPending = false
  | .poll _ | .takeInterrupt | .handleInterrupt => True

instance : DecidablePred Orderly
  | ⟨.waitForCompletion, _, s, _⟩ =>
    inferInstanceAs (Decidable (∀ k < s.submitted, ∀ f ∈ s.futures k,
      f.result = none → f.cmdId ≠ s.nextCmdId))
  | ⟨.complete _, _, _, _⟩ => inferInstanceAs (Decidable (_ = false))
  | ⟨.poll _, _, _, _⟩ | ⟨.takeInterrupt, _, _, _⟩ | ⟨.handleInterrupt, _, _, _⟩ => .isTrue trivial

/-! ### The invariant -/

lemma update_eq_cases {α β : Type*} [DecidableEq α] {f : α → β} {a x : α} {b y : β}
    (h : update f a b x = y) : x = a ∧ b = y ∨ x ≠ a ∧ f x = y := by
  by_cases hx : x = a
  · subst hx
    rw [update_self] at h
    exact .inl ⟨rfl, h⟩
  · rw [update_of_ne hx] at h
    exact .inr ⟨hx, h⟩

def Waits (s : CompletionQueueHandle) (k : ℕ) (id : BitVec 16) : Prop :=
  s.futures k = some ⟨id, none⟩

structure HandleOk (s : CompletionQueueHandle) : Prop where
  unused : ∀ k, s.submitted ≤ k → s.futures k = none
  distinct : ∀ j k id, Waits s j id → Waits s k id → j = k
  own : ∀ k id r, s.futures k = some ⟨id, some r⟩ → r.command = k ∧ k ∈ s.completed
  waiting_ok : ∀ id k, s.pendingCompletions id = some (.waiting k) → Waits s k id
  ready_ok : ∀ id r, s.pendingCompletions id = some (.ready r) →
    Waits s r.command id ∧ r.command ∈ s.completed ∧ r.command ∉ s.posted.map (·.command)
  posted_ok : ∀ r ∈ s.posted, Waits s r.command r.completion.id ∧ r.command ∈ s.completed
  posted_nodup : (s.posted.map (·.command)).Nodup
  interrupts : s.posted.length = s.interruptPending.toNat + s.handling.toNat

section

variable {s s' : CompletionQueueHandle} {o : Outcome} {k : ℕ} {r : Delivery}

lemma handleOk_new : HandleOk .new where
  unused _ _ := rfl
  distinct := nofun
  own := nofun
  waiting_ok := nofun
  ready_ok := nofun
  posted_ok := nofun
  posted_nodup := nodup_nil
  interrupts := rfl

namespace HandleOk

variable (h : HandleOk s)
include h

lemma delivered : Delivered s := by
  refine ⟨fun k f r hf hr => ?_, fun hpend hhan r hr => ?_⟩
  · obtain ⟨id, result⟩ := f
    obtain rfl : result = some r := hr
    exact (h.own k id r hf).1
  · have hlen := h.interrupts
    rw [hpend, hhan] at hlen
    rw [eq_nil_of_length_eq_zero hlen] at hr
    cases hr

lemma waitForCompletion
    (hids : ∀ k < s.submitted, ∀ f ∈ s.futures k, f.result = none → f.cmdId ≠ s.nextCmdId) :
    HandleOk s.waitForCompletion := by
  have hnew : s.futures s.submitted = none := h.unused _ (le_refl _)
  have hfree : ∀ k id, Waits s k id → id ≠ s.nextCmdId := by
    intro k id hk
    refine hids k ?_ _ hk rfl
    by_contra hnot
    rw [Waits, h.unused k (Nat.le_of_not_lt hnot)] at hk
    cases hk
  -- the futures before stay as they are
  have hold : ∀ j, s.futures j ≠ none → s.waitForCompletion.futures j = s.futures j := by
    intro j hj
    refine update_of_ne ?_ _ _
    rintro rfl
    exact hj hnew
  have hwai : ∀ j id, Waits s j id → Waits s.waitForCompletion j id := by
    intro j id hj
    rw [Waits, hold j (by rw [hj]; nofun)]
    exact hj
  refine ⟨fun j hj => ?_, fun i j id hi hj => ?_, fun j id r hj => ?_, fun id j hj => ?_,
    fun id r hr => ?_, fun r hr => ?_, h.posted_nodup, h.interrupts⟩
  · have hlt : s.submitted < j := hj
    change update s.futures s.submitted _ j = none
    rw [update_of_ne hlt.ne']
    exact h.unused j hlt.le
  · rcases update_eq_cases hi with ⟨rfl, hf⟩ | ⟨-, hi⟩ <;>
      rcases update_eq_cases hj with ⟨rfl, hf'⟩ | ⟨-, hj⟩
    · rfl
    · cases hf
      exact absurd rfl (hfree j _ hj)
    · cases hf'
      exact absurd rfl (hfree i _ hi)
    · exact h.distinct i j id hi hj
  · rcases update_eq_cases hj with ⟨-, hf⟩ | ⟨-, hj⟩
    · cases hf
    · exact h.own j id r hj
  · exact hwai j id (h.waiting_ok id j hj)
  · obtain ⟨hw, hcomp, hpost⟩ := h.ready_ok id r hr
    exact ⟨hwai _ _ hw, hcomp, hpost⟩
  · obtain ⟨hw, hcomp⟩ := h.posted_ok r hr
    exact ⟨hwai _ _ hw, hcomp⟩

lemma poll {id : BitVec 16} (hk : Waits s k id) :
    HandleOk (s.poll k id).2 ∧ (s.poll k id).1 ≠ .panicked := by
  have hpend : HandleOk { s with
      pendingCompletions := update s.pendingCompletions id (some (.waiting k)) } := by
    refine ⟨h.unused, h.distinct, h.own, fun id' j hj => ?_, fun id' r hr => ?_, h.posted_ok,
      h.posted_nodup, h.interrupts⟩
    · rcases update_eq_cases hj with ⟨rfl, hnew⟩ | ⟨-, hj⟩
      · cases hnew
        exact hk
      · exact h.waiting_ok id' j hj
    · rcases update_eq_cases hr with ⟨-, hnew⟩ | ⟨-, hr⟩
      · cases hnew
      · exact h.ready_ok id' r hr
  rw [CompletionQueueHandle.poll]
  cases hp : s.pendingCompletions id with
  | none => exact ⟨hpend, nofun⟩
  | some p =>
    cases p with
    | waiting j => exact ⟨hpend, nofun⟩
    | ready r =>
      refine ⟨?_, nofun⟩
      obtain ⟨hw, hcomp, hpost⟩ := h.ready_ok id r hp
      -- the only future that waits for the id is the one that is polled
      obtain rfl : r.command = k := h.distinct _ _ id hw hk
      have hoth : ∀ j id', j ≠ r.command → Waits s j id' → update s.futures r.command
          (some ⟨id, some r⟩) j = some ⟨id', none⟩ := by
        intro j id' hj hj'
        rw [update_of_ne hj]
        exact hj'
      have hne : ∀ j id', id' ≠ id → Waits s j id' → j ≠ r.command := by
        rintro j id' hid hj rfl
        have heq := hj.symm.trans hk
        exact hid (congrArg CompletionFuture.cmdId (Option.some.inj heq))
      refine ⟨fun j hj => ?_, fun i j id' hi hj => ?_, fun j id' r' hj => ?_, fun id' j hj => ?_,
        fun id' r' hr' => ?_, fun r' hr' => ?_, h.posted_nodup, h.interrupts⟩
      · dsimp only
        rw [update_of_ne]
        · exact h.unused j hj
        · rintro rfl
          rw [Waits, h.unused _ hj] at hk
          cases hk
      · rcases update_eq_cases hi with ⟨-, hnew⟩ | ⟨-, hi⟩
        · cases hnew
        · rcases update_eq_cases hj with ⟨-, hnew⟩ | ⟨-, hj⟩
          · cases hnew
          · exact h.distinct i j id' hi hj
      · rcases update_eq_cases hj with ⟨rfl, hnew⟩ | ⟨-, hj⟩
        · cases hnew
          exact ⟨rfl, hcomp⟩
        · exact h.own j id' r' hj
      · rcases update_eq_cases hj with ⟨-, hnew⟩ | ⟨hid, hj⟩
        · cases hnew
        · have hj' := h.waiting_ok id' j hj
          exact hoth j id' (hne j id' hid hj') hj'
      · rcases update_eq_cases hr' with ⟨-, hnew⟩ | ⟨hid, hr'⟩
        · cases hnew
        · obtain ⟨hw', hrest⟩ := h.ready_ok id' r' hr'
          exact ⟨hoth _ id' (hne _ id' hid hw') hw', hrest⟩
      · obtain ⟨hw', hcomp'⟩ := h.posted_ok r' hr'
        refine ⟨hoth _ _ ?_ hw', hcomp'⟩
        intro heq
        exact hpost (heq ▸ mem_map_of_mem hr')

lemma complete (hr : Completable r s) (hpend : s.interruptPending = false) :
    HandleOk { s with
      completed := r.command :: s.completed
      posted := s.posted ++ [r]
      interruptPending := true } := by
  obtain ⟨hnew, ⟨id, result⟩, hf, rfl⟩ := hr
  have hwai : Waits s r.command r.completion.id := by
    cases result with
    | none => exact hf
    | some r' => exact absurd (h.own _ _ _ hf).2 hnew
  have hnot : ∀ r' ∈ s.posted, r'.command ≠ r.command := by
    intro r' hr' heq
    exact hnew (heq ▸ (h.posted_ok r' hr').2)
  refine ⟨h.unused, h.distinct, fun j id r' hj => ?_, h.waiting_ok, fun id r' hr' => ?_,
    fun r' hr' => ?_, ?_, ?_⟩
  · obtain ⟨heq, hcomp⟩ := h.own j id r' hj
    exact ⟨heq, .tail _ hcomp⟩
  · obtain ⟨hw, hcomp, hpost⟩ := h.ready_ok id r' hr'
    refine ⟨hw, .tail _ hcomp, ?_⟩
    rw [map_append, mem_append, not_or]
    refine ⟨hpost, fun hmem => ?_⟩
    have heq : r'.command = r.command := mem_singleton.mp hmem
    exact hnew (heq ▸ hcomp)
  · rcases mem_append.mp hr' with hr' | hr'
    · obtain ⟨hw, hcomp⟩ := h.posted_ok r' hr'
      exact ⟨hw, .tail _ hcomp⟩
    · obtain rfl := mem_singleton.mp hr'
      exact ⟨hwai, mem_cons_self⟩
  · rw [map_append, map_singleton, nodup_append]
    refine ⟨h.posted_nodup, nodup_singleton _, fun a ha b hb => ?_⟩
    obtain ⟨r', hr', rfl⟩ := mem_map.mp ha
    rw [mem_singleton.mp hb]
    exact hnot r' hr'
  · have hlen := h.interrupts
    rw [hpend] at hlen
    simp only [length_append, length_singleton, Bool.toNat_false, Bool.toNat_true]
      at hlen ⊢
    omega

lemma handleInterrupt (hhan : s.handling = true) :
    HandleOk s.handleInterrupt.2 ∧ s.handleInterrupt.1 ≠ .panicked := by
  have hlen := h.interrupts
  rw [hhan] at hlen
  rw [CompletionQueueHandle.handleInterrupt]
  cases hpost : s.posted with
  | nil =>
    rw [hpost] at hlen
    simp at hlen
  | cons r posted =>
    have hposted_ok := h.posted_ok
    have hnd := h.posted_nodup
    rw [hpost] at hposted_ok hnd hlen
    obtain ⟨hw, hcomp⟩ := hposted_ok r mem_cons_self
    rw [map_cons, nodup_cons] at hnd
    have hdel : ∀ woken, HandleOk { s with
        posted
        handling := false
        pendingCompletions :=
          update s.pendingCompletions r.completion.id (some (.ready r))
        woken } := by
      intro woken
      refine ⟨h.unused, h.distinct, h.own, fun id j hj => ?_, fun id r' hr' => ?_,
        fun r' hr' => hposted_ok r' (.tail _ hr'), hnd.2, ?_⟩
      · rcases update_eq_cases hj with ⟨-, hnew⟩ | ⟨-, hj⟩
        · cases hnew
        · exact h.waiting_ok id j hj
      · rcases update_eq_cases hr' with ⟨rfl, hnew⟩ | ⟨-, hr'⟩
        · cases hnew
          exact ⟨hw, hcomp, hnd.1⟩
        · obtain ⟨hw', hcomp', hnot⟩ := h.ready_ok id r' hr'
          rw [hpost, map_cons, mem_cons, not_or] at hnot
          exact ⟨hw', hcomp', hnot.2⟩
      · simp only [length_cons, Bool.toNat_true, Bool.toNat_false] at hlen ⊢
        omega
    dsimp only
    rw [CompletionQueueHandle.deliver]
    cases hp : s.pendingCompletions r.completion.id with
    | none => exact ⟨hdel _, nofun⟩
    | some p =>
      cases p with
      | waiting j => exact ⟨hdel _, nofun⟩
      | ready r' =>
        -- a second completion for an id that is ready
        obtain ⟨hw', -, hnot⟩ := h.ready_ok _ r' hp
        rw [h.distinct _ _ _ hw' hw, hpost] at hnot
        exact absurd mem_cons_self hnot

end HandleOk

lemma HandleOk.step {a : Act} (h : HandleOk s)
    (hstep : step a s = some (o, s'))
    (ha : Orderly ⟨a, o, s, s'⟩) : HandleOk s' ∧ o ≠ .panicked := by
  cases a with
  | waitForCompletion =>
    cases hstep
    exact ⟨h.waitForCompletion ha, nofun⟩
  | poll k =>
    rw [CompletionQueueHandle.step] at hstep
    cases hf : s.futures k with
    | none =>
      rw [hf] at hstep
      cases hstep
    | some f =>
      obtain ⟨id, result⟩ := f
      rw [hf] at hstep
      cases result with
      | some r => cases hstep
      | none =>
        have hpoll := h.poll hf
        rw [Option.some.inj hstep] at hpoll
        exact hpoll
  | complete r =>
    rw [CompletionQueueHandle.step] at hstep
    split_ifs at hstep with hr
    cases hstep
    exact ⟨h.complete hr ha, nofun⟩
  | takeInterrupt =>
    rw [CompletionQueueHandle.step] at hstep
    split_ifs at hstep with hpend
    cases hstep
    refine ⟨{ h with interrupts := ?_ }, nofun⟩
    have hlen := h.interrupts
    obtain ⟨hp, hh⟩ := hpend
    rw [hp, Bool.eq_false_of_not_eq_true hh] at hlen
    exact hlen
  | handleInterrupt =>
    rw [CompletionQueueHandle.step] at hstep
    split_ifs at hstep with hhand
    have hhan := h.handleInterrupt hhand
    rw [Option.some.inj hstep] at hhan
    exact hhan

/-- In a run of orderly acts every completion is delivered to its own future, and the handler does
not panic. -/
theorem delivered_of_orderly {events : List HandleEvent}
    (hrun : Run step .new events s) (horderly : ∀ e ∈ events, Orderly e) :
    Delivered s ∧ ∀ e ∈ events, e.result ≠ .panicked := by
  have hok : HandleOk s ∧ ∀ e ∈ events, e.result ≠ .panicked := by
    induction hrun with
    | nil => exact ⟨handleOk_new, forall_mem_nil _⟩
    | call _ hstep ih =>
      obtain ⟨hlast, hbef⟩ := forall_mem_cons.mp horderly
      obtain ⟨h, hpan⟩ := ih hbef
      obtain ⟨h', ho⟩ := h.step hstep hlast
      exact ⟨h', forall_mem_cons.mpr ⟨ho, hpan⟩⟩
  exact ⟨hok.1.delivered, hok.2⟩

end

def sampleDelivery (k : ℕ) : Delivery := ⟨k, ⟨0, 0, 0, 1, .ofNat 16 k, 0⟩⟩

def twoWaiting : List Act := [.poll 1, .poll 0, .waitForCompletion, .waitForCompletion]

theorem delivered_of_orderly_two :
    ∃ events s, Run step .new events s ∧ s.woken = [1, 0] ∧ Delivered s := by
  obtain ⟨events, s, hrun, hwok, hord⟩ := Run.exists_of_execute step
    .new (.handleInterrupt :: .takeInterrupt :: .complete (sampleDelivery 1) :: .handleInterrupt ::
      .takeInterrupt :: .complete (sampleDelivery 0) :: twoWaiting)
    (Q := fun events s => s.woken = [1, 0] ∧ ∀ e ∈ events, Orderly e) (by decide +kernel)
  exact ⟨events, s, hrun, hwok, (delivered_of_orderly hrun hord).1⟩

/-! ### Ids that are used again -/

section

variable {s : CompletionQueueHandle} {m k : ℕ} {id : BitVec 16} {r : Delivery}
  {pending : BitVec 16 → Option PendingCompletion} {futures : ℕ → Option CompletionFuture}
  {completed : List ℕ}

lemma step_poll_ready (hf : Waits s k id) (hp : s.pendingCompletions id = some (.ready r)) :
    step (.poll k) s = some (.resolved k r, { s with
      pendingCompletions := update s.pendingCompletions id none
      futures := update s.futures k (some ⟨id, some r⟩) }) := by
  rw [step, hf]
  dsimp only
  rw [CompletionQueueHandle.poll, hp]

lemma exists_deliver (h : ∀ r', s.pendingCompletions r.completion.id ≠ some (.ready r')) :
    ∃ woken, s.deliver r = (.done, { s with
      pendingCompletions := update s.pendingCompletions r.completion.id (some (.ready r))
      woken }) := by
  unfold CompletionQueueHandle.deliver
  rcases hp : s.pendingCompletions r.completion.id with _ | k | r'
  · exact ⟨s.woken, rfl⟩
  · exact ⟨k :: s.woken, rfl⟩
  · exact absurd hp (h r')

/-- No completion has been posted, and no interrupt is pending. -/
def idle (nextCmdId : BitVec 16) (pendingCompletions : BitVec 16 → Option PendingCompletion)
    (submitted : ℕ) (futures : ℕ → Option CompletionFuture) (completed woken : List ℕ) :
    CompletionQueueHandle :=
  ⟨nextCmdId, pendingCompletions, submitted, futures, completed, [], false, false, woken⟩

lemma exists_delivered (futures) (woken : List ℕ) (hlt : ∀ j ∈ completed, j < k)
    (hp : ∀ r, pending (.ofNat 16 k) ≠ some (.ready r)) :
    ∃ events woken', Run step
      (idle (.ofNat 16 k) pending k futures completed woken) events
      (idle (.ofNat 16 (k + 1))
        (update pending (.ofNat 16 k) (some (.ready (sampleDelivery k)))) (k + 1)
        (update futures k (some ⟨.ofNat 16 k, none⟩)) (k :: completed) woken') := by
  let waiting := (idle (.ofNat 16 k) pending k futures completed woken).waitForCompletion
  have hcom : Completable (sampleDelivery k) waiting :=
    ⟨fun hmem => (hlt k hmem).false, _, update_self _ _ _, rfl⟩
  have hcomp : step (.complete (sampleDelivery k)) waiting = _ := if_pos hcom
  have hsub : Run step _ _ waiting := .call (c := .waitForCompletion) .nil rfl
  have hint := Run.call (c := .takeInterrupt) (hsub.call hcomp) rfl
  rw [BitVec.ofNat_add]
  obtain ⟨woken', hdel⟩ := exists_deliver (r := sampleDelivery k)
    (s := { waiting with completed := k :: completed }) hp
  exact ⟨_, woken', .call (c := Act.handleInterrupt) hint (congrArg some hdel)⟩

def firstWaits : BitVec 16 → Option PendingCompletion :=
  update (fun _ => none) 0 (some (.waiting 0))

lemma firstWaits_ne_ready (id : BitVec 16) (r : Delivery) : firstWaits id ≠ some (.ready r) := by
  rw [firstWaits, update_apply]
  split_ifs <;> nofun

lemma exists_idle (hm : m < 2 ^ 16) :
    ∃ events futures completed woken, Run step .new events
      (idle (.ofNat 16 (m + 1)) firstWaits (m + 1) futures completed woken) ∧
      futures 0 = some ⟨0, none⟩ ∧ ∀ k ∈ completed, k < m + 1 := by
  induction m with
  | zero =>
    exact ⟨_, _, _, _, .call (c := .poll 0) (.call (c := .waitForCompletion) .nil rfl)
      (r := .done) rfl, rfl, nofun⟩
  | succ m ih =>
    obtain ⟨events, futures, completed, woken, hrun, hfst, hlt⟩ := ih (by omega)
    have hne : BitVec.ofNat 16 (m + 1) ≠ 0 := by
      intro hzero
      have htoNat := congrArg BitVec.toNat hzero
      rw [BitVec.toNat_ofNat, Nat.mod_eq_of_lt hm] at htoNat
      exact absurd htoNat (Nat.succ_ne_zero m)
    obtain ⟨events', woken', hdel⟩ := exists_delivered futures woken hlt
      (firstWaits_ne_ready _)
    have hpoll := (hrun.append hdel).call (step_poll_ready (k := m + 1)
      (update_self _ _ _) (update_self _ _ _))
    have hback := update_eq_self (BitVec.ofNat 16 (m + 1)) firstWaits
    have hfree : firstWaits (.ofNat 16 (m + 1)) = none := update_of_ne hne _ _
    rw [hfree] at hback
    simp only [idle, update_idem, hback] at hpoll
    refine ⟨_, _, _, _, hpoll, ?_, fun k hk => ?_⟩
    · exact (update_of_ne (Nat.succ_ne_zero m).symm _ _).trans hfst
    · rcases mem_cons.mp hk with rfl | hk
      · exact lt_add_one _
      · exact (hlt k hk).trans (lt_add_one _)

lemma exists_other (hm : m < 2 ^ 16) (hid : BitVec.ofNat 16 (m + 1) = 0) :
    ∃ events s, Run step .new events s ∧
      s.futures 0 = some ⟨0, some (sampleDelivery (m + 1))⟩ := by
  obtain ⟨events, futures, completed, woken, hrun, hfst, hlt⟩ := exists_idle hm
  obtain ⟨events', woken', hdel⟩ := exists_delivered futures woken hlt
    (firstWaits_ne_ready _)
  refine ⟨_, _, (hrun.append hdel).call (step_poll_ready (k := 0)
    (r := sampleDelivery (m + 1)) (?_ : Waits _ 0 0) ?_), rfl⟩
  · simp [Waits, idle, hfst]
  · simp [idle, hid]

end

/-- Two completions are posted before the interrupt is taken: the handler pops one of them, and the
other one stays in the queue while its future waits. And while the first command waits, 2 ^ 16
others are submitted and completed one after the other: the last one has the id of the first one,
whose future resolves with its completion. -/
theorem not_delivered :
    (∃ events s, Run step .new events s ∧
      (∃ r ∈ s.posted, ∃ f ∈ s.futures r.command, f.result = none) ∧ ¬ Delivered s) ∧
    ∃ events s, Run step .new events s ∧
      s.futures 0 = some ⟨0, some (sampleDelivery (2 ^ 16))⟩ ∧ ¬ Delivered s := by
  constructor
  · obtain ⟨events, s, hrun, hpend, hhan, hleft⟩ := Run.exists_of_execute
      step .new (.handleInterrupt :: .takeInterrupt ::
        .complete (sampleDelivery 1) :: .complete (sampleDelivery 0) :: twoWaiting)
      (Q := fun _ s => s.interruptPending = false ∧ s.handling = false ∧
        ∃ r ∈ s.posted, ∃ f ∈ s.futures r.command, f.result = none) (by decide +kernel)
    refine ⟨events, s, hrun, hleft, fun h => ?_⟩
    obtain ⟨r, hr, f, hf, hwai⟩ := hleft
    exact h.popped hpend hhan r hr f hf hwai
  · obtain ⟨events, s, hrun, hfut⟩ := exists_other (m := 2 ^ 16 - 1) (by decide) (by decide)
    exact ⟨events, s, hrun, hfut, fun h => absurd (h.own 0 _ _ hfut rfl) (by decide)⟩

end Kernel.Storage.Nvme
