import Kernel.Memory.Basic
import Kernel.Storage.Nvme.CompletionQueue
import Kernel.Storage.Nvme.SubmissionQueue

/-!
# The admin queues

`configure` makes a completion queue and a submission queue of one page each and tells the device
their sizes in the register AQA.
-/

namespace Kernel.Storage.Nvme

open Core Memory CompletionQueue List Option CompletionRing Nat

def submissionEntrySize : ℕ := 64

def completionEntrySize : ℕ := 16

/-! ### The register -/

abbrev AdminQueueAttributes := BitVec 32

namespace AdminQueueAttributes

def setCompletionQueueSize (size : ℕ) (r : AdminQueueAttributes) : AdminQueueAttributes :=
  r.extractLsb' 28 4 ++ BitVec.ofNat 12 size ++ r.setWidth 16

def setSubmissionQueueSize (size : ℕ) (r : AdminQueueAttributes) : AdminQueueAttributes :=
  r.extractLsb' 12 20 ++ BitVec.ofNat 12 size

def submissionEntries (r : AdminQueueAttributes) : ℕ := (r.extractLsb' 0 12).toNat + 1

def completionEntries (r : AdminQueueAttributes) : ℕ := (r.extractLsb' 16 12).toNat + 1

end AdminQueueAttributes

def adminCompletionEntries : ℕ := pageSize / completionEntrySize

def adminSubmissionEntries : ℕ := pageSize / submissionEntrySize

def adminQueueAttributes : AdminQueueAttributes :=
  AdminQueueAttributes.setCompletionQueueSize adminSubmissionEntries
    (AdminQueueAttributes.setSubmissionQueueSize adminCompletionEntries 0)

/-! ### The rings -/

structure AdminRings where
  submission : SubmissionRing
  completion : CompletionRing

inductive AdminAct where
  | submission (a : SubmissionAct)
  | post (c : Completion)
  | pop

inductive AdminOutcome where
  | submission (o : SubmissionOutcome)
  | completion (o : CompletionOutcome)

namespace AdminOutcome

def submitted? : AdminOutcome → Option Words
  | submission o => o.submitted?
  | completion _ => none

def fetched? : AdminOutcome → Option Words
  | submission o => o.fetched?
  | completion _ => none

def posted? : AdminOutcome → Option Completion
  | submission _ => none
  | completion o => o.posted?

def returned? : AdminOutcome → Option Completion
  | submission _ => none
  | completion o => o.returned?

end AdminOutcome

namespace AdminRings

def configured (outside : ℕ → Words) : AdminRings where
  submission := .new 0 adminSubmissionEntries adminQueueAttributes.submissionEntries fun i =>
    if i < adminSubmissionEntries then .zero else outside i
  completion := .new 0 adminCompletionEntries adminQueueAttributes.completionEntries fun id =>
    if id = 0 then some 0 else none

def step : AdminAct → AdminRings → Option (AdminOutcome × AdminRings)
  | .submission a, s =>
    (s.submission.step a).map fun (o, submission) => (.submission o, { s with submission })
  | .post c, s =>
    if s.completion.posted < s.submission.fetched ∧
        c.head = s.submission.fetched % s.submission.deviceSize then
      (s.completion.step (.post c)).map fun (o, completion) =>
        (.completion o, { s with completion })
    else none
  | .pop, s =>
    (s.completion.step .pop).map fun (o, completion) =>
      (.completion o,
        { submission :=
            { s.submission with
              head := (completion.queue.assocSubmitQueueHeads 0).getD s.submission.head }
          completion })

end AdminRings

abbrev AdminEvent := Event AdminRings AdminAct AdminOutcome

open AdminOutcome

def AdminEvent.submitted (events : List AdminEvent) : List Words :=
  history submitted? events

def AdminEvent.executed (events : List AdminEvent) : List Words :=
  history fetched? events

def AdminEvent.posted (events : List AdminEvent) : List Completion :=
  history posted? events

def AdminEvent.popped (events : List AdminEvent) : List Completion :=
  history returned? events

def InOrder (events : List AdminEvent) : Prop :=
  AdminEvent.executed events <+: AdminEvent.submitted events ∧
    AdminEvent.popped events <+: AdminEvent.posted events

/-! ### Before the first wrap -/

namespace CompletionRing

def resize (m : ℕ) (s : CompletionRing) : CompletionRing := { s with deviceSize := m }

variable {s : CompletionRing} {c : Completion} {m : ℕ}

lemma conforms_resize (hdev : s.posted + 1 < s.deviceSize) (hm : s.posted + 1 < m)
    (h : s.Conforms c) : (s.resize m).Conforms c := by
  obtain ⟨hfree, htag, hass⟩ := h
  rw [mod_eq_of_lt hdev] at hfree
  rw [pass_of_lt (by omega)] at htag
  refine ⟨?_, ?_, hass⟩
  · change (s.posted + 1) % m ≠ s.headDoorbell
    rwa [mod_eq_of_lt hm]
  · change c.status.phaseTag = pass m s.posted
    rwa [pass_of_lt (by omega)]

lemma post_resize (hdev : s.posted < s.deviceSize) (hm : s.posted < m) :
    (s.resize m).post c = (s.post c).resize m := by
  simp only [post, resize, mod_eq_of_lt hdev, mod_eq_of_lt hm]

lemma popStep_resize : (s.resize m).popStep = s.popStep.map fun (o, s') => (o, s'.resize m) := by
  obtain ⟨queue, memory, headDoorbell, deviceSize, posted, popping⟩ := s
  simp only [popStep, resize]
  cases popping with
  | none =>
    cases queue.test (memory queue.head) with
    | error p => rfl
    | ok r => cases r <;> rfl
  | some p =>
    cases p with
    | store slot =>
      dsimp only
      cases queue.storeHead (memory slot) <;> rfl
    | ring slot | copy slot => rfl

end CompletionRing

structure AdminOk (submitted executed : List Words) (posted popped : List Completion)
    (s : AdminRings) : Prop where
  entryCount_eq : s.submission.queue.entryCount = adminSubmissionEntries
  deviceSize_eq : s.submission.deviceSize = adminQueueAttributes.submissionEntries
  completionSize_eq : s.completion.deviceSize = adminQueueAttributes.completionEntries
  tail_eq : s.submission.queue.tail = submitted.length
  doorbell_eq : s.submission.tailDoorbell = submitted.length
  command_ok : ∀ cmd ∈ s.submission.command, cmd.slot = submitted.length ∧
    cmd.newTail = (submitted.length + 1) % adminSubmissionEntries
  stored : Stored adminSubmissionEntries s.submission.memory submitted 0
  executed_eq : executed = submitted.take executed.length
  executed_le : executed.length ≤ submitted.length
  fetched_eq : s.submission.fetched = executed.length
  posted_le : posted.length ≤ executed.length
  ring : RingOk adminCompletionEntries posted popped (s.completion.resize adminCompletionEntries)

section

variable {submitted executed : List Words} {posted popped : List Completion} {s s' : AdminRings}
  {outside : ℕ → Words} {o : SubmissionOutcome}

lemma adminOk_configured : AdminOk [] [] [] [] (.configured outside) where
  entryCount_eq := rfl
  deviceSize_eq := rfl
  completionSize_eq := rfl
  tail_eq := rfl
  doorbell_eq := rfl
  command_ok := nofun
  stored := nofun
  executed_eq := rfl
  executed_le := le_refl 0
  fetched_eq := rfl
  posted_le := le_refl 0
  ring := ringOk_new (by decide) _ _

lemma admin_sizes : adminSubmissionEntries = 64 ∧ adminQueueAttributes.submissionEntries = 257 ∧
    adminCompletionEntries = 256 ∧ adminQueueAttributes.completionEntries = 65 := by
  decide

section

variable (h : AdminOk submitted executed posted popped s)

include h

lemma AdminOk.begin_cases (hsht : submitted.length < adminSubmissionEntries) :
    s.submission.queue.begin s.submission.head = .ok none ∨
      s.submission.queue.begin s.submission.head = .ok (some
        ⟨(submitted.length + 1) % adminSubmissionEntries, submitted.length⟩) := by
  have hadd : checkedAdd16 s.submission.queue.tail 1 = .ok (submitted.length + 1) := by
    rw [h.tail_eq, checkedAdd16_eq_ok]
    rw [admin_sizes.1] at hsht
    exact ⟨by omega, rfl⟩
  rw [SubmissionQueue.begin, SubmissionQueue.full, hadd]
  by_cases hfull : s.submission.head = submitted.length + 1
  · left
    change (if decide (s.submission.head = submitted.length + 1) = true then _ else _ :
      Checked (Option Command)) = _
    rw [if_pos (decide_eq_true hfull)]
    rfl
  · right
    change (if decide (s.submission.head = submitted.length + 1) = true then _ else _ :
      Checked (Option Command)) = _
    rw [if_neg (by simpa using hfull), ← h.entryCount_eq]
    change Except.ok (some (Command.mk _ s.submission.queue.tail)) = _
    rw [h.tail_eq]

lemma AdminOk.submission {a : SubmissionAct} {ring : SubmissionRing}
    (hsht : (submitted ++ o.submitted?.toList).length < adminSubmissionEntries)
    (hstep : s.submission.step a = some (o, ring)) :
    AdminOk (submitted ++ o.submitted?.toList) (executed ++ o.fetched?.toList) posted popped
      { s with submission := ring } := by
  have hlt : submitted.length < adminSubmissionEntries :=
    lt_of_le_of_lt (by rw [length_append]; exact le_self_add) hsht
  cases a with
  | begin =>
    rw [SubmissionRing.step] at hstep
    cases hcom : s.submission.command with
    | some cmd =>
      rw [hcom] at hstep
      cases hstep
    | none =>
      rcases h.begin_cases hlt with hbeg | hbeg
      · rw [hcom, hbeg] at hstep
        cases hstep
        simpa [SubmissionOutcome.submitted?, SubmissionOutcome.fetched?] using h
      · rw [hcom, hbeg] at hstep
        cases hstep
        change AdminOk (submitted ++ []) (executed ++ []) posted popped _
        rw [append_nil, append_nil]
        have hslot : submitted.length % adminSubmissionEntries = submitted.length :=
          mod_eq_of_lt hlt
        have hsto := h.stored.write (by omega) Words.zero
        rw [hslot] at hsto
        refine { h with command_ok := ?_, stored := hsto }
        rintro cmd ⟨⟩
        exact ⟨rfl, rfl⟩
  | write w =>
    obtain ⟨cmd, hcom, hcmd⟩ := map_eq_some_iff.mp hstep
    cases hcmd
    change AdminOk (submitted ++ []) (executed ++ []) posted popped _
    rw [append_nil, append_nil]
    have hslot : submitted.length % adminSubmissionEntries = cmd.slot := by
      rw [mod_eq_of_lt hlt, (h.command_ok cmd hcom).1]
    have hsto := h.stored.write (by omega) w
    rw [hslot] at hsto
    exact { h with stored := hsto }
  | submit =>
    obtain ⟨cmd, hcom, hcmd⟩ := map_eq_some_iff.mp hstep
    cases hcmd
    obtain ⟨hslot, hnew⟩ := h.command_ok cmd hcom
    change AdminOk (submitted ++ [s.submission.memory cmd.slot]) (executed ++ []) posted popped _
    rw [append_nil]
    change (submitted ++ [s.submission.memory cmd.slot]).length < _ at hsht
    rw [length_append, length_singleton] at hsht
    rw [mod_eq_of_lt hsht] at hnew
    refine ⟨h.entryCount_eq, h.deviceSize_eq, h.completionSize_eq, ?_, ?_, by simp, ?_, ?_, ?_,
      h.fetched_eq, h.posted_le, h.ring⟩
    · rw [length_append]
      exact hnew
    · rw [length_append]
      exact hnew
    · refine h.stored.append ?_
      rw [mod_eq_of_lt hlt, ← hslot]
    · rw [take_append_of_le_length h.executed_le]
      exact h.executed_eq
    · rw [length_append]
      exact h.executed_le.trans le_self_add
  | abandon =>
    obtain ⟨cmd, hcom, hcmd⟩ := map_eq_some_iff.mp hstep
    cases hcmd
    change AdminOk (submitted ++ []) (executed ++ []) posted popped _
    rw [append_nil, append_nil]
    exact { h with command_ok := by simp }
  | fetch =>
    rw [SubmissionRing.step] at hstep
    split_ifs at hstep with hemp
    cases hstep
    have hle := h.executed_le
    have hsm : executed.length < adminQueueAttributes.submissionEntries := by
      rw [admin_sizes.1] at hlt
      rw [admin_sizes.2.1]
      omega
    have hidx : s.submission.fetched % s.submission.deviceSize = executed.length := by
      rw [h.fetched_eq, h.deviceSize_eq, mod_eq_of_lt hsm]
    have hnext : executed.length < submitted.length := by
      rw [hidx, h.doorbell_eq] at hemp
      omega
    -- the device and the driver mean the same slot
    have hget := List.getElem?_eq_getElem hnext
    have hent := h.stored _ _ (zero_le _) hget
    rw [mod_eq_of_lt (hnext.trans hlt)] at hent
    change AdminOk (submitted ++ []) (executed ++ [_]) posted popped _
    rw [append_nil, hidx, hent]
    refine { h with executed_eq := ?_, executed_le := ?_, fetched_eq := ?_, posted_le := ?_ }
    · rw [length_append, length_singleton, take_add_one, hget, ← h.executed_eq]
      rfl
    · rw [length_append]
      exact hnext
    · rw [length_append]
      exact congrArg (· + 1) h.fetched_eq
    · rw [length_append]
      exact h.posted_le.trans le_self_add

lemma AdminOk.post {c : Completion} {o : CompletionOutcome} {ring : CompletionRing}
    (hsht : submitted.length < adminSubmissionEntries)
    (hpost : s.completion.posted < s.submission.fetched)
    (hstep : s.completion.step (.post c) = some (o, ring)) :
    o = .posted c ∧
      AdminOk submitted executed (posted ++ [c]) popped { s with completion := ring } := by
  rw [step] at hstep
  split_ifs at hstep with hc
  cases hstep
  have hcnt : s.completion.posted = posted.length := h.ring.posted_eq
  have hle := h.executed_le
  rw [hcnt, h.fetched_eq] at hpost
  have hsm : s.completion.posted + 1 < s.completion.deviceSize := by
    rw [admin_sizes.1] at hsht
    rw [h.completionSize_eq, admin_sizes.2.2.2]
    omega
  have hsm' : s.completion.posted + 1 < adminCompletionEntries := by
    rw [admin_sizes.1] at hsht
    rw [admin_sizes.2.2.1]
    omega
  have hring := h.ring.post (conforms_resize hsm hsm' hc)
  rw [post_resize (by omega) (by omega)] at hring
  refine ⟨rfl, { h with posted_le := ?_, ring := hring }⟩
  rw [length_append]
  exact hpost

lemma AdminOk.pop {o : CompletionOutcome} {ring : CompletionRing} {head : ℕ}
    (hstep : s.completion.step .pop = some (o, ring)) :
    o.posted? = none ∧ AdminOk submitted executed posted (popped ++ o.returned?.toList)
      ⟨{ s.submission with head }, ring⟩ := by
  obtain ⟨o', ring', hpop, hpopp⟩ := h.ring.popStep (by decide) (by decide)
  have hpop' : s.completion.popStep = some (o, ring) := hstep
  rw [popStep_resize, hpop'] at hpop
  cases hpop
  have hsize : ring.deviceSize = s.completion.deviceSize := by
    have hres := popStep_resize (s := s.completion)
      (m := s.completion.deviceSize)
    change s.completion.popStep = _ at hres
    rw [hpop', map_some, Option.some.injEq, Prod.mk.injEq] at hres
    rw [hres.2]
    rfl
  exact ⟨hpopp.posted?_eq,
    { h with completionSize_eq := hsize.trans h.completionSize_eq, ring := hpopp.ok }⟩

end

lemma adminOk_of_run {events : List AdminEvent}
    (hrun : Run AdminRings.step (.configured outside) events s)
    (hsht : (AdminEvent.submitted events).length < adminSubmissionEntries) :
    AdminOk (AdminEvent.submitted events) (AdminEvent.executed events) (AdminEvent.posted events)
      (AdminEvent.popped events) s := by
  induction hrun with
  | nil => exact adminOk_configured
  | @call events s a o s' _ hstep ih =>
    simp only [AdminEvent.submitted, AdminEvent.executed, AdminEvent.posted, AdminEvent.popped,
      history_cons] at hsht ih ⊢
    have hbef : (history submitted? events).length < adminSubmissionEntries := by
      rw [length_append] at hsht
      omega
    have hok := ih hbef
    cases a with
    | submission a =>
      obtain ⟨⟨o', ring⟩, hring, hret⟩ := map_eq_some_iff.mp hstep
      cases hret
      simpa [submitted?, fetched?, posted?,
        returned?] using hok.submission hsht hring
    | post c =>
      rw [AdminRings.step] at hstep
      split_ifs at hstep with hcond
      obtain ⟨⟨o', ring⟩, hring, hret⟩ := map_eq_some_iff.mp hstep
      cases hret
      obtain ⟨rfl, hpost⟩ := hok.post hbef hcond.1 hring
      simpa [submitted?, fetched?, posted?,
        returned?, CompletionOutcome.posted?, CompletionOutcome.returned?]
        using hpost
    | pop =>
      obtain ⟨⟨o', ring⟩, hring, hret⟩ := map_eq_some_iff.mp hstep
      cases hret
      obtain ⟨hpost, hpop⟩ := hok.pop hring
      simpa [submitted?, fetched?, posted?,
        returned?, hpost] using hpop

lemma AdminOk.inOrder {events : List AdminEvent}
    (h : AdminOk (AdminEvent.submitted events) (AdminEvent.executed events)
      (AdminEvent.posted events) (AdminEvent.popped events) s) : InOrder events := by
  constructor
  · rw [h.executed_eq]
    exact take_prefix _ _
  · rw [h.ring.returned_eq]
    exact take_prefix _ _

end

/-! ### The first wrap -/

def adminCompletion (head : ℕ) : Completion := ⟨0, 0, head, 0, 0, 1⟩

def adminRound (k : ℕ) : List AdminAct :=
  [.pop, .pop, .pop, .pop, .post (adminCompletion (k + 1)), .submission .fetch,
    .submission .submit, .submission .begin]

def adminRounds : ℕ → List AdminAct
  | 0 => []
  | k + 1 => adminRound k ++ adminRounds k

lemma exists_run_past_wrap :
    ∃ events s, Run AdminRings.step (.configured fun _ => .zero) events s ∧
      (AdminEvent.submitted events).length = 64 ∧ (AdminEvent.executed events).length = 65 :=
  Run.exists_of_execute AdminRings.step (.configured fun _ => .zero)
    (.submission .fetch :: adminRounds 64)
    (Q := fun events _ => (AdminEvent.submitted events).length = 64 ∧
      (AdminEvent.executed events).length = 65) (by decide +kernel)

/-- Runs of at most `n` admin commands are in order exactly if there are fewer commands than entries
in the ring. -/
theorem admin_inOrder_iff (n : ℕ) :
    (∀ outside events s, Run AdminRings.step (.configured outside) events s →
      (AdminEvent.submitted events).length ≤ n → InOrder events) ↔ n < adminSubmissionEntries := by
  constructor
  · intro hall
    by_contra hnot
    rw [admin_sizes.1] at hnot
    obtain ⟨events, s, hrun, hsub, hexe⟩ := exists_run_past_wrap
    have hle := (hall _ events s hrun (by omega)).1.length_le
    omega
  · intro hlt outside events s hrun hle
    exact (adminOk_of_run hrun (lt_of_le_of_lt hle hlt)).inOrder

/-- After 64 commands the device executes a command that nobody has submitted. -/
theorem admin_not_inOrder :
    ∃ events s, Run AdminRings.step (.configured fun _ => .zero) events s ∧
      (AdminEvent.submitted events).length = 64 ∧ ¬ InOrder events := by
  obtain ⟨events, s, hrun, hsub, hexe⟩ := exists_run_past_wrap
  refine ⟨events, s, hrun, hsub, fun hord => ?_⟩
  have hle := hord.1.length_le
  omega

end Kernel.Storage.Nvme
