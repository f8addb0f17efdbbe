import Kernel.Core.Ring
import Kernel.Core.Runs
import Kernel.Storage.Nvme.Queue

/-!
# Popping completions

The driver pops completions from the ring while the device posts new ones.
-/

namespace Kernel.Storage.Nvme

open Core CompletionQueue List Function Nat

structure CompletionRing where
  queue : CompletionQueue
  memory : ℕ → Completion
  headDoorbell : ℕ
  deviceSize : ℕ
  posted : ℕ
  popping : Option Popping

open CompletionRing

inductive CompletionAct where
  | post (c : Completion)
  | pop

inductive CompletionOutcome where
  | posted (c : Completion)
  | running
  | returned (r : Option Completion)
  deriving DecidableEq

namespace CompletionOutcome

def posted? : CompletionOutcome → Option Completion
  | posted c => some c
  | running | returned _ => none

def returned? : CompletionOutcome → Option Completion
  | returned r => r
  | running | posted _ => none

end CompletionOutcome

namespace CompletionRing

def new (id : QueueId) (entryCount deviceSize : ℕ) (heads : QueueId → Option ℕ) :
    CompletionRing where
  queue := { CompletionQueue.new id entryCount with assocSubmitQueueHeads := heads }
  memory := fun _ => .zero
  headDoorbell := 0
  deviceSize
  posted := 0
  popping := none

/-- What the specification demands of the device: it leaves one entry free, it tags the entry with
the bit of the current pass, and the completion is for a submission queue of this completion
queue. -/
def Conforms (s : CompletionRing) (c : Completion) : Prop :=
  (s.posted + 1) % s.deviceSize ≠ s.headDoorbell ∧
    c.status.phaseTag = pass s.deviceSize s.posted ∧
    (s.queue.assocSubmitQueueHeads c.sqid).isSome

instance (s : CompletionRing) (c : Completion) : Decidable (s.Conforms c) :=
  inferInstanceAs (Decidable (_ ∧ _ ∧ _))

def post (c : Completion) (s : CompletionRing) : CompletionRing :=
  { s with
    memory := update s.memory (s.posted % s.deviceSize) c
    posted := s.posted + 1 }

def popStep (s : CompletionRing) : Option (CompletionOutcome × CompletionRing) :=
  match s.popping with
  | none =>
    match s.queue.test (s.memory s.queue.head) with
    | .error _ => none
    | .ok none => some (.returned none, s)
    | .ok (some (queue, p)) => some (.running, { s with queue, popping := some p })
  | some (.store slot) =>
    match s.queue.storeHead (s.memory slot) with
    | .error _ => none
    | .ok queue => some (.running, { s with queue, popping := some (.ring slot) })
  | some (.ring slot) =>
    some (.running, { s with headDoorbell := s.queue.head, popping := some (.copy slot) })
  | some (.copy slot) => some (.returned (some (s.memory slot)), { s with popping := none })

def step : CompletionAct → CompletionRing → Option (CompletionOutcome × CompletionRing)
  | .post c, s => if s.Conforms c then some (.posted c, s.post c) else none
  | .pop, s => popStep s

end CompletionRing

abbrev CompletionEvent := Event CompletionRing CompletionAct CompletionOutcome

/-! ### The invariant -/

namespace CompletionQueue

def taken : Option Popping → ℕ
  | none => 0
  | some _ => 1

def rung : Option Popping → ℕ
  | some (.copy _) => 1
  | none | some (.store _) | some (.ring _) => 0

def Popping.slot : Popping → ℕ
  | store slot | ring slot | copy slot => slot

end CompletionQueue

structure RingOk (n : ℕ) (posted returned : List Completion) (s : CompletionRing) : Prop where
  entryCount_eq : s.queue.entryCount = n
  deviceSize_eq : s.deviceSize = n
  posted_eq : s.posted = posted.length
  returned_eq : returned = posted.take returned.length
  head_eq : s.queue.head = (returned.length + taken s.popping) % n
  phase_eq : s.queue.currentPhase = pass n (returned.length + taken s.popping)
  taken_le : returned.length + taken s.popping ≤ posted.length
  doorbell_eq : s.headDoorbell = (returned.length + rung s.popping) % n
  room : posted.length + 1 ≤ returned.length + rung s.popping + n
  slot_eq : ∀ p ∈ s.popping, p.slot = returned.length % n
  stored : Stored n s.memory posted (posted.length - n)
  fresh : ∀ i, posted.length ≤ i → i < n → (s.memory i).status.phaseTag = false
  tagged : ∀ k c, posted[k]? = some c →
    c.status.phaseTag = pass n k ∧ (s.queue.assocSubmitQueueHeads c.sqid).isSome

section

variable {n : ℕ} {posted returned : List Completion} {s s' : CompletionRing} {c : Completion}

lemma rung_le_taken (p : Option Popping) : rung p ≤ taken p := by
  cases p with
  | none => exact le_refl 0
  | some p => cases p <;> simp [rung, taken]

lemma ringOk_new (hn : 0 < n) (id : QueueId) (heads : QueueId → Option ℕ) :
    RingOk n [] [] (.new id n n heads) where
  entryCount_eq := rfl
  deviceSize_eq := rfl
  posted_eq := rfl
  returned_eq := rfl
  head_eq := (zero_mod n).symm
  phase_eq := (pass_of_lt hn).symm
  taken_le := le_refl 0
  doorbell_eq := (zero_mod n).symm
  room := by
    simp only [length_nil]
    omega
  slot_eq := nofun
  stored := nofun
  fresh _ _ _ := BitVec.getLsbD_zero
  tagged := nofun

namespace RingOk

variable (h : RingOk n posted returned s)
include h

lemma post (hc : s.Conforms c) : RingOk n (posted ++ [c]) returned (s.post c) := by
  obtain ⟨hfree, htag, hass⟩ := hc
  rw [h.deviceSize_eq, h.posted_eq, h.doorbell_eq] at hfree
  rw [h.deviceSize_eq, h.posted_eq] at htag
  have hle := h.taken_le
  have hrung := rung_le_taken s.popping
  have hroom := h.room
  have hmem : (s.post c).memory = update s.memory (posted.length % n) c := by
    rw [CompletionRing.post, h.posted_eq, h.deviceSize_eq]
  refine ⟨h.entryCount_eq, h.deviceSize_eq, ?_, ?_, h.head_eq, h.phase_eq, ?_, h.doorbell_eq, ?_,
    h.slot_eq, ?_, ?_, ?_⟩
  · rw [length_append, ← h.posted_eq]
    rfl
  · rw [take_append_of_le_length (by omega)]
    exact h.returned_eq
  · rw [length_append]
    exact hle.trans le_self_add
  · have hne : posted.length + 1 ≠ returned.length + rung s.popping + n := by
      intro heq
      apply hfree
      rw [heq, add_mod_right]
    rw [length_append, length_singleton]
    change posted.length + 1 + 1 ≤ returned.length + rung s.popping + n
    omega
  · rw [hmem, length_append, length_singleton]
    exact (h.stored.mono (by omega)).push (by omega) c
  · intro i hi hlt
    rw [length_append, length_singleton] at hi
    rw [hmem, mod_eq_of_lt (by omega), update_of_ne (by omega)]
    exact h.fresh i (by omega) hlt
  · intro k c' hc'
    rcases lt_or_ge k posted.length with hlt | hge
    · rw [List.getElem?_append_left hlt] at hc'
      exact h.tagged k c' hc'
    · rw [List.getElem?_append_right hge, List.getElem?_singleton] at hc'
      split_ifs at hc' with hzero
      cases hc'
      have hlast : k = posted.length := by omega
      exact ⟨hlast ▸ htag, hass⟩

lemma entry_of_lt (hlt : returned.length < posted.length) :
    ∃ c, posted[returned.length]? = some c ∧ s.memory (returned.length % n) = c := by
  have hroom := h.room
  have hrung : rung s.popping ≤ 1 := by
    cases hp : s.popping with
    | none => exact zero_le 1
    | some p => cases p <;> simp [rung]
  have hget := List.getElem?_eq_getElem hlt
  exact ⟨_, hget, h.stored _ _ (by omega) hget⟩

lemma tag_eq_iff (hn : 0 < n) (hp : s.popping = none) :
    (s.memory s.queue.head).status.phaseTag = s.queue.currentPhase ↔
      returned.length < posted.length := by
  have hle := h.taken_le
  have hhead := h.head_eq
  have hph := h.phase_eq
  rw [hp, taken, add_zero] at hle hhead hph
  rw [hhead, hph]
  constructor
  · intro htag
    by_contra hnot
    have heq : returned.length = posted.length := by omega
    rw [heq] at htag
    rcases lt_or_ge posted.length n with hlt | hge
    · rw [mod_eq_of_lt hlt, h.fresh _ (le_refl _) hlt, pass_of_lt hlt] at htag
      cases htag
    · -- the slot still holds the entry of the pass before
      have hbef : posted.length - n < posted.length := by omega
      have hget := List.getElem?_eq_getElem hbef
      have hslot := h.stored _ _ (le_refl _) hget
      have hback : posted.length - n + n = posted.length := Nat.sub_add_cancel hge
      have hmod : posted.length % n = (posted.length - n) % n := by
        rw [← add_mod_right (posted.length - n) n, hback]
      have hpass := pass_add_self hn (posted.length - n)
      rw [hback] at hpass
      rw [hmod, hslot, (h.tagged _ _ hget).1, hpass] at htag
      exact absurd htag.symm (Bool.not_ne_self _)
  · intro hlt
    obtain ⟨c, hc, hent⟩ := h.entry_of_lt hlt
    rw [hent]
    exact (h.tagged _ _ hc).1

lemma head_lt (hn : 0 < n) : s.queue.head < n := by
  rw [h.head_eq]
  exact mod_lt _ hn

lemma advance_eq (hn : 0 < n) (hn' : n < 2 ^ 16) (hp : s.popping = none) :
    s.queue.advance = .ok { s.queue with
      head := (returned.length + 1) % n, currentPhase := pass n (returned.length + 1) } := by
  have hlt := h.head_lt hn
  have hhead := h.head_eq
  have hph := h.phase_eq
  rw [hp, taken, add_zero] at hhead hph
  have hadd : checkedAdd16 s.queue.head 1 = .ok (s.queue.head + 1) :=
    checkedAdd16_eq_ok.mpr ⟨by omega, rfl⟩
  rw [advance, hadd, slot_succ hn, pass_succ hn, ← hhead, ← hph]
  change (if s.queue.head + 1 ≥ s.queue.entryCount then _ else _ : Checked CompletionQueue) = _
  by_cases hwrap : n ≤ s.queue.head + 1
  · rw [if_pos hwrap, if_pos hwrap, if_pos (h.entryCount_eq.le.trans hwrap)]
    rfl
  · have hnot : ¬ s.queue.head + 1 ≥ s.queue.entryCount := by rwa [h.entryCount_eq]
    rw [if_neg hwrap, if_neg hwrap, if_neg hnot]
    rfl

end RingOk

structure Popped (n : ℕ) (posted returned : List Completion) (s : CompletionRing)
    (o : CompletionOutcome) (s' : CompletionRing) : Prop where
  posted?_eq : o.posted? = none
  ok : RingOk n posted (returned ++ o.returned?.toList) s'
  none_only : o = .returned none → returned = posted

lemma RingOk.popStep (h : RingOk n posted returned s) (hn : 0 < n) (hn' : n < 2 ^ 16) :
    ∃ o s', s.popStep = some (o, s') ∧ Popped n posted returned s o s' := by
  have hle := h.taken_le
  have hroom := h.room
  cases hp : s.popping with
  | none =>
    rw [hp, taken, add_zero] at hle
    by_cases htag : (s.memory s.queue.head).status.phaseTag = s.queue.currentPhase
    · have hlt := (h.tag_eq_iff hn hp).mp htag
      refine ⟨.running, { s with
        queue := { s.queue with
          head := (returned.length + 1) % n, currentPhase := pass n (returned.length + 1) }
        popping := some (.store s.queue.head) }, ?_, rfl, ?_, nofun⟩
      · rw [CompletionRing.popStep, hp]
        dsimp only
        rw [test, if_pos htag, h.advance_eq hn hn' hp]
        rfl
      · change RingOk n posted (returned ++ []) _
        rw [append_nil]
        have hhead := h.head_eq
        have hdb := h.doorbell_eq
        rw [hp, taken, add_zero] at hhead
        rw [hp, rung, add_zero] at hroom hdb
        refine ⟨h.entryCount_eq, h.deviceSize_eq, h.posted_eq, h.returned_eq, rfl, rfl, hlt,
          hdb, hroom, ?_, h.stored, h.fresh, h.tagged⟩
        rintro _ ⟨⟩
        exact hhead
    · have hnot := mt (h.tag_eq_iff hn hp).mpr htag
      have hall : returned.length = posted.length := by omega
      refine ⟨.returned none, s, ?_, rfl, ?_, fun _ => ?_⟩
      · rw [CompletionRing.popStep, hp]
        dsimp only
        rw [test, if_neg htag]
        rfl
      · change RingOk n posted (returned ++ []) _
        rw [append_nil]
        exact h
      · rw [h.returned_eq, hall, take_length]
  | some p =>
    rw [hp, taken] at hle
    obtain ⟨c, hc, hent⟩ := h.entry_of_lt hle
    have hslot := h.slot_eq p hp
    have hhead := h.head_eq
    have hph := h.phase_eq
    have hdb := h.doorbell_eq
    rw [hp] at hhead hph hdb hroom
    cases p with
    | store slot =>
      obtain ⟨head, hass⟩ := Option.isSome_iff_exists.mp (h.tagged _ _ hc).2
      have hslot' : slot = returned.length % n := hslot
      refine ⟨.running, { s with
        queue := { s.queue with
          assocSubmitQueueHeads :=
            update s.queue.assocSubmitQueueHeads c.sqid (some c.head) }
        popping := some (.ring slot) }, ?_, rfl, ?_, nofun⟩
      · rw [CompletionRing.popStep, hp]
        dsimp only
        rw [hslot', hent, storeHead, hass]
        rfl
      · change RingOk n posted (returned ++ []) _
        rw [append_nil]
        refine ⟨h.entryCount_eq, h.deviceSize_eq, h.posted_eq, h.returned_eq, hhead, hph, hle,
          hdb, hroom, ?_, h.stored, h.fresh, fun k c' hc' => ⟨(h.tagged k c' hc').1, ?_⟩⟩
        · rintro _ ⟨⟩
          exact hslot
        · change (update s.queue.assocSubmitQueueHeads c.sqid (some c.head) c'.sqid).isSome
          by_cases heq : c'.sqid = c.sqid
          · rw [heq, update_self]
            rfl
          · rw [update_of_ne heq]
            exact (h.tagged k c' hc').2
    | ring slot =>
      refine ⟨.running, { s with headDoorbell := s.queue.head, popping := some (.copy slot) }, ?_,
        rfl, ?_, nofun⟩
      · rw [CompletionRing.popStep, hp]
      · change RingOk n posted (returned ++ []) _
        rw [append_nil]
        refine ⟨h.entryCount_eq, h.deviceSize_eq, h.posted_eq, h.returned_eq, hhead, hph, hle,
          hhead, ?_, ?_, h.stored, h.fresh, h.tagged⟩
        · simp only [rung] at hroom ⊢
          omega
        · rintro _ ⟨⟩
          exact hslot
    | copy slot =>
      have hslot' : slot = returned.length % n := hslot
      refine ⟨.returned (some c), { s with popping := none }, ?_, rfl, ?_, nofun⟩
      · rw [CompletionRing.popStep, hp]
        dsimp only
        rw [hslot', hent]
      · have hlen : (returned ++ [c]).length = returned.length + 1 := by simp
        change RingOk n posted (returned ++ [c]) _
        refine ⟨h.entryCount_eq, h.deviceSize_eq, h.posted_eq, ?_, ?_, ?_, ?_, ?_, ?_, nofun,
          h.stored, h.fresh, h.tagged⟩
        · rw [hlen, take_add_one, ← h.returned_eq, hc]
          rfl
        · rw [hlen]
          exact hhead
        · rw [hlen]
          exact hph
        · rw [hlen]
          exact hle
        · rw [hlen]
          exact hdb
        · rw [hlen]
          exact hroom

/-! ### Runs -/

def postedIn (events : List CompletionEvent) : List Completion :=
  history CompletionOutcome.posted? events

def returnedIn (events : List CompletionEvent) : List Completion :=
  history CompletionOutcome.returned? events

lemma ringOk_of_run (hn : 0 < n) (hn' : n < 2 ^ 16) {id : QueueId} {heads : QueueId → Option ℕ}
    {events : List CompletionEvent} (hrun : Run step (.new id n n heads) events s) :
    RingOk n (postedIn events) (returnedIn events) s := by
  induction hrun with
  | nil => exact ringOk_new hn id heads
  | @call events s a o s' _ hstep ih =>
    cases a with
    | post c =>
      rw [step] at hstep
      split_ifs at hstep with hc
      cases hstep
      have hpost : postedIn (⟨.post c, .posted c, s, s.post c⟩ :: events) =
          postedIn events ++ [c] := history_cons_some rfl
      have hret : returnedIn (⟨.post c, .posted c, s, s.post c⟩ :: events) =
          returnedIn events := history_cons_none rfl
      rw [hpost, hret]
      exact ih.post hc
    | pop =>
      obtain ⟨o', s'', hpop, hpopp⟩ := ih.popStep hn hn'
      cases hpop.symm.trans hstep
      have hpost : postedIn (⟨.pop, o, s, s'⟩ :: events) = postedIn events :=
        history_cons_none hpopp.posted?_eq
      rw [hpost]
      have hret : returnedIn (⟨.pop, o, s, s'⟩ :: events) =
          returnedIn events ++ o.returned?.toList := by
        cases ho : o.returned? with
        | none => exact (history_cons_none ho).trans (append_nil _).symm
        | some c => exact history_cons_some ho
      rw [hret]
      exact hpopp.ok

/-- With a ring of at least two entries, `pop` returns the completions that the device posts, each
once, in order and as they were posted. It does not panic, and it returns nothing only if everything
that was posted has been returned. -/
theorem pop_returns_posted (hn : 2 ≤ n) (hn' : n < 2 ^ 16) {id : QueueId}
    {heads : QueueId → Option ℕ} {events : List CompletionEvent}
    (hrun : Run step (.new id n n heads) events s) :
    returnedIn events <+: postedIn events ∧ (step .pop s).isSome ∧
      ∀ o s', step .pop s = some (o, s') → o = .returned none →
        returnedIn events = postedIn events := by
  have hok := ringOk_of_run (by omega) hn' hrun
  obtain ⟨o, s', hpop, hpopp⟩ := hok.popStep (by omega) hn'
  have hstep : step .pop s = some (o, s') := hpop
  refine ⟨?_, ?_, fun o' s'' hstep' ho' => ?_⟩
  · rw [hok.returned_eq]
    exact take_prefix _ _
  · rw [hstep]
    rfl
  · cases hstep.symm.trans hstep'
    exact hpopp.none_only ho'

end

def sampleCompletion (id : BitVec 16) (phaseTag : Bool) : Completion :=
  ⟨0, 0, 1, 1, id, if phaseTag then 1 else 0⟩

def sampleActs : List CompletionAct :=
  [.pop, .pop, .pop, .pop, .post (sampleCompletion 7 false), .pop, .pop, .pop, .pop,
    .post (sampleCompletion 6 true), .pop, .pop, .pop, .pop, .post (sampleCompletion 5 true)]

theorem pop_returns_posted_wrapped :
    ∃ events s, Run step (.new 1 2 2 fun _ => some 0) events s ∧
      (postedIn events).length = 3 ∧ returnedIn events <+: postedIn events := by
  obtain ⟨events, s, hrun, hlen⟩ := Run.exists_of_execute step
    (.new 1 2 2 fun _ => some 0) sampleActs (Q := fun events _ => (postedIn events).length = 3)
    (by decide +kernel)
  exact ⟨events, s, hrun, hlen, (pop_returns_posted (by decide) (by decide) hrun).1⟩

end Kernel.Storage.Nvme
