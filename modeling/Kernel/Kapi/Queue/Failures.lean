import Kernel.Kapi.Queue.ConcurrentProperties
import Kernel.Kapi.Queue.Sequential

/-!
# When a call fails

A call that fails has seen a stamp and two counters that belong to a full or an empty queue.
-/

namespace Kernel.Kapi

open Core Queue Relation Call Shared Function

variable {q : Queue} {α : Type}

def Shared.IsFull (s : Shared q α) : Prop := s.posts.length = s.polls.length + q.capacity

def Shared.IsEmpty (s : Shared q α) : Prop := s.memory.head = s.memory.tail

section

variable {d : Program.Discipline (Shared q α) (Caller q α)} {s₀ : Shared q α}
  (tr : (program q α).Trace d s₀)

def InProgress (t i : ℕ) : Prop :=
  ∃ c, (tr.config i).calls[t]? = some c ∧ ¬ c.call.IsReturned

def FailuresJustified : Prop :=
  ∀ j ≤ tr.length, ∀ t c, (tr.config j).calls[t]? = some c →
    (∀ value, c.call = .postReturned (.error value) →
      ∃ i < j, InProgress tr t i ∧ (tr.config i).shared.IsFull) ∧
    (c.call = .pollReturned none → ∃ i < j, InProgress tr t i ∧ (tr.config i).shared.IsEmpty)

end

/-- A call takes steps only while the tail has not come around to where the head was at the start of
the call, and while the head is not in the last lap before it has come around to where the tail
was. -/
def notAround (q : Queue) (α : Type) : Program.Discipline (Shared q α) (Caller q α) where
  start _ _ := True
  step s _ c := s.posts.length < c.pollsAtStart + q.period ∧
    s.polls.length + q.capacity < c.postsAtStart + q.period

/-! ### The last load of a call that fails -/

variable {c : Call q α} {spurious : Bool} {m : Memory q α}

lemma Call.of_step_error {value : α} (h : (c.step spurious m).2 = .postReturned (.error value)) :
    c = .postReturned (.error value) ∨
      ∃ tail, c = .postLoadHead value tail ∧ m.head + q.oneLap = tail := by
  cases c <;> simp only [step, orPanic, Queue.postLoop, Queue.pollLoop] at h <;>
    (repeat' split at h) <;> simp_all

lemma Call.of_step_none (h : (c.step spurious m).2 = .pollReturned none) :
    c = .pollReturned none ∨ ∃ head, c = .pollLoadTail head ∧ m.tail = head := by
  cases c <;> simp only [step, orPanic, Queue.postLoop, Queue.pollLoop] at h <;>
    (repeat' split at h) <;> simp_all

variable {use : Fin q.capacity → Use} {s : Shared q α} {k n : ℕ}

lemma SharedOk.isFull_of_load (hs : SharedOk use k s) {p₀ : ℕ} {tail : BitVec 64}
    (hload : Loaded q p₀ s.posts.length n tail)
    (hwrap : s.polls.length + q.capacity < p₀ + q.period)
    (heq : s.memory.head + q.oneLap = tail) : s.IsFull := by
  obtain ⟨hge, hle, rfl⟩ := hload
  rw [hs.head_eq, ← encode_add_capacity] at heq
  have hpls := hs.polls_le
  have hpsts := hs.posts_le
  have hn : n = s.polls.length + q.capacity :=
    q.encode_injective (by omega) (by omega) heq.symm
  rw [Shared.IsFull]
  omega

lemma SharedOk.isEmpty_of_load (hs : SharedOk use k s) {h₀ : ℕ} {head : BitVec 64}
    (hload : Loaded q h₀ s.polls.length n head) (hwrap : s.posts.length < h₀ + q.period)
    (heq : s.memory.tail = head) : s.IsEmpty := by
  obtain ⟨hge, hle, rfl⟩ := hload
  rw [hs.tail_eq] at heq
  have hpls := hs.polls_le
  have hpsts := hs.posts_le
  have hn : n = s.posts.length := q.encode_injective (by omega) (by omega) heq.symm
  have hlen : s.polls.length = s.posts.length := by omega
  rw [Shared.IsEmpty, hs.head_eq, hs.tail_eq, hlen]

/-- In every interleaving in which neither counter comes around to the other one during a call, the
calls fail for a reason. -/
theorem failures_justified
    (tr : (program q α).Trace (notAround q α) (initialized q α)) : FailuresJustified tr := by
  intro j hj t c hc
  constructor
  · intro value herr
    obtain ⟨i, hi, ⟨c₁, p₀, h₀⟩, c₂, hc₁, hne, ⟨value, hval⟩, ⟨-, spurious, -, rfl⟩, hap⟩ :=
      tr.exists_step (P := fun c => ∃ value, c.call = .postReturned (.error value))
        (by rintro s c ⟨-, -, hcall | ⟨v, hcall⟩⟩ ⟨value, hval⟩ <;> simp [hcall] at hval)
        hj hc ⟨value, herr⟩
    rcases of_step_error hval with rfl | ⟨tail, rfl, heq⟩
    · exact absurd ⟨value, rfl⟩ hne
    · obtain ⟨use, hs, hcs⟩ :=
        reachable_asserted (tr.reachableUnder (i := i) (by omega)).reachable
      obtain ⟨-, -, n, hload⟩ := hcs t _ hc₁
      exact ⟨i, hi, ⟨_, hc₁, id⟩, hs.isFull_of_load hload hap.2 heq⟩
  · intro hnone
    obtain ⟨i, hi, ⟨c₁, p₀, h₀⟩, c₂, hc₁, hne, hnone', ⟨-, spurious, -, rfl⟩, hap⟩ :=
      tr.exists_step (P := fun c => c.call = .pollReturned none)
        (by rintro s c ⟨-, -, hcall | ⟨v, hcall⟩⟩ hnone <;> simp [hcall] at hnone) hj hc hnone
    rcases of_step_none hnone' with rfl | ⟨head, rfl, heq⟩
    · exact absurd rfl hne
    · obtain ⟨use, hs, hcs⟩ :=
        reachable_asserted (tr.reachableUnder (i := i) (by omega)).reachable
      obtain ⟨-, -, n, hload⟩ := hcs t _ hc₁
      exact ⟨i, hi, ⟨_, hc₁, id⟩, hs.isEmpty_of_load hload hap.1 heq⟩

/-- A `poll` on a new queue returns nothing. -/
theorem failures_justified_poll :
    ∃ tr : (program twoSlots ℕ).Trace (notAround twoSlots ℕ) (initialized twoSlots ℕ),
      (tr.config tr.length).calls.map Caller.call = [.pollReturned none] ∧
        FailuresJustified tr := by
  have hrun : ReflTransGen
      (fun a b => (program twoSlots ℕ).StepUnder (notAround twoSlots ℕ) a b ∧ True)
      ⟨initialized twoSlots ℕ, []⟩ _ := ReflTransGen.refl
    |>.tail ⟨.start (c := ⟨.pollLoadHead, 0, 0⟩) ⟨rfl, rfl, .inl rfl⟩ trivial, trivial⟩
    |>.tail ⟨.call (t := 0) rfl (step_of_le (by decide)) ⟨by decide, by decide⟩, trivial⟩
    |>.tail ⟨.call (t := 0) rfl (step_of_le (by decide)) ⟨by decide, by decide⟩, trivial⟩
    |>.tail ⟨.call (t := 0) rfl (step_of_le (by decide)) ⟨by decide, by decide⟩, trivial⟩
  obtain ⟨tr, hend, -⟩ := Program.Trace.exists_of_reflTransGen (P := fun _ => True) trivial hrun
  exact ⟨tr, by rw [hend]; rfl, failures_justified tr⟩

/-! ### A run that is one element short of a full wrap -/

def BusyStep (a b : Config (Shared q α) (Caller q α)) : Prop :=
  (program q α).StepUnder .free a b ∧ b.shared.polls.length < b.shared.posts.length

lemma BusyStep.last {s : Shared q α} {cs : List (Caller q α)} {p₀ h₀ : ℕ} {c : Call q α}
    (s' : Shared q α) (c' : Call q α) (hpsts : s.posts.length ≤ p₀ + 1)
    (hpls : s.polls.length ≤ h₀ + 1) (hs : s.record cs.length c (c.step false s.memory) = s')
    (hc : (c.step false s.memory).2 = c') (hbusy : s'.polls.length < s'.posts.length) :
    BusyStep ⟨s, cs ++ [⟨c, p₀, h₀⟩]⟩ ⟨s', cs ++ [⟨c', p₀, h₀⟩]⟩ := by
  have hcap := q.capacity_pos
  have hper := q.capacity_lt_period
  refine ⟨.last ⟨⟨?_, ?_⟩, false, hs.symm, by rw [← hc]⟩ trivial, hbusy⟩
  · change s.posts.length - p₀ < q.period
    omega
  · change s.polls.length - h₀ < q.period
    omega

variable {xs : List α}

lemma busy_post (cs : List (Caller q α)) (h : Represents q n xs s.memory)
    (hlt : xs.length < q.capacity) (hbusy : s.polls.length < s.posts.length) (value : α) :
    ReflTransGen BusyStep ⟨s, cs⟩
      ⟨⟨s.memory.posted (q.encode (n + xs.length)) (q.slot (n + xs.length)) value,
        s.posts ++ [(cs.length, value)], s.polls⟩,
        cs ++ [⟨.postReturned (.ok ()), s.posts.length, s.polls.length⟩]⟩ := by
  have hstp := h.vacant xs.length le_rfl hlt
  have hfol := q.following_encode (n + xs.length)
  have hnext := q.checkedAddWord_encode (n + xs.length)
  generalize hw : q.encode (n + xs.length) = w at hstp hfol hnext ⊢
  generalize hi : q.slot (n + xs.length) = i at hstp ⊢
  let claimed : Shared q α :=
    ⟨{ s.memory with tail := q.following w }, s.posts ++ [(cs.length, value)], s.polls⟩
  have hclm : claimed.posts.length = s.posts.length + 1 := by simp [claimed]
  have hbeg : BusyStep ⟨s, cs⟩ ⟨s, cs ++ [⟨.postLoadTail value, _, _⟩]⟩ :=
    ⟨.start ⟨rfl, rfl, .inr ⟨value, rfl⟩⟩ trivial, hbusy⟩
  refine .head hbeg (.head (.last s (.postLoadStamp value w (q.following w) i)
    (by omega) (by omega) rfl ?_ hbusy) ?_)
  · rw [step, h.tail_eq, postLoop_encode, hw, hi, hfol]
  refine .head (.last s (.postCompareExchange value w (q.following w) i)
    (by omega) (by omega) ?_ ?_ hbusy) ?_
  · simp [step, hstp, record]
  · simp [step, hstp]
  refine .head (.last claimed (.postWrite value w i) (by omega) (by omega) ?_ ?_
    (by simp [claimed]; omega)) ?_
  · simp [step, h.tail_eq, hw, record, claimed]
  · simp [step, h.tail_eq, hw]
  -- the slot belongs to the call now
  have hcbu : claimed.polls.length < claimed.posts.length := by
    rw [hclm]
    exact hbusy.trans (lt_add_one _)
  have hpls : claimed.polls.length ≤ s.polls.length + 1 := Nat.le_succ _
  refine .head (.last { claimed with memory := claimed.memory.setValue i none }
    (.postWriting value w i) hclm.le hpls rfl rfl hcbu) ?_
  refine .head (.last
    { claimed with memory := (claimed.memory.setValue i none).setValue i (some value) }
    (.postStoreStamp (w + 1) i) hclm.le hpls rfl ?_ hcbu) ?_
  · rw [step, hnext]
    rfl
  refine .single (.last _ _ hclm.le hpls ?_ rfl ?_)
  · simp [step, record, claimed, Memory.posted, Memory.setValue, Memory.setStamp]
  · exact hcbu

lemma busy_poll (cs : List (Caller q α)) {x : α} (h : Represents q n (x :: xs) s.memory)
    (hbusy : s.polls.length + 1 < s.posts.length) :
    ReflTransGen BusyStep ⟨s, cs⟩
      ⟨⟨s.memory.polled (q.encode n) (q.slot n), s.posts, s.polls ++ [cs.length]⟩,
        cs ++ [⟨.pollReturned (some (some x)), s.posts.length, s.polls.length⟩]⟩ := by
  have hfull := h.full 0 x rfl
  have hfol := q.following_encode n
  have hadv := q.advance_encode n
  have hnext := q.checkedAddWord_encode n
  rw [add_zero] at hfull
  generalize hw : q.encode n = w at hfull hfol hadv hnext ⊢
  generalize hi : q.slot n = i at hfull ⊢
  let claimed : Shared q α :=
    ⟨{ s.memory with head := q.following w }, s.posts, s.polls ++ [cs.length]⟩
  have hclm : claimed.polls.length = s.polls.length + 1 := by simp [claimed]
  have hslot : claimed.memory.slots i = ⟨w + 1, some x⟩ := hfull
  have hbeg : BusyStep ⟨s, cs⟩ ⟨s, cs ++ [⟨.pollLoadHead, _, _⟩]⟩ :=
    ⟨.start ⟨rfl, rfl, .inl rfl⟩ trivial, (lt_add_one _).trans hbusy⟩
  refine .head hbeg (.head (.last s (.pollLoadStamp w i)
    (by omega) (by omega) rfl ?_ (by omega)) ?_)
  · rw [step, h.head_eq, pollLoop_encode, hw, hi]
  refine .head (.last s (.pollCompareExchange w (q.following w) i)
    (by omega) (by omega) rfl ?_ (by omega)) ?_
  · rw [step, hnext, hfull, orPanic, if_pos rfl, hadv, hfol]
    rfl
  refine .head (.last claimed (.pollRead w i) (by omega) (by omega) ?_ ?_
    (by rw [hclm]; exact hbusy)) ?_
  · simp [step, h.head_eq, hw, record, claimed]
  · simp [step, h.head_eq, hw]
  have hcbu : claimed.polls.length < claimed.posts.length := by rwa [hclm]
  have hpsts : claimed.posts.length ≤ s.posts.length + 1 := Nat.le_succ _
  refine .head (.last claimed (.pollReading w i) hpsts hclm.le rfl rfl hcbu) ?_
  refine .head (.last claimed (.pollStoreStamp w i (some x)) hpsts hclm.le rfl ?_ hcbu) ?_
  · rw [step, hslot]
  exact .single (.last _ _ hpsts hclm.le rfl rfl hcbu)

lemma busy_rounds (cs : List (Caller q α)) (hcap : 2 ≤ q.capacity) {x : α}
    (h : Represents q n [x] s.memory) (hpsts : s.posts.length = n + 1)
    (hpls : s.polls.length = n) (value : α) (k : ℕ) :
    ∃ s' cs' y, ReflTransGen BusyStep ⟨s, cs⟩ ⟨s', cs ++ cs'⟩ ∧
      Represents q (n + k) [y] s'.memory ∧ s'.posts.length = n + k + 1 ∧
      s'.polls.length = n + k := by
  induction k with
  | zero => exact ⟨s, [], x, by rw [List.append_nil], h, hpsts, hpls⟩
  | succ k ih =>
    obtain ⟨s', cs', y, hrun, hrep, hpsts, hpls⟩ := ih
    have hpost := busy_post (cs ++ cs') hrep hcap (by omega) value
    have hrep' := hrep.post hcap value
    have hpoll := busy_poll (s := ⟨_, s'.posts ++ [((cs ++ cs').length, value)], s'.polls⟩)
      (cs ++ cs' ++ [⟨.postReturned (.ok ()), s'.posts.length, s'.polls.length⟩]) hrep'
      (by simp [hpsts, hpls])
    have hrd := (hrun.trans hpost).trans hpoll
    rw [List.append_assoc, List.append_assoc] at hrd
    exact ⟨_, _, value, hrd, hrep'.poll, by simp [hpsts, add_assoc],
      by simp [hpls, add_assoc]⟩

lemma interrupted_poll :
    ReflTransGen
      (fun a b => (program twoSlots ℕ).StepUnder .free a b ∧
        (b.calls.length ≤ 1 ∨ b.shared.polls.length < b.shared.posts.length))
      ⟨initialized twoSlots ℕ, []⟩
      ⟨⟨(twoSlots.initialized ℕ).posted (twoSlots.encode 0) (twoSlots.slot 0) 7, [(0, 7)], []⟩,
        [⟨.postReturned (.ok ()), 0, 0⟩, ⟨.pollLoadTail 0, 1, 0⟩]⟩ := by
  have hmem : (twoSlots.initialized ℕ).posted (twoSlots.encode 0) (twoSlots.slot 0) 7 =
      (((({ twoSlots.initialized ℕ with tail := 1 } : Memory twoSlots ℕ).setValue
        (twoSlots.slot 0) none).setValue (twoSlots.slot 0) (some 7)).setStamp
        (twoSlots.slot 0) 1) := by
    have hfol : twoSlots.following (twoSlots.encode 0) = 1 := by decide
    have hnext : twoSlots.encode 0 + 1 = 1 := by decide
    simp only [Memory.posted, Memory.setValue, Memory.setStamp, hfol, hnext,
      update_self, update_idem]
  rw [hmem]
  have hrun : ReflTransGen
      (fun a b => (program twoSlots ℕ).StepUnder .free a b ∧
        (b.calls.length ≤ 1 ∨ b.shared.polls.length < b.shared.posts.length))
      ⟨initialized twoSlots ℕ, []⟩ _ := ReflTransGen.refl
    |>.tail ⟨.start (c := ⟨.postLoadTail 7, 0, 0⟩) ⟨rfl, rfl, .inr ⟨7, rfl⟩⟩ trivial,
      .inl (by decide)⟩
    |>.tail ⟨.call (t := 0) rfl (step_of_le (by decide)) trivial, .inl (by decide)⟩
    |>.tail ⟨.call (t := 0) rfl (step_of_le (by decide)) trivial, .inl (by decide)⟩
    |>.tail ⟨.call (t := 0) rfl (step_of_le (by decide)) trivial, .inl (by decide)⟩
    |>.tail ⟨.start (c := ⟨.pollLoadHead, 1, 0⟩) ⟨rfl, rfl, .inl rfl⟩ trivial, .inr (by decide)⟩
    |>.tail ⟨.call (t := 1) rfl (step_of_le (by decide)) trivial, .inr (by decide)⟩
    |>.tail ⟨.call (t := 1) rfl (step_of_le (by decide)) trivial, .inr (by decide)⟩
    |>.tail ⟨.call (t := 0) rfl (step_of_le (by decide)) trivial, .inr (by decide)⟩
    |>.tail ⟨.call (t := 0) rfl (step_of_le (by decide)) trivial, .inr (by decide)⟩
    |>.tail ⟨.call (t := 0) rfl (step_of_le (by decide)) trivial, .inr (by decide)⟩
  exact hrun

/-- If the others post and take elements until the tail is where it was one wrap ago, the
interrupted `poll` returns nothing, although there always was an element in the queue. -/
theorem poll_fails_near_wrap :
    ¬ ∀ tr : (program twoSlots ℕ).Trace .free (initialized twoSlots ℕ),
      FailuresJustified tr := by
  intro hall
  have hrep : Represents twoSlots 0 [7] _ :=
    (represents_initialized twoSlots ℕ).post (by decide) 7
  obtain ⟨s, cs, y, hrds, hs, hpsts, hpls⟩ :=
    busy_rounds (s := ⟨_, [(0, 7)], []⟩)
      [⟨.postReturned (.ok ()), 0, 0⟩, ⟨.pollLoadTail 0, 1, 0⟩] le_rfl hrep rfl rfl 7
      (twoSlots.period - 1)
  have hper : twoSlots.period = 2 ^ 63 := by decide
  -- the tail is where the head was when it was loaded
  have htail : s.memory.tail = 0 := by
    have hzero : twoSlots.encode (0 + (twoSlots.period - 1) + 1) = 0 := by decide
    rw [hs.tail_eq]
    exact hzero
  have hlast : (program twoSlots ℕ).StepUnder .free
      ⟨s, ⟨.postReturned (.ok ()), 0, 0⟩ :: ⟨.pollLoadTail 0, 1, 0⟩ :: cs⟩
      ⟨s, ⟨.postReturned (.ok ()), 0, 0⟩ :: ⟨.pollReturned none, 1, 0⟩ :: cs⟩ := by
    refine .call (t := 1) (c := ⟨.pollLoadTail 0, 1, 0⟩) rfl ⟨⟨?_, ?_⟩, false, ?_, ?_⟩ trivial
    · simp [hpsts, hper]
    · simp [hpls, hper]
    · simp [step, htail, record]
    · simp [step, htail]
  have hbusy : s.polls.length < s.posts.length := by omega
  have hrun := (interrupted_poll.trans
    (ReflTransGen.mono (fun _ _ h => ⟨h.1, .inr h.2⟩) _ _ hrds)).tail ⟨hlast, .inr hbusy⟩
  obtain ⟨tr, hend, hP⟩ := Program.Trace.exists_of_reflTransGen (.inl (Nat.zero_le 1)) hrun
  obtain ⟨i, hi, ⟨c, hc, -⟩, hemp⟩ :=
    (hall tr tr.length le_rfl 1 _ (by rw [hend]; rfl)).2 rfl
  -- the call has begun, so there is an element
  have hclm : (tr.config i).shared.polls.length < (tr.config i).shared.posts.length :=
    (hP i hi.le).resolve_left (by have := (List.getElem?_eq_some_iff.mp hc).1; omega)
  obtain ⟨use, hok, -⟩ := reachable_asserted (tr.reachableUnder hi.le).reachable
  rw [Shared.IsEmpty, hok.head_eq, hok.tail_eq] at hemp
  have hle := hok.posts_le
  have hcap : twoSlots.capacity = 2 := rfl
  have := twoSlots.encode_injective hclm.le (by omega) hemp
  omega

end Kernel.Kapi
