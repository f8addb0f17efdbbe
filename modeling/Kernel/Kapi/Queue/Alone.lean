import Kernel.Core.Retry
import Kernel.Kapi.Queue.Position

/-!
# Calls that run alone, on any memory

The memory of a queue is shared with user space, so nothing is assumed about the counters and the
stamps here.
-/

namespace Kernel.Kapi

open Core Queue Call Function

inductive Op (α : Type) where
  | post (value : α)
  | poll

variable {q : Queue} {α : Type}

def Op.call : Op α → Call q α
  | .post value => .postLoadTail value
  | .poll => .pollLoadHead

def Call.alone (spurious : Bool) (s : Memory q α × Call q α) : Memory q α × Call q α :=
  s.2.step spurious s.1

def Call.IsReturned : Call q α → Prop
  | .postReturned _ | .pollReturned _ => True
  | _ => False

def Queue.following (q : Queue) (w : BitVec 64) : BitVec 64 :=
  if (q.index w).toNat + 1 < q.capacity then w + 1 else q.lap w + q.oneLap

variable {m : Memory q α} {w : BitVec 64} {i : Fin q.capacity}

lemma Queue.advance_eq (h : (q.index w).toNat < q.capacity) :
    q.advance w = .ok (q.following w) := by
  rw [advance, following, q.checkedAddWord_one h]
  split_ifs <;> rfl

lemma Queue.following_encode (q : Queue) (n : ℕ) :
    q.following (q.encode n) = q.encode (n + 1) := by
  have h := q.advance_encode n
  rw [advance_eq (by rw [index_encode]; exact q.mod_capacity_lt n)] at h
  exact Except.ok.inj h

lemma Queue.checkedAddWord_of_index (hi : (q.index w).toNat = i) :
    checkedAddWord w 1 = .ok (w + 1) := q.checkedAddWord_one (hi.trans_lt i.isLt)

lemma Queue.postLoop_eq (value : α) (hi : (q.index w).toNat = i) :
    (postLoop value w : Call q α) = .postLoadStamp value w (q.following w) i := by
  have h : (q.index w).toNat < q.capacity := hi.trans_lt i.isLt
  simp [postLoop, advance_eq h, hi]

lemma Queue.pollLoop_eq (hi : (q.index w).toNat = i) :
    (pollLoop w : Call q α) = .pollLoadStamp w i := by
  simp [pollLoop, hi]

/-! ### `post` -/

def Memory.posted (m : Memory q α) (w : BitVec 64) (i : Fin q.capacity) (value : α) :
    Memory q α :=
  { m with
    tail := q.following w
    slots := update m.slots i ⟨w + 1, some value⟩ }

section post

variable {value : α}

lemma settles_post_ok (value : α) (hi : (q.index m.tail).toNat = i)
    (hstp : (m.slots i).stamp = m.tail) :
    Settles alone (· = (m.posted m.tail i value, .postReturned (.ok ())))
      (m, .postLoadTail value) := by
  have hload : ∀ b, alone b (m, .postLoadStamp value m.tail (q.following m.tail) i) =
      (m, .postCompareExchange value m.tail (q.following m.tail) i) := fun b => by
    simp [alone, step, hstp]
  refine .of_step (m, .postLoadStamp value m.tail (q.following m.tail) i)
    (fun b => by simp [alone, step, postLoop_eq value hi]) ?_
  refine .of_step _ hload (.retry ?_ fun b => ?_)
  · -- the compare-exchange succeeds
    refine .next fun _ => .next fun _ => .next fun _ => .of_mem ?_
    simp only [alone, step, orPanic, checkedAddWord_of_index hi, true_and, ↓reduceIte]
    simp [Memory.setValue, Memory.setStamp, Memory.posted]
  · -- after a spurious failure it is tried again
    have hfail : alone true
        (m, .postCompareExchange value m.tail (q.following m.tail) i) =
        (m, .postLoadStamp value m.tail (q.following m.tail) i) := by
      simp [alone, step, postLoop_eq value hi]
    rw [hfail, hload]

lemma settles_post_error (value : α) (hi : (q.index m.tail).toNat = i)
    (hstp : (m.slots i).stamp + q.oneLap = m.tail + 1)
    (hne : (m.slots i).stamp ≠ m.tail) (hhead : m.head + q.oneLap = m.tail) :
    Settles alone (· = (m, .postReturned (.error value))) (m, .postLoadTail value) := by
  refine .next fun _ => .next fun _ => .next fun _ => .of_mem ?_
  simp only [alone, step, postLoop_eq value hi, hne.symm, orPanic,
    checkedAddWord_of_index hi, hstp, hhead, ↓reduceIte]

lemma not_settles_post_of_index (h : ¬ (q.index m.tail).toNat < q.capacity) :
    ¬ Settles alone (fun s => s.2.IsReturned) (m, .postLoadTail value) := by
  refine not_settles (fun s => s = (m, .postLoadTail value) ∨ ∃ reason, s = (m, .panicked reason))
    (.inl rfl) ?_ ?_
  · rintro s (rfl | ⟨reason, rfl⟩)
    · right
      simp only [alone, step, postLoop, h, ↓reduceDIte]
      split
      · exact ⟨_, rfl⟩
      · exact ⟨_, rfl⟩
    · exact .inr ⟨reason, rfl⟩
  · rintro s (rfl | ⟨reason, rfl⟩) <;> simp [IsReturned]

lemma not_settles_post_of_stamp (hi : (q.index m.tail).toNat = i) (hne : (m.slots i).stamp ≠ m.tail)
    (hfull : ¬ ((m.slots i).stamp + q.oneLap = m.tail + 1 ∧ m.head + q.oneLap = m.tail)) :
    ¬ Settles alone (fun s => s.2.IsReturned) (m, .postLoadTail value) := by
  refine not_settles (fun s => s = (m, .postLoadTail value) ∨
    s = (m, .postLoadStamp value m.tail (q.following m.tail) i) ∨
    s = (m, .postLoadHead value m.tail) ∧ (m.slots i).stamp + q.oneLap = m.tail + 1)
    (.inl rfl) ?_ ?_
  · rintro s (rfl | rfl | ⟨rfl, hstp⟩)
    · right; left
      simp only [alone, step, postLoop_eq value hi]
    · simp only [alone, step, hne.symm, orPanic, checkedAddWord_of_index hi, ↓reduceIte]
      split_ifs with hstp
      · exact .inr (.inr ⟨rfl, hstp⟩)
      · exact .inl rfl
    · have hhead : m.head + q.oneLap ≠ m.tail := fun hhead => hfull ⟨hstp, hhead⟩
      left
      simp only [alone, step, hhead, ↓reduceIte]
  · rintro s (rfl | rfl | ⟨rfl, -⟩) <;> simp [IsReturned]

end post

/-! ### `poll` -/

def Memory.polled (m : Memory q α) (w : BitVec 64) (i : Fin q.capacity) : Memory q α :=
  { m with
    head := q.following w
    slots := update m.slots i { m.slots i with stamp := w + q.oneLap } }

lemma settles_poll_some (hi : (q.index m.head).toNat = i) (hstp : (m.slots i).stamp = m.head + 1) :
    Settles alone
      (· = (m.polled m.head i, .pollReturned (some (m.slots i).value)))
      (m, .pollLoadHead) := by
  have hload : ∀ b, alone b (m, .pollLoadStamp m.head i) =
      (m, .pollCompareExchange m.head (q.following m.head) i) := fun b => by
    simp only [alone, step, hstp, orPanic, checkedAddWord_of_index hi,
      advance_eq (hi.trans_lt i.isLt), ↓reduceIte]
  refine .of_step (m, .pollLoadStamp m.head i)
    (fun b => by simp only [alone, step, pollLoop_eq hi]) ?_
  refine .of_step _ hload (.retry ?_ fun b => ?_)
  · refine .next fun _ => .next fun _ => .next fun _ => .of_mem ?_
    simp [alone, step, Memory.setStamp, Memory.polled]
  · have hfail : alone true
        (m, .pollCompareExchange m.head (q.following m.head) i) =
        (m, .pollLoadStamp m.head i) := by
      simp [alone, step, pollLoop_eq hi]
    rw [hfail, hload]

lemma settles_poll_none (hi : (q.index m.head).toNat = i)
    (hstp : (m.slots i).stamp = m.head) (htail : m.tail = m.head) :
    Settles alone (· = (m, .pollReturned none)) (m, .pollLoadHead) := by
  have hne : m.head + 1 ≠ m.head := by simp
  refine .next fun _ => .next fun _ => .next fun _ => .of_mem ?_
  simp only [alone, step, pollLoop_eq hi, orPanic, checkedAddWord_of_index hi,
    hstp, hne, htail, ↓reduceIte]

lemma not_settles_poll_of_index (h : ¬ (q.index m.head).toNat < q.capacity) :
    ¬ Settles alone (fun s => s.2.IsReturned) (m, .pollLoadHead) := by
  refine not_settles (fun s => s = (m, .pollLoadHead) ∨ s = (m, .panicked .assertion))
    (.inl rfl) ?_ ?_
  · rintro s (rfl | rfl)
    · exact .inr (by simp [alone, step, pollLoop, h])
    · exact .inr rfl
  · rintro s (rfl | rfl) <;> simp [IsReturned]

lemma not_settles_poll_of_stamp (hi : (q.index m.head).toNat = i)
    (hne : (m.slots i).stamp ≠ m.head + 1)
    (hemp : ¬ ((m.slots i).stamp = m.head ∧ m.tail = m.head)) :
    ¬ Settles alone (fun s => s.2.IsReturned) (m, .pollLoadHead) := by
  refine not_settles (fun s => s = (m, .pollLoadHead) ∨ s = (m, .pollLoadStamp m.head i) ∨
    s = (m, .pollLoadTail m.head) ∧ (m.slots i).stamp = m.head) (.inl rfl) ?_ ?_
  · rintro s (rfl | rfl | ⟨rfl, hstp⟩)
    · right; left
      simp only [alone, step, pollLoop_eq hi]
    · simp only [alone, step, hne.symm, orPanic, checkedAddWord_of_index hi, ↓reduceIte]
      split_ifs with hstp
      · exact .inr (.inr ⟨rfl, hstp⟩)
      · exact .inl rfl
    · have htail : m.tail ≠ m.head := fun htail => hemp ⟨hstp, htail⟩
      left
      simp only [alone, step, htail, ↓reduceIte]
  · rintro s (rfl | rfl | ⟨rfl, -⟩) <;> simp [IsReturned]

/-! ### Which calls end -/

def Consistent (m : Memory q α) : Op α → Prop
  | .post _ => ∃ i : Fin q.capacity, (q.index m.tail).toNat = i ∧
    ((m.slots i).stamp = m.tail ∨
      (m.slots i).stamp + q.oneLap = m.tail + 1 ∧ m.head + q.oneLap = m.tail)
  | .poll => ∃ i : Fin q.capacity, (q.index m.head).toNat = i ∧
    ((m.slots i).stamp = m.head + 1 ∨ (m.slots i).stamp = m.head ∧ m.tail = m.head)

/-- Alone on a memory with any content, a call returns exactly if the words it inspects are
consistent. Otherwise it fails the assertion about its index or never ends. -/
theorem settles_returned_iff (m : Memory q α) (op : Op α) :
    Settles alone (fun s => s.2.IsReturned) (m, op.call) ↔ Consistent m op := by
  cases op with
  | post value =>
    constructor
    · intro hset
      by_cases h : (q.index m.tail).toNat < q.capacity
      · refine ⟨⟨_, h⟩, rfl, ?_⟩
        by_contra hnot
        exact not_settles_post_of_stamp rfl (not_or.mp hnot).1 (not_or.mp hnot).2 hset
      · exact absurd hset (not_settles_post_of_index h)
    · rintro ⟨i, hi, hstp⟩
      by_cases heq : (m.slots i).stamp = m.tail
      · exact (settles_post_ok value hi heq).mono fun s hs => by rw [hs]; trivial
      · obtain ⟨hstp, hhead⟩ := hstp.resolve_left heq
        exact (settles_post_error value hi hstp heq hhead).mono fun s hs => by rw [hs]; trivial
  | poll =>
    constructor
    · intro hset
      by_cases h : (q.index m.head).toNat < q.capacity
      · refine ⟨⟨_, h⟩, rfl, ?_⟩
        by_contra hnot
        exact not_settles_poll_of_stamp rfl (not_or.mp hnot).1 (not_or.mp hnot).2 hset
      · exact absurd hset (not_settles_poll_of_index h)
    · rintro ⟨i, hi, hstp | ⟨hstp, htail⟩⟩
      · exact (settles_poll_some hi hstp).mono fun s hs => by rw [hs]; trivial
      · exact (settles_poll_none hi hstp htail).mono fun s hs => by rw [hs]; trivial

/-- A process wrote `3` to the tail of a queue with two slots: `post` fails its assertion. -/
theorem post_asserts_of_hostile_tail :
    let m : Memory twoSlots ℕ := { twoSlots.initialized ℕ with tail := 3 }
    runSteps alone (fun _ => false) 1 (m, (Op.post 7).call) = (m, .panicked .assertion) ∧
      ¬ Settles alone (fun s => s.2.IsReturned) (m, (Op.post 7).call) :=
  ⟨rfl, not_settles_post_of_index (by decide)⟩

end Kernel.Kapi
