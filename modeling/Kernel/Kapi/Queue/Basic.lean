import Kernel.Core.Checked
import Mathlib.Data.Nat.Log

/-!
# The kernel/user-space queue

A bounded queue in memory that several parties share.
-/

namespace Kernel.Kapi

open Core Function

structure Slot (α : Type) where
  stamp : BitVec 64
  value : Option α

def nextPowerOfTwo (n : ℕ) : ℕ := 2 ^ Nat.clog 2 n

structure Queue where
  capacity : ℕ
  capacity_pos : 0 < capacity
  capacity_le : capacity + 1 ≤ 2 ^ 63

structure Memory (q : Queue) (α : Type) where
  head : BitVec 64
  tail : BitVec 64
  slots : Fin q.capacity → Slot α

inductive Call (q : Queue) (α : Type) where
  | postLoadTail (value : α)
  | postLoadStamp (value : α) (tail newTail : BitVec 64) (index : Fin q.capacity)
  | postCompareExchange (value : α) (tail newTail : BitVec 64) (index : Fin q.capacity)
  | postLoadHead (value : α) (tail : BitVec 64)
  | postWrite (value : α) (tail : BitVec 64) (index : Fin q.capacity)
  | postWriting (value : α) (tail : BitVec 64) (index : Fin q.capacity)
  | postStoreStamp (stamp : BitVec 64) (index : Fin q.capacity)
  | postReturned (result : Except α Unit)
  | pollLoadHead
  | pollLoadStamp (head : BitVec 64) (index : Fin q.capacity)
  | pollCompareExchange (head new : BitVec 64) (index : Fin q.capacity)
  | pollLoadTail (head : BitVec 64)
  | pollRead (head : BitVec 64) (index : Fin q.capacity)
  | pollReading (head : BitVec 64) (index : Fin q.capacity)
  | pollStoreStamp (head : BitVec 64) (index : Fin q.capacity) (msg : Option α)
  | pollReturned (result : Option (Option α))
  | panicked (reason : Panic)

namespace Queue

def new (capacity : ℕ) : Checked Queue :=
  if h : 0 < capacity then
    if h' : capacity + 1 ≤ 2 ^ 63 then .ok ⟨capacity, h, h'⟩ else .error .overflow
  else .error .assertion

def twoSlots : Queue := ⟨2, by decide, by decide⟩

variable (q : Queue)

def lapSize : ℕ := nextPowerOfTwo (q.capacity + 1)

def oneLap : BitVec 64 := BitVec.ofNat 64 q.lapSize

def index (w : BitVec 64) : BitVec 64 := w &&& (q.oneLap - 1)

def lap (w : BitVec 64) : BitVec 64 := w &&& ~~~(q.oneLap - 1)

def advance (w : BitVec 64) : Checked (BitVec 64) :=
  if (q.index w).toNat + 1 < q.capacity then checkedAddWord w 1 else .ok (q.lap w + q.oneLap)

def initialized (α : Type) : Memory q α where
  head := 0
  tail := 0
  slots := fun index => ⟨BitVec.ofNat 64 index, none⟩

variable {q} {α : Type}

def postLoop (value : α) (tail : BitVec 64) : Call q α :=
  match q.advance tail with
  | .error reason => .panicked reason
  | .ok newTail =>
    if h : (q.index tail).toNat < q.capacity then .postLoadStamp value tail newTail ⟨_, h⟩
    else .panicked .assertion

def pollLoop (head : BitVec 64) : Call q α :=
  if h : (q.index head).toNat < q.capacity then .pollLoadStamp head ⟨_, h⟩
  else .panicked .assertion

end Queue

variable {q : Queue} {α : Type}

def Memory.setValue (m : Memory q α) (i : Fin q.capacity) (v : Option α) : Memory q α :=
  { m with slots := update m.slots i { m.slots i with value := v } }

def Memory.setStamp (m : Memory q α) (i : Fin q.capacity) (stamp : BitVec 64) : Memory q α :=
  { m with slots := update m.slots i { m.slots i with stamp := stamp } }

namespace Call

open Queue

def orPanic (w : Checked (BitVec 64)) (next : BitVec 64 → Call q α) : Call q α :=
  match w with
  | .ok w => next w
  | .error reason => .panicked reason

/-- One access to the shared memory. `spurious` says whether a `compare_exchange_weak` fails
although the counter has the expected value. Writing and reading the value of a slot take two
steps, one at the beginning and one at the end of the copy. -/
def step (spurious : Bool) (m : Memory q α) : Call q α → Memory q α × Call q α
  | postLoadTail value => (m, postLoop value m.tail)
  | postLoadStamp value tail newTail index =>
    if tail = (m.slots index).stamp then (m, postCompareExchange value tail newTail index)
    else (m, orPanic (checkedAddWord tail 1) fun next =>
      if (m.slots index).stamp + q.oneLap = next then postLoadHead value tail
      else postLoadTail value)
  | postCompareExchange value tail newTail index =>
    if m.tail = tail ∧ spurious = false then
      ({ m with tail := newTail }, postWrite value tail index)
    else (m, postLoop value m.tail)
  | postLoadHead value tail =>
    -- if the head lags one lap behind the tail as well, the queue is full
    if m.head + q.oneLap = tail then (m, postReturned (.error value))
    else (m, postLoadTail value)
  | postWrite value tail index => (m.setValue index none, postWriting value tail index)
  | postWriting value tail index =>
    (m.setValue index (some value),
      orPanic (checkedAddWord tail 1) fun stamp => postStoreStamp stamp index)
  | postStoreStamp stamp index => (m.setStamp index stamp, postReturned (.ok ()))
  | pollLoadHead => (m, pollLoop m.head)
  | pollLoadStamp head index =>
    (m, orPanic (checkedAddWord head 1) fun next =>
      if next = (m.slots index).stamp then
        orPanic (q.advance head) fun new => pollCompareExchange head new index
      else if (m.slots index).stamp = head then pollLoadTail head
      else pollLoadHead)
  | pollCompareExchange head new index =>
    if m.head = head ∧ spurious = false then ({ m with head := new }, pollRead head index)
    else (m, pollLoop m.head)
  | pollLoadTail head =>
    -- if the tail equals the head, the queue is empty
    if m.tail = head then (m, pollReturned none) else (m, pollLoadHead)
  | pollRead head index => (m, pollReading head index)
  | pollReading head index => (m, pollStoreStamp head index (m.slots index).value)
  | pollStoreStamp head index msg =>
    (m.setStamp index (head + q.oneLap), pollReturned (some msg))
  | postReturned result => (m, postReturned result)
  | pollReturned result => (m, pollReturned result)
  | panicked reason => (m, panicked reason)

end Call

end Kernel.Kapi
