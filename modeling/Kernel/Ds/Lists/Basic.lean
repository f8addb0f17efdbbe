import Mathlib.Tactic
import Mathlib.Logic.Function.Basic

/-!
# The concurrent linked list

`ConcurrentLinkedList` is a singly linked list with lock-free `push`, `remove`, `remove_cloned` and
`iter`.
-/

namespace Kernel.Ds

open Function

structure Node (T : Type) where
  data : T
  next : ℕ
  deriving DecidableEq

structure ConcurrentLinkedList (T : Type) where
  head : ℕ
  readers : ℕ
  pendingDeletion : ℕ
  nodes : ℕ → Option (Node T)
  pool : ℕ → Option (Node ℕ)

inductive Link where
  | head
  | next (node : ℕ)
  deriving DecidableEq

structure Choice (T : Type) where
  address : ℕ
  node : Node T
  poolNode : Node ℕ
  drop : Bool

namespace ConcurrentLinkedList

variable {T : Type}

def default : ConcurrentLinkedList T := ⟨0, 0, 0, fun _ => none, fun _ => none⟩

def Fresh (s : ConcurrentLinkedList T) (a : ℕ) : Prop :=
  a ≠ 0 ∧ s.nodes a = none ∧ s.pool a = none

instance (s : ConcurrentLinkedList T) (a : ℕ) : Decidable (s.Fresh a) :=
  decidable_of_iff (a ≠ 0 ∧ (s.nodes a).isNone ∧ (s.pool a).isNone) (by
    simp only [Fresh, Option.isNone_iff_eq_none])

def next (s : ConcurrentLinkedList T) (a : ℕ) : Option ℕ := (s.nodes a).map Node.next

def poolNext (s : ConcurrentLinkedList T) (a : ℕ) : Option ℕ := (s.pool a).map Node.next

def read (s : ConcurrentLinkedList T) (choice : Choice T) (a : ℕ) : Node T :=
  (s.nodes a).getD choice.node

def readPool (s : ConcurrentLinkedList T) (choice : Choice T) (a : ℕ) : Node ℕ :=
  (s.pool a).getD choice.poolNode

def load (s : ConcurrentLinkedList T) (choice : Choice T) : Link → ℕ
  | .head => s.head
  | .next a => (s.read choice a).next

def setNext (s : ConcurrentLinkedList T) (a value : ℕ) : ConcurrentLinkedList T :=
  { s with nodes := update s.nodes a ((s.nodes a).map fun n => { n with next := value }) }

def store (s : ConcurrentLinkedList T) (value : ℕ) : Link → ConcurrentLinkedList T
  | .head => { s with head := value }
  | .next a => s.setNext a value

def allocate (s : ConcurrentLinkedList T) (a : ℕ) (data : T) : ConcurrentLinkedList T :=
  { s with nodes := update s.nodes a (some ⟨data, 0⟩) }

def free (s : ConcurrentLinkedList T) (a : ℕ) : ConcurrentLinkedList T :=
  { s with nodes := update s.nodes a none }

def allocatePool (s : ConcurrentLinkedList T) (b node : ℕ) : ConcurrentLinkedList T :=
  { s with pool := update s.pool b (some ⟨node, 0⟩) }

def setPoolNext (s : ConcurrentLinkedList T) (b value : ℕ) : ConcurrentLinkedList T :=
  { s with pool := update s.pool b ((s.pool b).map fun n => { n with next := value }) }

def freePool (s : ConcurrentLinkedList T) (b node : ℕ) : ConcurrentLinkedList T :=
  { s.free node with pool := update s.pool b none }

end ConcurrentLinkedList

inductive Call (T : Type) where
  -- push
  | push (data : T)
  | pushLoad (newNode : ℕ)
  | pushStore (newNode currentHead : ℕ)
  | pushExchange (newNode currentHead : ℕ)
  | pushReturned (newNode : ℕ)
  -- remove and remove_cloned
  | removeLoad (predicate : T → Bool)
  | removeHead (predicate : T → Bool) (headPtr : ℕ)
  | removeHeadExchange (predicate : T → Bool) (headPtr next : ℕ)
  | removeRest (predicate : T → Bool)
  | removeScan (predicate : T → Bool) (prev : Link) (current : ℕ)
  | removeExchange (predicate : T → Bool) (prev : Link) (current next : ℕ)
  | removeReload (predicate : T → Bool) (prev : Link)
  -- push_pending_deletion, called by a removal
  | deferLoad (node : ℕ) (value : T)
  | deferFree (node : ℕ) (value : T)
  | deferAllocate (node : ℕ) (value : T)
  | deferLoadPool (newNode node : ℕ) (value : T)
  | deferStore (newNode currentHead node : ℕ) (value : T)
  | deferExchange (newNode currentHead node : ℕ) (value : T)
  | removeReturned (result : Option T)
  -- iter, next and the drop of the iterator with free_pool
  | iter
  | iterLoad
  | iterating (current : ℕ) (yielded : List T)
  | poolLoad
  | poolHead (headPtr : ℕ)
  | poolExchange (headPtr next : ℕ)
  | poolFree (headPtr node : ℕ)
  | dropped

namespace Call

variable {T : Type}

def remove (predicate : T → Bool) : Call T := .removeLoad predicate

def removeCloned (predicate : T → Bool) : Call T := .removeLoad predicate

def removed : Call T → Option Bool
  | .removeReturned result => some result.isSome
  | _ => none

def removedCloned : Call T → Option (Option T)
  | .removeReturned result => some result
  | _ => none

def step (choice : Choice T) (s : ConcurrentLinkedList T) :
    Call T → ConcurrentLinkedList T × Call T
  | .push data =>
    if s.Fresh choice.address then (s.allocate choice.address data, .pushLoad choice.address)
    else (s, .push data)
  | .pushLoad newNode => (s, .pushStore newNode s.head)
  | .pushStore newNode currentHead =>
    (s.setNext newNode currentHead, .pushExchange newNode currentHead)
  | .pushExchange newNode currentHead =>
    if s.head = currentHead then ({ s with head := newNode }, .pushReturned newNode)
    else (s, .pushStore newNode s.head)
  | .pushReturned newNode => (s, .pushReturned newNode)
  | .removeLoad predicate => (s, .removeHead predicate s.head)
  | .removeHead predicate headPtr =>
    if headPtr = 0 then (s, .removeReturned none)
    else if predicate (s.read choice headPtr).data then
      (s, .removeHeadExchange predicate headPtr (s.read choice headPtr).next)
    else (s, .removeRest predicate)
  | .removeHeadExchange predicate headPtr next =>
    if s.head = headPtr then
      ({ s with head := next }, .deferLoad headPtr (s.read choice headPtr).data)
    else (s, .removeHead predicate s.head)
  | .removeRest predicate => (s, .removeScan predicate .head s.head)
  | .removeScan predicate prev current =>
    if current = 0 then (s, .removeReturned none)
    else if predicate (s.read choice current).data then
      (s, .removeExchange predicate prev current (s.read choice current).next)
    else (s, .removeScan predicate (.next current) (s.read choice current).next)
  | .removeExchange predicate prev current next =>
    if s.load choice prev = current then
      (s.store next prev, .deferLoad current (s.read choice current).data)
    else (s, .removeReload predicate prev)
  | .removeReload predicate prev => (s, .removeScan predicate prev (s.load choice prev))
  | .deferLoad node value =>
    if s.readers = 0 then (s, .deferFree node value) else (s, .deferAllocate node value)
  | .deferFree node value => (s.free node, .removeReturned (some value))
  | .deferAllocate node value =>
    if s.Fresh choice.address then
      (s.allocatePool choice.address node, .deferLoadPool choice.address node value)
    else (s, .deferAllocate node value)
  | .deferLoadPool newNode node value => (s, .deferStore newNode s.pendingDeletion node value)
  | .deferStore newNode currentHead node value =>
    (s.setPoolNext newNode currentHead, .deferExchange newNode currentHead node value)
  | .deferExchange newNode currentHead node value =>
    if s.pendingDeletion = currentHead then
      ({ s with pendingDeletion := newNode }, .removeReturned (some value))
    else (s, .deferStore newNode s.pendingDeletion node value)
  | .removeReturned result => (s, .removeReturned result)
  | .iter => ({ s with readers := s.readers + 1 }, .iterLoad)
  | .iterLoad => (s, .iterating s.head [])
  | .iterating current yielded =>
    if choice.drop then
      ({ s with readers := s.readers - 1 }, if s.readers = 1 then .poolLoad else .dropped)
    else if current = 0 then (s, .iterating current yielded)
    else (s, .iterating (s.read choice current).next (yielded ++ [(s.read choice current).data]))
  | .poolLoad => (s, .poolHead s.pendingDeletion)
  | .poolHead headPtr =>
    if headPtr = 0 then (s, .dropped)
    else (s, .poolExchange headPtr (s.readPool choice headPtr).next)
  | .poolExchange headPtr next =>
    if s.pendingDeletion = headPtr then
      ({ s with pendingDeletion := next }, .poolFree headPtr (s.readPool choice headPtr).data)
    else (s, .poolHead s.pendingDeletion)
  -- the source keeps `head_ptr` after it has freed the node behind it
  | .poolFree headPtr node => (s.freePool headPtr node, .poolHead headPtr)
  | .dropped => (s, .dropped)

end Call

end Kernel.Ds
