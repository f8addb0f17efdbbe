import Kernel.Core.Interleaving
import Kernel.Kapi.Queue.Position

/-!
# Concurrent calls on one queue

Any number of `post` and `poll` calls interleave at the granularity of their accesses to the shared
memory.
-/

namespace Kernel.Kapi

open Core Queue

structure Shared (q : Queue) (α : Type) where
  memory : Memory q α
  posts : List (ℕ × α)
  polls : List ℕ

structure Caller (q : Queue) (α : Type) where
  call : Call q α
  postsAtStart : ℕ
  pollsAtStart : ℕ

variable {q : Queue} {α : Type}

def Shared.record (s : Shared q α) (t : ℕ) (before : Call q α) :
    Memory q α × Call q α → Shared q α
  | (m, after) =>
    match before, after with
    | .postCompareExchange value _ _ _, .postWrite _ _ _ =>
      { s with memory := m, posts := s.posts ++ [(t, value)] }
    | .pollCompareExchange _ _ _, .pollRead _ _ =>
      { s with memory := m, polls := s.polls ++ [t] }
    | _, _ => { s with memory := m }

def Shared.NoWrap (s : Shared q α) (c : Caller q α) : Prop :=
  s.posts.length - c.postsAtStart < q.period ∧ s.polls.length - c.pollsAtStart < q.period

def program (q : Queue) (α : Type) : Program (Shared q α) (Caller q α) where
  start s c :=
    c.postsAtStart = s.posts.length ∧ c.pollsAtStart = s.polls.length ∧
      (c.call = .pollLoadHead ∨ ∃ value, c.call = .postLoadTail value)
  step t s c s' c' :=
    s.NoWrap c ∧ ∃ spurious, s' = s.record t c.call (c.call.step spurious s.memory) ∧
      c' = { c with call := (c.call.step spurious s.memory).2 }

def Shared.initialized (q : Queue) (α : Type) : Shared q α := ⟨q.initialized α, [], []⟩

inductive Phase where
  | empty
  | writing (t : ℕ)
  | full
  | reading (t : ℕ)
  deriving DecidableEq

structure Use where
  element : ℕ
  phase : Phase
  deriving DecidableEq

def SlotOk (q : Queue) (posts : List (ℕ × α)) (polls : List ℕ) (slot : Slot α) : Use → Prop
  | ⟨n, .empty⟩ =>
    slot.stamp = q.encode n ∧ posts.length ≤ n ∧ n < polls.length + q.capacity
  | ⟨n, .writing _⟩ =>
    slot.stamp = q.encode n ∧ polls.length ≤ n ∧ n < posts.length
  | ⟨n, .full⟩ =>
    slot.stamp = q.encode n + 1 ∧ (∃ t value, posts[n]? = some (t, value) ∧
      slot.value = some value) ∧ polls.length ≤ n
  | ⟨n, .reading _⟩ =>
    slot.stamp = q.encode n + 1 ∧ (∃ t value, posts[n]? = some (t, value) ∧
      slot.value = some value) ∧ n < polls.length ∧ posts.length ≤ n + q.capacity

structure SharedOk (use : Fin q.capacity → Use) (k : ℕ) (s : Shared q α) : Prop where
  head_eq : s.memory.head = q.encode s.polls.length
  tail_eq : s.memory.tail = q.encode s.posts.length
  polls_le : s.polls.length ≤ s.posts.length
  posts_le : s.posts.length ≤ s.polls.length + q.capacity
  element_mod : ∀ i, (use i).element % q.capacity = i
  slot_ok : ∀ i, SlotOk q s.posts s.polls (s.memory.slots i) (use i)
  posts_nodup : (s.posts.map Prod.fst).Nodup
  polls_nodup : s.polls.Nodup
  posts_lt : ∀ t ∈ s.posts.map Prod.fst, t < k
  polls_lt : ∀ t ∈ s.polls, t < k

def Loaded (q : Queue) (atStart length n : ℕ) (w : BitVec 64) : Prop :=
  atStart ≤ n ∧ n ≤ length ∧ w = q.encode n

def CallOk (use : Fin q.capacity → Use) (s : Shared q α) (t : ℕ) (c : Caller q α) : Prop :=
  match c.call with
  | .postLoadTail _ => t ∉ s.posts.map Prod.fst
  | .postLoadStamp _ tail newTail i =>
    t ∉ s.posts.map Prod.fst ∧ ∃ n, Loaded q c.postsAtStart s.posts.length n tail ∧
      newTail = q.encode (n + 1) ∧ i = q.slot n
  | .postCompareExchange _ tail newTail i =>
    t ∉ s.posts.map Prod.fst ∧ ∃ n, Loaded q c.postsAtStart s.posts.length n tail ∧
      newTail = q.encode (n + 1) ∧ i = q.slot n ∧
      (s.posts.length = n → use i = ⟨n, .empty⟩)
  | .postLoadHead _ tail =>
    t ∉ s.posts.map Prod.fst ∧ ∃ n, Loaded q c.postsAtStart s.posts.length n tail
  | .postWrite value tail i | .postWriting value tail i =>
    ∃ n, tail = q.encode n ∧ i = q.slot n ∧ use i = ⟨n, .writing t⟩ ∧
      s.posts[n]? = some (t, value)
  | .postStoreStamp stamp i =>
    ∃ n value, stamp = q.encode n + 1 ∧ i = q.slot n ∧ use i = ⟨n, .writing t⟩ ∧
      s.posts[n]? = some (t, value) ∧ (s.memory.slots i).value = some value
  | .postReturned (.ok ()) => ∃ (n : ℕ) (value : α), s.posts[n]? = some (t, value)
  | .postReturned (.error _) => t ∉ s.posts.map Prod.fst
  | .pollLoadHead => t ∉ s.polls
  | .pollLoadStamp head i =>
    t ∉ s.polls ∧ ∃ n, Loaded q c.pollsAtStart s.polls.length n head ∧ i = q.slot n
  | .pollCompareExchange head new i =>
    t ∉ s.polls ∧ ∃ n, Loaded q c.pollsAtStart s.polls.length n head ∧
      new = q.encode (n + 1) ∧ i = q.slot n ∧ (s.polls.length = n → use i = ⟨n, .full⟩)
  | .pollLoadTail head => t ∉ s.polls ∧ ∃ n, Loaded q c.pollsAtStart s.polls.length n head
  | .pollRead head i | .pollReading head i =>
    ∃ n, head = q.encode n ∧ i = q.slot n ∧ use i = ⟨n, .reading t⟩ ∧ s.polls[n]? = some t
  | .pollStoreStamp head i msg =>
    ∃ n u value, head = q.encode n ∧ i = q.slot n ∧ use i = ⟨n, .reading t⟩ ∧
      s.polls[n]? = some t ∧ s.posts[n]? = some (u, value) ∧ msg = some value
  | .pollReturned none => t ∉ s.polls
  | .pollReturned (some msg) =>
    ∃ (n u : ℕ) (value : α),
      s.polls[n]? = some t ∧ s.posts[n]? = some (u, value) ∧ msg = some value
  | .panicked _ => False

def Call.IsPost : Call q α → Prop
  | .postLoadTail _ | .postLoadStamp _ _ _ _ | .postCompareExchange _ _ _ _ | .postLoadHead _ _
  | .postWrite _ _ _ | .postWriting _ _ _ | .postStoreStamp _ _ | .postReturned _ => True
  | _ => False

structure Started (s : Shared q α) (t : ℕ) (c : Caller q α) : Prop where
  posts_le : c.postsAtStart ≤ s.posts.length
  polls_le : c.pollsAtStart ≤ s.polls.length
  not_mem_polls : c.call.IsPost → t ∉ s.polls
  not_mem_posts : ¬ c.call.IsPost → t ∉ s.posts.map Prod.fst

def Call.writes : Call q α → Option (Fin q.capacity)
  | .postWrite _ _ i | .postWriting _ _ i | .postStoreStamp _ i => some i
  | _ => none

def Call.reads : Call q α → Option (Fin q.capacity)
  | .pollRead _ i | .pollReading _ i | .pollStoreStamp _ i _ => some i
  | _ => none

structure Linearized (s : Shared q α) (calls : List (Caller q α)) : Prop where
  posts_nodup : (s.posts.map Prod.fst).Nodup
  polls_nodup : s.polls.Nodup
  polls_le : s.polls.length ≤ s.posts.length
  posts_le : s.posts.length ≤ s.polls.length + q.capacity
  posted : ∀ t value, (t, value) ∈ s.posts → ∃ c, calls[t]? = some c ∧
    (c.call = .postReturned (.ok ()) ∨ ∃ i, c.call.writes = some i)
  post_ok : ∀ t c, calls[t]? = some c → c.call = .postReturned (.ok ()) →
    t ∈ s.posts.map Prod.fst
  post_error : ∀ t c value, calls[t]? = some c → c.call = .postReturned (.error value) →
    t ∉ s.posts.map Prod.fst
  taken : ∀ (n : ℕ) t, s.polls[n]? = some t → ∃ c u value, calls[t]? = some c ∧
    s.posts[n]? = some (u, value) ∧
    (c.call = .pollReturned (some (some value)) ∨ ∃ i, c.call.reads = some i)
  poll_some : ∀ (t : ℕ) c msg, calls[t]? = some c → c.call = .pollReturned (some msg) →
    ∃ (n u : ℕ) (value : α), s.polls[n]? = some t ∧ s.posts[n]? = some (u, value) ∧
      msg = some value
  poll_none : ∀ t c, calls[t]? = some c → c.call = .pollReturned none → t ∉ s.polls
  writes_exclusive : ∀ (t u : ℕ) c d i, calls[t]? = some c → calls[u]? = some d → t ≠ u →
    c.call.writes = some i → d.call.writes ≠ some i ∧ d.call.reads ≠ some i
  reads_exclusive : ∀ (t u : ℕ) c d i, calls[t]? = some c → calls[u]? = some d → t ≠ u →
    c.call.reads = some i → d.call.reads ≠ some i
  reads_written : ∀ (t : ℕ) c i, calls[t]? = some c → c.call.reads = some i →
    ∃ (n u : ℕ) (value : α), s.polls[n]? = some t ∧ s.posts[n]? = some (u, value) ∧
      (s.memory.slots i).value = some value
  not_panicked : ∀ (t : ℕ) c reason, calls[t]? = some c → c.call ≠ .panicked reason

end Kernel.Kapi
