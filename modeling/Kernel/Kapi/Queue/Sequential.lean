import Kernel.Kapi.Queue.Alone

/-!
# Calls executed one at a time

When calls are executed one at a time, the queue is a bounded first-in first-out queue. `Fifo` is
that abstract queue.
-/

namespace Kernel.Kapi

open Core Queue Function Nat

/-! ### The bounded queue -/

inductive Response (α : Type) where
  | posted
  | rejected (value : α)
  | taken (value : α)
  | empty

variable {α : Type}

def Fifo.apply (capacity : ℕ) (xs : List α) : Op α → List α × Response α
  | .post value =>
    if xs.length < capacity then (xs ++ [value], .posted) else (xs, .rejected value)
  | .poll =>
    match xs with
    | [] => ([], .empty)
    | x :: xs => (xs, .taken x)

inductive Fifo.Runs (capacity : ℕ) : List α → List (Op α × Response α) → List α → Prop where
  | nil (xs) : Runs capacity xs [] xs
  | snoc {xs xs' history} (op : Op α) (h : Runs capacity xs history xs') :
      Runs capacity xs (history ++ [(op, (apply capacity xs' op).2)]) (apply capacity xs' op).1

/-! ### Executing a call -/

variable {q : Queue}

def Response.call : Response α → Call q α
  | .posted => .postReturned (.ok ())
  | .rejected value => .postReturned (.error value)
  | .taken value => .pollReturned (some (some value))
  | .empty => .pollReturned none

def Executes (spurious : ℕ → Bool) (m : Memory q α) (op : Op α) (m' : Memory q α)
    (r : Response α) : Prop :=
  ∃ k, runSteps Call.alone spurious k (m, op.call) = (m', r.call)

inductive Runs (m : Memory q α) : List (Op α × Response α) → Memory q α → Prop where
  | nil : Runs m [] m
  | snoc {history m' m'' op r spurious} (h : Runs m history m') (hfin : FinitelyOften spurious)
      (hexec : Executes spurious m' op m'' r) : Runs m (history ++ [(op, r)]) m''

structure Represents (q : Queue) (n : ℕ) (xs : List α) (m : Memory q α) : Prop where
  length_le : xs.length ≤ q.capacity
  head_eq : m.head = q.encode n
  tail_eq : m.tail = q.encode (n + xs.length)
  full : ∀ i x, xs[i]? = some x → m.slots (q.slot (n + i)) = ⟨q.encode (n + i) + 1, some x⟩
  vacant : ∀ i, xs.length ≤ i → i < q.capacity →
    (m.slots (q.slot (n + i))).stamp = q.encode (n + i)

def Queue.vacantAt (q : Queue) (α : Type) (n : ℕ) : Memory q α where
  head := q.encode n
  tail := q.encode n
  slots := fun i => ⟨q.encode (n + (i + (q.capacity - n % q.capacity)) % q.capacity), none⟩

lemma represents_vacantAt (q : Queue) (α : Type) (n : ℕ) :
    Represents q n [] (q.vacantAt α n) where
  length_le := zero_le _
  head_eq := rfl
  tail_eq := rfl
  full := by simp
  vacant := fun i _ hi => by
    have hlt := q.mod_capacity_lt n
    have hn := mod_add_div n q.capacity
    have hsum : n + i + (q.capacity - n % q.capacity) = i + q.capacity * (n / q.capacity + 1) := by
      rw [mul_succ]
      omega
    have hmod : ((n + i) % q.capacity + (q.capacity - n % q.capacity)) % q.capacity = i := by
      rw [mod_add_mod, hsum, add_mul_mod_self_left, mod_eq_of_lt hi]
    simp only [vacantAt, slot, hmod]

lemma represents_initialized (q : Queue) (α : Type) :
    Represents q 0 [] (q.initialized α) where
  length_le := zero_le _
  head_eq := by simp [initialized, encode]
  tail_eq := by simp [initialized, encode]
  full := by simp
  vacant := fun i _ hi => by
    simp [initialized, encode, slot, mod_eq_of_lt hi, div_eq_of_lt hi]

/-! ### What one call does -/

variable {m : Memory q α} {xs : List α} {n : ℕ}

lemma slot_add_ne {i j : ℕ} (hij : i < j) (hj : j < i + q.capacity) :
    q.slot (n + i) ≠ q.slot (n + j) := by
  intro h
  have hmod : (n + i) % q.capacity = (n + j) % q.capacity := congrArg Fin.val h
  have hdvd : q.capacity ∣ n + j - (n + i) := (modEq_iff_dvd' (by omega)).mp hmod
  have := eq_zero_of_dvd_of_lt hdvd (by omega)
  omega

lemma Represents.post (h : Represents q n xs m) (hlt : xs.length < q.capacity) (value : α) :
    Represents q n (xs ++ [value])
      (m.posted (q.encode (n + xs.length)) (q.slot (n + xs.length)) value) where
  length_le := by simp; omega
  head_eq := h.head_eq
  tail_eq := by simp [Memory.posted, following_encode, add_assoc]
  full := fun i x hx => by
    rcases lt_trichotomy i xs.length with hi | rfl | hi
    · rw [List.getElem?_append_left hi] at hx
      have hne : q.slot (n + i) ≠ q.slot (n + xs.length) := slot_add_ne hi (by omega)
      simp [Memory.posted, update_of_ne hne, h.full i x hx]
    · rw [List.getElem?_concat_length] at hx
      cases hx
      simp [Memory.posted]
    · have := (List.getElem?_eq_some_iff.mp hx).1
      simp at this
      omega
  vacant := fun i hi hcap => by
    simp only [List.length_append, List.length_singleton] at hi
    have hne : q.slot (n + i) ≠ q.slot (n + xs.length) := (slot_add_ne hi (by omega)).symm
    simp [Memory.posted, update_of_ne hne, h.vacant i (by omega) hcap]

lemma Represents.poll {x : α} (h : Represents q n (x :: xs) m) :
    Represents q (n + 1) xs (m.polled (q.encode n) (q.slot n)) where
  length_le := by have := h.length_le; simp at this; omega
  head_eq := q.following_encode n
  tail_eq := by
    have := h.tail_eq
    simpa [Memory.polled, add_assoc, add_comm 1] using this
  full := fun i y hy => by
    have hi : i < xs.length := (List.getElem?_eq_some_iff.mp hy).1
    have hle : xs.length + 1 ≤ q.capacity := h.length_le
    have hne : q.slot (n + (i + 1)) ≠ q.slot n :=
      (slot_add_ne (i := 0) (by omega) (by omega)).symm
    have hfull := h.full (i + 1) y (by simpa using hy)
    rw [add_right_comm, add_assoc]
    simpa [Memory.polled, update_of_ne hne] using hfull
  vacant := fun i hi hcap => by
    rw [add_right_comm, add_assoc]
    rcases lt_or_ge (i + 1) q.capacity with hlt | hge
    · have hne : q.slot (n + (i + 1)) ≠ q.slot n :=
        (slot_add_ne (i := 0) (by omega) (by omega)).symm
      have hvac := h.vacant (i + 1) (by simpa using hi) hlt
      simpa [Memory.polled, update_of_ne hne] using hvac
    · -- the slot just emptied waits for the element one lap ahead
      have hi : i + 1 = q.capacity := by omega
      have hslot : q.slot (n + q.capacity) = q.slot n := by simp [slot]
      rw [hi, hslot, encode_add_capacity]
      simp [Memory.polled]

lemma Represents.settles (h : Represents q n xs m) (op : Op α) :
    ∃ n' m', Represents q n' (Fifo.apply q.capacity xs op).1 m' ∧
      ((Fifo.apply q.capacity xs op).1 = xs → m' = m) ∧
      Settles Call.alone (· = (m', (Fifo.apply q.capacity xs op).2.call)) (m, op.call) := by
  cases op with
  | post value =>
    have hi : (q.index m.tail).toNat = q.slot (n + xs.length) := by
      rw [h.tail_eq, index_encode, slot]
    rcases h.length_le.lt_or_eq with hlt | heq
    · have hok := settles_post_ok value hi
        ((h.vacant _ le_rfl hlt).trans h.tail_eq.symm)
      rw [h.tail_eq] at hok
      simp only [Fifo.apply, hlt, ↓reduceIte]
      exact ⟨n, _, h.post hlt value, by simp, hok⟩
    · -- the slot of the tail is the one of the first element
      have hpos := q.capacity_pos
      obtain ⟨x, hx⟩ : ∃ x, xs[0]? = some x := ⟨_, List.getElem?_eq_getElem (by omega)⟩
      have hslot : q.slot (n + xs.length) = q.slot n := by simp [slot, heq]
      have hstp : (m.slots (q.slot (n + xs.length))).stamp = q.encode n + 1 := by
        rw [hslot]
        exact congrArg Slot.stamp (h.full 0 x hx)
      have htail : m.tail = q.encode (n + q.capacity) := heq ▸ h.tail_eq
      have herr := settles_post_error value hi
        (by rw [hstp, htail, encode_add_one_add_oneLap])
        (by rw [hstp, htail]; exact q.encode_add_one_ne (by simp))
        (by rw [h.head_eq, htail, encode_add_capacity])
      have hfull : ¬ xs.length < q.capacity := by omega
      simp only [Fifo.apply, hfull, ↓reduceIte]
      exact ⟨n, m, h, fun _ => rfl, herr⟩
  | poll =>
    have hi : (q.index m.head).toNat = q.slot n := by rw [h.head_eq, index_encode, slot]
    cases xs with
    | nil =>
      have hnone := settles_poll_none hi ((h.vacant 0 le_rfl q.capacity_pos).trans h.head_eq.symm)
        (h.tail_eq.trans h.head_eq.symm)
      exact ⟨n, m, h, fun _ => rfl, hnone⟩
    | cons x xs =>
      have hfull := h.full 0 x rfl
      have hsome := settles_poll_some hi (by rw [h.head_eq]; exact congrArg Slot.stamp hfull)
      have hval : (m.slots (q.slot n)).value = some x := congrArg Slot.value hfull
      rw [h.head_eq, hval] at hsome
      exact ⟨n + 1, _, h.poll, by simp [Fifo.apply], hsome⟩

/-! ### Sequences of calls -/

variable {m' m'' : Memory q α} {op : Op α} {r : Response α} {spurious : ℕ → Bool}

lemma Response.alone_call (r : Response α) (b : Bool) :
    Call.alone b (m, r.call) = (m, r.call) := by
  cases r <;> rfl

lemma Response.call_injective {r r' : Response α} (h : (r.call : Call q α) = r'.call) :
    r = r' := by
  cases r <;> cases r' <;> simp_all [Response.call]

lemma Executes.unique {r' : Response α} (h : Executes spurious m op m' r)
    (h' : Executes spurious m op m'' r') : m' = m'' ∧ r = r' := by
  obtain ⟨j, hj⟩ := h
  obtain ⟨k, hk⟩ := h'
  obtain ⟨hm, hr⟩ := Prod.mk.inj (runSteps_unique r.alone_call r'.alone_call hj hk)
  exact ⟨hm, Response.call_injective hr⟩

lemma Executes.not_panicked (h : Executes spurious m op m' r) (k : ℕ) (reason : Panic) :
    (runSteps Call.alone spurious k (m, op.call)).2 ≠ .panicked reason := by
  intro hpan
  obtain ⟨j, hj⟩ := h
  have hk : runSteps Call.alone spurious k (m, op.call) =
      ((runSteps Call.alone spurious k (m, op.call)).1, .panicked reason) := Prod.ext rfl hpan
  have heq := congrArg Prod.snd (runSteps_unique r.alone_call (fun _ => rfl) hj hk)
  cases r <;> simp [Response.call] at heq

/-- Calls executed one at a time, on an initialized queue or with the counters at any other
position, behave like operations on a bounded first-in first-out queue. Every further call ends,
without a panic, and one that fails leaves the memory as it was. -/
theorem runs_fifo (q : Queue) (α : Type) :
    Represents q 0 [] (q.initialized α) ∧
    ∀ n xs (m m' : Memory q α) history, Represents q n xs m → Runs m history m' →
      ∃ n' xs', Fifo.Runs q.capacity xs history xs' ∧ Represents q n' xs' m' ∧
        ∀ op spurious, FinitelyOften spurious →
          (∃ m'', Executes spurious m' op m'' (Fifo.apply q.capacity xs' op).2 ∧
            ((Fifo.apply q.capacity xs' op).1 = xs' → m'' = m')) ∧
          ∀ k reason, (runSteps Call.alone spurious k (m', op.call)).2 ≠ .panicked reason := by
  refine ⟨represents_initialized q α, fun n xs m m' history hm hrun => ?_⟩
  have hinv : ∃ n' xs', Fifo.Runs q.capacity xs history xs' ∧ Represents q n' xs' m' := by
    induction hrun with
    | nil => exact ⟨n, xs, .nil xs, hm⟩
    | @snoc history m' m'' op r spurious _ hfin hexec ih =>
      obtain ⟨n', xs', hfifo, hm'⟩ := ih
      obtain ⟨n'', m₁, hm₁, -, hset⟩ := hm'.settles op
      obtain ⟨rfl, rfl⟩ := hexec.unique (hset spurious hfin)
      exact ⟨n'', _, hfifo.snoc op, hm₁⟩
  obtain ⟨n', xs', hfifo, hm'⟩ := hinv
  refine ⟨n', xs', hfifo, hm', fun op spurious hfin => ?_⟩
  obtain ⟨-, m'', -, hsame, hset⟩ := hm'.settles op
  have hexec : Executes spurious m' op m'' _ := hset spurious hfin
  exact ⟨⟨m'', hexec, hsame⟩, hexec.not_panicked⟩

/-- A queue of two slots whose tail wraps around when an element is posted. -/
theorem runs_fifo_at_wraparound :
    twoSlots.encode (twoSlots.period - 1) = BitVec.ofNat 64 (2 ^ 64 - 3) ∧
    twoSlots.encode twoSlots.period = 0 ∧
    ∃ m' n' xs', Runs (twoSlots.vacantAt ℕ (twoSlots.period - 1)) [(.post 7, .posted)] m' ∧
      Fifo.Runs 2 [] [(.post 7, .posted)] xs' ∧ Represents twoSlots n' xs' m' := by
  refine ⟨by decide, by decide, ?_⟩
  have hm := represents_vacantAt twoSlots ℕ (twoSlots.period - 1)
  obtain ⟨-, m', -, -, hset⟩ := hm.settles (.post 7)
  have hfin : FinitelyOften fun _ => false := ⟨0, fun _ _ => rfl⟩
  have hexec : Executes _ _ (.post 7) m' .posted := hset _ hfin
  have hrun : Runs _ [(.post 7, .posted)] m' := .snoc .nil hfin hexec
  obtain ⟨n', xs', hfifo, hm', -⟩ := (runs_fifo twoSlots ℕ).2 _ _ _ _ _ hm hrun
  exact ⟨m', n', xs', hrun, hfifo, hm'⟩

end Kernel.Kapi
