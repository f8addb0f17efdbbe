import Mathlib
import Kernel.Process.Thread.Basic

/-!
# Which thread is scheduled next

The scan of `schedule_next_thread` begins at the index of the next thread and goes around the queue.
-/

namespace Kernel.Process

open Core List RunQueue Nat

def ThreadObjects.isRunning (threads : ThreadObjects) (t : ThreadRef) : Bool :=
  (threads t).state = .running

def RunQueue.start (queue : RunQueue) : ℕ :=
  if queue.next ≥ queue.threads.length then 0 else queue.next

lemma RunQueue.start_lt {queue : RunQueue} (h : queue.threads ≠ []) :
    queue.start < queue.threads.length := by
  have hpos := length_pos_iff.mpr h
  rw [start]
  split_ifs with hnext
  · exact hpos
  · exact lt_of_not_ge hnext

def RunQueue.scanned (queue : RunQueue) : List ThreadRef := queue.threads.rotate queue.start

lemma RunQueue.scanned_of_lt {queue : RunQueue} (h : queue.next < queue.threads.length) :
    queue.scanned = queue.threads.rotate queue.next := by
  rw [scanned, start, if_neg (Nat.not_le_of_lt h)]

namespace ThreadScheduler

def highest (p : List ThreadRef → Bool) (s : ThreadScheduler) : Option ThreadPriority :=
  [.high, .normal, .low].find? fun priority => p (s.queues priority).threads

def Schedules (threads : ThreadObjects) (s : ThreadScheduler) : Prop :=
  ∃ s' priority, s.scheduleNextThread threads = .ok s' ∧
    s.highest (·.any threads.isRunning) = some priority ∧
    s'.currentThread ∈ (s.queues priority).threads ∧ threads.isRunning s'.currentThread

def consecutive (threads : ThreadObjects) : ℕ → ThreadScheduler → Checked (List ThreadRef)
  | 0, _ => pure []
  | n + 1, s => do
    let s ← s.scheduleNextThread threads
    pure (s.currentThread :: (← consecutive threads n s))

/-! ### The scan of a queue -/

variable {threads : ThreadObjects} {queue pre post : List ThreadRef} {t : ThreadRef}
  {skips next : ℕ}

lemma skipWaiting_of_get (hget : queue[next]? = some t) :
    skipWaiting threads queue skips next =
      if threads.isRunning t then .ok (skips, next)
      else match skips with
        | 0 => .error .overflow
        | skips + 1 => skipWaiting threads queue skips ((next + 1) % queue.length) := by
  rw [skipWaiting.eq_def]
  dsimp only
  rw [hget]
  cases skips <;> simp only [ThreadObjects.isRunning, decide_eq_true_eq]

lemma rotate_succ (h : queue.rotate next = t :: post) :
    queue.rotate ((next + 1) % queue.length) = post ++ [t] := by
  rw [rotate_mod, ← rotate_rotate, h, rotate_cons_succ, rotate_zero]

lemma skipWaiting_of_rotate (hlt : next < queue.length)
    (hrot : queue.rotate next = pre ++ t :: post) (hpre : ∀ u ∈ pre, ¬ threads.isRunning u)
    (ht : threads.isRunning t) (hski : pre.length ≤ skips) :
    skipWaiting threads queue skips next =
      .ok (skips - pre.length, (next + pre.length) % queue.length) := by
  have hget : queue[next]? = (pre ++ t :: post).head? := by rw [← head?_rotate hlt, hrot]
  induction pre generalizing skips next post with
  | nil =>
    rw [skipWaiting_of_get hget, if_pos ht, length_nil, Nat.sub_zero, add_zero,
      mod_eq_of_lt hlt]
  | cons u pre ih =>
    obtain ⟨skips, rfl⟩ := Nat.exists_eq_add_of_lt (Nat.zero_lt_of_lt hski)
    have hmod := mod_lt (next + 1) (zero_lt_of_lt hlt)
    have hnext : queue.rotate ((next + 1) % queue.length) = pre ++ t :: (post ++ [u]) := by
      rw [rotate_succ hrot, ← cons_append, ← append_assoc]
      rfl
    rw [skipWaiting_of_get hget, if_neg (hpre u mem_cons_self)]
    dsimp only
    rw [ih hmod hnext (fun v hv => hpre v (.tail _ hv)) (le_of_succ_le_succ hski)
      (by rw [← head?_rotate hmod, hnext]), length_cons, Nat.add_sub_add_right,
      mod_add_mod, add_assoc, add_comm 1]

lemma skipWaiting_of_waiting (hlt : next < queue.length)
    (hall : ∀ u ∈ queue, ¬ threads.isRunning u) :
    skipWaiting threads queue skips next = .error .overflow := by
  induction skips generalizing next with
  | zero =>
    rw [skipWaiting_of_get (getElem?_eq_getElem hlt), if_neg (hall _ (getElem_mem hlt))]
  | succ skips ih =>
    rw [skipWaiting_of_get (getElem?_eq_getElem hlt), if_neg (hall _ (getElem_mem hlt))]
    exact ih (mod_lt (next + 1) (zero_lt_of_lt hlt))

/-! ### One call -/

variable {s : ThreadScheduler} {priority : ThreadPriority}

lemma exists_scheduleFrom (threads : ThreadObjects) (h : s.highest (· ≠ []) = some priority) :
    (s.queues priority).threads ≠ [] ∧
      ∃ rest, s.scheduleNextThread threads = scheduleFrom threads (priority :: rest) s := by
  obtain ⟨hne, before, rest, heq, hbef⟩ := find?_eq_some_iff_append.mp h
  refine ⟨of_decide_eq_true hne, rest, ?_⟩
  rw [scheduleNextThread, heq]
  clear heq
  induction before with
  | nil => rfl
  | cons p before ih =>
    rw [cons_append, scheduleFrom, if_pos (by simpa using hbef p mem_cons_self)]
    exact ih fun q hq => hbef q (.tail _ hq)

def taken (s : ThreadScheduler) (priority : ThreadPriority) (n : ℕ) (t : ThreadRef) :
    ThreadScheduler :=
  let queue := s.queues priority
  { s.setQueue priority { queue with next := (queue.start + n + 1) % queue.threads.length } with
    currentThread := t }

lemma scheduleNextThread_of_scanned (h : s.highest (· ≠ []) = some priority)
    (hscan : (s.queues priority).scanned = pre ++ t :: post)
    (hpre : ∀ u ∈ pre, ¬ threads.isRunning u) (ht : threads.isRunning t) :
    s.scheduleNextThread threads = .ok (s.taken priority pre.length t) := by
  obtain ⟨hne, rest, heq⟩ := exists_scheduleFrom threads h
  have hlt := start_lt hne
  have hlen := congrArg length hscan
  rw [scanned, length_rotate, length_append, length_cons] at hlen
  have hget : (s.queues priority).threads[((s.queues priority).start + pre.length) %
      (s.queues priority).threads.length]? = some t := by
    rw [← head?_rotate (mod_lt _ (zero_lt_of_lt hlt)), rotate_mod,
      ← rotate_rotate, ← scanned, hscan, rotate_append_length_eq]
    rfl
  rw [heq, scheduleFrom, if_neg hne]
  change (skipWaiting threads _ _ (s.queues priority).start >>= _ : Checked _) = _
  rw [skipWaiting_of_rotate hlt hscan hpre ht (by omega)]
  change (if (s.queues priority).threads.length - pre.length = 0 then _ else _) = _
  rw [if_neg (by omega), hget]
  dsimp only [taken]
  rw [mod_add_mod]
  rfl

lemma exists_scanned {queue : RunQueue} (h : ∃ t ∈ queue.threads, threads.isRunning t) :
    ∃ pre t post, queue.scanned = pre ++ t :: post ∧ (∀ u ∈ pre, ¬ threads.isRunning u) ∧
      threads.isRunning t := by
  have hany : ∃ t ∈ queue.scanned, threads.isRunning t := by simpa [scanned] using h
  obtain ⟨t, ht⟩ := Option.isSome_iff_exists.mp (find?_isSome.mpr hany)
  obtain ⟨hrun, pre, post, heq, hpre⟩ := find?_eq_some_iff_append.mp ht
  exact ⟨pre, t, post, heq, fun u hu => by simpa using hpre u hu, hrun⟩

lemma scheduleNextThread_of_waiting (h : s.highest (· ≠ []) = some priority)
    (hall : ∀ u ∈ (s.queues priority).threads, ¬ threads.isRunning u) :
    s.scheduleNextThread threads = .error .overflow := by
  obtain ⟨hne, rest, heq⟩ := exists_scheduleFrom threads h
  rw [heq, scheduleFrom, if_neg hne]
  change (skipWaiting threads _ _ (s.queues priority).start >>= _ : Checked _) = _
  rw [skipWaiting_of_waiting (start_lt hne) hall]
  rfl

lemma highest_any (h : s.highest (· ≠ []) = some priority)
    (hany : (s.queues priority).threads.any threads.isRunning) :
    s.highest (·.any threads.isRunning) = some priority := by
  obtain ⟨-, before, rest, heq, hbef⟩ := find?_eq_some_iff_append.mp h
  refine find?_eq_some_iff_append.mpr ⟨hany, before, rest, heq, fun p hp => ?_⟩
  have hemp : (s.queues p).threads = [] := by simpa using hbef p hp
  rw [hemp]
  rfl

/-- As long as the idle thread can run, the call does what it should exactly if the first queue that
is not empty has a running thread. -/
theorem schedules_iff (hidle : ∃ t ∈ (s.queues .low).threads,
      (threads t).id = idleThread ∧ threads.isRunning t) :
    Schedules threads s ↔ s.highest (· ≠ []) = s.highest (·.any threads.isRunning) := by
  obtain ⟨idle, hmem, -⟩ := hidle
  obtain ⟨priority, hfst⟩ : ∃ priority, s.highest (· ≠ []) = some priority :=
    Option.isSome_iff_exists.mp (find?_isSome.mpr
      ⟨.low, by simp, decide_eq_true (ne_nil_of_mem hmem)⟩)
  constructor
  · rintro ⟨s', p, hok, -⟩
    by_cases hany : (s.queues priority).threads.any threads.isRunning
    · rw [hfst, highest_any hfst hany]
    · rw [scheduleNextThread_of_waiting hfst (by simpa using hany)] at hok
      cases hok
  · intro heq
    have hany := heq.symm.trans hfst
    obtain ⟨pre, t, post, hscan, hpre, ht⟩ := exists_scanned (any_eq_true.mp
      (find?_some (p := fun p => (s.queues p).threads.any threads.isRunning) hany))
    refine ⟨_, priority, scheduleNextThread_of_scanned hfst hscan hpre ht, hany, ?_, ht⟩
    have hmem : t ∈ (s.queues priority).scanned := by simp [hscan]
    exact mem_rotate.mp hmem

def sampleThreads : ThreadObjects
  | 0 => ⟨idleThread, .running, .low, .save ⟨0, 0, 0, 0⟩⟩
  | 1 => ⟨taskThread, .waiting, .high, .save ⟨0, 0, 0, 0⟩⟩
  | _ => ⟨2, .running, .normal, .save ⟨0, 0, 0, 0⟩⟩

theorem schedules_iff_normal : Schedules sampleThreads ((new 0).addThread sampleThreads 2) :=
  (schedules_iff ⟨0, by decide, rfl, rfl⟩).mpr rfl

/-- The only thread of the highest priority waits, and the call panics. -/
theorem scheduleNextThread_panics :
    let s := ((new 0).addThread sampleThreads 1).addThread sampleThreads 2
    0 ∈ (s.queues .low).threads ∧ (sampleThreads 0).id = idleThread ∧ sampleThreads.isRunning 0 ∧
      s.scheduleNextThread sampleThreads = .error .overflow :=
  ⟨by decide, rfl, rfl, rfl⟩

/-! ### Consecutive calls -/

lemma highest_taken (n : ℕ) (t : ThreadRef) (h : s.highest (· ≠ []) = some priority) :
    (s.taken priority n t).highest (· ≠ []) = some priority := by
  rw [← h, highest, highest]
  congr 1
  funext p
  by_cases hp : p = priority
  · subst hp
    simp [taken, setQueue]
  · simp [taken, setQueue, hp]

lemma scanned_taken (hscan : (s.queues priority).scanned = pre ++ t :: post) :
    ((s.taken priority pre.length t).queues priority).scanned = post ++ (pre ++ [t]) := by
  have hpos : 0 < (s.queues priority).threads.length := by
    rw [← length_rotate _ (s.queues priority).start, ← scanned, hscan]
    simp
  have hqu : (s.taken priority pre.length t).queues priority =
      ⟨(s.queues priority).threads, ((s.queues priority).start + pre.length + 1) %
        (s.queues priority).threads.length⟩ := Function.update_self ..
  rw [hqu, scanned_of_lt (mod_lt _ hpos)]
  dsimp only
  rw [rotate_mod, ← rotate_rotate, ← rotate_rotate, ← scanned, hscan,
    rotate_append_length_eq, cons_append, rotate_cons_succ, rotate_zero, append_assoc]

lemma consecutive_eq (h : s.highest (· ≠ []) = some priority) {n : ℕ}
    (hn : n ≤ ((s.queues priority).scanned.filter threads.isRunning).length) :
    s.consecutive threads n =
      .ok (((s.queues priority).scanned.filter threads.isRunning).take n) := by
  induction n generalizing s with
  | zero => rfl
  | succ n ih =>
    obtain ⟨u, hu⟩ := exists_mem_of_length_pos (zero_lt_of_lt hn)
    obtain ⟨hmem, hrun⟩ := mem_filter.mp hu
    obtain ⟨pre, t, post, hscan, hpre, ht⟩ := exists_scanned ⟨u, mem_rotate.mp hmem, hrun⟩
    have hnil : pre.filter threads.isRunning = [] := filter_eq_nil_iff.mpr hpre
    rw [hscan, filter_append, hnil, nil_append, filter_cons_of_pos ht] at hn ⊢
    have hle := le_of_succ_le_succ hn
    have hrest := ih (highest_taken pre.length t h)
    rw [scanned_taken hscan, filter_append, filter_append, hnil, nil_append,
      take_append_of_le_length hle, length_append] at hrest
    rw [consecutive, scheduleNextThread_of_scanned h hscan hpre ht, take_succ_cons]
    change (consecutive threads n _ >>= _ : Checked _) = _
    rw [hrest (hle.trans le_self_add)]
    rfl

/-- Any `r` consecutive calls make each of the `r` running threads in the first queue that is not
empty current exactly once. -/
theorem consecutive_perm (h : s.highest (· ≠ []) = some priority) :
    ∃ ts, s.consecutive threads ((s.queues priority).threads.countP threads.isRunning) = .ok ts ∧
      ts.Perm ((s.queues priority).threads.filter threads.isRunning) := by
  have hperm : ((s.queues priority).scanned.filter threads.isRunning).Perm
      ((s.queues priority).threads.filter threads.isRunning) :=
    (rotate_perm _ _).filter _
  have hlen := countP_eq_length_filter.trans hperm.length_eq.symm
  refine ⟨_, consecutive_eq h hlen.le, ?_⟩
  rwa [take_of_length_le hlen.ge]

def sampleScheduler : ThreadScheduler where
  queues
    | .normal => ⟨[2, 1, 3], 9⟩
    | _ => ⟨[], 0⟩
  currentThread := 0

theorem consecutive_perm_two : ∃ ts, sampleScheduler.consecutive sampleThreads 2 = .ok ts ∧
    ts.Perm [2, 3] :=
  have hfst : sampleScheduler.highest (· ≠ []) = some .normal := rfl
  consecutive_perm hfst

end ThreadScheduler

end Kernel.Process
