import Mathlib.Tactic

/-!
# Running a task on the current thread

`block_on` polls a future and spins until a waker clears its signal. A waker may be invoked between
any two steps.
-/

namespace Kernel.Tasks

inductive BlockOnPoint where
  | polling
  | pending
  | spinning
  | returned
  deriving DecidableEq

structure BlockOn where
  point : BlockOnPoint := .polling
  signal : Bool := false
  sincePoll : Bool := false
  sinceStore : Bool := false

inductive BlockOnAct where
  | wake
  | step (ready : Bool)

namespace BlockOn

def act (s : BlockOn) : BlockOnAct → BlockOn
  | .wake => { s with signal := false, sincePoll := true, sinceStore := true }
  | .step ready =>
    match s.point with
    | .polling => { s with point := if ready then .returned else .pending }
    | .pending => { s with point := .spinning, signal := true, sinceStore := false }
    | .spinning => if s.signal then s else { s with point := .polling, sincePoll := false }
    | .returned => s

def run (acts : List BlockOnAct) (s : BlockOn) : BlockOn := acts.foldl act s

def after (acts : ℕ → BlockOnAct) (s : BlockOn) : ℕ → BlockOn
  | 0 => s
  | n + 1 => (after acts s n).act (acts n)

def PollsAgain (s : BlockOn) : Prop :=
  ∀ acts : ℕ → BlockOnAct, (∀ n, ∃ m ≥ n, ∃ ready, acts m = .step ready) →
    ∃ n, (s.after acts n).point = .polling

lemma signal_run (acts : List BlockOnAct) (h : (run acts {}).point = .spinning) :
    (run acts {}).signal = !(run acts {}).sinceStore := by
  induction acts using List.reverseRecOn with
  | nil => cases h
  | append_singleton acts a ih =>
    rw [run, List.foldl_concat, ← run] at h ⊢
    generalize run acts {} = s at ih h ⊢
    cases a with
    | wake => rfl
    | step ready =>
      cases hpt : s.point <;> simp only [act, hpt] at h ⊢
      · cases ready <;> cases h
      · rfl
      · by_cases hsig : s.signal
        · rw [if_pos hsig]
          exact ih hpt
        · rw [if_neg hsig] at h
          cases h
      · cases h

variable {s : BlockOn}

lemma pollsAgain_of_clear (hpt : s.point = .spinning) (hsig : s.signal = false) :
    PollsAgain s := by
  intro acts hfair
  by_contra! hnev
  -- as long as no step is taken, wakes leave the signal as it is
  have hclr : ∀ n, (s.after acts n).point = .spinning ∧ (s.after acts n).signal = false ∧
      acts n = .wake := by
    have hwake : ∀ n, (s.after acts n).point = .spinning → (s.after acts n).signal = false →
        acts n = .wake := by
      intro n hpt hsig
      cases hact : acts n with
      | wake => rfl
      | step ready => exact absurd (by simp [after, hact, act, hpt, hsig]) (hnev (n + 1))
    intro n
    induction n with
    | zero => exact ⟨hpt, hsig, hwake 0 hpt hsig⟩
    | succ n ih =>
      have hnext : s.after acts (n + 1) = (s.after acts n).act .wake := by rw [after, ih.2.2]
      refine ⟨hnext ▸ ih.1, hnext ▸ rfl, hwake _ (hnext ▸ ih.1) (hnext ▸ rfl)⟩
  obtain ⟨m, -, ready, hrdy⟩ := hfair 0
  rw [(hclr m).2.2] at hrdy
  cases hrdy

lemma not_pollsAgain (h : s.point = .pending ∨ s.point = .spinning ∧ s.signal = true) :
    ¬ PollsAgain s := by
  intro haga
  obtain ⟨n, hn⟩ := haga (fun _ => .step false) fun n => ⟨n, le_rfl, false, rfl⟩
  have hstu : (s.after (fun _ => .step false) n).point = .pending ∨
      (s.after (fun _ => .step false) n).point = .spinning ∧
        (s.after (fun _ => .step false) n).signal = true := by
    clear hn
    induction n with
    | zero => exact h
    | succ n ih =>
      rcases ih with hpt | ⟨hpt, hsig⟩
      · exact .inr (by simp [after, act, hpt])
      · exact .inr (by simp [after, act, hpt, hsig])
  rw [hn] at hstu
  rcases hstu with h | ⟨h, -⟩ <;> cases h

/-- After any interleaving in which the last poll has returned `Pending`, the future is polled again
without a further wake exactly if there was a wake since the signal was set. -/
theorem pollsAgain_iff (acts : List BlockOnAct)
    (hpending : (run acts {}).point = .pending ∨ (run acts {}).point = .spinning) :
    PollsAgain (run acts {}) ↔
      (run acts {}).point = .spinning ∧ (run acts {}).sinceStore = true := by
  rcases hpending with hpt | hpt
  · exact iff_of_false (not_pollsAgain (.inl hpt)) (by simp [hpt])
  · have hsig := signal_run acts hpt
    cases hstr : (run acts {}).sinceStore with
    | true =>
      rw [hstr] at hsig
      exact iff_of_true (pollsAgain_of_clear hpt hsig) ⟨hpt, rfl⟩
    | false =>
      rw [hstr] at hsig
      exact iff_of_false (not_pollsAgain (.inr ⟨hpt, hsig⟩)) fun h => Bool.noConfusion h.2

theorem pollsAgain_iff_woken : PollsAgain (run [.step false, .step false, .wake] {}) :=
  (pollsAgain_iff _ (.inr rfl)).mpr ⟨rfl, rfl⟩

/-- A wake during the poll and one between its return and the store are lost. -/
theorem wake_lost : ∃ acts, (run acts {}).point = .spinning ∧ (run acts {}).sincePoll = true ∧
    ¬ PollsAgain (run acts {}) :=
  ⟨[.wake, .step false, .wake, .step false], rfl, rfl, not_pollsAgain (.inr ⟨rfl, rfl⟩)⟩

end BlockOn

end Kernel.Tasks
