import Kernel.Core.Interleaving
import Kernel.Tasks.Semaphore

/-!
# Wake-ups of a semaphore

Any number of tasks and threads wait for a semaphore, and any number of calls signal it, in all
interleavings of their accesses.
-/

namespace Kernel.Tasks

open Core List Function Nat

def SemaphoreWaker.call : SemaphoreWaker → ℕ
  | .task t | .thread t => t

inductive SemaphoreCall where
  | wait (kind : WaitKind) (point : Option Waiting)
  | signal (point : Option Signalling)

def WaitResult.point : WaitResult → Option Waiting
  | .waiting w => some w
  | .acquired | .failed => none

namespace SemaphoreCall

def access (_ : Unit) (t : ℕ) (s : Semaphore) : SemaphoreCall → Semaphore × SemaphoreCall
  | .wait kind (some w) =>
    ((s.waitStep kind t w).1, .wait kind (s.waitStep kind t w).2.point)
  | .signal (some p) => ((s.signalStep p).1, .signal (s.signalStep p).2)
  | .wait kind none => (s, .wait kind none)
  | .signal none => (s, .signal none)

def Begins : SemaphoreCall → Prop
  | .wait _ (some .load) | .signal (some .fetchAdd) => True
  | .wait _ (some (.compareExchange _ _)) | .wait _ (some .push) | .wait _ (some .pending)
  | .wait _ none | .signal (some .pop) | .signal (some (.wake _)) | .signal none => False

instance : DecidablePred Begins
  | .wait _ (some .load) | .signal (some .fetchAdd) => .isTrue trivial
  | .wait _ (some (.compareExchange _ _)) | .wait _ (some .push) | .wait _ (some .pending)
  | .wait _ none | .signal (some .pop) | .signal (some (.wake _)) | .signal none => .isFalse nofun

def program : Program Semaphore SemaphoreCall := .ofFun access Begins

def inProgress : SemaphoreCall → Bool
  | .wait _ (some .pending) | .wait _ none | .signal none => false
  | .wait _ (some .load) | .wait _ (some (.compareExchange _ _)) | .wait _ (some .push)
  | .signal (some _) => true

def isPending : SemaphoreCall → Bool
  | .wait _ (some .pending) => true
  | .wait _ (some .load) | .wait _ (some (.compareExchange _ _)) | .wait _ (some .push)
  | .wait _ none | .signal _ => false

def pops : SemaphoreCall → ℕ
  | .signal (some .pop) => 1
  | .signal (some .fetchAdd) | .signal (some (.wake _)) | .signal none | .wait _ _ => 0

def NoLostWakeup (cfg : Config Semaphore SemaphoreCall) : Prop :=
  0 < cfg.shared.count → (∀ c ∈ cfg.calls, c.inProgress = false) →
    ∀ t c, cfg.calls[t]? = some c → c.isPending = true → cfg.shared.woken t = true

def enoughSignals : Program.Discipline Semaphore SemaphoreCall where
  start _ _ := True
  step s calls
    | .wait _ (some .push) => s.count = 0
    | .signal (some .fetchAdd) => s.wakerQueue.length ≤ total pops calls + 1
    | .wait _ (some .load) | .wait _ (some (.compareExchange _ _)) | .wait _ (some .pending)
    | .wait _ none | .signal (some .pop) | .signal (some (.wake _)) | .signal none => True

instance : ∀ calls c, Decidable (enoughSignals.start calls c) := fun _ _ => .isTrue trivial

instance : ∀ s calls c, Decidable (enoughSignals.step s calls c)
  | s, _, .wait _ (some .push) => inferInstanceAs (Decidable (s.count = 0))
  | s, calls, .signal (some .fetchAdd) =>
    inferInstanceAs (Decidable (s.wakerQueue.length ≤ total pops calls + 1))
  | _, _, .wait _ (some .load) | _, _, .wait _ (some (.compareExchange _ _))
  | _, _, .wait _ (some .pending) | _, _, .wait _ none | _, _, .signal (some .pop)
  | _, _, .signal (some (.wake _)) | _, _, .signal none => .isTrue trivial

/-! ### The invariant -/

def Reserved (s : Semaphore) (calls : List SemaphoreCall) (w : SemaphoreWaker) : Prop :=
  w ∈ s.wakerQueue ∨ ∃ u : ℕ, calls[u]? = some (signal (some (.wake w)))

structure WakeupsKept (s : Semaphore) (calls : List SemaphoreCall) : Prop where
  enough : 0 < s.count → s.wakerQueue.length ≤ total pops calls
  waker : ∀ t c, calls[t]? = some c → c.isPending = true → s.woken t = false →
    ∃ w : SemaphoreWaker, w.call = t ∧ Reserved s calls w

section

variable {s : Semaphore} {calls : List SemaphoreCall} {t : ℕ} {c c' : SemaphoreCall}

lemma wakeupsKept_new (count : ℕ) : WakeupsKept (.new count) [] where
  enough _ := le_refl _
  waker _ _ h := by simp at h

lemma isPending_of_begins (h : Begins c) : c.isPending = false := by
  cases c with
  | wait kind point =>
    cases point with
    | none => rfl
    | some w =>
      cases w with
      | pending => cases h
      | load | compareExchange _ _ | push => rfl
  | signal point => rfl

lemma WakeupsKept.start (h : WakeupsKept s calls) (hc : Begins c) :
    WakeupsKept s (calls ++ [c]) where
  enough hpos := by
    rw [total_append_singleton]
    exact (h.enough hpos).trans le_self_add
  waker t d hd hpend hwok := by
    have ht : calls[t]? = some d := by
      rw [List.getElem?_append] at hd
      split_ifs at hd with hlt
      · exact hd
      · rw [List.getElem?_singleton] at hd
        split_ifs at hd
        cases hd
        cases (isPending_of_begins hc).symm.trans hpend
    obtain ⟨w, hw, hresv⟩ := h.waker t d ht hpend hwok
    refine ⟨w, hw, hresv.imp_right fun ⟨u, hu⟩ => ⟨u, ?_⟩⟩
    rw [List.getElem?_append_left (List.getElem?_eq_some_iff.mp hu).1]
    exact hu

lemma getElem?_set_cases {u : ℕ} {d : SemaphoreCall} (h : (calls.set t c')[u]? = some d) :
    u = t ∧ d = c' ∨ u ≠ t ∧ calls[u]? = some d := by
  rw [List.getElem?_set] at h
  split_ifs at h with hut hlt
  · cases h
    exact .inl ⟨hut.symm, rfl⟩
  · exact .inr ⟨Ne.symm hut, h⟩

lemma Reserved.set {s' : Semaphore} {w : SemaphoreWaker} (h : Reserved s calls w)
    (hc : calls[t]? = some c) (hwake : c ≠ .signal (some (.wake w)))
    (hqu : w ∈ s.wakerQueue → Reserved s' (calls.set t c') w) :
    Reserved s' (calls.set t c') w := by
  rcases h with hmem | ⟨u, hu⟩
  · exact hqu hmem
  · refine .inr ⟨u, ?_⟩
    have hut : t ≠ u := by
      rintro rfl
      exact hwake (Option.some.inj (hc.symm.trans hu))
    rw [List.getElem?_set_ne hut]
    exact hu

lemma WakeupsKept.frame {s' : Semaphore} (h : WakeupsKept s calls) (hc : calls[t]? = some c)
    (hcnt : 0 < s'.count → 0 < s.count) (hqu : s'.wakerQueue = s.wakerQueue)
    (hwok : s'.woken = s.woken) (hpops : pops c' = pops c)
    (hwake : ∀ w, c ≠ .signal (some (.wake w)))
    (hpend : c'.isPending = true → c.isPending = true) : WakeupsKept s' (calls.set t c') where
  enough hpos := by
    have htot := total_set pops c' hc
    have heno := h.enough (hcnt hpos)
    rw [hqu]
    omega
  waker u d hd hd' hu := by
    rw [hwok] at hu
    have hbef : ∃ d, calls[u]? = some d ∧ d.isPending = true := by
      rcases getElem?_set_cases hd with ⟨rfl, rfl⟩ | ⟨-, hd⟩
      · exact ⟨c, hc, hpend hd'⟩
      · exact ⟨d, hd, hd'⟩
    obtain ⟨d, hd, hd'⟩ := hbef
    obtain ⟨w, hw, hresv⟩ := h.waker u d hd hd' hu
    exact ⟨w, hw, hresv.set hc (hwake w) fun hmem => .inl (hqu ▸ hmem)⟩

lemma isPending_loaded (kind : WaitKind) (count : ℕ) :
    (wait kind (Semaphore.loaded kind count).point).isPending = false := by
  unfold Semaphore.loaded
  split_ifs
  · cases kind <;> rfl
  · rfl

section

variable (h : WakeupsKept s calls)

include h

lemma WakeupsKept.wait {kind : WaitKind} {w : Waiting}
    (hc : calls[t]? = some (.wait kind (some w))) (hw : w ≠ .push) :
    WakeupsKept (s.waitStep kind t w).1
      (calls.set t (.wait kind (s.waitStep kind t w).2.point)) := by
  cases w with
  | push => exact absurd rfl hw
  | load =>
    refine h.frame hc id rfl rfl rfl (by simp) fun hpend => ?_
    cases (isPending_loaded kind s.count).symm.trans hpend
  | compareExchange count pos =>
    simp only [Semaphore.waitStep]
    split_ifs with heq
    · exact h.frame hc (fun _ => heq ▸ pos) rfl rfl rfl (by simp) (by rintro ⟨⟩)
    · cases kind with
      | attempt => exact h.frame hc id rfl rfl rfl (by simp) (by rintro ⟨⟩)
      | task | thread =>
        refine h.frame hc id rfl rfl rfl (by simp) fun hpend => ?_
        cases (isPending_loaded _ s.count).symm.trans hpend
  | pending =>
    cases kind with
    | attempt | task => exact h.frame hc id rfl rfl rfl (by simp) (by rintro ⟨⟩)
    | thread => exact h.frame hc id rfl rfl rfl (by simp) fun _ => rfl

lemma WakeupsKept.push {kind : WaitKind}
    (hc : calls[t]? = some (.wait kind (some .push))) (hcnt : s.count = 0) :
    WakeupsKept (s.waitStep kind t .push).1
      (calls.set t (.wait kind (s.waitStep kind t .push).2.point)) where
  enough hpos := absurd hcnt (pos_iff_ne_zero.mp hpos)
  waker u d hd hd' hu := by
    rcases getElem?_set_cases hd with ⟨rfl, rfl⟩ | ⟨hne, hd⟩
    · cases kind with
      | thread => exact ⟨.thread u, rfl, .inl (mem_append_right _ mem_cons_self)⟩
      | task | attempt => exact ⟨.task u, rfl, .inl (mem_append_right _ mem_cons_self)⟩
    · have hu : s.woken u = false := (update_of_ne hne _ _).symm.trans hu
      obtain ⟨w, hw, hresv⟩ := h.waker u d hd hd' hu
      exact ⟨w, hw, hresv.set hc nofun fun hmem => .inl (mem_append_left _ hmem)⟩

lemma WakeupsKept.fetchAdd (hc : calls[t]? = some (.signal (some .fetchAdd)))
    (heno : s.wakerQueue.length ≤ total pops calls + 1) :
    WakeupsKept (s.signalStep .fetchAdd).1
      (calls.set t (.signal (s.signalStep .fetchAdd).2)) where
  enough _ := by
    have htot : total pops _ + 0 = total pops calls + 1 :=
      total_set pops (.signal (some .pop)) hc
    exact heno.trans htot.ge
  waker u d hd hd' hu := by
    rcases getElem?_set_cases hd with ⟨rfl, rfl⟩ | ⟨-, hd⟩
    · cases hd'
    · obtain ⟨w, hw, hresv⟩ := h.waker u d hd hd' hu
      exact ⟨w, hw, hresv.set hc nofun .inl⟩

lemma WakeupsKept.pop (hc : calls[t]? = some (.signal (some .pop))) :
    WakeupsKept (s.signalStep .pop).1 (calls.set t (.signal (s.signalStep .pop).2)) := by
  have hlt : t < calls.length := (List.getElem?_eq_some_iff.mp hc).1
  rw [Semaphore.signalStep]
  cases hqu : s.wakerQueue with
  | nil =>
    refine ⟨fun _ => ?_, fun u d hd hd' hu => ?_⟩
    · rw [hqu]
      exact zero_le _
    · rcases getElem?_set_cases hd with ⟨rfl, rfl⟩ | ⟨-, hd⟩
      · cases hd'
      · obtain ⟨w, hw, hresv⟩ := h.waker u d hd hd' hu
        exact ⟨w, hw, hresv.set hc (by simp) .inl⟩
  | cons waker rest =>
    refine ⟨fun hpos => ?_, fun u d hd hd' hu => ?_⟩
    · have htot : total pops _ + 1 = total pops calls + 0 :=
        total_set pops (.signal (some (.wake waker))) hc
      have heno := h.enough hpos
      rw [hqu, length_cons] at heno
      exact le_of_succ_le_succ (heno.trans htot.ge)
    · rcases getElem?_set_cases hd with ⟨rfl, rfl⟩ | ⟨-, hd⟩
      · cases hd'
      · obtain ⟨w, hw, hresv⟩ := h.waker u d hd hd' hu
        refine ⟨w, hw, hresv.set hc (by simp) fun hmem => ?_⟩
        rcases mem_cons.mp (hqu ▸ hmem) with rfl | hmem
        · exact .inr ⟨t, List.getElem?_set_self hlt⟩
        · exact .inl hmem

lemma WakeupsKept.wake {waker : SemaphoreWaker}
    (hc : calls[t]? = some (.signal (some (.wake waker)))) :
    WakeupsKept (s.signalStep (.wake waker)).1
      (calls.set t (.signal (s.signalStep (.wake waker)).2)) := by
  have hstep : s.signalStep (.wake waker) =
      ({ s with woken := update s.woken waker.call true }, none) := by
    cases waker <;> rfl
  rw [hstep]
  refine ⟨fun hpos => ?_, fun u d hd hd' hu => ?_⟩
  · have htot : total pops _ + 0 = total pops calls + 0 := total_set pops (.signal none) hc
    exact (h.enough hpos).trans htot.ge
  · rcases getElem?_set_cases hd with ⟨rfl, rfl⟩ | ⟨-, hd⟩
    · cases hd'
    · have hne : u ≠ waker.call := by
        rintro rfl
        cases (update_self _ _ _).symm.trans hu
      have hu : s.woken u = false := (update_of_ne hne _ _).symm.trans hu
      obtain ⟨w, hw, hresv⟩ := h.waker u d hd hd' hu
      refine ⟨w, hw, hresv.set hc (fun heq => ?_) .inl⟩
      cases heq
      exact hne hw.symm

lemma WakeupsKept.access (hc : calls[t]? = some c) (hd : enoughSignals.step s calls c) :
    WakeupsKept (SemaphoreCall.access () t s c).1
      (calls.set t (SemaphoreCall.access () t s c).2) := by
  cases c with
  | wait kind point =>
    cases point with
    | none => exact h.frame hc id rfl rfl rfl nofun id
    | some w =>
      by_cases hw : w = .push
      · subst hw
        exact h.push hc hd
      · exact h.wait hc hw
  | signal point =>
    cases point with
    | none => exact h.frame hc id rfl rfl rfl nofun id
    | some p =>
      cases p with
      | fetchAdd => exact h.fetchAdd hc hd
      | pop => exact h.pop hc
      | wake waker => exact h.wake hc

end

lemma wakeupsKept_of_reachableUnder {count : ℕ} {cfg : Config Semaphore SemaphoreCall}
    (h : program.ReachableUnder enoughSignals (.new count) cfg) :
    WakeupsKept cfg.shared cfg.calls := by
  refine h.induct (I := WakeupsKept) (wakeupsKept_new count)
    (fun s calls c hkept hst _ => hkept.start hst) ?_
  rintro s calls t c s' c' hkept hc ⟨⟨⟩, heq⟩ hd
  obtain ⟨rfl, rfl⟩ := Prod.mk.inj heq
  exact hkept.access hc hd

/-- No wake-up is lost as long as wakers enter the queue only while the counter is zero and there
are always enough calls to pop all wakers. -/
theorem noLostWakeup_of_enoughSignals {count : ℕ} {cfg : Config Semaphore SemaphoreCall}
    (h : program.ReachableUnder enoughSignals (.new count) cfg) : NoLostWakeup cfg := by
  intro hpos hqui t c hc hpend
  have hkept := wakeupsKept_of_reachableUnder h
  have htot : total pops cfg.calls = 0 := by
    refine total_eq_zero fun d hd => ?_
    have hd' := hqui d hd
    cases d with
    | wait kind point => rfl
    | signal point =>
      cases point with
      | none => rfl
      | some p => cases hd'
  have hemp : cfg.shared.wakerQueue = [] :=
    length_eq_zero_iff.mp (le_zero.mp ((hkept.enough hpos).trans htot.le))
  by_contra hwok
  obtain ⟨w, -, hmem | ⟨u, hu⟩⟩ := hkept.waker t c hc hpend (Bool.eq_false_iff.mpr hwok)
  · rw [hemp] at hmem
    cases hmem
  · cases hqui _ (mem_of_getElem? hu)

end

def waitThenSignal : List (Act Unit SemaphoreCall) :=
  [.start (.wait .task (some .load)), .step 0 (), .step 0 (), .start (.signal (some .fetchAdd)),
    .step 1 (), .step 1 (), .step 1 ()]

theorem noLostWakeup_of_enoughSignals_one :
    NoLostWakeup (waitThenSignal.foldl (act access) ⟨.new 0, []⟩) ∧
      (waitThenSignal.foldl (act access) ⟨.new 0, []⟩).shared.count = 1 ∧
      (waitThenSignal.foldl (act access) ⟨.new 0, []⟩).shared.woken 0 = true :=
  ⟨noLostWakeup_of_enoughSignals (Obeys.reachableUnder (by decide +kernel)), by decide +kernel,
    by decide +kernel⟩

def signalDuringPoll : List (Act Unit SemaphoreCall) :=
  [.start (.wait .task (some .load)), .step 0 (), .start (.signal (some .fetchAdd)), .step 1 (),
    .step 1 (), .step 0 ()]

/-- The counter is one, and the only task waits without having been woken. -/
theorem wakeup_lost :
    ∃ cfg, program.Reachable (.new 0) cfg ∧ cfg.shared.count = 1 ∧ ¬ NoLostWakeup cfg := by
  refine ⟨signalDuringPoll.foldl (act access) ⟨.new 0, []⟩, reachable_schedule ?_,
    by decide +kernel, fun h => ?_⟩
  · intro c hc
    simp only [signalDuringPoll, mem_cons, Act.start.injEq, reduceCtorEq, false_or, or_false,
      not_mem_nil] at hc
    rcases hc with rfl | rfl <;> trivial
  · cases h (by decide +kernel) (by decide +kernel) 0 (.wait .task (some .pending)) rfl rfl

end SemaphoreCall

end Kernel.Tasks
