import Kernel.Tasks.RwLock.Basic

/-!
# A writer excludes all other guards

The permits of the two semaphores are never created or lost.
-/

namespace Kernel.Tasks.RwLock

open Core Call Semaphore

/-! ### Who holds what -/

def Call.mutexPermits : Call → ℕ
  | readUnlock p | readFailed p | readDropUnlock p => p.permits
  | readCount _ | readWrite _ _ | readDropCount | readDropSignal _ | panicked _ => 1
  | _ => 0

def Call.writePermits : Call → ℕ
  | writeDrop p | readDropSignal p => p.permits
  | writeGuard => 1
  | _ => 0

def Call.counted : Call → ℕ
  | readWrite _ _ | readUnlock _ | readGuard | readDropLock _ | readDropCount => 1
  | _ => 0

def Call.entering : Call → ℕ
  | readWrite _ _ => 1
  | _ => 0

def Call.tryReads : Call → ℕ
  | readLock .attempt _ | readCount .attempt | readWrite .attempt _ | readFailed _ => 1
  | _ => 0

def sharedPermits (readers entering : ℕ) : ℕ := if 0 < readers ∧ entering = 0 then 1 else 0

structure Balanced (l : RwLock) (calls : List Call) : Prop where
  mutex_permit : l.readerMutex.count + total mutexPermits calls = 1
  write_permit : l.writeMutex.count + total writePermits calls +
    sharedPermits (total counted calls) (total entering calls) = 1
  readerCount_eq : l.readerCount = total counted calls
  counted_of_entering : 0 < total entering calls → total counted calls = 1

structure Invariant (l : RwLock) (calls : List Call) : Prop extends Balanced l calls where
  tryReads_eq : total tryReads calls = 0

lemma balanced_new : Balanced new [] := by
  constructor <;> simp [new, Semaphore.new, sharedPermits]

variable {l l' : RwLock} {calls : List Call} {t : ℕ} {c c' : Call}

lemma Balanced.start (h : Balanced l calls) (hc : ∃ kind, c = .readLock kind .load ∨
    c = .writeWait kind .load) : Balanced l (calls ++ [c]) := by
  obtain ⟨h₁, h₂, h₃, h₄⟩ := h
  obtain ⟨kind, rfl | rfl⟩ := hc <;>
    constructor <;> simp only [total_append_singleton] <;> assumption

lemma sharedPermits_cases (readers entering : ℕ) :
    0 < readers ∧ entering = 0 ∧ sharedPermits readers entering = 1 ∨
      (readers = 0 ∨ 0 < entering) ∧ sharedPermits readers entering = 0 := by
  unfold sharedPermits
  split_ifs <;> omega

/-! ### One step -/

lemma Balanced.set (h : Balanced l calls) (hc : calls[t]? = some c)
    (hmut : l'.readerMutex.count + c'.mutexPermits = l.readerMutex.count + c.mutexPermits)
    (hrdrs : l'.readerCount + c.counted = l.readerCount + c'.counted)
    (hrest : ∀ r e, r + c.counted = total counted calls → e + c.entering = total entering calls →
      l'.writeMutex.count + c'.writePermits + sharedPermits (r + c'.counted) (e + c'.entering) =
        l.writeMutex.count + c.writePermits + sharedPermits (r + c.counted) (e + c.entering) ∧
      (0 < e + c'.entering → r + c'.counted = 1)) :
    Balanced l' (calls.set t c') := by
  have e₁ := total_set mutexPermits c' hc
  have e₂ := total_set writePermits c' hc
  have e₃ := total_set counted c' hc
  have e₄ := total_set entering c' hc
  have hr := Nat.sub_add_cancel (single_le_total (f := counted) hc)
  have he := Nat.sub_add_cancel (single_le_total (f := entering) hc)
  obtain ⟨hwr, hent⟩ := hrest _ _ hr he
  have hr' : total counted calls - c.counted + c'.counted =
    total counted (calls.set t c') := by omega
  have he' : total entering calls - c.entering + c'.entering =
    total entering (calls.set t c') := by omega
  rw [hr', he', hr, he] at hwr
  rw [hr', he'] at hent
  obtain ⟨h₁, h₂, h₃, h₄⟩ := h
  exact ⟨by omega, by omega, by omega, hent⟩

lemma Balanced.exchange (h : Balanced l calls) (hc : calls[t]? = some c)
    (hmut : l'.readerMutex.count + c'.mutexPermits = l.readerMutex.count + c.mutexPermits)
    (hwr : l'.writeMutex.count + c'.writePermits = l.writeMutex.count + c.writePermits)
    (hrdrs : l'.readerCount = l.readerCount) (hcnt : c'.counted = c.counted)
    (hent : c'.entering = c.entering) :
    Balanced l' (calls.set t c') := by
  refine h.set hc hmut (by omega) fun r e hr he => ?_
  rw [hcnt, hent, hr, he]
  exact ⟨by omega, h.counted_of_entering⟩

lemma entering_le_mutexPermits (d : Call) : d.entering ≤ d.mutexPermits := by
  cases d <;> simp [entering, mutexPermits]

lemma Balanced.entering_le (h : Balanced l calls) (hc : calls[t]? = some c)
    (hmut : c.mutexPermits = 1) : total entering calls ≤ c.entering := by
  have hle := total_add_sub_le entering_le_mutexPermits hc
  have := h.mutex_permit
  omega

lemma Balanced.readCount (h : Balanced l calls) {kind : WaitKind}
    (hc : calls[t]? = some (.readCount kind)) :
    Balanced { l with readerCount := l.readerCount + 1 }
      (calls.set t (if l.readerCount + 1 = 1 then .readWrite kind .load
        else .readUnlock .fetchAdd)) := by
  have hent := h.entering_le hc rfl
  have hrdrs := h.readerCount_eq
  split_ifs with hfst
  · refine h.set hc rfl (by simp [counted]) fun r e hr he => ?_
    simp only [counted, entering, writePermits] at *
    have := sharedPermits_cases (r + 1) (e + 1)
    have := sharedPermits_cases (r + 0) (e + 0)
    omega
  · refine h.set hc rfl (by simp [counted]) fun r e hr he => ?_
    simp only [counted, entering, writePermits] at *
    have := sharedPermits_cases (r + 1) (e + 0)
    have := sharedPermits_cases (r + 0) (e + 0)
    omega

lemma Balanced.readWrite (h : Balanced l calls) {kind : WaitKind} {w : Waiting} {s : Semaphore}
    (hc : calls[t]? = some (.readWrite kind w)) (hs : s.count + 1 = l.writeMutex.count) :
    Balanced { l with writeMutex := s } (calls.set t (.readUnlock .fetchAdd)) := by
  have hent := h.entering_le hc rfl
  refine h.set hc rfl rfl fun r e hr he => ?_
  simp only [counted, entering, writePermits] at *
  have := sharedPermits_cases (r + 1) (e + 0)
  have := sharedPermits_cases (r + 1) (e + 1)
  omega

lemma Balanced.readDropCount (h : Balanced l calls) (hc : calls[t]? = some .readDropCount) :
    Balanced { l with readerCount := l.readerCount - 1 }
      (calls.set t (if l.readerCount - 1 = 0 then .readDropSignal .fetchAdd
        else .readDropUnlock .fetchAdd)) := by
  have hent := h.entering_le hc rfl
  have hrdrs := h.readerCount_eq
  have hpos := single_le_total (f := counted) hc
  simp only [counted] at hpos
  split_ifs with hlast
  · refine h.set hc rfl (by simp only [counted]; omega) fun r e hr he => ?_
    simp only [counted, entering, writePermits, Signalling.permits] at *
    have := sharedPermits_cases (r + 1) (e + 0)
    have := sharedPermits_cases (r + 0) (e + 0)
    omega
  · refine h.set hc rfl (by simp only [counted]; omega) fun r e hr he => ?_
    simp only [counted, entering, writePermits] at *
    have := sharedPermits_cases (r + 1) (e + 0)
    have := sharedPermits_cases (r + 0) (e + 0)
    omega

section signal

variable {next : Signalling → Call} {done : Call} {p : Signalling}

lemma signal_permits {f : Call → ℕ} {sem : Semaphore} (hc : calls[t]? = some (next p))
    (hper : sem.count + total f calls ≤ 1) (hnext : ∀ p, f (next p) = p.permits)
    (hdone : f done = 0) : (sem.signalStep p).1.count + f ((sem.signalStep p).2.elim done next) =
      sem.count + f (next p) := by
  have hle := single_le_total (f := f) hc
  rw [hnext] at hle ⊢
  rw [← signalStep_permits (s := sem) (p := p) (by omega)]
  cases (sem.signalStep p).2 with
  | none => rw [Option.elim, Option.elim, hdone]
  | some p' => rw [Option.elim, Option.elim, hnext]

lemma signal_eq {f : Call → ℕ} (hnext : ∀ p, f (next p) = f done) (o : Option Signalling) :
    f (o.elim done next) = f (next p) := by
  rw [hnext]
  cases o with
  | none => rfl
  | some p' => exact hnext p'

lemma Balanced.signalMutex (h : Balanced l calls) (hc : calls[t]? = some (next p))
    (hmut : ∀ p, (next p).mutexPermits = p.permits) (hdone : done.mutexPermits = 0)
    (hoth : ∀ p, (next p).writePermits = done.writePermits ∧
      (next p).counted = done.counted ∧ (next p).entering = done.entering) :
    Balanced { l with readerMutex := (l.readerMutex.signalStep p).1 }
      (calls.set t ((l.readerMutex.signalStep p).2.elim done next)) :=
  h.exchange hc (signal_permits hc h.mutex_permit.le hmut hdone)
    (congrArg _ (signal_eq (fun p => (hoth p).1) _)) rfl
    (signal_eq (fun p => (hoth p).2.1) _) (signal_eq (fun p => (hoth p).2.2) _)

lemma Balanced.signalWrite (h : Balanced l calls) (hc : calls[t]? = some (next p))
    (hwr : ∀ p, (next p).writePermits = p.permits) (hdone : done.writePermits = 0)
    (hoth : ∀ p, (next p).mutexPermits = done.mutexPermits ∧
      (next p).counted = done.counted ∧ (next p).entering = done.entering) :
    Balanced { l with writeMutex := (l.writeMutex.signalStep p).1 }
      (calls.set t ((l.writeMutex.signalStep p).2.elim done next)) :=
  h.exchange hc (congrArg _ (signal_eq (fun p => (hoth p).1) _))
    (signal_permits hc (by have := h.write_permit; omega) hwr hdone) rfl
    (signal_eq (fun p => (hoth p).2.1) _) (signal_eq (fun p => (hoth p).2.2) _)

end signal

lemma Balanced.step (h : Balanced l calls) (hc : calls[t]? = some c)
    (hsty : (c.step t l).2 ≠ .readFailed .fetchAdd) :
    Balanced (c.step t l).1 (calls.set t (c.step t l).2) := by
  cases c with
  | readLock kind w =>
    have hwait := waitStep_permits kind t l.readerMutex w
    simp only [step]
    cases hres : (l.readerMutex.waitStep kind t w).2 with
    | waiting w' | acquired | failed =>
      rw [hres] at hwait
      exact h.exchange hc hwait rfl rfl rfl rfl
  | readCount kind =>
    simp only [step]
    cases hadd : checkedAdd l.readerCount 1 with
    | error reason => exact h.exchange hc rfl rfl rfl rfl rfl
    | ok count =>
      obtain ⟨-, rfl⟩ := checkedAdd_eq_ok.mp hadd
      exact h.readCount hc
  | readWrite kind w =>
    have hwait := waitStep_permits kind t l.writeMutex w
    simp only [step]
    cases hres : (l.writeMutex.waitStep kind t w).2 with
    | waiting w' =>
      rw [hres] at hwait
      exact h.exchange hc rfl hwait rfl rfl rfl
    | acquired =>
      rw [hres] at hwait
      exact h.readWrite hc hwait
    | failed =>
      simp only [step, hres] at hsty
      exact absurd rfl hsty
  | readUnlock p | readFailed p | readDropUnlock p =>
    exact h.signalMutex hc (fun _ => rfl) rfl fun _ => ⟨rfl, rfl, rfl⟩
  | readGuard | writeGuard | finished | panicked reason => exact h.exchange hc rfl rfl rfl rfl rfl
  | readDropLock w =>
    have hwait := waitStep_permits .thread t l.readerMutex w
    simp only [step]
    cases hres : (l.readerMutex.waitStep .thread t w).2 with
    | waiting w' | acquired =>
      rw [hres] at hwait
      exact h.exchange hc hwait rfl rfl rfl rfl
    | failed => cases waitStep_failed hres
  | readDropCount =>
    simp only [step]
    cases hsub : checkedSub l.readerCount 1 with
    | error reason =>
      -- the call itself is counted
      have hpos := single_le_total (f := counted) hc
      have hcnt := h.readerCount_eq
      rw [checkedSub_eq_ok.mpr ⟨by simp only [counted] at hpos; omega, rfl⟩] at hsub
      cases hsub
    | ok count =>
      obtain ⟨-, rfl⟩ := checkedSub_eq_ok.mp hsub
      exact h.readDropCount hc
  | readDropSignal p | writeDrop p =>
    exact h.signalWrite hc (fun _ => rfl) rfl fun _ => ⟨rfl, rfl, rfl⟩
  | writeWait kind w =>
    have hwait := waitStep_permits kind t l.writeMutex w
    simp only [step]
    cases hres : (l.writeMutex.waitStep kind t w).2 with
    | waiting w' | acquired | failed =>
      rw [hres] at hwait
      exact h.exchange hc rfl hwait rfl rfl rfl

/-! ### All interleavings -/

lemma tryReads_step_le (t : ℕ) (l : RwLock) (c : Call) : (c.step t l).2.tryReads ≤ c.tryReads := by
  cases c with
  | readLock kind w =>
    simp only [step]
    cases (l.readerMutex.waitStep kind t w).2 <;> cases kind <;>
      simp [afterWait, tryReads]
  | readCount kind =>
    simp only [step]
    cases checkedAdd l.readerCount 1 with
    | error reason => exact Nat.zero_le _
    | ok count =>
      dsimp only
      split_ifs <;> cases kind <;> simp [tryReads]
  | readWrite kind w =>
    simp only [step]
    cases hres : (l.writeMutex.waitStep kind t w).2 with
    | failed =>
      rw [waitStep_failed hres]
      rfl
    | waiting w' => cases kind <;> simp [afterWait, tryReads]
    | acquired => exact Nat.zero_le _
  | readDropLock w =>
    simp only [step]
    cases (l.readerMutex.waitStep .thread t w).2 <;> exact le_rfl
  | readDropCount =>
    simp only [step]
    cases checkedSub l.readerCount 1 with
    | error reason => exact le_rfl
    | ok count =>
      dsimp only
      split_ifs <;> exact le_rfl
  | writeWait kind w =>
    simp only [step]
    cases (l.writeMutex.waitStep kind t w).2 <;> exact le_rfl
  | readUnlock p | readFailed p | readDropUnlock p =>
    simp only [step]
    cases (l.readerMutex.signalStep p).2 <;> simp [tryReads]
  | readDropSignal p | writeDrop p =>
    simp only [step]
    cases (l.writeMutex.signalStep p).2 <;> exact le_rfl
  | readGuard | writeGuard | finished | panicked _ => exact le_rfl

lemma Invariant.start (h : Invariant l calls) (hc : c.Begins) : Invariant l (calls ++ [c]) := by
  have hkind : c.tryReads = 0 ∧ ∃ kind, c = .readLock kind .load ∨ c = .writeWait kind .load := by
    rcases hc with ⟨kind, hkind, rfl⟩ | ⟨kind, rfl⟩
    · exact ⟨by cases kind <;> first | rfl | exact absurd rfl hkind, kind, .inl rfl⟩
    · exact ⟨rfl, kind, .inr rfl⟩
  refine ⟨h.toBalanced.start hkind.2, ?_⟩
  rw [total_append_singleton, h.tryReads_eq, hkind.1]

lemma Invariant.step (h : Invariant l calls) (hc : calls[t]? = some c) :
    Invariant (c.step t l).1 (calls.set t (c.step t l).2) := by
  have hle := tryReads_step_le t l c
  have hset := total_set tryReads (c.step t l).2 hc
  have hzero := h.tryReads_eq
  have hc₀ := single_le_total (f := tryReads) hc
  refine ⟨h.toBalanced.step hc fun heq => ?_, by omega⟩
  rw [heq] at hle
  exact absurd (hle.trans hc₀) (by rw [hzero]; decide)

lemma reachable_invariant {cfg : Config RwLock Call} (h : program.Reachable new cfg) :
    Invariant cfg.shared cfg.calls := by
  refine h.induct ⟨balanced_new, rfl⟩ (fun _ _ _ hinv hc => hinv.start hc) ?_
  rintro l calls t c l' c' hinv hc hstep
  obtain ⟨rfl, rfl⟩ := Prod.mk.inj hstep
  exact hinv.step hc

lemma writeGuards_le (c : Call) : c.writeGuards ≤ c.writePermits := by
  cases c <;> simp only [writeGuards, writePermits, le_refl]
  case writeDrop p => cases p <;> simp [Signalling.permits]
  case readDropSignal p => exact Nat.zero_le _

lemma readGuards_le (c : Call) : c.readGuards + c.entering ≤ c.counted := by
  cases c <;> simp [readGuards, entering, counted]

lemma counted_le (c : Call) : c.counted ≤ c.readGuards + c.mutexPermits := by
  cases c <;> simp [counted, readGuards, mutexPermits]

/-- A live write guard is the only live guard, the number of readers is that of the live read guards
unless some call holds the mutex, and the lock is free when all calls are over. -/
structure Sound (l : RwLock) (calls : List Call) : Prop where
  exclusive : ∀ (t u : ℕ) c d, calls[t]? = some c → calls[u]? = some d → t ≠ u →
    c.writeGuards = 1 → d.writeGuards = 0 ∧ d.readGuards = 0
  readerCount_eq : l.readerMutex.count ≠ 0 → l.readerCount = total readGuards calls
  free : (∀ c ∈ calls, c = .finished) →
    l.readerMutex.count = 1 ∧ l.readerCount = 0 ∧ l.writeMutex.count = 1

lemma Balanced.sound (h : Balanced l calls) : Sound l calls := by
  obtain ⟨h₁, h₂, h₃, h₄⟩ := h
  have hsha := sharedPermits_cases (total counted calls) (total entering calls)
  have hgua : total readGuards calls + total entering calls ≤
      total counted calls := by
    rw [← total_add]
    exact total_le_total readGuards_le
  refine ⟨fun t u c d hc hd htu hwr => ?_, fun hfree => ?_, fun hfin => ?_⟩
  · have hpair := add_le_total (f := writePermits) htu hc hd
    have hread := single_le_total (f := readGuards) hd
    have := writeGuards_le c
    have := writeGuards_le d
    omega
  · have hcnt : total counted calls ≤
        total readGuards calls + total mutexPermits calls := by
      rw [← total_add]
      exact total_le_total counted_le
    omega
  · have hzero : ∀ f : Call → ℕ, f .finished = 0 → total f calls = 0 := by
      intro f hf
      refine List.sum_eq_zero fun n hn => ?_
      obtain ⟨c, hc, rfl⟩ := List.mem_map.mp hn
      rw [hfin c hc, hf]
    have hmut := hzero mutexPermits rfl
    have hwr := hzero writePermits rfl
    have hcnt := hzero counted rfl
    omega

/-- In every interleaving a live write guard is the only live guard, the number of readers is that
of the live read guards unless some call holds the mutex, and the semaphore for writing never has
more than the one permit, which it has again when all calls are over. -/
theorem reachable_exclusive {cfg : Config RwLock Call} (h : program.Reachable new cfg) :
    (∀ (t u : ℕ) c d, cfg.calls[t]? = some c → cfg.calls[u]? = some d → t ≠ u →
      c.writeGuards = 1 → d.writeGuards = 0 ∧ d.readGuards = 0) ∧
    (cfg.shared.readerMutex.count ≠ 0 → cfg.shared.readerCount = total readGuards cfg.calls) ∧
    cfg.shared.writeMutex.count ≤ 1 ∧
    ((∀ c ∈ cfg.calls, c = .finished) → cfg.shared.writeMutex.count = 1) := by
  have hbal := (reachable_invariant h).toBalanced
  have hper := hbal.write_permit
  obtain ⟨hexc, hcnt, hfree⟩ := hbal.sound
  exact ⟨hexc, hcnt, by omega, fun hfin => (hfree hfin).2.2⟩

/-- One task holds a read guard. -/
theorem reachable_exclusive_one_reader :
    ∃ cfg, program.Reachable new cfg ∧ total readGuards cfg.calls = 1 ∧
      cfg.shared.readerMutex.count = 1 ∧
      (cfg.shared.readerMutex.count ≠ 0 → cfg.shared.readerCount = total readGuards cfg.calls) := by
  have hrun : program.Reachable new _ :=
    Relation.ReflTransGen.refl
      |>.tail (.start (c := .readLock .task .load) (.inl ⟨.task, by decide, rfl⟩))
      |>.tail (.call (t := 0) rfl rfl)
      |>.tail (.call (t := 0) rfl rfl)
      |>.tail (.call (t := 0) rfl rfl)
      |>.tail (.call (t := 0) rfl rfl)
      |>.tail (.call (t := 0) rfl rfl)
      |>.tail (.call (t := 0) rfl rfl)
      |>.tail (.call (t := 0) rfl rfl)
  exact ⟨_, hrun, by decide, by decide, (reachable_exclusive hrun).2.1⟩

def Call.Blocked (l : RwLock) : Call → Prop
  | readLock _ _ | readDropLock _ => l.readerMutex.count = 0
  | readWrite _ _ | writeWait _ _ => l.writeMutex.count = 0
  | _ => False

/-- In no interleaving do all calls that are not over wait for a permit that nobody gives back: the
first reader may keep the mutex while it waits, since a writer never waits for the mutex. -/
theorem finished_of_blocked {cfg : Config RwLock Call} (h : program.Reachable new cfg)
    (hall : ∀ c ∈ cfg.calls, c = .finished ∨ c.Blocked cfg.shared) :
    ∀ c ∈ cfg.calls, c = .finished := by
  obtain ⟨hmut, hwr, -, hone⟩ := (reachable_invariant h).toBalanced
  have hsha := sharedPermits_cases (total counted cfg.calls) (total entering cfg.calls)
  have htot : ∀ f g : Call → ℕ, f .finished = g .finished →
      (∀ c, c.Blocked cfg.shared → f c = g c) → total f cfg.calls = total g cfg.calls := by
    intro f g hfin hblk
    refine congrArg List.sum (List.map_congr_left fun c hmem => ?_)
    rcases hall c hmem with rfl | hc
    · exact hfin
    · exact hblk c hc
  have hzero : total (fun _ => 0) cfg.calls = 0 := total_eq_zero fun _ _ => rfl
  have hwp := htot writePermits (fun _ => 0) rfl fun c hc => by cases c <;> first | rfl | cases hc
  have hmp := htot mutexPermits entering rfl fun c hc => by cases c <;> first | rfl | cases hc
  -- a reader that enters is the only one that is counted, and so the permit for writing is there
  have hent : total entering cfg.calls = 0 := by
    by_contra hpos
    refine hpos ((htot entering (fun _ => 0) rfl fun c hc => ?_).trans hzero)
    cases c <;> first | rfl | (simp only [Blocked] at hc; omega)
  have hcnt := htot counted entering rfl fun c hc => by
    cases c <;> first | rfl | cases hc | (simp only [Blocked] at hc; omega)
  intro c hmem
  refine (hall c hmem).resolve_right fun hc => ?_
  cases c <;> first | cases hc | (simp only [Blocked] at hc; omega)

/-- A writer that has come and gone. -/
theorem finished_of_blocked_writer :
    ∃ cfg, program.Reachable new cfg ∧ cfg.calls.length = 1 ∧ ∀ c ∈ cfg.calls, c = .finished := by
  have hrun : program.Reachable new _ :=
    Relation.ReflTransGen.refl
      |>.tail (.start (c := .writeWait .task .load) (.inr ⟨_, rfl⟩))
      |>.tail (.call (t := 0) rfl rfl)
      |>.tail (.call (t := 0) rfl rfl)
      |>.tail (.call (t := 0) rfl rfl)
      |>.tail (.call (t := 0) rfl rfl)
      |>.tail (.call (t := 0) rfl rfl)
  exact ⟨_, hrun, rfl, finished_of_blocked hrun fun c hc => .inl (List.mem_singleton.mp hc)⟩

/-! ### Acquisitions that give up -/

inductive Call.Dropped : Call → Call → Prop where
  | readLock : Dropped (readLock .task .pending) finished
  | readWrite : Dropped (readWrite .task .pending) (readFailed .fetchAdd)
  | writeWait : Dropped (writeWait .task .pending) finished

def cancellable : Program RwLock Call where
  start _ c := ∃ kind, c = .readLock kind .load ∨ c = .writeWait kind .load
  step t l c l' c' := (l', c') = c.step t l ∨ l' = l ∧ c.Dropped c'

def patient : Program RwLock Call where
  start := cancellable.start
  step t l c l' c' := cancellable.step t l c l' c' ∧ c' ≠ .readFailed .fetchAdd

/-- In every interleaving of acquisitions that may fail or be dropped, but not between the two steps
in which a reader registers, the lock works as if only the others had been attempted. -/
theorem patient_sound {cfg : Config RwLock Call} (h : patient.Reachable new cfg) :
    Sound cfg.shared cfg.calls := by
  refine Balanced.sound (h.induct balanced_new (fun _ _ _ hinv hc => hinv.start hc) ?_)
  rintro l calls t c l' c' hinv hc ⟨hstep | ⟨rfl, hdrp⟩, hsty⟩
  · obtain ⟨rfl, rfl⟩ := Prod.mk.inj hstep
    exact hinv.step hc hsty
  · cases hdrp with
    | readWrite => exact absurd rfl hsty
    | readLock | writeWait => exact hinv.exchange hc rfl rfl rfl rfl rfl

/-- An attempt to write fails while there is a writer. -/
theorem patient_sound_try_write :
    ∃ cfg, patient.Reachable new cfg ∧ cfg.calls = [.writeGuard, .finished] ∧
      Sound cfg.shared cfg.calls := by
  have hrun : patient.Reachable new _ :=
    Relation.ReflTransGen.refl
      |>.tail (.start (c := .writeWait .task .load) ⟨_, .inr rfl⟩)
      |>.tail (.call (t := 0) rfl ⟨.inl rfl, nofun⟩)
      |>.tail (.call (t := 0) rfl ⟨.inl rfl, nofun⟩)
      |>.tail (.start (c := .writeWait .attempt .load) ⟨_, .inr rfl⟩)
      |>.tail (.call (t := 1) rfl ⟨.inl rfl, nofun⟩)
  exact ⟨_, hrun, rfl, patient_sound hrun⟩

/-- While there is a writer, a reader gives up, and the next one gets a guard. -/
theorem cancellable_not_sound :
    ∃ cfg, cancellable.Reachable new cfg ∧ ¬ Sound cfg.shared cfg.calls := by
  have hrun : cancellable.Reachable new _ :=
    Relation.ReflTransGen.refl
      |>.tail (.start (c := .writeWait .task .load) ⟨_, .inr rfl⟩)
      |>.tail (.call (t := 0) rfl (.inl rfl))
      |>.tail (.call (t := 0) rfl (.inl rfl))
      |>.tail (.start (c := .readLock .attempt .load) ⟨_, .inl rfl⟩)
      |>.tail (.call (t := 1) rfl (.inl rfl))
      |>.tail (.call (t := 1) rfl (.inl rfl))
      |>.tail (.call (t := 1) rfl (.inl rfl))
      |>.tail (.call (t := 1) rfl (.inl rfl))
      |>.tail (.call (t := 1) rfl (.inl rfl))
      |>.tail (.call (t := 1) rfl (.inl rfl))
      |>.tail (.start (c := .readLock .attempt .load) ⟨_, .inl rfl⟩)
      |>.tail (.call (t := 2) rfl (.inl rfl))
      |>.tail (.call (t := 2) rfl (.inl rfl))
      |>.tail (.call (t := 2) rfl (.inl rfl))
  exact ⟨_, hrun, fun h => absurd (h.exclusive 0 2 _ _ rfl rfl (by decide) rfl).2 (by decide)⟩

end Kernel.Tasks.RwLock
