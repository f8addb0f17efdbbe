import Kernel.Core.Ring
import Kernel.Core.Runs
import Kernel.Storage.Nvme.Queue

/-!
# Submitting commands

The driver begins and submits commands at the tail; the device fetches them in the order of the ring
and reports how far it has come.
-/

namespace Kernel.Storage.Nvme

open Core List Option Function Nat

/-! ### The ring -/

structure SubmissionRing where
  queue : SubmissionQueue
  head : ℕ
  memory : ℕ → Words
  command : Option Command
  tailDoorbell : ℕ
  deviceSize : ℕ
  fetched : ℕ

inductive SubmissionAct where
  | begin
  | write (w : Words)
  | submit
  | abandon
  | fetch

inductive SubmissionOutcome where
  | begun (slot : Option ℕ)
  | done
  | submitted (w : Words)
  | fetched (w : Words)
  | panicked
  deriving DecidableEq

namespace SubmissionOutcome

def submitted? : SubmissionOutcome → Option Words
  | submitted w => some w
  | begun _ | done | fetched _ | panicked => none

def fetched? : SubmissionOutcome → Option Words
  | fetched w => some w
  | begun _ | done | submitted _ | panicked => none

end SubmissionOutcome

namespace SubmissionRing

def new (id : QueueId) (entryCount deviceSize : ℕ) (memory : ℕ → Words) : SubmissionRing where
  queue := .new id entryCount
  head := 0
  memory
  command := none
  tailDoorbell := 0
  deviceSize
  fetched := 0

def step : SubmissionAct → SubmissionRing → Option (SubmissionOutcome × SubmissionRing)
  | .begin, s =>
    match s.command, s.queue.begin s.head with
    | some _, _ => none
    | none, .error _ => some (.panicked, s)
    | none, .ok none => some (.begun none, s)
    | none, .ok (some cmd) =>
      some (.begun (some cmd.slot),
        { s with memory := update s.memory cmd.slot .zero, command := some cmd })
  | .write w, s =>
    s.command.map fun cmd =>
      (.done, { s with memory := update s.memory cmd.slot w })
  | .submit, s =>
    s.command.map fun cmd =>
      (.submitted (s.memory cmd.slot),
        { s with queue := s.queue.submit cmd, tailDoorbell := cmd.newTail, command := none })
  | .abandon, s => s.command.map fun _ => (.done, { s with command := none })
  | .fetch, s =>
    if s.fetched % s.deviceSize = s.tailDoorbell then none
    else some (.fetched (s.memory (s.fetched % s.deviceSize)), { s with fetched := s.fetched + 1 })

end SubmissionRing

/-! ### The queue and its completions -/

structure SubmissionSystem where
  ring : SubmissionRing
  reported : List ℕ
  submitted : ℕ
  acknowledged : ℕ

inductive SubmissionSystem.Act where
  | ring (a : SubmissionAct)
  | report
  | pop

namespace SubmissionSystem

def new (id : QueueId) (entryCount : ℕ) : SubmissionSystem :=
  ⟨.new id entryCount entryCount fun _ => .zero, [], 0, 0⟩

def step : Act → SubmissionSystem → Option (SubmissionOutcome × SubmissionSystem)
  | .ring a, s =>
    (s.ring.step a).map fun (o, ring) =>
      (o, { s with ring, submitted := s.submitted + o.submitted?.toList.length })
  | .report, s => some (.done, { s with reported := s.reported ++ [s.ring.fetched] })
  | .pop, s =>
    match s.reported with
    | [] => none
    | k :: reported =>
      some (.done, { s with
        ring := { s.ring with head := k % s.ring.deviceSize }, reported, acknowledged := k })

end SubmissionSystem

open SubmissionSystem

abbrev SubmissionEvent := Event SubmissionSystem Act SubmissionOutcome

structure RoomKept (n : ℕ) (e : SubmissionEvent) : Prop where
  not_panicked : e.result ≠ .panicked
  bounded : e.after.submitted ≤ e.after.acknowledged + (n - 1)
  none_iff : ∀ r, e.result = .begun r →
    (r = none ↔ e.before.submitted = e.before.acknowledged + (n - 1))
  slot_free : ∀ slot, e.result = .begun (some slot) →
    ∀ k, e.before.ring.fetched ≤ k → k < e.before.submitted → k % n ≠ slot

def BeginsAtEnd (n : ℕ) (e : SubmissionEvent) : Prop :=
  e.call = .ring .begin ∧ e.before.ring.queue.tail + 1 = n ∧ e.before.ring.head = 0

/-! ### The invariant -/

structure SubmissionOk (n : ℕ) (s : SubmissionSystem) : Prop where
  entryCount_eq : s.ring.queue.entryCount = n
  deviceSize_eq : s.ring.deviceSize = n
  tail_eq : s.ring.queue.tail = s.submitted % n
  doorbell_eq : s.ring.tailDoorbell = s.submitted % n
  head_eq : s.ring.head = s.acknowledged % n
  acknowledged_le : s.acknowledged ≤ s.ring.fetched
  fetched_le : s.ring.fetched ≤ s.submitted
  bounded : s.submitted ≤ s.acknowledged + (n - 1)
  reported_sorted : (s.acknowledged :: s.reported).Pairwise (· ≤ ·)
  reported_le : ∀ k ∈ s.reported, k ≤ s.ring.fetched
  command_ok : ∀ cmd ∈ s.ring.command, cmd.newTail = (s.submitted + 1) % n ∧
    s.submitted + 1 ≤ s.acknowledged + (n - 1)

section

variable {n : ℕ} {s s' : SubmissionSystem} {o : SubmissionOutcome}

lemma submissionOk_new (id : QueueId) : SubmissionOk n (.new id n) where
  entryCount_eq := rfl
  deviceSize_eq := rfl
  tail_eq := (zero_mod n).symm
  doorbell_eq := (zero_mod n).symm
  head_eq := (zero_mod n).symm
  acknowledged_le := le_refl 0
  fetched_le := le_refl 0
  bounded := zero_le _
  reported_sorted := pairwise_singleton _ _
  reported_le := nofun
  command_ok := nofun

namespace SubmissionOk

variable (h : SubmissionOk n s)
include h

lemma tail_lt (hn : 0 < n) : s.ring.queue.tail < n := by
  rw [h.tail_eq]
  exact mod_lt _ hn

lemma full_eq (hn : 0 < n) (hn' : n < 2 ^ 16) :
    s.ring.queue.full s.ring.head = .ok (s.ring.head = s.ring.queue.tail + 1) := by
  have hlt := h.tail_lt hn
  have hadd : checkedAdd16 s.ring.queue.tail 1 = .ok (s.ring.queue.tail + 1) :=
    checkedAdd16_eq_ok.mpr ⟨by omega, rfl⟩
  rw [SubmissionQueue.full, hadd]
  rfl

lemma begin_eq (hn : 0 < n) (hn' : n < 2 ^ 16) :
    s.ring.queue.begin s.ring.head = .ok (if s.ring.head = s.ring.queue.tail + 1 then none
      else some ⟨(s.submitted + 1) % n, s.submitted % n⟩) := by
  have hlt := h.tail_lt hn
  have hadd : checkedAdd16 s.ring.queue.tail 1 = .ok (s.ring.queue.tail + 1) :=
    checkedAdd16_eq_ok.mpr ⟨by omega, rfl⟩
  rw [SubmissionQueue.begin, h.full_eq hn hn']
  by_cases hfull : s.ring.head = s.ring.queue.tail + 1
  · rw [if_pos hfull, decide_eq_true hfull]
    rfl
  · rw [if_neg hfull, decide_eq_false hfull, hadd]
    change Except.ok (some (Command.mk ((s.ring.queue.tail + 1) % s.ring.queue.entryCount)
      s.ring.queue.tail)) = _
    rw [h.entryCount_eq, h.tail_eq, mod_add_mod]

lemma full_iff (hn : 2 ≤ n) :
    s.submitted = s.acknowledged + (n - 1) ↔ (s.submitted + 1) % n = s.ring.head := by
  have hle := h.acknowledged_le.trans h.fetched_le
  have hbdd := h.bounded
  rw [h.head_eq]
  constructor
  · intro hfull
    have hnext : s.submitted + 1 = s.acknowledged + n := by omega
    rw [hnext, add_mod_right]
  · intro hslot
    by_contra hnot
    have heq := eq_of_slot_eq hslot.symm (by omega) (by omega)
    omega

end SubmissionOk

lemma SubmissionOk.head_eq_tail_iff (h : SubmissionOk n s) (hn : 2 ≤ n)
    (hnot : ¬ (s.ring.queue.tail + 1 = n ∧ s.ring.head = 0)) :
    s.ring.head = s.ring.queue.tail + 1 ↔ s.submitted = s.acknowledged + (n - 1) := by
  have hlt := h.tail_lt (by omega)
  rw [h.full_iff hn, slot_succ (by omega), ← h.tail_eq]
  split_ifs with hwrap
  · have hlast : s.ring.queue.tail + 1 = n := by omega
    have hhead : s.ring.head < n := by
      rw [h.head_eq]
      exact mod_lt _ (by omega)
    constructor
    · intro heq
      omega
    · intro hzero
      exact absurd ⟨hlast, hzero.symm⟩ hnot
  · exact eq_comm

/-! ### One act -/

lemma roomKept_of_not_begun {a : Act} (hs' : SubmissionOk n s')
    (hpan : o ≠ .panicked) (hbeg : ∀ r, o ≠ .begun r) : RoomKept n ⟨a, o, s, s'⟩ :=
  ⟨hpan, hs'.bounded, fun r hr => absurd hr (hbeg r), fun _ hr => absurd hr (hbeg _)⟩

lemma SubmissionOk.begin_ok (h : SubmissionOk n s) (hn : 2 ≤ n) (hn' : n < 2 ^ 16)
    (hnot : ¬ (s.ring.queue.tail + 1 = n ∧ s.ring.head = 0))
    (hstep : step (.ring .begin) s = some (o, s')) :
    SubmissionOk n s' ∧ RoomKept n ⟨.ring .begin, o, s, s'⟩ := by
  have hiff := h.head_eq_tail_iff hn hnot
  have hbeg := h.begin_eq (by omega) hn'
  have hle := h.acknowledged_le.trans h.fetched_le
  have hbdd := h.bounded
  rw [step, SubmissionRing.step] at hstep
  cases hcmd : s.ring.command with
  | some cmd =>
    rw [hcmd] at hstep
    cases hstep
  | none =>
    by_cases hfull : s.ring.head = s.ring.queue.tail + 1
    · rw [hcmd, hbeg, if_pos hfull] at hstep
      cases hstep
      refine ⟨h, nofun, h.bounded, fun r hr => ?_, nofun⟩
      cases hr
      exact iff_of_true rfl (hiff.mp hfull)
    · rw [hcmd, hbeg, if_neg hfull] at hstep
      cases hstep
      have hroom := mt hiff.mpr hfull
      refine ⟨{ h with command_ok := ?_ }, nofun, h.bounded, fun r hr => ?_,
        fun slot hr k hk hlt hslot => ?_⟩
      · rintro cmd ⟨⟩
        exact ⟨rfl, by change s.submitted + 1 ≤ s.acknowledged + (n - 1); omega⟩
      · cases hr
        exact iff_of_false nofun hroom
      · cases hr
        -- a pending command in the slot would be a whole pass behind
        have hack : s.acknowledged ≤ k := h.acknowledged_le.trans hk
        have heq := eq_of_slot_eq hslot hlt.le (by omega)
        exact absurd heq hlt.ne

lemma SubmissionOk.begin_at_end (h : SubmissionOk n s) (hn : 2 ≤ n) (hn' : n < 2 ^ 16)
    (htail : s.ring.queue.tail + 1 = n) (hhead : s.ring.head = 0)
    (hstep : step (.ring .begin) s = some (o, s')) :
    ¬ RoomKept n ⟨.ring .begin, o, s, s'⟩ := by
  intro hkept
  have hbeg := h.begin_eq (by omega) hn'
  have hfull : s.submitted = s.acknowledged + (n - 1) := by
    rw [h.full_iff hn, slot_succ (by omega), ← h.tail_eq, if_pos htail.ge, hhead]
  rw [step, SubmissionRing.step] at hstep
  cases hcmd : s.ring.command with
  | some cmd =>
    rw [hcmd] at hstep
    cases hstep
  | none =>
    rw [hcmd, hbeg, if_neg (by omega)] at hstep
    cases hstep
    exact absurd ((hkept.none_iff _ rfl).mpr hfull) nofun

lemma SubmissionOk.act {a : Act} (h : SubmissionOk n s)
    (ha : a ≠ .ring .begin) (hstep : step a s = some (o, s')) :
    SubmissionOk n s' ∧ o ≠ .panicked ∧ ∀ r, o ≠ .begun r := by
  have hle := h.acknowledged_le
  have hle' := h.fetched_le
  cases a with
  | ring a =>
    cases a with
    | begin => exact absurd rfl ha
    | fetch =>
      obtain ⟨⟨o', ring⟩, hring, hret⟩ := map_eq_some_iff.mp hstep
      rw [SubmissionRing.step] at hring
      split_ifs at hring with hemp
      rw [h.deviceSize_eq, h.doorbell_eq] at hemp
      cases hring
      cases hret
      have hlt : s.ring.fetched < s.submitted := lt_of_le_of_ne hle' fun heq =>
        hemp (congrArg (· % n) heq)
      exact ⟨{ h with
        acknowledged_le := hle.trans (le_succ _)
        fetched_le := hlt
        reported_le := fun k hk => (h.reported_le k hk).trans (le_succ _) }, nofun, nofun⟩
    | write w =>
      obtain ⟨⟨o', ring⟩, hring, hret⟩ := map_eq_some_iff.mp hstep
      obtain ⟨cmd, hcom, hcmd⟩ := map_eq_some_iff.mp hring
      cases hcmd
      cases hret
      exact ⟨{ h with }, nofun, nofun⟩
    | submit =>
      obtain ⟨⟨o', ring⟩, hring, hret⟩ := map_eq_some_iff.mp hstep
      obtain ⟨cmd, hcom, hcmd⟩ := map_eq_some_iff.mp hring
      cases hcmd
      cases hret
      obtain ⟨hnew, hroom⟩ := h.command_ok cmd hcom
      exact ⟨{ h with
        tail_eq := hnew
        doorbell_eq := hnew
        fetched_le := hle'.trans (le_succ _)
        bounded := hroom
        command_ok := nofun }, nofun, nofun⟩
    | abandon =>
      obtain ⟨⟨o', ring⟩, hring, hret⟩ := map_eq_some_iff.mp hstep
      obtain ⟨cmd, hcom, hcmd⟩ := map_eq_some_iff.mp hring
      cases hcmd
      cases hret
      exact ⟨{ h with command_ok := nofun }, nofun, nofun⟩
  | report =>
    cases hstep
    refine ⟨{ h with reported_sorted := ?_, reported_le := ?_ }, nofun, nofun⟩
    · rw [← cons_append, pairwise_append]
      refine ⟨h.reported_sorted, pairwise_singleton _ _, fun k hk k' hk' => ?_⟩
      rw [mem_singleton.mp hk']
      rcases mem_cons.mp hk with rfl | hk
      · exact hle
      · exact h.reported_le k hk
    · intro k hk
      rcases mem_append.mp hk with hk | hk
      · exact h.reported_le k hk
      · exact (mem_singleton.mp hk).le
  | pop =>
    rw [step] at hstep
    cases hrep : s.reported with
    | nil =>
      rw [hrep] at hstep
      cases hstep
    | cons k reported =>
      rw [hrep] at hstep
      cases hstep
      have hsort := h.reported_sorted
      have hreported_le := h.reported_le
      rw [hrep] at hsort hreported_le
      have hk : s.acknowledged ≤ k := rel_of_pairwise_cons hsort mem_cons_self
      refine ⟨⟨h.entryCount_eq, h.deviceSize_eq, h.tail_eq, h.doorbell_eq, ?_,
        hreported_le k mem_cons_self, hle', ?_, hsort.tail,
        fun k' hk' => hreported_le k' (.tail _ hk'), fun cmd hcmd => ?_⟩, nofun, nofun⟩
      · exact congrArg (k % ·) h.deviceSize_eq
      · exact h.bounded.trans (Nat.add_le_add_right hk _)
      · obtain ⟨hnew, hroom⟩ := h.command_ok cmd hcmd
        exact ⟨hnew, hroom.trans (Nat.add_le_add_right hk _)⟩

lemma SubmissionOk.call {a : Act} (h : SubmissionOk n s) (hn : 2 ≤ n)
    (hn' : n < 2 ^ 16) (hstep : step a s = some (o, s')) :
    ¬ BeginsAtEnd n ⟨a, o, s, s'⟩ ∧ SubmissionOk n s' ∧ RoomKept n ⟨a, o, s, s'⟩ ∨
      BeginsAtEnd n ⟨a, o, s, s'⟩ ∧ ¬ RoomKept n ⟨a, o, s, s'⟩ := by
  by_cases hend : BeginsAtEnd n ⟨a, o, s, s'⟩
  · obtain ⟨rfl, htail, hhead⟩ := id hend
    exact .inr ⟨hend, h.begin_at_end hn hn' htail hhead hstep⟩
  · refine .inl ⟨hend, ?_⟩
    by_cases ha : a = .ring .begin
    · subst ha
      exact h.begin_ok hn hn' (fun hboth => hend ⟨rfl, hboth⟩) hstep
    · obtain ⟨hs', hpan, hbeg⟩ := h.act ha hstep
      exact ⟨hs', roomKept_of_not_begun hs' hpan hbeg⟩

/-- The queue never holds more commands than there is room for, and `begin` fails exactly when it is
full and never hands out the slot of a command that the device has not fetched, as long as no
command is begun in the last slot while the reported head is the first one. -/
theorem roomKept_iff_not_beginsAtEnd (hn : 2 ≤ n) (hn' : n < 2 ^ 16) {id : QueueId}
    {events : List SubmissionEvent} (hrun : Run step (.new id n) events s) :
    (∀ e ∈ events, RoomKept n e) ↔ ∀ e ∈ events, ¬ BeginsAtEnd n e := by
  refine hrun.forall_iff (submissionOk_new id) (fun a s o s' h hstep hok => ?_)
    fun a s o s' h hstep => ?_
  · rcases h.call hn hn' hstep with ⟨-, hs', -⟩ | ⟨hend, -⟩
    · exact hs'
    · exact absurd hend hok
  · rcases h.call hn hn' hstep with ⟨hend, -, hkept⟩ | ⟨hend, hnot⟩
    · exact iff_of_true hkept hend
    · exact iff_of_false hnot fun hnot' => hnot' hend

end

instance (n : ℕ) (e : SubmissionEvent) : Decidable (BeginsAtEnd n e) :=
  match e with
  | ⟨.ring .begin, _, s, _⟩ =>
    decidable_of_iff (s.ring.queue.tail + 1 = n ∧ s.ring.head = 0)
      ⟨fun h => ⟨rfl, h⟩, fun h => h.2⟩
  | ⟨.ring (.write _), _, _, _⟩ | ⟨.ring .submit, _, _, _⟩ | ⟨.ring .abandon, _, _, _⟩
  | ⟨.ring .fetch, _, _, _⟩ | ⟨.report, _, _, _⟩ | ⟨.pop, _, _, _⟩ => .isFalse nofun

theorem roomKept_iff_not_beginsAtEnd_two :
    ∃ events s, Run step (.new 1 2) events s ∧ s.submitted = 1 ∧
      ∀ e ∈ events, RoomKept 2 e := by
  obtain ⟨events, s, hrun, hsub, hends⟩ := Run.exists_of_execute step
    (.new 1 2) [.ring .fetch, .ring .submit, .ring .begin]
    (Q := fun events s => s.submitted = 1 ∧ ∀ e ∈ events, ¬ BeginsAtEnd 2 e) (by decide +kernel)
  exact ⟨events, s, hrun, hsub,
    (roomKept_iff_not_beginsAtEnd (by decide) (by decide) hrun).mpr hends⟩

/-- In a ring of two entries, two commands are submitted and the third one is begun in the slot of
the first one, which the device has not fetched. -/
theorem begin_overwrites_pending :
    ∃ events s, Run step (.new 1 2) events s ∧ s.ring.fetched = 0 ∧
      s.submitted = 2 ∧ s.ring.command.map (·.slot) = some 0 ∧ ∃ e ∈ events, ¬ RoomKept 2 e := by
  obtain ⟨events, s, hrun, hfet, hsub, hslot, e, he, hbeg, hbef, hpend⟩ :=
    Run.exists_of_execute step (.new 1 2)
    [.ring .begin, .ring .submit, .ring .begin, .ring .submit, .ring .begin]
    (Q := fun events s => s.ring.fetched = 0 ∧ s.submitted = 2 ∧
      s.ring.command.map (·.slot) = some 0 ∧
      ∃ e ∈ events, e.result = .begun (some 0) ∧ e.before.ring.fetched = 0 ∧
        0 < e.before.submitted)
    (by decide +kernel)
  refine ⟨events, s, hrun, hfet, hsub, hslot, e, he, fun hkept => ?_⟩
  exact hkept.slot_free 0 hbeg 0 hbef.le hpend rfl

end Kernel.Storage.Nvme
