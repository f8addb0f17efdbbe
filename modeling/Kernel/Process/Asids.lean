import Kernel.Core.Checked
import Kernel.Core.Runs

/-!
# The address space identifiers of the processes

`spawn_process` takes the next number of a counter as the ID of a process, and the lower half of it
as the ASID.
-/

namespace Kernel.Process

open Core List

structure SpawnedProcess where
  id : BitVec 32
  asid : BitVec 16
  deriving DecidableEq

structure ProcessTable where
  nextPid : BitVec 32
  spawning : List SpawnedProcess
  processes : List SpawnedProcess
  deriving DecidableEq

def kernelAsid : BitVec 16 := 0

inductive ProcessCall where
  | takePid
  | fail (i : ℕ)
  | push (i : ℕ)
  | exit (id : BitVec 32)

namespace ProcessTable

def boot : ProcessTable := ⟨1, [], []⟩

def takePid (t : ProcessTable) : Checked (BitVec 32 × ProcessTable) :=
  if t.nextPid = 0 then .error .assertion
  else .ok (t.nextPid, { t with
    nextPid := t.nextPid + 1
    spawning := t.spawning ++ [⟨t.nextPid, t.nextPid.setWidth 16⟩] })

def step (c : ProcessCall) (t : ProcessTable) : Option (Option (BitVec 32) × ProcessTable) :=
  match c with
  | .takePid => t.takePid.toOption.map fun (id, t) => (some id, t)
  | .fail i => some (none, { t with spawning := t.spawning.eraseIdx i })
  | .push i => t.spawning[i]?.map fun p =>
      (none, { t with spawning := t.spawning.eraseIdx i, processes := p :: t.processes })
  | .exit id => some (none, { t with processes := t.processes.eraseP (·.id = id) })

abbrev SpawnEvent := Event ProcessTable ProcessCall (Option (BitVec 32))

def AsidsDistinct (t : ProcessTable) : Prop :=
  kernelAsid ∉ t.processes.map SpawnedProcess.asid ∧
    (t.processes.map SpawnedProcess.asid).Nodup

def NumbersApart (e : SpawnEvent) : Prop :=
  ∀ i p, e.call = .push i → e.before.spawning[i]? = some p →
    p.id.toNat % 65536 ≠ 0 ∧ ∀ p' ∈ e.before.processes, p'.id.toNat % 65536 ≠ p.id.toNat % 65536

variable {t t' : ProcessTable} {events : List SpawnEvent} {c : ProcessCall}
  {r : Option (BitVec 32)}

lemma step_cases (h : step c t = some (r, t')) :
    (c = .takePid ∧ t.nextPid ≠ 0 ∧ r = some t.nextPid ∧ t' = { t with
      nextPid := t.nextPid + 1
      spawning := t.spawning ++ [⟨t.nextPid, t.nextPid.setWidth 16⟩] }) ∨
    (∃ i, c = .fail i ∧ r = none ∧ t' = { t with spawning := t.spawning.eraseIdx i }) ∨
    (∃ i p, c = .push i ∧ t.spawning[i]? = some p ∧ r = none ∧
      t' = { t with spawning := t.spawning.eraseIdx i, processes := p :: t.processes }) ∨
    ∃ id, c = .exit id ∧ r = none ∧
      t' = { t with processes := t.processes.eraseP (·.id = id) } := by
  cases c with
  | takePid =>
    left
    rw [step, takePid] at h
    split_ifs at h with hzero
    · cases h
    · cases h
      exact ⟨rfl, hzero, rfl, rfl⟩
  | fail i =>
    cases h
    exact .inr (.inl ⟨i, rfl, rfl, rfl⟩)
  | push i =>
    rw [step, Option.map_eq_some_iff] at h
    obtain ⟨p, hp, heq⟩ := h
    cases heq
    exact .inr (.inr (.inl ⟨i, p, rfl, hp, rfl, rfl⟩))
  | exit id =>
    cases h
    exact .inr (.inr (.inr ⟨id, rfl, rfl, rfl⟩))

/-! ### The numbers of the processes -/

lemma history_of_run (hrun : Core.Run step boot events t) :
    ∃ k < 2 ^ 32, t.nextPid = BitVec.ofNat 32 (k + 1) ∧
      history id events = (List.range k).map fun n => BitVec.ofNat 32 (n + 1) := by
  induction hrun with
  | nil => exact ⟨0, by norm_num, rfl, rfl⟩
  | @call events t c r t' hrun hstep ih =>
    obtain ⟨k, hk, hnext, hhis⟩ := ih
    obtain ⟨-, hne, rfl, rfl⟩ | ⟨i, -, rfl, rfl⟩ | ⟨i, p, -, -, rfl, rfl⟩ | ⟨id, -, rfl, rfl⟩ :=
      step_cases hstep
    · have hlt : k + 1 < 2 ^ 32 := by
        by_contra hge
        obtain rfl : k = 2 ^ 32 - 1 := by omega
        exact hne hnext
      refine ⟨k + 1, hlt, ?_, ?_⟩
      · simp only [hnext]
        exact (BitVec.ofNat_add (k + 1) 1).symm
      · rw [history_cons_some (f := id) (a := t.nextPid) rfl, hhis, range_succ, map_append, hnext]
        rfl
    · exact ⟨k, hk, hnext, by rw [history_cons_none rfl, hhis]⟩
    · exact ⟨k, hk, hnext, by rw [history_cons_none rfl, hhis]⟩
    · exact ⟨k, hk, hnext, by rw [history_cons_none rfl, hhis]⟩

def AsidsTruncated (t : ProcessTable) : Prop :=
  ∀ p, p ∈ t.spawning ∨ p ∈ t.processes → p.asid = p.id.setWidth 16

lemma AsidsTruncated.step (h : t.AsidsTruncated) (hstep : step c t = some (r, t')) :
    t'.AsidsTruncated := by
  obtain ⟨-, -, -, rfl⟩ | ⟨i, -, -, rfl⟩ | ⟨i, p, -, hp, -, rfl⟩ | ⟨id, -, -, rfl⟩ :=
    step_cases hstep
  · rintro p (hp | hp)
    · rcases mem_append.mp hp with hp | hp
      · exact h p (.inl hp)
      · cases mem_singleton.mp hp
        rfl
    · exact h p (.inr hp)
  · rintro p (hp | hp)
    · exact h p (.inl (mem_of_mem_eraseIdx hp))
    · exact h p (.inr hp)
  · rintro p' (hp' | hp')
    · exact h p' (.inl (mem_of_mem_eraseIdx hp'))
    · rcases mem_cons.mp hp' with rfl | hp'
      · exact h p' (.inl (mem_of_getElem? hp))
      · exact h p' (.inr hp')
  · rintro p (hp | hp)
    · exact h p (.inl hp)
    · exact h p (.inr (mem_of_mem_eraseP hp))

lemma asid_eq_iff {p p' : SpawnedProcess} (h : p.asid = p.id.setWidth 16)
    (h' : p'.asid = p'.id.setWidth 16) :
    p.asid = p'.asid ↔ p.id.toNat % 65536 = p'.id.toNat % 65536 := by
  rw [h, h', ← BitVec.toNat_inj]
  simp

lemma asid_eq_kernel_iff {p : SpawnedProcess} (h : p.asid = p.id.setWidth 16) :
    p.asid = kernelAsid ↔ p.id.toNat % 65536 = 0 := by
  rw [h, kernelAsid, ← BitVec.toNat_inj]
  simp

lemma numbersApart_push_iff {i : ℕ} {p : SpawnedProcess} (hp : t.spawning[i]? = some p) :
    NumbersApart ⟨.push i, r, t, t'⟩ ↔ p.id.toNat % 65536 ≠ 0 ∧
      ∀ p' ∈ t.processes, p'.id.toNat % 65536 ≠ p.id.toNat % 65536 := by
  constructor
  · intro hap
    exact hap i p rfl hp
  · rintro hap j p' hj hp'
    cases hj
    rw [hp] at hp'
    cases hp'
    exact hap

lemma asidsDistinct_step_iff (h : t.AsidsDistinct) (htru : t.AsidsTruncated)
    (hstep : step c t = some (r, t')) :
    t'.AsidsDistinct ↔ NumbersApart ⟨c, r, t, t'⟩ := by
  obtain ⟨rfl, -, -, rfl⟩ | ⟨i, rfl, -, rfl⟩ | ⟨i, p, rfl, hp, -, rfl⟩ | ⟨id, rfl, -, rfl⟩ :=
    step_cases hstep
  · exact iff_of_true h nofun
  · exact iff_of_true h nofun
  · have hptr := htru p (.inl (mem_of_getElem? hp))
    rw [numbersApart_push_iff hp, AsidsDistinct, map_cons, mem_cons, not_or,
      nodup_cons, and_iff_left h.1, and_iff_left h.2, eq_comm, asid_eq_kernel_iff hptr]
    refine and_congr_right fun _ => ?_
    rw [mem_map, not_exists]
    refine forall_congr' fun p' => ?_
    rw [not_and]
    refine imp_congr_right fun hp' => ?_
    rw [Ne, asid_eq_iff (htru p' (.inr hp')) hptr]
  · have hsub := (eraseP_sublist (p := fun p : SpawnedProcess => decide (p.id = id))
      (l := t.processes)).map SpawnedProcess.asid
    exact iff_of_true ⟨fun hmem => h.1 (hsub.subset hmem), h.2.sublist hsub⟩ nofun

/-- The processes have the numbers 1, 2, 3, … in the order in which they take their IDs. In a run of
spawns and exits, the ASIDs of the live processes are always distinct exactly if no process enters
the table with a number that is a multiple of 65536, or that differs from the number of a live
process by one. -/
theorem asids_distinct_iff (hrun : Core.Run step boot events t) :
    (∃ k < 2 ^ 32, history id events = (List.range k).map fun n => BitVec.ofNat 32 (n + 1)) ∧
      ((∀ e ∈ events, e.after.AsidsDistinct) ↔ ∀ e ∈ events, NumbersApart e) := by
  constructor
  · obtain ⟨k, hk, -, hhis⟩ := history_of_run hrun
    exact ⟨k, hk, hhis⟩
  · refine hrun.forall_iff (I := fun t => t.AsidsDistinct ∧ t.AsidsTruncated) ?_ ?_ ?_
    · exact ⟨⟨not_mem_nil, nodup_nil⟩, by simp [AsidsTruncated, boot]⟩
    · intro c t r t' ⟨hdis, htru⟩ hstep hap
      exact ⟨(asidsDistinct_step_iff hdis htru hstep).mpr hap, htru.step hstep⟩
    · intro c t r t' ⟨hdis, htru⟩ hstep
      exact asidsDistinct_step_iff hdis htru hstep

/-- Two processes are spawned and the first one exits. -/
theorem asids_distinct_two :
    ∃ events t, Core.Run step boot events t ∧ t.processes = [⟨2, 2⟩] ∧
      ∀ e ∈ events, e.after.AsidsDistinct := by
  have hrun : Core.Run step boot _ _ :=
    Core.Run.nil
      |>.call (c := .takePid) rfl |>.call (c := .takePid) rfl |>.call (c := .push 0) rfl
      |>.call (c := .push 0) rfl |>.call (c := .exit 1) rfl
  refine ⟨_, _, hrun, rfl, (asids_distinct_iff hrun).2.mpr ?_⟩
  simp only [forall_mem_cons]
  exact ⟨by simp [NumbersApart], (numbersApart_push_iff rfl).mpr (by decide),
    (numbersApart_push_iff rfl).mpr (by decide), by simp [NumbersApart],
    by simp [NumbersApart], by simp⟩

/-! ### Long runs -/

lemma run_spawn {ps : List SpawnedProcess} {n : ℕ} (hpos : 0 < n) (hlt : n < 2 ^ 32)
    (hrun : Core.Run step boot events ⟨BitVec.ofNat 32 n, [], ps⟩) :
    ∃ events', Core.Run step boot events' ⟨BitVec.ofNat 32 (n + 1), [],
      ⟨BitVec.ofNat 32 n, BitVec.ofNat 16 n⟩ :: ps⟩ := by
  have hne : BitVec.ofNat 32 n ≠ 0 := by
    intro hzero
    have hnat := congrArg BitVec.toNat hzero
    rw [BitVec.toNat_ofNat, Nat.mod_eq_of_lt hlt] at hnat
    exact hpos.ne' hnat
  have hasid : (BitVec.ofNat 32 n).setWidth 16 = BitVec.ofNat 16 n := by
    apply BitVec.eq_of_toNat_eq
    simp
  have htake : step .takePid ⟨BitVec.ofNat 32 n, [], ps⟩ =
      some (some (BitVec.ofNat 32 n), ⟨BitVec.ofNat 32 (n + 1),
        [⟨BitVec.ofNat 32 n, BitVec.ofNat 16 n⟩], ps⟩) := by
    rw [step, takePid, if_neg hne, hasid, BitVec.ofNat_add n 1]
    rfl
  exact ⟨_, (hrun.call htake).call (c := .push 0) rfl⟩

lemma run_rounds {ps : List SpawnedProcess} {n : ℕ} (hpos : 0 < n)
    (hrun : Core.Run step boot events ⟨BitVec.ofNat 32 n, [], ps⟩) (k : ℕ) (hlt : n + k < 2 ^ 32) :
    ∃ events', Core.Run step boot events' ⟨BitVec.ofNat 32 (n + k), [], ps⟩ := by
  induction k with
  | zero => exact ⟨events, hrun⟩
  | succ k ih =>
    obtain ⟨events₁, hrun₁⟩ := ih (by omega)
    obtain ⟨events₂, hrun₂⟩ := run_spawn (by omega) (by omega) hrun₁
    refine ⟨_, hrun₂.call (c := .exit (BitVec.ofNat 32 (n + k))) (r := none) ?_⟩
    simp [step, add_assoc]

/-- The process number 65536 has the ASID of the kernel, and the process number 65537 has the ASID
of the first one, which may still be live. -/
theorem asids_collide :
    (∃ events t, Core.Run step boot events t ∧ kernelAsid ∈ t.processes.map SpawnedProcess.asid) ∧
      ∃ events t, Core.Run step boot events t ∧ t.processes = [⟨65537, 1⟩, ⟨1, 1⟩] := by
  constructor
  · obtain ⟨events, hrun⟩ := run_rounds (n := 1) (by decide) .nil 65535 (by decide)
    obtain ⟨events', hrun'⟩ := run_spawn (by decide) (by decide) hrun
    exact ⟨events', _, hrun', mem_cons_self⟩
  · obtain ⟨events₁, hrun₁⟩ := run_spawn (n := 1) (by decide) (by decide) .nil
    obtain ⟨events₂, hrun₂⟩ := run_rounds (by decide) hrun₁ 65535 (by decide)
    obtain ⟨events₃, hrun₃⟩ := run_spawn (by decide) (by decide) hrun₂
    exact ⟨events₃, _, hrun₃, rfl⟩

end ProcessTable

end Kernel.Process
