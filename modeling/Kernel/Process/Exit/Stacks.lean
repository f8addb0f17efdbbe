import Kernel.Process.Exit.State
import Kernel.Process.Regions

/-!
# The stacks of threads that exit

`Thread::exit` frees the stack of its thread. The thread itself calls it, the task that handles its
page fault, and `kill_process`.
-/

set_option linter.dupNamespace false

namespace Kernel.Process

open Core Action Memory Kapi ProcessM List Function Nat
open VirtualAddressAllocator (Allocation)

structure StackThread where
  id : BitVec 32
  stackStart : ℕ
  stackPageCount : ℕ
  deriving DecidableEq

def StackThread.stack (t : StackThread) : Allocation := ⟨t.stackStart, t.stackPageCount⟩

structure ProcessExits where
  state : ProcessState
  objects : List StackThread
  threads : List ℕ
  running : List ℕ
  faults : List ℕ
  kills : List (List ℕ)
  exitStates : ℕ → ExitState
  exitState : ExitState

open ProcessExits

inductive ExitCause where
  | exitCall (k : ℕ) (code : BitVec 16)
  | pageFault (k : ℕ)
  | onPageFault (k : ℕ)
  | killProcess
  | killNext (i : ℕ)
  deriving DecidableEq

namespace ProcessExits

def leave (k : ℕ) (code : ThreadExit) (t : StackThread) (state : ProcessState)
    (s : ProcessExits) : ProcessExits :=
  let threads := s.threads.filter fun j => s.objects[j]?.map (·.id) ≠ some t.id
  { s with
    state
    threads
    running := s.running.filter (· ≠ k)
    exitStates := update s.exitStates k ((s.exitStates k).set code).2
    exitState := if threads.isEmpty then (s.exitState.set code).2 else s.exitState }

def exit (k : ℕ) (code : ThreadExit) (s : ProcessExits) : Option ProcessExits :=
  s.objects[k]?.bind fun t =>
    match freeMemory t.stackStart t.stackPageCount s.state with
    | (.ok _, state) => some (s.leave k code t state)
    | (.error _, _) => none

def step : ExitCause → ProcessExits → Option (Option (ℕ × ThreadExit) × ProcessExits)
  | .exitCall k code, s =>
    if k ∈ s.running then (s.exit k (.normal code)).map (some (k, .normal code), ·) else none
  | .pageFault k, s =>
    if k ∈ s.running then
      some (none, { s with running := s.running.filter (· ≠ k), faults := s.faults ++ [k] })
    else none
  | .onPageFault k, s =>
    if k ∈ s.faults then
      ({ s with faults := s.faults.erase k }.exit k .pageFault).map (some (k, .pageFault), ·)
    else none
  | .killProcess, s => some (none, { s with kills := s.kills ++ [s.threads] })
  | .killNext i, s =>
    match s.kills[i]? with
    | some (k :: rest) =>
      ({ s with kills := s.kills.set i rest }.exit k .killed).map (some (k, .killed), ·)
    | _ => none

def spawnThread (kt : PageTable) (id : BitVec 32) (stackSize : ℕ) (s : ProcessExits) :
    Option ProcessExits :=
  let stackPageCount := divCeil stackSize pageSize
  if stackSize = 0 then none
  else
    match allocMemory kt stackPageCount false s.state with
    | (.ok (stackStart, _), state) =>
      some { s with
        state
        objects := s.objects ++ [⟨id, stackStart, stackPageCount⟩]
        threads := s.threads ++ [s.objects.length]
        running := s.running ++ [s.objects.length] }
    | (.error _, _) => none

end ProcessExits

abbrev StackEvent := Core.Event ProcessExits ExitCause (Option (ℕ × ThreadExit))

def codesOf (events : List StackEvent) (k : ℕ) : List ThreadExit :=
  history (fun exit => exit.bind fun (j, code) => if j = k then some code else none) events

def ReturnsPage (e : StackEvent) (a : ℕ) : Prop :=
  ∃ k code t, e.result = some (k, code) ∧ e.before.objects[k]? = some t ∧ ∃ x, HasPage t.stack x ∧
    e.before.state.proc.pageTables.frame e.before.state.memory x = some a

structure FreesPages (e : StackEvent) : Prop where
  freed : ∀ i, ReturnsPage e (e.before.state.memory.pma.pageAddress i) →
    e.before.state.memory.pma.allocatedPages[i]? = some true ∧
      e.after.state.memory.pma.allocatedPages[i]? = some false
  kept : ∀ i, ¬ ReturnsPage e (e.before.state.memory.pma.pageAddress i) →
    e.after.state.memory.pma.allocatedPages[i]? = e.before.state.memory.pma.allocatedPages[i]?

structure Launched (kt : PageTable) (users : List PageTable) (lo hi : ℕ)
    (others : List Allocation) (s : ProcessExits) : Prop where
  owns : Owns kt users lo hi s.state (s.objects.map StackThread.stack ++ others)
  pos : ∀ t ∈ s.objects, 0 < t.stackPageCount
  fresh : ∀ k, (s.exitStates k).code = none

/-! ### One step -/

section step

variable {kt : PageTable} {users : List PageTable} {lo hi : ℕ} {others : List Allocation}
  {s₀ s s' : ProcessExits} {events : List StackEvent} {k : ℕ} {code : ThreadExit} {t : StackThread}

inductive ExitStepped (s : ProcessExits) : Option (ℕ × ThreadExit) → ProcessExits → Prop where
  | none {s' : ProcessExits} (hstate : s'.state = s.state) (hobjects : s'.objects = s.objects)
      (hexits : s'.exitStates = s.exitStates) : ExitStepped s none s'
  | exit {s' : ProcessExits} (k : ℕ) (code : ThreadExit) (t : StackThread)
      (ht : s.objects[k]? = some t)
      (hfree : freeMemory t.stackStart t.stackPageCount s.state = (.ok (), s'.state))
      (hobjects : s'.objects = s.objects)
      (hexits : s'.exitStates = update s.exitStates k ((s.exitStates k).set code).2) :
      ExitStepped s (some (k, code)) s'

variable {o : Option (ℕ × ThreadExit)}

lemma exitStepped_of_exit {u : ProcessExits}
    (h : (u.exit k code).map (some (k, code), ·) = some (o, s')) (hsta : u.state = s.state)
    (hobj : u.objects = s.objects) (hex : u.exitStates = s.exitStates) :
    ExitStepped s o s' := by
  obtain ⟨s₁, hexit, heq⟩ := Option.map_eq_some_iff.mp h
  cases heq
  obtain ⟨t, ht, hexit⟩ := Option.bind_eq_some_iff.mp hexit
  split at hexit
  next state hfree =>
    cases hexit
    rw [hobj] at ht
    rw [hsta] at hfree
    refine .exit k code t ht hfree hobj ?_
    rw [← hex]
    rfl
  next => cases hexit

lemma exitStepped_of_step {a : ExitCause}
    (h : step a s = some (o, s')) : ExitStepped s o s' := by
  cases a with
  | exitCall k code | onPageFault k =>
    obtain ⟨-, h⟩ := Option.ite_none_right_eq_some.mp h
    exact exitStepped_of_exit h rfl rfl rfl
  | pageFault k =>
    obtain ⟨-, h⟩ := Option.ite_none_right_eq_some.mp h
    cases h
    exact .none rfl rfl rfl
  | killProcess =>
    cases h
    exact .none rfl rfl rfl
  | killNext i =>
    rw [step] at h
    split at h
    next => exact exitStepped_of_exit h rfl rfl rfl
    next => cases h

variable {e : StackEvent} {a : ℕ}

lemma returnsPage_iff (he : e.result = some (k, code))
    (ht : e.before.objects[k]? = some t) :
    ReturnsPage e a ↔ ∃ x, HasPage t.stack x ∧
      e.before.state.proc.pageTables.frame e.before.state.memory x = some a := by
  constructor
  · rintro ⟨k', code', t', he', ht', hpage⟩
    cases he.symm.trans he'
    cases ht.symm.trans ht'
    exact hpage
  · exact fun hpage => ⟨k, code, t, he, ht, hpage⟩

lemma not_returnsPage_of_none (he : e.result = none) :
    ¬ ReturnsPage e a := by
  rintro ⟨k, code, t, he', -⟩
  cases he.symm.trans he'

/-! ### The invariant -/

structure StacksOk (kt : PageTable) (users : List PageTable) (lo hi : ℕ) (s₀ : ProcessExits)
    (events : List StackEvent) (s : ProcessExits) : Prop where
  ready : Ready kt users lo hi s.state
  pageTables_eq : s.state.proc.pageTables = s₀.state.proc.pageTables
  objects_eq : s.objects = s₀.objects
  tiled : ∀ t ∈ s.objects,
    s.state.proc.pageTables.Tiled s.state.memory (pageOf t.stackStart) t.stackPageCount
  returned : ∀ k t, s.objects[k]? = some t → ∀ x ∈ t.stack.range,
    freeCount s.state x = (codesOf events k).length
  codes : ∀ k, (s.exitStates k).code = (codesOf events k).head?
  freesPages : ∀ e ∈ events, FreesPages e
  pages : ∀ e ∈ events, ∀ a, ReturnsPage e a → ∀ x < halfPages,
    s.state.proc.pageTables.frame s.state.memory x ≠ some a
  once : events.Pairwise fun e e' => ∀ a, ReturnsPage e a → ¬ ReturnsPage e' a

lemma Launched.isRegion (h : Launched kt users lo hi others s₀) (ht : t ∈ s₀.objects) :
    IsRegion t.stack :=
  h.owns.isRegion _ (mem_append_left _ (mem_map_of_mem ht))

variable {k' : ℕ}

lemma Launched.not_mem_stack (h : Launched kt users lo hi others s₀) {t' : StackThread}
    (ht : s₀.objects[k]? = some t) (ht' : s₀.objects[k']? = some t') (hne : k' ≠ k) {x : ℕ}
    (hx : x ∈ t.stack.range) : x ∉ t'.stack.range := by
  have hdisj : (s₀.objects.map fun t => t.stack.range).Pairwise Range.Disjoint := by
    refine pairwise_disjoint_of_coverage_le_one fun v => ?_
    have hle := h.owns.disjoint v
    rw [map_append, map_map, coverage_append] at hle
    exact le_self_add.trans ((le_add_left _ _).trans hle)
  have hget := pairwise_iff_getElem.mp (pairwise_map.mp hdisj)
  obtain ⟨hk, rfl⟩ := List.getElem?_eq_some_iff.mp ht
  obtain ⟨hk', rfl⟩ := List.getElem?_eq_some_iff.mp ht'
  rcases lt_or_gt_of_ne hne with hlt | hgt
  · exact fun hx' => hget k' k hk' hk hlt x hx' hx
  · exact hget k k' hk hk' hgt x hx

lemma Launched.stacksOk (h : Launched kt users lo hi others s₀) :
    StacksOk kt users lo hi s₀ [] s₀ := by
  refine ⟨h.owns.ready, rfl, rfl, fun t ht => ?_, fun k t ht x hx => ?_, h.fresh,
    forall_mem_nil _, forall_mem_nil _, .nil⟩
  · exact h.owns.tiled _ (mem_append_left _ (mem_map_of_mem ht))
  · have hle := h.owns.disjoint x
    have hmem : t.stack ∈ s₀.objects.map StackThread.stack ++ others :=
      mem_append_left _ (mem_map_of_mem (mem_of_getElem? ht))
    have hpos := coverage_pos_iff.mpr ⟨t.stack.range, mem_map_of_mem hmem, hx⟩
    change freeCount s₀.state x = 0
    omega

section exit

variable (h : StacksOk kt users lo hi s₀ events s) (ht : s.objects[k]? = some t)
  (hfree : freeMemory t.stackStart t.stackPageCount s.state = (.ok (), s'.state))

structure StackFreed (kt : PageTable) (users : List PageTable) (t : StackThread)
    (s s' : ProcessState) : Prop where
  sound : PageTable.Sound kt users s'.memory
  unmapped : s.proc.pageTables.Unmapped s.memory (pageOf t.stackStart) t.stackPageCount s'.memory
  freed : Freed s.proc.pageTables s.memory (pageOf t.stackStart) t.stackPageCount s'.memory.pma
  free : s.proc.addressSpaceAllocator.free t.stackStart t.stackPageCount =
    .ok s'.proc.addressSpaceAllocator
  kernelAddresses_eq : s'.virtualAddressAllocator = s.virtualAddressAllocator
  pageTables_eq : s'.proc.pageTables = s.proc.pageTables

include h ht hfree in
lemma StacksOk.stackFreed (hreg : IsRegion t.stack) :
    StackFreed kt users t s.state s'.state := by
  have htil := h.tiled t (mem_of_getElem? ht)
  obtain ⟨memory, vaa, heq, hvaa, hsnd, hun, hfrd⟩ :=
    wp_ok (wp_freeMemory h.ready hreg.end_le htil) hfree
  rw [heq]
  exact ⟨hsnd, hun, hfrd, hvaa, rfl, rfl⟩

end exit

section freed

variable (hf : StackFreed kt users t s.state s'.state) (hreg : IsRegion t.stack)
include hf hreg

lemma StackFreed.tiled {t' : StackThread} (hreg' : IsRegion t'.stack)
    (htil : s.state.proc.pageTables.Tiled s.state.memory (pageOf t'.stackStart) t'.stackPageCount) :
    s'.state.proc.pageTables.Tiled s'.state.memory (pageOf t'.stackStart) t'.stackPageCount := by
  rw [hf.pageTables_eq]
  refine tiled_of_view_eq hreg' htil fun x hx => ?_
  by_cases hin : HasPage t.stack x
  · obtain ⟨hge, hlt⟩ := hreg.hasPage_iff.mp hin
    rw [hf.unmapped.inside x hge hlt]
  · rw [hf.unmapped.outside x (hreg'.page_lt hx) fun hpage =>
      hin (hreg.hasPage_iff.mpr hpage)]

variable (hrdy : Ready kt users lo hi s.state)

include hrdy

lemma StackFreed.frame_before {x a : ℕ} (hx : x < halfPages)
    (hfr : s'.state.proc.pageTables.frame s'.state.memory x = some a) :
    s.state.proc.pageTables.frame s.state.memory x = some a ∧ ¬ HasPage t.stack x := by
  rw [hf.pageTables_eq] at hfr
  obtain ⟨⟨-, -, hbef⟩, hout⟩ := hrdy.sound.held_of_unmapped (.tail _ hrdy.mem_users)
    hf.unmapped ⟨hrdy.mem_users, hx, hfr⟩
  exact ⟨hbef, fun hin => hout rfl (hreg.hasPage_iff.mp hin)⟩

lemma StackFreed.ready :
    Ready kt users lo hi s'.state := by
  obtain ⟨hman, -⟩ := hrdy.addresses.free (by decide)
    ⟨hreg.aligned, zero_le _, hreg.end_le⟩ hf.free
  refine ⟨hf.sound, ?_, ?_, hrdy.high, hman, ?_, hrdy.le_lo, hrdy.hi_lt⟩
  · rw [hf.pageTables_eq]
    exact hrdy.mem_users
  · rw [hf.pageTables_eq]
    exact hrdy.low
  · rw [hf.kernelAddresses_eq]
    exact hrdy.kernelAddresses

lemma StackFreed.freeCount_eq (x : ℕ) :
    freeCount s'.state x = t.stack.range.ind x + freeCount s.state x :=
  (hrdy.addresses.free (by decide) ⟨hreg.aligned, zero_le _, hreg.end_le⟩ hf.free).2 x

lemma StackFreed.freesPages (ht : s.objects[k]? = some t)
    (a : ExitCause) : FreesPages ⟨a, some (k, code), s, s'⟩ := by
  refine ⟨fun i hret => ?_, fun i hnot => ?_⟩
  · obtain ⟨x, hx, hfr⟩ := (returnsPage_iff rfl ht).mp hret
    obtain ⟨hge, hlt⟩ := hreg.hasPage_iff.mp hx
    refine ⟨?_, hf.freed.freed i x hge hlt hfr⟩
    have hdata := hrdy.sound.isData _ x _ ⟨hrdy.mem_users, hreg.page_lt hx, hfr⟩
    exact hdata.inUse.isAllocated
  · refine hf.freed.kept i fun x hge hlt hfr =>
      hnot ((returnsPage_iff rfl ht).mpr ⟨x, ?_, hfr⟩)
    exact hreg.hasPage_iff.mpr ⟨hge, hlt⟩

end freed

lemma StacksOk.other (h : StacksOk kt users lo hi s₀ events s) (hsta : s'.state = s.state)
    (hobj : s'.objects = s.objects) (hex : s'.exitStates = s.exitStates) (a : ExitCause) :
    StacksOk kt users lo hi s₀ (⟨a, none, s, s'⟩ :: events) s' := by
  have hcod (k : ℕ) : codesOf (⟨a, none, s, s'⟩ :: events) k = codesOf events k :=
    history_cons_none rfl
  have hnot (p : ℕ) : ¬ ReturnsPage ⟨a, none, s, s'⟩ p := not_returnsPage_of_none rfl
  refine ⟨?_, ?_, hobj.trans h.objects_eq, ?_, ?_, fun k => ?_, ?_, ?_, ?_⟩
  · rw [hsta]
    exact h.ready
  · rw [hsta]
    exact h.pageTables_eq
  · rw [hobj, hsta]
    exact h.tiled
  · rw [hobj, hsta]
    intro k t ht x hx
    rw [hcod]
    exact h.returned k t ht x hx
  · rw [hex, hcod]
    exact h.codes k
  · refine forall_mem_cons.mpr ⟨⟨fun i hret => absurd hret (hnot _), fun i _ => ?_⟩, h.freesPages⟩
    rw [hsta]
  · rw [hsta]
    exact forall_mem_cons.mpr ⟨fun p hret => absurd hret (hnot p), h.pages⟩
  · exact pairwise_cons.mpr ⟨fun e' _ p hret => absurd hret (hnot p), h.once⟩

lemma codesOf_cons_self (a : ExitCause) :
    codesOf (⟨a, some (k, code), s, s'⟩ :: events) k = codesOf events k ++ [code] :=
  history_cons_some (by simp)

lemma codesOf_cons_of_ne (hne : k' ≠ k) (a : ExitCause) :
    codesOf (⟨a, some (k', code), s, s'⟩ :: events) k = codesOf events k :=
  history_cons_none (by simp [hne])

lemma StacksOk.exit (h₀ : Launched kt users lo hi others s₀)
    (h : StacksOk kt users lo hi s₀ events s) (ht : s.objects[k]? = some t)
    (hfree : freeMemory t.stackStart t.stackPageCount s.state = (.ok (), s'.state))
    (hobj : s'.objects = s.objects)
    (hex : s'.exitStates = update s.exitStates k ((s.exitStates k).set code).2)
    (a : ExitCause) : StacksOk kt users lo hi s₀ (⟨a, some (k, code), s, s'⟩ :: events) s' := by
  have hregs (t' : StackThread) (ht' : t' ∈ s.objects) : IsRegion t'.stack :=
    h₀.isRegion (h.objects_eq ▸ ht')
  have hreg := hregs t (mem_of_getElem? ht)
  have hf := h.stackFreed ht hfree hreg
  have hret (p : ℕ) := returnsPage_iff (e := ⟨a, some (k, code), s, s'⟩) (a := p) rfl ht
  refine ⟨hf.ready hreg h.ready, hf.pageTables_eq.trans h.pageTables_eq,
    hobj.trans h.objects_eq, fun t' ht' => ?_, fun j t' ht' x hx => ?_, fun j => ?_,
    forall_mem_cons.mpr ⟨hf.freesPages hreg h.ready ht a, h.freesPages⟩,
    forall_mem_cons.mpr ⟨fun p hp x hx hfr => ?_, fun e he p hp x hx hfr => ?_⟩,
    pairwise_cons.mpr ⟨fun e he p hp hp' => ?_, h.once⟩⟩
  · rw [hobj] at ht'
    exact hf.tiled hreg (hregs t' ht') (h.tiled t' ht')
  · rw [hobj] at ht'
    rw [hf.freeCount_eq hreg h.ready, h.returned j t' ht' x hx]
    by_cases hj : k = j
    · subst hj
      cases ht.symm.trans ht'
      rw [codesOf_cons_self, Range.ind_eq_one hx, length_append, add_comm]
      rfl
    · rw [h.objects_eq] at ht ht'
      rw [codesOf_cons_of_ne hj, Range.ind_eq_zero (h₀.not_mem_stack ht' ht hj hx), zero_add]
  · by_cases hj : k = j
    · subst hj
      rw [hex, update_self, ExitState.code_set, h.codes, codesOf_cons_self]
      cases codesOf events k <;> rfl
    · rw [hex, update_of_ne (Ne.symm hj), codesOf_cons_of_ne hj]
      exact h.codes j
  · -- a page of the stack that is mapped elsewhere
    obtain ⟨y, hy, hbef⟩ := (hret p).mp hp
    obtain ⟨hfr, hout⟩ := hf.frame_before hreg h.ready hx hfr
    obtain ⟨-, rfl⟩ := h.ready.sound.injective _ _ _ _ p
      ⟨h.ready.mem_users, hx, hfr⟩ ⟨h.ready.mem_users, hreg.page_lt hy, hbef⟩
    exact hout hy
  · exact h.pages e he p hp x hx (hf.frame_before hreg h.ready hx hfr).1
  · obtain ⟨x, hx, hfr⟩ := (hret p).mp hp
    exact h.pages e he p hp' x (hreg.page_lt hx) hfr

lemma stacksOk_of_run (h₀ : Launched kt users lo hi others s₀)
    (hrun : Core.Run step s₀ events s) : StacksOk kt users lo hi s₀ events s := by
  induction hrun with
  | nil => exact h₀.stacksOk
  | @call events s a o s' _ hstep ih =>
    cases exitStepped_of_step hstep with
    | none hsta hobj hex => exact ih.other hsta hobj hex a
    | exit k code t ht hfree hobj hex => exact ih.exit h₀ ht hfree hobj hex a

/-- The addresses of the stack of a thread are returned at most once exactly if the thread exits at
most once. Every page is returned at most once in any case, and the exit code of a thread is that
of its first exit. -/
theorem stack_returned_once_iff (h₀ : Launched kt users lo hi others s₀)
    (hrun : Core.Run step s₀ events s) :
    (∀ k t, s₀.objects[k]? = some t →
      ((∀ x ∈ t.stack.range, coverage s.state.proc.addressSpaceAllocator.freeRanges x ≤ 1) ↔
        (codesOf events k).length ≤ 1)) ∧
    (∀ e ∈ events, FreesPages e) ∧
    (events.Pairwise fun e e' => ∀ a, ReturnsPage e a → ¬ ReturnsPage e' a) ∧
    ∀ k, (s.exitStates k).code = (codesOf events k).head? := by
  have h := stacksOk_of_run h₀ hrun
  refine ⟨fun k t ht => ?_, h.freesPages, h.once, h.codes⟩
  have hret := h.returned k t (h.objects_eq ▸ ht)
  constructor
  · intro hle
    have hst : t.stack.address ∈ t.stack.range := by
      have hpos := h₀.pos t (mem_of_getElem? ht)
      exact ⟨le_refl _, Nat.lt_add_of_pos_right (mul_pos hpos (by decide))⟩
    rw [← hret _ hst]
    exact hle _ hst
  · intro hle x hx
    exact (hret x hx).trans_le hle

/-! ### Threads get their stacks -/

def ProcessExits.new (state : ProcessState) : ProcessExits :=
  ⟨state, [], [], [], [], [], fun _ => .new, .new⟩

lemma launched_new {state : ProcessState} (h : Owns kt users lo hi state others) :
    Launched kt users lo hi others (.new state) :=
  ⟨h, forall_mem_nil _, fun _ => rfl⟩

lemma Launched.spawnThread {id : BitVec 32} {stackSize : ℕ} (h : Launched kt users lo hi others s)
    (hsp : s.spawnThread kt id stackSize = some s') : Launched kt users lo hi others s' := by
  rw [ProcessExits.spawnThread] at hsp
  obtain ⟨hsize, hsp⟩ := Option.ite_none_left_eq_some.mp hsp
  split at hsp
  next stackStart _ state hrun =>
    cases hsp
    obtain ⟨-, howns, -⟩ := wp_ok (h.owns.wp_allocMemory _) hrun
    refine ⟨howns.perm ?_, fun t ht => ?_, h.fresh⟩
    · rw [map_append, append_assoc]
      exact perm_middle.symm
    · rcases mem_append.mp ht with ht | ht
      · exact h.pos t ht
      · rw [mem_singleton.mp ht]
        simp only [divCeil, pageSize]
        omega
  next => cases hsp

end step

def sampleThreads : Option ProcessExits :=
  match Process.spawn 1 sampleKernel with
  | some (.ok _, s) =>
    s.processes.head?.bind fun proc =>
      ((new (s.focus proc)).spawnThread QueueTask.sampleKernelTable 1 4096).bind
        (spawnThread QueueTask.sampleKernelTable 2 8192)
  | _ => none

lemma sampleThreads_launched {s₀ : ProcessExits} (h : s₀ ∈ sampleThreads) :
    ∃ users, Launched QueueTask.sampleKernelTable users 0xffff_0001_0000_0000
      0xffff_0101_0000_0000 [] s₀ := by
  rw [sampleThreads] at h
  split at h
  next s hsp =>
    obtain ⟨proc, hproc, -, howns⟩ := owns_of_spawn sampleKernel_booted hsp
    obtain ⟨_, hhead, h⟩ := Option.bind_eq_some_iff.mp h
    cases hproc.symm.trans hhead
    obtain ⟨s₁, hfst, hsec⟩ := Option.bind_eq_some_iff.mp h
    exact ⟨_, ((launched_new howns).spawnThread hfst).spawnThread hsec⟩
  next => cases h

/-- A thread has a page fault, and the other one exits. -/
theorem stack_returned_once_iff_two :
    ∃ users s₀ events s, Launched QueueTask.sampleKernelTable users 0xffff_0001_0000_0000
        0xffff_0101_0000_0000 [] s₀ ∧
      Core.Run step s₀ events s ∧ codesOf events 0 = [.pageFault] ∧
      codesOf events 1 = [.normal 3] ∧ (s.exitStates 1).code = some (.normal 3) ∧
      ∀ k t, s₀.objects[k]? = some t → (codesOf events k).length ≤ 1 →
        ∀ x ∈ t.stack.range, coverage s.state.proc.addressSpaceAllocator.freeRanges x ≤ 1 := by
  obtain ⟨s₀, hs₀, x, hx, h0, h1⟩ : ∃ s₀ ∈ sampleThreads, ∃ x ∈ execute step s₀
      [.exitCall 1 3, .onPageFault 0, .pageFault 0],
      codesOf x.1 0 = [.pageFault] ∧ codesOf x.1 1 = [.normal 3] := by
    decide +kernel
  obtain ⟨users, h₀⟩ := sampleThreads_launched hs₀
  have hrun : Core.Run step s₀ x.1 x.2 := .of_execute hx
  obtain ⟨honce, -, -, hcod⟩ := stack_returned_once_iff h₀ hrun
  refine ⟨users, s₀, x.1, x.2, h₀, hrun, h0, h1, ?_, fun k t ht => (honce k t ht).mpr⟩
  rw [hcod, h1]
  rfl

/-- A thread has a page fault while its process is killed: it exits twice, and its stack is free
twice. -/
theorem stack_returned_twice :
    ∃ users s₀ events s t, Launched QueueTask.sampleKernelTable users 0xffff_0001_0000_0000
        0xffff_0101_0000_0000 [] s₀ ∧
      Core.Run step s₀ events s ∧ s₀.objects[0]? = some t ∧
      codesOf events 0 = [.killed, .pageFault] ∧
      coverage s.state.proc.addressSpaceAllocator.freeRanges t.stackStart = 2 := by
  obtain ⟨s₀, hs₀, x, hx, t, ht, hcod, htwi⟩ : ∃ s₀ ∈ sampleThreads,
      ∃ x ∈ execute step s₀ [.onPageFault 0, .killNext 0, .killProcess, .pageFault 0],
      ∃ t ∈ s₀.objects[0]?, codesOf x.1 0 = [.killed, .pageFault] ∧
        coverage x.2.state.proc.addressSpaceAllocator.freeRanges t.stackStart = 2 := by
    decide +kernel
  obtain ⟨users, h₀⟩ := sampleThreads_launched hs₀
  exact ⟨users, s₀, x.1, x.2, t, h₀, .of_execute hx, ht, hcod, htwi⟩

end Kernel.Process
