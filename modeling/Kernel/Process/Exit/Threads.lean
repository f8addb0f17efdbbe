import Kernel.Process.Exit.State

/-!
# The threads of a process

`Thread::exit` removes the thread from the list of its process while it holds the lock of the list.
-/

namespace Kernel.Process

open Core Kapi List Function

structure UserThread where
  object : ℕ
  id : BitVec 32
  deriving DecidableEq

structure Leaving where
  call : ℕ
  thread : UserThread
  code : ThreadExit
  last : Bool
  deriving DecidableEq

structure ProcessThreads where
  threads : List UserThread
  threadExits : UserThread → ExitState
  exitState : ExitState
  nextThreadId : BitVec 32
  created : ℕ
  spawning : List UserThread
  spawned : List UserThread
  exits : ℕ
  leaving : List Leaving
  ending : List Leaving

open ProcessThreads

inductive ThreadsAct where
  | createThread
  | pushThread (thread : UserThread)
  | takeId
  | lockThreads (thread : UserThread) (code : ThreadExit)
  | setThread (x : Leaving)
  | setProcess (x : Leaving)
  deriving DecidableEq

inductive ThreadsOutcome where
  | done
  | exited (thread : UserThread) (code : ThreadExit)
  deriving DecidableEq

def ThreadsOutcome.exited? : ThreadsOutcome → Option (UserThread × ThreadExit)
  | .exited thread code => some (thread, code)
  | .done => none

namespace ProcessThreads

def launched (mainId nextThreadId : BitVec 32) : ProcessThreads where
  threads := [⟨0, mainId⟩]
  threadExits _ := .new
  exitState := .new
  nextThreadId
  created := 1
  spawning := []
  spawned := [⟨0, mainId⟩]
  exits := 0
  leaving := []
  ending := []

def createThread (s : ProcessThreads) : ProcessThreads :=
  { s with
    spawning := ⟨s.created, s.nextThreadId⟩ :: s.spawning
    created := s.created + 1
    nextThreadId := s.nextThreadId + 1 }

def pushThread (thread : UserThread) (s : ProcessThreads) : ProcessThreads :=
  { s with
    spawning := s.spawning.erase thread
    threads := s.threads ++ [thread]
    spawned := thread :: s.spawned }

def lockThreads (thread : UserThread) (code : ThreadExit) (s : ProcessThreads) : ProcessThreads :=
  let threads := s.threads.filter fun t => t.id ≠ thread.id
  { s with
    threads
    exits := s.exits + 1
    leaving := ⟨s.exits, thread, code, threads.isEmpty⟩ :: s.leaving }

def setThread (x : Leaving) (s : ProcessThreads) : ProcessThreads :=
  { s with
    leaving := s.leaving.erase x
    threadExits := Function.update s.threadExits x.thread ((s.threadExits x.thread).set x.code).2
    ending := if x.last then x :: s.ending else s.ending }

def setProcess (x : Leaving) (s : ProcessThreads) : ProcessThreads :=
  { s with
    ending := s.ending.erase x
    exitState := (s.exitState.set x.code).2 }

def step : ThreadsAct → ProcessThreads → Option (ThreadsOutcome × ProcessThreads)
  | .createThread, s => some (.done, s.createThread)
  | .pushThread thread, s => if thread ∈ s.spawning then some (.done, s.pushThread thread) else none
  | .takeId, s => some (.done, { s with nextThreadId := s.nextThreadId + 1 })
  | .lockThreads thread code, s =>
    if thread ∈ s.spawned then
      some (if thread ∈ s.threads then .exited thread code else .done, s.lockThreads thread code)
    else none
  | .setThread x, s => if x ∈ s.leaving then some (.done, s.setThread x) else none
  | .setProcess x, s => if x ∈ s.ending then some (.done, s.setProcess x) else none

end ProcessThreads

abbrev ThreadsEvent := Core.Event ProcessThreads ThreadsAct ThreadsOutcome

def exitedIn (events : List ThreadsEvent) : List (UserThread × ThreadExit) :=
  history ThreadsOutcome.exited? events

def publications (events : List ThreadsEvent) : List ThreadsEvent :=
  events.filter fun e => e.before.exitState.code ≠ e.after.exitState.code

structure PublishedOnce (events : List ThreadsEvent) (s : ProcessThreads) : Prop where
  once : (publications events).length = if s.exitState.code.isSome then 1 else 0
  alone : s.exitState.code.isSome →
    s.threads = [] ∧ ∀ t ∈ s.spawned, t ∈ (exitedIn events).map Prod.fst
  last : ∀ c, s.exitState.code = some c →
    ∃ t, (exitedIn events).getLast? = some (t, c) ∧ (s.threadExits t).code = some c
  published : s.threads = [] → s.leaving = [] → s.ending = [] → s.exitState.code.isSome

/-- A thread is added only to a list with other threads. `exit` locks the list only if no other
thread in it has the same id, and only if there are threads in it or the process has exited
already. -/
def Orderly (e : ThreadsEvent) : Prop :=
  match e.call with
  | .pushThread _ => e.before.threads ≠ []
  | .lockThreads thread _ =>
    (∀ t ∈ e.before.threads, t.id = thread.id → t = thread) ∧
      (e.before.threads ≠ [] ∨ e.before.exitState.code.isSome)
  | .createThread | .takeId | .setThread _ | .setProcess _ => True

instance : DecidablePred Orderly
  | ⟨.pushThread _, _, s, _⟩ => inferInstanceAs (Decidable (s.threads ≠ []))
  | ⟨.lockThreads thread _, _, s, _⟩ =>
    inferInstanceAs (Decidable ((∀ t ∈ s.threads, t.id = thread.id → t = thread) ∧
      (s.threads ≠ [] ∨ s.exitState.code.isSome)))
  | ⟨.createThread, _, _, _⟩ | ⟨.takeId, _, _, _⟩ | ⟨.setThread _, _, _, _⟩
  | ⟨.setProcess _, _, _, _⟩ => .isTrue trivial

/-! ### The code is set once -/

section

variable {events : List ThreadsEvent} {s s' : ProcessThreads} {a : ThreadsAct} {o : ThreadsOutcome}

lemma code_step (hstep : step a s = some (o, s')) :
    s'.exitState.code = s.exitState.code ∨ ∃ x, a = .setProcess x ∧ x ∈ s.ending ∧
      s'.exitState.code = some (s.exitState.code.getD x.code) := by
  cases a with
  | createThread | takeId =>
    cases hstep
    exact .inl rfl
  | pushThread thread | lockThreads thread code | setThread x =>
    rw [step] at hstep
    split_ifs at hstep
    all_goals
      cases hstep
      exact .inl rfl
  | setProcess x =>
    rw [step] at hstep
    split_ifs at hstep with hx
    cases hstep
    exact .inr ⟨x, rfl, hx, rfl⟩

lemma publications_length {mainId nextThreadId : BitVec 32}
    (hrun : Core.Run step (.launched mainId nextThreadId) events s) :
    (publications events).length = if s.exitState.code.isSome then 1 else 0 := by
  induction hrun with
  | nil => rfl
  | @call events s a o s' _ hstep ih =>
    have hcode : s'.exitState.code = s.exitState.code ∨
        s.exitState.code = none ∧ s'.exitState.code.isSome := by
      rcases code_step hstep with heq | ⟨x, -, -, heq⟩
      · exact .inl heq
      · cases hcode : s.exitState.code with
        | none => exact .inr ⟨rfl, by rw [heq]; rfl⟩
        | some c =>
          rw [hcode] at heq
          exact .inl heq
    rw [publications, filter_cons]
    rcases hcode with heq | ⟨hnone, hsome⟩
    · rw [if_neg (by simp [heq]), heq]
      exact ih
    · have hne : s.exitState.code ≠ s'.exitState.code := fun heq => by
        rw [← heq, hnone] at hsome
        cases hsome
      rw [hnone] at ih
      rw [if_pos (by simpa using hne), if_pos hsome, length_cons]
      exact congrArg Nat.succ ih

/-! ### The invariant -/

inductive Ended (s : ProcessThreads) (p : Leaving) : Prop where
  | leaving (hcode : s.exitState.code = none) (hmem : p ∈ s.leaving) (hlast : p.last = true)
      (hending : s.ending = []) (hthread : (s.threadExits p.thread).code = none)
      (honly : ∀ x ∈ s.leaving, x ≠ p → x.last = false ∧ x.thread ≠ p.thread)
  | ending (hcode : s.exitState.code = none) (hending : s.ending = [p])
      (hthread : (s.threadExits p.thread).code = some p.code)
      (hnone : ∀ x ∈ s.leaving, x.last = false)
  | ended (hcode : s.exitState.code = some p.code)
      (hthread : (s.threadExits p.thread).code = some p.code)

structure Alive (s : ProcessThreads) : Prop where
  code : s.exitState.code = none
  ending : s.ending = []
  leaving : ∀ x ∈ s.leaving, x.last = false
  fresh : ∀ t ∈ s.threads, (s.threadExits t).code = none ∧ ∀ x ∈ s.leaving, x.thread ≠ t

lemma Ended.congr {p : Leaving} (h : Ended s p) (hexit : s'.exitState = s.exitState)
    (hex : s'.threadExits = s.threadExits) (hlv : s'.leaving = s.leaving)
    (hend : s'.ending = s.ending) : Ended s' p := by
  cases h with
  | leaving hcode hmem hlast hnil hthr honly =>
    exact .leaving (hexit ▸ hcode) (hlv ▸ hmem) hlast (hend.trans hnil)
      (hex ▸ hthr) (hlv ▸ honly)
  | ending hcode hp hthr hnone =>
    exact .ending (hexit ▸ hcode) (hend.trans hp) (hex ▸ hthr) (hlv ▸ hnone)
  | ended hcode hthr => exact .ended (hexit ▸ hcode) (hex ▸ hthr)

lemma Alive.congr (h : Alive s) (hexit : s'.exitState = s.exitState)
    (hex : s'.threadExits = s.threadExits) (hlv : s'.leaving = s.leaving)
    (hend : s'.ending = s.ending) (hthr : s'.threads = s.threads) : Alive s' where
  code := hexit ▸ h.code
  ending := hend.trans h.ending
  leaving := hlv ▸ h.leaving
  fresh := by
    rw [hthr, hlv, hex]
    exact h.fresh

structure ThreadsOk (events : List ThreadsEvent) (s : ProcessThreads) : Prop where
  leaving_spawned : ∀ x ∈ s.leaving, x.thread ∈ s.spawned
  exits_spawned : ∀ t, (s.threadExits t).code.isSome → t ∈ s.spawned
  spawning_new : ∀ t ∈ s.spawning, t ∉ s.spawned
  spawning_nodup : s.spawning.Nodup
  created : ∀ t, t ∈ s.spawned ∨ t ∈ s.spawning → t.object < s.created
  calls : ∀ x ∈ s.leaving, x.call < s.exits
  nodup : s.leaving.Nodup
  here : ∀ t ∈ s.spawned, t ∈ s.threads ∨ t ∈ (exitedIn events).map Prod.fst
  alive : s.threads ≠ [] → Alive s
  ended : s.threads = [] →
    ∃ p, Ended s p ∧ (exitedIn events).getLast? = some (p.thread, p.code)

lemma threadsOk_launched (mainId nextThreadId : BitVec 32) :
    ThreadsOk [] (.launched mainId nextThreadId) where
  leaving_spawned := nofun
  exits_spawned _ := nofun
  spawning_new := nofun
  spawning_nodup := nodup_nil
  created t ht := by
    rcases ht with ht | ht
    · rw [mem_singleton.mp ht]
      exact one_pos
    · cases ht
  calls := nofun
  nodup := nodup_nil
  here t ht := .inl ht
  alive _ := ⟨rfl, rfl, nofun, fun _ _ => ⟨rfl, nofun⟩⟩
  ended := nofun

namespace ThreadsOk

variable {e : ThreadsEvent} {t thread : UserThread} {code : ThreadExit} {x : Leaving}

lemma cons (h : ThreadsOk events s) (he : e.result.exited? = none) : ThreadsOk (e :: events) s := by
  have hsame : exitedIn (e :: events) = exitedIn events := history_cons_none he
  exact { h with here := by rw [hsame]; exact h.here, ended := by rw [hsame]; exact h.ended }

section

variable (h : ThreadsOk events s)

include h

lemma createThread : ThreadsOk events s.createThread :=
  { h with
    spawning_new := forall_mem_cons.mpr
      ⟨fun hspd => (h.created _ (.inl hspd)).ne rfl, h.spawning_new⟩
    spawning_nodup := nodup_cons.mpr
      ⟨fun hmem => (h.created _ (.inr hmem)).ne rfl, h.spawning_nodup⟩
    created := fun t ht => by
      rcases ht with ht | ht
      · exact (h.created t (.inl ht)).trans (lt_add_one _)
      · rcases mem_cons.mp ht with rfl | ht
        · exact lt_add_one _
        · exact (h.created t (.inr ht)).trans (lt_add_one _)
    alive := fun hne => (h.alive hne).congr rfl rfl rfl rfl rfl
    ended := fun hnil => (h.ended hnil).imp fun _ hp => ⟨hp.1.congr rfl rfl rfl rfl, hp.2⟩ }

lemma takeId (id : BitVec 32) : ThreadsOk events { s with nextThreadId := id } :=
  { h with
    alive := fun hne => (h.alive hne).congr rfl rfl rfl rfl rfl
    ended := fun hnil => (h.ended hnil).imp fun _ hp => ⟨hp.1.congr rfl rfl rfl rfl, hp.2⟩ }

lemma pushThread (hspn : thread ∈ s.spawning) (hne : s.threads ≠ []) :
    ThreadsOk events (s.pushThread thread) where
  leaving_spawned x hx := mem_cons_of_mem _ (h.leaving_spawned x hx)
  exits_spawned t ht := mem_cons_of_mem _ (h.exits_spawned t ht)
  spawning_new t ht hspd := by
    obtain ⟨hthr, ht⟩ := h.spawning_nodup.mem_erase_iff.mp ht
    rcases mem_cons.mp hspd with heq | hspd
    · exact hthr heq
    · exact h.spawning_new t ht hspd
  spawning_nodup := h.spawning_nodup.erase _
  created t ht := by
    rcases ht with ht | ht
    · rcases mem_cons.mp ht with rfl | ht
      · exact h.created t (.inr hspn)
      · exact h.created t (.inl ht)
    · exact h.created t (.inr (mem_of_mem_erase ht))
  calls := h.calls
  nodup := h.nodup
  here := forall_mem_cons.mpr ⟨.inl (mem_append_right _ mem_cons_self),
    fun t ht => (h.here t ht).imp_left (mem_append_left _)⟩
  alive _ := by
    obtain ⟨hcode, hend, hlv, hfsh⟩ := h.alive hne
    refine ⟨hcode, hend, hlv, fun t ht => ?_⟩
    rcases mem_append.mp ht with ht | ht
    · exact hfsh t ht
    -- The new thread has never been in the list, so no call of `exit` is about it.
    · cases mem_singleton.mp ht
      have hnew := h.spawning_new thread hspn
      refine ⟨?_, fun x hx heq => hnew (heq ▸ h.leaving_spawned x hx)⟩
      by_contra hsome
      exact hnew (h.exits_spawned thread (Option.isSome_iff_ne_none.mpr hsome))
  ended hnil := absurd hnil (append_ne_nil_of_right_ne_nil _ (cons_ne_nil _ _))

end

lemma mem_filter_id (hid : ∀ t ∈ s.threads, t.id = thread.id → t = thread) :
    t ∈ s.threads.filter (fun t => t.id ≠ thread.id) ↔ t ∈ s.threads ∧ t ≠ thread := by
  rw [mem_filter, decide_eq_true_eq]
  exact and_congr_right fun ht =>
    ⟨fun hne heq => hne (heq ▸ rfl), fun hne heq => hne (hid t ht heq)⟩

lemma lockThreads {events' : List ThreadsEvent} (h : ThreadsOk events s)
    (hspd : thread ∈ s.spawned) (hid : ∀ t ∈ s.threads, t.id = thread.id → t = thread)
    (hexit : s.threads ≠ [] ∨ s.exitState.code.isSome)
    (hexi : exitedIn events' =
      exitedIn events ++ if thread ∈ s.threads then [(thread, code)] else []) :
    ThreadsOk events' (s.lockThreads thread code) := by
  have hcall : ∀ b, ⟨s.exits, thread, code, b⟩ ∉ s.leaving := fun b hx =>
    (h.calls _ hx).ne rfl
  refine ⟨?_, h.exits_spawned, h.spawning_new, h.spawning_nodup, h.created, ?_, ?_, ?_, ?_, ?_⟩
  · exact forall_mem_cons.mpr ⟨hspd, h.leaving_spawned⟩
  · exact forall_mem_cons.mpr
      ⟨lt_add_one _, fun x hx => (h.calls x hx).trans (lt_add_one _)⟩
  · exact nodup_cons.mpr ⟨hcall _, h.nodup⟩
  · intro t ht
    rw [hexi, map_append, mem_append]
    rcases h.here t ht with hmem | hgone
    · by_cases heq : t = thread
      · rw [if_pos (heq ▸ hmem), heq]
        exact .inr (.inr mem_cons_self)
      · exact .inl ((mem_filter_id hid).mpr ⟨hmem, heq⟩)
    · exact .inr (.inl hgone)
  · intro hne
    have hali := h.alive fun hnil => hne (congrArg (List.filter _) hnil)
    refine ⟨hali.code, hali.ending, ?_, fun t ht => ?_⟩
    · exact forall_mem_cons.mpr ⟨isEmpty_eq_false_iff.mpr hne, hali.leaving⟩
    · obtain ⟨ht, hne'⟩ := (mem_filter_id hid).mp ht
      obtain ⟨hcode, hoth⟩ := hali.fresh t ht
      exact ⟨hcode, forall_mem_cons.mpr ⟨hne'.symm, hoth⟩⟩
  · intro hnil
    have hemp : (s.threads.filter fun t => t.id ≠ thread.id).isEmpty = true :=
      isEmpty_iff.mpr hnil
    rw [hexi]
    by_cases hmem : thread ∈ s.threads
    · have hali := h.alive (ne_nil_of_mem hmem)
      obtain ⟨hthr, hnot⟩ := hali.fresh thread hmem
      refine ⟨⟨s.exits, thread, code, true⟩, .leaving hali.code ?_ rfl hali.ending hthr ?_,
        by rw [if_pos hmem, List.getLast?_append]; rfl⟩
      · simp only [ProcessThreads.lockThreads, hemp]
        exact mem_cons_self
      · intro x hx hne
        simp only [ProcessThreads.lockThreads, hemp] at hx
        rcases mem_cons.mp hx with rfl | hx
        · exact absurd rfl hne
        · exact ⟨hali.leaving x hx, hnot x hx⟩
    · -- the list was empty before, so the process has exited
      have hnil' : s.threads = [] := eq_nil_iff_forall_not_mem.mpr fun t ht =>
        eq_nil_iff_forall_not_mem.mp hnil t
          ((mem_filter_id hid).mpr ⟨ht, fun heq => hmem (heq ▸ ht)⟩)
      obtain ⟨p, hp, hlast⟩ := h.ended hnil'
      refine ⟨p, ?_, by rwa [if_neg hmem, append_nil]⟩
      have hsome := hexit.resolve_left fun hne => hne hnil'
      cases hp with
      | leaving hcode _ _ _ _ _ | ending hcode _ _ _ => rw [hcode] at hsome; cases hsome
      | ended hcode hthr => exact .ended hcode hthr

lemma code_setThread (hx : (s.threadExits t).code = some code) :
    ((s.setThread x).threadExits t).code = some code := by
  change (Function.update s.threadExits x.thread _ t).code = _
  by_cases heq : t = x.thread
  · subst heq
    rw [update_self, ExitState.code_set, hx]
    rfl
  · rwa [update_of_ne heq]

lemma code_setThread_of_ne (hne : t ≠ x.thread) :
    ((s.setThread x).threadExits t).code = (s.threadExits t).code :=
  congrArg ExitState.code (update_of_ne hne _ s.threadExits)

lemma setThread (h : ThreadsOk events s) (hx : x ∈ s.leaving) :
    ThreadsOk events (s.setThread x) where
  leaving_spawned y hy := h.leaving_spawned y (mem_of_mem_erase hy)
  exits_spawned t ht := by
    by_cases heq : t = x.thread
    · exact heq ▸ h.leaving_spawned x hx
    · rw [code_setThread_of_ne heq] at ht
      exact h.exits_spawned t ht
  spawning_new := h.spawning_new
  spawning_nodup := h.spawning_nodup
  created := h.created
  calls y hy := h.calls y (mem_of_mem_erase hy)
  nodup := h.nodup.erase _
  here := h.here
  alive hne := by
    obtain ⟨hcode, hend, hlv, hfsh⟩ := h.alive hne
    refine ⟨hcode, ?_, fun y hy => hlv y (mem_of_mem_erase hy), fun t ht => ?_⟩
    · rw [ProcessThreads.setThread, hlv x hx]
      exact hend
    · obtain ⟨hnone, hoth⟩ := hfsh t ht
      rw [code_setThread_of_ne (hoth x hx).symm]
      exact ⟨hnone, fun y hy => hoth y (mem_of_mem_erase hy)⟩
  ended hnil := by
    obtain ⟨p, hp, hlast⟩ := h.ended hnil
    refine ⟨p, ?_, hlast⟩
    cases hp with
    | leaving hcode hmem hpla hend hthr honly =>
      by_cases heq : x = p
      · subst heq
        refine .ending hcode ?_ ?_ fun y hy => ?_
        · simp only [ProcessThreads.setThread, hpla, hend, if_true]
        · change (Function.update s.threadExits x.thread _ x.thread).code = _
          rw [update_self, ExitState.code_set, hthr]
          rfl
        · obtain ⟨hne, hy⟩ := h.nodup.mem_erase_iff.mp hy
          exact (honly y hy hne).1
      · obtain ⟨hxla, hxth⟩ := honly x hx heq
        refine .leaving hcode ?_ hpla ?_ ?_ fun y hy => honly y (mem_of_mem_erase hy)
        · exact (mem_erase_of_ne (Ne.symm heq)).mpr hmem
        · rw [ProcessThreads.setThread, hxla]
          exact hend
        · rw [code_setThread_of_ne hxth.symm]
          exact hthr
    | ending hcode hend hthr hnone =>
      refine .ending hcode ?_ (code_setThread hthr) fun y hy =>
        hnone y (mem_of_mem_erase hy)
      rw [ProcessThreads.setThread, hnone x hx]
      exact hend
    | ended hcode hthr => exact .ended hcode (code_setThread hthr)

lemma setProcess (h : ThreadsOk events s) (hx : x ∈ s.ending) : ThreadsOk events (s.setProcess x) :=
  { h with
    alive := fun hne => by
      rw [(h.alive hne).ending] at hx
      cases hx
    ended := fun hnil => by
      obtain ⟨p, hp, hlast⟩ := h.ended hnil
      refine ⟨p, ?_, hlast⟩
      cases hp with
      | leaving _ _ _ hend _ _ =>
        rw [hend] at hx
        cases hx
      | ending hcode hend hthr hnone =>
        rw [hend] at hx
        cases mem_singleton.mp hx
        refine .ended ?_ hthr
        change ((s.exitState.set x.code).2).code = _
        rw [ExitState.code_set, hcode]
        rfl
      | ended hcode hthr =>
        refine .ended ?_ hthr
        change ((s.exitState.set x.code).2).code = _
        rw [ExitState.code_set, hcode]
        rfl }

lemma step {a : ThreadsAct} {o : ThreadsOutcome} {s' : ProcessThreads} (h : ThreadsOk events s)
    (hstep : ProcessThreads.step a s = some (o, s')) (ha : Orderly ⟨a, o, s, s'⟩) :
    ThreadsOk (⟨a, o, s, s'⟩ :: events) s' := by
  cases a with
  | createThread =>
    cases hstep
    exact h.createThread.cons rfl
  | takeId =>
    cases hstep
    exact (h.takeId _).cons rfl
  | pushThread thread =>
    rw [ProcessThreads.step] at hstep
    split_ifs at hstep with hspn
    cases hstep
    exact (h.pushThread hspn ha).cons rfl
  | lockThreads thread code =>
    obtain ⟨hid, hexit⟩ := ha
    rw [ProcessThreads.step] at hstep
    split_ifs at hstep with hspd hmem
    · cases hstep
      refine h.lockThreads hspd hid hexit ?_
      rw [if_pos hmem]
      exact history_cons_some rfl
    · cases hstep
      refine h.lockThreads hspd hid hexit ?_
      rw [if_neg hmem, append_nil]
      exact history_cons_none rfl
  | setThread x =>
    rw [ProcessThreads.step] at hstep
    split_ifs at hstep with hx
    cases hstep
    exact (h.setThread hx).cons rfl
  | setProcess x =>
    rw [ProcessThreads.step] at hstep
    split_ifs at hstep with hx
    cases hstep
    exact (h.setProcess hx).cons rfl

end ThreadsOk

lemma ThreadsOk.publishedOnce {mainId nextThreadId : BitVec 32} (h : ThreadsOk events s)
    (hrun : Core.Run ProcessThreads.step (.launched mainId nextThreadId) events s) :
    PublishedOnce events s where
  once := publications_length hrun
  alone hsome := by
    have hnil : s.threads = [] := by
      by_contra hne
      rw [(h.alive hne).code] at hsome
      cases hsome
    refine ⟨hnil, fun t ht => (h.here t ht).resolve_left ?_⟩
    rw [hnil]
    exact not_mem_nil
  last c hc := by
    have hnil : s.threads = [] := by
      by_contra hne
      rw [(h.alive hne).code] at hc
      cases hc
    obtain ⟨p, hp, hlast⟩ := h.ended hnil
    cases hp with
    | leaving hcode _ _ _ _ _ | ending hcode _ _ _ => rw [hcode] at hc; cases hc
    | ended hcode hthr =>
      cases hcode.symm.trans hc
      exact ⟨p.thread, hlast, hthr⟩
  published hnil hlv hend := by
    obtain ⟨p, hp, -⟩ := h.ended hnil
    cases hp with
    | leaving _ hmem _ _ _ _ =>
      rw [hlv] at hmem
      cases hmem
    | ending _ hp _ _ => cases hend.symm.trans hp
    | ended hcode _ => rw [hcode]; rfl

/-- In a run of orderly acts the exit code of the process is set exactly once, after all of its
threads have exited and when none is added any more, and it is that of the last one. -/
theorem publishedOnce_of_orderly {mainId nextThreadId : BitVec 32}
    (hrun : Core.Run ProcessThreads.step (.launched mainId nextThreadId) events s)
    (horderly : ∀ e ∈ events, Orderly e) : PublishedOnce events s := by
  have hok : ThreadsOk events s := by
    induction hrun with
    | nil => exact threadsOk_launched mainId nextThreadId
    | call _ hstep ih =>
      obtain ⟨hlast, hbef⟩ := forall_mem_cons.mp horderly
      exact (ih hbef).step hstep hlast
  exact hok.publishedOnce hrun

end

def mainThread : UserThread := ⟨0, 2⟩

def mainExits (call : ℕ) (last : Bool) : Leaving := ⟨call, mainThread, .normal 3, last⟩

def secondThread : UserThread := ⟨1, 3⟩

theorem publishedOnce_of_orderly_two :
    ∃ events s, Core.Run step (.launched 2 3) events s ∧
      s.exitState.code = some .pageFault ∧ PublishedOnce events s := by
  obtain ⟨events, s, hrun, hcode, hord⟩ := Run.exists_of_execute step
    (.launched 2 3) [.setThread (mainExits 0 false),
      .setProcess ⟨1, secondThread, .pageFault, true⟩,
      .setThread ⟨1, secondThread, .pageFault, true⟩, .lockThreads secondThread .pageFault,
      .lockThreads mainThread (.normal 3), .pushThread secondThread, .createThread]
    (Q := fun events s => s.exitState.code = some .pageFault ∧ ∀ e ∈ events, Orderly e)
    (by decide +kernel)
  exact ⟨events, s, hrun, hcode, publishedOnce_of_orderly hrun hord⟩

/-- The main thread exits while a `SpawnThread` command waits for the lock: the exit code of the
process is set, and then a thread is added to the process, which runs and exits later. -/
theorem published_before_last_exit :
    ∃ events s, Core.Run step (.launched 2 3) events s ∧
      s.exitState.code = some (.normal 3) ∧ s.threads = [secondThread] ∧
      ¬ PublishedOnce events s := by
  obtain ⟨events, s, hrun, hcode, hthr⟩ := Run.exists_of_execute step
    (.launched 2 3) [.pushThread secondThread, .setProcess (mainExits 0 true),
      .setThread (mainExits 0 true), .lockThreads mainThread (.normal 3), .createThread]
    (Q := fun _ s => s.exitState.code = some (.normal 3) ∧ s.threads = [secondThread])
    (by decide +kernel)
  refine ⟨events, s, hrun, hcode, hthr, fun h => ?_⟩
  have hnil := (h.alone (by rw [hcode]; rfl)).1
  rw [hthr] at hnil
  cases hnil

end Kernel.Process
