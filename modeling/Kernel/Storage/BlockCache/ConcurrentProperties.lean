import Kernel.Storage.BlockCache.Concurrent

/-!
# Write-backs of a shared block cache

The metadata that a load has read may be out of date when it gets the lock.
-/

namespace Kernel.Storage.BlockCache.CacheTasks

open Core Memory List Option

variable {σ : Type} {c : BlockCache} {d : BlockStore σ} {s s' : CacheTasks σ} {i : ℕ × ℕ} {l : Load}
  {o : CacheOutcome} {point : LoadPoint}

/-! ### Runs that keep to their chunks -/

variable (c) in
def namedAddress (s : CacheTasks σ) (chunkId : ℕ) : Option ℕ :=
  let md := s.cache.metadata chunkId
  if md.occupied then some (c.composeAddress md.tag.toNat chunkId) else none

variable (c) in
def WritesOwn (s : CacheTasks σ) (task : CacheTask) : Prop :=
  match task.access with
  | .copy _ => True
  | .write src =>
    ∀ k < src.length, s.origin (task.offset + k) = some (task.chunkAddress c k)

instance {task : CacheTask} : Decidable (WritesOwn c s task) :=
  match h : task.access with
  | .copy _ => decidable_of_iff True (by simp only [WritesOwn, h])
  | .write src =>
    decidable_of_iff
      (∀ k < src.length, s.origin (task.offset + k) = some (task.chunkAddress c k))
      (by simp only [WritesOwn, h])

variable (c) in
def TagFits (l : Load) : Prop :=
  c.composeAddress l.metadata.tag.toNat l.chunkId = c.composeAddress l.tag l.chunkId

instance : DecidablePred (TagFits c) := fun _ => inferInstanceAs (Decidable (_ = _))

variable (c) in
def Fitting (s : CacheTasks σ) : CacheAct → Prop
  | .copyBytes .. | .writeBytes .. => True
  | .load i => ∀ l ∈ s.loadAt i, l.point = .updateMetadata → TagFits c l
  | .access t => ∀ task ∈ s.tasks[t]?, WritesOwn c s task

instance : DecidablePred (Fitting c s)
  | .copyBytes .. | .writeBytes .. => inferInstanceAs (Decidable True)
  | .load i => inferInstanceAs (Decidable (∀ l ∈ s.loadAt i, l.point = _ → TagFits c l))
  | .access t => inferInstanceAs (Decidable (∀ task ∈ s.tasks[t]?, WritesOwn c s task))

/-! ### What holds in every state -/

variable (c) in
structure TasksOk (s : CacheTasks σ) : Prop where
  hasLock : ∀ i l, s.loadAt i = some l → l.point.HasLock → s.lock = some i
  loaded : ∀ i l, s.loadAt i = some l → l.point = .updateMetadata →
    ∀ p, p / c.chunkSize = l.chunkId → s.origin p = some (c.composeAddress l.tag l.chunkId)
  named : ∀ p,
    (∀ i l, s.loadAt i = some l → l.point = .updateMetadata → l.chunkId ≠ p / c.chunkSize) →
    s.origin p = s.namedAddress c (p / c.chunkSize)
  finished : ∀ task ∈ s.tasks, task.result ≠ none → ∀ l ∈ task.loads, l.point = .done

lemma tasksOk_new (store : σ) (memory : PhysicalMemory) : TasksOk c (new store memory) where
  hasLock _ _ h := by cases h
  loaded _ _ h := by cases h
  named _ _ := rfl
  finished := forall_mem_nil _

lemma TasksOk.eq_of_hasLock {i' : ℕ × ℕ} {l' : Load} (hs : TasksOk c s) (hl : s.loadAt i = some l)
    (h : l.point.HasLock) (hl' : s.loadAt i' = some l') (h' : l'.point.HasLock) : i' = i :=
  Option.some.inj ((hs.hasLock i' l' hl' h').symm.trans (hs.hasLock i l hl h))

variable {task : CacheTask}

lemma TasksOk.start (hs : TasksOk c s) (hres : task.result = none)
    (hloa : ∀ l ∈ task.loads, l.point = .readMetadata) :
    TasksOk c { s with tasks := s.tasks ++ [task] } where
  hasLock i l hl hlock := by
    rcases loadAt_append hl with hl | hl
    · exact hs.hasLock i l hl hlock
    · rw [hloa l hl] at hlock
      exact hlock.elim
  loaded i l hl hpt := by
    rcases loadAt_append hl with hl | hl
    · exact hs.loaded i l hl hpt
    · rw [hloa l hl] at hpt
      cases hpt
  named p hnone := by
    refine hs.named p fun i l hl => hnone i l ?_
    simp only [loadAt, bind_eq_some_iff] at hl ⊢
    obtain ⟨task', htask', hl⟩ := hl
    have hlt := (List.getElem?_eq_some_iff.mp htask').1
    exact ⟨task', by rwa [List.getElem?_append_left hlt], hl⟩
  finished task' htask' hfin := by
    rcases mem_append.mp htask' with hmem | hmem
    · exact hs.finished task' hmem hfin
    · rw [mem_singleton.mp hmem] at hfin
      exact absurd hres hfin

variable {t : ℕ}

lemma finish_frame (h : WritesOwn c s task) :
    (s.finish c t task).lock = s.lock ∧ (s.finish c t task).origin = s.origin ∧
      (s.finish c t task).cache.metadata = s.cache.metadata := by
  cases hacc : task.access with
  | copy len => simp only [finish, accessBuffer, hacc, and_self]
  | write src =>
    simp only [WritesOwn, hacc] at h
    simp only [finish, accessBuffer, hacc, true_and, and_true]
    funext p
    split_ifs with hp
    · have hk := h (p - task.offset) (by omega)
      rw [Nat.add_sub_cancel' hp.1] at hk
      exact hk.symm
    · rfl

lemma TasksOk.access (hs : TasksOk c s)
    (htask : s.tasks[t]? = some task) (hdone : ∀ l ∈ task.loads, l.point = .done)
    (hown : WritesOwn c s task) : TasksOk c (s.finish c t task) := by
  obtain ⟨hlock, hori, hmd⟩ := finish_frame (t := t) hown
  refine ⟨fun i l hl => ?_, fun i l hl => ?_, fun p hnone => ?_, fun task' htask' hfin => ?_⟩
  · rw [loadAt_finish htask] at hl
    rw [hlock]
    exact hs.hasLock i l hl
  · rw [loadAt_finish htask] at hl
    rw [hori]
    exact hs.loaded i l hl
  · rw [hori, namedAddress, hmd]
    refine hs.named p fun i l hl => hnone i l ?_
    rwa [loadAt_finish htask]
  · rcases mem_or_eq_of_mem_set htask' with hmem | rfl
    · exact hs.finished task' hmem hfin
    · exact hdone

section load

variable (hs : TasksOk c s) (hl : s.loadAt i = some l) (hmov : Moved c i l s o point s')

include hmov

variable {i' : ℕ × ℕ}

lemma Moved.loadAt_cases {l' : Load} (hl : s.loadAt i = some l)
    (hl' : (s'.setPoint i point).loadAt i' = some l') :
    (i' = i ∧ l' = { l with point }) ∨ i' ≠ i ∧ s.loadAt i' = some l' := by
  have hsame (j : ℕ × ℕ) : s'.loadAt j = s.loadAt j := by
    rw [loadAt, loadAt, hmov.tasks_eq]
  by_cases hi : i' = i
  · subst hi
    rw [loadAt_setPoint_self ((hsame i').trans hl)] at hl'
    exact .inl ⟨rfl, (Option.some.inj hl').symm⟩
  · rw [loadAt_setPoint_of_ne hi, hsame] at hl'
    exact .inr ⟨hi, hl'⟩

lemma Moved.loadAt_self (hl : s.loadAt i = some l) :
    (s'.setPoint i point).loadAt i = some { l with point } := by
  refine loadAt_setPoint_self ?_
  rwa [loadAt, hmov.tasks_eq]

lemma Moved.loadAt_of_ne (hi : i' ≠ i) :
    (s'.setPoint i point).loadAt i' = s.loadAt i' := by
  rw [loadAt_setPoint_of_ne hi, loadAt, hmov.tasks_eq, loadAt]

include hs hl

lemma TasksOk.hasLock_load (i' : ℕ × ℕ) (l' : Load)
    (hl' : (s'.setPoint i point).loadAt i' = some l') (hlock : l'.point.HasLock) :
    (s'.setPoint i point).lock = some i' := by
  rcases hmov.loadAt_cases hl hl' with ⟨rfl, rfl⟩ | ⟨hi, hbef⟩
  · cases hmov with
    | hit hpt | miss md hpt | update hpt => exact hlock.elim
    | lock md hpt hfree => rfl
    | clean md hpt | writeBack md cache hpt | load cache hpt =>
      exact hs.hasLock i' l hl (hpt ▸ trivial)
  · have hoth := hs.hasLock i' l' hbef hlock
    cases hmov with
    | lock md hpt hfree =>
      rw [hfree] at hoth
      cases hoth
    | update hpt => exact absurd (hs.eq_of_hasLock hl (hpt ▸ trivial) hbef hlock) hi
    | hit | miss | clean | writeBack | load => exact hoth

lemma TasksOk.loaded_load (i' : ℕ × ℕ) (l' : Load) (hl' : (s'.setPoint i point).loadAt i' = some l')
    (hpt' : l'.point = .updateMetadata) (p : ℕ) (hp : p / c.chunkSize = l'.chunkId) :
    (s'.setPoint i point).origin p = some (c.composeAddress l'.tag l'.chunkId) := by
  rcases hmov.loadAt_cases hl hl' with ⟨rfl, rfl⟩ | ⟨hi, hbef⟩
  · cases hmov with
    | load cache hpt => exact if_pos hp
    | hit | miss | lock | clean | writeBack | update => cases hpt'
  · have hoth := hs.loaded i' l' hbef hpt' p hp
    have hlock : l'.point.HasLock := hpt' ▸ trivial
    cases hmov with
    | load cache hpt =>
      exact absurd (hs.eq_of_hasLock hl (hpt ▸ trivial) hbef hlock) hi
    | hit | miss | lock | clean | writeBack | update => exact hoth

lemma TasksOk.named_of_ne {p : ℕ}
    (hbef : l.point = .updateMetadata → l.chunkId ≠ p / c.chunkSize)
    (hnone : ∀ i' l', (s'.setPoint i point).loadAt i' = some l' → l'.point = .updateMetadata →
      l'.chunkId ≠ p / c.chunkSize) : s.origin p = s.namedAddress c (p / c.chunkSize) := by
  refine hs.named p fun i' l' hl' hpt' => ?_
  by_cases hi : i' = i
  · subst hi
    obtain rfl := Option.some.inj (hl.symm.trans hl')
    exact hbef hpt'
  · exact hnone i' l' ((hmov.loadAt_of_ne hi).trans hl') hpt'

lemma TasksOk.named_load (hfits : l.point = .updateMetadata → TagFits c l) (p : ℕ)
    (hnone : ∀ i' l', (s'.setPoint i point).loadAt i' = some l' → l'.point = .updateMetadata →
      l'.chunkId ≠ p / c.chunkSize) :
    (s'.setPoint i point).origin p = (s'.setPoint i point).namedAddress c (p / c.chunkSize) := by
  have hkept (hbef : l.point = .updateMetadata → l.chunkId ≠ p / c.chunkSize) :=
    hs.named_of_ne hl hmov hbef hnone
  have hself := hmov.loadAt_self hl
  cases hmov with
  | hit hpt | miss md hpt | lock md hpt | clean md hpt => exact hkept (by simp [hpt])
  | writeBack md cache hpt hmd =>
    simp only [namedAddress, setPoint, hmd]
    exact hkept (by simp [hpt])
  | load cache hpt hmd =>
    -- the chunk that was loaded waits for the update
    have hne : p / c.chunkSize ≠ l.chunkId := (hnone i _ hself rfl).symm
    simp only [namedAddress, setPoint, hmd]
    exact (if_neg hne).trans (hkept (by simp [hpt]))
  | update hpt =>
    by_cases hp : p / c.chunkSize = l.chunkId
    · have hmd : (update l s).namedAddress c l.chunkId =
          some (c.composeAddress l.metadata.tag.toNat l.chunkId) := by
        simp [namedAddress, update, Load.metadata]
      rw [hp]
      exact ((hs.loaded i l hl hpt p hp).trans (congrArg some (hfits hpt).symm)).trans
        hmd.symm
    · simp only [namedAddress, setPoint, update, Function.update_of_ne hp]
      exact hkept fun _ => Ne.symm hp

lemma TasksOk.finished_load (task : CacheTask) (htask : task ∈ (s'.setPoint i point).tasks)
    (hfin : task.result ≠ none) : ∀ l ∈ task.loads, l.point = .done := by
  have hnot : l.point ≠ .done := by
    cases hmov with
    | hit hpt | miss md hpt | lock md hpt | clean md hpt | writeBack md cache hpt
    | load cache hpt | update hpt => simp [hpt]
  obtain ⟨task₀, htask₀, hmem⟩ := bind_eq_some_iff.mp hl
  obtain ⟨t, ht⟩ := mem_iff_getElem?.mp htask
  simp only [setPoint, hmov.tasks_eq, List.getElem?_modify] at ht
  obtain ⟨task', htask', rfl⟩ := map_eq_some_iff.mp ht
  by_cases hi : i.1 = t
  · -- the task of the load has no result
    subst hi
    obtain rfl := Option.some.inj (htask₀.symm.trans htask')
    rw [if_pos rfl] at hfin
    have hdone := hs.finished task₀ (mem_of_getElem? htask₀) hfin
    exact absurd (hdone l (mem_of_getElem? hmem)) hnot
  · rw [if_neg hi] at hfin ⊢
    exact hs.finished task' (mem_of_getElem? htask') hfin

lemma TasksOk.load (hfits : l.point = .updateMetadata → TagFits c l) :
    TasksOk c (s'.setPoint i point) :=
  ⟨hs.hasLock_load hl hmov, hs.loaded_load hl hmov, hs.named_load hl hmov hfits,
    hs.finished_load hl hmov⟩

end load

variable {a : CacheAct}

lemma TasksOk.step (hs : TasksOk c s) (h : step c d a s = some (o, s'))
    (hfit : Fitting c s a) : TasksOk c s' := by
  cases stepped_of_step h with
  | start a task hres hloa => exact hs.start hres hloa
  | load i l o point s₁ hl hmov => exact hs.load hl hmov (hfit l hl)
  | access t task htask hdone => exact hs.access htask hdone (hfit task htask)

/-! ### Write-backs -/

variable (c) in
def WritesBackOwn (e : Core.Event (CacheTasks σ) CacheAct CacheOutcome) : Prop :=
  match e.result with
  | .done => True
  | .wroteBack chunkId address =>
    ∀ p, p / c.chunkSize = chunkId → e.before.origin p = some address

variable (c) in
def Current (e : Core.Event (CacheTasks σ) CacheAct CacheOutcome) : Prop :=
  match e.result with
  | .done => True
  | .wroteBack chunkId address => e.before.namedAddress c chunkId = some address

instance : DecidablePred (Current c (σ := σ)) := fun e =>
  match h : e.result with
  | .done => decidable_of_iff True (by simp only [Current, h])
  | .wroteBack chunkId address =>
    decidable_of_iff (e.before.namedAddress c chunkId = some address) (by simp only [Current, h])

lemma chunkSize_pos_of_new {blockSize pages pa : ℕ}
    (h : BlockCache.new blockSize pages pa = .ok c) : 0 < c.chunkSize := by
  by_cases hzero : blockSize = 0
  · simp [BlockCache.new, hzero] at h
    cases h
  · by_cases hsm : blockSize < pageSize
    · simp only [BlockCache.new, hzero, hsm, ↓reduceIte, pure_bind, bind_eq_ok] at h
      obtain ⟨_, -, _, -, hret⟩ := h
      cases hret
      exact (by decide : 0 < pageSize)
    · simp only [BlockCache.new, hzero, hsm, ↓reduceIte, pure_bind, bind_eq_ok] at h
      obtain ⟨_, -, _, -, _, -, hret⟩ := h
      cases hret
      exact pos_of_ne_zero hzero

lemma writesBackOwn_iff (hs : TasksOk c s) (hsize : 0 < c.chunkSize)
    (h : step c d a s = some (o, s')) :
    WritesBackOwn c ⟨a, o, s, s'⟩ ↔ Current c ⟨a, o, s, s'⟩ := by
  cases stepped_of_step h with
  | start a task hres hloa | access t task htask hdone => exact Iff.rfl
  | load i l o point s₁ hl hmov =>
    cases hmov with
    | hit | miss | lock | clean | load | update => exact Iff.rfl
    | writeBack md cache hpt hmd =>
      have hnam (p : ℕ) (hp : p / c.chunkSize = l.chunkId) :
          s.origin p = s.namedAddress c l.chunkId := by
        rw [← hp]
        refine hs.named p fun i' l' hl' hpt' => ?_
        -- the load itself has the lock, so no other load is about to update
        have hlock' : l'.point.HasLock := hpt' ▸ trivial
        obtain rfl := hs.eq_of_hasLock hl (hpt ▸ trivial) hl' hlock'
        obtain rfl := Option.some.inj (hl.symm.trans hl')
        cases hpt.symm.trans hpt'
      have hfst : l.chunkId * c.chunkSize / c.chunkSize = l.chunkId :=
        Nat.mul_div_cancel _ hsize
      exact ⟨fun hown => (hnam _ hfst).symm.trans (hown _ hfst),
        fun hcur p hp => (hnam p hp).trans hcur⟩

/-- As long as tasks write to chunks that have not been replaced, a write-back goes to the blocks
that the bytes belong to exactly if the metadata have not changed since the load has read them. In
the end the metadata name the blocks that are in the buffer. -/
theorem writesBackOwn_iff_current {blockSize pages pa : ℕ} {store : σ} {memory : PhysicalMemory}
    {events : List (Core.Event (CacheTasks σ) CacheAct CacheOutcome)}
    (hnew : BlockCache.new blockSize pages pa = .ok c)
    (hrun : Core.Run (step c d) (new store memory) events s)
    (hfit : ∀ e ∈ events, Fitting c e.before e.call) :
    ((∀ e ∈ events, WritesBackOwn c e) ↔ ∀ e ∈ events, Current c e) ∧
      ((∀ task ∈ s.tasks, task.result ≠ none) →
        ∀ p, (s.cache.metadata (p / c.chunkSize)).occupied = true →
          s.origin p = some (c.composeAddress (s.cache.metadata (p / c.chunkSize)).tag.toNat
            (p / c.chunkSize))) := by
  have hkeep (a : CacheAct) (s : CacheTasks σ) (o : CacheOutcome) (s' : CacheTasks σ)
      (hs : TasksOk c s) (h : step c d a s = some (o, s')) (hfit : Fitting c s a) : TasksOk c s' :=
    hs.step h hfit
  refine ⟨?_, fun hfin p hocc => ?_⟩
  · have hiff := hrun.forall_iff (I := TasksOk c)
      (P := fun e => WritesBackOwn c e ∧ Fitting c e.before e.call)
      (A := fun e => Current c e ∧ Fitting c e.before e.call) (tasksOk_new store memory)
      (fun a s o s' hs h hok => hkeep a s o s' hs h hok.2)
      fun a s o s' hs h => and_congr_left' (writesBackOwn_iff hs (chunkSize_pos_of_new hnew) h)
    constructor
    · exact fun hown e he => (hiff.mp (fun e he => ⟨hown e he, hfit e he⟩) e he).1
    · exact fun hcur e he => (hiff.mpr (fun e he => ⟨hcur e he, hfit e he⟩) e he).1
  · have hs : TasksOk c s := hrun.invariant (tasksOk_new store memory) hkeep hfit
    rw [hs.named p fun i l hl hpt => ?_]
    · exact if_pos hocc
    · obtain ⟨task, htask, hmem⟩ := bind_eq_some_iff.mp hl
      have htask := mem_of_getElem? htask
      have hdone := hs.finished task htask (hfin task htask) l (mem_of_getElem? hmem)
      cases hdone.symm.trans hpt

/-- A byte is written, and the copy of another chunk writes it back. -/
theorem writesBackOwn_iff_current_two :
    BlockCache.new 2048 1 0 = .ok onePage ∧
    ∃ events s, Core.Run (step onePage (arrayStore 2048)) (new (fun _ => 0) fun _ => 0) events s ∧
      (∃ e ∈ events, e.result = .wroteBack 0 0) ∧ (∀ e ∈ events, WritesBackOwn onePage e) ∧
      (s.cache.metadata 0).tag = 1 ∧ s.origin 0 = some 2 := by
  have hnew : BlockCache.new 2048 1 0 = .ok onePage := by decide
  obtain ⟨events, s, hrun, hback, hcur, hfit, hfin, hocc, htag⟩ :=
    Core.Run.exists_of_execute (step onePage (arrayStore 2048)) (new (fun _ => 0) fun _ => 0)
      [.access 1, .load (1, 0), .load (1, 0), .load (1, 0), .load (1, 0), .load (1, 0),
        .copyBytes 2 0 1, .access 0, .load (0, 0), .load (0, 0), .load (0, 0), .load (0, 0),
        .load (0, 0), .writeBytes 0 0 [7]]
      (Q := fun events s => (∃ e ∈ events, e.result = .wroteBack 0 0) ∧
        (∀ e ∈ events, Current onePage e) ∧ (∀ e ∈ events, Fitting onePage e.before e.call) ∧
        (∀ task ∈ s.tasks, task.result ≠ none) ∧ (s.cache.metadata 0).occupied = true ∧
        (s.cache.metadata 0).tag = 1)
      (by decide +kernel)
  obtain ⟨hiff, hend⟩ := writesBackOwn_iff_current hnew hrun hfit
  have hori := hend hfin 0 hocc
  refine ⟨hnew, events, s, hrun, hback, hiff.mpr hcur, htag, ?_⟩
  rw [hori]
  simp only [Nat.zero_div, htag]
  decide

/-- Two copies read the metadata of a chunk that has been written. The first one replaces the
chunk; the second one then writes the new chunk over the blocks of the old one, and the byte that
was written is lost. -/
theorem wrote_back_elsewhere :
    ∃ events s, Core.Run (step onePage (arrayStore 2048)) (new (fun _ => 0) fun _ => 0) events s ∧
      (∀ e ∈ events, Fitting onePage e.before e.call) ∧
      (∃ e ∈ events, e.result = .wroteBack 0 0 ∧ e.before.origin 0 = some 2) ∧
      (∀ task ∈ s.tasks, task.result ≠ none) ∧ s.cache.store 0 = 0 :=
  Core.Run.exists_of_execute _ _
    [.access 2, .access 1, .load (2, 0), .load (2, 0), .load (2, 0), .load (2, 0), .load (1, 0),
      .load (1, 0), .load (1, 0), .load (1, 0), .load (2, 0), .load (1, 0), .copyBytes 4 0 1,
      .copyBytes 2 0 1, .access 0, .load (0, 0), .load (0, 0), .load (0, 0), .load (0, 0),
      .load (0, 0), .writeBytes 0 0 [7]]
    (by decide +kernel)

/-- A task whose chunk was replaced after its load writes into the chunk of another one. -/
example :
    ∃ x ∈ execute (step onePage (arrayStore 2048)) (new (fun _ => 0) fun _ => 0)
      [.access 0, .access 1, .load (1, 0), .load (1, 0), .load (1, 0), .load (1, 0), .load (1, 0),
        .copyBytes 2 0 1, .load (0, 0), .load (0, 0), .load (0, 0), .load (0, 0), .load (0, 0),
        .writeBytes 0 0 [7]],
      (∀ task ∈ x.2.tasks, task.result ≠ none) ∧ (x.2.cache.metadata 0).tag = 1 ∧
        x.2.origin 0 = some 0 := by
  decide +kernel

end Kernel.Storage.BlockCache.CacheTasks
