import Kernel.Core.Runs
import Kernel.Storage.BlockCache.Properties

/-!
# Tasks that share a block cache

Each task loads the chunks of its range, with one future for each chunk, and then accesses the
buffer.
-/

namespace Kernel.Storage.BlockCache

open Core Memory Option

inductive LoadPoint where
  | readMetadata
  | lockStore (md : ChunkMetadata)
  | writeBack (md : ChunkMetadata)
  | readBlocks
  | updateMetadata
  | done
  deriving DecidableEq

def LoadPoint.HasLock : LoadPoint → Prop
  | .writeBack _ | .readBlocks | .updateMetadata => True
  | .readMetadata | .lockStore _ | .done => False

structure Load where
  tag : ℕ
  chunkId : ℕ
  markDirty : Bool
  point : LoadPoint
  deriving DecidableEq

def Load.metadata (l : Load) : ChunkMetadata := ⟨BitVec.ofNat 62 l.tag, true, l.markDirty⟩

inductive BufferAccess where
  | copy (len : ℕ)
  | write (src : List UInt8)
  deriving DecidableEq

def BufferAccess.len : BufferAccess → ℕ
  | .copy len => len
  | .write src => src.length

structure CacheTask where
  address : ℕ
  byteOffset : ℕ
  loads : List Load
  offset : ℕ
  access : BufferAccess
  result : Option (List UInt8)
  deriving DecidableEq

def CacheTask.chunkAddress (c : BlockCache) (task : CacheTask) (k : ℕ) : ℕ :=
  (task.address + (task.byteOffset + k) / c.blockSize) / c.blocksPerChunk * c.blocksPerChunk

structure CacheTasks (σ : Type) where
  cache : State σ
  lock : Option (ℕ × ℕ)
  tasks : List CacheTask
  origin : ℕ → Option ℕ

inductive CacheAct where
  | copyBytes (address byteOffset len : ℕ)
  | writeBytes (address byteOffset : ℕ) (src : List UInt8)
  | load (i : ℕ × ℕ)
  | access (task : ℕ)
  deriving DecidableEq

inductive CacheOutcome where
  | done
  | wroteBack (chunkId address : ℕ)
  deriving DecidableEq

def chunkLoads (c : BlockCache) (startingTag startingChunkId numChunksInclusive : ℕ)
    (markDirty : Bool) : List Load :=
  (List.range numChunksInclusive).map fun i =>
    let chunkId := startingChunkId + i
    if chunkId > c.numChunks then
      ⟨startingTag + chunkId / c.numChunks, chunkId % c.numChunks, markDirty, .readMetadata⟩
    else ⟨startingTag, chunkId, markDirty, .readMetadata⟩

def startTask (c : BlockCache) (address byteOffset : ℕ) (markDirty : Bool)
    (access : BufferAccess) : Checked CacheTask := do
  let address ← (if byteOffset ≥ c.blockSize then
    checkedAdd address (byteOffset / c.blockSize) else .ok address)
  let byteOffset := if byteOffset ≥ c.blockSize then byteOffset % c.blockSize else byteOffset
  let (startingTag, startingChunkId, initialBlockOffset) ← c.decomposeAddress address
  let numChunksInclusive := divCeil access.len c.chunkSize
  let offset := startingChunkId * c.chunkSize + initialBlockOffset * c.blockSize + byteOffset
  if numChunksInclusive > c.numChunks then .error .todo
  else
    let loads := chunkLoads c startingTag startingChunkId numChunksInclusive markDirty
    .ok { address, byteOffset, loads, offset, access, result := none }

variable {c : BlockCache} {markDirty : Bool}

lemma point_of_mem_chunkLoads {startingTag startingChunkId n : ℕ} {l : Load}
    (h : l ∈ chunkLoads c startingTag startingChunkId n markDirty) :
    l.point = .readMetadata := by
  simp only [chunkLoads, List.mem_map] at h
  obtain ⟨i, -, rfl⟩ := h
  split_ifs <;> rfl

lemma startTask_spec {address byteOffset : ℕ}
    {access : BufferAccess} {task : CacheTask}
    (h : startTask c address byteOffset markDirty access = .ok task) :
    task.result = none ∧ ∀ l ∈ task.loads, l.point = .readMetadata := by
  simp only [startTask, bind_eq_ok] at h
  obtain ⟨_, -, ⟨_, _, _⟩, -, hret⟩ := h
  split_ifs at hret
  all_goals
    cases hret
    exact ⟨rfl, fun l hl => point_of_mem_chunkLoads hl⟩

namespace CacheTasks

variable {σ : Type}

def new (store : σ) (memory : PhysicalMemory) : CacheTasks σ :=
  ⟨⟨store, memory, fun _ => {}⟩, none, [], fun _ => none⟩

def callStore {α : Type} (x : Action (σ × PhysicalMemory) StorageError α) (s : State σ) :
    Option (State σ) :=
  match x (s.store, s.memory) with
  | (.ok _, store, memory) => some { s with store, memory }
  | (.error _, _) => none

lemma metadata_of_callStore {α : Type} {x : Action (σ × PhysicalMemory) StorageError α}
    {s s' : State σ} (h : callStore x s = some s') : s'.metadata = s.metadata := by
  unfold callStore at h
  split at h
  · cases h
    rfl
  · cases h

def loadAt (s : CacheTasks σ) (i : ℕ × ℕ) : Option Load :=
  s.tasks[i.1]?.bind fun task => task.loads[i.2]?

def setPoint (i : ℕ × ℕ) (point : LoadPoint) (s : CacheTasks σ) : CacheTasks σ :=
  { s with tasks := s.tasks.modify i.1 fun task =>
      { task with loads := task.loads.modify i.2 fun l => { l with point } } }

variable (c : BlockCache) (d : BlockStore σ)

def load (l : Load) (s : CacheTasks σ) : CacheTasks σ :=
  { s with origin := fun p =>
      if p / c.chunkSize = l.chunkId then some (c.composeAddress l.tag l.chunkId)
      else s.origin p }

def update (l : Load) (s : CacheTasks σ) : CacheTasks σ :=
  { s with
    cache := { s.cache with metadata := Function.update s.cache.metadata l.chunkId l.metadata }
    lock := none }

def stepLoad (i : ℕ × ℕ) (l : Load) (s : CacheTasks σ) :
    Option (CacheOutcome × LoadPoint × CacheTasks σ) :=
  match l.point with
  | .readMetadata =>
    if l.chunkId < c.numChunks then
      let md := s.cache.metadata l.chunkId
      some (.done, if ¬ md.occupied ∨ md.tag.toNat ≠ l.tag then .lockStore md else .done, s)
    else none
  | .lockStore md =>
    if s.lock = none then some (.done, .writeBack md, { s with lock := some i }) else none
  | .writeBack md =>
    if md.dirty then
      let address := c.composeAddress md.tag.toNat l.chunkId
      (callStore (d.writeBlocks [(c.chunkPhyAddr l.chunkId, c.blocksPerChunk)] address)
        s.cache).map fun cache => (.wroteBack l.chunkId address, .readBlocks, { s with cache })
    else some (.done, .readBlocks, s)
  | .readBlocks =>
    let address := c.composeAddress l.tag l.chunkId
    (callStore (d.readBlocks address [(c.chunkPhyAddr l.chunkId, c.blocksPerChunk)])
      s.cache).map fun cache => (.done, .updateMetadata, { s.load c l with cache })
  | .updateMetadata => some (.done, .done, s.update l)
  | .done => none

def accessBuffer (task : CacheTask) (s : CacheTasks σ) : List UInt8 × CacheTasks σ :=
  let start := c.bufferPa + task.offset
  match task.access with
  | .copy len => ((List.range len).map fun i => s.cache.memory (start + i), s)
  | .write src =>
    ([], { s with
      cache := { s.cache with memory := fun a =>
        if start ≤ a then (src[a - start]?).getD (s.cache.memory a) else s.cache.memory a }
      origin := fun p =>
        if task.offset ≤ p ∧ p < task.offset + src.length then
          some (task.chunkAddress c (p - task.offset))
        else s.origin p })

def start (task : Checked CacheTask) (s : CacheTasks σ) : Option (CacheOutcome × CacheTasks σ) :=
  match task with
  | .ok task => some (.done, { s with tasks := s.tasks ++ [task] })
  | .error _ => none

def finish (t : ℕ) (task : CacheTask) (s : CacheTasks σ) : CacheTasks σ :=
  let (bytes, s') := s.accessBuffer c task
  { s' with tasks := s.tasks.set t { task with result := some bytes } }

def step : CacheAct → CacheTasks σ → Option (CacheOutcome × CacheTasks σ)
  | .copyBytes address byteOffset len, s =>
    start (startTask c address byteOffset false (.copy len)) s
  | .writeBytes address byteOffset src, s =>
    start (startTask c address byteOffset true (.write src)) s
  | .load i, s =>
    (s.loadAt i).bind fun l =>
      (stepLoad c d i l s).map fun (o, point, s') => (o, s'.setPoint i point)
  | .access t, s =>
    s.tasks[t]?.bind fun task =>
      if (∀ l ∈ task.loads, l.point = .done) ∧ task.result = none ∧
          task.offset + task.access.len ≤ c.bufferLen then
        some (.done, s.finish c t task)
      else none

/-! ### The loads after a step -/

section loadAt

variable {s : CacheTasks σ} {i i' : ℕ × ℕ} {l : Load} {point : LoadPoint}

lemma loadAt_setPoint_self (h : s.loadAt i = some l) :
    (s.setPoint i point).loadAt i = some { l with point } := by
  simp only [loadAt, bind_eq_some_iff] at h
  obtain ⟨task, htask, hl⟩ := h
  simp [loadAt, setPoint, htask, hl]

lemma loadAt_setPoint_of_ne (h : i' ≠ i) : (s.setPoint i point).loadAt i' = s.loadAt i' := by
  by_cases ht : i.1 = i'.1
  · have hj : i.2 ≠ i'.2 := fun hj => h (Prod.ext ht hj).symm
    cases htask : s.tasks[i'.1]? <;> simp [loadAt, setPoint, ht, htask, hj]
  · simp [loadAt, setPoint, ht]

variable {task : CacheTask}

lemma loadAt_finish {c : BlockCache} {t : ℕ} (h : s.tasks[t]? = some task) :
    (s.finish c t task).loadAt i = s.loadAt i := by
  obtain ⟨hlt, -⟩ := List.getElem?_eq_some_iff.mp h
  by_cases ht : t = i.1
  · subst ht
    simp [loadAt, finish, h, List.getElem?_set_self hlt]
  · simp [loadAt, finish, List.getElem?_set_ne ht]

lemma loadAt_append
    (h : ({ s with tasks := s.tasks ++ [task] } : CacheTasks σ).loadAt i = some l) :
    s.loadAt i = some l ∨ l ∈ task.loads := by
  simp only [loadAt, bind_eq_some_iff, List.getElem?_append] at h ⊢
  obtain ⟨task', htask', hl⟩ := h
  split_ifs at htask' with hlt
  · exact .inl ⟨task', htask', hl⟩
  · right
    obtain rfl := List.mem_singleton.mp (List.mem_of_getElem? htask')
    exact List.mem_of_getElem? hl

end loadAt

inductive Moved (i : ℕ × ℕ) (l : Load) (s : CacheTasks σ) :
    CacheOutcome → LoadPoint → CacheTasks σ → Prop where
  | hit (hpoint : l.point = .readMetadata) : Moved i l s .done .done s
  | miss (md : ChunkMetadata) (hpoint : l.point = .readMetadata) :
      Moved i l s .done (.lockStore md) s
  | lock (md : ChunkMetadata) (hpoint : l.point = .lockStore md) (hfree : s.lock = none) :
      Moved i l s .done (.writeBack md) { s with lock := some i }
  | clean (md : ChunkMetadata) (hpoint : l.point = .writeBack md) :
      Moved i l s .done .readBlocks s
  | writeBack (md : ChunkMetadata) (cache : State σ) (hpoint : l.point = .writeBack md)
      (hmetadata : cache.metadata = s.cache.metadata) :
      Moved i l s (.wroteBack l.chunkId (c.composeAddress md.tag.toNat l.chunkId)) .readBlocks
        { s with cache }
  | load (cache : State σ) (hpoint : l.point = .readBlocks)
      (hmetadata : cache.metadata = s.cache.metadata) :
      Moved i l s .done .updateMetadata { s.load c l with cache }
  | update (hpoint : l.point = .updateMetadata) : Moved i l s .done .done (s.update l)

inductive Stepped (s : CacheTasks σ) : CacheAct → CacheOutcome → CacheTasks σ → Prop where
  | start (a : CacheAct) (task : CacheTask) (hresult : task.result = none)
      (hloads : ∀ l ∈ task.loads, l.point = .readMetadata) :
      Stepped s a .done { s with tasks := s.tasks ++ [task] }
  | load (i : ℕ × ℕ) (l : Load) (o : CacheOutcome) (point : LoadPoint) (s' : CacheTasks σ)
      (hl : s.loadAt i = some l) (hmoved : Moved c i l s o point s') :
      Stepped s (.load i) o (s'.setPoint i point)
  | access (t : ℕ) (task : CacheTask) (htask : s.tasks[t]? = some task)
      (hdone : ∀ l ∈ task.loads, l.point = .done) :
      Stepped s (.access t) .done (s.finish c t task)

variable {c d} {s s' : CacheTasks σ} {i : ℕ × ℕ} {l : Load} {o : CacheOutcome} {point : LoadPoint}

lemma moved_of_stepLoad (h : stepLoad c d i l s = some (o, point, s')) :
    Moved c i l s o point s' := by
  unfold stepLoad at h
  split at h
  next hpt =>
    obtain ⟨-, h⟩ := ite_none_right_eq_some.mp h
    dsimp only at h
    split_ifs at h
    · cases h
      exact .miss _ hpt
    · cases h
      exact .hit hpt
  next md hpt =>
    obtain ⟨hfree, h⟩ := ite_none_right_eq_some.mp h
    cases h
    exact .lock md hpt hfree
  next md hpt =>
    split_ifs at h
    · obtain ⟨cache, hcall, heq⟩ := map_eq_some_iff.mp h
      cases heq
      exact .writeBack md cache hpt (metadata_of_callStore hcall)
    · cases h
      exact .clean md hpt
  next hpt =>
    obtain ⟨cache, hcall, heq⟩ := map_eq_some_iff.mp h
    cases heq
    exact .load cache hpt (metadata_of_callStore hcall)
  next hpt =>
    cases h
    exact .update hpt
  next => cases h

lemma Moved.tasks_eq (h : Moved c i l s o point s') : s'.tasks = s.tasks := by
  cases h <;> rfl

variable {a : CacheAct}

lemma stepped_of_start {address byteOffset : ℕ} {markDirty : Bool}
    {access : BufferAccess}
    (h : start (startTask c address byteOffset markDirty access) s = some (o, s')) :
    Stepped c s a o s' := by
  unfold start at h
  split at h
  next task htask =>
    cases h
    obtain ⟨hres, hloa⟩ := startTask_spec htask
    exact .start a task hres hloa
  next => cases h

lemma stepped_of_step (h : step c d a s = some (o, s')) :
    Stepped c s a o s' := by
  cases a with
  | copyBytes address byteOffset len | writeBytes address byteOffset src => exact stepped_of_start h
  | load i =>
    obtain ⟨l, hl, h⟩ := bind_eq_some_iff.mp h
    obtain ⟨⟨o', point, s₁⟩, hload, heq⟩ := map_eq_some_iff.mp h
    cases heq
    exact .load i l _ point s₁ hl (moved_of_stepLoad hload)
  | access t =>
    obtain ⟨task, htask, h⟩ := bind_eq_some_iff.mp h
    obtain ⟨⟨hdone, -⟩, h⟩ := ite_none_right_eq_some.mp h
    cases h
    exact .access t task htask hdone

/-! ### A load without anything in between -/

section alone

open Action

lemma wp_callStore_of_some {α : Type} {x : Action (σ × PhysicalMemory) StorageError α}
    {Q : State σ → Prop} {cache : State σ}
    (h : ∀ cache', callStore x cache = some cache' → Q cache') :
    wp (BlockCache.callStore x) (fun _ => Q) (fun _ _ => True) cache := by
  unfold wp BlockCache.callStore
  unfold callStore at h
  split at h
  next hx =>
    rw [hx]
    exact h _ rfl
  next hx =>
    rw [hx]
    trivial

def LoadsAlone (c : BlockCache) (d : BlockStore σ) (i : ℕ × ℕ) (s s' : CacheTasks σ) : Prop :=
  ∃ events, Core.Run (step c d) s events s' ∧ ∀ e ∈ events, e.call = .load i

lemma exists_run_load {Q : CacheTasks σ → Prop} (hl : s.loadAt i = some l)
    (h : stepLoad c d i l s = some (o, point, s'))
    (hrest : ∃ s'', LoadsAlone c d i (s'.setPoint i point) s'' ∧ Q s'') :
    ∃ s'', LoadsAlone c d i s s'' ∧ Q s'' := by
  obtain ⟨s'', ⟨events, hrun, hall⟩, hQ⟩ := hrest
  have hstep : step c d (.load i) s = some (o, s'.setPoint i point) := by
    simp [step, hl, h]
  refine ⟨s'', ⟨_, (Core.Run.nil.call hstep).append hrun, ?_⟩, hQ⟩
  exact List.forall_mem_append.mpr ⟨hall, List.forall_mem_singleton.mpr rfl⟩

lemma wp_readBlocks_run (hl : s.loadAt i = some l) (hpt : l.point = .readBlocks) :
    wp (do
        let _ ← BlockCache.callStore (d.readBlocks (c.composeAddress l.tag l.chunkId)
          [(c.chunkPhyAddr l.chunkId, c.blocksPerChunk)])
        .modify fun s =>
          { s with metadata := Function.update s.metadata l.chunkId l.metadata })
      (fun _ cache => ∃ s', LoadsAlone c d i s s' ∧ s'.lock = none ∧ s'.cache = cache)
      (fun _ _ => True) s.cache := by
  rw [wp_bind]
  refine wp_callStore_of_some fun cache hcall => ?_
  have hread : stepLoad c d i l s =
      some (.done, .updateMetadata, { s.load c l with cache }) := by
    simp [stepLoad, hpt, hcall]
  refine exists_run_load hl hread (exists_run_load (loadAt_setPoint_self hl) rfl ?_)
  exact ⟨_, ⟨[], .nil, by simp⟩, rfl, rfl⟩

/-- A load that finds the lock free and is not interrupted does what `load_chunk` does. -/
theorem wp_loadChunk_run (hl : s.loadAt i = some l) (hpt : l.point = .readMetadata)
    (hfree : s.lock = none) :
    wp (loadChunk c d l.tag l.chunkId l.markDirty)
      (fun _ cache => ∃ s', LoadsAlone c d i s s' ∧ s'.lock = none ∧ s'.cache = cache)
      (fun _ _ => True) s.cache := by
  rw [loadChunk, wp_bind]
  refine wp_checked (fun _ hid => ?_) fun _ _ => trivial
  have hid : l.chunkId < c.numChunks := by
    by_contra hlt
    rw [if_neg hlt] at hid
    cases hid
  rw [wp_bind, wp_get, wp_ite]
  refine ⟨fun hmiss => ?_, fun hhit => ?_⟩
  · set md := s.cache.metadata l.chunkId with hmd
    -- the steps up to the lock
    have hread : stepLoad c d i l s = some (.done, .lockStore md, s) := by
      simp only [stepLoad, hpt, hid, ← hmd, hmiss, ↓reduceIte]
    have hl₁ : (s.setPoint i (.lockStore md)).loadAt i = some { l with point := .lockStore md } :=
      loadAt_setPoint_self hl
    let s₁ : CacheTasks σ := { s.setPoint i (.lockStore md) with lock := some i }
    have hlock : stepLoad c d i { l with point := .lockStore md } (s.setPoint i (.lockStore md)) =
        some (.done, .writeBack md, s₁) := if_pos hfree
    let s₂ := s₁.setPoint i (.writeBack md)
    have hl₂ : s₂.loadAt i = some { l with point := .writeBack md } :=
      loadAt_setPoint_self (s := s₁) (l := { l with point := .lockStore md }) hl₁
    rw [wp_ite]
    refine ⟨fun hdrt => ?_, fun hcln => ?_⟩
    · rw [wp_bind]
      refine wp_callStore_of_some fun cache hcall => ?_
      let s₃ : CacheTasks σ := { s₂ with cache }
      have hwr : stepLoad c d i { l with point := .writeBack md } s₂ =
          some (.wroteBack l.chunkId (c.composeAddress md.tag.toNat l.chunkId),
            .readBlocks, s₃) := by
        simp only [stepLoad, hdrt, ↓reduceIte]
        exact map_eq_some_iff.mpr ⟨cache, hcall, rfl⟩
      have hl₃ : (s₃.setPoint i .readBlocks).loadAt i = some { l with point := .readBlocks } :=
        loadAt_setPoint_self (s := s₃) (l := { l with point := .writeBack md }) hl₂
      have hend := wp_readBlocks_run (c := c) (d := d) hl₃ rfl
      refine wp_mono hend ?_ fun _ _ _ => trivial
      intro _ cache' hrest
      exact exists_run_load hl hread (exists_run_load hl₁ hlock (exists_run_load hl₂ hwr hrest))
    · have hkeep : stepLoad c d i { l with point := .writeBack md } s₂ =
          some (.done, .readBlocks, s₂) := if_neg hcln
      have hl₃ : (s₂.setPoint i .readBlocks).loadAt i = some { l with point := .readBlocks } :=
        loadAt_setPoint_self (l := { l with point := .writeBack md }) hl₂
      have hend := wp_readBlocks_run (c := c) (d := d) hl₃ rfl
      refine wp_mono hend ?_ fun _ _ _ => trivial
      intro _ cache' hrest
      exact exists_run_load hl hread (exists_run_load hl₁ hlock (exists_run_load hl₂ hkeep hrest))
  · have hread : stepLoad c d i l s = some (.done, .done, s) := by
      simp only [stepLoad, hpt, hid, hhit, ↓reduceIte]
    exact exists_run_load hl hread ⟨_, ⟨[], .nil, by simp⟩, hfree, rfl⟩

def firstLoad : CacheTasks (ℕ → UInt8) :=
  ⟨zeroed, none, [⟨2, 0, [⟨1, 0, true, .readMetadata⟩], 0, .write [7], none⟩], fun _ => none⟩

/-- A chunk is loaded into an empty cache, to be written to. -/
theorem wp_loadChunk_run_first : ∃ s', LoadsAlone onePage (arrayStore 2048) (0, 0) firstLoad s' ∧
    s'.lock = none ∧ s'.cache.metadata 0 = ⟨1, true, true⟩ := by
  have hload : wp (loadChunk onePage (arrayStore 2048) 1 0 true) _ _ _ :=
    wp_loadChunk_run (s := firstLoad) (i := (0, 0)) rfl rfl rfl
  obtain ⟨s', hrun, hfree, hcache⟩ := wp_ok hload rfl
  exact ⟨s', hrun, hfree, by rw [hcache]; rfl⟩

end alone

end CacheTasks

end Kernel.Storage.BlockCache
