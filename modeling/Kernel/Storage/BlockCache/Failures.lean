import Kernel.Core.Runs
import Kernel.Storage.BlockCache.Reads

/-!
# Loads that fail

A load that fails may have overwritten its chunk of the buffer, and the metadata stay as they were.
-/

namespace Kernel.Storage

open Core Memory Action List

variable {σ : Type}

def BlockStore.ReadsOrDamages (d : BlockStore σ) (content : σ → ℕ → UInt8) : Prop :=
  ∀ source address count store memory,
    wp (d.readBlocks source [(address, count)])
      (fun _ s => content s.1 = content store ∧ ∀ a, s.2 a =
        if address ≤ a ∧ a < address + count * d.supportedBlockSize then
          content store (source * d.supportedBlockSize + (a - address)) else memory a)
      (fun _ s => content s.1 = content store ∧ ∀ a,
        ¬ (address ≤ a ∧ a < address + count * d.supportedBlockSize) → s.2 a = memory a)
      (store, memory)

namespace BlockCache

structure Call where
  address : ℕ
  byteOffset : ℕ
  len : ℕ
  deriving DecidableEq

namespace Call

variable (c : BlockCache) (call : Call)

def position : ℕ := BlockCache.position c call.address call.byteOffset

def chunk : ℕ := chunkOf c (call.position c)

def chunkId : ℕ := call.chunk c % 2 ^ c.chunkIdBits

def place (k : ℕ) : ℕ := c.slotAddress (call.chunkId c) (offsetInChunk c (call.position c) + k)

lemma place_eq (k : ℕ) : call.place c k = call.place c 0 + k := by
  simp only [place, slotAddress, add_zero, add_assoc]

def read (memory : PhysicalMemory) : List UInt8 :=
  (List.range call.len).map fun k => memory (call.place c k)

def InOneChunk : Prop :=
  call.address < 2 ^ 64 ∧
    offsetInChunk c (call.position c) + call.len ≤ c.blocksPerChunk * c.blockSize

instance : Decidable (call.InOneChunk c) := inferInstanceAs (Decidable (_ ∧ _))

end Call

def attempt (c : BlockCache) (d : BlockStore σ) (call : Call) (s : State σ) :
    Option (Except StorageError (List UInt8) × State σ) :=
  match copyBytes c d call.address call.byteOffset call.len s with
  | (.ok dst, s') => some (.ok dst, s')
  | (.error (.storage e), s') => some (.error e, s')
  | (.error (.panic _), _) => none

variable {c : BlockCache} {d : BlockStore σ} {content : σ → ℕ → UInt8} {bytes : ℕ → UInt8}
  {s s' : State σ} {call : Call} {r : Except StorageError (List UInt8)}

lemma attempt_eq_some {R : Except StorageError (List UInt8) → State σ → Prop}
    (h : attempt c d call s = some (r, s'))
    (hwp : wp (copyBytes c d call.address call.byteOffset call.len) (fun dst => R (.ok dst))
      (fun e s' => ∀ e', e = .storage e' → R (.error e') s') s) : R r s' := by
  unfold attempt at h
  unfold wp at hwp
  rcases hcopy : copyBytes c d call.address call.byteOffset call.len s with ⟨⟨_ | e⟩ | dst, s₁⟩
  · rw [hcopy] at h
    cases h
  · rw [hcopy] at h hwp
    cases h
    exact hwp e rfl
  · rw [hcopy] at h hwp
    cases h
    exact hwp

/-! ### What a call does -/

lemma chunkOf_mul_add (c : BlockCache) (p : ℕ) :
    chunkOf c p * 2 ^ c.blockOffsetBits * c.blockSize + offsetInChunk c p = p := by
  rw [offsetInChunk, chunkOf, ← add_assoc, ← add_mul, Nat.div_add_mod', Nat.div_add_mod']

def SameOutside (c : BlockCache) (chunkId : ℕ) (memory memory' : PhysicalMemory) : Prop :=
  ∀ a, ¬ (c.slotAddress chunkId 0 ≤ a ∧
    a < c.slotAddress chunkId 0 + c.blocksPerChunk * c.blockSize) → memory' a = memory a

inductive Copied (c : BlockCache) (content : σ → ℕ → UInt8) (call : Call) (s : State σ) :
    Except StorageError (List UInt8) → State σ → Prop where
  | hit (h : 0 < call.len → Loaded c s (call.chunk c)) :
      Copied c content call s (.ok (call.read c s.memory)) s
  | load {store : σ} {memory : PhysicalMemory} (hpos : 0 < call.len)
      (hmiss : ¬ Loaded c s (call.chunk c)) (hcontent : content store = content s.store)
      (hmemory : ∀ j < c.blocksPerChunk * c.blockSize, memory (c.slotAddress (call.chunkId c) j) =
        content s.store (call.chunk c * 2 ^ c.blockOffsetBits * c.blockSize + j))
      (hframe : SameOutside c (call.chunkId c) s.memory memory) :
      Copied c content call s (.ok (call.read c memory))
        (replaced c s (call.chunk c) false store memory)
  | fail {e : StorageError} {store : σ} {memory : PhysicalMemory} (hpos : 0 < call.len)
      (hmiss : ¬ Loaded c s (call.chunk c)) (hcontent : content store = content s.store)
      (hframe : SameOutside c (call.chunkId c) s.memory memory) :
      Copied c content call s (.error e) { s with store, memory }

section

variable (hc : Geometry c) (hd : d.ReadsOrDamages content)
  (hsize : d.supportedBlockSize = c.blockSize)

include hc hd hsize

lemma wp_loadChunk_copied (hpos : 0 < call.len) (hn : call.chunk c * 2 ^ c.blockOffsetBits < 2 ^ 64)
    (hcln : (s.metadata (call.chunkId c)).dirty = false) :
    wp (loadChunk c d (call.chunk c / 2 ^ c.chunkIdBits) (call.chunkId c) false)
      (fun _ s' => Copied c content call s (.ok (call.read c s'.memory)) s')
      (fun e s' => ∀ e', e = .storage e' → Copied c content call s (.error e') s') s := by
  rw [Call.chunkId, hc.wp_loadChunk hn hcln]
  refine ⟨fun hload => .hit fun _ => hload, fun hmiss => ?_⟩
  refine wp_mono (hd _ _ _ _ _) ?_ ?_
  · rintro - ⟨store, memory⟩ ⟨hcont, hmem⟩
    dsimp only at hcont hmem ⊢
    rw [hsize] at hmem
    refine .load hpos hmiss hcont (fun j hj => ?_) fun a ha => ?_
    · rw [memory_replaced, hmem, if_pos]
      · congr 2
        simp only [slotAddress, Call.chunkId]
        omega
      · simp only [slotAddress, Call.chunkId]
        omega
    · rw [memory_replaced, hmem]
      exact if_neg ha
  · rintro e ⟨store, memory⟩ ⟨hcont, hfr⟩ e' he
    rw [hsize] at hfr
    exact .fail hpos hmiss hcont hfr

lemma wp_locate_copied (hloc : call.InOneChunk c) (hcln : ∀ i, (s.metadata i).dirty = false) :
    wp (locate c d call.address call.byteOffset call.len false)
      (fun offset s' => c.bufferPa + offset = call.place c 0 ∧
        Copied c content call s (.ok (call.read c s'.memory)) s')
      (fun e s' => ∀ e', e = .storage e' → Copied c content call s (.error e') s') s := by
  obtain ⟨haddr, hrng⟩ := hloc
  by_cases hok : Decomposable c (call.position c)
  · have hp : BlockCache.position c call.address call.byteOffset = call.position c := rfl
    rw [hc.wp_locate hp hok]
    refine ⟨by simp, fun _ => ?_⟩
    have hpla : c.bufferPa + (call.chunkId c * c.chunkSize + offsetInChunk c (call.position c)) =
        call.place c 0 := by
      simp only [Call.place, slotAddress, add_assoc, add_zero]
    rcases eq_zero_or_pos call.len with hzero | hpos
    · have hnone : divCeil call.len c.chunkSize = 0 := by
        rw [hzero, divCeil, zero_add, Nat.div_eq_of_lt (Nat.sub_one_lt hc.chunkSize_pos.ne')]
      rw [hnone]
      exact wp_checked (fun _ _ => ⟨hpla, .hit fun hpos => absurd hzero hpos.ne'⟩)
        fun _ _ _ => by simp
    · have hone : divCeil call.len c.chunkSize = 1 := by
        have hle := hc.blocks_le
        rw [divCeil, Nat.div_eq_iff hc.chunkSize_pos]
        omega
      have hid : ¬ chunkOf c (call.position c) % 2 ^ c.chunkIdBits > c.numChunks :=
        ((Nat.mod_lt _ (by positivity)).trans_le hc.chunkIds_le).le.not_gt
      have hn : call.chunk c * 2 ^ c.blockOffsetBits < 2 ^ 64 :=
        (Nat.div_mul_le_self _ _).trans_lt hok.fits
      have hload := wp_loadChunk_copied hc hd hsize hpos hn (hcln _)
      rw [hone, wp_loadChunks_one hid]
      refine wp_mono hload (fun _ s' hs' => ?_) fun _ _ => id
      exact wp_checked (fun _ _ => ⟨hpla, hs'⟩) fun _ _ _ => by simp
  · exact hc.wp_locate_of_not_decomposable haddr hok fun _ _ => by simp

lemma copied_of_attempt (hloc : call.InOneChunk c)
    (hcln : ∀ i, (s.metadata i).dirty = false) (h : attempt c d call s = some (r, s')) :
    Copied c content call s r s' := by
  refine attempt_eq_some h ?_
  rw [copyBytes, wp_bind]
  refine wp_mono (wp_locate_copied hc hd hsize hloc hcln) ?_ fun _ _ => id
  rintro offset s' ⟨hpla, hs'⟩
  simp only [wp_bind, wp_get, wp_pure, hpla, ← Call.place_eq]
  exact hs'

end

/-! ### Runs -/

abbrev CopyEvent (σ : Type) := Core.Event (State σ) Call (Except StorageError (List UInt8))

def Loads (c : BlockCache) (chunkId : ℕ) (e : CopyEvent σ) : Prop :=
  e.result.isOk = true ∧ 0 < e.call.len ∧ e.call.chunkId c = chunkId ∧
    ¬ Loaded c e.before (e.call.chunk c)

instance (chunkId : ℕ) (e : CopyEvent σ) : Decidable (Loads c chunkId e) :=
  inferInstanceAs (Decidable (_ ∧ _))

def lastLoad (c : BlockCache) (chunkId : ℕ) (events : List (CopyEvent σ)) : Option (CopyEvent σ) :=
  events.find? fun e => Loads c chunkId e

structure Traced (c : BlockCache) (content : σ → ℕ → UInt8) (bytes : ℕ → UInt8)
    (events : List (CopyEvent σ)) (s : State σ) : Prop where
  content_eq : content s.store = bytes
  clean : ∀ i, (s.metadata i).dirty = false
  slot : ∀ i, (s.metadata i).occupied = true → ∃ e ∈ lastLoad c i events,
    ∀ j < c.blocksPerChunk * c.blockSize, e.after.memory (c.slotAddress i j) =
      bytes (e.call.chunk c * 2 ^ c.blockOffsetBits * c.blockSize + j)

lemma traced_of_default (hs : s.metadata = fun _ => {}) :
    Traced c content (content s.store) [] s where
  content_eq := rfl
  clean := fun i => by rw [hs]
  slot := fun i hi => by
    rw [hs] at hi
    cases hi

variable {events : List (CopyEvent σ)}

lemma lastLoad_cons_of_neg {chunkId : ℕ} {e : CopyEvent σ}
    (h : ¬ Loads c chunkId e) : lastLoad c chunkId (e :: events) = lastLoad c chunkId events :=
  List.find?_cons_of_neg (by simpa using h)

lemma lastLoad_cons_of_pos {chunkId : ℕ} {e : CopyEvent σ}
    (h : Loads c chunkId e) : lastLoad c chunkId (e :: events) = some e :=
  List.find?_cons_of_pos (by simpa using h)

lemma Traced.copied (h : Traced c content bytes events s) (hcop : Copied c content call s r s') :
    Traced c content bytes (⟨call, r, s, s'⟩ :: events) s' := by
  cases hcop with
  | hit hload =>
    refine ⟨h.content_eq, h.clean, fun i hi => ?_⟩
    rw [lastLoad_cons_of_neg fun hl => hl.2.2.2 (hload hl.2.1)]
    exact h.slot i hi
  | load hpos hmiss hcont hmem hfr =>
    refine ⟨hcont.trans h.content_eq, fun i => ?_, fun i hi => ?_⟩
    · by_cases hid : i = call.chunk c % 2 ^ c.chunkIdBits
      · rw [hid, metadata_replaced_self]
      · rw [metadata_replaced_of_ne hid]
        exact h.clean i
    · by_cases hid : i = call.chunkId c
      · subst hid
        refine ⟨_, lastLoad_cons_of_pos ⟨rfl, hpos, rfl, hmiss⟩, fun j hj => ?_⟩
        rw [← h.content_eq]
        exact hmem j hj
      · rw [metadata_replaced_of_ne hid] at hi
        rw [lastLoad_cons_of_neg fun hl => hid hl.2.2.1.symm]
        exact h.slot i hi
  | fail hpos hmiss hcont hfr =>
    refine ⟨hcont.trans h.content_eq, h.clean, fun i hi => ?_⟩
    rw [lastLoad_cons_of_neg (by rintro ⟨hok, -⟩; cases hok)]
    exact h.slot i hi

lemma traced_of_run (hc : Geometry c) (hd : d.ReadsOrDamages content)
    (hsize : d.supportedBlockSize = c.blockSize) {s₀ : State σ} (hs₀ : s₀.metadata = fun _ => {})
    (hrun : Core.Run (attempt c d) s₀ events s) (hloc : ∀ e ∈ events, e.call.InOneChunk c) :
    Traced c content (content s₀.store) events s := by
  induction hrun with
  | nil => exact traced_of_default hs₀
  | call _ hstep ih =>
    obtain ⟨hcall, hbef⟩ := forall_mem_cons.mp hloc
    have h := ih hbef
    exact h.copied (copied_of_attempt hc hd hsize hcall h.clean hstep)

/-- If the chunk of the range seems to be in the buffer, then the bytes of the range are still
those that its load has left there. Where the metadata keep less than the whole tag and another
chunk was loaded, they are those of the store. -/
def Intact (c : BlockCache) (content : σ → ℕ → UInt8) (events : List (CopyEvent σ)) (s : State σ)
    (call : Call) : Prop :=
  Loaded c s (call.chunk c) → ∀ e ∈ lastLoad c (call.chunkId c) events, ∀ k < call.len,
    s.memory (call.place c k) =
      if e.call.chunk c = call.chunk c then e.after.memory (call.place c k)
      else content s.store (call.position c + k)

instance (events : List (CopyEvent σ)) : Decidable (Intact c content events s call) :=
  inferInstanceAs (Decidable (_ → ∀ e ∈ lastLoad c _ events, ∀ k < call.len, _ = _))

/-- After any run of `copy_bytes` in which loads may fail, a call that returns bytes returns those
of the store if and only if no failed load has left other bytes in their place. -/
theorem copies_store_iff_intact {pages bufferPa : ℕ} {s₀ : State σ} {events : List (CopyEvent σ)}
    (hd : d.ReadsOrDamages content) (hbuffer : bufferPa + pages * pageSize ≤ 2 ^ 64)
    (hnew : new d.supportedBlockSize pages bufferPa = .ok c) (hs₀ : s₀.metadata = fun _ => {})
    (hrun : Core.Run (attempt c d) s₀ events s) (hlocal : ∀ e ∈ events, e.call.InOneChunk c)
    {dst : List UInt8} (hcall : call.InOneChunk c) (hok : attempt c d call s = some (.ok dst, s')) :
    dst = (List.range call.len).map (fun k => content s.store (call.position c + k)) ↔
      Intact c content events s call := by
  obtain ⟨hc, hsize⟩ := geometry_of_new hbuffer hnew
  have h := traced_of_run hc hd hsize.symm hs₀ hrun hlocal
  have hrng := hcall.2
  have hposi (k : ℕ) : call.position c + k =
      call.chunk c * 2 ^ c.blockOffsetBits * c.blockSize +
        (offsetInChunk c (call.position c) + k) := by
    rw [← add_assoc, Call.chunk, chunkOf_mul_add]
  cases copied_of_attempt hc hd hsize.symm hcall h.clean hok with
  | hit hload =>
    rw [Call.read, map_inj_left]
    simp only [mem_range]
    -- what the bytes are compared with is what the store has
    have hstr (e : CopyEvent σ) (he : e ∈ lastLoad c (call.chunkId c) events)
        (hl : Loaded c s (call.chunk c)) (k : ℕ) (hk : k < call.len) :
        (if e.call.chunk c = call.chunk c then e.after.memory (call.place c k)
          else content s.store (call.position c + k)) = content s.store (call.position c + k) := by
      obtain ⟨e', he', hbyt⟩ := h.slot _ hl.1
      obtain rfl := Option.mem_unique he he'
      split_ifs with hchk
      · rw [hposi, h.content_eq, ← hchk]
        exact hbyt _ (by omega)
      · rfl
    constructor
    · intro hread hl e he k hk
      rw [hstr e he hl k hk]
      exact hread k hk
    · intro hint k hk
      have hl := hload (Nat.zero_lt_of_lt hk)
      obtain ⟨e, he, -⟩ := h.slot _ hl.1
      rw [hint hl e he k hk, hstr e he hl k hk]
  | load hpos hmiss hcont hmem hfr =>
    refine ⟨fun _ hload => absurd hload hmiss, fun _ => map_congr_left fun k hk => ?_⟩
    have hk' := mem_range.mp hk
    rw [hposi]
    exact hmem _ (by omega)

/-! ### A store that fails -/

def flakyStore (blockSize : ℕ) : BlockStore (List Bool × (ℕ → UInt8)) where
  supportedBlockSize := blockSize
  readBlocks source destinations := fun ((outcomes, content), memory) =>
    if outcomes.headD true then
      (.ok (destinations.map Prod.snd).sum, (outcomes.tail, content),
        copyIn blockSize content (source * blockSize) destinations memory)
    else
      (.error (.deviceError "read failed"), (outcomes.tail, content),
        copyIn 1 content (source * blockSize) destinations memory)
  writeBlocks _ _ := fun s => (.error (.deviceError "write failed"), s)

lemma flakyStore_readsOrDamages {blockSize : ℕ} (h : 0 < blockSize) :
    (flakyStore blockSize).ReadsOrDamages Prod.snd := by
  rintro source address count ⟨outcomes, content⟩ memory
  unfold wp flakyStore
  by_cases hok : outcomes.headD true = true
  · simp only [hok, ↓reduceIte]
    exact ⟨trivial, fun _ => rfl⟩
  · simp only [hok, Bool.false_eq_true, ↓reduceIte]
    refine ⟨trivial, fun a ha => if_neg fun hin => ha ⟨hin.1, hin.2.trans_le ?_⟩⟩
    exact Nat.add_le_add_left (Nat.mul_le_mul_left count h) address

def secondFails : State (List Bool × (ℕ → UInt8)) :=
  ⟨([true, false], fun p => UInt8.ofNat (p / 4096)), fun _ => 0, fun _ => {}⟩

/-- A byte that the failed read has not reached is still right. -/
theorem copies_store_behind_damage :
    ∃ events s s', Core.Run (attempt onePage (flakyStore 2048)) secondFails events s ∧
      events.length = 2 ∧
      attempt onePage (flakyStore 2048) ⟨0, 2, 1⟩ s = some (.ok [0], s') ∧
      [0] = (List.range 1).map fun k => s.store.2 (Call.position onePage ⟨0, 2, 1⟩ + k) := by
  obtain ⟨events, s, hrun, hlen, hloc, hres, hint⟩ :=
    Core.Run.exists_of_execute (attempt onePage (flakyStore 2048)) secondFails
      [⟨2, 0, 1⟩, ⟨0, 0, 1⟩]
      (Q := fun events s => events.length = 2 ∧ (∀ e ∈ events, e.call.InOneChunk onePage) ∧
        (attempt onePage (flakyStore 2048) ⟨0, 2, 1⟩ s).map Prod.fst = some (.ok [0]) ∧
        Intact onePage Prod.snd events s ⟨0, 2, 1⟩) (by decide +kernel)
  obtain ⟨⟨r, s'⟩, hok, hr⟩ := Option.map_eq_some_iff.mp hres
  obtain rfl : r = .ok [0] := hr
  have hnew : new 2048 1 0 = .ok onePage := by decide
  refine ⟨events, s, s', hrun, hlen, hok, ?_⟩
  exact (copies_store_iff_intact (flakyStore_readsOrDamages (by decide)) (by decide) hnew rfl hrun
    hloc (by decide) hok).mpr hint

/-- Chunk 0 is read, the read of chunk 1 fails when it has overwritten the first bytes, and the
next read of chunk 0 returns one of them. -/
theorem copies_damaged_byte :
    ∃ events s, Core.Run (attempt onePage (flakyStore 2048)) secondFails events s ∧
      (∀ e ∈ events, e.call.InOneChunk onePage) ∧
      events.map (fun e =>
          (e.call, e.result.toOption, e.before.store.2 (e.call.position onePage))) =
        [(⟨0, 0, 1⟩, some [1], 0), (⟨2, 0, 1⟩, none, 1), (⟨0, 0, 1⟩, some [0], 0)] :=
  Core.Run.exists_of_execute _ _ [⟨0, 0, 1⟩, ⟨2, 0, 1⟩, ⟨0, 0, 1⟩] (by decide +kernel)

end BlockCache

end Kernel.Storage
