import Kernel.Storage.BlockCache.Address

/-!
# The block cache returns what was written last

The bytes of the store, and of the cache in front of it, are numbered from the first byte of block
zero on.
-/

namespace Kernel.Storage

open Core Memory Action BlockCache Function

variable {σ : Type}

structure BlockStore.IsArray (d : BlockStore σ) (content : σ → ℕ → UInt8) : Prop where
  readBlocks : ∀ source address count store memory,
    wp (d.readBlocks source [(address, count)])
      (fun _ s => content s.1 = content store ∧ ∀ a, s.2 a =
        if address ≤ a ∧ a < address + count * d.supportedBlockSize then
          content store (source * d.supportedBlockSize + (a - address)) else memory a)
      (fun _ _ => True) (store, memory)
  writeBlocks : ∀ address count destination store memory,
    wp (d.writeBlocks [(address, count)] destination)
      (fun _ s => s.2 = memory ∧ ∀ p, content s.1 p =
        if destination * d.supportedBlockSize ≤ p ∧
            p < destination * d.supportedBlockSize + count * d.supportedBlockSize then
          memory (address + (p - destination * d.supportedBlockSize)) else content store p)
      (fun _ _ => True) (store, memory)

namespace BlockCache

variable {c : BlockCache} {d : BlockStore σ} {content : σ → ℕ → UInt8} {bytes : ℕ → UInt8}
  {s s' : State σ} {n : ℕ}

variable {α : Type} {E : CacheError → State σ → Prop}

@[simp] lemma wp_callStore {x : Action (σ × PhysicalMemory) StorageError α}
    {Q : α → State σ → Prop} :
    wp (callStore x) Q E s ↔
      wp x (fun a r => Q a { s with store := r.1, memory := r.2 })
        (fun e r => E (.storage e) { s with store := r.1, memory := r.2 }) (s.store, s.memory) := by
  unfold wp callStore
  cases x (s.store, s.memory) with
  | mk result r => cases result <;> rfl

@[simp] lemma wp_checked_ok {a : α} {Q : α → State σ → Prop} :
    wp (checked (.ok a)) Q E s ↔ Q a s := Iff.rfl

lemma wp_checked {x : Checked α} {Q : α → State σ → Prop} (hok : ∀ a, x = .ok a → Q a s)
    (herr : ∀ e, x = .error e → E (.panic e) s) : wp (checked x) Q E s := wp_lift hok herr

def Loaded (c : BlockCache) (s : State σ) (n : ℕ) : Prop :=
  (s.metadata (n % 2 ^ c.chunkIdBits)).occupied = true ∧
    (s.metadata (n % 2 ^ c.chunkIdBits)).tag.toNat = n / 2 ^ c.chunkIdBits

def Dirty (c : BlockCache) (s : State σ) (n : ℕ) : Prop :=
  Loaded c s n ∧ (s.metadata (n % 2 ^ c.chunkIdBits)).dirty = true

structure Holds (c : BlockCache) (content : σ → ℕ → UInt8) (bytes : ℕ → UInt8) (s : State σ) :
    Prop where
  buffer : ∀ n j, Loaded c s n → j < pageSize →
    s.memory (c.bufferPa + n % 2 ^ c.chunkIdBits * pageSize + j) = bytes (n * pageSize + j)
  store : ∀ n j, n * c.blocksPerChunk < 2 ^ 64 → ¬ Dirty c s n → j < pageSize →
    content s.store (n * pageSize + j) = bytes (n * pageSize + j)
  address_lt : ∀ n, Loaded c s n → n * c.blocksPerChunk < 2 ^ 64
  occupied : ∀ i, (s.metadata i).dirty = true → (s.metadata i).occupied = true

lemma holds_of_default (hs : s.metadata = fun _ => {}) : Holds c content (content s.store) s where
  buffer := fun n j h => by simp [Loaded, hs] at h
  store := fun _ _ _ _ _ => rfl
  address_lt := fun n h => by simp [Loaded, hs] at h
  occupied := fun i h => by simp [hs] at h

lemma Loaded.eq {m : ℕ} (hn : Loaded c s n) (hm : Loaded c s m)
    (h : n % 2 ^ c.chunkIdBits = m % 2 ^ c.chunkIdBits) : n = m := by
  have htag : n / 2 ^ c.chunkIdBits = m / 2 ^ c.chunkIdBits := by
    rw [← hn.2, ← hm.2, h]
  rw [← Nat.div_add_mod n (2 ^ c.chunkIdBits), ← Nat.div_add_mod m (2 ^ c.chunkIdBits), htag, h]

def Flushed (c : BlockCache) (content : σ → ℕ → UInt8) (bytes : ℕ → UInt8) (s : State σ)
    (i : ℕ) (store : σ) : Prop :=
  ∀ n j, n * c.blocksPerChunk < 2 ^ 64 → (n % 2 ^ c.chunkIdBits = i ∨ ¬ Dirty c s n) →
    j < pageSize → content store (n * pageSize + j) = bytes (n * pageSize + j)

def replaced (c : BlockCache) (s : State σ) (n : ℕ) (markDirty : Bool) (store : σ)
    (memory : PhysicalMemory) : State σ :=
  ⟨store, memory, update s.metadata (n % 2 ^ c.chunkIdBits)
    ⟨BitVec.ofNat 62 (n / 2 ^ c.chunkIdBits), true, markDirty⟩⟩

section replaced

variable {markDirty : Bool} {store : σ} {memory : PhysicalMemory}

@[simp] lemma store_replaced : (replaced c s n markDirty store memory).store = store := rfl

@[simp] lemma memory_replaced : (replaced c s n markDirty store memory).memory = memory := rfl

@[simp] lemma metadata_replaced_self :
    (replaced c s n markDirty store memory).metadata (n % 2 ^ c.chunkIdBits) =
      ⟨BitVec.ofNat 62 (n / 2 ^ c.chunkIdBits), true, markDirty⟩ := update_self _ _ _

lemma metadata_replaced_of_ne {i : ℕ} (h : i ≠ n % 2 ^ c.chunkIdBits) :
    (replaced c s n markDirty store memory).metadata i = s.metadata i :=
  update_of_ne h _ _

lemma loaded_replaced {m : ℕ} (htag : n / 2 ^ c.chunkIdBits < 2 ^ 62) :
    Loaded c (replaced c s n markDirty store memory) m ↔
      m = n ∨ m % 2 ^ c.chunkIdBits ≠ n % 2 ^ c.chunkIdBits ∧ Loaded c s m := by
  by_cases hm : m % 2 ^ c.chunkIdBits = n % 2 ^ c.chunkIdBits
  · have hdiv : n / 2 ^ c.chunkIdBits = m / 2 ^ c.chunkIdBits ↔ m = n := by
      refine ⟨fun hdiv => ?_, fun h => by rw [h]⟩
      rw [← Nat.div_add_mod n (2 ^ c.chunkIdBits), ← Nat.div_add_mod m (2 ^ c.chunkIdBits), hdiv,
        hm]
    simp only [Loaded, hm, metadata_replaced_self, BitVec.toNat_ofNat, Nat.mod_eq_of_lt htag,
      true_and, hdiv, ne_eq, not_true_eq_false, false_and, or_false]
  · have hne : m ≠ n := fun h => hm (by rw [h])
    simp only [Loaded, metadata_replaced_of_ne hm, hne, hm, ne_eq, not_false_eq_true, true_and,
      false_or]

end replaced

section load

variable (hc : SmallBlocks c) (hd : d.IsArray content) (hsize : d.supportedBlockSize = c.blockSize)
  (h : Holds c content bytes s)

include h in
lemma Holds.flushed_of_clean {i : ℕ} (hcln : ¬ (s.metadata i).dirty = true) :
    Flushed c content bytes s i s.store := by
  rintro n j hn (hi | hdrt) hj
  · exact h.store n j hn (fun hdrt => hcln (hi ▸ hdrt.2)) hj
  · exact h.store n j hn hdrt hj

include hc hd hsize h in
lemma Holds.writeBack {i : ℕ} (hi : i < 2 ^ c.chunkIdBits) (hdrt : (s.metadata i).dirty = true) :
    wp (d.writeBlocks [(c.chunkPhyAddr i, c.blocksPerChunk)]
        (c.composeAddress (s.metadata i).tag.toNat i))
      (fun _ r => r.2 = s.memory ∧ Flushed c content bytes s i r.1)
      (fun _ _ => True) (s.store, s.memory) := by
  -- the chunk that is in the buffer
  obtain ⟨m, hmod, hdiv⟩ : ∃ m, m % 2 ^ c.chunkIdBits = i ∧
      m / 2 ^ c.chunkIdBits = (s.metadata i).tag.toNat :=
    ⟨i + 2 ^ c.chunkIdBits * (s.metadata i).tag.toNat,
      by rw [Nat.add_mul_mod_self_left, Nat.mod_eq_of_lt hi],
      by rw [Nat.add_mul_div_left _ _ (by positivity), Nat.div_eq_of_lt hi, zero_add]⟩
  have hload : Loaded c s m := by
    rw [Loaded, hmod, hdiv]
    exact ⟨h.occupied i hdrt, rfl⟩
  have haddr : c.composeAddress (s.metadata i).tag.toNat i = m * c.blocksPerChunk := by
    rw [← hdiv, ← hmod, hc.composeAddress_eq (h.address_lt m hload)]
  rw [haddr, hc.chunkPhyAddr_eq hi]
  refine wp_mono (hd.writeBlocks _ _ _ _ _) ?_ fun _ _ _ => trivial
  rintro - r ⟨hmem, hcont⟩
  refine ⟨hmem, fun n j hn hdrt hj => ?_⟩
  rw [hcont, hsize, mul_assoc, hc.blocks_mul]
  by_cases hnm : n = m
  · subst hnm
    rw [if_pos (by omega), ← hmod, Nat.add_sub_cancel_left]
    exact h.buffer n j hload hj
  · rw [if_neg]
    · refine h.store n j hn (fun hd' => ?_) hj
      rcases hdrt with hid | hcln
      · exact hnm (hd'.1.eq hload (hid.trans hmod.symm))
      · exact hcln hd'
    · -- the bytes of another chunk
      intro hrng
      simp only [pageSize] at hrng hj
      omega

include hc hd hsize h in
lemma Flushed.load {store : σ} (hfls : Flushed c content bytes s (n % 2 ^ c.chunkIdBits) store)
    (hn : n * c.blocksPerChunk < 2 ^ 64) (htag : n / 2 ^ c.chunkIdBits < 2 ^ 62)
    (markDirty : Bool) :
    wp (d.readBlocks (c.composeAddress (n / 2 ^ c.chunkIdBits) (n % 2 ^ c.chunkIdBits))
        [(c.chunkPhyAddr (n % 2 ^ c.chunkIdBits), c.blocksPerChunk)])
      (fun _ r => Holds c content bytes (replaced c s n markDirty r.1 r.2))
      (fun _ _ => True) (store, s.memory) := by
  have hi : n % 2 ^ c.chunkIdBits < 2 ^ c.chunkIdBits := Nat.mod_lt _ (by positivity)
  rw [hc.composeAddress_eq hn, hc.chunkPhyAddr_eq hi]
  refine wp_mono (hd.readBlocks _ _ _ _ _) ?_ fun _ _ _ => trivial
  rintro - r ⟨hcont, hmem⟩
  simp only [hsize, mul_assoc n, hc.blocks_mul] at hmem
  constructor
  · intro m j hm hj
    rw [memory_replaced, hmem]
    rcases (loaded_replaced htag).mp hm with rfl | ⟨hne, hm⟩
    · rw [if_pos (by omega), Nat.add_sub_cancel_left]
      exact hfls m j hn (.inl rfl) hj
    · rw [if_neg]
      · exact h.buffer m j hm hj
      · -- the pages of two chunk ids are disjoint
        simp only [pageSize] at hj ⊢
        omega
  · intro m j hm hcln hj
    rw [store_replaced, hcont]
    by_cases hid : m % 2 ^ c.chunkIdBits = n % 2 ^ c.chunkIdBits
    · exact hfls m j hm (.inl hid) hj
    · refine hfls m j hm (.inr fun hdrt => hcln ⟨?_, ?_⟩) hj
      · exact (loaded_replaced htag).mpr (.inr ⟨hid, hdrt.1⟩)
      · rw [metadata_replaced_of_ne hid]
        exact hdrt.2
  · intro m hm
    rcases (loaded_replaced htag).mp hm with rfl | ⟨-, hm⟩
    · exact hn
    · exact h.address_lt m hm
  · intro i hdrt
    by_cases hid : i = n % 2 ^ c.chunkIdBits
    · rw [hid, metadata_replaced_self]
    · rw [metadata_replaced_of_ne hid] at hdrt ⊢
      exact h.occupied i hdrt

include hc hd hsize h in
lemma Holds.loadChunk (hn : n * c.blocksPerChunk < 2 ^ 64) (htag : n / 2 ^ c.chunkIdBits < 2 ^ 62)
    (markDirty : Bool) :
    wp (loadChunk c d (n / 2 ^ c.chunkIdBits) (n % 2 ^ c.chunkIdBits) markDirty)
      (fun _ s' => Holds c content bytes s' ∧ Loaded c s' n ∧
        ((Loaded c s n → Dirty c s n) → markDirty = true → Dirty c s' n))
      (fun _ _ => True) s := by
  have hid : n % 2 ^ c.chunkIdBits < c.numChunks :=
    (Nat.mod_lt _ (by positivity)).trans_le hc.chunkIds_le
  have hdone : ∀ store, Flushed c content bytes s (n % 2 ^ c.chunkIdBits) store →
      wp (d.readBlocks (c.composeAddress (n / 2 ^ c.chunkIdBits) (n % 2 ^ c.chunkIdBits))
        [(c.chunkPhyAddr (n % 2 ^ c.chunkIdBits), c.blocksPerChunk)])
        (fun _ r => Holds c content bytes (replaced c s n markDirty r.1 r.2) ∧
          Loaded c (replaced c s n markDirty r.1 r.2) n ∧ ((Loaded c s n → Dirty c s n) →
          markDirty = true → Dirty c (replaced c s n markDirty r.1 r.2) n))
        (fun _ _ => True) (store, s.memory) := by
    intro store hfls
    refine wp_mono (hfls.load hc hd hsize h hn htag markDirty) ?_ fun _ _ _ => trivial
    intro _ r hr
    have hload : Loaded c (replaced c s n markDirty r.1 r.2) n :=
      (loaded_replaced htag).mpr (.inl rfl)
    refine ⟨hr, hload, fun _ hmark => ⟨hload, ?_⟩⟩
    rw [metadata_replaced_self, hmark]
  simp only [BlockCache.loadChunk, hid, ↓reduceIte, wp_bind, wp_checked_ok, wp_get, wp_ite,
    wp_callStore, wp_pure, wp_modify]
  refine ⟨fun _ => ⟨fun hdrt => ?_, fun hcln => ?_⟩, fun hhit => ?_⟩
  · refine wp_mono (h.writeBack hc hd hsize (Nat.mod_lt _ (by positivity)) hdrt) ?_
      fun _ _ _ => trivial
    rintro - ⟨store, memory⟩ ⟨rfl, hfls⟩
    exact hdone store hfls
  · exact hdone s.store (h.flushed_of_clean hcln)
  · have hload : Loaded c s n := by
      simpa [Loaded] using hhit
    exact ⟨h, hload, fun hdrt _ => hdrt hload⟩

end load

/-! ### The calls -/

def position (c : BlockCache) (address byteOffset : ℕ) : ℕ := address * c.blockSize + byteOffset

section call

variable (hc : SmallBlocks c) (hd : d.IsArray content) (hsize : d.supportedBlockSize = c.blockSize)
  (h : Holds c content bytes s) {address byteOffset len : ℕ}

variable {markDirty : Bool} {E : CacheError → State σ → Prop}

lemma wp_loadChunks_one {tag chunkId : ℕ} {Q : Unit → State σ → Prop}
    (hid : ¬ chunkId > c.numChunks) :
    wp (loadChunks c d tag chunkId 1 markDirty) Q E s ↔
      wp (loadChunk c d tag chunkId markDirty) Q E s := by
  simp only [loadChunks, loadChunksFrom, add_zero, hid, ↓reduceIte, wp_bind]
  exact Iff.rfl

include hc hd hsize h in
lemma Holds.loadChunks (hlen : len ≤ pageSize) (hn : n * c.blocksPerChunk < 2 ^ 64)
    (htag : 0 < len → n / 2 ^ c.chunkIdBits < 2 ^ 62) (markDirty : Bool) :
    wp (loadChunks c d (n / 2 ^ c.chunkIdBits) (n % 2 ^ c.chunkIdBits)
        (divCeil len c.chunkSize) markDirty)
      (fun _ s' => Holds c content bytes s' ∧ (0 < len → Loaded c s' n ∧
        ((Loaded c s n → Dirty c s n) → markDirty = true → Dirty c s' n)))
      (fun _ _ => True) s := by
  rw [hc.chunkSize_eq]
  rcases eq_zero_or_pos len with rfl | hpos
  · exact ⟨h, fun h0 => absurd h0 (lt_irrefl 0)⟩
  · have hone : divCeil len pageSize = 1 := by
      simp only [divCeil, pageSize] at hlen ⊢
      omega
    have hid : ¬ n % 2 ^ c.chunkIdBits > c.numChunks :=
      ((Nat.mod_lt n (by positivity)).trans_le hc.chunkIds_le).le.not_gt
    rw [hone, wp_loadChunks_one hid]
    exact wp_mono (h.loadChunk hc hd hsize hn (htag hpos) markDirty)
      (fun _ s' h' => ⟨h'.1, fun _ => h'.2⟩) fun _ _ _ => trivial

include hc in
lemma SmallBlocks.chunk_eq (p : ℕ) : p / c.blockSize / c.blocksPerChunk = p / pageSize ∧
    p / c.blockSize % c.blocksPerChunk * c.blockSize + p % c.blockSize = p % pageSize := by
  have hmul : c.blockSize * c.blocksPerChunk = pageSize := by rw [mul_comm, hc.blocks_mul]
  constructor
  · rw [Nat.div_div_eq_div_mul, hmul]
  · rw [← hmul, Nat.mod_mul, mul_comm c.blockSize, add_comm]

lemma Geometry.position_div (hc : Geometry c) (address byteOffset : ℕ) :
    position c address byteOffset / c.blockSize = address + byteOffset / c.blockSize := by
  rw [position, mul_comm, Nat.mul_add_div hc.blockSize_pos]

lemma position_mod (c : BlockCache) (address byteOffset : ℕ) :
    position c address byteOffset % c.blockSize = byteOffset % c.blockSize := by
  rw [position, mul_comm, Nat.mul_add_mod]

def chunkOf (c : BlockCache) (p : ℕ) : ℕ := p / c.blockSize / 2 ^ c.blockOffsetBits

def offsetInChunk (c : BlockCache) (p : ℕ) : ℕ :=
  p / c.blockSize % 2 ^ c.blockOffsetBits * c.blockSize + p % c.blockSize

structure Decomposable (c : BlockCache) (p : ℕ) : Prop where
  fits : p / c.blockSize < 2 ^ 64
  bits_pos : 0 < c.blockOffsetBits
  block_lt : p / c.blockSize % 2 ^ c.blockOffsetBits < c.blockSize

lemma Geometry.block_eq (hc : Geometry c)
    (hfits : position c address byteOffset / c.blockSize < 2 ^ 64) :
    (if byteOffset ≥ c.blockSize then checkedAdd address (byteOffset / c.blockSize)
      else .ok address) = .ok (position c address byteOffset / c.blockSize) := by
  rw [hc.position_div] at hfits ⊢
  split_ifs with hge
  · exact checkedAdd_eq_ok.mpr ⟨hfits, rfl⟩
  · rw [Nat.div_eq_of_lt (not_le.mp hge), add_zero]

variable {Q : ℕ → State σ → Prop} {p : ℕ}

lemma Geometry.wp_locate (hc : Geometry c) (hp : position c address byteOffset = p)
    (hok : Decomposable c p) :
    wp (locate c d address byteOffset len markDirty) Q E s ↔
      (divCeil len c.chunkSize > c.numChunks → E (.panic .todo) s) ∧
      (¬ divCeil len c.chunkSize > c.numChunks →
        wp (loadChunks c d (chunkOf c p / 2 ^ c.chunkIdBits)
            (chunkOf c p % 2 ^ c.chunkIdBits) (divCeil len c.chunkSize) markDirty) (fun _ s' =>
            wp (checked (if chunkOf c p % 2 ^ c.chunkIdBits * c.chunkSize + offsetInChunk c p +
                len ≤ c.bufferLen then .ok () else .error .outOfBounds))
              (fun _ => Q (chunkOf c p % 2 ^ c.chunkIdBits * c.chunkSize + offsetInChunk c p)) E s')
          E s) := by
  subst hp
  obtain ⟨hfits, hbits, hlt⟩ := hok
  have hbyte : (if byteOffset ≥ c.blockSize then byteOffset % c.blockSize else byteOffset) =
      position c address byteOffset % c.blockSize := by
    rw [position_mod]
    split_ifs with hge
    · rfl
    · rw [Nat.mod_eq_of_lt (not_le.mp hge)]
  simp only [locate, hbyte, hc.block_eq hfits, wp_bind, wp_ite, wp_throw, wp_checked_ok,
    hc.decomposeAddress_eq hfits hbits, hlt, ↓reduceIte, chunkOf, offsetInChunk, add_assoc]
  refine and_congr_right fun _ => forall_congr' fun _ =>
    ⟨fun h => wp_mono h (fun _ s' h' => ?_) fun _ _ => id,
      fun h => wp_mono h (fun _ s' h' => ?_) fun _ _ => id⟩
  · rwa [wp_bind] at h'
  · rwa [wp_bind]

include hc in
lemma SmallBlocks.decomposable (hfits : p / c.blockSize < 2 ^ 64) : Decomposable c p where
  fits := hfits
  bits_pos := hc.blockOffsetBits_pos
  block_lt := by
    rw [← hc.blocksPerChunk_eq]
    refine (Nat.mod_lt _ ?_).trans_le hc.blocksPerChunk_le
    rw [hc.blocksPerChunk_eq]
    positivity

include hc in
lemma SmallBlocks.wp_locate (hp : position c address byteOffset = p)
    (hfits : p / c.blockSize < 2 ^ 64) :
    wp (locate c d address byteOffset len markDirty) Q E s ↔
      (divCeil len pageSize > c.numChunks → E (.panic .todo) s) ∧
      (¬ divCeil len pageSize > c.numChunks → wp (loadChunks c d (p / pageSize / 2 ^ c.chunkIdBits)
            (p / pageSize % 2 ^ c.chunkIdBits) (divCeil len pageSize) markDirty) (fun _ s' =>
            wp (checked (if p / pageSize % 2 ^ c.chunkIdBits * pageSize + p % pageSize + len ≤
                c.bufferLen then .ok () else .error .outOfBounds))
              (fun _ => Q (p / pageSize % 2 ^ c.chunkIdBits * pageSize + p % pageSize)) E s')
          E s) := by
  obtain ⟨hchk, hoff⟩ := hc.chunk_eq p
  rw [hc.blocksPerChunk_eq] at hchk hoff
  rw [hc.geometry.wp_locate hp (hc.decomposable hfits), chunkOf, offsetInChunk, hchk, hoff,
    hc.chunkSize_eq]

lemma Geometry.wp_locate_of_not_decomposable (hc : Geometry c) (haddr : address < 2 ^ 64)
    (hnot : ¬ Decomposable c (position c address byteOffset)) (hE : ∀ e, E (.panic e) s) :
    wp (locate c d address byteOffset len markDirty) Q E s := by
  rw [locate, wp_bind]
  rcases lt_or_ge (position c address byteOffset / c.blockSize) (2 ^ 64) with hfits | hovf
  · rw [hc.block_eq hfits, wp_checked_ok, wp_bind]
    refine wp_checked (fun x hx => absurd ?_ hnot) fun e _ => hE e
    rcases eq_zero_or_pos c.blockOffsetBits with hzero | hbits
    · rw [decomposeAddress_of_bits_eq_zero _ hzero] at hx
      cases hx
    · rw [hc.decomposeAddress_eq hfits hbits] at hx
      split_ifs at hx with hlt
      exact ⟨hfits, hbits, hlt⟩
  · rw [hc.position_div] at hovf
    have hge : byteOffset ≥ c.blockSize := by
      by_contra hlt
      rw [Nat.div_eq_of_lt (not_le.mp hlt)] at hovf
      omega
    rw [if_pos hge, checkedAdd, if_neg (by omega)]
    exact hE .overflow

include hc hd hsize h in
lemma Holds.locate (haddr : address < 2 ^ 64)
    (hrng : position c address byteOffset % pageSize + len ≤ pageSize)
    (htag : 0 < len → position c address byteOffset / pageSize / 2 ^ c.chunkIdBits < 2 ^ 62)
    (markDirty : Bool) :
    wp (locate c d address byteOffset len markDirty)
      (fun offset s' =>
        offset = position c address byteOffset / pageSize % 2 ^ c.chunkIdBits * pageSize +
          position c address byteOffset % pageSize ∧ Holds c content bytes s' ∧
        (0 < len → Loaded c s' (position c address byteOffset / pageSize) ∧
          ((Loaded c s (position c address byteOffset / pageSize) →
            Dirty c s (position c address byteOffset / pageSize)) → markDirty = true →
            Dirty c s' (position c address byteOffset / pageSize))))
      (fun _ _ => True) s := by
  rcases lt_or_ge (position c address byteOffset / c.blockSize) (2 ^ 64) with hfits | hovf
  · rw [hc.wp_locate rfl hfits]
    refine ⟨fun _ => trivial, fun _ => ?_⟩
    generalize position c address byteOffset = p at *
    have hn : p / pageSize * c.blocksPerChunk < 2 ^ 64 := by
      rw [← (hc.chunk_eq p).1]
      exact (Nat.div_mul_le_self _ _).trans_lt hfits
    have hload := h.loadChunks hc hd hsize (by omega) hn htag markDirty
    rw [hc.chunkSize_eq] at hload
    refine wp_mono hload ?_ fun _ _ _ => trivial
    intro _ s' h'
    exact wp_checked (fun _ _ => ⟨rfl, h'⟩) fun _ _ => trivial
  · exact hc.geometry.wp_locate_of_not_decomposable haddr (fun hok => hok.fits.not_ge hovf)
      fun _ => trivial

def written (bytes : ℕ → UInt8) (p : ℕ) (src : List UInt8) : ℕ → UInt8 := fun a =>
  if p ≤ a then (src[a - p]?).getD (bytes a) else bytes a

variable {src : List UInt8}

lemma written_of_not_mem {a : ℕ} (h : a < p ∨ p + src.length ≤ a) :
    written bytes p src a = bytes a := by
  unfold written
  split_ifs with hle
  · rw [List.getElem?_eq_none (by omega), Option.getD_none]
  · rfl

lemma written_congr {q a b : ℕ} {f g : ℕ → UInt8} (hab : a + q = b + p)
    (h : f a = g b) : written f p src a = written g q src b := by
  unfold written
  by_cases hle : p ≤ a
  · rw [if_pos hle, if_pos (by omega), h]
    congr 2
    have : a - p = b - q := by omega
    rw [this]
  · rw [if_neg hle, if_neg (by omega), h]

include hc hd hsize h in
lemma Holds.copyBytes (haddr : address < 2 ^ 64)
    (hrng : position c address byteOffset % pageSize + len ≤ pageSize)
    (htag : 0 < len → position c address byteOffset / pageSize / 2 ^ c.chunkIdBits < 2 ^ 62) :
    wp (BlockCache.copyBytes c d address byteOffset len)
      (fun dst s' => Holds c content bytes s' ∧
        ∀ i x, dst[i]? = some x → x = bytes (position c address byteOffset + i))
      (fun _ _ => True) s := by
  rw [BlockCache.copyBytes, wp_bind]
  refine wp_mono (h.locate hc hd hsize haddr hrng htag false) ?_ fun _ _ _ => trivial
  generalize position c address byteOffset = p at *
  rintro _ s' ⟨rfl, hs', hload⟩
  refine ⟨hs', fun i x hx => ?_⟩
  obtain ⟨hi, rfl⟩ := List.getElem?_eq_some_iff.mp hx
  simp only [List.length_map, List.length_range] at hi
  have hbuf := hs'.buffer _ (p % pageSize + i) (hload (by omega)).1 (by omega)
  rw [List.getElem_map, List.getElem_range, add_assoc, add_assoc,
    ← add_assoc c.bufferPa, hbuf, ← add_assoc, Nat.div_add_mod']

include hc hd hsize h in
lemma Holds.writeBytes (haddr : address < 2 ^ 64)
    (hrng : position c address byteOffset % pageSize + src.length ≤ pageSize)
    (htag : 0 < src.length → position c address byteOffset / pageSize / 2 ^ c.chunkIdBits < 2 ^ 62)
    (hdrt : 0 < src.length → Loaded c s (position c address byteOffset / pageSize) →
      Dirty c s (position c address byteOffset / pageSize)) :
    wp (BlockCache.writeBytes c d address byteOffset src)
      (fun _ s' => Holds c content (written bytes (position c address byteOffset) src) s')
      (fun _ _ => True) s := by
  rw [BlockCache.writeBytes, wp_bind]
  refine wp_mono (h.locate hc hd hsize haddr hrng htag true) ?_ fun _ _ _ => trivial
  generalize position c address byteOffset = p at *
  rintro _ s' ⟨rfl, hs', hload⟩
  have hp := Nat.div_add_mod' p pageSize
  -- the bytes of every other chunk stay as they are
  have hoth : ∀ n j, n ≠ p / pageSize → j < pageSize →
      written bytes p src (n * pageSize + j) = bytes (n * pageSize + j) := by
    intro n j hn hj
    apply written_of_not_mem
    simp only [pageSize] at hn hj hp hrng ⊢
    omega
  constructor
  · intro n j hn hj
    change Loaded c s' n at hn
    change written s'.memory _ src _ = _
    by_cases heq : n = p / pageSize
    · subst heq
      exact written_congr (by omega) (hs'.buffer _ j hn hj)
    · rw [hoth n j heq hj, written_of_not_mem]
      · exact hs'.buffer n j hn hj
      · rcases eq_zero_or_pos src.length with hzero | hpos
        · omega
        · have hid : n % 2 ^ c.chunkIdBits ≠ p / pageSize % 2 ^ c.chunkIdBits := fun hid =>
            heq (hn.eq (hload hpos).1 hid)
          simp only [pageSize] at hid hj hrng ⊢
          omega
  · intro n j hn hcln hj
    change ¬ Dirty c s' n at hcln
    by_cases heq : n = p / pageSize
    · have hzero : src.length = 0 := by
        by_contra hpos
        have hpos : 0 < src.length := pos_of_ne_zero hpos
        exact hcln (heq ▸ (hload hpos).2 (hdrt hpos) rfl)
      rw [written_of_not_mem (by omega)]
      exact hs'.store n j hn hcln hj
    · rw [hoth n j heq hj]
      exact hs'.store n j hn hcln hj
  · exact hs'.address_lt
  · exact hs'.occupied

end call

/-! ### Runs -/

inductive Event where
  | write (address byteOffset : ℕ) (src : List UInt8)
  | copy (address byteOffset : ℕ) (dst : List UInt8)

def Event.position (c : BlockCache) : Event → ℕ
  | .write address byteOffset _ | .copy address byteOffset _ =>
    BlockCache.position c address byteOffset

def Event.length : Event → ℕ
  | .write _ _ bytes | .copy _ _ bytes => bytes.length

def Event.InOneChunk (c : BlockCache) : Event → Prop
  | .write address byteOffset bytes | .copy address byteOffset bytes =>
    address < 2 ^ 64 ∧
      BlockCache.position c address byteOffset % pageSize + bytes.length ≤ pageSize

def Event.Happens (c : BlockCache) (d : BlockStore σ) (s s' : State σ) : Event → Prop
  | .write address byteOffset src => writeBytes c d address byteOffset src s = (.ok (), s')
  | .copy address byteOffset dst =>
    copyBytes c d address byteOffset dst.length s = (.ok dst, s')

inductive Run (c : BlockCache) (d : BlockStore σ) (P : State σ → Event → Prop) :
    State σ → List Event → State σ → Prop where
  | nil (s : State σ) : Run c d P s [] s
  | cons {s s' s'' e es} (hP : P s e) (hrange : e.InOneChunk c) (h : e.Happens c d s s')
      (hrun : Run c d P s' es s'') : Run c d P s (e :: es) s''

def Coherent (c : BlockCache) : (ℕ → UInt8) → List Event → Prop
  | _, [] => True
  | bytes, .write address byteOffset src :: es =>
    Coherent c (written bytes (position c address byteOffset) src) es
  | bytes, .copy address byteOffset dst :: es =>
    (∀ i x, dst[i]? = some x → x = bytes (position c address byteOffset + i)) ∧
      Coherent c bytes es

def Safe (c : BlockCache) (s : State σ) (e : Event) : Prop :=
  0 < e.length →
    e.position c / pageSize / 2 ^ c.chunkIdBits < 2 ^ 62 ∧
    match e with
    | .write _ _ _ => Loaded c s (e.position c / pageSize) → Dirty c s (e.position c / pageSize)
    | .copy _ _ _ => True

lemma Run.coherent (hc : SmallBlocks c) (hd : d.IsArray content)
    (hsize : d.supportedBlockSize = c.blockSize) {es : List Event}
    (h : Holds c content bytes s) (hrun : Run c d (Safe c) s es s') : Coherent c bytes es := by
  induction hrun generalizing bytes with
  | nil => trivial
  | @cons s s₁ _ e es hsafe hrng hcall _ ih =>
    cases e with
    | write address byteOffset src =>
      have hwr := h.writeBytes hc hd hsize hrng.1 hrng.2 (fun hpos => (hsafe hpos).1)
        fun hpos => (hsafe hpos).2
      exact ih (wp_ok hwr hcall)
    | copy address byteOffset dst =>
      have hcopy := h.copyBytes hc hd hsize hrng.1 hrng.2 fun hpos => (hsafe hpos).1
      obtain ⟨hs₁, hdst⟩ := wp_ok hcopy hcall
      exact ⟨hdst, ih hs₁⟩

/-- In every run whose calls are all safe, `copy_bytes` returns the bytes that were written last,
or those of the store. -/
theorem run_coherent {d : BlockStore σ} {content : σ → ℕ → UInt8} {c : BlockCache}
    {j pages bufferPa : ℕ} {s s' : State σ} {es : List Event} (hd : d.IsArray content)
    (hsize : d.supportedBlockSize = 2 ^ j) (hj : 6 ≤ j) (hj' : j < 12)
    (hbuffer : bufferPa + pages * pageSize ≤ 2 ^ 64)
    (hnew : new d.supportedBlockSize pages bufferPa = .ok c)
    (hs : s.metadata = fun _ => {}) (hrun : Run c d (Safe c) s es s') :
    Coherent c (content s.store) es := by
  rw [hsize] at hnew
  obtain ⟨hc, hblk⟩ := smallBlocks_of_new hj hj' hbuffer hnew
  exact hrun.coherent hc hd (hsize.trans hblk.symm) (holds_of_default hs)

/-! ### A store that is an array -/

def copyIn (blockSize : ℕ) (content : ℕ → UInt8) (p : ℕ) :
    List (ℕ × ℕ) → PhysicalMemory → PhysicalMemory
  | [], memory => memory
  | (address, count) :: regions, memory =>
    copyIn blockSize content (p + count * blockSize) regions fun a =>
      if address ≤ a ∧ a < address + count * blockSize then content (p + (a - address))
      else memory a

def copyOut (blockSize : ℕ) (memory : PhysicalMemory) (p : ℕ) :
    List (ℕ × ℕ) → (ℕ → UInt8) → ℕ → UInt8
  | [], content => content
  | (address, count) :: regions, content =>
    copyOut blockSize memory (p + count * blockSize) regions fun a =>
      if p ≤ a ∧ a < p + count * blockSize then memory (address + (a - p)) else content a

def arrayStore (blockSize : ℕ) : BlockStore (ℕ → UInt8) where
  supportedBlockSize := blockSize
  readBlocks source destinations := fun s =>
    (.ok (destinations.map Prod.snd).sum, s.1,
      copyIn blockSize s.1 (source * blockSize) destinations s.2)
  writeBlocks sources destination := fun s =>
    (.ok (sources.map Prod.snd).sum,
      copyOut blockSize s.2 (destination * blockSize) sources s.1, s.2)

lemma arrayStore_isArray (blockSize : ℕ) : (arrayStore blockSize).IsArray id where
  readBlocks := fun _ _ _ _ _ => ⟨rfl, fun _ => rfl⟩
  writeBlocks := fun _ _ _ _ _ => ⟨rfl, fun _ => rfl⟩

lemma Event.Happens.write_of_fst {address byteOffset : ℕ} {src : List UInt8}
    (h : (writeBytes c d address byteOffset src s).1 = .ok ()) :
    (Event.write address byteOffset src).Happens c d s
      (writeBytes c d address byteOffset src s).2 := Prod.ext h rfl

lemma Event.Happens.copy_of_fst {address byteOffset : ℕ} {dst : List UInt8}
    (h : (copyBytes c d address byteOffset dst.length s).1 = .ok dst) :
    (Event.copy address byteOffset dst).Happens c d s
      (copyBytes c d address byteOffset dst.length s).2 := Prod.ext h rfl

def onePage : BlockCache := ⟨1, 0, 2048, 4096, 2, 1, 4096, 0⟩

def zeroed : State (ℕ → UInt8) := ⟨fun _ => 0, fun _ => 0, fun _ => {}⟩

/-- A write to a chunk that is not loaded comes back, also after the chunk was evicted. -/
theorem run_coherent_after_eviction :
    new 2048 1 0 = .ok onePage ∧
    ∃ s', Run onePage (arrayStore 2048) (Safe onePage) zeroed
      [.write 0 5 [7], .copy 2 0 [0], .copy 0 5 [7]] s' ∧
      Coherent onePage (fun _ => 0) [.write 0 5 [7], .copy 2 0 [0], .copy 0 5 [7]] := by
  have hnew : new 2048 1 0 = .ok onePage := by decide
  obtain ⟨s', hrun⟩ : ∃ s', Run onePage (arrayStore 2048) (Safe onePage) zeroed
      [.write 0 5 [7], .copy 2 0 [0], .copy 0 5 [7]] s' := by
    refine ⟨_, .cons ?_ ⟨by decide, by decide⟩ (.write_of_fst (by decide +kernel))
      (.cons ?_ ⟨by decide, by decide⟩ (.copy_of_fst (by decide +kernel))
      (.cons ?_ ⟨by decide, by decide⟩ (.copy_of_fst (by decide +kernel)) (.nil _)))⟩
    · exact fun _ => ⟨by decide, fun h => by simp [Loaded, zeroed] at h⟩
    · exact fun _ => ⟨by decide, trivial⟩
    · exact fun _ => ⟨by decide, trivial⟩
  exact ⟨hnew, s', hrun, run_coherent (j := 11) (arrayStore_isArray 2048) rfl (by decide)
    (by decide) (by decide) hnew rfl hrun⟩

/-- A write to a chunk that was loaded by a read is lost when the chunk is evicted. -/
theorem run_not_coherent_after_clean_hit :
    ∃ s', Run onePage (arrayStore 2048) (fun _ _ => True) zeroed
      [.copy 0 5 [0], .write 0 5 [7], .copy 2 0 [0], .copy 0 5 [0]] s' ∧
      ¬ Coherent onePage (fun _ => 0)
        [.copy 0 5 [0], .write 0 5 [7], .copy 2 0 [0], .copy 0 5 [0]] := by
  refine ⟨_, .cons trivial ⟨by decide, by decide⟩ (.copy_of_fst (by decide +kernel))
    (.cons trivial ⟨by decide, by decide⟩ (.write_of_fst (by decide +kernel))
    (.cons trivial ⟨by decide, by decide⟩ (.copy_of_fst (by decide +kernel))
    (.cons trivial ⟨by decide, by decide⟩ (.copy_of_fst (by decide +kernel)) (.nil _)))), ?_⟩
  rintro ⟨-, -, hlast, -⟩
  exact absurd (hlast 0 0 rfl) (by decide)

end BlockCache

end Kernel.Storage
