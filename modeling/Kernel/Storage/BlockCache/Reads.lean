import Kernel.Storage.BlockCache.Properties

/-!
# Reads of several chunks

`copy_bytes` counts the chunks of a range by its length alone.
-/

namespace Kernel.Storage

open Core Memory Action Relation List BlockCache Nat

variable {σ : Type}

def BlockStore.ReadsArray (d : BlockStore σ) (content : σ → ℕ → UInt8) : Prop :=
  ∀ source address count store memory,
    wp (d.readBlocks source [(address, count)])
      (fun _ s => content s.1 = content store ∧ ∀ a, s.2 a =
        if address ≤ a ∧ a < address + count * d.supportedBlockSize then
          content store (source * d.supportedBlockSize + (a - address)) else memory a)
      (fun _ _ => False) (store, memory)

namespace BlockCache

variable {c : BlockCache} {d : BlockStore σ} {content : σ → ℕ → UInt8} {bytes : ℕ → UInt8}
  {s s' : State σ} {n : ℕ}

instance : Decidable (Loaded c s n) := inferInstanceAs (Decidable (_ ∧ _))

def slotAddress (c : BlockCache) (chunkId j : ℕ) : ℕ := c.bufferPa + chunkId * c.chunkSize + j

lemma SmallBlocks.slotAddress_eq (hc : SmallBlocks c) (chunkId j : ℕ) :
    c.slotAddress chunkId j = c.bufferPa + chunkId * pageSize + j := by
  rw [slotAddress, hc.chunkSize_eq]

/-! ### Loading a chunk -/

lemma Geometry.wp_loadChunk (hc : Geometry c) (hn : n * 2 ^ c.blockOffsetBits < 2 ^ 64)
    (hcln : (s.metadata (n % 2 ^ c.chunkIdBits)).dirty = false)
    {Q : Unit → State σ → Prop} {E : CacheError → State σ → Prop} :
    wp (loadChunk c d (n / 2 ^ c.chunkIdBits) (n % 2 ^ c.chunkIdBits) false) Q E s ↔
      (Loaded c s n → Q () s) ∧ (¬ Loaded c s n → wp (d.readBlocks (n * 2 ^ c.blockOffsetBits)
            [(c.slotAddress (n % 2 ^ c.chunkIdBits) 0, c.blocksPerChunk)])
          (fun _ r => Q () (replaced c s n false r.1 r.2))
          (fun e r => E (.storage e) { s with store := r.1, memory := r.2 })
          (s.store, s.memory)) := by
  have hid : n % 2 ^ c.chunkIdBits < c.numChunks :=
    (mod_lt _ (by positivity)).trans_le hc.chunkIds_le
  have hmiss : (¬ (s.metadata (n % 2 ^ c.chunkIdBits)).occupied = true ∨
      (s.metadata (n % 2 ^ c.chunkIdBits)).tag.toNat ≠ n / 2 ^ c.chunkIdBits) ↔
      ¬ Loaded c s n := by
    rw [Loaded, not_and_or]
  simp only [loadChunk, hid, ↓reduceIte, wp_bind, wp_checked_ok, wp_get, wp_ite, wp_callStore,
    wp_pure, wp_modify, hmiss, hcln, composeAddress_eq hn,
    (hc.chunkPhyAddr_of_lt hid).1, slotAddress, add_zero, not_not]
  rw [and_comm]
  simp [replaced]

structure Mirrors (c : BlockCache) (content : σ → ℕ → UInt8) (bytes : ℕ → UInt8) (s : State σ) :
    Prop where
  content_eq : content s.store = bytes
  clean : ∀ i, (s.metadata i).dirty = false
  slot : ∀ i, (s.metadata i).occupied = true → ∃ n, n % 2 ^ c.chunkIdBits = i ∧
    n * c.blocksPerChunk < 2 ^ 64 ∧ (s.metadata i).tag = BitVec.ofNat 62 (n / 2 ^ c.chunkIdBits) ∧
    ∀ j < pageSize, s.memory (c.slotAddress i j) = bytes (n * pageSize + j)

lemma mirrors_of_default (hs : s.metadata = fun _ => {}) :
    Mirrors c content (content s.store) s where
  content_eq := rfl
  clean := fun i => by rw [hs]
  slot := fun i hi => by
    rw [hs] at hi
    cases hi

def Filled (c : BlockCache) (bytes : ℕ → UInt8) (s : State σ) (n : ℕ) (s' : State σ) : Prop :=
  ∀ i j, j < pageSize → s'.memory (c.slotAddress i j) =
    if i = n % 2 ^ c.chunkIdBits ∧ ¬ Loaded c s n then bytes (n * pageSize + j)
    else s.memory (c.slotAddress i j)

section reads

variable (hc : SmallBlocks c) (hd : d.ReadsArray content)
  (hsize : d.supportedBlockSize = c.blockSize) (h : Mirrors c content bytes s)

include hc hd hsize h

lemma Mirrors.loadChunk (hn : n * c.blocksPerChunk < 2 ^ 64) :
    wp (loadChunk c d (n / 2 ^ c.chunkIdBits) (n % 2 ^ c.chunkIdBits) false)
      (fun _ s' => Mirrors c content bytes s' ∧ Filled c bytes s n s' ∧
        ∀ i ≠ n % 2 ^ c.chunkIdBits, s'.metadata i = s.metadata i)
      (fun _ _ => False) s := by
  rw [hc.geometry.wp_loadChunk (hc.blocksPerChunk_eq ▸ hn) (h.clean _), ← hc.blocksPerChunk_eq]
  refine ⟨fun hload => ⟨h, fun i j _ => ?_, fun _ _ => rfl⟩, fun hmiss => ?_⟩
  · rw [if_neg fun hi => hi.2 hload]
  · refine wp_mono (hd _ _ _ _ _) ?_ fun _ _ => id
    rintro - ⟨store, memory⟩ ⟨hcont, hmem⟩
    dsimp only at hcont hmem
    have hlen : c.blocksPerChunk * d.supportedBlockSize = pageSize := by
      rw [hsize, hc.blocks_mul]
    have hst : n * c.blocksPerChunk * d.supportedBlockSize = n * pageSize := by
      rw [mul_assoc, hlen]
    have hfil : Filled c bytes s n (replaced c s n false store memory) := by
      intro i j hj
      rw [memory_replaced, hmem, hlen, hst, h.content_eq]
      by_cases hi : i = n % 2 ^ c.chunkIdBits
      · rw [if_pos, if_pos ⟨hi, hmiss⟩, hi]
        · simp only [slotAddress]
          congr 2
          omega
        · rw [hi]
          simp only [slotAddress]
          omega
      · rw [if_neg, if_neg fun h => hi h.1]
        simp only [hc.slotAddress_eq, pageSize] at *
        omega
    refine ⟨⟨?_, fun i => ?_, fun i hi => ?_⟩, hfil, fun i hi => metadata_replaced_of_ne hi⟩
    · rw [store_replaced, hcont, h.content_eq]
    · by_cases hi : i = n % 2 ^ c.chunkIdBits
      · rw [hi, metadata_replaced_self]
      · rw [metadata_replaced_of_ne hi]
        exact h.clean i
    · by_cases hid : i = n % 2 ^ c.chunkIdBits
      · refine ⟨n, hid.symm, hn, ?_, fun j hj => ?_⟩
        · rw [hid, metadata_replaced_self]
        · rw [hfil i j hj, if_pos ⟨hid, hmiss⟩]
      · rw [metadata_replaced_of_ne hid] at hi ⊢
        obtain ⟨m, hm, hlt, htag, hbyt⟩ := h.slot i hi
        refine ⟨m, hm, hlt, htag, fun j hj => ?_⟩
        rw [hfil i j hj, if_neg fun h => hid h.1]
        exact hbyt j hj

lemma Mirrors.loadChunksFrom {tag chunkId : ℕ} (hpow : c.numChunks = 2 ^ c.chunkIdBits)
    (htag : (tag + 1) * 2 ^ c.chunkIdBits * c.blocksPerChunk ≤ 2 ^ 64) (i remaining : ℕ)
    (hle : chunkId + i + remaining ≤ c.numChunks) :
    wp (loadChunksFrom c d tag chunkId false i remaining)
      (fun _ s' => Mirrors c content bytes s' ∧ ∀ k < c.numChunks, ∀ j < pageSize,
        s'.memory (c.slotAddress k j) =
          if (chunkId + i ≤ k ∧ k < chunkId + i + remaining) ∧
              ¬ Loaded c s (tag * 2 ^ c.chunkIdBits + k) then
            bytes ((tag * 2 ^ c.chunkIdBits + k) * pageSize + j)
          else s.memory (c.slotAddress k j))
      (fun _ _ => False) s := by
  induction remaining generalizing i s with
  | zero =>
    refine ⟨h, fun k _ j _ => ?_⟩
    rw [if_neg]
    omega
  | succ remaining ih =>
    have hid : chunkId + i < 2 ^ c.chunkIdBits := by omega
    have hnum : ¬ chunkId + i > c.numChunks := by omega
    have hdiv : ∀ k < 2 ^ c.chunkIdBits, (tag * 2 ^ c.chunkIdBits + k) / 2 ^ c.chunkIdBits = tag ∧
        (tag * 2 ^ c.chunkIdBits + k) % 2 ^ c.chunkIdBits = k := fun k hk => by
      rw [mul_comm, mul_add_div (by positivity), div_eq_of_lt hk, mul_add_mod,
        mod_eq_of_lt hk]
      exact ⟨rfl, rfl⟩
    have hn : (tag * 2 ^ c.chunkIdBits + (chunkId + i)) * c.blocksPerChunk < 2 ^ 64 := by
      have hlt : tag * 2 ^ c.chunkIdBits + (chunkId + i) < (tag + 1) * 2 ^ c.chunkIdBits := by
        rw [succ_mul]
        omega
      have hpos : 0 < c.blocksPerChunk := by
        rw [hc.blocksPerChunk_eq]
        positivity
      exact (mul_lt_mul_of_pos_right hlt hpos).trans_le htag
    have hload := h.loadChunk hc hd hsize hn
    rw [(hdiv _ hid).1, (hdiv _ hid).2] at hload
    simp only [loadChunksFrom, hnum, ↓reduceIte, wp_bind]
    refine wp_mono hload ?_ fun _ _ => id
    rintro - s₁ ⟨h₁, hfil, hmd⟩
    refine wp_mono (ih h₁ (i + 1) (by omega)) ?_ fun _ _ => id
    rintro - s₂ ⟨h₂, hmem⟩
    refine ⟨h₂, fun k hk j hj => ?_⟩
    rw [hmem k hk j hj, hfil k j hj, (hdiv _ hid).2]
    by_cases hki : k = chunkId + i
    · subst hki
      rw [if_neg (by omega)]
      by_cases hloa : Loaded c s (tag * 2 ^ c.chunkIdBits + (chunkId + i))
      · rw [if_neg fun h => h.2 hloa, if_neg fun h => h.2 hloa]
      · rw [if_pos ⟨rfl, hloa⟩, if_pos ⟨⟨le_rfl, by omega⟩, hloa⟩]
    · -- the other chunks are loaded if and only if they were before
      have hsame : Loaded c s₁ (tag * 2 ^ c.chunkIdBits + k) ↔
          Loaded c s (tag * 2 ^ c.chunkIdBits + k) := by
        rw [Loaded, Loaded, (hdiv k (hpow ▸ hk)).2, hmd k hki]
      have hrng : (chunkId + (i + 1) ≤ k ∧ k < chunkId + (i + 1) + remaining) ↔
          chunkId + i ≤ k ∧ k < chunkId + i + (remaining + 1) := by omega
      rw [@if_neg (k = _ ∧ _) _ fun h => hki h.1]
      simp only [hsame, hrng]

omit hd hsize h in
lemma SmallBlocks.tag_le (hn : n * c.blocksPerChunk < 2 ^ 64) :
    (n / 2 ^ c.chunkIdBits + 1) * 2 ^ c.chunkIdBits * c.blocksPerChunk ≤ 2 ^ 64 := by
  have hbits : 2 ^ 64 = 2 ^ (64 - (c.chunkIdBits + c.blockOffsetBits)) *
      (2 ^ c.chunkIdBits * c.blocksPerChunk) := by
    rw [hc.blocksPerChunk_eq, ← pow_add, ← pow_add, Nat.sub_add_cancel hc.bits_le]
  have hlt : n / 2 ^ c.chunkIdBits < 2 ^ (64 - (c.chunkIdBits + c.blockOffsetBits)) := by
    refine Nat.lt_of_mul_lt_mul_right (a := 2 ^ c.chunkIdBits * c.blocksPerChunk) ?_
    rw [← hbits, ← mul_assoc]
    exact (mul_le_mul_right _ (div_mul_le_self n _)).trans_lt hn
  rw [mul_assoc, hbits]
  exact mul_le_mul_right _ hlt

/-! ### Copying a range -/

variable {address byteOffset len p : ℕ}

lemma Mirrors.copyBytes (hpow : c.numChunks = 2 ^ c.chunkIdBits)
    (hp : position c address byteOffset = p) (hfits : p / c.blockSize < 2 ^ 64)
    (hin : p / pageSize % 2 ^ c.chunkIdBits * pageSize + p % pageSize + len ≤ c.bufferLen) :
    wp (BlockCache.copyBytes c d address byteOffset len)
      (fun dst s' => Mirrors c content bytes s' ∧ dst = (List.range len).map fun k =>
        if (p % pageSize + k) / pageSize < divCeil len pageSize ∧
            ¬ Loaded c s (p / pageSize + (p % pageSize + k) / pageSize) then bytes (p + k)
        else s.memory (c.slotAddress (p / pageSize % 2 ^ c.chunkIdBits) (p % pageSize + k)))
      (fun _ _ => False) s := by
  have hlen := hc.bufferLen_eq
  have hn : p / pageSize * c.blocksPerChunk < 2 ^ 64 := by
    rw [← (hc.chunk_eq p).1]
    exact (div_mul_le_self _ _).trans_lt hfits
  have hcnt : p / pageSize % 2 ^ c.chunkIdBits + 0 + divCeil len pageSize ≤ c.numChunks := by
    simp only [divCeil, pageSize] at *
    omega
  rw [BlockCache.copyBytes, wp_bind, hc.wp_locate hp hfits]
  refine ⟨fun htodo => absurd hcnt (by omega), fun _ => ?_⟩
  refine wp_mono (h.loadChunksFrom hc hd hsize hpow (hc.tag_le hn) 0 _ hcnt) ?_ fun _ _ => id
  rintro - s' ⟨h', hmem⟩
  rw [if_pos hin, wp_checked_ok, wp_bind, wp_get, wp_pure]
  refine ⟨h', map_congr_left fun k hk => ?_⟩
  have hk' := mem_range.mp hk
  -- byte `k` is in the chunk whose id is this much behind the first one
  generalize hq : (p % pageSize + k) / pageSize = q
  have hslot : c.slotAddress (p / pageSize % 2 ^ c.chunkIdBits) (p % pageSize + k) =
      c.slotAddress (p / pageSize % 2 ^ c.chunkIdBits + q) ((p % pageSize + k) % pageSize) := by
    simp only [hc.slotAddress_eq, pageSize] at *
    omega
  have hlast : p / pageSize % 2 ^ c.chunkIdBits + q < c.numChunks := by
    simp only [pageSize] at *
    omega
  have hchk : p / pageSize / 2 ^ c.chunkIdBits * 2 ^ c.chunkIdBits +
      (p / pageSize % 2 ^ c.chunkIdBits + q) = p / pageSize + q := by
    rw [← add_assoc, div_add_mod']
  have hcou : (p / pageSize % 2 ^ c.chunkIdBits + 0 ≤ p / pageSize % 2 ^ c.chunkIdBits + q ∧
      p / pageSize % 2 ^ c.chunkIdBits + q <
        p / pageSize % 2 ^ c.chunkIdBits + 0 + divCeil len pageSize) ↔
      q < divCeil len pageSize := by omega
  have hbyte : (p / pageSize + q) * pageSize + (p % pageSize + k) % pageSize = p + k := by
    simp only [pageSize] at *
    omega
  have hpla : c.bufferPa + (p / pageSize % 2 ^ c.chunkIdBits * pageSize + p % pageSize) + k =
      c.slotAddress (p / pageSize % 2 ^ c.chunkIdBits) (p % pageSize + k) := by
    rw [hc.slotAddress_eq]
    omega
  rw [hpla, hslot, hmem _ hlast _ (mod_lt _ (by decide)), hchk, hbyte]
  simp only [hcou]

omit hd hsize h in
lemma SmallBlocks.fits_of_copyBytes (haddr : address < 2 ^ 64) {dst : List UInt8}
    (hcall : copyBytes c d address byteOffset len s = (.ok dst, s')) :
    position c address byteOffset / c.blockSize < 2 ^ 64 ∧
      position c address byteOffset / pageSize % 2 ^ c.chunkIdBits * pageSize +
        position c address byteOffset % pageSize + len ≤ c.bufferLen := by
  have hfits : position c address byteOffset / c.blockSize < 2 ^ 64 := by
    by_contra hovf
    have hfl : wp (copyBytes c d address byteOffset len) (fun _ _ => False)
        (fun _ _ => True) s := by
      rw [copyBytes, wp_bind]
      exact hc.geometry.wp_locate_of_not_decomposable haddr (fun hok => hovf hok.fits)
        fun _ => trivial
    exact wp_ok hfl hcall
  refine ⟨hfits, ?_⟩
  by_contra hout
  have hfl : wp (copyBytes c d address byteOffset len) (fun _ _ => False)
      (fun _ _ => True) s := by
    rw [copyBytes, wp_bind, hc.wp_locate rfl hfits]
    refine ⟨fun _ => trivial, fun _ => wp_mono (wp_true _ _) (fun _ _ _ => ?_) fun _ _ => id⟩
    rw [if_neg hout]
    trivial
  exact wp_ok hfl hcall

omit hd hsize in
lemma Mirrors.memory_of_loaded (hbits : 2 ≤ c.chunkIdBits + c.blockOffsetBits)
    (hload : Loaded c s n) {j : ℕ} (hj : j < pageSize) :
    s.memory (c.slotAddress (n % 2 ^ c.chunkIdBits) j) = bytes (n * pageSize + j) := by
  obtain ⟨hocc, htag⟩ := hload
  obtain ⟨m, hid, hm, hmtag, hbyt⟩ := h.slot _ hocc
  have hlt : m / 2 ^ c.chunkIdBits < 2 ^ 62 := by
    have hle := hc.tag_le hm
    have hfour : 2 ^ 2 ≤ 2 ^ c.chunkIdBits * c.blocksPerChunk := by
      rw [hc.blocksPerChunk_eq, ← pow_add]
      exact Nat.pow_le_pow_right (by decide) hbits
    have hmul := mul_le_mul_left (m / 2 ^ c.chunkIdBits + 1) hfour
    rw [← mul_assoc] at hmul
    omega
  have hdiv : m / 2 ^ c.chunkIdBits = n / 2 ^ c.chunkIdBits := by
    rw [← htag, hmtag, BitVec.toNat_ofNat, mod_eq_of_lt hlt]
  have heq : m = n := by
    rw [← div_add_mod m (2 ^ c.chunkIdBits), hdiv, hid, div_add_mod]
  rw [hbyt j hj, heq]

omit hd hsize in
lemma Mirrors.memory_of_loaded_behind {k : ℕ} (hpow : c.numChunks = 2 ^ c.chunkIdBits)
    (hbits : 2 ≤ c.chunkIdBits + c.blockOffsetBits)
    (hin : p / pageSize % 2 ^ c.chunkIdBits * pageSize + p % pageSize + k < c.bufferLen)
    (hload : Loaded c s (p / pageSize + (p % pageSize + k) / pageSize)) :
    s.memory (c.slotAddress (p / pageSize % 2 ^ c.chunkIdBits) (p % pageSize + k)) =
      bytes (p + k) := by
  have hmem := h.memory_of_loaded hc hbits hload
    (mod_lt (p % pageSize + k) (by decide : 0 < pageSize))
  have hlen := hc.bufferLen_eq
  generalize hq : (p % pageSize + k) / pageSize = q at *
  have hlt : p / pageSize % 2 ^ c.chunkIdBits + q < 2 ^ c.chunkIdBits := by
    simp only [pageSize] at *
    omega
  have hslot : c.slotAddress (p / pageSize % 2 ^ c.chunkIdBits) (p % pageSize + k) =
      c.slotAddress (p / pageSize % 2 ^ c.chunkIdBits + q) ((p % pageSize + k) % pageSize) := by
    simp only [hc.slotAddress_eq, pageSize] at *
    omega
  have hbyte : (p / pageSize + q) * pageSize + (p % pageSize + k) % pageSize = p + k := by
    simp only [pageSize] at *
    omega
  rwa [← mod_add_mod, mod_eq_of_lt hlt, ← hslot, hbyte] at hmem

/-! ### Runs -/

def ReadStep (c : BlockCache) (d : BlockStore σ) (s s' : State σ) : Prop :=
  ∃ address byteOffset len dst, address < 2 ^ 64 ∧
    copyBytes c d address byteOffset len s = (.ok dst, s')

omit h in
lemma mirrors_of_run (hpow : c.numChunks = 2 ^ c.chunkIdBits) {s₀ : State σ}
    (hs₀ : s₀.metadata = fun _ => {}) (hrun : ReflTransGen (ReadStep c d) s₀ s) :
    Mirrors c content (content s₀.store) s := by
  induction hrun with
  | refl => exact mirrors_of_default hs₀
  | tail _ hstep ih =>
    obtain ⟨address, byteOffset, len, dst, haddr, hcall⟩ := hstep
    obtain ⟨hfits, hin⟩ := hc.fits_of_copyBytes haddr hcall
    exact (wp_ok (ih.copyBytes hc hd hsize hpow rfl hfits hin) hcall).1

def CopiesExactly (c : BlockCache) (d : BlockStore σ) (content : σ → ℕ → UInt8) (s : State σ)
    (address byteOffset len : ℕ) : Prop :=
  ∃ s', copyBytes c d address byteOffset len s =
    (.ok ((List.range len).map fun k => content s.store (position c address byteOffset + k)), s')

/-- The first block of the range is a machine word, the range does not go beyond the last chunk id,
and those of its bytes that the call does not load are in the buffer: bytes behind the chunks that
it counts and, if the metadata keep less than the whole tag, bytes of chunks that seem to be
loaded. -/
structure Available (c : BlockCache) (content : σ → ℕ → UInt8) (s : State σ)
    (address byteOffset len : ℕ) : Prop where
  fits : position c address byteOffset / c.blockSize < 2 ^ 64
  contiguous : position c address byteOffset / pageSize % 2 ^ c.chunkIdBits * pageSize +
    position c address byteOffset % pageSize + len ≤ c.bufferLen
  resident : ∀ k < len,
    divCeil len pageSize ≤ (position c address byteOffset % pageSize + k) / pageSize ∨
      c.chunkIdBits + c.blockOffsetBits < 2 ∧
        Loaded c s (position c address byteOffset / pageSize +
          (position c address byteOffset % pageSize + k) / pageSize) →
    s.memory (c.slotAddress (position c address byteOffset / pageSize % 2 ^ c.chunkIdBits)
      (position c address byteOffset % pageSize + k)) =
        content s.store (position c address byteOffset + k)

lemma Mirrors.copies_iff_available (hpow : c.numChunks = 2 ^ c.chunkIdBits)
    (haddr : address < 2 ^ 64) :
    CopiesExactly c d content s address byteOffset len ↔
      Available c content s address byteOffset len := by
  constructor
  · rintro ⟨s', hcall⟩
    obtain ⟨hfits, hin⟩ := hc.fits_of_copyBytes haddr hcall
    refine ⟨hfits, hin, fun k hk hresi => ?_⟩
    have hdst := (wp_ok (h.copyBytes hc hd hsize hpow rfl hfits hin) hcall).2
    have hbyte := map_inj_left.mp hdst k (mem_range.mpr hk)
    rw [if_neg] at hbyte
    · exact hbyte.symm
    · rintro ⟨hcnt, hmiss⟩
      rcases hresi with hbeh | ⟨-, hloa⟩
      · omega
      · exact hmiss hloa
  · rintro ⟨hfits, hin, hresi⟩
    obtain ⟨dst, s', hcall, -, hdst⟩ :=
      exists_of_wp (h.copyBytes hc hd hsize hpow rfl hfits hin)
    refine ⟨s', hcall.trans ?_⟩
    rw [hdst]
    congr 2
    refine map_congr_left fun k hk => ?_
    have hk' := mem_range.mp hk
    have hres := hresi k hk'
    rw [h.content_eq] at hres ⊢
    generalize position c address byteOffset = p at *
    split_ifs with hload
    · rfl
    · by_cases hcnt : (p % pageSize + k) / pageSize < divCeil len pageSize
      · have hloa : Loaded c s (p / pageSize + (p % pageSize + k) / pageSize) := by
          by_contra hmiss
          exact hload ⟨hcnt, hmiss⟩
        by_cases hbits : c.chunkIdBits + c.blockOffsetBits < 2
        · exact hres (.inr ⟨hbits, hloa⟩)
        · exact h.memory_of_loaded_behind hc hpow (not_lt.mp hbits) (by omega) hloa
      · exact hres (.inl (not_lt.mp hcnt))

end reads

/-- After any run of `copy_bytes`, a call returns the bytes of the store if and only if the range
is in the buffer in one piece when the chunks that it counts are loaded. -/
theorem copiesExactly_iff_available {j m bufferPa : ℕ} {s₀ : State σ} (hd : d.ReadsArray content)
    (hsize : d.supportedBlockSize = 2 ^ j) (hj : 6 ≤ j) (hj' : j < 12)
    (hbuffer : bufferPa + 2 ^ m * pageSize ≤ 2 ^ 64)
    (hnew : new d.supportedBlockSize (2 ^ m) bufferPa = .ok c) (hs₀ : s₀.metadata = fun _ => {})
    (hrun : ReflTransGen (ReadStep c d) s₀ s) (address byteOffset len : ℕ)
    (haddress : address < 2 ^ 64) :
    CopiesExactly c d content s address byteOffset len ↔
      Available c content s address byteOffset len := by
  rw [hsize] at hnew
  obtain ⟨hc, hblk⟩ := smallBlocks_of_new hj hj' hbuffer hnew
  have hpow : c.numChunks = 2 ^ c.chunkIdBits := by
    have hlog : log 2 (2 ^ m) = m := log_pow (by decide) m
    rw [new_eq_small hj', if_neg (by positivity)] at hnew
    cases hnew
    rw [small, hlog]
  have h := mirrors_of_run hc hd (hsize.trans hblk.symm) hpow hs₀ hrun
  exact h.copies_iff_available hc hd (hsize.trans hblk.symm) hpow haddress

lemma arrayStore_readsArray (blockSize : ℕ) : (arrayStore blockSize).ReadsArray id :=
  fun _ _ _ _ _ => ⟨rfl, fun _ => rfl⟩

def twoPages : BlockCache := ⟨1, 1, 2048, 4096, 2, 2, 8192, 0⟩

def sevens : State (ℕ → UInt8) := ⟨fun _ => 7, fun _ => 0, fun _ => {}⟩

/-- The second chunk is loaded, and then a range that crosses into it from the first is read. -/
theorem copiesExactly_across_loaded_chunks :
    ∃ s, ReflTransGen (ReadStep twoPages (arrayStore 2048)) sevens s ∧
      CopiesExactly twoPages (arrayStore 2048) id s 1 2040 16 := by
  have hcall : (copyBytes twoPages (arrayStore 2048) 2 0 1 sevens).1 = .ok [7] := by
    decide +kernel
  have hrun : ReflTransGen (ReadStep twoPages (arrayStore 2048)) sevens
      (copyBytes twoPages (arrayStore 2048) 2 0 1 sevens).2 :=
    .single ⟨2, 0, 1, [7], by decide, Prod.ext hcall rfl⟩
  refine ⟨_, hrun, ?_⟩
  have hnew : new 2048 (2 ^ 1) 0 = .ok twoPages := by decide
  refine (copiesExactly_iff_available (j := 11) (arrayStore_readsArray 2048) rfl (by decide)
    (by decide) (by decide) hnew rfl hrun 1 2040 16 (by decide)).mpr ?_
  exact ⟨by decide, by decide, by decide +kernel⟩

/-- A range of sixteen bytes that crosses from a chunk into the next one: the second chunk is not
loaded, and the last eight bytes are those that the buffer had before. A range of two chunks that
begins with the last chunk id is refused with a panic. -/
theorem copyBytes_crosses_unloaded_chunk :
    new 2048 2 0 = .ok twoPages ∧
    (copyBytes twoPages (arrayStore 2048) 1 2040 16 sevens).1 =
      .ok (List.replicate 8 7 ++ List.replicate 8 0) ∧
    ¬ CopiesExactly twoPages (arrayStore 2048) id sevens 1 2040 16 ∧
    (copyBytes twoPages (arrayStore 2048) 2 0 8192 sevens).1 = .error (.panic .outOfBounds) := by
  have hcall : (copyBytes twoPages (arrayStore 2048) 1 2040 16 sevens).1 =
      .ok (List.replicate 8 7 ++ List.replicate 8 0) := by decide +kernel
  refine ⟨by decide, hcall, ?_, by decide +kernel⟩
  rintro ⟨s', h⟩
  rw [h] at hcall
  exact absurd (Except.ok.inj hcall) (by decide)

end BlockCache

end Kernel.Storage
