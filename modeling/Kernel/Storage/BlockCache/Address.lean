import Kernel.Core.Ranges
import Kernel.Storage.BlockCache.Basic

/-!
# Addresses in the block cache

Chunk number `n` has chunk id `n % 2 ^ chunkIdBits` and tag `n / 2 ^ chunkIdBits`, and its first
block is `n * 2 ^ blockOffsetBits`.
-/

namespace Kernel.Storage.BlockCache

open Core Memory

structure Geometry (c : BlockCache) : Prop where
  blockSize_pos : 0 < c.blockSize
  chunkSize_pos : 0 < c.chunkSize
  chunkIds_le : 2 ^ c.chunkIdBits ≤ c.numChunks
  bits_le : c.chunkIdBits + c.blockOffsetBits ≤ 64
  blocks_le : c.blocksPerChunk * c.blockSize ≤ c.chunkSize
  chunks_le : c.numChunks * c.chunkSize ≤ c.bufferLen
  buffer_le : c.bufferPa + c.bufferLen ≤ 2 ^ 64

structure SmallBlocks (c : BlockCache) : Prop where
  blockOffsetBits_pos : 0 < c.blockOffsetBits
  blocksPerChunk_eq : c.blocksPerChunk = 2 ^ c.blockOffsetBits
  blocks_mul : c.blocksPerChunk * c.blockSize = pageSize
  blocksPerChunk_le : c.blocksPerChunk ≤ c.blockSize
  chunkSize_eq : c.chunkSize = pageSize
  chunkIds_le : 2 ^ c.chunkIdBits ≤ c.numChunks
  bits_le : c.chunkIdBits + c.blockOffsetBits ≤ 64
  bufferLen_eq : c.bufferLen = c.numChunks * pageSize
  buffer_le : c.bufferPa + c.bufferLen ≤ 2 ^ 64

variable {n k : ℕ}

lemma ilog2_eq_ok : ilog2 n = .ok k ↔ n ≠ 0 ∧ k = Nat.log 2 n := by
  unfold ilog2
  split_ifs with h <;> simp [h, eq_comm]

variable {c : BlockCache} {blockSize pages pa : ℕ}

lemma geometry_of_new
    (hbuf : pa + pages * pageSize ≤ 2 ^ 64) (h : new blockSize pages pa = .ok c) :
    Geometry c ∧ c.blockSize = blockSize := by
  have hpos : 0 < blockSize := by
    rcases eq_zero_or_pos blockSize with rfl | hpos
    · cases h
    · exact hpos
  have hlog (k : ℕ) (hk : k * pageSize ≤ 2 ^ 64) (hne : k ≠ 0) : Nat.log 2 k ≤ 52 := by
    by_contra hlt
    have hpow := Nat.pow_log_le_self 2 hne
    have h53 : 2 ^ 53 ≤ 2 ^ Nat.log 2 k := Nat.pow_le_pow_right (by decide) (by omega)
    simp only [pageSize] at hk
    omega
  by_cases hsm : blockSize < pageSize
  · simp only [new, hpos.ne', hsm, ↓reduceIte, pure_bind, bind_eq_ok, ilog2_eq_ok] at h
    obtain ⟨-, ⟨hpgs, rfl⟩, -, ⟨hblks, rfl⟩, h⟩ := h
    cases h
    have hbits := hlog pages (by omega) hpgs
    have hoff : Nat.log 2 (pageSize / blockSize) ≤ 12 := by
      refine (Nat.log_mono_right (Nat.div_le_self _ _)).trans ?_
      decide
    refine ⟨⟨hpos, Nat.zero_lt_succ _, Nat.pow_log_le_self 2 hpgs, ?_, Nat.div_mul_le_self _ _,
      le_rfl, hbuf⟩, rfl⟩
    exact (Nat.add_le_add hbits hoff).trans (by decide)
  · simp only [new, hpos.ne', hsm, ↓reduceIte, bind_eq_ok, pure_bind, assert_eq_ok,
      ilog2_eq_ok] at h
    obtain ⟨-, -, -, ⟨hchu, rfl⟩, -, ⟨-, rfl⟩, h⟩ := h
    cases h
    have hle : pages / blockSize * blockSize ≤ pages := Nat.div_mul_le_self _ _
    have hbits := hlog (pages / blockSize) ?_ hchu
    · refine ⟨⟨hpos, hpos, Nat.pow_log_le_self 2 hchu, ?_, (one_mul _).le, ?_, hbuf⟩, rfl⟩
      · dsimp only
        rw [Nat.log_one_right]
        omega
      · dsimp only [pageSize]
        omega
    · have hmul := Nat.mul_le_mul_left (pages / blockSize) (not_lt.mp hsm)
      simp only [pageSize] at hmul hbuf ⊢
      omega

def small (j pages pa : ℕ) : BlockCache where
  blockOffsetBits := 12 - j
  chunkIdBits := Nat.log 2 pages
  blockSize := 2 ^ j
  chunkSize := pageSize
  blocksPerChunk := 2 ^ (12 - j)
  numChunks := pages
  bufferLen := pages * pageSize
  bufferPa := pa

variable {j : ℕ}

lemma new_eq_small (hj : j < 12) :
    new (2 ^ j) pages pa = if pages = 0 then .error .assertion else .ok (small j pages pa) := by
  have hsize : 2 ^ j < pageSize := Nat.pow_lt_pow_right (by decide) hj
  have hblks : pageSize / 2 ^ j = 2 ^ (12 - j) := by
    have : pageSize = 2 ^ (12 - j) * 2 ^ j := by rw [← pow_add, Nat.sub_add_cancel hj.le]; rfl
    rw [this, Nat.mul_div_cancel _ (by positivity)]
  have hpos : ∀ k, (2 : ℕ) ^ k ≠ 0 := fun k => by positivity
  have hlog : Nat.log 2 (2 ^ (12 - j)) = 12 - j := Nat.log_pow (by decide) _
  simp only [new, hpos, hsize, ↓reduceIte, hblks, pure_bind, ilog2, hlog]
  split_ifs <;> rfl

lemma smallBlocks_of_new (hj : 6 ≤ j) (hj' : j < 12)
    (hbuf : pa + pages * pageSize ≤ 2 ^ 64) (h : new (2 ^ j) pages pa = .ok c) :
    SmallBlocks c ∧ c.blockSize = 2 ^ j := by
  rw [new_eq_small hj'] at h
  split_ifs at h with hpgs
  cases h
  have hpow : 2 ^ Nat.log 2 pages ≤ pages := Nat.pow_log_le_self 2 hpgs
  have hbits : Nat.log 2 pages ≤ 52 := by
    by_contra hlt
    have h53 : 2 ^ 53 ≤ 2 ^ Nat.log 2 pages := Nat.pow_le_pow_right (by decide) (by omega)
    simp only [pageSize] at hbuf
    omega
  refine ⟨?_, rfl⟩
  constructor <;> dsimp only [small]
  · omega
  · rw [← pow_add, Nat.sub_add_cancel hj'.le]
    rfl
  · exact Nat.pow_le_pow_right (by decide) (by omega)
  · exact hpow
  · omega
  · exact hbuf

variable {c : BlockCache}

section geometry

variable (hc : Geometry c)

include hc

lemma Geometry.decomposeAddress_eq {address : ℕ} (h : address < 2 ^ 64)
    (hbits : 0 < c.blockOffsetBits) :
    c.decomposeAddress address =
      if address % 2 ^ c.blockOffsetBits < c.blockSize then
        .ok (address / 2 ^ c.blockOffsetBits / 2 ^ c.chunkIdBits,
          address / 2 ^ c.blockOffsetBits % 2 ^ c.chunkIdBits, address % 2 ^ c.blockOffsetBits)
      else .error .assertion := by
  have htag : bitRange address 63 (c.chunkIdBits + c.blockOffsetBits) =
      address / 2 ^ c.blockOffsetBits / 2 ^ c.chunkIdBits := by
    have hlt : address / 2 ^ (c.chunkIdBits + c.blockOffsetBits) <
        2 ^ (63 + 1 - (c.chunkIdBits + c.blockOffsetBits)) := by
      apply Nat.div_lt_of_lt_mul
      rwa [← pow_add, Nat.add_sub_cancel' hc.bits_le]
    rw [bitRange, Nat.shiftRight_eq_div_pow, Nat.mod_eq_of_lt hlt, Nat.div_div_eq_div_mul,
      ← pow_add, add_comm]
  have hid : (if c.chunkIdBits = 0 then 0
      else bitRange address (c.chunkIdBits + c.blockOffsetBits - 1) c.blockOffsetBits) =
      address / 2 ^ c.blockOffsetBits % 2 ^ c.chunkIdBits := by
    split_ifs with hzero
    · rw [hzero, pow_zero, Nat.mod_one]
    · rw [bitRange, Nat.shiftRight_eq_div_pow]
      congr 2
      omega
  have hoff : bitRange address (c.blockOffsetBits - 1) 0 = address % 2 ^ c.blockOffsetBits := by
    rw [bitRange, Nat.shiftRight_zero, Nat.sub_zero, Nat.sub_add_cancel hbits]
  have hlt : address / 2 ^ c.blockOffsetBits % 2 ^ c.chunkIdBits < c.numChunks :=
    (Nat.mod_lt _ (by positivity)).trans_le hc.chunkIds_le
  have hmsb : checkedSub c.blockOffsetBits 1 = .ok (c.blockOffsetBits - 1) :=
    checkedSub_eq_ok.mpr ⟨hbits, rfl⟩
  simp only [decomposeAddress, htag, hid, checked_bind_of_ok hmsb, hoff, assert, hlt, ↓reduceIte]
  split_ifs <;> rfl

omit hc in
lemma decomposeAddress_of_bits_eq_zero (address : ℕ) (hbits : c.blockOffsetBits = 0) :
    c.decomposeAddress address = .error .overflow := by
  simp only [decomposeAddress, hbits]
  rfl

omit hc in
lemma composeAddress_eq {n : ℕ} (h : n * 2 ^ c.blockOffsetBits < 2 ^ 64) :
    c.composeAddress (n / 2 ^ c.chunkIdBits) (n % 2 ^ c.chunkIdBits) =
      n * 2 ^ c.blockOffsetBits := by
  have hn : n / 2 ^ c.chunkIdBits * 2 ^ (c.chunkIdBits + c.blockOffsetBits) +
      n % 2 ^ c.chunkIdBits * 2 ^ c.blockOffsetBits = n * 2 ^ c.blockOffsetBits := by
    rw [pow_add, ← mul_assoc, ← add_mul, Nat.div_add_mod']
  have hlow : n % 2 ^ c.chunkIdBits * 2 ^ c.blockOffsetBits <
      2 ^ (c.chunkIdBits + c.blockOffsetBits) := by
    rw [pow_add]
    exact Nat.mul_lt_mul_of_pos_right (Nat.mod_lt _ (by positivity)) (by positivity)
  rw [composeAddress, Nat.shiftLeft_eq, Nat.shiftLeft_eq, Nat.mod_eq_of_lt (by omega),
    Nat.mod_eq_of_lt (by omega), ← Nat.shiftLeft_eq, ← Nat.shiftLeft_add_eq_or_of_lt hlow,
    Nat.shiftLeft_eq, hn]

lemma Geometry.chunkPhyAddr_of_lt {chunkId : ℕ} (h : chunkId < c.numChunks) :
    c.chunkPhyAddr chunkId = c.bufferPa + chunkId * c.chunkSize ∧
      chunkId * c.chunkSize + c.chunkSize ≤ c.bufferLen := by
  have hbuf := hc.buffer_le
  have hpos := hc.chunkSize_pos
  have hmul : (chunkId + 1) * c.chunkSize ≤ c.numChunks * c.chunkSize :=
    Nat.mul_le_mul_right _ h
  have hlen := hmul.trans hc.chunks_le
  rw [Nat.succ_mul] at hlen
  refine ⟨?_, hlen⟩
  rw [chunkPhyAddr, Nat.min_eq_left]
  omega

end geometry

variable (hc : SmallBlocks c)

include hc

lemma SmallBlocks.geometry : Geometry c where
  blockSize_pos := by
    rcases eq_zero_or_pos c.blockSize with hzero | hpos
    · have := hc.blocks_mul
      rw [hzero, mul_zero] at this
      cases this
    · exact hpos
  chunkSize_pos := by
    rw [hc.chunkSize_eq]
    decide
  chunkIds_le := hc.chunkIds_le
  bits_le := hc.bits_le
  blocks_le := by rw [hc.blocks_mul, hc.chunkSize_eq]
  chunks_le := by rw [hc.bufferLen_eq, hc.chunkSize_eq]
  buffer_le := hc.buffer_le

variable {address : ℕ}

lemma SmallBlocks.decomposeAddress_eq (h : address < 2 ^ 64) :
    c.decomposeAddress address =
      .ok (address / c.blocksPerChunk / 2 ^ c.chunkIdBits,
        address / c.blocksPerChunk % 2 ^ c.chunkIdBits, address % c.blocksPerChunk) := by
  have hlt : address % c.blocksPerChunk < c.blockSize :=
    (Nat.mod_lt _ (by rw [hc.blocksPerChunk_eq]; positivity)).trans_le hc.blocksPerChunk_le
  rw [hc.geometry.decomposeAddress_eq h hc.blockOffsetBits_pos, ← hc.blocksPerChunk_eq, if_pos hlt]

lemma SmallBlocks.composeAddress_eq (h : n * c.blocksPerChunk < 2 ^ 64) :
    c.composeAddress (n / 2 ^ c.chunkIdBits) (n % 2 ^ c.chunkIdBits) = n * c.blocksPerChunk := by
  rw [hc.blocksPerChunk_eq] at h ⊢
  exact BlockCache.composeAddress_eq h

variable {chunkId : ℕ}

lemma SmallBlocks.chunkPhyAddr_of_lt (h : chunkId < c.numChunks) :
    c.chunkPhyAddr chunkId = c.bufferPa + chunkId * pageSize ∧
      chunkId * pageSize + pageSize ≤ c.bufferLen := by
  have hpla := hc.geometry.chunkPhyAddr_of_lt h
  rwa [hc.chunkSize_eq] at hpla

lemma SmallBlocks.chunkPhyAddr_eq (h : chunkId < 2 ^ c.chunkIdBits) :
    c.chunkPhyAddr chunkId = c.bufferPa + chunkId * pageSize :=
  (hc.chunkPhyAddr_of_lt (h.trans_le hc.chunkIds_le)).1

/-! ### Groups of blocks -/

lemma SmallBlocks.decomposeAddress_spec (h : address < 2 ^ 64) :
    ∃ tag chunkId blockOffset, c.decomposeAddress address = .ok (tag, chunkId, blockOffset) ∧
      chunkId < c.numChunks ∧ c.composeAddress tag chunkId + blockOffset = address ∧
      c.composeAddress tag chunkId = address / c.blocksPerChunk * c.blocksPerChunk := by
  have hcom := hc.composeAddress_eq ((Nat.div_mul_le_self address c.blocksPerChunk).trans_lt h)
  refine ⟨_, _, _, hc.decomposeAddress_eq h, ?_, ?_, hcom⟩
  · exact (Nat.mod_lt _ (by positivity)).trans_le hc.chunkIds_le
  · rw [hcom, Nat.div_add_mod']

lemma SmallBlocks.decomposeAddress_eq_iff {a b tag offset tag' chunkId' offset' : ℕ}
    (ha : a < 2 ^ 64) (hb : b < 2 ^ 64) (h : c.decomposeAddress a = .ok (tag, chunkId, offset))
    (h' : c.decomposeAddress b = .ok (tag', chunkId', offset')) :
    tag = tag' ∧ chunkId = chunkId' ↔ a / c.blocksPerChunk = b / c.blocksPerChunk := by
  rw [hc.decomposeAddress_eq ha] at h
  rw [hc.decomposeAddress_eq hb] at h'
  cases h
  cases h'
  constructor
  · rintro ⟨htag, hid⟩
    rw [← Nat.div_add_mod (a / c.blocksPerChunk) (2 ^ c.chunkIdBits), htag, hid, Nat.div_add_mod]
  · intro heq
    rw [heq]
    exact ⟨rfl, rfl⟩

def chunkRange (c : BlockCache) (chunkId : ℕ) : Range := ⟨c.chunkPhyAddr chunkId, c.chunkSize⟩

lemma SmallBlocks.chunkRange_eq (h : chunkId < c.numChunks) :
    c.chunkRange chunkId = ⟨c.bufferPa + chunkId * pageSize, pageSize⟩ := by
  rw [chunkRange, (hc.chunkPhyAddr_of_lt h).1, hc.chunkSize_eq]

lemma SmallBlocks.chunkRange_disjoint {i : ℕ} (hi : i < c.numChunks) (hk : k < c.numChunks)
    (hne : i ≠ k) : (c.chunkRange i).Disjoint (c.chunkRange k) := by
  intro x hx hx'
  rw [hc.chunkRange_eq hi, Range.mem_iff] at hx
  rw [hc.chunkRange_eq hk, Range.mem_iff] at hx'
  simp only [pageSize] at hx hx'
  omega

omit hc

/-- For every cache that `new` makes for blocks of 512 to 2048 bytes: an address is decomposed
without a panic into the chunk of its group and its place in the group, and different chunks have
different bytes of the buffer. -/
theorem decomposeAddress_exact {j pages bufferPa : ℕ} (hj : 9 ≤ j) (hj' : j ≤ 11)
    (hpages : 1 ≤ pages) (hbuffer : bufferPa + pages * pageSize ≤ 2 ^ 64) :
    ∃ c, new (2 ^ j) pages bufferPa = .ok c ∧ c.numChunks = pages ∧
      c.blocksPerChunk * 2 ^ j = pageSize ∧
      (∀ address < 2 ^ 64, ∃ tag chunkId blockOffset,
        c.decomposeAddress address = .ok (tag, chunkId, blockOffset) ∧
        chunkId < c.numChunks ∧ c.composeAddress tag chunkId + blockOffset = address ∧
        c.composeAddress tag chunkId = address / c.blocksPerChunk * c.blocksPerChunk) ∧
      (∀ a < 2 ^ 64, ∀ b < 2 ^ 64, ∀ tag chunkId offset tag' chunkId' offset',
        c.decomposeAddress a = .ok (tag, chunkId, offset) →
        c.decomposeAddress b = .ok (tag', chunkId', offset') →
        (tag = tag' ∧ chunkId = chunkId' ↔ a / c.blocksPerChunk = b / c.blocksPerChunk)) ∧
      (∀ i < c.numChunks, bufferPa ≤ (c.chunkRange i).start ∧
        (c.chunkRange i).start + (c.chunkRange i).len ≤ bufferPa + pages * pageSize) ∧
      ∀ i < c.numChunks, ∀ k < c.numChunks, i ≠ k → (c.chunkRange i).Disjoint (c.chunkRange k) := by
  have hnew : new (2 ^ j) pages bufferPa = .ok (small j pages bufferPa) := by
    rw [new_eq_small (by omega), if_neg (by omega)]
  obtain ⟨hc, -⟩ := smallBlocks_of_new (by omega) (by omega) hbuffer hnew
  refine ⟨_, hnew, rfl, hc.blocks_mul, fun address h => hc.decomposeAddress_spec h,
    fun a ha b hb _ _ _ _ _ _ => hc.decomposeAddress_eq_iff ha hb, fun i hi => ?_,
    fun i hi k hk => hc.chunkRange_disjoint hi hk⟩
  have hend := (hc.chunkPhyAddr_of_lt hi).2
  rw [hc.chunkRange_eq hi]
  exact ⟨le_self_add, by rw [add_assoc]; exact Nat.add_le_add_left hend bufferPa⟩

/-- Three pages for blocks of 512 bytes: one bit for the chunk id and three for the block. -/
theorem decomposeAddress_exact_three_pages :
    ∃ c, new 512 3 0x4000_0000 = .ok c ∧ (c.chunkRange 0).Disjoint (c.chunkRange 2) := by
  obtain ⟨c, hnew, hchu, -, -, -, -, hdisj⟩ := @decomposeAddress_exact 9 3 0x4000_0000
    (by decide) (by decide) (by decide) (by decide)
  exact ⟨c, hnew, hdisj 0 (by omega) 2 (by omega) (by decide)⟩

/-! ### Every block size that is admitted -/

def Admits (blockSize : ℕ) : Prop :=
  (∃ j < 12, blockSize = 2 ^ j) ∨ 0 < blockSize ∧ blockSize % pageSize = 0

def Serves (blockSize pages bufferPa : ℕ) : Prop :=
  ∃ c, new blockSize pages bufferPa = .ok c ∧ 1 ≤ c.numChunks ∧
    ∀ address < 2 ^ 64, ∃ parts, c.decomposeAddress address = .ok parts

variable {bufferPa : ℕ}

lemma not_serves_of_lt (hj : j < 6)
    (hbuf : bufferPa + pages * pageSize ≤ 2 ^ 64) : ¬ Serves (2 ^ j) pages bufferPa := by
  rintro ⟨c, hnew, -, hall⟩
  obtain ⟨hc, hsize⟩ := geometry_of_new hbuf hnew
  rw [new_eq_small (by omega)] at hnew
  split_ifs at hnew
  cases hnew
  have hmod : 2 ^ j % 2 ^ (12 - j) = 2 ^ j :=
    Nat.mod_eq_of_lt (Nat.pow_lt_pow_right (by decide) (by omega))
  have hlt : 2 ^ j < 2 ^ 64 := Nat.pow_lt_pow_right (by decide) (by omega)
  obtain ⟨parts, hpar⟩ := hall _ hlt
  rw [hc.decomposeAddress_eq hlt (Nat.sub_pos_of_lt (by omega)), if_neg] at hpar
  · cases hpar
  · exact (hmod.trans hsize.symm).not_lt

lemma not_serves_of_le (h : pageSize ≤ blockSize) :
    ¬ Serves blockSize pages bufferPa := by
  rintro ⟨c, hnew, -, hall⟩
  have hpos : blockSize ≠ 0 := (lt_of_lt_of_le (by decide) h).ne'
  simp only [new, hpos, not_lt.mpr h, ↓reduceIte, bind_eq_ok, pure_bind, assert_eq_ok,
    ilog2_eq_ok] at hnew
  obtain ⟨-, -, -, ⟨-, rfl⟩, -, ⟨-, rfl⟩, hnew⟩ := hnew
  cases hnew
  obtain ⟨parts, hpar⟩ := hall 0 (by decide)
  rw [decomposeAddress_of_bits_eq_zero 0 (Nat.log_one_right 2)] at hpar
  cases hpar

/-- With room for a chunk in the buffer, exactly the block sizes 64 to 2048 are served. -/
theorem serves_iff {blockSize pages bufferPa : ℕ} (hadmits : Admits blockSize)
    (hroom : max blockSize pageSize ≤ pages * pageSize)
    (hbuffer : bufferPa + pages * pageSize ≤ 2 ^ 64) :
    Serves blockSize pages bufferPa ↔ 64 ≤ blockSize ∧ blockSize < pageSize := by
  rcases hadmits with ⟨j, hj, rfl⟩ | ⟨hpos, hmod⟩
  · rcases lt_or_ge j 6 with hlt | hge
    · have hsm : 2 ^ j < 64 := Nat.pow_lt_pow_right (by decide) hlt
      exact iff_of_false (not_serves_of_lt hlt hbuffer) fun h => Nat.not_le_of_lt hsm h.1
    · have hpgs : 1 ≤ pages := by
        have := (le_max_right _ _).trans hroom
        exact Nat.pos_of_mul_pos_right (lt_of_lt_of_le (by decide) this)
      have hnew : new (2 ^ j) pages bufferPa = .ok (small j pages bufferPa) := by
        rw [new_eq_small hj, if_neg (ne_of_gt hpgs)]
      obtain ⟨hc, -⟩ := smallBlocks_of_new hge hj hbuffer hnew
      have hsize : 2 ^ 6 ≤ 2 ^ j := Nat.pow_le_pow_right (by decide) hge
      exact iff_of_true ⟨_, hnew, hpgs, fun address h => ⟨_, hc.decomposeAddress_eq h⟩⟩
        ⟨hsize, Nat.pow_lt_pow_right (by decide) hj⟩
  · have hle : pageSize ≤ blockSize := Nat.le_of_dvd hpos (Nat.dvd_of_mod_eq_zero hmod)
    exact iff_of_false (not_serves_of_le hle) fun h => Nat.not_le_of_lt h.2 hle

theorem serves_iff_512 : Serves 512 1 0 :=
  (serves_iff (.inl ⟨9, by decide, rfl⟩) (by decide) (by decide)).mpr (by decide)

/-- A page for blocks of a page is less than what a chunk is taken to need, more pages than bytes
in a block leave no bits for an offset, and a page with more than 64 blocks has offsets that are not
less than the size of a block. -/
theorem new_and_decomposeAddress_panic :
    Admits 4096 ∧ new 4096 1 0 = .error .assertion ∧
      (∃ c, new 4096 4096 0 = .ok c ∧ c.decomposeAddress 0 = .error .overflow) ∧
      Admits 32 ∧ ∃ c, new 32 1 0 = .ok c ∧ c.decomposeAddress 32 = .error .assertion :=
  ⟨.inr (by decide), rfl, ⟨_, rfl, rfl⟩, .inl ⟨5, by decide, rfl⟩, _, rfl, rfl⟩

end Kernel.Storage.BlockCache
