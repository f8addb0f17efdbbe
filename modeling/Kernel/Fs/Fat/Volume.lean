import Kernel.Fs.Fat.Directory
import Kernel.Fs.Fat.LoadBytes
import Kernel.Storage.BlockCache.Reads

/-!
# The layout of a volume

The clusters are numbered from 2 on and begin behind the root directory. The table has two bytes
for each of them, which are read through the block cache.
-/

namespace Kernel.Fs.Fat

open Core Memory Storage BlockCache Relation Nat

/-- The first sector of a cluster, as the layout of the file system has it. -/
def BootSector.clusterStart (b : BootSector) (partitionAddr n : ℕ) : ℕ :=
  partitionAddr + b.reservedSectorsCount.toNat + b.numberOfFats.toNat * b.fatSize16.toNat +
    divCeil (32 * b.rootEntriesCount.toNat) b.bytesPerSector.toNat +
    (n - 2) * b.sectorsPerCluster.toNat

/-- `sector_for_cluster` gives the first sector of a cluster iff the root directory is as large as
two clusters. -/
theorem sectorForCluster_iff {b : BootSector} (hvalid : b.validate = .ok ())
    (partitionAddr : BitVec 32) {n : BitVec 16} (hn : 2 ≤ n.toNat) :
    (VolumeParams.computeFromBootsector partitionAddr b).sectorForCluster n =
        b.clusterStart partitionAddr.toNat n.toNat ↔
      2 * b.sectorsPerCluster.toNat = divCeil (32 * b.rootEntriesCount.toNat) 512 := by
  have hmul : n.toNat * b.sectorsPerCluster.toNat =
      2 * b.sectorsPerCluster.toNat + (n.toNat - 2) * b.sectorsPerCluster.toNat := by
    rw [← add_mul, Nat.add_sub_cancel' hn]
  rw [VolumeParams.sectorForCluster, VolumeParams.computeFromBootsector, BootSector.clusterStart,
    bytesPerSector_of_validate hvalid, hmul]
  dsimp only
  omega

/-- The root directory of 512 entries is as large as two clusters of 16 sectors. -/
theorem sectorForCluster_two :
    (VolumeParams.computeFromBootsector 0 (bootSectorWith 16)).sectorForCluster 2 =
      (bootSectorWith 16).clusterStart 0 2 :=
  (sectorForCluster_iff (b := bootSectorWith 16) rfl 0 (n := 2) (by decide)).mpr (by decide)

/-- With clusters of 8 sectors, the first one is taken to begin in the root directory. -/
theorem sectorForCluster_in_root :
    (bootSectorWith 8).validate = .ok () ∧ (bootSectorWith 8).clusterStart 0 2 = 97 ∧
      (VolumeParams.computeFromBootsector 0 (bootSectorWith 8)).sectorForCluster 2 = 81 := by
  decide

/-! ### Reading the table -/

variable {σ : Type} {c : BlockCache} {d : BlockStore σ} {content : σ → ℕ → UInt8}
  {bytes : ℕ → UInt8} {s s₀ : State σ} {j : ℕ}

/-- What `copy_bytes` reads for the bytes of a 16-bit number. -/
def tableRead (c : BlockCache) (d : BlockStore σ) (fatStart : ℕ) (s : State σ) (byteOffset : ℕ) :
    Checked (Except StorageError (BitVec 16)) :=
  match (copyBytes c d fatStart byteOffset 2 s).1 with
  | .ok dst => .ok (.ok (unit (dst.getD 0 0) (dst.getD 1 0)))
  | .error (.panic p) => .error p
  | .error (.storage e) => .ok (.error e)

lemma tableRead_eq (hc : SmallBlocks c) (hd : d.ReadsArray content)
    (hsize : d.supportedBlockSize = c.blockSize) (hpow : c.numChunks = 2 ^ c.chunkIdBits)
    (h : Mirrors c content bytes s) (hbits : 2 ≤ c.chunkIdBits + c.blockOffsetBits)
    {address n : ℕ} (haddr : address < 2 ^ 63) (hblk : c.blockSize = 2 ^ j) (hj : j ≠ 0)
    (hn : n < 2 ^ 15) :
    tableRead c d address s (n * 2) = .ok (.ok (unit (bytes (address * c.blockSize + n * 2))
      (bytes (address * c.blockSize + n * 2 + 1)))) := by
  have heven : position c address (n * 2) % 2 = 0 := by
    rw [position, hblk]
    exact mod_eq_zero_of_dvd (dvd_add ((dvd_pow_self 2 hj).mul_left _) (dvd_mul_left 2 n))
  have hfits : position c address (n * 2) / c.blockSize < 2 ^ 64 := by
    rw [position, mul_comm, mul_add_div (hblk ▸ by positivity)]
    have := div_le_self (n * 2) c.blockSize
    omega
  have hid := mod_lt (position c address (n * 2) / pageSize)
    (by positivity : 0 < 2 ^ c.chunkIdBits)
  have hlen := hc.bufferLen_eq
  -- the two bytes are in one chunk, since the first one has an even position
  have havl : Available c content s address (n * 2) 2 := by
    refine ⟨hfits, ?_, fun k hk hres => ?_⟩
    · simp only [pageSize] at *
      omega
    · simp only [divCeil, pageSize] at *
      omega
  obtain ⟨s', hcall⟩ := (h.copies_iff_available hc hd hsize hpow (by omega)).mpr havl
  rw [tableRead, hcall, h.content_eq]
  rfl

/-- All places that follow a chain read the two bytes of the cluster in the table, unless twice the
cluster number is too large for 16 bits, which stops the kernel. -/
theorem followed_table {bufferPa : ℕ} (hd : d.ReadsArray content)
    (hsize : d.supportedBlockSize = 2 ^ j) (hj : 6 ≤ j) (hj' : j < 12)
    (hbuffer : bufferPa + 256 * pageSize ≤ 2 ^ 64)
    (hnew : new d.supportedBlockSize 256 bufferPa = .ok c) (hs₀ : s₀.metadata = fun _ => {})
    (hrun : ReflTransGen (ReadStep c d) s₀ s) (partitionAddr : BitVec 32) (b : BootSector)
    (n : BitVec 16) :
    let params := VolumeParams.computeFromBootsector partitionAddr b
    let start := params.fatStart * 2 ^ j + n.toNat * 2
    let next := unit (content s₀.store start) (content s₀.store (start + 1))
    let fat := tableRead c d params.fatStart s
    (∀ readBlocks reason requests, FatFile.nextCluster ⟨fat, readBlocks⟩ reason n requests =
        (if n.toNat < 0x8000 then .ok next else .error (.panic .overflow), requests)) ∧
      ∀ entry, DirectoryReader.nextSource ⟨params, c.blockSize, entry, fat⟩ (.clusters n) =
        if n.toNat < 0x8000 then .ok (.ok (.clusters next)) else .error .overflow := by
  intro params start next fat
  by_cases hlt : n.toNat < 0x8000
  · rw [hsize] at hnew
    obtain ⟨hc, hblk⟩ := smallBlocks_of_new hj hj' hbuffer hnew
    have hbits : c.numChunks = 2 ^ c.chunkIdBits ∧ 2 ≤ c.chunkIdBits + c.blockOffsetBits := by
      have hlog : log 2 256 = 8 := by decide
      rw [new_eq_small hj', if_neg (by decide)] at hnew
      cases hnew
      rw [small, hlog]
      exact ⟨rfl, le_add_right_of_le (le_of_ble_eq_true rfl)⟩
    have hsize' := hsize.trans hblk.symm
    have haddr : params.fatStart < 2 ^ 63 := by
      have hpart := partitionAddr.isLt
      have hres := b.reservedSectorsCount.isLt
      simp only [params, VolumeParams.computeFromBootsector]
      omega
    have hread := tableRead_eq hc hd hsize' hbits.1 (mirrors_of_run hc hd hsize' hbits.1 hs₀ hrun)
      hbits.2 haddr hblk (by omega) hlt
    rw [hblk] at hread
    change fat (n.toNat * 2) = .ok (.ok next) at hread
    have hmul : n.toNat * 2 < 2 ^ 16 := by omega
    simp only [if_pos hlt]
    refine ⟨fun readBlocks reason requests => ?_, fun entry => ?_⟩
    · simp only [FatFile.nextCluster, if_pos hmul, hread]
      rfl
    · simp only [DirectoryReader.nextSource, if_pos hmul, hread]
      rfl
  · have hmul : ¬ n.toNat * 2 < 2 ^ 16 := by omega
    simp only [if_neg hlt]
    refine ⟨fun readBlocks reason requests => ?_, fun entry => ?_⟩
    · rw [FatFile.nextCluster, if_neg hmul]
      rfl
    · rw [DirectoryReader.nextSource, if_neg hmul]

/-- The store begins with a table in which the cluster 2 is followed by the cluster `0x0807`. -/
def tableState : State (ℕ → UInt8) :=
  ⟨fun a => if a = 4 then 7 else if a = 5 then 8 else 0, fun _ => 0, fun _ => {}⟩

def volumeCache : BlockCache := ⟨3, 8, 512, 4096, 8, 256, 256 * 4096, 0⟩

theorem followed_table_two :
    FatFile.nextCluster ⟨tableRead volumeCache (arrayStore 512) 0 tableState, fun _ => .ok ()⟩
      "read FAT table" 2 [] = (.ok 0x0807, []) := by
  have hnew : new 512 256 0 = .ok volumeCache := by decide
  exact (followed_table (j := 9) (arrayStore_readsArray 512) rfl (by decide) (by decide)
    (by decide) hnew rfl .refl 0 ⟨512, 1, 0, 2, 0, 0⟩ 2).1 (fun _ => .ok ()) "read FAT table" []

/-- The entry of the cluster `0x8000` is not read. -/
theorem followed_table_overflows :
    FatFile.nextCluster ⟨fun _ => .ok (.ok 3), fun _ => .ok ()⟩ "read FAT table" 0x8000 [] =
        (.error (.panic .overflow), []) ∧
      DirectoryReader.nextSource ⟨.computeFromBootsector 0 (bootSectorWith 8), 512,
        fun _ _ => .ok (.ok shortEntry), fun _ => .ok (.ok 3)⟩ (.clusters 0x8000) =
          .error .overflow :=
  ⟨rfl, rfl⟩

end Kernel.Fs.Fat
