import Kernel.Core.Bytes
import Kernel.Fs.Fat.LoadPages

/-!
# Which bytes `load_pages` loads

A file is the concatenation of the clusters of its chain, cut off at its size.
-/

namespace Kernel.Fs.Fat

open Core Memory Storage List Option Nat

/-! ### The bytes of a volume -/

def blockBytes (store : ℕ → UInt8) (blockSize first count : ℕ) : List UInt8 :=
  (List.range (count * blockSize)).map fun i => store (first * blockSize + i)

def transfer (store : ℕ → UInt8) (blockSize : ℕ) (memory : ℕ → UInt8)
    (requests : List ReadRequest) : ℕ → UInt8 :=
  requests.foldl (fun memory q =>
    overwrite memory q.address (blockBytes store blockSize q.source q.blocks)) memory

@[simp] lemma length_blockBytes (store : ℕ → UInt8) (blockSize first count : ℕ) :
    (blockBytes store blockSize first count).length = count * blockSize := by
  rw [blockBytes, length_map, length_range]

lemma transfer_append_singleton (store : ℕ → UInt8) (blockSize : ℕ) (memory : ℕ → UInt8)
    (requests : List ReadRequest) (q : ReadRequest) :
    transfer store blockSize memory (requests ++ [q]) =
      overwrite (transfer store blockSize memory requests) q.address
        (blockBytes store blockSize q.source q.blocks) := by
  rw [transfer, foldl_append]
  rfl

namespace VolumeParams

variable (params : VolumeParams) (store : ℕ → UInt8)

def tableEntry (cluster : BitVec 16) : BitVec 16 :=
  let start := params.fatStart * params.bytesPerSector + cluster.toNat * 2
  (store (start + 1)).toBitVec ++ (store start).toBitVec

def clusterBytes (cluster : BitVec 16) : List UInt8 :=
  blockBytes store params.bytesPerSector (params.sectorForCluster cluster) params.sectorsPerCluster

lemma length_clusterBytes (cluster : BitVec 16) :
    (params.clusterBytes store cluster).length = params.bytesPerCluster :=
  length_blockBytes _ _ _ _

end VolumeParams

structure Disk.Returns (disk : Disk) (params : VolumeParams) (store : ℕ → UInt8)
    (clusters : List (BitVec 16)) : Prop where
  fat : ∀ c ∈ clusters, disk.fat (c.toNat * 2) = .ok (.ok (params.tableEntry store c))
  readBlocks : ∀ c ∈ clusters, ∀ address,
    disk.readBlocks ⟨params.sectorForCluster c, address, params.sectorsPerCluster⟩ = .ok ()

namespace FatFile

section

variable (disk : Disk) (file : FatFile) (store : ℕ → UInt8) (clusters : List (BitVec 16))

structure HasChain : Prop where
  start : ∀ c ∈ clusters.head?, c = file.startClusterNumber
  linked : clusters.IsChain fun c c' => file.params.tableEntry store c = c'
  below : ∀ c ∈ clusters, c.toNat < 0x8000
  long : file.fileSize.toNat ≤ clusters.length * file.params.bytesPerCluster

def bytes : List UInt8 :=
  (clusters.flatMap (file.params.clusterBytes store)).take file.fileSize.toNat

/-- `load_pages` returns once each of its loops may go through the whole chain. The bytes of the
range to load are then in the destination, and nothing outside of its pages is written. -/
def LoadsExactly (srcOffset destAddress numPages : ℕ) : Prop :=
  ∀ rounds, clusters.length < rounds → ∀ memory, ∃ requests,
    file.loadPages disk rounds srcOffset destAddress numPages [] = (.ok (), requests) ∧
      (∀ i < min (numPages * pageSize) (file.fileSize.toNat - srcOffset),
        (file.bytes store clusters)[srcOffset + i]? =
          some (transfer store file.params.bytesPerSector memory requests (destAddress + i))) ∧
      ∀ q ∈ requests, q.Inside destAddress (numPages * pageSize) file.params.bytesPerSector

structure Copied (srcOffset destAddress numPages : ℕ) (memory : ℕ → UInt8) (k : ℕ)
    (requests : List ReadRequest) : Prop where
  bytes_eq : ∀ o, srcOffset ≤ o → o < k * file.params.bytesPerCluster →
    (clusters.flatMap (file.params.clusterBytes store))[o]? =
      some (transfer store file.params.bytesPerSector memory requests
        (destAddress + (o - srcOffset)))
  inside : ∀ q ∈ requests, q.Inside destAddress (numPages * pageSize) file.params.bytesPerSector

end

variable {disk : Disk} {file : FatFile} {store : ℕ → UInt8} {clusters : List (BitVec 16)}
  {srcOffset destAddress numPages k n : ℕ} {cluster : BitVec 16} {memory : ℕ → UInt8}
  {requests : List ReadRequest}

/-! ### The chain -/

namespace HasChain

variable (h : file.HasChain store clusters) (hdisk : disk.Returns file.params store clusters)
include h hdisk

lemma next?_eq {c : BitVec 16} (hc : c ∈ clusters) :
    next? disk c = some (file.params.tableEntry store c) := by
  have hlt := h.below c hc
  rw [next?, if_pos (by omega), hdisk.fat c hc]
  rfl

lemma nextCluster_eq {c : BitVec 16} (hc : c ∈ clusters) (reason : String) :
    nextCluster disk reason c requests = (.ok (file.params.tableEntry store c), requests) := by
  rcases nextCluster_cases disk reason c requests with ⟨c', hnext, hrun⟩ | ⟨hnone, -⟩
  · rw [h.next?_eq hdisk hc] at hnext
    cases hnext
    exact hrun
  · rw [h.next?_eq hdisk hc] at hnone
    cases hnone

lemma chain_eq (hk : k < clusters.length) : file.chain disk k = some clusters[k] := by
  induction k with
  | zero =>
    rw [chain, ← h.start clusters[0]]
    rw [List.head?_eq_getElem?, List.getElem?_eq_getElem hk]
    rfl
  | succ k ih =>
    rw [chain, ih (by omega), bind_some, h.next?_eq hdisk (getElem_mem _)]
    exact congrArg some (isChain_iff_getElem.mp h.linked k hk)

lemma isSome_chain (hk : k ≤ clusters.length) : (file.chain disk k).isSome := by
  cases k with
  | zero => rfl
  | succ k =>
    rw [chain, h.chain_eq hdisk hk, bind_some, h.next?_eq hdisk (getElem_mem _)]
    rfl

end HasChain

/-! ### The transfer -/

lemma readCluster_eq (hdisk : disk.Returns file.params store clusters) (hc : cluster ∈ clusters) :
    readCluster disk (file.request srcOffset destAddress k cluster) requests =
      (.ok (), requests ++ [file.request srcOffset destAddress k cluster]) := by
  rcases readCluster_cases disk (file.request srcOffset destAddress k cluster) requests with
    ⟨-, hrun⟩ | ⟨hno, -⟩
  · exact hrun
  · exact absurd (hdisk.readBlocks cluster hc _) hno

lemma Copied.step (h : file.Copied store clusters srcOffset destAddress numPages memory k requests)
    (hk : clusters[k]? = some cluster) (hsrc : srcOffset ≤ k * file.params.bytesPerCluster)
    (haddr : destAddress + (k * file.params.bytesPerCluster - srcOffset) < 2 ^ 64)
    (hfits : (k + 1) * file.params.bytesPerCluster ≤ srcOffset + numPages * pageSize) :
    file.Copied store clusters srcOffset destAddress numPages memory (k + 1)
      (requests ++ [file.request srcOffset destAddress k cluster]) := by
  have hadd : (file.request srcOffset destAddress k cluster).address =
      destAddress + (k * file.params.bytesPerCluster - srcOffset) :=
    min_eq_left (by omega)
  rw [succ_mul] at hfits
  constructor
  · intro o hle hlt
    rw [transfer_append_singleton, hadd]
    rcases lt_or_ge o (k * file.params.bytesPerCluster) with hbef | hge
    · rw [overwrite_of_not (by omega)]
      exact h.bytes_eq o hle hbef
    · -- the offset in the cluster
      obtain ⟨r, rfl⟩ := Nat.exists_eq_add_of_le hge
      rw [succ_mul] at hlt
      have hr : r < (file.params.clusterBytes store cluster).length := by
        rw [VolumeParams.length_clusterBytes]
        omega
      have hidx : destAddress + (k * file.params.bytesPerCluster + r - srcOffset) =
          destAddress + (k * file.params.bytesPerCluster - srcOffset) + r := by
        omega
      rw [getElem?_flatMap_of_length (fun c _ => file.params.length_clusterBytes store c)
        (by omega), hk, bind_some, hidx, List.getElem?_eq_getElem hr]
      exact congrArg some (overwrite_of_lt hr).symm
  · intro q hq
    rcases mem_append.mp hq with hq | hq
    · exact h.inside q hq
    · obtain rfl := mem_singleton.mp hq
      refine ⟨by omega, ?_⟩
      rw [hadd]
      change destAddress + (k * file.params.bytesPerCluster - srcOffset) +
        file.params.bytesPerCluster ≤ _
      omega

lemma copyClusters_copied (h : file.HasChain store clusters)
    (hdisk : disk.Returns file.params store clusters) {rangeEnd : ℕ}
    (hsize : file.params.bytesPerCluster < 2 ^ 32)
    (hdvd : file.params.bytesPerCluster ∣ srcOffset + numPages * pageSize)
    (hend : rangeEnd ≤ min (srcOffset + numPages * pageSize) file.fileSize.toNat)
    (haddr : destAddress + (rangeEnd - srcOffset) ≤ 2 ^ 64)
    (hk : file.chain disk k = some cluster) (hle : k ≤ clusters.length)
    (hrds : clusters.length < k + n) (hsrc : srcOffset ≤ k * file.params.bytesPerCluster)
    (hcop : file.Copied store clusters srcOffset destAddress numPages memory k requests) :
    ∃ requests' k', copyClusters disk file srcOffset destAddress rangeEnd n cluster
        (k * file.params.bytesPerCluster) requests = (.ok (), requests') ∧
      rangeEnd ≤ k' * file.params.bytesPerCluster ∧
      file.Copied store clusters srcOffset destAddress numPages memory k' requests' := by
  induction n generalizing k cluster requests with
  | zero => omega
  | succ n ih =>
    rw [copyClusters]
    split_ifs with hlt
    · have hlen : k < clusters.length := by
        have hlong := h.long
        exact Nat.lt_of_mul_lt_mul_right (a := file.params.bytesPerCluster) (by omega)
      obtain rfl : clusters[k] = cluster := by
        rw [h.chain_eq hdisk hlen] at hk
        exact Option.some.inj hk
      have hmem : clusters[k] ∈ clusters := getElem_mem hlen
      have hfits : (k + 1) * file.params.bytesPerCluster ≤ srcOffset + numPages * pageSize := by
        obtain ⟨m, hm⟩ := hdvd
        rw [hm, mul_comm _ m]
        refine mul_le_mul_right _ (succ_le_of_lt ?_)
        refine Nat.lt_of_mul_lt_mul_left (a := file.params.bytesPerCluster) ?_
        rw [← hm, mul_comm]
        omega
      have hstep := hcop.step (List.getElem?_eq_getElem hlen) hsrc (by omega) hfits
      have hsize' := file.fileSize.isLt
      have hoff : k * file.params.bytesPerCluster + file.params.bytesPerCluster < 2 ^ 64 := by
        omega
      change ∃ requests' k', (readCluster disk (file.request srcOffset destAddress k clusters[k])
        >>= _) _ = _ ∧ _
      rw [Action.bind_of_ok (readCluster_eq hdisk hmem),
        Action.bind_of_ok (h.nextCluster_eq hdisk hmem _),
        Action.bind_of_ok (lift_checkedAdd hoff), ← succ_mul]
      refine ih ?_ hlen (by omega) (hsrc.trans (mul_le_mul_right _ (le_succ k))) hstep
      rw [chain, hk, bind_some, h.next?_eq hdisk hmem]
    · exact ⟨requests, k, rfl, not_lt.mp hlt, hcop⟩

lemma HasChain.loadsExactly (h : file.HasChain store clusters)
    (hdisk : disk.Returns file.params store clusters) (hpos : 0 < file.params.bytesPerCluster)
    (hdvd : file.params.bytesPerCluster ∣ pageSize) (hal : pageSize ∣ srcOffset)
    (hsrc : srcOffset ≤ file.fileSize.toNat)
    (haddr : destAddress + (file.endOffset srcOffset numPages - srcOffset) ≤ 2 ^ 64)
    (hlen : srcOffset + numPages * pageSize < 2 ^ 64) :
    file.LoadsExactly disk store clusters srcOffset destAddress numPages := by
  intro rounds hrds memory
  have hsize : file.params.bytesPerCluster < 2 ^ 32 :=
    (le_of_dvd (by decide) hdvd).trans_lt (by decide)
  have hlt := file.fileSize.isLt
  -- the first loop ends at the cluster with the first byte of the range
  obtain ⟨j, hj⟩ := hdvd.trans hal
  rw [mul_comm] at hj
  have hle : j ≤ clusters.length := by
    refine le_of_mul_le_mul_right ?_ hpos
    rw [← hj]
    exact hsrc.trans h.long
  obtain ⟨c, hc⟩ := isSome_iff_exists.mp (h.isSome_chain hdisk hle)
  have hskip : skipClusters disk file srcOffset rounds file.startClusterNumber
      (0 * file.params.bytesPerCluster) [] = _ :=
    skipClusters_eq hsize (by omega) rfl hc (zero_le _) (by omega)
      (fun i hi => hj ▸ mul_lt_mul_of_pos_right hi hpos) hj.le
  rw [zero_mul] at hskip
  have hnone : file.Copied store clusters srcOffset destAddress numPages memory j [] :=
    ⟨fun o hle hlt => by omega, fun q hq => by cases hq⟩
  obtain ⟨requests, k, hrun, hend, hcop⟩ :=
    copyClusters_copied h hdisk hsize
      (dvd_add (hdvd.trans hal) (hdvd.mul_left numPages)) le_rfl haddr hc hle
      (Nat.lt_add_left j hrds) hj.le hnone
  refine ⟨requests, ?_, fun i hi => ?_, hcop.inside⟩
  · rw [loadPages_eq hsrc hlen, Action.bind_of_ok hskip]
    exact hrun
  · rw [bytes, List.getElem?_take_of_lt (by omega)]
    have hbyte := hcop.bytes_eq (srcOffset + i) le_self_add (by omega)
    rwa [Nat.add_sub_cancel_left] at hbyte

end FatFile

/-- For a volume whose clusters go evenly into pages, and a destination with an address for each
byte to load, `load_pages` does what it should iff the end of the range to load is a 64 bit number.
The end is computed before it is cut off at the size of the file. -/
theorem FatFile.loadsExactly_iff (b : BootSector) (partitionAddr : BitVec 32) (start : BitVec 16)
    (fileSize : BitVec 32) (disk : Disk) (store : ℕ → UInt8) (clusters : List (BitVec 16))
    (srcOffset numPages : ℕ) (destAddress : BitVec 64) :
    let file : FatFile := ⟨.computeFromBootsector partitionAddr b, start, fileSize⟩
    0 < file.params.bytesPerCluster → file.params.bytesPerCluster ∣ pageSize →
    file.HasChain store clusters → disk.Returns file.params store clusters →
    pageSize ∣ srcOffset → srcOffset ≤ fileSize.toNat →
    destAddress.toNat + (file.endOffset srcOffset numPages - srcOffset) ≤ 2 ^ 64 →
      (file.LoadsExactly disk store clusters srcOffset destAddress.toNat numPages ↔
        srcOffset + numPages * pageSize < 2 ^ 64) := by
  intro file hpos hdvd hcha hdisk hal hsrc haddr
  constructor
  · intro h
    by_contra hlen
    obtain ⟨requests, hrun, -⟩ := h (clusters.length + 1) (lt_add_one _) fun _ => 0
    rw [loadPages_of_le hsrc (not_lt.mp hlen)] at hrun
    cases hrun
  · exact hcha.loadsExactly hdisk hpos hdvd hal hsrc haddr

def diskOf (params : VolumeParams) (store : ℕ → UInt8) : Disk where
  fat offset := .ok (.ok (params.tableEntry store (BitVec.ofNat 16 (offset / 2))))
  readBlocks _ := .ok ()

lemma diskOf_returns (params : VolumeParams) (store : ℕ → UInt8) (clusters : List (BitVec 16)) :
    (diskOf params store).Returns params store clusters := by
  refine ⟨fun c _ => ?_, fun _ _ _ => rfl⟩
  change Except.ok (Except.ok (params.tableEntry store (BitVec.ofNat 16 (c.toNat * 2 / 2)))) = _
  rw [Nat.mul_div_cancel _ (by decide), BitVec.ofNat_toNat, BitVec.setWidth_eq]

def linkedStore (a : ℕ) : UInt8 := if a = 516 then 3 else if a < 1024 then 0 else UInt8.ofNat a

def twoClusters : FatFile := ⟨.computeFromBootsector 0 (bootSectorWith 8), 2, 5000⟩

lemma twoClusters_hasChain : twoClusters.HasChain linkedStore [2, 3] := by
  refine ⟨?_, ?_, by simp, by decide⟩
  · intro c hc
    exact (mem_some.mp hc).symm
  · have hnext : twoClusters.params.tableEntry linkedStore 2 = 3 := by decide
    exact isChain_pair.mpr hnext

/-- The second page of a file of two clusters is loaded. -/
theorem FatFile.loadsExactly_second_page :
    twoClusters.HasChain linkedStore [2, 3] ∧
      twoClusters.LoadsExactly (diskOf twoClusters.params linkedStore) linkedStore [2, 3] 4096
        0x40000000 1 :=
  ⟨twoClusters_hasChain, (FatFile.loadsExactly_iff (bootSectorWith 8) 0 2 5000
    (diskOf twoClusters.params linkedStore) linkedStore [2, 3] 4096 1 0x40000000 (by decide)
    (by decide) twoClusters_hasChain (diskOf_returns _ _ _) (by decide) (by decide)
    (by decide)).mpr (by decide)⟩

/-- The number of bytes in 2^52 pages has no 64 bit number, so that asking for as many pages panics,
however small the file is. -/
theorem FatFile.loadPages_overflows :
    twoClusters.HasChain linkedStore [2, 3] ∧
      (∀ rounds, twoClusters.loadPages (diskOf twoClusters.params linkedStore) rounds 0 0x40000000
        (2 ^ 52) [] = (.error (.panic .overflow), [])) ∧
      ¬ twoClusters.LoadsExactly (diskOf twoClusters.params linkedStore) linkedStore [2, 3] 0
        0x40000000 (2 ^ 52) := by
  have hrun : ∀ rounds, twoClusters.loadPages (diskOf twoClusters.params linkedStore) rounds 0
      0x40000000 (2 ^ 52) [] = (.error (.panic .overflow), []) :=
    fun rounds => loadPages_of_le (by decide) (by decide)
  refine ⟨twoClusters_hasChain, hrun, fun h => ?_⟩
  obtain ⟨requests, hok, -⟩ := h 3 (by decide) fun _ => 0
  rw [hrun] at hok
  cases hok

end Kernel.Fs.Fat
