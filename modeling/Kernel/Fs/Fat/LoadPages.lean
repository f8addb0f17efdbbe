import Kernel.Fs.Fat.Basic

/-!
# Where the pages of a file are loaded to

`load_pages` transfers whole clusters, so the last one may reach beyond the pages that it was given.
-/

namespace Kernel.Fs.Fat

open Core Memory Storage Action

def ReadRequest.Inside (dest len blockSize : ℕ) (q : ReadRequest) : Prop :=
  dest ≤ q.address ∧ q.address + q.blocks * blockSize ≤ dest + len

namespace FatFile

section

variable (disk : Disk) (file : FatFile)

def LoadsInside (srcOffset destAddress numPages blockSize : ℕ) : Prop :=
  ∀ rounds, ∀ q ∈ (file.loadPages disk rounds srcOffset destAddress numPages []).2,
    q.Inside destAddress (numPages * pageSize) blockSize

def next? (cluster : BitVec 16) : Option (BitVec 16) :=
  if cluster.toNat * 2 < 2 ^ 16 then (disk.fat (cluster.toNat * 2)).toOption.bind Except.toOption
  else none

def chain : ℕ → Option (BitVec 16)
  | 0 => some file.startClusterNumber
  | k + 1 => (chain k).bind (next? disk)

def endOffset (srcOffset numPages : ℕ) : ℕ :=
  min (srcOffset + numPages * pageSize) file.fileSize.toNat

def request (srcOffset destAddress k : ℕ) (cluster : BitVec 16) : ReadRequest :=
  ⟨file.params.sectorForCluster cluster,
    offsetAddress destAddress (k * file.params.bytesPerCluster - srcOffset),
    file.params.sectorsPerCluster⟩

structure Reached (srcOffset destAddress numPages k : ℕ) (cluster : BitVec 16) : Prop where
  len_lt : srcOffset + numPages * pageSize < 2 ^ 64
  src_le : srcOffset ≤ k * file.params.bytesPerCluster
  lt_end : k * file.params.bytesPerCluster < file.endOffset srcOffset numPages
  chain_eq : file.chain disk k = some cluster
  earlier : ∀ j < k, srcOffset ≤ j * file.params.bytesPerCluster → ∀ c, file.chain disk j = some c →
    disk.readBlocks (file.request srcOffset destAddress j c) = .ok ()

def Asked (srcOffset destAddress rangeEnd k n : ℕ) (q : ReadRequest) : Prop :=
  ∃ j c, k ≤ j ∧ j < k + n ∧ j * file.params.bytesPerCluster < rangeEnd ∧
    file.chain disk j = some c ∧
    (∀ i, k ≤ i → i < j → ∀ c', file.chain disk i = some c' →
      disk.readBlocks (file.request srcOffset destAddress i c') = .ok ()) ∧
    q = file.request srcOffset destAddress j c

end

variable {disk : Disk} {file : FatFile} {srcOffset destAddress numPages k n : ℕ}
  {cluster : BitVec 16} {requests : List ReadRequest}

lemma chain_of_le {j : ℕ} (hj : (file.chain disk j).isSome) (hle : k ≤ j) :
    (file.chain disk k).isSome := by
  induction j with
  | zero =>
    obtain rfl := Nat.le_zero.mp hle
    exact hj
  | succ j ih =>
    rcases Nat.of_le_succ hle with hle | rfl
    · refine ih ?_ hle
      rw [chain, Option.isSome_iff_exists] at hj
      obtain ⟨c, hc⟩ := hj
      obtain ⟨c', hc', -⟩ := Option.bind_eq_some_iff.mp hc
      rw [hc']
      rfl
    · exact hj

section asked

variable {rangeEnd : ℕ} {q : ReadRequest}

lemma not_asked_zero : ¬ file.Asked disk srcOffset destAddress rangeEnd k 0 q := by
  rintro ⟨j, c, hle, hlt, -⟩
  omega

lemma not_asked_of_le (h : rangeEnd ≤ k * file.params.bytesPerCluster) :
    ¬ file.Asked disk srcOffset destAddress rangeEnd k n q := by
  rintro ⟨j, c, hle, -, hend, -⟩
  exact (h.trans (Nat.mul_le_mul_right _ hle)).not_gt hend

lemma not_asked_of_chain (h : file.chain disk k = none) :
    ¬ file.Asked disk srcOffset destAddress rangeEnd k n q := by
  rintro ⟨j, c, hle, -, -, hj, -⟩
  have hsome := chain_of_le (by rw [hj]; rfl) hle
  rw [h] at hsome
  cases hsome

lemma asked_succ (hk : file.chain disk k = some cluster)
    (hend : k * file.params.bytesPerCluster < rangeEnd) :
    file.Asked disk srcOffset destAddress rangeEnd k (n + 1) q ↔
      q = file.request srcOffset destAddress k cluster ∨
        disk.readBlocks (file.request srcOffset destAddress k cluster) = .ok () ∧
          file.Asked disk srcOffset destAddress rangeEnd (k + 1) n q := by
  constructor
  · rintro ⟨j, c, hle, hlt, hj, hc, hread, rfl⟩
    rcases hle.eq_or_lt with rfl | hgt
    · rw [hk] at hc
      cases hc
      exact .inl rfl
    · exact .inr ⟨hread k le_rfl hgt _ hk, j, c, hgt, by omega, hj, hc,
        fun i hi => hread i (by omega), rfl⟩
  · rintro (rfl | ⟨hok, j, c, hle, hlt, hj, hc, hread, rfl⟩)
    · exact ⟨k, cluster, le_rfl, by omega, hend, hk, fun i hi hi' => by omega, rfl⟩
    · refine ⟨j, c, by omega, by omega, hj, hc, fun i hi hij c' hc' => ?_, rfl⟩
      rcases hi.eq_or_lt with rfl | hgt
      · rw [hk] at hc'
        cases hc'
        exact hok
      · exact hread i hgt hij c' hc'

end asked

lemma nextCluster_cases (disk : Disk) (reason : String) (cluster : BitVec 16)
    (requests : List ReadRequest) :
    (∃ c, next? disk cluster = some c ∧
        nextCluster disk reason cluster requests = (.ok c, requests)) ∨
      next? disk cluster = none ∧
        ∃ e, nextCluster disk reason cluster requests = (.error e, requests) := by
  rw [next?, nextCluster]
  split_ifs
  · rcases disk.fat (cluster.toNat * 2) with p | e | c
    · exact .inr ⟨rfl, _, rfl⟩
    · exact .inr ⟨rfl, _, rfl⟩
    · exact .inl ⟨c, rfl, rfl⟩
  · exact .inr ⟨rfl, _, rfl⟩

lemma readCluster_cases (disk : Disk) (q : ReadRequest) (requests : List ReadRequest) :
    disk.readBlocks q = .ok () ∧ readCluster disk q requests = (.ok (), requests ++ [q]) ∨
      disk.readBlocks q ≠ .ok () ∧
        ∃ e, readCluster disk q requests = (.error e, requests ++ [q]) := by
  rcases hread : disk.readBlocks q with e | ⟨⟩
  · refine .inr ⟨by simp, .error (.storage "read data" e), ?_⟩
    simp [readCluster, hread]
    rfl
  · refine .inl ⟨rfl, ?_⟩
    simp [readCluster, hread]
    rfl

lemma lift_checkedAdd {a b : ℕ} (h : a + b < 2 ^ 64) :
    (lift Stop.panic (checkedAdd a b) : LoadM ℕ) requests = (.ok (a + b), requests) := by
  rw [lift, checkedAdd, if_pos h]
  rfl

lemma lift_checkedMul {a b : ℕ} (h : a * b < 2 ^ 64) :
    (lift Stop.panic (checkedMul a b) : LoadM ℕ) requests = (.ok (a * b), requests) := by
  rw [lift, checkedMul, if_pos h]
  rfl

lemma loadPages_eq (hsrc : srcOffset ≤ file.fileSize.toNat)
    (hlen : srcOffset + numPages * pageSize < 2 ^ 64) :
    file.loadPages disk n srcOffset destAddress numPages requests =
      (do
        let (cluster, curOffset) ← skipClusters disk file srcOffset n file.startClusterNumber 0
        copyClusters disk file srcOffset destAddress (file.endOffset srcOffset numPages) n cluster
          curOffset : LoadM Unit) requests := by
  rw [loadPages, if_neg (by omega), bind_of_ok (lift_checkedMul (by omega)),
    bind_of_ok (lift_checkedAdd hlen)]
  rfl

lemma loadPages_of_le (hsrc : srcOffset ≤ file.fileSize.toNat)
    (hlen : 2 ^ 64 ≤ srcOffset + numPages * pageSize) :
    file.loadPages disk n srcOffset destAddress numPages requests =
      (.error (.panic .overflow), requests) := by
  rw [loadPages, if_neg (Nat.not_lt.mpr hsrc)]
  by_cases hmul : numPages * pageSize < 2 ^ 64
  · have hadd : (lift Stop.panic (checkedAdd srcOffset (numPages * pageSize)) : LoadM ℕ)
        requests = (.error (.panic .overflow), requests) := by
      rw [lift, checkedAdd, if_neg (Nat.not_lt.mpr hlen)]
      rfl
    rw [bind_of_ok (lift_checkedMul hmul), bind_of_error hadd]
  · have hlift : (lift Stop.panic (checkedMul numPages pageSize) : LoadM ℕ) requests =
        (.error (.panic .overflow), requests) := by
      rw [lift, checkedMul, if_neg hmul]
      rfl
    rw [bind_of_error hlift]

section loops

/-! ### The loops -/

variable (hc : file.params.bytesPerCluster < 2 ^ 32)
include hc

lemma skipClusters_eq {j : ℕ} {c : BitVec 16} (hsrc : srcOffset < 2 ^ 32)
    (hk : file.chain disk k = some cluster) (hj : file.chain disk j = some c) (hle : k ≤ j)
    (hrds : j < k + n) (hbef : ∀ i < j, i * file.params.bytesPerCluster < srcOffset)
    (hstop : srcOffset ≤ j * file.params.bytesPerCluster) :
    skipClusters disk file srcOffset n cluster (k * file.params.bytesPerCluster) requests =
      (.ok (c, j * file.params.bytesPerCluster), requests) := by
  induction n generalizing k cluster with
  | zero => omega
  | succ n ih =>
    rw [skipClusters]
    rcases hle.eq_or_lt with rfl | hlt
    · rw [hk] at hj
      cases hj
      rw [if_neg (Nat.not_lt.mpr hstop)]
      rfl
    · rw [if_pos (hbef k hlt)]
      have hsucc := chain_of_le (k := k + 1) (by rw [hj]; rfl) hlt
      rw [chain, hk, Option.bind_some] at hsucc
      rcases nextCluster_cases disk "read FAT table" cluster requests with
        ⟨c', hnext, hrun⟩ | ⟨hnone, -⟩
      · have hoff : k * file.params.bytesPerCluster + file.params.bytesPerCluster < 2 ^ 64 := by
          have := hbef k hlt
          omega
        rw [bind_of_ok hrun, bind_of_ok (lift_checkedAdd hoff), ← Nat.succ_mul]
        exact ih (by rw [chain, hk]; exact hnext) hlt (by omega)
      · rw [hnone] at hsucc
        cases hsucc

lemma wp_skipClusters (hsrc : srcOffset < 2 ^ 32) (hk : file.chain disk k = some cluster)
    (hbef : ∀ i < k, i * file.params.bytesPerCluster < srcOffset) :
    wp (skipClusters disk file srcOffset n cluster (k * file.params.bytesPerCluster))
      (fun x requests' => requests' = requests ∧ ∃ j, x.2 = j * file.params.bytesPerCluster ∧
        file.chain disk j = some x.1 ∧ srcOffset ≤ j * file.params.bytesPerCluster ∧
        ∀ i < j, i * file.params.bytesPerCluster < srcOffset)
      (fun _ requests' => requests' = requests) requests := by
  induction n generalizing k cluster with
  | zero => exact rfl
  | succ n ih =>
    rw [skipClusters]
    split_ifs with hlt
    · rcases nextCluster_cases disk "read FAT table" cluster requests with
        ⟨c', hnext, hrun⟩ | ⟨-, e, hrun⟩
      · have hoff : k * file.params.bytesPerCluster + file.params.bytesPerCluster < 2 ^ 64 := by
          omega
        rw [wp, bind_of_ok hrun, bind_of_ok (lift_checkedAdd hoff), ← Nat.succ_mul]
        refine ih (by rw [chain, hk]; exact hnext) fun i hi => ?_
        rcases Nat.lt_succ_iff_lt_or_eq.mp hi with hi | rfl
        · exact hbef i hi
        · exact hlt
      · rw [wp, bind_of_error hrun]
    · exact ⟨rfl, k, rfl, hk, Nat.not_lt.mp hlt, hbef⟩

lemma mem_copyClusters {rangeEnd : ℕ} {q : ReadRequest} (hrng : rangeEnd < 2 ^ 32)
    (hk : file.chain disk k = some cluster) :
    q ∈ (copyClusters disk file srcOffset destAddress rangeEnd n cluster
        (k * file.params.bytesPerCluster) requests).2 ↔
      q ∈ requests ∨ file.Asked disk srcOffset destAddress rangeEnd k n q := by
  induction n generalizing k cluster requests with
  | zero => exact (or_iff_left not_asked_zero).symm
  | succ n ih =>
    rw [copyClusters]
    split_ifs with hend
    · have hmem : q ∈ requests ++ [file.request srcOffset destAddress k cluster] ↔
          q ∈ requests ∨ q = file.request srcOffset destAddress k cluster := by simp
      rw [asked_succ hk hend, ← or_assoc, ← hmem]
      change q ∈ ((readCluster disk (file.request srcOffset destAddress k cluster) >>= _) _).2 ↔ _
      rcases readCluster_cases disk (file.request srcOffset destAddress k cluster) requests with
        ⟨hread, hrun⟩ | ⟨hread, e, hrun⟩
      · rw [bind_of_ok hrun, and_iff_right hread]
        rcases nextCluster_cases disk "read FAT table for next cluster" cluster
          (requests ++ [file.request srcOffset destAddress k cluster]) with
          ⟨c', hnext, hrun⟩ | ⟨hnone, e, hrun⟩
        · have hoff : k * file.params.bytesPerCluster + file.params.bytesPerCluster < 2 ^ 64 := by
            omega
          rw [bind_of_ok hrun, bind_of_ok (lift_checkedAdd hoff), ← Nat.succ_mul]
          exact ih (by rw [chain, hk]; exact hnext)
        · rw [bind_of_error hrun]
          exact (or_iff_left (not_asked_of_chain (by rw [chain, hk]; exact hnone))).symm
      · rw [bind_of_error hrun]
        exact (or_iff_left fun h => hread h.1).symm
    · exact (or_iff_left (not_asked_of_le (Nat.not_lt.mp hend))).symm

lemma exists_mem_loadPages_iff {q : ReadRequest} :
    (∃ rounds, q ∈ (file.loadPages disk rounds srcOffset destAddress numPages []).2) ↔
      ∃ k c, file.Reached disk srcOffset destAddress numPages k c ∧
        q = file.request srcOffset destAddress k c := by
  have hsize := file.fileSize.isLt
  have hrng : file.endOffset srcOffset numPages < 2 ^ 32 := by
    rw [endOffset]
    omega
  constructor
  · rintro ⟨rounds, hq⟩
    by_cases hsrc : srcOffset ≤ file.fileSize.toNat
    · by_cases hlen : srcOffset + numPages * pageSize < 2 ^ 64
      · rw [loadPages_eq hsrc hlen] at hq
        have hskip : wp (skipClusters disk file srcOffset rounds file.startClusterNumber
            (0 * file.params.bytesPerCluster)) _ _ [] :=
          wp_skipClusters hc (by omega) rfl (by omega)
        rw [zero_mul] at hskip
        rcases hrun : skipClusters disk file srcOffset rounds file.startClusterNumber 0 [] with
          ⟨⟨e⟩ | ⟨c, off⟩, requests⟩
        · rw [wp, hrun] at hskip
          rw [bind_of_error hrun, hskip] at hq
          cases hq
        · obtain ⟨rfl, j, rfl, hj, hstop, hbef⟩ := wp_ok hskip hrun
          rw [bind_of_ok hrun] at hq
          obtain hq | ⟨i, c', hle, -, hend, hi, hread, rfl⟩ :=
            (mem_copyClusters hc hrng hj).mp hq
          · cases hq
          · refine ⟨i, c', ⟨hlen, hstop.trans (Nat.mul_le_mul_right _ hle), hend, hi,
              fun i' hi' hsrc' => hread i' ?_ hi'⟩, rfl⟩
            by_contra hlt
            exact (hbef i' (Nat.not_le.mp hlt)).not_ge hsrc'
      · rw [loadPages_of_le hsrc (Nat.not_lt.mp hlen)] at hq
        cases hq
    · rw [loadPages, if_pos (Nat.not_le.mp hsrc)] at hq
      cases hq
  · rintro ⟨k, c, hk, rfl⟩
    have hsrc : srcOffset ≤ file.fileSize.toNat := by
      have hle := hk.src_le
      have hlt := hk.lt_end
      rw [endOffset] at hlt
      omega
    -- the first loop ends at the first cluster that begins in the range
    have hex : ∃ j, srcOffset ≤ j * file.params.bytesPerCluster := ⟨k, hk.src_le⟩
    have hle : Nat.find hex ≤ k := Nat.find_min' hex hk.src_le
    obtain ⟨c', hc'⟩ := Option.isSome_iff_exists.mp
      (chain_of_le (by rw [hk.chain_eq]; rfl) hle)
    have hskip : skipClusters disk file srcOffset (k + 1) file.startClusterNumber
        (0 * file.params.bytesPerCluster) [] = _ :=
      skipClusters_eq hc (by omega) rfl hc' (Nat.zero_le _) (by omega)
        (fun i hi => Nat.not_le.mp (Nat.find_min hex hi)) (Nat.find_spec hex)
    rw [zero_mul] at hskip
    refine ⟨k + 1, ?_⟩
    rw [loadPages_eq hsrc hk.len_lt, bind_of_ok hskip]
    refine (mem_copyClusters hc hrng hc').mpr (.inr ⟨k, c, hle, by omega, hk.lt_end, hk.chain_eq,
      fun i hi hik => hk.earlier i hik ?_, rfl⟩)
    exact (Nat.find_spec hex).trans (Nat.mul_le_mul_right _ hi)

lemma loadsInside_iff_reached {blockSize : ℕ} :
    file.LoadsInside disk srcOffset destAddress numPages blockSize ↔
      ∀ k c, file.Reached disk srcOffset destAddress numPages k c →
        (file.request srcOffset destAddress k c).Inside destAddress (numPages * pageSize)
          blockSize := by
  constructor
  · intro h k c hk
    obtain ⟨rounds, hq⟩ := (exists_mem_loadPages_iff hc).mpr ⟨k, c, hk, rfl⟩
    exact h rounds _ hq
  · intro h rounds q hq
    obtain ⟨k, c, hk, rfl⟩ := (exists_mem_loadPages_iff hc).mp ⟨rounds, hq⟩
    exact h k c hk

end loops

lemma Reached.le_or_last (h : file.Reached disk srcOffset destAddress numPages k cluster) :
    (k + 1) * file.params.bytesPerCluster ≤ srcOffset + numPages * pageSize ∨
      k = (file.endOffset srcOffset numPages - 1) / file.params.bytesPerCluster := by
  have hlt := h.lt_end
  have hle : file.endOffset srcOffset numPages ≤ srcOffset + numPages * pageSize :=
    min_le_left _ _
  rcases eq_zero_or_pos file.params.bytesPerCluster with hz | hpos
  · rw [hz]
    exact .inl (Nat.zero_le _)
  · rcases lt_or_ge ((k + 1) * file.params.bytesPerCluster)
      (file.endOffset srcOffset numPages) with hnext | hnext
    · exact .inl (hnext.le.trans hle)
    · refine .inr (Nat.div_eq_of_lt_le ?_ ?_).symm <;> omega

end FatFile

lemma bytesPerSector_of_validate {b : BootSector} (h : b.validate = .ok ()) :
    b.bytesPerSector.toNat = 512 := by
  by_contra hne
  rw [BootSector.validate, if_pos hne] at h
  cases h

lemma bytesPerCluster_of_validate {b : BootSector} (h : b.validate = .ok ()) (addr : BitVec 32) :
    (VolumeParams.computeFromBootsector addr b).bytesPerCluster =
      b.sectorsPerCluster.toNat * 512 := by
  rw [VolumeParams.bytesPerCluster, VolumeParams.computeFromBootsector,
    bytesPerSector_of_validate h]

/-- `load_pages` writes only to the pages that it was given iff no cluster of the file that it
reaches goes on beyond them. If the blocks of the store are the sectors of the volume, it is enough
to look at the cluster with the last byte to load. -/
theorem FatFile.loadsInside_iff {b : BootSector} (hvalid : b.validate = .ok ())
    (partitionAddr : BitVec 32) (start : BitVec 16) (fileSize : BitVec 32) (disk : Disk)
    (srcOffset numPages blockSize : ℕ) (destAddress : BitVec 64) :
    let file : FatFile := ⟨.computeFromBootsector partitionAddr b, start, fileSize⟩
    let clusterSize := b.sectorsPerCluster.toNat * 512
    (file.LoadsInside disk srcOffset destAddress.toNat numPages blockSize ↔
      ∀ k c, file.Reached disk srcOffset destAddress.toNat numPages k c →
        offsetAddress destAddress.toNat (k * clusterSize - srcOffset) +
            b.sectorsPerCluster.toNat * blockSize ≤ destAddress.toNat + numPages * pageSize) ∧
    (blockSize = 512 → destAddress.toNat + numPages * pageSize ≤ 2 ^ 64 →
      (file.LoadsInside disk srcOffset destAddress.toNat numPages blockSize ↔
        ∀ c, file.Reached disk srcOffset destAddress.toNat numPages
            ((file.endOffset srcOffset numPages - 1) / clusterSize) c →
          ((file.endOffset srcOffset numPages - 1) / clusterSize + 1) * clusterSize ≤
            srcOffset + numPages * pageSize)) := by
  intro file clusterSize
  have hsize : file.params.bytesPerCluster = clusterSize :=
    bytesPerCluster_of_validate hvalid partitionAddr
  have hc : file.params.bytesPerCluster < 2 ^ 32 := by
    have := b.sectorsPerCluster.isLt
    omega
  have hfst : file.LoadsInside disk srcOffset destAddress.toNat numPages blockSize ↔
      ∀ k c, file.Reached disk srcOffset destAddress.toNat numPages k c →
        offsetAddress destAddress.toNat (k * clusterSize - srcOffset) +
            b.sectorsPerCluster.toNat * blockSize ≤ destAddress.toNat + numPages * pageSize := by
    rw [loadsInside_iff_reached hc]
    refine forall₃_congr fun k c _ => ?_
    rw [ReadRequest.Inside, request, hsize]
    refine and_iff_right ?_
    have := destAddress.isLt
    simp only [offsetAddress]
    omega
  refine ⟨hfst, fun hblk hdest => ?_⟩
  subst hblk
  -- the addresses of the range do not saturate
  have hreq : ∀ k c, file.Reached disk srcOffset destAddress.toNat numPages k c →
      (offsetAddress destAddress.toNat (k * clusterSize - srcOffset) + clusterSize ≤
          destAddress.toNat + numPages * pageSize ↔
        (k + 1) * clusterSize ≤ srcOffset + numPages * pageSize) := by
    intro k c hk
    have hlt := hk.lt_end.trans_le (min_le_left _ _)
    have hle := hk.src_le
    rw [hsize] at hlt hle
    rw [offsetAddress, Nat.succ_mul]
    omega
  rw [hfst]
  constructor
  · intro h c hk
    exact (hreq _ c hk).mp (h _ c hk)
  · intro h k c hk
    refine (hreq k c hk).mpr ?_
    rcases hk.le_or_last with hle | hlast
    · rwa [hsize] at hle
    · rw [hsize] at hlast
      rw [hlast] at hk ⊢
      exact h c hk

def bootSectorWith (sectorsPerCluster : BitVec 8) : BootSector :=
  ⟨512, sectorsPerCluster, 1, 2, 512, 32⟩

def servingDisk : Disk := ⟨fun _ => .ok (.ok 0xffff), fun _ => .ok ()⟩

/-- A file of 100 bytes is loaded to one page if a cluster is not larger than a page. -/
theorem FatFile.loadsInside_page :
    (bootSectorWith 8).validate = .ok () ∧
      FatFile.LoadsInside servingDisk ⟨.computeFromBootsector 0 (bootSectorWith 8), 2, 100⟩ 0
        0x40000000 1 512 :=
  ⟨rfl, ((FatFile.loadsInside_iff (b := bootSectorWith 8) rfl 0 2 100 servingDisk 0 1 512
    0x40000000).2 rfl (by decide)).mpr fun _ _ => by decide⟩

/-- With clusters of 16 sectors, loading a file of 100 bytes to one page writes two pages. -/
theorem FatFile.load_beyond_page :
    (bootSectorWith 16).validate = .ok () ∧
      ¬ FatFile.LoadsInside servingDisk ⟨.computeFromBootsector 0 (bootSectorWith 16), 2, 100⟩ 0
        0x40000000 1 512 := by
  refine ⟨rfl, fun h => ?_⟩
  obtain ⟨-, hend⟩ := h 1 ⟨97, 0x40000000, 16⟩ (by decide)
  exact absurd hend (by decide)

end Kernel.Fs.Fat
