import Kernel.Registry.Basic

/-!
# The FAT file system

The boot sector says where the file allocation table, the root directory and the clusters are.
-/

namespace Kernel.Fs.Fat

open Core Memory Storage Registry

structure BootSector where
  bytesPerSector : BitVec 16
  sectorsPerCluster : BitVec 8
  reservedSectorsCount : BitVec 16
  numberOfFats : BitVec 8
  rootEntriesCount : BitVec 16
  fatSize16 : BitVec 16
  deriving DecidableEq

def BootSector.validate (b : BootSector) : Except FsError Unit := do
  if b.bytesPerSector.toNat ≠ 512 then
    throw (.badMetadata "bytes per sector != 512" b.bytesPerSector.toNat)
  if b.numberOfFats.toNat ≠ 2 then
    throw (.badMetadata "number of FATs != 2" b.numberOfFats.toNat)

structure VolumeParams where
  fatStart : ℕ
  clustersStart : ℕ
  rootDirectoryStart : ℕ
  sectorsPerCluster : ℕ
  bytesPerSector : ℕ
  deriving DecidableEq

namespace VolumeParams

def computeFromBootsector (partitionAddr : BitVec 32) (b : BootSector) : VolumeParams where
  fatStart := partitionAddr.toNat + b.reservedSectorsCount.toNat
  clustersStart := partitionAddr.toNat + b.reservedSectorsCount.toNat +
    b.numberOfFats.toNat * b.fatSize16.toNat
  rootDirectoryStart := partitionAddr.toNat + b.reservedSectorsCount.toNat +
    b.numberOfFats.toNat * b.fatSize16.toNat
  sectorsPerCluster := b.sectorsPerCluster.toNat
  bytesPerSector := b.bytesPerSector.toNat

variable (params : VolumeParams)

def sectorForCluster (clusterNum : BitVec 16) : ℕ :=
  params.clustersStart + clusterNum.toNat * params.sectorsPerCluster

def bytesPerCluster : ℕ := params.sectorsPerCluster * params.bytesPerSector

end VolumeParams

/-! ### Directories -/

structure DirEntry where
  shortName : Vector UInt8 11
  attributes : BitVec 8
  clusterNumLo : BitVec 16
  fileSize : BitVec 32
  deriving DecidableEq

def DirEntry.isDirectory (e : DirEntry) : Bool := e.attributes.getLsbD 4

structure LongDirEntry where
  entry : DirEntry
  name : List (BitVec 16)
  deriving DecidableEq

def decodeUtf16 : List (BitVec 16) → Option (List Char)
  | [] => some []
  | u :: units =>
    if u.toNat < 0xd800 ∨ 0xe000 ≤ u.toNat then
      (decodeUtf16 units).map (Char.ofNat u.toNat :: ·)
    else if u.toNat < 0xdc00 then
      match units with
      | v :: units =>
        if 0xdc00 ≤ v.toNat ∧ v.toNat < 0xe000 then
          (decodeUtf16 units).map
            (Char.ofNat (0x10000 + (u.toNat - 0xd800) * 0x400 + (v.toNat - 0xdc00)) :: ·)
        else none
      | [] => none
    else none

def bytes (s : List Char) : List UInt8 := s.flatMap String.utf8EncodeChar

def splitExtension (name : List Char) : List Char × List Char :=
  (name.takeWhile (· ≠ '.'), (name.dropWhile (· ≠ '.')).drop 1)

namespace LongDirEntry

def isNamed (de : LongDirEntry) (name : List Char) : Option Bool :=
  if de.name = [] then
    if (bytes name).length ≤ 11 then
      let (name, ext) := splitExtension name
      let ename := de.entry.shortName.toList.take 8
      let eext := de.entry.shortName.toList.drop 8
      -- the extension is not cut at a space as the name is
      some (bytes name = ename.takeWhile (· ≠ 0x20) ∧ bytes ext = eext)
    else some false
  else (decodeUtf16 de.name).map fun longName => longName = name

end LongDirEntry

inductive DirectorySource where
  | direct (address : ℕ)
  | clusters (index : BitVec 16)
  deriving DecidableEq

structure Handler where
  params : VolumeParams
  dirEntryStream : DirectorySource → List (Except Error LongDirEntry)

def firstNamed (name : List Char) :
    List (Except Error LongDirEntry) → Except Error (Option DirEntry)
  | [] => pure none
  | .error e :: _ => .error e
  | .ok de :: v => if de.isNamed name = some true then pure (some de.entry) else firstNamed name v

structure FatFile where
  params : VolumeParams
  startClusterNumber : BitVec 16
  fileSize : BitVec 32
  deriving DecidableEq

def componentName : Component → Checked (List Char)
  | .root => .error .todo
  | .currentDir => pure ['.']
  | .parentDir => pure ['.', '.']
  | .name s => pure s

namespace Handler

variable (h : Handler)

def findEntryForPath (source : DirectorySource) (comps : Components) :
    Checked (Except Error (Option DirEntry)) :=
  match _hnext : comps.next with
  | .error p => .error p
  | .ok (none, _) => .error .unwrap
  | .ok (some comp, rest) => do
    let ps ← componentName comp
    match firstNamed ps (h.dirEntryStream source) with
    | .error e => pure (.error e)
    | .ok none => pure (.ok none)
    | .ok (some de) =>
      if de.isDirectory then findEntryForPath (.clusters de.clusterNumLo) rest
      else pure (.ok (some de))
termination_by comps.back - comps.front
decreasing_by exact Components.lt_of_next _hnext

def openFile (subpath : List Char) : Checked (Except Error FatFile) := do
  match ← h.findEntryForPath (.direct h.params.rootDirectoryStart) (.new subpath) with
  | .error e => pure (.error e)
  | .ok none =>
    pure (.error (.registry "failed to find directory entry for path" (.notFound subpath)))
  | .ok (some entry) => pure (.ok ⟨h.params, entry.clusterNumLo, entry.fileSize⟩)

end Handler

/-! ### Loading a file -/

structure ReadRequest where
  source : ℕ
  address : ℕ
  blocks : ℕ
  deriving DecidableEq

structure Disk where
  fat : ℕ → Checked (Except StorageError (BitVec 16))
  readBlocks : ReadRequest → Except StorageError Unit

inductive Stop where
  | panic (p : Panic)
  | error (e : Error)
  | running
  deriving DecidableEq

abbrev LoadM := Action (List ReadRequest) Stop

def offsetAddress (address byteOffset : ℕ) : ℕ := min (address + byteOffset) (2 ^ 64 - 1)

namespace FatFile

variable (disk : Disk) (file : FatFile)

def nextCluster (reason : String) (cluster : BitVec 16) : LoadM (BitVec 16) :=
  if cluster.toNat * 2 < 2 ^ 16 then
    match disk.fat (cluster.toNat * 2) with
    | .error p => .throw (.panic p)
    | .ok (.error e) => .throw (.error (.storage reason e))
    | .ok (.ok next) => pure next
  else .throw (.panic .overflow)

def readCluster (request : ReadRequest) : LoadM Unit := do
  .modify (· ++ [request])
  match disk.readBlocks request with
  | .error e => .throw (.error (.storage "read data" e))
  | .ok _ => pure ()

def skipClusters (srcOffset : ℕ) :
    (rounds : ℕ) → (cluster : BitVec 16) → (curOffset : ℕ) → LoadM (BitVec 16 × ℕ)
  | 0, _, _ => .throw .running
  | rounds + 1, cluster, curOffset =>
    if curOffset < srcOffset then do
      let cluster ← nextCluster disk "read FAT table" cluster
      let curOffset ← .lift .panic (checkedAdd curOffset file.params.bytesPerCluster)
      skipClusters srcOffset rounds cluster curOffset
    else pure (cluster, curOffset)

def copyClusters (srcOffset destAddress endOffset : ℕ) :
    (rounds : ℕ) → (cluster : BitVec 16) → (curOffset : ℕ) → LoadM Unit
  | 0, _, _ => .throw .running
  | rounds + 1, cluster, curOffset =>
    if curOffset < endOffset then do
      readCluster disk ⟨file.params.sectorForCluster cluster,
        offsetAddress destAddress (curOffset - srcOffset), file.params.sectorsPerCluster⟩
      let cluster ← nextCluster disk "read FAT table for next cluster" cluster
      let curOffset ← .lift .panic (checkedAdd curOffset file.params.bytesPerCluster)
      copyClusters srcOffset destAddress endOffset rounds cluster curOffset
    else pure ()

def loadPages (rounds srcOffset destAddress numPages : ℕ) : LoadM Unit :=
  if srcOffset > file.fileSize.toNat then
    .throw (.error (.fileSystem "load out of bounds" (.outOfBounds srcOffset file.fileSize.toNat
      "load_pages: source offset beyond end of file")))
  else do
    let len ← .lift .panic (checkedMul numPages pageSize)
    let rangeEnd ← .lift .panic (checkedAdd srcOffset len)
    let endOffset := min rangeEnd file.fileSize.toNat
    let (cluster, curOffset) ← skipClusters disk file srcOffset rounds file.startClusterNumber 0
    copyClusters disk file srcOffset destAddress endOffset rounds cluster curOffset

end FatFile

end Kernel.Fs.Fat
