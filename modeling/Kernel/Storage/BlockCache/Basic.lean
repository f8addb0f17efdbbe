import Kernel.Core.Action
import Kernel.Memory.Basic
import Mathlib.Data.Nat.Log

/-!
# The block cache

A cache in memory on top of a block store.
-/

namespace Kernel.Storage

open Core Memory

inductive StorageError where
  | badVector (reason : String) (entry : Option (ℕ × ℕ))
  | deviceError (reason : String)
  | memoryError (source : MemoryError)
  deriving DecidableEq

abbrev PhysicalMemory := ℕ → UInt8

structure BlockStore (σ : Type) where
  supportedBlockSize : ℕ
  readBlocks (source : ℕ) (destinations : List (ℕ × ℕ)) :
    Action (σ × PhysicalMemory) StorageError ℕ
  writeBlocks (sources : List (ℕ × ℕ)) (destination : ℕ) :
    Action (σ × PhysicalMemory) StorageError ℕ

structure ChunkMetadata where
  tag : BitVec 62 := 0
  occupied : Bool := false
  dirty : Bool := false
  deriving DecidableEq, Inhabited

structure BlockCache where
  blockOffsetBits : ℕ
  chunkIdBits : ℕ
  blockSize : ℕ
  chunkSize : ℕ
  blocksPerChunk : ℕ
  numChunks : ℕ
  bufferLen : ℕ
  bufferPa : ℕ
  deriving DecidableEq

namespace BlockCache

structure State (σ : Type) where
  store : σ
  memory : PhysicalMemory
  metadata : ℕ → ChunkMetadata

inductive CacheError where
  | panic (reason : Panic)
  | storage (e : StorageError)
  deriving DecidableEq

def ilog2 (n : ℕ) : Checked ℕ := if n = 0 then .error .assertion else .ok (Nat.log 2 n)

def new (blockSize maxSizeInPages bufferPa : ℕ) : Checked BlockCache := do
  if blockSize = 0 then throw .assertion
  let (blocksPerChunk, numChunks, chunkSize) ←
    if blockSize < pageSize then pure (pageSize / blockSize, maxSizeInPages, pageSize)
    else do
      assert (blockSize % pageSize = 0)
      pure (1, maxSizeInPages / blockSize, blockSize)
  let chunkIdBits ← ilog2 numChunks
  let blockOffsetBits ← ilog2 blocksPerChunk
  pure { blockOffsetBits, chunkIdBits, blockSize, chunkSize, blocksPerChunk, numChunks,
         bufferLen := maxSizeInPages * pageSize, bufferPa }

def bitRange (x msb lsb : ℕ) : ℕ := (x >>> lsb) % 2 ^ (msb + 1 - lsb)

variable (c : BlockCache)

def decomposeAddress (address : ℕ) : Checked (ℕ × ℕ × ℕ) := do
  let tag := bitRange address 63 (c.chunkIdBits + c.blockOffsetBits)
  let chunkId := if c.chunkIdBits = 0 then 0
    else bitRange address (c.chunkIdBits + c.blockOffsetBits - 1) c.blockOffsetBits
  let msb ← checkedSub c.blockOffsetBits 1
  let blockOffset := bitRange address msb 0
  assert (chunkId < c.numChunks)
  assert (blockOffset < c.blockSize)
  pure (tag, chunkId, blockOffset)

def composeAddress (tag chunkId : ℕ) : ℕ :=
  (tag <<< (c.chunkIdBits + c.blockOffsetBits)) % 2 ^ 64 |||
    (chunkId <<< c.blockOffsetBits) % 2 ^ 64

def chunkPhyAddr (chunkId : ℕ) : ℕ := min (c.bufferPa + chunkId * c.chunkSize) (2 ^ 64 - 1)

variable {σ : Type}

abbrev CacheM (σ : Type) := Action (State σ) CacheError

def callStore {α : Type} (x : Action (σ × PhysicalMemory) StorageError α) : CacheM σ α := fun s =>
  match x (s.store, s.memory) with
  | (result, store, memory) => (result.mapError .storage, { s with store, memory })

def checked {α : Type} (x : Checked α) : CacheM σ α := .lift .panic x

variable (d : BlockStore σ)

def loadChunk (tag chunkId : ℕ) (markDirty : Bool) : CacheM σ Unit := do
  checked (if chunkId < c.numChunks then .ok () else .error .outOfBounds)
  let s ← .get
  let md := s.metadata chunkId
  if ¬ md.occupied ∨ md.tag.toNat ≠ tag then
    -- chunk is not present
    if md.dirty then
      let _ ← callStore (d.writeBlocks [(c.chunkPhyAddr chunkId, c.blocksPerChunk)]
        (c.composeAddress md.tag.toNat chunkId))
    let _ ← callStore (d.readBlocks (c.composeAddress tag chunkId)
      [(c.chunkPhyAddr chunkId, c.blocksPerChunk)])
    .modify fun s =>
      { s with metadata :=
          Function.update s.metadata chunkId ⟨BitVec.ofNat 62 tag, true, markDirty⟩ }

def loadChunksFrom (startingTag startingChunkId : ℕ) (markDirty : Bool) (i : ℕ) :
    ℕ → CacheM σ Unit
  | 0 => pure ()
  | remaining + 1 => do
    let chunkId := startingChunkId + i
    if chunkId > c.numChunks then
      loadChunk c d (startingTag + chunkId / c.numChunks) (chunkId % c.numChunks) markDirty
    else loadChunk c d startingTag chunkId markDirty
    loadChunksFrom startingTag startingChunkId markDirty (i + 1) remaining

def loadChunks (startingTag startingChunkId numChunksInclusive : ℕ) (markDirty : Bool) :
    CacheM σ Unit :=
  loadChunksFrom c d startingTag startingChunkId markDirty 0 numChunksInclusive

def locate (address byteOffset len : ℕ) (markDirty : Bool) : CacheM σ ℕ := do
  let address ← checked (if byteOffset ≥ c.blockSize then
    checkedAdd address (byteOffset / c.blockSize) else .ok address)
  let byteOffset := if byteOffset ≥ c.blockSize then byteOffset % c.blockSize else byteOffset
  let (startingTag, startingChunkId, initialBlockOffset) ← checked (c.decomposeAddress address)
  let numChunksInclusive := divCeil len c.chunkSize
  if numChunksInclusive > c.numChunks then .throw (.panic .todo)
  loadChunks c d startingTag startingChunkId numChunksInclusive markDirty
  let offset := startingChunkId * c.chunkSize + initialBlockOffset * c.blockSize + byteOffset
  checked (if offset + len ≤ c.bufferLen then .ok () else .error .outOfBounds)
  pure offset

def copyBytes (address byteOffset len : ℕ) : CacheM σ (List UInt8) := do
  let offset ← locate c d address byteOffset len false
  let s ← .get
  pure ((List.range len).map fun i => s.memory (c.bufferPa + offset + i))

def writeBytes (address byteOffset : ℕ) (src : List UInt8) : CacheM σ Unit := do
  let offset ← locate c d address byteOffset src.length true
  .modify fun s =>
    { s with memory := fun a =>
        if c.bufferPa + offset ≤ a then (src[a - (c.bufferPa + offset)]?).getD (s.memory a)
        else s.memory a }

end BlockCache

end Kernel.Storage
