import Kernel.Core.Action
import Kernel.Memory.Basic

/-!
# The kernel heap allocator

The allocator keeps its free blocks in a doubly linked list that is sorted by address and stored in
the free memory itself.
-/

namespace Kernel.Memory.Heap

open Core VirtualAddress

def kernelHeapStart : ℕ := 0xffff_ff00_0000_0000

def initSize : ℕ := 8

def allocatedBlockHeaderSize : ℕ := 8

def freeBlockHeaderSize : ℕ := 24

def freeBlockHeaderAlign : ℕ := 8

structure Layout where
  size : ℕ
  align : ℕ
  align_isPowerOfTwo : ∃ k, align = 2 ^ k
  size_le : size + align ≤ 2 ^ 63

instance : DecidableEq Layout := fun a b =>
  decidable_of_iff (a.size = b.size ∧ a.align = b.align) <| by
    cases a
    cases b
    simp

def AllocatedBlockHeader.new (size padding : ℕ) : ℕ := size % 2 ^ 56 + padding % 2 ^ 8 * 2 ^ 56

def AllocatedBlockHeader.size (header : ℕ) : ℕ := header % 2 ^ 56

def AllocatedBlockHeader.padding (header : ℕ) : ℕ := header / 2 ^ 56 % 2 ^ 8

structure FreeBlockHeader where
  size : ℕ
  next : ℕ
  prev : ℕ

structure FreeBlock where
  address : ℕ
  size : ℕ
  aligned : alignOffset address freeBlockHeaderAlign = 0

def FreeBlock.new (address size : ℕ) : Checked FreeBlock :=
  if h : alignOffset address freeBlockHeaderAlign = 0 then .ok ⟨address, size, h⟩
  else .error .assertion

inductive BlockAdjacency where
  | before
  | after
  | notAdjacent

def FreeBlock.checkAdjacency (self other : FreeBlock) : BlockAdjacency :=
  if add self.address self.size = other.address then .before
  else if self.address = add other.address other.size then .after
  else .notAdjacent

end Heap

open Heap

/-- The global heap: the fields of its free list, whether it was initialized, and the memory. The
words behind the end of the heap are those of the pages that will be mapped there. -/
structure Heap where
  memory : ℕ → ℕ
  head : ℕ
  tail : ℕ
  heapSizeInBytes : ℕ
  initialized : Bool

namespace Heap

open Core

def newUninit (memory : ℕ → ℕ) : Heap where
  memory
  head := 0
  tail := 0
  heapSizeInBytes := 0
  initialized := false

def write (h : Heap) (address word : ℕ) : Heap :=
  { h with memory := Function.update h.memory address word }

def next (h : Heap) (p : ℕ) : ℕ := h.memory (p + 8)

def prev (h : Heap) (p : ℕ) : ℕ := h.memory (p + 16)

inductive Halt where
  | panicked (reason : Panic)
  | running
  deriving DecidableEq

abbrev HeapM := Action Heap Halt

def checked {α : Type} (x : Checked α) : HeapM α := .lift .panicked x

def readHeader (p : ℕ) : HeapM FreeBlockHeader := do
  let h ← .get
  pure ⟨h.memory p, h.next p, h.prev p⟩

def setSize (p size : ℕ) : HeapM Unit := .modify (·.write p size)

def setNext (p next : ℕ) : HeapM Unit := .modify (·.write (p + 8) next)

def setPrev (p prev : ℕ) : HeapM Unit := .modify (·.write (p + 16) prev)

def ifNonNull (p : ℕ) (x : HeapM Unit) : HeapM Unit := if p ≠ 0 then x else pure ()

/-! ### The free list and its cursor

A cursor is the pointer to its current block; a method that moves it returns the new pointer. -/

def initFreeList (initialSizeInBytes : ℕ) : HeapM Unit := do
  let h ← .get
  checked (assert (h.head = 0))
  .modify fun h => { h with head := kernelHeapStart }
  setSize kernelHeapStart initialSizeInBytes
  setNext kernelHeapStart 0
  setPrev kernelHeapStart 0
  .modify fun h => { h with tail := h.head, heapSizeInBytes := initialSizeInBytes }

def checkPtr (ptr : ℕ) : HeapM Unit := ifNonNull ptr do
  let h ← .get
  checked do
    assert (ptr ≥ kernelHeapStart)
    let heapEnd ← checkedAdd kernelHeapStart h.heapSizeInBytes
    assert (ptr ≤ heapEnd)

def cursor : HeapM ℕ := do
  let h ← .get
  checkPtr h.head
  pure h.head

def increaseSize (newSize : ℕ) : HeapM Unit := do
  let h ← .get
  let size ← checked (checkedAdd h.heapSizeInBytes newSize)
  .modify fun h => { h with heapSizeInBytes := size }

def current (cursor : ℕ) : HeapM (Option FreeBlock) :=
  if cursor = 0 then pure none
  else do
    let pb ← readHeader cursor
    let block ← checked (FreeBlock.new cursor pb.size)
    pure (some block)

def unlinkMiddle (removedBlockP : ℕ) (removedBlock : FreeBlockHeader) : HeapM Unit := do
  checkPtr removedBlock.next
  ifNonNull removedBlock.next do
    let afterRemovedBlock ← readHeader removedBlock.next
    checked (assert (afterRemovedBlock.prev = removedBlockP))
    setPrev removedBlock.next removedBlock.prev
  setNext removedBlock.prev removedBlock.next
  .modify fun h => { h with tail := if h.tail = removedBlockP then removedBlock.prev else h.tail }

def unlinkHead (removedBlockP : ℕ) (removedBlock : FreeBlockHeader) : HeapM Unit := do
  let h ← .get
  checked (assert (removedBlockP = h.head))
  .modify fun h => { h with head := removedBlock.next }
  checkPtr removedBlock.next
  ifNonNull removedBlock.next do
    let newHeadBlock ← readHeader removedBlock.next
    checked (assert (newHeadBlock.prev = removedBlockP))
    setPrev removedBlock.next 0
  .modify fun h => { h with tail := if h.tail = removedBlockP then h.head else h.tail }

def unlink (removedBlockP : ℕ) (removedBlock : FreeBlockHeader) : HeapM Unit :=
  if removedBlock.prev ≠ 0 then unlinkMiddle removedBlockP removedBlock
  else unlinkHead removedBlockP removedBlock

def removeCurrent (cursor : ℕ) : HeapM (Option FreeBlock × ℕ) :=
  if cursor = 0 then pure (none, cursor)
  else do
    let removedBlock ← readHeader cursor
    checkPtr removedBlock.prev
    unlink cursor removedBlock
    let block ← checked (FreeBlock.new cursor removedBlock.size)
    pure (some block, removedBlock.next)

def moveNext (cursor : ℕ) : HeapM ℕ := do
  let h ← .get
  let cursor := if cursor ≠ 0 then h.next cursor else cursor
  checkPtr cursor
  pure cursor

def linkHead (newBlockPtr : ℕ) : HeapM Unit := do
  let h ← .get
  setNext newBlockPtr h.head
  setPrev newBlockPtr 0
  ifNonNull h.head (setPrev h.head newBlockPtr)
  -- if the list was previously empty, make sure the tail pointer is correctly updated
  .modify fun h => { h with tail := if h.tail = 0 then newBlockPtr else h.tail }
  .modify fun h => { h with head := newBlockPtr }

def linkMiddle (cursor newBlockPtr : ℕ) : HeapM Unit := do
  setNext newBlockPtr cursor
  let currentNode ← readHeader cursor
  setPrev newBlockPtr currentNode.prev
  ifNonNull currentNode.prev (setNext currentNode.prev newBlockPtr)
  setPrev cursor newBlockPtr

def linkEnd (newBlockPtr : ℕ) : HeapM Unit := do
  let h ← .get
  checkPtr h.tail
  if h.tail ≠ 0 then do
    let oldTail ← readHeader h.tail
    checked (assert (oldTail.next = 0))
    setNext h.tail newBlockPtr
    setNext newBlockPtr 0
    setPrev newBlockPtr h.tail
    .modify fun h => { h with tail := newBlockPtr }
  else do
    checked (assert (h.head = 0))
    .modify fun h => { h with head := newBlockPtr, tail := newBlockPtr }
    setNext newBlockPtr 0
    setPrev newBlockPtr 0

def insertBeforeCurrent (cursor : ℕ) (newBlock : FreeBlock) : HeapM Unit := do
  checked (assert (newBlock.size ≠ 0))
  checkPtr newBlock.address
  if newBlock.address = 0 then .throw (.panicked .unwrap)
  else do
    setSize newBlock.address newBlock.size
    let h ← .get
    if cursor = h.head then linkHead newBlock.address
    else if cursor ≠ 0 then linkMiddle cursor newBlock.address
    else linkEnd newBlock.address

def extendCurrent (cursor changeInSize : ℕ) : HeapM Unit := ifNonNull cursor do
  let b ← readHeader cursor
  let size ← checked (checkedAdd b.size changeInSize)
  setSize cursor size

/-! ### The allocator -/

abbrev Supply := ℕ → ℕ → Bool

def expectPages (supply : Supply) (numPages : ℕ) : HeapM Unit := do
  let h ← .get
  if supply h.heapSizeInBytes numPages then pure () else .throw (.panicked .unwrap)

def init (supply : Supply) : HeapM Unit := do
  let h ← .get
  .modify fun h => { h with initialized := true }
  checked (assert (h.initialized = false))
  expectPages supply initSize
  initFreeList (initSize * pageSize)

def ensureInit (supply : Supply) : HeapM Unit := do
  let h ← .get
  if h.initialized then pure () else init supply

def findFrom (layout : Layout) : (fuel cursor : ℕ) → HeapM (Option FreeBlock)
  | 0, _ => .throw .running
  | fuel + 1, cursor => do
    match ← current cursor with
    | none => pure none
    | some block => do
      -- the total size of the block including header and padding
      let size ← checked (checkedAdd layout.size allocatedBlockHeaderSize)
      let requiredSize ← checked (checkedAdd size (VirtualAddress.alignOffset
        (VirtualAddress.add block.address allocatedBlockHeaderSize) layout.align))
      if block.size ≥ requiredSize then do
        let (block, _) ← removeCurrent cursor
        pure block
      else do
        let cursor ← moveNext cursor
        findFrom layout fuel cursor

def findSuitableFreeBlock (supply : Supply) (fuel : ℕ) (layout : Layout) :
    HeapM (Option FreeBlock) := do
  ensureInit supply
  let cursor ← cursor
  findFrom layout fuel cursor

def addFrom (newBlock : FreeBlock) : (fuel cursor : ℕ) → HeapM Unit
  | 0, _ => .throw .running
  | fuel + 1, cursor => do
    match ← current cursor with
    | none => insertBeforeCurrent cursor newBlock
    | some block =>
      match newBlock.checkAdjacency block with
      | .before => do
        let (_, cursor) ← removeCurrent cursor
        let size ← checked (checkedAdd newBlock.size block.size)
        insertBeforeCurrent cursor { newBlock with size }
      | .after => extendCurrent cursor newBlock.size
      | .notAdjacent =>
        -- insert the block here to maintain sorted order
        if newBlock.address < block.address then insertBeforeCurrent cursor newBlock
        else do
          let cursor ← moveNext cursor
          addFrom newBlock fuel cursor

def addFreeBlock (fuel : ℕ) (newBlock : FreeBlock) : HeapM Unit := do
  let cursor ← cursor
  addFrom newBlock fuel cursor

def increaseHeapSize (supply : Supply) (fuel : ℕ) (layout : Layout) : HeapM Unit := do
  let h ← .get
  let size ← checked (checkedAdd h.heapSizeInBytes (h.heapSizeInBytes / 2))
  let numNewPages := divCeil (max size layout.size) pageSize
  expectPages supply numNewPages
  let oldHeapEnd ← checked (checkedAdd kernelHeapStart h.heapSizeInBytes)
  let newSize ← checked (checkedMul numNewPages pageSize)
  increaseSize newSize
  let block ← checked (FreeBlock.new oldHeapEnd newSize)
  addFreeBlock fuel block

def requiredBlock (block : FreeBlock) (layout : Layout) : Checked (ℕ × ℕ) := do
  let paddingBefore := VirtualAddress.alignOffset
    (VirtualAddress.add block.address allocatedBlockHeaderSize) layout.align
  let size ← checkedAdd (← checkedAdd allocatedBlockHeaderSize paddingBefore) layout.size
  -- a smaller block would overwrite the next one when it is freed
  let reqBlockSize := max size freeBlockHeaderSize
  -- the address of a remainder block has to be aligned
  let reqBlockSize ← checkedAdd reqBlockSize (VirtualAddress.alignOffset
    (VirtualAddress.add block.address reqBlockSize) freeBlockHeaderAlign)
  pure (paddingBefore, reqBlockSize)

def returnRemainder (fuel : ℕ) (block : FreeBlock) (reqBlockSize : ℕ) : HeapM ℕ := do
  let remaining ← checked (checkedSub block.size reqBlockSize)
  if remaining > freeBlockHeaderSize then do
    -- put back the unused part of the block at the end
    let rest ← checked (FreeBlock.new (VirtualAddress.add block.address reqBlockSize) remaining)
    addFreeBlock fuel rest
    pure reqBlockSize
  else pure block.size

def allocateBlock (fuel : ℕ) (layout : Layout) (block : FreeBlock) : HeapM ℕ := do
  let (paddingBefore, reqBlockSize) ← checked (requiredBlock block layout)
  let actualBlockSize ← returnRemainder fuel block reqBlockSize
  checked (assert (actualBlockSize ≥ freeBlockHeaderSize))
  let paddedAddress := VirtualAddress.add block.address paddingBefore
  if paddedAddress = 0 then .throw (.panicked .unwrap)
  else do
    .modify (·.write paddedAddress (AllocatedBlockHeader.new actualBlockSize paddingBefore))
    pure (VirtualAddress.add paddedAddress allocatedBlockHeaderSize)

def alloc (supply : Supply) (layout : Layout) : (fuel : ℕ) → HeapM ℕ
  | 0 => .throw .running
  | fuel + 1 => do
    match ← findSuitableFreeBlock supply fuel layout with
    | some block => allocateBlock fuel layout block
    | none => do
      increaseHeapSize supply fuel layout
      alloc supply layout fuel

def dealloc (fuel ptr : ℕ) (layout : Layout) : HeapM Unit :=
  if ptr = 0 then pure ()
  else do
    let header := VirtualAddress.offset ptr (-allocatedBlockHeaderSize)
    if header = 0 then .throw (.panicked .unwrap)
    else do
      let h ← .get
      let blockSize := AllocatedBlockHeader.size (h.memory header)
      let blockAddress := VirtualAddress.offset header
        (-AllocatedBlockHeader.padding (h.memory header))
      checked (assert (layout.size ≤ blockSize))
      let block ← checked (FreeBlock.new blockAddress blockSize)
      addFreeBlock fuel block

end Heap

end Kernel.Memory
