import Kernel.Core.Ranges
import Kernel.Memory.Basic

/-!
# The virtual address allocator

A free list of address ranges kept outside of the memory it describes.
-/

namespace Kernel.Memory

open Core VirtualAddress

structure VirtualAddressAllocator.FreeBlock where
  address : ℕ
  size : ℕ
  deriving DecidableEq, Repr

structure VirtualAddressAllocator where
  freeList : List VirtualAddressAllocator.FreeBlock
  deriving DecidableEq, Repr

namespace VirtualAddressAllocator

def new (startAddress totalSizeInPages : ℕ) : VirtualAddressAllocator :=
  ⟨[⟨startAddress, totalSizeInPages⟩]⟩

def reserveFrom (startAddress endAddress pageCount : ℕ) :
    List FreeBlock → Checked (Option (List FreeBlock))
  | [] => .ok none
  | block :: rest => do
    let len ← checkedMul block.size pageSize
    let blockEnd := add block.address len
    if block.address ≤ startAddress ∧ blockEnd ≥ endAddress then
      if block.address = startAddress then
        if block.size = pageCount then return some rest
        else do
          let size ← checkedSub block.size pageCount
          -- the address grows by a number of pages and not of bytes
          return some (⟨add block.address pageCount, size⟩ :: rest)
      else if blockEnd = endAddress then do
        let size ← checkedSub block.size pageCount
        return some (⟨block.address, size⟩ :: rest)
      else do
        let before ← checkedSub startAddress block.address
        let behind ← checkedSub blockEnd endAddress
        return some (⟨block.address, divCeil before pageSize⟩ ::
          ⟨endAddress, divCeil behind pageSize⟩ :: rest)
    else if block.address ≥ endAddress then return none
    else do
      let found ← reserveFrom startAddress endAddress pageCount rest
      return found.map (block :: ·)

def reserve (vaa : VirtualAddressAllocator) (startAddress pageCount : ℕ) :
    Checked (Except MemoryError Unit × VirtualAddressAllocator) := do
  let len ← checkedMul pageCount pageSize
  let endAddress := add startAddress len
  match ← reserveFrom startAddress endAddress pageCount vaa.freeList with
  | some freeList => return (.ok (), ⟨freeList⟩)
  | none => return (.error (.insufficentForAllocation pageCount), vaa)

def allocFrom (pageCount : ℕ) : List FreeBlock → Checked (Option (ℕ × List FreeBlock))
  | [] => .ok none
  | block :: rest =>
    if block.size ≥ pageCount then
      if block.size = pageCount then .ok (some (block.address, rest))
      else do
        let taken ← checkedMul pageSize pageCount
        let size ← checkedSub block.size pageCount
        return some (block.address, ⟨add block.address taken, size⟩ :: rest)
    else do
      let found ← allocFrom pageCount rest
      return found.map fun (addr, rest) => (addr, block :: rest)

def alloc (vaa : VirtualAddressAllocator) (pageCount : ℕ) :
    Checked (Except MemoryError ℕ × VirtualAddressAllocator) := do
  match ← allocFrom pageCount vaa.freeList with
  | some (addr, freeList) => return (.ok addr, ⟨freeList⟩)
  | none => return (.error .outOfMemory, vaa)

def mergeInto (address endAddress pageCount : ℕ) :
    List FreeBlock → Checked (Option (List FreeBlock))
  | [] => .ok none
  | block :: rest => do
    let len ← checkedMul pageSize block.size
    let back := add block.address len
    if endAddress = block.address then
      -- the range is immediately before this block
      let size ← checkedAdd block.size pageCount
      return some (⟨address, size⟩ :: rest)
    else if address = back then
      -- the range is immediately after this block
      let size ← checkedAdd block.size pageCount
      return some (⟨block.address, size⟩ :: rest)
    else if block.address > address then
      return none
    else
      let merged ← mergeInto address endAddress pageCount rest
      return merged.map (block :: ·)

def free (vaa : VirtualAddressAllocator) (address pageCount : ℕ) :
    Checked VirtualAddressAllocator := do
  let len ← checkedMul pageSize pageCount
  let endAddress := add address len
  match ← mergeInto address endAddress pageCount vaa.freeList with
  | some freeList => return ⟨freeList⟩
  | none => return ⟨vaa.freeList ++ [⟨address, pageCount⟩]⟩

def FreeBlock.range (block : FreeBlock) : Range := ⟨block.address, block.size * pageSize⟩

end VirtualAddressAllocator

end Kernel.Memory
