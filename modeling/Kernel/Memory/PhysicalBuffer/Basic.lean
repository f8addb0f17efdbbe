import Kernel.Core.Bytes
import Kernel.Memory.Paging.Shared
import Kernel.Memory.VirtualAddressAllocator.Basic

/-!
# Physical buffers

An owned, contiguous region of physical memory that is also mapped for the kernel.
-/

namespace Kernel.Memory

open Core

structure KernelMemory where
  memory : TableMemory
  virtualAddressAllocator : VirtualAddressAllocator
  contents : ℕ → UInt8

abbrev KernelM := Action KernelMemory PageTable.PagingError

namespace KernelM

def checked {α : Type} (x : Checked α) : KernelM α := .lift .panic x

def paging {α : Type} (x : PageTable.PagingM α) : KernelM α := fun s =>
  match x s.memory with
  | (result, memory) => (result, { s with memory })

def expect {α : Type} (x : KernelM α) : KernelM α := fun s =>
  match x s with
  | (.error (.memory _), s) => (.error (.panic .unwrap), s)
  | (result, s) => (result, s)

def allocContig (pageCount : ℕ) : KernelM ℕ := fun s =>
  match s.memory.pma.allocContig pageCount with
  | .error p => (.error (.panic p), s)
  | .ok (.error e, pma) => (.error (.memory e), { s with memory.pma := pma })
  | .ok (.ok addr, pma) => (.ok addr, { s with memory.pma := pma })

def freePages (baseAddress pageCount : ℕ) : KernelM Unit := fun s =>
  match s.memory.pma.freePages baseAddress pageCount with
  | .error p => (.error (.panic p), s)
  | .ok pma => (.ok (), { s with memory.pma := pma })

def allocAddresses (pageCount : ℕ) : KernelM ℕ := fun s =>
  match s.virtualAddressAllocator.alloc pageCount with
  | .error p => (.error (.panic p), s)
  | .ok (.error e, vaa) => (.error (.memory e), { s with virtualAddressAllocator := vaa })
  | .ok (.ok addr, vaa) => (.ok addr, { s with virtualAddressAllocator := vaa })

def freeAddresses (address pageCount : ℕ) : KernelM Unit := fun s =>
  match s.virtualAddressAllocator.free address pageCount with
  | .error p => (.error (.panic p), s)
  | .ok vaa => (.ok (), { s with virtualAddressAllocator := vaa })

end KernelM

def PageTable.translate (pt : PageTable) (s : TableMemory) (v : ℕ) : Option ℕ :=
  (pt.frame s (pageOf v)).map (· + v % pageSize)

def KernelM.storeByte (kernelTable : PageTable) (v : ℕ) (byte : UInt8) : KernelM Unit := fun s =>
  match kernelTable.translate s.memory v with
  | some a => (.ok (), { s with contents := Function.update s.contents a byte })
  | none => (.error (.panic .explicit), s)

def KernelM.store (kernelTable : PageTable) : ℕ → List UInt8 → KernelM Unit
  | _, [] => pure ()
  | v, byte :: bytes => do
    KernelM.storeByte kernelTable v byte
    KernelM.store kernelTable (v + 1) bytes

structure PhysicalBuffer where
  phyAddr : ℕ
  virAddr : ℕ
  pageCount : ℕ
  deriving DecidableEq, Repr

namespace PhysicalBuffer

open KernelM

def len (b : PhysicalBuffer) : Checked ℕ := checkedMul b.pageCount pageSize

section

variable (kernelTable : PageTable)

def alloc (pageCount : ℕ) (pageTableOptions : PageTableEntryOptions) : KernelM PhysicalBuffer := do
  let baseAddressPhy ← allocContig pageCount
  let baseAddressVir ← allocAddresses pageCount
  expect (paging (PageTable.mapRange baseAddressPhy baseAddressVir pageCount pageTableOptions
    kernelTable true))
  pure { phyAddr := baseAddressPhy, virAddr := baseAddressVir, pageCount }

def copyFromSlice (b : PhysicalBuffer) (first last : ℕ) (src : List UInt8) : KernelM Unit := do
  let len ← checked b.len
  checked (if first ≤ last ∧ last ≤ len then .ok () else .error .outOfBounds)
  checked (if src.length = last - first then .ok () else .error .explicit)
  store kernelTable (b.virAddr + first) src

def fill (b : PhysicalBuffer) (first : ℕ) (value : UInt8) : KernelM Unit := do
  let len ← checked b.len
  checked (if first ≤ len then .ok () else .error .outOfBounds)
  store kernelTable (b.virAddr + first) (List.replicate (len - first) value)

def allocZeroed (pageCount : ℕ) (pageTableOptions : PageTableEntryOptions) :
    KernelM PhysicalBuffer := do
  let b ← alloc kernelTable pageCount pageTableOptions
  b.fill kernelTable 0 0
  pure b

def unmapVirtual (b : PhysicalBuffer) : KernelM Unit := do
  paging (PageTable.unmapRange b.virAddr b.pageCount kernelTable)
  freeAddresses b.virAddr b.pageCount

/-- Unmap this buffer from the kernel's virtual address space, returning the physical address and
size. The caller is responsible for returning the physical pages to the allocator. -/
def unmap (b : PhysicalBuffer) : KernelM (ℕ × ℕ) := do
  b.unmapVirtual kernelTable
  pure (b.phyAddr, b.pageCount)

def drop (b : PhysicalBuffer) : KernelM Unit := do
  b.unmapVirtual kernelTable
  freePages b.phyAddr b.pageCount

end

end PhysicalBuffer

end Kernel.Memory
