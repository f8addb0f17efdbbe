import Kernel.Memory.Basic

/-!
# The physical memory allocator

The two searches walk the bitmap with one iterator that is never reset, so they are a recursion on
the bits that are still to come.
-/

namespace Kernel.Memory

open Core

structure PhysicalMemoryAllocator where
  allocatedPages : List Bool
  memoryStart : ℕ
  deriving DecidableEq, Repr

inductive Search where
  | found (startIndex : ℕ)
  | outOfMemory
  | insufficent
  deriving DecidableEq, Repr

mutual

def skipAllocated (pageCount : ℕ) : List Bool → ℕ → Search
  | [],            _ => .outOfMemory
  | true :: bits,  i => skipAllocated pageCount bits (i + 1)
  | false :: bits, i => checkFollowing pageCount i (pageCount - 1) bits (i + 1)

def checkFollowing (pageCount startIndex : ℕ) : ℕ → List Bool → ℕ → Search
  | 0,           _,             _ => .found startIndex
  | _ + 1,       [],            _ => .insufficent
  | _ + 1,       true :: bits,  i => skipAllocated pageCount bits (i + 1)
  | missing + 1, false :: bits, i => checkFollowing pageCount startIndex missing bits (i + 1)

end

def firstFree : List Bool → ℕ → Option (ℕ × List Bool)
  | [],            _ => none
  | true :: bits,  i => firstFree bits (i + 1)
  | false :: bits, i => some (i, bits)

/-- The second loop of `try_alloc_contig`: `seen` of the `seen + missing` pages wanted behind the
first one were free. Returns the number of pages to allocate, or `none` when the bits run out. -/
def countFollowing : ℕ → ℕ → List Bool → Option ℕ
  | seen, 0,           _             => some (seen + 1)
  | _,    _ + 1,       []            => none
  | seen, _ + 1,       true :: _     => some (seen + 1)
  | seen, missing + 1, false :: bits => countFollowing (seen + 1) missing bits

def fillRange (bits : List Bool) (start count : ℕ) (value : Bool) : Checked (List Bool) :=
  if start + count ≤ bits.length then
    .ok (bits.take start ++ List.replicate count value ++ bits.drop (start + count))
  else .error .outOfBounds

namespace PhysicalMemoryAllocator

def take (pma : PhysicalMemoryAllocator) (startIndex pageCount : ℕ) :
    Checked (ℕ × PhysicalMemoryAllocator) := do
  let bits ← fillRange pma.allocatedPages startIndex pageCount true
  let offset ← checkedMul startIndex pageSize
  let addr ← checkedAdd pma.memoryStart offset
  return (addr, { pma with allocatedPages := bits })

def allocContig (pma : PhysicalMemoryAllocator) (pageCount : ℕ) :
    Checked (Except MemoryError ℕ × PhysicalMemoryAllocator) :=
  match skipAllocated pageCount pma.allocatedPages 0 with
  | .outOfMemory => .ok (.error .outOfMemory, pma)
  | .insufficent => do
    let size ← checkedMul pageCount pageSize
    return (.error (.insufficentForAllocation size), pma)
  | .found startIndex => do
    let _ ← checkedSub pageCount 1
    let (addr, pma') ← pma.take startIndex pageCount
    return (.ok addr, pma')

def alloc (pma : PhysicalMemoryAllocator) :
    Checked (Except MemoryError ℕ × PhysicalMemoryAllocator) :=
  pma.allocContig 1

/-- Try to allocate a contiguous range of pages. If a smaller contiguous range is found first, it
is returned. The result contains the address and the number of pages allocated. -/
def tryAllocContig (pma : PhysicalMemoryAllocator) (desiredPageCount : ℕ) :
    Checked (Except MemoryError (ℕ × ℕ) × PhysicalMemoryAllocator) :=
  match firstFree pma.allocatedPages 0 with
  | none => .ok (.error .outOfMemory, pma)
  | some (startIndex, bits) => do
    let missing ← checkedSub desiredPageCount 1
    match countFollowing 0 missing bits with
    | none => do
      let size ← checkedMul desiredPageCount pageSize
      return (.error (.insufficentForAllocation size), pma)
    | some actualPageCount => do
      let (addr, pma') ← pma.take startIndex actualPageCount
      return (.ok (addr, actualPageCount), pma')

def freePages (pma : PhysicalMemoryAllocator) (baseAddress : ℕ) (pageCount : ℕ) :
    Checked PhysicalMemoryAllocator := do
  let offset ← checkedSub baseAddress pma.memoryStart
  let pageIndex := divCeil offset pageSize
  let bits ← fillRange pma.allocatedPages pageIndex pageCount false
  return { pma with allocatedPages := bits }

def free (pma : PhysicalMemoryAllocator) (baseAddress : ℕ) :
    Checked PhysicalMemoryAllocator :=
  pma.freePages baseAddress 1

def IsAllocated (pma : PhysicalMemoryAllocator) (p : ℕ) : Prop :=
  pma.allocatedPages[p]? = some true

instance (pma : PhysicalMemoryAllocator) (p : ℕ) : Decidable (pma.IsAllocated p) :=
  inferInstanceAs (Decidable (_ = _))

end PhysicalMemoryAllocator

end Kernel.Memory
