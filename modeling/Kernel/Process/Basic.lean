import Kernel.Error
import Kernel.Kapi.Queue.Basic
import Kernel.Memory.Paging.Iter
import Kernel.Memory.VirtualAddressAllocator.Basic

/-!
# Processes

All page tables lie in the same physical memory, so a process works on the memory of the whole
kernel.
-/

set_option linter.dupNamespace false

namespace Kernel.Process

open Core Memory Kapi

structure UserQueue where
  id : QueueId
  rootAddress : ℕ
  userBaseAddress : ℕ
  capacity : ℕ
  deriving DecidableEq, Repr

def UserQueue.memoryRegion (message : Message) (q : UserQueue) : Checked (ℕ × ℕ × ℕ) := do
  return (q.userBaseAddress, q.rootAddress, ← queuePages message q.capacity)

structure Process where
  id : ProcessId
  pageTables : PageTable
  addressSpaceAllocator : VirtualAddressAllocator
  nextQueueId : BitVec 16
  sendQueues : List (UserQueue × UserQueue)
  recvQueues : List UserQueue
  deriving DecidableEq

structure ProcessState where
  memory : TableMemory
  virtualAddressAllocator : VirtualAddressAllocator
  proc : Process

abbrev ProcessM := Action ProcessState Failure

namespace ProcessM

def checked {α : Type} (x : Checked α) : ProcessM α := .lift .panic x

def fail {α : Type} (e : Error) : ProcessM α := .throw (.error e)

def ofPagingError (reason : String) : PageTable.PagingError → Failure
  | .panic p => .panic p
  | .memory e => .error (.memory reason e)

def paging {α : Type} (reason : String) (x : PageTable.PagingM α) : ProcessM α := fun s =>
  match x s.memory with
  | (.ok a, memory) => (.ok a, { s with memory })
  | (.error e, memory) => (.error (ofPagingError reason e), { s with memory })

def allocator {α β : Type} (reason : String) (put : β → ProcessState → ProcessState) :
    Checked (Except MemoryError α × β) → ProcessM α
  | .error p => .throw (.panic p)
  | .ok (.error e, b) => fun s => (.error (.error (.memory reason e)), put b s)
  | .ok (.ok a, b) => fun s => (.ok a, put b s)

end ProcessM

open ProcessM

/-! ### Memory -/

def memoryOptions : PageTableEntryOptions := { readOnly := false, el0Access := true }

def allocAddresses (pageCount : ℕ) : ProcessM ℕ := do
  let s ← .get
  allocator "allocate virtual addresses for memory region in process"
    (fun vaa s => { s with proc.addressSpaceAllocator := vaa })
    (s.proc.addressSpaceAllocator.alloc pageCount)

def allocKernelAddresses (pageCount : ℕ) : ProcessM ℕ := do
  let s ← .get
  allocator "allocate virtual addresses for memory region in kernel"
    (fun vaa s => { s with virtualAddressAllocator := vaa })
    (s.virtualAddressAllocator.alloc pageCount)

def shareAddresses (pageCount : ℕ) : (shareWithKernel : Bool) → ProcessM (Option ℕ)
  | true => some <$> allocKernelAddresses pageCount
  | false => pure none

def allocPhysical (pageCount : ℕ) : ProcessM (ℕ × ℕ) := do
  let s ← .get
  allocator "allocate physical memory for process"
    (fun pma s => { s with memory.pma := pma }) (s.memory.pma.tryAllocContig pageCount)

def mapUser (paddr vaddr size : ℕ) : ProcessM Unit := do
  let s ← .get
  paging "map new memory into process address space"
    (PageTable.mapRange paddr vaddr size memoryOptions s.proc.pageTables true)

section

variable (kernelTable : PageTable)

def mapKernel (paddr offset size : ℕ) : Option ℕ → ProcessM Unit
  | some kvaddr => paging "map new memory into kernel address space"
      (PageTable.mapRange paddr (VirtualAddress.add kvaddr offset) size memoryOptions kernelTable
        true)
  | none => pure ()

def allocPages (vaddr : ℕ) (kvaddr : Option ℕ) : (rounds offset pageCount : ℕ) → ProcessM Unit
  | 0, _, _ => pure ()
  | rounds + 1, offset, pageCount =>
    if pageCount > 0 then do
      let (paddr, size) ← allocPhysical pageCount
      mapUser paddr (VirtualAddress.add vaddr offset) size
      mapKernel kernelTable paddr offset size kvaddr
      let len ← checked (checkedMul size pageSize)
      let offset ← checked (checkedAdd offset len)
      let pageCount ← checked (checkedSub pageCount size)
      allocPages vaddr kvaddr rounds offset pageCount
    else pure ()

/-- Map more memory into the process. If `share_with_kernel` is true, then the memory will also be
mapped into the kernel's address space and the kernel base address will be returned as the second
value. The function waits only for the lock of the address space allocator, before anything
else. -/
def allocMemory (pageCount : ℕ) (shareWithKernel : Bool) : ProcessM (ℕ × Option ℕ) := do
  let vaddr ← allocAddresses pageCount
  let kvaddr ← shareAddresses pageCount shareWithKernel
  allocPages kernelTable vaddr kvaddr pageCount 0 pageCount
  pure (vaddr, kvaddr)

end

def freeRegion (region : MappedRegion) : PageTable.PagingM Unit := fun s =>
  match s.pma.freePages region.basePhysAddr region.pageCount with
  | .error p => (.error (.panic p), s)
  | .ok pma => (.ok (), { s with pma })

def freeAddresses (ptr pageCount : ℕ) : ProcessM Unit := fun s =>
  match s.proc.addressSpaceAllocator.free ptr pageCount with
  | .error p => (.error (.panic p), s)
  | .ok vaa => (.ok (), { s with proc.addressSpaceAllocator := vaa })

/-- Free memory allocated by `alloc_memory`, both physical and virtual. It is not unmapped from the
kernel address space. The walk through the page table fails by a panic only. -/
def freeMemory (ptr pageCount : ℕ) : ProcessM Unit := do
  let s ← .get
  paging "free memory" (PageTable.unmapRangeCustom freeRegion ptr pageCount s.proc.pageTables)
  freeAddresses ptr pageCount

/-! ### Queues -/

def nextQueueId : ProcessM QueueId := fun s =>
  let id := s.proc.nextQueueId
  if id = 0 then
    (.error (.error (.misc "ran out of queue IDs for process" (some .outOfIds))), s)
  else (.ok id, { s with proc.nextQueueId := id + 1 })

def prepareQueue (message : Message) (numElements : ℕ) : ProcessM (QueueId × ℕ) :=
  if numElements = 0 then
    fail (.misc "queue must have at least a capacity of 1, got 0" (some .invalidSize))
  else do
    let id ← nextQueueId
    let pageCount ← checked (queuePages message numElements)
    pure (id, pageCount)

section

variable (kernelTable : PageTable)

def finishQueue (id : QueueId) (pageCount numElements : ℕ) : ProcessM UserQueue := do
  let (userBaseAddress, kernelBaseAddress) ← allocMemory kernelTable pageCount true
  match kernelBaseAddress with
  | none => .throw (.panic .unwrap)
  | some rootAddress =>
    if rootAddress = 0 then .throw (.panic .unwrap)
    else do
      let queue ← checked (Queue.new numElements)
      pure { id, rootAddress, userBaseAddress, capacity := queue.capacity }

def pushRecv (queue : UserQueue) : ProcessM Unit :=
  .modify fun s => { s with proc.recvQueues := queue :: s.proc.recvQueues }

def pushSend (queue recv : UserQueue) : ProcessM Unit :=
  .modify fun s => { s with proc.sendQueues := (queue, recv) :: s.proc.sendQueues }

def UserQueue.newQueue (q : UserQueue) : NewQueue := ⟨q.id, q.userBaseAddress⟩

def finishCompletionQueue (id : QueueId) (pageCount size : ℕ) : ProcessM NewQueue := do
  let queue ← finishQueue kernelTable id pageCount size
  pushRecv queue
  pure queue.newQueue

def createCompletionQueue (size : ℕ) : ProcessM NewQueue := do
  let (id, pageCount) ← prepareQueue .completion size
  finishCompletionQueue kernelTable id pageCount size

def findRecv (id : QueueId) : ProcessM UserQueue := do
  let s ← .get
  match s.proc.recvQueues.find? fun q => q.id = id with
  | some q => pure q
  | none => fail (.misc s!"completion queue {id.toNat} not found" (some .invalidId))

def finishSubmissionQueue (recv : UserQueue) (id : QueueId) (pageCount size : ℕ) :
    ProcessM NewQueue := do
  let queue ← finishQueue kernelTable id pageCount size
  pushSend queue recv
  pure queue.newQueue

def createSubmissionQueue (info : CreateSubmissionQueue) : ProcessM NewQueue := do
  let recv ← findRecv info.associatedCompletionQueue
  let (id, pageCount) ← prepareQueue .command info.size
  finishSubmissionQueue kernelTable recv id pageCount info.size

def removeRecv (id : QueueId) : ProcessM (Option UserQueue) := do
  let s ← .get
  .modify fun s => { s with proc.recvQueues := s.proc.recvQueues.eraseP fun q => q.id = id }
  pure (s.proc.recvQueues.find? fun q => q.id = id)

def removeSend (id : QueueId) : ProcessM (Option UserQueue) := do
  let s ← .get
  .modify fun s => { s with proc.sendQueues := s.proc.sendQueues.eraseP fun q => q.1.id = id }
  pure ((s.proc.sendQueues.find? fun q => q.1.id = id).map Prod.fst)

def regionOf (message : Message) : Option UserQueue → ProcessM (Option (ℕ × ℕ × ℕ))
  | some q => some <$> checked (q.memoryRegion message)
  | none => pure none

def freeQueue : Option (ℕ × ℕ × ℕ) → ProcessM Unit
  | some (userAddr, kernelAddr, pageCount) => do
    freeMemory userAddr pageCount
    paging "unmap queue" (PageTable.unmapRange kernelAddr pageCount kernelTable)
  | none => fail (.misc "queue ID unknown" (some .invalidId))

def removeQueue (id : QueueId) : ProcessM Unit := do
  let recv ← removeRecv id
  let recvRegion ← regionOf .completion recv
  let send ← removeSend id
  let sendRegion ← regionOf .command send
  freeQueue kernelTable (recvRegion.or sendRegion)

def destroyQueue (id : QueueId) : ProcessM Unit := do
  let s ← .get
  if s.proc.sendQueues.any fun q => q.2.id = id then
    fail (.misc "completion queue still in use" (some .inUse))
  else removeQueue kernelTable id

end

/-! ### The end of a process -/

def freeQueueAddresses (message : Message) (queues : List UserQueue)
    (vaa : VirtualAddressAllocator) : Checked VirtualAddressAllocator :=
  queues.foldlM (fun vaa q => do
    let (_, addr, pageCount) ← q.memoryRegion message
    vaa.free addr pageCount) vaa

def Process.drop (proc : Process) (memory : TableMemory) (vaa : VirtualAddressAllocator) :
    Checked (TableMemory × VirtualAddressAllocator) := do
  let vaa ← freeQueueAddresses .command (proc.sendQueues.map Prod.fst) vaa
  let vaa ← freeQueueAddresses .completion proc.recvQueues vaa
  let it ← PageTableIter.startingAt memory.tables proc.pageTables 0 0 0 0
  let pma ← PageTable.freeRegions memory.tables PageTableIter.maxSteps it memory.pma
  let memory ← proc.pageTables.drop { memory with pma }
  pure (memory, vaa)

end Kernel.Process
