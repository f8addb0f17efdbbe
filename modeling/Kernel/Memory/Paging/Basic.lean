import Kernel.Core.Action
import Kernel.Core.RadixTree
import Kernel.Memory.PhysicalMemoryAllocator.Basic

/-!
# Page tables

A tree of four levels of tables with 512 entries each. Entries of the levels 1 and 2 can map a
block.
-/

namespace Kernel.Memory

open Core

structure PageTableEntry where
  highAttrb : BitVec 14 := 0
  res0 : BitVec 2 := 0
  address : BitVec 36 := 0
  ng : Bool := false
  af : Bool := false
  sh : BitVec 2 := 0
  apReadOnly : Bool := false
  apEl0Access : Bool := false
  ns : Bool := false
  attrIndex : BitVec 3 := 0
  type : Bool := false
  valid : Bool := false
  deriving DecidableEq

namespace PageTableEntry

def tableDesc (tablePtr : ℕ) : PageTableEntry where
  valid := true
  type := true
  address := .ofNat 36 (tablePtr >>> 12)

def blockEntry (baseAddress level : ℕ) : Option PageTableEntry :=
  let entry : PageTableEntry :=
    { valid := true, type := false, af := true, address := .ofNat 36 (baseAddress >>> 12) }
  match level with
  | 1 => if baseAddress &&& 0xff_ffff ≠ 0 then none else some entry
  | 2 => if baseAddress &&& 0xf_ffff ≠ 0 then none else some entry
  | _ => none

def pageEntry (baseAddress : ℕ) : PageTableEntry where
  valid := true
  type := true
  af := true
  address := .ofNat 36 (baseAddress >>> 12)

def invalid : PageTableEntry := {}

def tablePhyAddr (e : PageTableEntry) : Option ℕ :=
  if ¬ e.valid ∨ ¬ e.type then none else some (e.address.toNat <<< 12)

def tableRef (e : PageTableEntry) (lvl : ℕ) : Option ℕ :=
  if lvl ≥ 3 then none else e.tablePhyAddr

def baseAddress (e : PageTableEntry) (lvl : ℕ) : Option ℕ :=
  if ¬ e.valid ∨ (lvl < 3 ∧ e.type) ∨ (lvl ≥ 3 ∧ ¬ e.type) then none
  else some (e.address.toNat <<< 12)

end PageTableEntry

structure PageTableEntryOptions where
  readOnly : Bool := false
  el0Access : Bool := false
  deriving DecidableEq

def PageTableEntryOptions.apply (options : PageTableEntryOptions) (entry : PageTableEntry) :
    PageTableEntry :=
  { entry with apReadOnly := options.readOnly, apEl0Access := options.el0Access }

abbrev LevelTable := Fin 512 → PageTableEntry

structure TableMemory where
  tables : ℕ → LevelTable
  pma : PhysicalMemoryAllocator

structure PageTable where
  highAddresses : Bool
  asid : BitVec 16
  level0PhyAddr : ℕ
  deriving DecidableEq

namespace PageTable

inductive PagingError where
  | panic (reason : Panic)
  | memory (e : MemoryError)
  deriving DecidableEq

abbrev PagingM := Action TableMemory PagingError

def checked {α : Type} (x : Checked α) : PagingM α := .lift .panic x

def readEntry (table : ℕ) (i : ℕ) : PagingM PageTableEntry := do
  let s ← .get
  pure (s.tables table (.ofNat 512 i))

def writeEntry (table : ℕ) (i : ℕ) (e : PageTableEntry) : PagingM Unit :=
  .modify fun s => { s with tables := RadixTree.set s.tables table (.ofNat 512 i) e }

def allocPage : PagingM ℕ := fun s =>
  match s.pma.alloc with
  | .error reason => (.error (.panic reason), s)
  | .ok (.error e, pma) => (.error (.memory e), { s with pma })
  | .ok (.ok addr, pma) => (.ok addr, { s with pma })

def allocateTable : PagingM ℕ := do
  let newPagePhyAddr ← allocPage
  let _ ← checked (PhysicalAddress.toVirtualCanonical newPagePhyAddr)
  .modify fun s => { s with tables := Function.update s.tables newPagePhyAddr fun _ => .invalid }
  pure newPagePhyAddr

def empty (highAddresses : Bool) (asid : BitVec 16) : PagingM PageTable := do
  let level0PhyAddr ← allocateTable
  let _ ← checked (PhysicalAddress.toVirtualCanonical level0PhyAddr)
  pure { highAddresses, asid, level0PhyAddr }

/-! ### Mapping a range -/

structure Level where
  lvl : ℕ
  i : ℕ
  canAllocateLargeBlock : Bool
  largeBlockSize : ℕ

def levels (p : VirtualAddress.Parts) : List Level :=
  [⟨0, p.lv0, false, 0⟩, ⟨1, p.lv1, p.lv2 = 0 ∧ p.lv3 = 0, 512 * 512⟩, ⟨2, p.lv2, p.lv3 = 0, 512⟩]

def pageAt (start pageIndex : ℕ) : Checked ℕ := do
  checkedAdd start (← checkedMul pageIndex pageSize)

section

variable (phyStart virtStart pageCount : ℕ) (options : PageTableEntryOptions)

def largeBlock (pageIndex : ℕ) (level : Level) : PagingM (Option PageTableEntry) :=
  if level.canAllocateLargeBlock ∧ pageCount - pageIndex ≥ level.largeBlockSize then do
    let base ← checked (pageAt phyStart pageIndex)
    pure (PageTableEntry.blockEntry base level.lvl)
  else pure none

inductive Descent where
  | table (address : ℕ)
  | block (size : ℕ)

def descend (pageIndex : ℕ) : List Level → ℕ → PagingM Descent
  | [], table => pure (.table table)
  | level :: rest, table => do
    let entry ← readEntry table level.i
    match entry.tableRef level.lvl with
    | some existingTable => descend pageIndex rest existingTable
    | none => do
      checked (assert (¬ entry.valid))
      match ← largeBlock phyStart pageCount pageIndex level with
      | some e => do
        writeEntry table level.i (options.apply e)
        pure (.block level.largeBlockSize)
      | none => do
        let newTable ← allocateTable
        writeEntry table level.i (.tableDesc newTable)
        let entry ← readEntry table level.i
        match entry.tableRef level.lvl with
        | some newTable => descend pageIndex rest newTable
        | none => .throw (.panic .unwrap)

variable (pt : PageTable)

def mapPage (pageIndex : ℕ) : PagingM ℕ := do
  let pageStart ← checked (pageAt virtStart pageIndex)
  let parts := VirtualAddress.toParts pageStart
  match ← descend phyStart pageCount options pageIndex (levels parts) pt.level0PhyAddr with
  | .block size => pure size
  | .table table => do
    let base ← checked (pageAt phyStart pageIndex)
    writeEntry table parts.lv3 (options.apply (.pageEntry base))
    pure 1

def mapPages : (rounds pageIndex : ℕ) → PagingM Unit
  | 0, _ => pure ()
  | rounds + 1, pageIndex =>
    if pageIndex < pageCount then do
      let n ← mapPage phyStart virtStart pageCount options pt pageIndex
      mapPages rounds (pageIndex + n)
    else pure ()

def tagMatches (tag : ℕ) : Bool :=
  match pt.highAddresses, tag with
  | true, 0xffff | false, 0x0 => true
  | _, _ => false

/-- Map a range of virtual addresses starting at `virt_start` to the physical memory starting at
`phy_start`. The `options` will be applied to all the pages in the region. -/
def mapRange (overwrite : Bool) : PagingM Unit :=
  let parts := VirtualAddress.toParts virtStart
  if parts.offset ≠ 0 then
    .throw (.memory (.map (.mapRangeBadVirtualBase
      "starting virtual address for mapping range must be at a page boundary" virtStart)))
  else if ¬ pt.tagMatches parts.tag then
    .throw (.memory (.map (.mapRangeBadVirtualBase
      "starting virtual address for mapping range must match tag for page table" virtStart)))
  else if ¬ overwrite then .throw (.panic .todo)
  else mapPages phyStart virtStart pageCount options pt pageCount 0

end

end PageTable

end Kernel.Memory
