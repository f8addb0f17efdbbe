import Kernel.Memory.Paging.Unmap

/-!
# Going through a whole page table

`PageTableIter` is a stack with the table and the index on each level that has been entered, the
innermost first.
-/

namespace Kernel.Memory

open Core Action

def VirtualAddress.fromParts (p : VirtualAddress.Parts) : Checked ℕ := do
  assert (p.tag ≤ 0xffff)
  assert (p.lv0 ≤ 0x1ff)
  assert (p.lv1 ≤ 0x1ff)
  assert (p.lv2 ≤ 0x1ff)
  assert (p.lv3 ≤ 0x1ff)
  assert (p.offset ≤ 0x3ff)
  return p.tag <<< 48 ||| p.lv0 <<< 39 ||| p.lv1 <<< 30 ||| p.lv2 <<< 21 ||| p.lv3 <<< 12 |||
    p.offset

structure PageTableIter where
  stack : List (ℕ × ℕ)
  tag : ℕ
  deriving DecidableEq

namespace PageTableIter

variable (tables : ℕ → LevelTable)

def lvl (it : PageTableIter) : ℕ := it.stack.length - 1

def currentEntry (it : PageTableIter) : Option PageTableEntry :=
  match it.stack with
  | [] => none
  | (t, i) :: _ => if h : i < 512 then some (tables t ⟨i, h⟩) else none

def currentTable (it : PageTableIter) : Option ℕ :=
  ((it.currentEntry tables).filter (·.valid)).bind (·.tableRef it.lvl)

def followTree : List ℕ → PageTableIter → Checked PageTableIter
  | indices, it =>
    match it.currentTable tables with
    | none => pure it
    | some p =>
      match indices with
      | [] => .error .unwrap
      | i :: indices => followTree indices { it with stack := (p, i) :: it.stack }

def startingAt (pt : PageTable) (i0 i1 i2 i3 : ℕ) : Checked PageTableIter :=
  followTree tables [i1, i2, i3]
    { stack := [(pt.level0PhyAddr, i0)], tag := if pt.highAddresses then 0xffff else 0x0000 }

def currentVaFromStack (it : PageTableIter) : Checked ℕ :=
  let index (lvl : ℕ) : ℕ := (it.stack.reverse[lvl]?.map Prod.snd).getD 0
  VirtualAddress.fromParts
    { tag := it.tag, lv0 := index 0, lv1 := index 1, lv2 := index 2, lv3 := index 3, offset := 0 }

def nextEntryFrom (tag : ℕ) : List (ℕ × ℕ) → Checked PageTableIter
  | [] => pure ⟨[], tag⟩
  | (t, i) :: rest =>
    if i + 1 ≥ 512 then do followTree tables [0, 0, 0] (← nextEntryFrom tag rest)
    else followTree tables [0, 0, 0] ⟨(t, i + 1) :: rest, tag⟩

def nextEntry (it : PageTableIter) : Checked PageTableIter := nextEntryFrom tables it.tag it.stack

def moveToNextValidMapEntry : (steps : ℕ) → PageTableIter → Checked PageTableIter
  | 0, it => pure it
  | steps + 1, it =>
    match it.currentEntry tables with
    | none => pure it
    | some e =>
      if e.valid then pure it
      else do moveToNextValidMapEntry steps (← it.nextEntry tables)

def maxSteps : ℕ := 512 ^ 4 + 1

def next (it : PageTableIter) : Checked (Option (MappedRegion × PageTableIter)) := do
  let it ← moveToNextValidMapEntry tables maxSteps it
  match it.currentEntry tables with
  | none => pure none
  | some ce =>
    match ce.baseAddress it.lvl with
    | none => .error .unwrap
    | some basePhysAddr => do
      let baseVirtAddr ← it.currentVaFromStack
      let following ← it.nextEntry tables
      pure (some (⟨basePhysAddr, baseVirtAddr, span it.lvl⟩, following))

end PageTableIter

namespace PageTable

def freeRegions (tables : ℕ → LevelTable) :
    (steps : ℕ) → PageTableIter → PhysicalMemoryAllocator → Checked PhysicalMemoryAllocator
  | 0, _, pma => pure pma
  | steps + 1, it, pma => do
    match ← it.next tables with
    | none => pure pma
    | some (mappedRegion, it) => do
      let pma ← pma.freePages mappedRegion.basePhysAddr mappedRegion.pageCount
      freeRegions tables steps it pma

def dropTable (tables : ℕ → LevelTable) :
    (depth lvl table : ℕ) → PhysicalMemoryAllocator → Checked PhysicalMemoryAllocator
  | 0, _, _, pma => pure pma
  | depth + 1, lvl, table, pma => do
    let pma ← (List.finRange 512).foldlM (fun pma i =>
      match (tables table i).tableRef lvl with
      | some t => dropTable tables depth (lvl + 1) t pma
      | none => pure pma) pma
    pma.free table

def drop (pt : PageTable) (s : TableMemory) : Checked TableMemory := do
  let pma ← dropTable s.tables 4 0 pt.level0PhyAddr s.pma
  pure { s with pma }

end PageTable

end Kernel.Memory
