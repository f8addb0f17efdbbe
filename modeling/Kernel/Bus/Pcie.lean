import Kernel.Core.Checked
import Kernel.Core.Iterator

/-!
# Capabilities of a PCIe device

The byte behind the id of a capability block is the offset of the next block, and zero ends the
list.
-/

namespace Kernel.Bus

open Core Relation

/-- The 256 bytes of configuration space. -/
abbrev ConfigSpace := BitVec 8 → BitVec 8

inductive CapabilityBlock where
  | msi
  | msiX (block : BitVec 8)
  | unknown (id : BitVec 8)
  deriving DecidableEq

def CapabilityBlock.atAddress (p : ConfigSpace) (block : BitVec 8) : CapabilityBlock :=
  if p block = 0x05 then .msi
  else if p block = 0x11 then .msiX block
  else .unknown (p block)

/-- The state of the iterator is the offset of the next block. -/
def CapabilityIter.next (p : ConfigSpace) (nextBlock : BitVec 8) :
    Option (CapabilityBlock × BitVec 8) :=
  if nextBlock = 0 then none
  else some (.atAddress p nextBlock, p (nextBlock + 1) &&& 0b1111_1100)

open CapabilityIter

/-- The iteration with the offsets of the blocks for the blocks themselves. -/
def CapabilityIter.offset (p : ConfigSpace) (c : BitVec 8) :
    Checked (Option (BitVec 8 × BitVec 8)) :=
  .ok ((next p c).map fun x => (c, x.2))

end Kernel.Bus
