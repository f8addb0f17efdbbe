import Kernel.Storage.BlockCache.Basic
import Kernel.Storage.Nvme.Queue

/-!
# The data pointer of a command

`set_data_ptrs` writes the addresses of the pages of a transfer. The data pointer field has two
entries, a page of a PRP list has 512.
-/

namespace Kernel.Storage.Nvme

open Core Memory List Nat

def prpEntries : ℕ := 512

structure DataPointer where
  chained : List (List ℕ) := []
  current : List ℕ := []

namespace DataPointer

def len (d : DataPointer) : ℕ := if d.chained = [] then 2 else prpEntries

def pages (d : DataPointer) : List (List ℕ) := d.chained ++ [d.current]

def push (alloc : ℕ → Except MemoryError ℕ) (d : DataPointer) (page : ℕ) :
    Except StorageError DataPointer :=
  if d.current.length = d.len - 1 then
    match alloc d.chained.length with
    | .error e => .error (.memoryError e)
    | .ok buf => .ok ⟨d.chained ++ [d.current ++ [buf]], [page]⟩
  else .ok { d with current := d.current ++ [page] }

end DataPointer

/-! ### What the device reads -/

namespace DataPointer

def entry (d : DataPointer) (page i : ℕ) : ℕ := (d.pages.getD page []).getD i 0

def Holds (a : ℕ → ℕ) (mem : ℕ → ℕ → ℕ) (d : DataPointer) : Prop :=
  ∀ k < d.chained.length, ∀ i < prpEntries, mem (a k) i = d.entry (k + 1) i

/-! ### The entries that are written -/

variable {alloc : ℕ → Except MemoryError ℕ} {a : ℕ → ℕ} {blocksPerPage : ℕ}
  {hpos : 0 < blocksPerPage}

def layout (a : ℕ → ℕ) (k : ℕ) (rest : List ℕ) : List (List ℕ) :=
  if rest.length < prpEntries then [rest]
  else (rest.take (prpEntries - 1) ++ [a k]) :: layout a (k + 1) (rest.drop (prpEntries - 1))
termination_by rest.length
decreasing_by
  rw [length_drop, prpEntries] at *
  omega

variable {mem : ℕ → ℕ → ℕ}

end DataPointer

end Kernel.Storage.Nvme
