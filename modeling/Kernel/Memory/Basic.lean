import Kernel.Core.Checked

/-!
# Addresses and errors of the memory subsystem

Physical and virtual addresses are machine words, written as natural numbers.
-/

namespace Kernel.Memory

open Core

def pageSize : ℕ := 4 * 1024

def PhysicalAddress.toVirtualCanonical (p : ℕ) : Checked ℕ := checkedAdd p 0xffff_0000_0000_0000

structure VirtualAddress.Parts where
  tag : ℕ
  lv0 : ℕ
  lv1 : ℕ
  lv2 : ℕ
  lv3 : ℕ
  offset : ℕ
  deriving DecidableEq, Repr

def VirtualAddress.toParts (v : ℕ) : VirtualAddress.Parts where
  tag := (0xffff_0000_0000_0000 &&& v) >>> 48
  lv0 := ((0x1ff <<< 39) &&& v) >>> 39
  lv1 := ((0x1ff <<< 30) &&& v) >>> 30
  lv2 := ((0x1ff <<< 21) &&& v) >>> 21
  lv3 := ((0x1ff <<< 12) &&& v) >>> 12
  offset := v &&& 0xfff

def VirtualAddress.add (v : ℕ) (byteOffset : ℕ) : ℕ :=
  wrappingAdd v byteOffset

def VirtualAddress.offset (v : ℕ) (byteOffset : ℤ) : ℕ :=
  ((v + byteOffset) % 2 ^ 64).toNat

def VirtualAddress.alignOffset (v : ℕ) (alignment : ℕ) : ℕ :=
  (alignment - v % alignment) % alignment

inductive MapError where
  | rangeAlreadyMapped (virtStart : ℕ) (pageCount : ℕ) (collision : ℕ)
  | mapRangeBadVirtualBase (reason : String) (virtStart : ℕ)
  | insufficentMapSpace (pageCount : ℕ) (virtStart : ℕ)
  | invalidTag
  | copyFromUnmapped (lastValid : Option ℕ) (remainingBytes : ℕ)
  deriving DecidableEq, Repr

inductive MemoryError where
  | outOfMemory
  | insufficentForAllocation (size : ℕ)
  | map (source : MapError)
  deriving DecidableEq, Repr

def divCeil (a b : ℕ) : ℕ := (a + b - 1) / b

lemma divCeil_mul_pageSize (n : ℕ) : divCeil (n * pageSize) pageSize = n := by
  simp only [divCeil, pageSize]
  omega

lemma divCeil_mul_of_dvd {x : ℕ} (h : x % pageSize = 0) : divCeil x pageSize * pageSize = x := by
  simp only [divCeil, pageSize] at h ⊢
  omega

lemma divCeil_bounds (x : ℕ) :
    x ≤ divCeil x pageSize * pageSize ∧ divCeil x pageSize * pageSize < x + pageSize := by
  simp only [divCeil, pageSize]
  omega

end Kernel.Memory
