import Mathlib
import Kernel.Fs.Fat.Basic

/-!
# Short names

`is_named` cuts the padding off the name but not off the extension, and does not look at texts of
more than eleven bytes.
-/

namespace Kernel.Fs.Fat

open List

def IsShortChar (c : Char) : Prop :=
  c.isUpper ∨ c.isDigit ∨ c ∈ "!#$%&'()-@^_`\x7b\x7d~".toList

structure ShortName where
  base : List Char
  ext : List Char
  base_pos : 1 ≤ base.length
  base_le : base.length ≤ 8
  ext_le : ext.length ≤ 3
  base_ok : ∀ c ∈ base, IsShortChar c
  ext_ok : ∀ c ∈ ext, IsShortChar c

namespace ShortName

/-- The text that names the file. -/
def text (n : ShortName) : List Char := if n.ext = [] then n.base else n.base ++ '.' :: n.ext

/-- The eleven bytes of the directory entry. -/
def padded (n : ShortName) : List UInt8 :=
  (bytes n.base).rightpad 8 0x20 ++ (bytes n.ext).rightpad 3 0x20

end ShortName

variable {c : Char} {s s' : List Char}

lemma IsShortChar.bounds (h : IsShortChar c) : 0x20 < c.toNat ∧ c.toNat < 0x80 ∧ c ≠ '.' := by
  have hdot : ¬ IsShortChar '.' := by simp [IsShortChar, Char.isUpper, Char.isDigit]
  refine ⟨?_, ?_, fun heq => hdot (heq ▸ h)⟩ <;>
  · rcases h with hupp | hdig | hoth
    · simp [Char.isUpper, UInt32.le_iff_toNat_le] at hupp
      omega
    · simp [Char.isDigit, UInt32.le_iff_toNat_le] at hdig
      omega
    · simp at hoth
      rcases hoth with rfl | rfl | rfl | rfl | rfl | rfl | rfl | rfl | rfl | rfl | rfl | rfl |
        rfl | rfl | rfl | rfl <;> decide

namespace ShortName

variable (n m : ShortName)

end ShortName

end Kernel.Fs.Fat
