import Kernel.Core.Checked

/-!
# Buffers of bytes

Numbers in big-endian order, slices of a buffer and strings in UTF-8.
-/

namespace Kernel.Core

open List Function

/-- The four bytes of a number, the most significant one first. -/
def be32 (n : ℕ) : List UInt8 :=
  [UInt8.ofNat (n / 2 ^ 24), UInt8.ofNat (n / 2 ^ 16), UInt8.ofNat (n / 2 ^ 8), UInt8.ofNat n]

@[simp] lemma length_be32 (n : ℕ) : (be32 n).length = 4 := rfl

/-- The number in the first four bytes. -/
def readBe32 : List UInt8 → Option ℕ
  | a :: b :: c :: d :: _ =>
    some (((a.toNat * 256 + b.toNat) * 256 + c.toNat) * 256 + d.toNat)
  | _ => none

variable {n : ℕ}

lemma readBe32_append (h : n < 2 ^ 32) (rest : List UInt8) :
    readBe32 (be32 n ++ rest) = some n := by
  simp only [be32, cons_append, readBe32, UInt8.toNat_ofNat']
  congr 1
  omega

variable {bytes : List UInt8}

lemma four_le_of_readBe32 (h : readBe32 bytes = some n) :
    4 ≤ bytes.length := by
  unfold readBe32 at h
  split at h
  · simp
  · cases h

lemma exists_readBe32 (h : 4 ≤ bytes.length) :
    ∃ n, readBe32 bytes = some n := by
  match bytes, h with
  | a :: b :: c :: d :: _, _ => exact ⟨_, rfl⟩

/-! ### Slices -/

section slice

variable {α : Type} {buf xs rest : List α} {i : ℕ}

/-- `&buf[start..end]`. -/
def slice (buf : List α) (i j : ℕ) : Checked (List α) :=
  if i ≤ j ∧ j ≤ buf.length then .ok ((buf.drop i).take (j - i)) else .error .outOfBounds

lemma slice_of_drop (h : buf.drop i = xs ++ rest) (hi : i ≤ buf.length) :
    slice buf i (i + xs.length) = .ok xs := by
  have hlen := congrArg List.length h
  rw [length_drop, length_append] at hlen
  rw [slice, if_pos ⟨le_self_add, by omega⟩, h, Nat.add_sub_cancel_left, take_left]

lemma drop_of_drop (h : buf.drop i = xs ++ rest) : buf.drop (i + xs.length) = rest := by
  rw [← drop_drop, h, drop_left]

lemma add_length_le_of_drop (h : buf.drop i = xs ++ rest) (hi : i ≤ buf.length) :
    i + xs.length ≤ buf.length := by
  have hlen := congrArg List.length h
  rw [length_drop, length_append] at hlen
  omega

end slice

/-! ### Writing -/

section overwrite

variable {α : Type}

/-- The memory `c` with the list `xs` written to it from the address `a` on. -/
def overwrite (c : ℕ → α) (a : ℕ) (xs : List α) : ℕ → α := fun i =>
  if a ≤ i then xs[i - a]?.getD (c i) else c i

@[simp] lemma overwrite_nil (c : ℕ → α) (a : ℕ) : overwrite c a [] = c := by
  funext i
  simp [overwrite]

/-- Writing goes on behind the first element. -/
lemma overwrite_cons (c : ℕ → α) (a : ℕ) (x : α) (xs : List α) :
    overwrite c a (x :: xs) = overwrite (update c a x) (a + 1) xs := by
  funext i
  rcases lt_trichotomy i a with hlt | rfl | hgt
  · rw [overwrite, overwrite, if_neg (by omega), if_neg (by omega), update_of_ne hlt.ne]
  · rw [overwrite, overwrite, if_pos le_rfl, if_neg (by omega), update_self, Nat.sub_self]
    rfl
  · obtain ⟨k, rfl⟩ := Nat.exists_eq_add_of_lt hgt
    have h₁ : a + k + 1 - a = k + 1 := by omega
    have h₂ : a + k + 1 - (a + 1) = k := by omega
    rw [overwrite, overwrite, if_pos hgt.le, if_pos (by omega), update_of_ne hgt.ne', h₁,
      h₂, List.getElem?_cons_succ]

variable {c : ℕ → α} {a : ℕ} {xs : List α}

lemma overwrite_of_lt {k : ℕ} (hk : k < xs.length) :
    overwrite c a xs (a + k) = xs[k] := by
  rw [overwrite, if_pos le_self_add, Nat.add_sub_cancel_left,
    List.getElem?_eq_getElem hk, Option.getD_some]

lemma overwrite_of_not {i : ℕ}
    (hi : ¬ (a ≤ i ∧ i < a + xs.length)) : overwrite c a xs i = c i := by
  rw [overwrite]
  split_ifs with hle
  · rw [List.getElem?_eq_none (by omega), Option.getD_none]
  · rfl

end overwrite

/-! ### Parts of one length -/

/-- An element of a concatenation of lists of one length. -/
lemma getElem?_flatMap_of_length {α β : Type} {f : α → List β} {l : List α} {size : ℕ}
    (hsize : ∀ x ∈ l, (f x).length = size) {k r : ℕ} (hr : r < size) :
    (l.flatMap f)[k * size + r]? = l[k]?.bind fun x => (f x)[r]? := by
  induction l generalizing k with
  | nil => rfl
  | cons x l ih =>
    rw [flatMap_cons]
    have hx := hsize x mem_cons_self
    cases k with
    | zero =>
      rw [zero_mul, zero_add, List.getElem?_append_left (by omega)]
      rfl
    | succ k =>
      have hrest : (k + 1) * size + r - (f x).length = k * size + r := by
        rw [hx, Nat.succ_mul]
        omega
      rw [List.getElem?_append_right (by rw [hx, Nat.succ_mul]; omega), hrest,
        ih fun y hy => hsize y (mem_cons_of_mem _ hy)]
      rfl

/-! ### Strings -/

/-- The bytes of a string. -/
def utf8 (s : String) : List UInt8 := s.toByteArray.data.toList

/-- The string with these bytes, if they are valid. -/
def fromUtf8 (bytes : List UInt8) : Option String := String.fromUTF8? ⟨bytes.toArray⟩

@[simp] lemma fromUtf8_utf8 (s : String) : fromUtf8 (utf8 s) = some s := by
  rw [fromUtf8, utf8, Array.toArray_toList, String.fromUTF8?, dif_pos s.isValidUTF8]
  rfl

/-- The offset of the first zero from `i` on, or the end of the buffer. -/
def nulEnd (buf : List UInt8) (i : ℕ) : ℕ := i + ((buf.drop i).takeWhile (· ≠ 0)).length

lemma nulEnd_of_drop {buf xs rest : List UInt8} {i : ℕ} (h : buf.drop i = xs ++ 0 :: rest)
    (hxs : 0 ∉ xs) : nulEnd buf i = i + xs.length := by
  rw [nulEnd, h, takeWhile_append_of_pos, takeWhile_cons_of_neg]
  · simp
  · simp
  · intro b hb
    simpa using ne_of_mem_of_not_mem hb hxs

end Kernel.Core
