import Kernel.Kapi.Queue.Basic

/-!
# Positions and stamps

Element `n` lives in slot `n % capacity` and belongs to lap `n / capacity`; `Queue.encode` packs
both into a word.
-/

namespace Kernel.Kapi.Queue

open Core Nat

variable (q : Queue)

def encode (n : ℕ) : BitVec 64 :=
  BitVec.ofNat 64 (n / q.capacity * q.lapSize + n % q.capacity)

def period : ℕ := q.capacity * (2 ^ 64 / q.lapSize)

/-! ### The size of a lap -/

lemma lapBits_le : clog 2 (q.capacity + 1) ≤ 63 :=
  clog_le_of_le_pow q.capacity_le

lemma lapSize_eq : q.lapSize = 2 ^ clog 2 (q.capacity + 1) := rfl

lemma capacity_lt_lapSize : q.capacity < q.lapSize :=
  le_pow_clog (by decide) (q.capacity + 1)

lemma lapSize_pos : 0 < q.lapSize := Nat.two_pow_pos _

lemma lapSize_le : q.lapSize ≤ 2 ^ 63 :=
  Nat.pow_le_pow_right (by decide) q.lapBits_le

lemma lapSize_dvd : q.lapSize ∣ 2 ^ 64 :=
  pow_dvd_pow 2 (by have := q.lapBits_le; omega)

lemma laps_mul_lapSize : 2 ^ 64 / q.lapSize * q.lapSize = 2 ^ 64 :=
  Nat.div_mul_cancel q.lapSize_dvd

lemma two_le_laps : 2 ≤ 2 ^ 64 / q.lapSize := by
  rw [le_div_iff_mul_le q.lapSize_pos]
  have := q.lapSize_le
  omega

lemma capacity_lt_period : q.capacity < q.period := by
  have := q.capacity_pos
  have := mul_le_mul_left q.capacity q.two_le_laps
  unfold period
  omega

lemma toNat_oneLap : q.oneLap.toNat = q.lapSize := by
  have := q.lapSize_le
  rw [oneLap, BitVec.toNat_ofNat, mod_eq_of_lt (by omega)]

lemma toNat_oneLap_sub_one : (q.oneLap - 1).toNat = 2 ^ clog 2 (q.capacity + 1) - 1 := by
  have h₁ := q.lapSize_le
  have h₂ := q.lapSize_pos
  have h₃ := q.toNat_oneLap
  rw [← lapSize_eq, ← h₃]
  rw [← h₃] at h₁ h₂
  bv_omega

/-! ### Index and lap of a word -/

lemma toNat_index (w : BitVec 64) : (q.index w).toNat = w.toNat % q.lapSize := by
  rw [index, BitVec.toNat_and, toNat_oneLap_sub_one, and_two_pow_sub_one_eq_mod, lapSize_eq]

lemma lap_eq (w : BitVec 64) : q.lap w = w - q.index w := by
  have hand : q.index w &&& q.lap w = 0#64 := by
    ext i hi
    simp [index, lap]
    intro h₁ h₂ h₃
    simp [h₂]
  have hor : q.index w ||| q.lap w = w := by
    ext i hi
    simp only [index, lap, BitVec.getElem_or, BitVec.getElem_and, BitVec.getElem_not]
    cases w[i] <;> cases (q.oneLap - 1)[i] <;> rfl
  have hadd : q.index w + q.lap w = w := by
    rw [BitVec.add_eq_or_of_and_eq_zero _ _ hand, hor]
  rw [BitVec.eq_sub_iff_add_eq, BitVec.add_comm, hadd]

/-! ### The word of an element -/

lemma toNat_encode (n : ℕ) :
    (q.encode n).toNat = (n / q.capacity * q.lapSize + n % q.capacity) % 2 ^ 64 :=
  BitVec.toNat_ofNat _ _

lemma mod_capacity_lt (n : ℕ) : n % q.capacity < q.capacity := mod_lt n q.capacity_pos

lemma toNat_encode_mod (n : ℕ) : (q.encode n).toNat % q.lapSize = n % q.capacity := by
  have := q.mod_capacity_lt n
  have := q.capacity_lt_lapSize
  rw [toNat_encode, mod_mod_of_dvd _ q.lapSize_dvd, mul_comm, mul_add_mod,
    mod_eq_of_lt (by omega)]

@[simp] lemma index_encode (n : ℕ) : (q.index (q.encode n)).toNat = n % q.capacity := by
  rw [toNat_index, toNat_encode_mod]

lemma toNat_add_one_lt {w : BitVec 64} (h : (q.index w).toNat < q.capacity) :
    w.toNat + (1#64).toNat < 2 ^ 64 := by
  rw [toNat_index] at h
  have hlt := q.capacity_lt_lapSize
  have hw := w.isLt
  -- the only word without room is the last one of the last lap
  by_contra hge
  have hmax : w.toNat + 1 = 2 ^ 64 / q.lapSize * q.lapSize := by
    rw [laps_mul_lapSize]
    simp at hge
    omega
  have hmod : (w.toNat + 1) % q.lapSize = 0 := by rw [hmax, mul_mod_left]
  rw [add_mod, mod_eq_of_lt (show 1 < q.lapSize by omega),
    mod_eq_of_lt (show w.toNat % q.lapSize + 1 < q.lapSize by omega)] at hmod
  omega

lemma checkedAddWord_one {w : BitVec 64} (h : (q.index w).toNat < q.capacity) :
    checkedAddWord w 1 = .ok (w + 1) :=
  checkedAddWord_eq_ok.mpr ⟨q.toNat_add_one_lt h, rfl⟩

lemma checkedAddWord_encode (n : ℕ) :
    checkedAddWord (q.encode n) 1 = .ok (q.encode n + 1) :=
  q.checkedAddWord_one (by rw [index_encode]; exact q.mod_capacity_lt n)

lemma encode_add_capacity (n : ℕ) : q.encode (n + q.capacity) = q.encode n + q.oneLap := by
  rw [encode, encode, oneLap, ← BitVec.ofNat_add, add_div_right _ q.capacity_pos,
    add_mod_right]
  congr 1
  rw [succ_mul]
  omega

lemma encode_eq_add (n : ℕ) : q.encode n =
    BitVec.ofNat 64 (n / q.capacity * q.lapSize) + BitVec.ofNat 64 (n % q.capacity) :=
  BitVec.ofNat_add _ _

lemma lap_encode (n : ℕ) : q.lap (q.encode n) = BitVec.ofNat 64 (n / q.capacity * q.lapSize) := by
  have hidx : q.index (q.encode n) = BitVec.ofNat 64 (n % q.capacity) := by
    apply BitVec.eq_of_toNat_eq
    have hmod := q.mod_capacity_lt n
    have hle := q.capacity_le
    rw [index_encode, BitVec.toNat_ofNat, mod_eq_of_lt (a := n % q.capacity) (by omega)]
  rw [lap_eq, hidx, encode_eq_add, BitVec.add_sub_cancel]

lemma advance_encode (n : ℕ) : q.advance (q.encode n) = .ok (q.encode (n + 1)) := by
  have hpos := q.capacity_pos
  have hlt := q.mod_capacity_lt n
  have hn := mod_add_div n q.capacity
  rw [advance, index_encode]
  split_ifs with h
  · -- the index has room: only the index part of the stamp changes
    have hnext : n % q.capacity + 1 + q.capacity * (n / q.capacity) = n + 1 := by omega
    obtain ⟨hdiv, hmod⟩ := (Nat.div_mod_unique hpos).mpr ⟨hnext, h⟩
    rw [checkedAddWord_encode, encode, encode, hdiv, hmod, ← add_assoc, BitVec.ofNat_add _ 1]
    rfl
  · -- the index was the last one: the next element starts a lap
    have hnext : 0 + q.capacity * (n / q.capacity + 1) = n + 1 := by
      rw [mul_succ]
      omega
    obtain ⟨hdiv, hmod⟩ := (Nat.div_mod_unique hpos).mpr ⟨hnext, hpos⟩
    rw [lap_encode, encode, hdiv, hmod, oneLap, ← BitVec.ofNat_add, succ_mul, add_zero]

lemma encode_injective {m n : ℕ} (hle : m ≤ n) (hlt : n - m < q.period)
    (h : q.encode m = q.encode n) : m = n := by
  have hmod : m % q.capacity = n % q.capacity := by
    rw [← q.toNat_encode_mod m, ← q.toNat_encode_mod n, h]
  have hnat := congrArg BitVec.toNat h
  rw [toNat_encode, toNat_encode, hmod] at hnat
  -- the laps agree modulo the number of laps
  have hlaps : m / q.capacity ≡ n / q.capacity [MOD 2 ^ 64 / q.lapSize] := by
    have hmul : m / q.capacity * q.lapSize ≡ n / q.capacity * q.lapSize
        [MOD 2 ^ 64 / q.lapSize * q.lapSize] := by
      rw [laps_mul_lapSize]
      exact Nat.ModEq.add_right_cancel' _ hnat
    exact Nat.ModEq.mul_right_cancel' q.lapSize_pos.ne' hmul
  have hm := mod_add_div m q.capacity
  have hn := mod_add_div n q.capacity
  have hdiv : m / q.capacity ≤ n / q.capacity := Nat.div_le_div_right hle
  have hdiff : n - m = q.capacity * (n / q.capacity - m / q.capacity) := by
    rw [Nat.mul_sub]
    omega
  have hfew : n / q.capacity - m / q.capacity < 2 ^ 64 / q.lapSize := by
    rw [hdiff, period] at hlt
    exact Nat.lt_of_mul_lt_mul_left hlt
  have hdvd := (modEq_iff_dvd' hdiv).mp hlaps
  have hzero := eq_zero_of_dvd_of_lt hdvd hfew
  rw [hzero] at hdiff
  omega

lemma encode_ne_encode_add_capacity (n : ℕ) : q.encode n ≠ q.encode (n + q.capacity) := by
  intro h
  have := q.encode_injective (le_add_right n q.capacity)
    (by have := q.capacity_lt_period; omega) h
  have := q.capacity_pos
  omega

lemma encode_add_one_ne {m n : ℕ} (h : m % q.capacity = n % q.capacity) :
    q.encode m + 1 ≠ q.encode n := by
  intro heq
  have hidx := congrArg (fun w => (q.index w).toNat) heq
  have hroom := q.toNat_add_one_lt (w := q.encode m)
    (by rw [index_encode]; exact q.mod_capacity_lt m)
  have hadd : (q.encode m + 1).toNat = (q.encode m).toNat + 1 := by
    rw [BitVec.toNat_add]
    exact mod_eq_of_lt hroom
  simp only [toNat_index, hadd, toNat_encode_mod] at hidx
  have hlt := q.capacity_lt_lapSize
  have hmod := q.mod_capacity_lt m
  rw [add_mod, toNat_encode_mod, mod_eq_of_lt (show 1 < q.lapSize by omega),
    mod_eq_of_lt (show m % q.capacity + 1 < q.lapSize by omega)] at hidx
  omega

lemma encode_add_one_add_oneLap (n : ℕ) :
    q.encode n + 1 + q.oneLap = q.encode (n + q.capacity) + 1 := by
  rw [encode_add_capacity, BitVec.add_assoc, BitVec.add_comm 1, ← BitVec.add_assoc]

def slot (n : ℕ) : Fin q.capacity := ⟨n % q.capacity, q.mod_capacity_lt n⟩

variable {q} {α : Type}

lemma postLoop_encode (value : α) (n : ℕ) :
    (postLoop value (q.encode n) : Call q α) =
      .postLoadStamp value (q.encode n) (q.encode (n + 1)) (q.slot n) := by
  simp [postLoop, advance_encode, slot, q.mod_capacity_lt n]

lemma pollLoop_encode (n : ℕ) :
    (pollLoop (q.encode n) : Call q α) = .pollLoadStamp (q.encode n) (q.slot n) := by
  simp [pollLoop, slot, q.mod_capacity_lt n]

end Kernel.Kapi.Queue
