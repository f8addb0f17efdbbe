import Kernel.Core.Checked
import Mathlib.Data.List.AList

/-!
# The concurrent hash map

The hash of a key selects one of the shards, each of which is a hash map with a lock. Every
operation locks one shard, so it is taken as one step.
-/

namespace Kernel.Ds

open Core List AList

structure Hasher (K Q : Type) where
  hashOne : K → BitVec 64
  hashBorrowed : Q → BitVec 64
  eq : K → Q → Bool
  eq_unique : ∀ {k k' q}, eq k q = true → eq k' q = true → k = k'
  hash_eq : ∀ {k q}, eq k q = true → hashOne k = hashBorrowed q

abbrev HashMap (K V : Type) := AList fun _ : K => V

variable {K Q V : Type} [DecidableEq K]

namespace HashMap

def insert (k : K) (v : V) (m : HashMap K V) : Option V × HashMap K V :=
  (m.lookup k, AList.insert k v m)

section borrowed

variable (B : Hasher K Q) (q : Q)

def find (m : HashMap K V) : Option (Σ _ : K, V) := m.entries.find? fun e => B.eq e.1 q

def get (m : HashMap K V) : Option V × HashMap K V := ((find B q m).map Sigma.snd, m)

def getMut (f : V → V) (m : HashMap K V) : Option V × HashMap K V :=
  match find B q m with
  | some ⟨k, v⟩ => (some v, AList.insert k (f v) m)
  | none => (none, m)

def remove (m : HashMap K V) : Option V × HashMap K V :=
  match find B q m with
  | some ⟨k, v⟩ => (some v, erase k m)
  | none => (none, m)

end borrowed

end HashMap

def trailingZeros : (bits : ℕ) → ℕ → ℕ
  | 0, _ => 0
  | bits + 1, n => if n % 2 = 1 then 0 else trailingZeros bits (n / 2) + 1

structure CHashMap (K V : Type) where
  shardIndexShift : ℕ
  shards : List (HashMap K V)

namespace CHashMap

def withHasherAndShardCount (K V : Type) (shardCount : ℕ) : Checked (CHashMap K V) :=
  if 0 < shardCount then
    if 2 ^ Nat.log2 shardCount = shardCount then
      .ok ⟨64 - trailingZeros 64 shardCount, List.replicate shardCount ∅⟩
    else .error .assertion
  else .error .assertion

variable (h : CHashMap K V)

def shardIndexForHash (hash : BitVec 64) : Checked ℕ :=
  if h.shardIndexShift < 64 then .ok ((hash <<< 7) >>> h.shardIndexShift).toNat
  else .error .overflow

def onShard (hash : BitVec 64) (f : HashMap K V → Option V × HashMap K V) :
    Checked (Option V × CHashMap K V) := do
  let shardIndex ← h.shardIndexForHash hash
  match h.shards[shardIndex]? with
  -- the source does not check the index
  | none => .error .outOfBounds
  | some shard => .ok ((f shard).1, { h with shards := h.shards.set shardIndex (f shard).2 })

variable (B : Hasher K Q)

def get (q : Q) : Checked (Option V × CHashMap K V) :=
  h.onShard (B.hashBorrowed q) (HashMap.get B q)

def getMut (q : Q) (f : V → V) : Checked (Option V × CHashMap K V) :=
  h.onShard (B.hashBorrowed q) (HashMap.getMut B q f)

def insert (k : K) (v : V) : Checked (Option V × CHashMap K V) :=
  h.onShard (B.hashOne k) (HashMap.insert k v)

def remove (q : Q) : Checked (Option V × CHashMap K V) :=
  h.onShard (B.hashBorrowed q) (HashMap.remove B q)

def getBlocking (q : Q) : Checked (Option V × CHashMap K V) :=
  h.onShard (B.hashBorrowed q) (HashMap.get B q)

def getMutBlocking (q : Q) (f : V → V) : Checked (Option V × CHashMap K V) :=
  h.onShard (B.hashBorrowed q) (HashMap.getMut B q f)

def insertBlocking (k : K) (v : V) : Checked (Option V × CHashMap K V) :=
  h.onShard (B.hashOne k) (HashMap.insert k v)

def removeBlocking (q : Q) : Checked (Option V × CHashMap K V) :=
  h.onShard (B.hashBorrowed q) (HashMap.remove B q)

end CHashMap

/-! ### Sequences of operations -/

inductive MapCall (K Q V : Type) where
  | get (q : Q)
  | getMut (q : Q) (f : V → V)
  | insert (k : K) (v : V)
  | remove (q : Q)
  | getBlocking (q : Q)
  | getMutBlocking (q : Q) (f : V → V)
  | insertBlocking (k : K) (v : V)
  | removeBlocking (q : Q)

section run

variable (B : Hasher K Q)

def CHashMap.call (h : CHashMap K V) : MapCall K Q V → Checked (Option V × CHashMap K V)
  | .get q => h.get B q
  | .getMut q f => h.getMut B q f
  | .insert k v => h.insert B k v
  | .remove q => h.remove B q
  | .getBlocking q => h.getBlocking B q
  | .getMutBlocking q f => h.getMutBlocking B q f
  | .insertBlocking k v => h.insertBlocking B k v
  | .removeBlocking q => h.removeBlocking B q

def CHashMap.run (h : CHashMap K V) :
    List (MapCall K Q V) → Checked (List (Option V) × CHashMap K V)
  | [] => .ok ([], h)
  | c :: calls => do
    let (r, h) ← h.call B c
    let (rs, h) ← h.run calls
    pure (r :: rs, h)

def HashMap.call (m : HashMap K V) : MapCall K Q V → Option V × HashMap K V
  | .get q | .getBlocking q => m.get B q
  | .getMut q f | .getMutBlocking q f => m.getMut B q f
  | .insert k v | .insertBlocking k v => m.insert k v
  | .remove q | .removeBlocking q => m.remove B q

def HashMap.run (m : HashMap K V) : List (MapCall K Q V) → List (Option V) × HashMap K V
  | [] => ([], m)
  | c :: calls => ((m.call B c).1 :: (run (m.call B c).2 calls).1, (run (m.call B c).2 calls).2)

end run

/-! ### What an operation does to a single map -/

structure ActsOn (S : K → Prop) (g : Option V → Option V)
    (f : HashMap K V → Option V × HashMap K V) : Prop where
  result_iff : ∀ m v, (f m).1 = some v ↔ ∃ k, S k ∧ m.lookup k = some v
  lookup_of_mem : ∀ m k, S k → (f m).2.lookup k = g (m.lookup k)
  lookup_of_notMem : ∀ m k, ¬ S k → (f m).2.lookup k = m.lookup k

namespace HashMap

lemma actsOn_insert (k : K) (v : V) : ActsOn (· = k) (fun _ => some v) (insert k v) where
  result_iff m v := by simp [insert]
  lookup_of_mem m k' h := by
    subst h
    exact AList.lookup_insert m
  lookup_of_notMem _ _ h := AList.lookup_insert_ne h

variable {B : Hasher K Q} {q : Q} {m : HashMap K V}

lemma lookup_of_find {k : K} {v : V} (h : find B q m = some ⟨k, v⟩) :
    B.eq k q = true ∧ m.lookup k = some v := by
  have hk := List.find?_some h
  exact ⟨hk, mem_lookup_iff.mpr (mem_of_find?_eq_some h)⟩

lemma lookup_of_find_none (h : find B q m = none) {k : K} (hk : B.eq k q = true) :
    m.lookup k = none := by
  rw [Option.eq_none_iff_forall_ne_some]
  intro v hv
  exact List.find?_eq_none.mp h ⟨k, v⟩ (mem_lookup_iff.mp hv) hk

lemma find_eq_iff {v : V} :
    (find B q m).map Sigma.snd = some v ↔ ∃ k, B.eq k q = true ∧ m.lookup k = some v := by
  cases hfind : find B q m with
  | none =>
    refine iff_of_false (by simp) ?_
    rintro ⟨k, hk, hv⟩
    rw [lookup_of_find_none hfind hk] at hv
    cases hv
  | some e =>
    obtain ⟨hk, hv⟩ := lookup_of_find hfind
    constructor
    · intro heq
      cases heq
      exact ⟨e.1, hk, hv⟩
    · rintro ⟨k, hk', hv'⟩
      obtain rfl := B.eq_unique hk hk'
      exact hv.symm.trans hv'

lemma actsOn_get (B : Hasher K Q) (q : Q) :
    ActsOn (fun k => B.eq k q = true) id (get B q : HashMap K V → _) where
  result_iff _ _ := find_eq_iff
  lookup_of_mem _ _ _ := rfl
  lookup_of_notMem _ _ _ := rfl

lemma actsOn_getMut (B : Hasher K Q) (q : Q) (f : V → V) :
    ActsOn (fun k => B.eq k q = true) (Option.map f) (getMut B q f) where
  result_iff m v := by
    rw [← find_eq_iff, getMut]
    cases find B q m <;> rfl
  lookup_of_mem m k hk := by
    rw [getMut]
    cases hfind : find B q m with
    | none =>
      rw [lookup_of_find_none hfind hk]
      rfl
    | some e =>
      obtain ⟨hk', hv⟩ := lookup_of_find hfind
      obtain rfl := B.eq_unique hk' hk
      rw [hv]
      exact lookup_insert m
  lookup_of_notMem m k hk := by
    rw [getMut]
    cases hfind : find B q m with
    | none => rfl
    | some e =>
      have hne : k ≠ e.1 := fun heq => hk (heq ▸ (lookup_of_find hfind).1)
      exact lookup_insert_ne hne

lemma actsOn_remove (B : Hasher K Q) (q : Q) :
    ActsOn (fun k => B.eq k q = true) (fun _ => none) (remove B q : HashMap K V → _) where
  result_iff m v := by
    rw [← find_eq_iff, remove]
    cases find B q m <;> rfl
  lookup_of_mem m k hk := by
    rw [remove]
    cases hfind : find B q m with
    | none => exact lookup_of_find_none hfind hk
    | some e =>
      obtain rfl := B.eq_unique (lookup_of_find hfind).1 hk
      exact lookup_erase e.1 m
  lookup_of_notMem m k hk := by
    rw [remove]
    cases hfind : find B q m with
    | none => rfl
    | some e =>
      have hne : k ≠ e.1 := fun heq => hk (heq ▸ (lookup_of_find hfind).1)
      exact lookup_erase_ne hne

end HashMap

/-! ### The shard of a key -/

lemma trailingZeros_two_pow {bits n : ℕ} (h : n < bits) : trailingZeros bits (2 ^ n) = n := by
  induction n generalizing bits with
  | zero =>
    obtain ⟨bits, rfl⟩ := Nat.exists_eq_succ_of_ne_zero h.ne'
    rfl
  | succ n ih =>
    obtain ⟨bits, rfl⟩ := Nat.exists_eq_succ_of_ne_zero (ne_of_gt (Nat.zero_lt_of_lt h))
    rw [trailingZeros, pow_succ, if_neg (by omega), Nat.mul_div_cancel _ two_pos, ih (by omega)]

namespace CHashMap

structure Represents (B : Hasher K Q) (h : CHashMap K V) (m : HashMap K V) : Prop where
  shift_lt : h.shardIndexShift < 64
  length_eq : h.shards.length = 2 ^ (64 - h.shardIndexShift)
  lookup_eq : ∀ i shard, h.shards[i]? = some shard → ∀ k, shard.lookup k =
    if ((B.hashOne k <<< 7) >>> h.shardIndexShift).toNat = i then m.lookup k else none

variable {B : Hasher K Q} {h : CHashMap K V} {m : HashMap K V}

omit [DecidableEq K] in
lemma withHasherAndShardCount_two_pow {n : ℕ} (hlt : n < 64) :
    withHasherAndShardCount K V (2 ^ n) = .ok ⟨64 - n, List.replicate (2 ^ n) ∅⟩ := by
  rw [withHasherAndShardCount, if_pos (Nat.two_pow_pos n), Nat.log2_two_pow, if_pos rfl,
    trailingZeros_two_pow hlt]

lemma represents_new (B : Hasher K Q) {n : ℕ} (hpos : 0 < n) (hlt : n < 64) :
    ∃ h, withHasherAndShardCount K V (2 ^ n) = .ok h ∧ Represents B h ∅ := by
  refine ⟨_, withHasherAndShardCount_two_pow hlt, Nat.sub_lt (by norm_num) hpos, ?_, ?_⟩
  · rw [length_replicate, Nat.sub_sub_self hlt.le]
  · intro i shard hsha k
    obtain rfl := (mem_replicate.mp (mem_of_getElem? hsha)).2
    simp

lemma toNat_shiftRight_lt (hash : BitVec 64) {s : ℕ} (hs : s ≤ 64) :
    (hash >>> s).toNat < 2 ^ (64 - s) := by
  rw [BitVec.toNat_ushiftRight, Nat.shiftRight_eq_div_pow,
    Nat.div_lt_iff_lt_mul (Nat.two_pow_pos _), ← pow_add, Nat.sub_add_cancel hs]
  exact hash.isLt

section

variable (hrep : Represents B h m)

include hrep

lemma Represents.exists_shard (hash : BitVec 64) :
    ∃ shard, h.shards[((hash <<< 7) >>> h.shardIndexShift).toNat]? = some shard := by
  refine ⟨_, List.getElem?_eq_getElem ?_⟩
  rw [hrep.length_eq]
  exact toNat_shiftRight_lt _ hrep.shift_lt.le

lemma Represents.onShard {S : K → Prop} {g : Option V → Option V}
    {f : HashMap K V → Option V × HashMap K V} (hf : ActsOn S g f) {hash : BitVec 64}
    (hhash : ∀ k, S k → B.hashOne k = hash) :
    ∃ h', h.onShard hash f = .ok ((f m).1, h') ∧ Represents B h' (f m).2 := by
  obtain ⟨shard, hsha⟩ := hrep.exists_shard hash
  have hlkp := hrep.lookup_eq _ shard hsha
  have hres : (f shard).1 = (f m).1 := by
    apply Option.ext
    intro v
    rw [hf.result_iff, hf.result_iff]
    refine exists_congr fun k => and_congr_right fun hk => ?_
    rw [hlkp k, hhash k hk, if_pos rfl]
  refine ⟨⟨h.shardIndexShift, h.shards.set ((hash <<< 7) >>> h.shardIndexShift).toNat
    (f shard).2⟩, ?_, ?_⟩
  · rw [CHashMap.onShard, shardIndexForHash, if_pos hrep.shift_lt]
    change (match h.shards[((hash <<< 7) >>> h.shardIndexShift).toNat]? with
      | none => _
      | some shard => _) = _
    rw [hsha, ← hres]
  · refine ⟨hrep.shift_lt, by rw [length_set, hrep.length_eq], fun i shard' hsha' k => ?_⟩
    rw [List.getElem?_set] at hsha'
    split_ifs at hsha' with hi
    · -- the shard of the operation
      cases hsha'
      by_cases hk : S k
      · rw [hf.lookup_of_mem _ _ hk, hf.lookup_of_mem _ _ hk, hlkp k, hhash k hk, if_pos rfl,
          if_pos hi]
      · rw [hf.lookup_of_notMem _ _ hk, hf.lookup_of_notMem _ _ hk, hlkp k, hi]
    · -- another shard has no key of the operation
      rw [hrep.lookup_eq i shard' hsha' k]
      split_ifs with hidx
      · refine (hf.lookup_of_notMem m k fun hk => hi ?_).symm
        rw [← hidx, hhash k hk]
      · rfl

lemma Represents.call (c : MapCall K Q V) :
    ∃ h', h.call B c = .ok ((m.call B c).1, h') ∧ Represents B h' (m.call B c).2 := by
  cases c with
  | get q | getBlocking q => exact hrep.onShard (HashMap.actsOn_get B q) fun k => B.hash_eq
  | getMut q f | getMutBlocking q f =>
    exact hrep.onShard (HashMap.actsOn_getMut B q f) fun k => B.hash_eq
  | insert k v | insertBlocking k v =>
    exact hrep.onShard (HashMap.actsOn_insert k v) fun k' hk => by rw [hk]
  | remove q | removeBlocking q => exact hrep.onShard (HashMap.actsOn_remove B q) fun k => B.hash_eq

lemma Represents.run (calls : List (MapCall K Q V)) :
    ∃ h', h.run B calls = .ok ((m.run B calls).1, h') ∧ Represents B h' (m.run B calls).2 := by
  induction calls generalizing h m with
  | nil => exact ⟨h, rfl, hrep⟩
  | cons c calls ih =>
    obtain ⟨h₁, hcall, hrep₁⟩ := hrep.call c
    obtain ⟨h₂, hrun, hrep₂⟩ := ih hrep₁
    refine ⟨h₂, ?_, hrep₂⟩
    rw [CHashMap.run, hcall]
    change (h₁.run B calls >>= fun x => pure ((m.call B c).1 :: x.1, x.2)) = _
    rw [hrun]
    rfl

lemma Represents.lookup_iff {k : K} {v : V} :
    m.lookup k = some v ↔
      ∃ (i : ℕ) (shard : HashMap K V), h.shards[i]? = some shard ∧ shard.lookup k = some v := by
  constructor
  · intro hv
    obtain ⟨shard, hsha⟩ := hrep.exists_shard (B.hashOne k)
    exact ⟨_, shard, hsha, by rw [hrep.lookup_eq _ _ hsha, if_pos rfl, hv]⟩
  · rintro ⟨i, shard, hsha, hv⟩
    rw [hrep.lookup_eq _ _ hsha] at hv
    split_ifs at hv
    exact hv

lemma Represents.index_of_mem {i : ℕ} {shard : HashMap K V}
    (hi : h.shards[i]? = some shard) {k : K} (hk : k ∈ shard) :
    ((B.hashOne k <<< 7) >>> h.shardIndexShift).toNat = i := by
  by_contra hne
  rw [← lookup_isSome, hrep.lookup_eq _ _ hi, if_neg hne] at hk
  cases hk

end

/-- A concurrent map with any number of shards that is a power of two, from two on, refines a single
map: in every sequence of operations, all operations return, with the results that they have on the
single map, and at the end the shards hold the entries of the single map, no key being in two of
them. -/
theorem run_refines (B : Hasher K Q) (V : Type) {shardCount : ℕ} (hpow : shardCount.isPowerOfTwo)
    (hcount : 2 ≤ shardCount) (hlt : shardCount < 2 ^ 64) (calls : List (MapCall K Q V)) :
    ∃ h₀ h, withHasherAndShardCount K V shardCount = .ok h₀ ∧
      h₀.run B calls = .ok ((HashMap.run B ∅ calls).1, h) ∧
      (∀ k v, (HashMap.run B ∅ calls).2.lookup k = some v ↔
        ∃ (i : ℕ) (shard : HashMap K V), h.shards[i]? = some shard ∧ shard.lookup k = some v) ∧
      ∀ (i j : ℕ) (shard shard' : HashMap K V) (k : K), h.shards[i]? = some shard →
        h.shards[j]? = some shard' → k ∈ shard → k ∈ shard' → i = j := by
  obtain ⟨n, rfl⟩ := hpow
  have hn : n < 64 := (Nat.pow_lt_pow_iff_right one_lt_two).mp hlt
  have hpos : 0 < n := by
    rcases eq_zero_or_pos n with rfl | hpos
    · exact absurd hcount (by norm_num)
    · exact hpos
  obtain ⟨h₀, hnew, hrep₀⟩ := represents_new (V := V) B hpos hn
  obtain ⟨h, hrun, hrep⟩ := hrep₀.run calls
  exact ⟨h₀, h, hnew, hrun, fun k v => hrep.lookup_iff, fun i j shard shard' k hi hj hk hk' =>
    (hrep.index_of_mem hi hk).symm.trans (hrep.index_of_mem hj hk')⟩

def identityHasher : Hasher ℕ ℕ where
  hashOne n := BitVec.ofNat 64 n <<< 50
  hashBorrowed n := BitVec.ofNat 64 n <<< 50
  eq n n' := n = n'
  eq_unique := by simp +contextual
  hash_eq := by simp +contextual

/-- Entries come and go in a map with the default number of shards. -/
theorem run_refines_default :
    ∃ h₀ h, withHasherAndShardCount ℕ ℕ 128 = .ok h₀ ∧
      h₀.run identityHasher [.insert 1 10, .insertBlocking 2 20, .getMut 1 (· + 1), .remove 2,
        .insert 1 30, .get 2] = .ok ([none, none, some 10, some 20, some 11, none], h) := by
  have hpow : (128 : ℕ).isPowerOfTwo := ⟨7, rfl⟩
  obtain ⟨h₀, h, hnew, hrun, -⟩ := run_refines identityHasher ℕ hpow
    (by decide) (by decide) [.insert 1 10, .insertBlocking 2 20, .getMut 1 (· + 1), .remove 2,
      .insert 1 30, .get 2]
  exact ⟨h₀, h, hnew, hrun⟩

/-! ### The index of a shard -/

/-- Every hash has the index of a shard, unless there is a single shard, for which the hash is
shifted by all of its bits. -/
theorem shardIndexForHash_lt_iff (K V : Type) {shardCount : ℕ} (hpow : shardCount.isPowerOfTwo)
    (hlt : shardCount < 2 ^ 64) :
    ∃ h, withHasherAndShardCount K V shardCount = .ok h ∧ h.shards.length = shardCount ∧
      ((∀ hash, ∃ i, h.shardIndexForHash hash = .ok i ∧ i < h.shards.length) ↔ shardCount ≠ 1) := by
  obtain ⟨n, rfl⟩ := hpow
  have hn : n < 64 := (Nat.pow_lt_pow_iff_right one_lt_two).mp hlt
  refine ⟨_, withHasherAndShardCount_two_pow hn, length_replicate, ?_⟩
  rw [length_replicate]
  constructor
  · rintro h hone
    obtain rfl : n = 0 := (Nat.pow_eq_one.mp hone).resolve_left (by decide)
    obtain ⟨i, hi, -⟩ := h 0
    cases hi
  · intro hne hash
    have hpos : n ≠ 0 := fun hzero => hne (by rw [hzero])
    refine ⟨_, if_pos (show 64 - n < 64 by omega), ?_⟩
    have hidx := toNat_shiftRight_lt (hash <<< 7) (Nat.sub_le 64 n)
    rwa [Nat.sub_sub_self hn.le] at hidx

theorem shardIndexForHash_lt_default :
    (128 : ℕ).isPowerOfTwo ∧ ∃ h, withHasherAndShardCount ℕ ℕ 128 = .ok h ∧
      ∃ i, h.shardIndexForHash 0xffff_ffff_ffff_ffff = .ok i ∧ i < h.shards.length := by
  have hpow : (128 : ℕ).isPowerOfTwo := ⟨7, rfl⟩
  obtain ⟨h, hnew, -, hiff⟩ := shardIndexForHash_lt_iff ℕ ℕ hpow (by decide)
  exact ⟨hpow, h, hnew, hiff.mpr (by decide) _⟩

/-- In a map with a single shard the index is not defined for any hash. -/
theorem shardIndexForHash_overflow :
    ∃ h, withHasherAndShardCount ℕ ℕ 1 = .ok h ∧
      ∀ hash, h.shardIndexForHash hash = .error .overflow :=
  ⟨_, withHasherAndShardCount_two_pow (n := 0) (by decide), fun _ => rfl⟩

end CHashMap

end Kernel.Ds
