import Kernel.Memory.VirtualAddressAllocator.Basic

/-!
# Runs of the virtual address allocator

Every loop moves one range between the free list and the caller and leaves the coverage of the rest
alone.
-/

namespace Kernel.Memory.VirtualAddressAllocator

open Core Relation VirtualAddress List

def Within (lo hi : ℕ) (blocks : List FreeBlock) : Prop :=
  ∀ b ∈ blocks, lo ≤ b.address ∧ b.address + b.size * pageSize ≤ hi

section

variable {lo hi : ℕ} {blocks : List FreeBlock}

lemma within_cons {b : FreeBlock} :
    Within lo hi (b :: blocks) ↔
      (lo ≤ b.address ∧ b.address + b.size * pageSize ≤ hi) ∧ Within lo hi blocks :=
  forall_mem_cons

lemma within_append {passed : List FreeBlock} :
    Within lo hi (passed ++ blocks) ↔ Within lo hi passed ∧ Within lo hi blocks :=
  forall_mem_append

variable {a n : ℕ}

lemma add_end (hhi : hi < 2 ^ 64) (ha : a + n * pageSize ≤ hi) :
    add a (pageSize * n) = a + n * pageSize := by
  rw [add, mul_comm, wrappingAdd_of_lt (by omega)]

lemma allocFrom_split {left : List FreeBlock} (h : allocFrom n blocks = .ok (some (a, left))) :
    ∃ passed b rest, blocks = passed ++ b :: rest ∧ (∀ c ∈ passed, c.size < n) ∧ a = b.address ∧
      (b.size = n ∧ left = passed ++ rest ∨ n < b.size ∧
        left = passed ++ ⟨add b.address (pageSize * n), b.size - n⟩ :: rest) := by
  induction blocks generalizing left with
  | nil => cases h
  | cons b rest ih =>
    rw [allocFrom] at h
    split_ifs at h with hge heq
    · cases h
      exact ⟨[], b, rest, rfl, nofun, rfl, .inl ⟨heq, rfl⟩⟩
    · simp only [bind_eq_ok, checkedMul_eq_ok, checkedSub_eq_ok] at h
      obtain ⟨_, ⟨_, rfl⟩, _, ⟨_, rfl⟩, hret⟩ := h
      cases hret
      exact ⟨[], b, rest, rfl, nofun, rfl, .inr ⟨by omega, rfl⟩⟩
    · obtain ⟨_ | ⟨addr, left'⟩, hfd, hret⟩ := bind_eq_ok.mp h
      · cases hret
      · cases hret
        obtain ⟨passed, b', rest', rfl, hpass, ha, hleft⟩ := ih hfd
        exact ⟨b :: passed, b', rest', rfl, forall_mem_cons.mpr ⟨by omega, hpass⟩, ha,
          hleft.imp (And.imp_right (congrArg _)) (And.imp_right (congrArg _))⟩

lemma allocFrom_some {left : List FreeBlock} (hhi : hi < 2 ^ 64)
    (hw : Within lo hi blocks) (h : allocFrom n blocks = .ok (some (a, left))) :
    (lo ≤ a ∧ a + n * pageSize ≤ hi) ∧ Within lo hi left ∧
      ∀ x, coverage (blocks.map FreeBlock.range) x =
        Range.ind ⟨a, n * pageSize⟩ x + coverage (left.map FreeBlock.range) x := by
  obtain ⟨passed, b, rest, rfl, -, rfl, hleft⟩ := allocFrom_split h
  obtain ⟨hpass, hb⟩ := within_append.mp hw
  obtain ⟨hb, hrest⟩ := within_cons.mp hb
  simp only [map_append, map_cons, coverage_append, coverage_cons, FreeBlock.range]
  rcases hleft with ⟨rfl, rfl⟩ | ⟨hlt, rfl⟩
  · refine ⟨hb, within_append.mpr ⟨hpass, hrest⟩, fun x => ?_⟩
    rw [map_append, coverage_append]
    omega
  · have hsize : b.size * pageSize = n * pageSize + (b.size - n) * pageSize := by
      rw [← add_mul, Nat.add_sub_cancel' hlt.le]
    have hfro : b.address + n * pageSize ≤ hi := by omega
    rw [add_end hhi hfro]
    refine ⟨⟨hb.1, hfro⟩, within_append.mpr ⟨hpass, within_cons.mpr ⟨?_, hrest⟩⟩, fun x => ?_⟩
    · dsimp only
      omega
    · simp only [map_append, map_cons, coverage_append, coverage_cons, FreeBlock.range]
      rw [hsize, Range.ind_split]
      omega

lemma allocFrom_none (h : allocFrom n blocks = .ok none) : ∀ b ∈ blocks, b.size < n := by
  induction blocks with
  | nil => simp
  | cons b rest ih =>
    unfold allocFrom at h
    split_ifs at h with hge heq
    · simp at h
    · simp only [bind_eq_ok] at h
      obtain ⟨_, _, _, _, hret⟩ := h
      cases hret
    · simp only [bind_eq_ok] at h
      obtain ⟨found, hfd, hret⟩ := h
      simp only [pure, Except.pure, Except.ok.injEq, Option.map_eq_none_iff] at hret
      subst hret
      exact forall_mem_cons.mpr ⟨by omega, ih hfd⟩

lemma allocFrom_returns (n : ℕ) (hhi : hi < 2 ^ 64) (hw : Within lo hi blocks) :
    ∃ r, allocFrom n blocks = .ok r := by
  induction blocks with
  | nil => exact ⟨_, rfl⟩
  | cons b rest ih =>
    obtain ⟨hb, hrest⟩ := within_cons.mp hw
    unfold allocFrom
    split_ifs with hge heq
    · exact ⟨_, rfl⟩
    · have hmul : checkedMul pageSize n = .ok (pageSize * n) := by
        refine checkedMul_eq_ok.mpr ⟨?_, rfl⟩
        simp only [pageSize] at hb ⊢
        omega
      exact ⟨_, bind_eq_ok.mpr ⟨_, hmul, bind_eq_ok.mpr ⟨_, checkedSub_eq_ok.mpr ⟨hge, rfl⟩, rfl⟩⟩⟩
    · obtain ⟨r, hr⟩ := ih hrest
      exact ⟨_, bind_eq_ok.mpr ⟨r, hr, rfl⟩⟩

def Passed (a e : ℕ) (b : FreeBlock) : Prop :=
  e ≠ b.address ∧ a ≠ add b.address (pageSize * b.size) ∧ b.address ≤ a

lemma mergeInto_split {e : ℕ} {merged : List FreeBlock}
    (h : mergeInto a e n blocks = .ok (some merged)) :
    ∃ passed b rest, blocks = passed ++ b :: rest ∧ (∀ c ∈ passed, Passed a e c) ∧
      (e = b.address ∧ merged = passed ++ ⟨a, b.size + n⟩ :: rest ∨
        a = add b.address (pageSize * b.size) ∧
          merged = passed ++ ⟨b.address, b.size + n⟩ :: rest) := by
  induction blocks generalizing merged with
  | nil => cases h
  | cons b rest ih =>
    simp only [mergeInto, bind_eq_ok, checkedMul_eq_ok] at h
    obtain ⟨_, ⟨_, rfl⟩, h⟩ := h
    split_ifs at h with hbef haft hpast
    · simp only [bind_eq_ok, checkedAdd_eq_ok] at h
      obtain ⟨_, ⟨_, rfl⟩, hret⟩ := h
      cases hret
      exact ⟨[], b, rest, rfl, by simp, .inl ⟨hbef, rfl⟩⟩
    · simp only [bind_eq_ok, checkedAdd_eq_ok] at h
      obtain ⟨_, ⟨_, rfl⟩, hret⟩ := h
      cases hret
      exact ⟨[], b, rest, rfl, by simp, .inr ⟨haft, rfl⟩⟩
    · cases h
    · obtain ⟨_ | merged', hfd, hret⟩ := bind_eq_ok.mp h
      · cases hret
      · cases hret
        obtain ⟨passed, b', rest', rfl, hpass, hmrg⟩ := ih hfd
        exact ⟨b :: passed, b', rest', rfl,
          forall_mem_cons.mpr ⟨⟨hbef, haft, not_lt.mp hpast⟩, hpass⟩,
          hmrg.imp (And.imp_right (congrArg _)) (And.imp_right (congrArg _))⟩

lemma mergeInto_some {merged : List FreeBlock} (hhi : hi < 2 ^ 64)
    (hw : Within lo hi blocks) (ha : lo ≤ a ∧ a + n * pageSize ≤ hi)
    (h : mergeInto a (a + n * pageSize) n blocks = .ok (some merged)) :
    Within lo hi merged ∧ ∀ x, coverage (merged.map FreeBlock.range) x =
      Range.ind ⟨a, n * pageSize⟩ x + coverage (blocks.map FreeBlock.range) x := by
  obtain ⟨passed, b, rest, rfl, -, hmrg⟩ := mergeInto_split h
  obtain ⟨hpass, hb⟩ := within_append.mp hw
  obtain ⟨hb, hrest⟩ := within_cons.mp hb
  rw [add_end hhi hb.2] at hmrg
  rcases hmrg with ⟨hbef, rfl⟩ | ⟨haft, rfl⟩
  · -- freed range, then block
    have hsize : (b.size + n) * pageSize = n * pageSize + b.size * pageSize := by ring
    refine ⟨within_append.mpr ⟨hpass, within_cons.mpr ⟨by dsimp only; omega, hrest⟩⟩, fun x => ?_⟩
    simp only [map_append, map_cons, coverage_append, coverage_cons, FreeBlock.range]
    rw [hsize, Range.ind_split, hbef]
    omega
  · -- block, then freed range
    have hsize : (b.size + n) * pageSize = b.size * pageSize + n * pageSize := by ring
    refine ⟨within_append.mpr ⟨hpass, within_cons.mpr ⟨by dsimp only; omega, hrest⟩⟩, fun x => ?_⟩
    simp only [map_append, map_cons, coverage_append, coverage_cons, FreeBlock.range]
    rw [hsize, Range.ind_split, haft]
    omega

lemma mergeInto_returns (a e : ℕ) (hhi : hi < 2 ^ 64) (hn : n * pageSize ≤ hi)
    (hw : Within lo hi blocks) : ∃ r, mergeInto a e n blocks = .ok r := by
  induction blocks with
  | nil => exact ⟨_, rfl⟩
  | cons b rest ih =>
    obtain ⟨hb, hrest⟩ := within_cons.mp hw
    obtain ⟨r, hr⟩ := ih hrest
    have hmul : checkedMul pageSize b.size = .ok (pageSize * b.size) :=
      checkedMul_eq_ok.mpr ⟨by rw [mul_comm]; omega, rfl⟩
    have hadd : checkedAdd b.size n = .ok (b.size + n) := by
      refine checkedAdd_eq_ok.mpr ⟨?_, rfl⟩
      simp only [pageSize] at hb hn
      omega
    unfold mergeInto
    simp only [hmul, hadd, hr, pure, Except.pure, bind, Except.bind]
    split_ifs <;> exact ⟨_, rfl⟩

end

/-! ### What one call does -/

variable {a n : ℕ}

lemma reserveFrom_some {e : ℕ} {left : List FreeBlock} (hhi : hi < 2 ^ 64)
    (hw : Within lo hi blocks) (h : reserveFrom a e n blocks = .ok (some left)) : e ≤ hi := by
  induction blocks generalizing left with
  | nil => cases h
  | cons b rest ih =>
    obtain ⟨⟨-, hb⟩, hrest⟩ := within_cons.mp hw
    simp only [reserveFrom, bind_eq_ok, checkedMul_eq_ok] at h
    obtain ⟨_, ⟨-, rfl⟩, h⟩ := h
    have hend : add b.address (b.size * pageSize) = b.address + b.size * pageSize :=
      wrappingAdd_of_lt (hb.trans_lt hhi)
    rw [hend] at h
    by_cases hin : b.address ≤ a ∧ b.address + b.size * pageSize ≥ e
    · exact hin.2.trans hb
    · rw [if_neg hin] at h
      split_ifs at h
      · cases h
      · simp only [bind_eq_ok] at h
        obtain ⟨_ | found, hfd, h⟩ := h
        · cases h
        · exact ih hrest hfd

variable {vaa vaa' : VirtualAddressAllocator} {lo hi : ℕ}

lemma reserve_ok (hhi : hi < 2 ^ 64)
    (hw : Within lo hi vaa.freeList) (ha : a + n * pageSize < 2 ^ 64)
    (h : vaa.reserve a n = .ok (.ok (), vaa')) : a + n * pageSize ≤ hi := by
  simp only [reserve, bind_eq_ok, checkedMul_eq_ok] at h
  obtain ⟨_, ⟨-, rfl⟩, found, hfd, h⟩ := h
  have hend : add a (n * pageSize) = a + n * pageSize := wrappingAdd_of_lt ha
  rw [hend] at hfd
  cases found with
  | none => cases h
  | some left => exact reserveFrom_some hhi hw hfd

lemma alloc_ok (h : vaa.alloc n = .ok (.ok a, vaa')) :
    allocFrom n vaa.freeList = .ok (some (a, vaa'.freeList)) := by
  simp only [alloc, bind_eq_ok] at h
  obtain ⟨found, hfd, h⟩ := h
  split at h
  · cases h
    exact hfd
  · cases h

lemma alloc_error {e : MemoryError} (h : vaa.alloc n = .ok (.error e, vaa')) :
    vaa' = vaa ∧ ∀ b ∈ vaa.freeList, b.size < n := by
  simp only [alloc, bind_eq_ok] at h
  obtain ⟨found, hfd, h⟩ := h
  split at h
  · cases h
  · cases h
    exact ⟨rfl, allocFrom_none hfd⟩

section takes

variable {vaa vaa' : VirtualAddressAllocator} {n a : ℕ} {blocks left : List FreeBlock}

lemma allocFrom_eq_none (h : ∀ b ∈ blocks, b.size < n) : allocFrom n blocks = .ok none := by
  induction blocks with
  | nil => rfl
  | cons block rest ih =>
    obtain ⟨hblk, hrest⟩ := forall_mem_cons.mp h
    rw [allocFrom, if_neg (by omega), ih hrest]
    rfl

lemma ne_of_allocFrom (hn : 1 ≤ n) (h : allocFrom n blocks = .ok (some (a, left))) :
    left ≠ blocks := by
  obtain ⟨passed, b, rest, rfl, -, -, ⟨-, rfl⟩ | ⟨hlt, rfl⟩⟩ := allocFrom_split h
  · exact fun heq => ne_cons_self (append_cancel_left heq)
  · intro heq
    have hsize := congrArg FreeBlock.size (List.cons.inj (append_cancel_left heq)).1
    dsimp only at hsize
    omega

lemma allocFrom_zero_eq_iff {b : FreeBlock} (h : allocFrom 0 (b :: blocks) = .ok (some (a, left))) :
    left = b :: blocks ↔ 0 < b.size ∧ b.address < 2 ^ 64 := by
  obtain ⟨address, size⟩ := b
  rw [allocFrom, if_pos (Nat.zero_le _)] at h
  split_ifs at h with hsize
  · cases h
    exact iff_of_false ne_cons_self fun hpos => absurd hsize (by omega)
  · simp only [bind_eq_ok, checkedMul_eq_ok, checkedSub_eq_ok] at h
    obtain ⟨taken, ⟨-, htk⟩, _, ⟨-, rfl⟩, hret⟩ := h
    cases hret
    rw [Nat.mul_zero] at htk
    dsimp only at hsize
    simp only [add, wrappingAdd, List.cons.injEq, FreeBlock.mk.injEq, and_true]
    omega

def TakesNothing (vaa : VirtualAddressAllocator) (n : ℕ) : Prop :=
  (∀ b ∈ vaa.freeList, b.size < n) ∨
    n = 0 ∧ ∀ b ∈ vaa.freeList.head?, 0 < b.size ∧ b.address < 2 ^ 64

instance (vaa : VirtualAddressAllocator) (n : ℕ) : Decidable (vaa.TakesNothing n) :=
  inferInstanceAs (Decidable (_ ∨ _))

lemma alloc_eq_self_iff {r : Except MemoryError ℕ} (h : vaa.alloc n = .ok (r, vaa')) :
    vaa' = vaa ↔ vaa.TakesNothing n := by
  cases r with
  | error e =>
    obtain ⟨rfl, hsm⟩ := alloc_error h
    exact iff_of_true rfl (.inl hsm)
  | ok a =>
    have hfrom := alloc_ok h
    have hlg : ¬ ∀ b ∈ vaa.freeList, b.size < n := fun hsm => by
      rw [allocFrom_eq_none hsm] at hfrom
      cases hfrom
    rw [TakesNothing, or_iff_right hlg]
    obtain ⟨blocks⟩ := vaa
    obtain ⟨left⟩ := vaa'
    simp only [VirtualAddressAllocator.mk.injEq]
    rcases eq_zero_or_pos n with rfl | hn
    · cases blocks with
      | nil => cases hfrom
      | cons b rest =>
        rw [allocFrom_zero_eq_iff hfrom]
        simp
    · exact iff_of_false (ne_of_allocFrom hn hfrom) fun h0 => absurd h0.1 (by omega)

end takes

lemma alloc_returns (n : ℕ) (hhi : hi < 2 ^ 64)
    (hw : Within lo hi vaa.freeList) : ∃ r, vaa.alloc n = .ok r := by
  obtain ⟨found, hfd⟩ := allocFrom_returns n hhi hw
  rcases found with _ | ⟨a, left⟩
  · exact ⟨_, bind_eq_ok.mpr ⟨_, hfd, rfl⟩⟩
  · exact ⟨_, bind_eq_ok.mpr ⟨_, hfd, rfl⟩⟩

lemma free_ok (hhi : hi < 2 ^ 64) (hw : Within lo hi vaa.freeList)
    (ha : lo ≤ a ∧ a + n * pageSize ≤ hi) (h : vaa.free a n = .ok vaa') :
    Within lo hi vaa'.freeList ∧ ∀ x, coverage (vaa'.freeList.map FreeBlock.range) x =
      Range.ind ⟨a, n * pageSize⟩ x + coverage (vaa.freeList.map FreeBlock.range) x := by
  simp only [free, bind_eq_ok, checkedMul_eq_ok] at h
  obtain ⟨_, ⟨_, rfl⟩, merged, hmrg, h⟩ := h
  rw [add_end hhi ha.2] at hmrg
  split at h
  · cases h
    exact mergeInto_some hhi hw ha hmrg
  · cases h
    refine ⟨?_, fun x => ?_⟩
    · intro b hb
      rcases mem_append.mp hb with hb | hb
      · exact hw b hb
      · rw [mem_singleton.mp hb]
        exact ha
    · simp only [map_append, map_cons, map_nil, coverage_append, coverage_cons,
        coverage_nil, FreeBlock.range]
      omega

lemma free_returns (hhi : hi < 2 ^ 64)
    (hw : Within lo hi vaa.freeList) (ha : a + n * pageSize ≤ hi) :
    ∃ vaa', vaa.free a n = .ok vaa' := by
  have hmul : checkedMul pageSize n = .ok (pageSize * n) :=
    checkedMul_eq_ok.mpr ⟨by rw [mul_comm]; omega, rfl⟩
  obtain ⟨merged, hmrg⟩ :=
    mergeInto_returns a (add a (pageSize * n)) (n := n) hhi (by omega) hw
  rcases merged with _ | merged
  · exact ⟨_, bind_eq_ok.mpr ⟨_, hmul, bind_eq_ok.mpr ⟨_, hmrg, rfl⟩⟩⟩
  · exact ⟨_, bind_eq_ok.mpr ⟨_, hmul, bind_eq_ok.mpr ⟨_, hmrg, rfl⟩⟩⟩

/-! ### Page boundaries -/

section aligned

variable {blocks : List FreeBlock} {a n : ℕ}

private lemma add_aligned {a n : ℕ} (ha : a % pageSize = 0) :
    add a (pageSize * n) % pageSize = 0 := by
  simp only [add, wrappingAdd, pageSize] at ha ⊢
  omega

def Aligned (blocks : List FreeBlock) : Prop := ∀ b ∈ blocks, b.address % pageSize = 0

lemma allocFrom_aligned {left : List FreeBlock} (hblks : Aligned blocks)
    (h : allocFrom n blocks = .ok (some (a, left))) : a % pageSize = 0 ∧ Aligned left := by
  obtain ⟨passed, b, rest, rfl, -, rfl, hleft⟩ := allocFrom_split h
  obtain ⟨hpass, hb⟩ := forall_mem_append.mp hblks
  obtain ⟨hb, hrest⟩ := forall_mem_cons.mp hb
  refine ⟨hb, ?_⟩
  rcases hleft with ⟨-, rfl⟩ | ⟨-, rfl⟩
  · exact forall_mem_append.mpr ⟨hpass, hrest⟩
  · exact forall_mem_append.mpr ⟨hpass, forall_mem_cons.mpr ⟨add_aligned hb, hrest⟩⟩

lemma mergeInto_aligned {e : ℕ} {merged : List FreeBlock} (hblks : Aligned blocks)
    (ha : a % pageSize = 0) (h : mergeInto a e n blocks = .ok (some merged)) : Aligned merged := by
  obtain ⟨passed, b, rest, rfl, -, hmrg⟩ := mergeInto_split h
  obtain ⟨hpass, hb⟩ := forall_mem_append.mp hblks
  obtain ⟨hb, hrest⟩ := forall_mem_cons.mp hb
  rcases hmrg with ⟨-, rfl⟩ | ⟨-, rfl⟩
  · exact forall_mem_append.mpr ⟨hpass, forall_mem_cons.mpr ⟨ha, hrest⟩⟩
  · exact forall_mem_append.mpr ⟨hpass, forall_mem_cons.mpr ⟨hb, hrest⟩⟩

end aligned

def freeRanges (vaa : VirtualAddressAllocator) : List Range := vaa.freeList.map FreeBlock.range

structure Manages (vaa : VirtualAddressAllocator) (lo hi : ℕ) : Prop where
  within : Within lo hi vaa.freeList
  aligned : Aligned vaa.freeList

section manages

variable {vaa vaa' : VirtualAddressAllocator} {lo hi a n : ℕ}

lemma Manages.alloc (h : vaa.Manages lo hi) (hhi : hi < 2 ^ 64)
    (hall : vaa.alloc n = .ok (.ok a, vaa')) :
    (a % pageSize = 0 ∧ lo ≤ a ∧ a + n * pageSize ≤ hi) ∧ vaa'.Manages lo hi ∧
      ∀ x, coverage vaa.freeRanges x =
        Range.ind ⟨a, n * pageSize⟩ x + coverage vaa'.freeRanges x := by
  obtain ⟨hbds, hwin, hcov⟩ := allocFrom_some hhi h.within (alloc_ok hall)
  obtain ⟨hal, hleft⟩ := allocFrom_aligned h.aligned (alloc_ok hall)
  exact ⟨⟨hal, hbds⟩, ⟨hwin, hleft⟩, hcov⟩

lemma Manages.free (h : vaa.Manages lo hi) (hhi : hi < 2 ^ 64)
    (ha : a % pageSize = 0 ∧ lo ≤ a ∧ a + n * pageSize ≤ hi) (hfree : vaa.free a n = .ok vaa') :
    vaa'.Manages lo hi ∧ ∀ x, coverage vaa'.freeRanges x =
      Range.ind ⟨a, n * pageSize⟩ x + coverage vaa.freeRanges x := by
  obtain ⟨hwin, hcov⟩ := free_ok hhi h.within ha.2 hfree
  refine ⟨⟨hwin, ?_⟩, hcov⟩
  simp only [VirtualAddressAllocator.free, bind_eq_ok] at hfree
  obtain ⟨_, _, merged, hmrg, hret⟩ := hfree
  split at hret
  · cases hret
    exact mergeInto_aligned h.aligned ha.1 hmrg
  · cases hret
    intro b hb
    rcases mem_append.mp hb with hb | hb
    · exact h.aligned b hb
    · rw [mem_singleton.mp hb]
      exact ha.1

end manages

/-! ### Runs -/

structure Allocation where
  address : ℕ
  pageCount : ℕ
  deriving DecidableEq, Repr

def Allocation.range (a : Allocation) : Range := ⟨a.address, a.pageCount * pageSize⟩

structure Session where
  vaa : VirtualAddressAllocator
  live : List Allocation

inductive Step : Session → Session → Prop where
  | alloc {vaa vaa' live n a} (h : vaa.alloc n = .ok (.ok a, vaa')) :
      Step ⟨vaa, live⟩ ⟨vaa', ⟨a, n⟩ :: live⟩
  | allocError {vaa vaa' live n e} (h : vaa.alloc n = .ok (.error e, vaa')) :
      Step ⟨vaa, live⟩ ⟨vaa', live⟩
  | free {vaa vaa' live a n} (hlive : ⟨a, n⟩ ∈ live) (h : vaa.free a n = .ok vaa') :
      Step ⟨vaa, live⟩ ⟨vaa', live.erase ⟨a, n⟩⟩

def Reachable (start total : ℕ) (s : Session) : Prop :=
  ReflTransGen Step ⟨new start total, []⟩ s

def Session.ranges (s : Session) : List Range :=
  s.vaa.freeList.map FreeBlock.range ++ s.live.map Allocation.range

structure Invariant (lo hi : ℕ) (s : Session) : Prop where
  partitions : Partitions s.ranges lo hi
  free_within : Within lo hi s.vaa.freeList
  live_within : ∀ a ∈ s.live, lo ≤ a.address ∧ a.address + a.pageCount * pageSize ≤ hi

lemma invariant_new (start total : ℕ) :
    Invariant start (start + total * pageSize) ⟨new start total, []⟩ where
  partitions := fun x => by
    simp [Session.ranges, new, FreeBlock.range, Range.ind, Range.mem_iff]
  free_within := by simp [Within, new]
  live_within := by simp

lemma Step.invariant {s t : Session} (hhi : hi < 2 ^ 64) (hstep : Step s t)
    (hs : Invariant lo hi s) : Invariant lo hi t := by
  cases hstep with
  | alloc h =>
    obtain ⟨ha, hleft, hcov⟩ := allocFrom_some hhi hs.free_within (alloc_ok h)
    refine ⟨fun x => ?_, hleft, forall_mem_cons.mpr ⟨ha, hs.live_within⟩⟩
    have hpart := hs.partitions x
    simp only [Session.ranges, map_cons, coverage_append, coverage_cons,
      Allocation.range] at hpart ⊢
    rw [hcov x] at hpart
    omega
  | allocError h =>
    rwa [(alloc_error h).1]
  | free hlive h =>
    obtain ⟨hfree, hcov⟩ := free_ok hhi hs.free_within (hs.live_within _ hlive) h
    refine ⟨fun x => ?_, hfree, fun b hb => hs.live_within b (mem_of_mem_erase hb)⟩
    have hpart := hs.partitions x
    have hperm := (perm_cons_erase hlive).map Allocation.range
    simp only [Session.ranges, coverage_append, coverage_perm hperm, map_cons,
      coverage_cons, Allocation.range] at hpart ⊢
    have hx := hcov x
    dsimp only at hpart hx
    omega

lemma Reachable.invariant {start total : ℕ} {s : Session}
    (hfit : start + total * pageSize < 2 ^ 64) (h : Reachable start total s) :
    Invariant start (start + total * pageSize) s := by
  induction h with
  | refl => exact invariant_new start total
  | tail _ hstep ih => exact hstep.invariant hfit ih

/-- Along every run the free blocks and the live ranges partition the managed addresses, no call
panics, and `alloc` fails only when no single block is large enough. -/
theorem reachable_partitions (start total : ℕ) {s : Session}
    (hfit : start + total * pageSize < 2 ^ 64) (h : Reachable start total s) :
    Partitions s.ranges start (start + total * pageSize) ∧
    (∀ n e vaa', s.vaa.alloc n = .ok (.error e, vaa') →
      vaa' = s.vaa ∧ ∀ b ∈ s.vaa.freeList, b.size < n) ∧
    (∀ n, ∃ r, s.vaa.alloc n = .ok r) ∧
    (∀ a ∈ s.live, ∃ vaa', s.vaa.free a.address a.pageCount = .ok vaa') := by
  have hs := h.invariant hfit
  exact ⟨hs.partitions, fun n e vaa' => alloc_error, fun n => alloc_returns n hfit hs.free_within,
    fun a ha => free_returns hfit hs.free_within (hs.live_within a ha).2⟩

/-- Two pages out of eight, with the front of the block handed out. -/
theorem reachable_partitions_two_of_eight :
    Partitions (Session.ranges ⟨⟨[⟨0x1_2000, 6⟩]⟩, [⟨0x1_0000, 2⟩]⟩) 0x1_0000 0x1_8000 :=
  (reachable_partitions 0x1_0000 8 (by decide) (.single (.alloc (n := 2) rfl))).1

end Kernel.Memory.VirtualAddressAllocator
