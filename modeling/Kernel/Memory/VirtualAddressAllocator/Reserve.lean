import Kernel.Memory.VirtualAddressAllocator.Order

/-!
# Reserving a range of addresses

`reserve` looks for a block that contains the range and leaves what is in front of it and behind it.
-/

namespace Kernel.Memory.VirtualAddressAllocator

open Core List

def IsFree (vaa : VirtualAddressAllocator) (x : ℕ) : Prop := ∃ b ∈ vaa.freeList, x ∈ b.range

def Contains (a n : ℕ) (b : FreeBlock) : Prop :=
  b.address ≤ a ∧ a + n * pageSize ≤ b.address + b.size * pageSize

def ReservesExactly (vaa : VirtualAddressAllocator) (a n : ℕ) : Prop :=
  ∃ r vaa', vaa.reserve a n = .ok (r, vaa') ∧
    (r = .ok () ↔ ∃ b ∈ vaa.freeList, Contains a n b) ∧
    (r = .ok () → ∀ x, vaa'.IsFree x ↔ vaa.IsFree x ∧ x ∉ (⟨a, n * pageSize⟩ : Range)) ∧
    (r ≠ .ok () → vaa' = vaa)

def Candidate (a e : ℕ) (b : FreeBlock) : Prop :=
  b.address ≤ a ∧ e ≤ b.address + b.size * pageSize

instance (a e : ℕ) (b : FreeBlock) : Decidable (Candidate a e b) :=
  inferInstanceAs (Decidable (_ ∧ _))

def stop (a e : ℕ) (blocks : List FreeBlock) : Option FreeBlock :=
  blocks.find? fun b => decide (Candidate a e b ∨ e ≤ b.address)

def rangeEnd (a n : ℕ) : ℕ := VirtualAddress.add a (n * pageSize)

/-- The rest of the block is cut at page boundaries: the range is the whole block, or it does not
begin with the block and, unless it ends with it, the block begins at a page boundary. -/
def CutsCleanly (a n : ℕ) (b : FreeBlock) : Prop :=
  (b.address = a → b.size = n) ∧
    (b.address ≠ a → b.address + b.size * pageSize ≠ a + n * pageSize → b.address % pageSize = 0)

/-- The length of the range is a machine word, a block that contains the range is the one at which
the loop stops and it is cut cleanly, and the loop does not stop at a block that only seems to
contain the range because its end wraps around. -/
structure Reservable (a n : ℕ) (blocks : List FreeBlock) : Prop where
  fits : n * pageSize < 2 ^ 64
  found : ∀ b ∈ blocks, Contains a n b → stop a (rangeEnd a n) blocks = some b ∧ CutsCleanly a n b
  genuine : ∀ b ∈ stop a (rangeEnd a n) blocks,
    Candidate a (rangeEnd a n) b → Contains a n b

variable {blocks : List FreeBlock} {b : FreeBlock} {vaa vaa' : VirtualAddressAllocator}
  {lo hi a n e : ℕ}

/-! ### The loop -/

def cut (a e n : ℕ) (b : FreeBlock) : Checked (List FreeBlock) :=
  if b.address = a then
    if b.size = n then .ok []
    else do
      let size ← checkedSub b.size n
      return [⟨VirtualAddress.add b.address n, size⟩]
  else if b.address + b.size * pageSize = e then do
    let size ← checkedSub b.size n
    return [⟨b.address, size⟩]
  else do
    let before ← checkedSub a b.address
    let behind ← checkedSub (b.address + b.size * pageSize) e
    return [⟨b.address, divCeil before pageSize⟩, ⟨e, divCeil behind pageSize⟩]

section

variable (hhi : hi < 2 ^ 64)

include hhi

lemma reserveFrom_cons (hb : b.address + b.size * pageSize ≤ hi) :
    reserveFrom a e n (b :: blocks) =
      if Candidate a e b then do
        let pieces ← cut a e n b
        return some (pieces ++ blocks)
      else if e ≤ b.address then .ok none
      else do
        let found ← reserveFrom a e n blocks
        return found.map (b :: ·) := by
  have hmul : checkedMul b.size pageSize = .ok (b.size * pageSize) :=
    checkedMul_eq_ok.mpr ⟨by omega, rfl⟩
  have hend : VirtualAddress.add b.address (b.size * pageSize) = b.address + b.size * pageSize :=
    wrappingAdd_of_lt (by omega)
  rw [reserveFrom, checked_bind_of_ok hmul]
  simp only [hend, Candidate, ge_iff_le, cut]
  split_ifs
  · rfl
  · simp only [bind_assoc, pure_bind, cons_append, nil_append]
  · simp only [bind_assoc, pure_bind, cons_append, nil_append]
  · simp only [bind_assoc, pure_bind, cons_append, nil_append]
  · rfl
  · rfl

lemma reserveFrom_append {pre : List FreeBlock} (hw : Within lo hi pre)
    (hpre : ∀ p ∈ pre, ¬ (Candidate a e p ∨ e ≤ p.address)) :
    reserveFrom a e n (pre ++ blocks) = do
      let found ← reserveFrom a e n blocks
      return found.map (pre ++ ·) := by
  induction pre with
  | nil =>
    rw [nil_append]
    cases reserveFrom a e n blocks with
    | error p => rfl
    | ok found => cases found <;> rfl
  | cons p pre ih =>
    obtain ⟨hp, hw'⟩ := within_cons.mp hw
    obtain ⟨hpass, hpre'⟩ := forall_mem_cons.mp hpre
    obtain ⟨hcand, hbeh⟩ := not_or.mp hpass
    rw [cons_append, reserveFrom_cons hhi hp.2, if_neg hcand, if_neg hbeh, ih hw' hpre']
    cases reserveFrom a e n blocks with
    | error p => rfl
    | ok found => cases found <;> rfl

lemma reserveFrom_none (hw : Within lo hi blocks)
    (h : ∀ b ∈ stop a e blocks, ¬ Candidate a e b) : reserveFrom a e n blocks = .ok none := by
  induction blocks with
  | nil => rfl
  | cons b rest ih =>
    obtain ⟨hb, hrest⟩ := within_cons.mp hw
    rw [reserveFrom_cons hhi hb.2]
    by_cases hstop : Candidate a e b ∨ e ≤ b.address
    · have hcand : ¬ Candidate a e b := h b (List.find?_cons_of_pos (by simpa using hstop))
      rw [if_neg hcand, if_pos (hstop.resolve_left hcand)]
    · obtain ⟨hcand, hbeh⟩ := not_or.mp hstop
      have hskip : stop a e (b :: rest) = stop a e rest :=
        List.find?_cons_of_neg (by simpa using hstop)
      rw [if_neg hcand, if_neg hbeh, ih hrest (hskip ▸ h)]
      rfl

lemma reserveFrom_of_stop (hw : Within lo hi blocks)
    (hstop : stop a e blocks = some b) (hcand : Candidate a e b) :
    ∃ pre post, blocks = pre ++ b :: post ∧ reserveFrom a e n blocks = (do
      let pieces ← cut a e n b
      return some (pre ++ (pieces ++ post))) := by
  obtain ⟨-, pre, post, rfl, hpre⟩ := List.find?_eq_some_iff_append.mp hstop
  obtain ⟨hw_pre, hw_post⟩ := forall_mem_append.mp hw
  refine ⟨pre, post, rfl, ?_⟩
  rw [reserveFrom_append hhi hw_pre fun p hp => by simpa using hpre p hp,
    reserveFrom_cons hhi (hw_post b mem_cons_self).2, if_pos hcand]
  simp only [bind_assoc, pure_bind, Option.map_some]

/-! ### The call -/

lemma reserve_of_not_candidate (hw : Within lo hi vaa.freeList) (hfits : n * pageSize < 2 ^ 64)
    (h : ∀ b ∈ stop a (rangeEnd a n) vaa.freeList, ¬ Candidate a (rangeEnd a n) b) :
    vaa.reserve a n = .ok (.error (.insufficentForAllocation n), vaa) := by
  have hmul : checkedMul n pageSize = .ok (n * pageSize) := checkedMul_eq_ok.mpr ⟨hfits, rfl⟩
  rw [reserve, checked_bind_of_ok hmul]
  exact checked_bind_of_ok (reserveFrom_none hhi hw h)

lemma reserve_of_candidate (hw : Within lo hi vaa.freeList) (hfits : n * pageSize < 2 ^ 64)
    (hstop : stop a (rangeEnd a n) vaa.freeList = some b) (hcand : Candidate a (rangeEnd a n) b) :
    ∃ pre post, vaa.freeList = pre ++ b :: post ∧ vaa.reserve a n = (do
      let pieces ← cut a (rangeEnd a n) n b
      return (.ok (), ⟨pre ++ (pieces ++ post)⟩)) := by
  obtain ⟨pre, post, heq, hfrom⟩ := reserveFrom_of_stop hhi hw hstop hcand (n := n)
  have hmul : checkedMul n pageSize = .ok (n * pageSize) := checkedMul_eq_ok.mpr ⟨hfits, rfl⟩
  refine ⟨pre, post, heq, ?_⟩
  rw [reserve, checked_bind_of_ok hmul]
  rw [rangeEnd] at hfrom
  simp only [hfrom, bind_assoc, pure_bind]
  rfl

end

lemma cut_of_cutsCleanly (hb : lo ≤ b.address ∧ b.address + b.size * pageSize ≤ hi)
    (ha : a % pageSize = 0) (hcont : Contains a n b) (hcln : CutsCleanly a n b) :
    ∃ pieces, cut a (a + n * pageSize) n b = .ok pieces ∧ Within lo hi pieces ∧
      ∀ x, b.range.ind x =
        Range.ind ⟨a, n * pageSize⟩ x + coverage (pieces.map FreeBlock.range) x := by
  obtain ⟨hle, hge⟩ := hcont
  by_cases hfst : b.address = a
  · -- the range is the block
    have hsize := hcln.1 hfst
    refine ⟨[], ?_, nofun, fun x => ?_⟩
    · rw [cut, if_pos hfst, if_pos hsize]
    · rw [FreeBlock.range, hfst, hsize]
      rfl
  · by_cases hlast : b.address + b.size * pageSize = a + n * pageSize
    · -- the range is the end of the block
      have hsize : n ≤ b.size := by
        simp only [pageSize] at hlast
        omega
      have hlen : b.size * pageSize = (b.size - n) * pageSize + n * pageSize := by
        rw [← add_mul, Nat.sub_add_cancel hsize]
      have hst : b.address + (b.size - n) * pageSize = a := by omega
      refine ⟨[⟨b.address, b.size - n⟩], ?_, ?_, fun x => ?_⟩
      · rw [cut, if_neg hfst, if_pos hlast, checked_bind_of_ok (checkedSub_eq_ok.mpr ⟨hsize, rfl⟩)]
        rfl
      · refine forall_mem_singleton.mpr ⟨hb.1, ?_⟩
        dsimp only
        omega
      · simp only [FreeBlock.range, map_cons, map_nil, coverage_cons, coverage_nil]
        rw [hlen, Range.ind_split, hst]
        omega
    · -- the range is in the middle of the block
      have hal := hcln.2 hfst hlast
      have hbef : divCeil (a - b.address) pageSize * pageSize = a - b.address := by
        apply divCeil_mul_of_dvd
        simp only [pageSize] at ha hal ⊢
        omega
      have hbeh : divCeil (b.address + b.size * pageSize - (a + n * pageSize)) pageSize *
          pageSize = b.address + b.size * pageSize - (a + n * pageSize) := by
        apply divCeil_mul_of_dvd
        simp only [pageSize] at ha hal ⊢
        omega
      refine ⟨[⟨b.address, divCeil (a - b.address) pageSize⟩, ⟨a + n * pageSize,
        divCeil (b.address + b.size * pageSize - (a + n * pageSize)) pageSize⟩], ?_, ?_,
        fun x => ?_⟩
      · rw [cut, if_neg hfst, if_neg hlast, checked_bind_of_ok (checkedSub_eq_ok.mpr ⟨hle, rfl⟩),
          checked_bind_of_ok (checkedSub_eq_ok.mpr ⟨hge, rfl⟩)]
        rfl
      · refine forall_mem_cons.mpr ⟨⟨hb.1, ?_⟩, forall_mem_singleton.mpr ⟨?_, ?_⟩⟩
        · dsimp only
          omega
        · dsimp only
          omega
        · dsimp only
          omega
      · simp only [FreeBlock.range, map_cons, map_nil, coverage_cons, coverage_nil]
        rw [hbef, hbeh]
        generalize hrest : b.address + b.size * pageSize - (a + n * pageSize) = rest
        have hlen : b.size * pageSize = (a - b.address) + (n * pageSize + rest) := by omega
        have hst : b.address + (a - b.address) = a := by omega
        rw [hlen, Range.ind_split, hst, Range.ind_split]
        omega

lemma exists_mem_of_not_cutsCleanly {pieces : List FreeBlock} (hhi : hi < 2 ^ 64)
    (hb : b.address + b.size * pageSize ≤ hi) (ha : a % pageSize = 0) (hn : 1 ≤ n)
    (hcont : Contains a n b) (hcln : ¬ CutsCleanly a n b)
    (h : cut a (a + n * pageSize) n b = .ok pieces) :
    ∃ x ∈ (⟨a, n * pageSize⟩ : Range), ∃ c ∈ pieces, x ∈ c.range := by
  obtain ⟨hle, hge⟩ := hcont
  have hpgs : n * 4096 = n * pageSize := rfl
  by_cases hfst : b.address = a
  · -- the new block begins as many bytes behind the old one as there are pages in the range
    have hsize : b.size ≠ n := fun heq => hcln ⟨fun _ => heq, fun hne => absurd hfst hne⟩
    rw [cut, if_pos hfst, if_neg hsize] at h
    simp only [bind_eq_ok, checkedSub_eq_ok] at h
    obtain ⟨_, ⟨hsub, rfl⟩, hret⟩ := h
    cases hret
    have hadd : VirtualAddress.add b.address n = a + n := by
      rw [hfst]
      exact wrappingAdd_of_lt (by omega)
    have hrest : 0 < (b.size - n) * pageSize := mul_pos (by omega) (by decide)
    refine ⟨a + n, ⟨le_self_add, ?_⟩, _, mem_singleton_self _, ?_⟩
    · dsimp only
      omega
    · rw [FreeBlock.range, hadd, Range.mem_iff]
      dsimp only
      omega
  · have hlast : b.address + b.size * pageSize ≠ a + n * pageSize := fun heq =>
      hcln ⟨fun heq' => absurd heq' hfst, fun _ hne => absurd heq hne⟩
    have hal : b.address % pageSize ≠ 0 := fun heq =>
      hcln ⟨fun heq' => absurd heq' hfst, fun _ _ => heq⟩
    rw [cut, if_neg hfst, if_neg hlast] at h
    simp only [bind_eq_ok, checkedSub_eq_ok] at h
    obtain ⟨_, ⟨-, rfl⟩, _, ⟨-, rfl⟩, hret⟩ := h
    cases hret
    -- the pages in front of the range are rounded up
    refine ⟨a, ⟨le_rfl, ?_⟩, _, mem_cons_self, ?_⟩
    · dsimp only
      omega
    · rw [FreeBlock.range, Range.mem_iff]
      simp only [divCeil, pageSize] at ha hal ⊢
      omega

/-! ### Runs -/

lemma rangeEnd_of_contains (hhi : hi < 2 ^ 64) (hb : b.address + b.size * pageSize ≤ hi)
    (h : Contains a n b) : rangeEnd a n = a + n * pageSize :=
  wrappingAdd_of_lt (h.2.trans_lt (hb.trans_lt hhi))

section invariant

variable {s : Session} (hs : Invariant lo hi s) (hhi : hi < 2 ^ 64)

include hs

lemma Invariant.coverage_free_le_one (x : ℕ) :
    coverage (s.vaa.freeList.map FreeBlock.range) x ≤ 1 := by
  have hle := hs.partitions.coverage_le_one x
  rw [Session.ranges, coverage_append] at hle
  omega

lemma Invariant.block_unique {b b' : FreeBlock} {x : ℕ} (hb : b ∈ s.vaa.freeList)
    (hb' : b' ∈ s.vaa.freeList) (hx : x ∈ b.range) (hx' : x ∈ b'.range) : b = b' := by
  by_contra hne
  have hdisj : s.vaa.freeList.Pairwise fun b b' => b.range.Disjoint b'.range :=
    pairwise_map.mp (pairwise_disjoint_of_coverage_le_one hs.coverage_free_le_one)
  have : Std.Symm fun b b' : FreeBlock => b.range.Disjoint b'.range :=
    ⟨fun _ _ hdisj x hx hx' => hdisj x hx' hx⟩
  exact hdisj.forall hb hb' hne x hx hx'

lemma Invariant.contains_unique {b b' : FreeBlock} (hn : 1 ≤ n) (hb : b ∈ s.vaa.freeList)
    (hb' : b' ∈ s.vaa.freeList) (h : Contains a n b) (h' : Contains a n b') : b = b' := by
  have hpos : 0 < n * pageSize := mul_pos hn (by decide)
  have hfst : ∀ c, Contains a n c → a ∈ c.range := fun c hc => ⟨hc.1, by
    have := hc.2
    dsimp only [FreeBlock.range]
    omega⟩
  exact hs.block_unique hb hb' (hfst b h) (hfst b' h')

include hhi

lemma Invariant.reserve_of_contains (ha : a % pageSize = 0) (h : Reservable a n s.vaa.freeList)
    (hb : b ∈ s.vaa.freeList) (hcont : Contains a n b) :
    ∃ vaa', s.vaa.reserve a n = .ok (.ok (), vaa') ∧ Within lo hi vaa'.freeList ∧
      ∀ x, coverage s.vaa.freeRanges x =
        Range.ind ⟨a, n * pageSize⟩ x + coverage vaa'.freeRanges x := by
  obtain ⟨hstop, hcln⟩ := h.found b hb hcont
  have hwin := hs.free_within b hb
  have hend := rangeEnd_of_contains hhi hwin.2 hcont
  have hcand : Candidate a (rangeEnd a n) b := hend ▸ hcont
  obtain ⟨pre, post, heq, hrsv⟩ :=
    reserve_of_candidate hhi hs.free_within h.fits hstop hcand
  obtain ⟨pieces, hcut, hpie, hind⟩ := cut_of_cutsCleanly hwin ha hcont hcln
  rw [hend, hcut] at hrsv
  refine ⟨_, hrsv, ?_, fun x => ?_⟩
  · have hw := hs.free_within
    rw [heq] at hw
    obtain ⟨hpre, hpost⟩ := forall_mem_append.mp hw
    exact forall_mem_append.mpr
      ⟨hpre, forall_mem_append.mpr ⟨hpie, (forall_mem_cons.mp hpost).2⟩⟩
  · simp only [freeRanges, heq, map_append, map_cons, coverage_append, coverage_cons, hind x]
    omega

lemma Invariant.reservesExactly_iff (ha : a % pageSize = 0) (hn : 1 ≤ n) :
    s.vaa.ReservesExactly a n ↔ Reservable a n s.vaa.freeList := by
  constructor
  · rintro ⟨r, vaa', hcall, hsuc, hrem, -⟩
    have hfits : n * pageSize < 2 ^ 64 := by
      simp only [reserve, bind_eq_ok, checkedMul_eq_ok] at hcall
      exact hcall.choose_spec.1.1
    refine ⟨hfits, fun b hb hcont => ?_, fun b hstop hcand => ?_⟩
    · have hwin := hs.free_within b hb
      have hend := rangeEnd_of_contains hhi hwin.2 hcont
      have hok : r = .ok () := hsuc.mpr ⟨b, hb, hcont⟩
      -- the call has found a block, and it can only be this one
      obtain ⟨b', hstop, hcand⟩ : ∃ b' ∈ stop a (rangeEnd a n) s.vaa.freeList,
          Candidate a (rangeEnd a n) b' := by
        by_contra hnone
        have hfail := reserve_of_not_candidate hhi hs.free_within hfits
          fun b' hb' hcand => hnone ⟨b', hb', hcand⟩
        rw [hcall, hok] at hfail
        cases hfail
      have hcont' : Contains a n b' := by
        rw [hend] at hcand
        exact hcand
      obtain rfl := hs.contains_unique hn hb (mem_of_find?_eq_some hstop) hcont hcont'
      refine ⟨hstop, ?_⟩
      by_contra hcln
      obtain ⟨pre, post, heq, hrsv⟩ :=
        reserve_of_candidate hhi hs.free_within hfits hstop hcand
      rw [hcall, hend] at hrsv
      obtain ⟨pieces, hcut, hret⟩ := bind_eq_ok.mp hrsv.symm
      cases hret
      obtain ⟨x, hx, c, hc, hxc⟩ :=
        exists_mem_of_not_cutsCleanly hhi hwin.2 ha hn hcont hcln hcut
      exact ((hrem rfl x).mp ⟨c, by simp [hc], hxc⟩).2 hx
    · obtain ⟨pre, post, -, hrsv⟩ :=
        reserve_of_candidate hhi hs.free_within hfits hstop hcand
      rw [hcall] at hrsv
      obtain ⟨pieces, -, hret⟩ := bind_eq_ok.mp hrsv.symm
      cases hret
      obtain ⟨b', hb', hcont⟩ := hsuc.mp rfl
      have hend := rangeEnd_of_contains hhi (hs.free_within b' hb').2 hcont
      rw [hend] at hcand
      exact hcand
  · intro h
    by_cases hexi : ∃ b ∈ s.vaa.freeList, Contains a n b
    · obtain ⟨b, hb, hcont⟩ := hexi
      obtain ⟨vaa', hcall, -, hcov⟩ := hs.reserve_of_contains hhi ha h hb hcont
      refine ⟨_, vaa', hcall, ⟨fun _ => ⟨b, hb, hcont⟩, fun _ => rfl⟩, fun _ x => ?_,
        fun hne => absurd rfl hne⟩
      have hle : coverage s.vaa.freeRanges x ≤ 1 := hs.coverage_free_le_one x
      have hisFree : ∀ vaa : VirtualAddressAllocator,
          vaa.IsFree x ↔ 0 < coverage vaa.freeRanges x :=
        fun vaa => by simp [IsFree, freeRanges, coverage_pos_iff]
      rw [hisFree, hisFree]
      have hx := hcov x
      by_cases hmem : x ∈ (⟨a, n * pageSize⟩ : Range)
      · rw [Range.ind_eq_one hmem] at hx
        exact ⟨fun _ => by omega, fun h => absurd hmem h.2⟩
      · rw [Range.ind_eq_zero hmem] at hx
        exact ⟨fun _ => ⟨by omega, hmem⟩, fun _ => by omega⟩
    · have hcall := reserve_of_not_candidate hhi hs.free_within h.fits fun b hb hcand =>
        hexi ⟨b, mem_of_find?_eq_some hb, h.genuine b hb hcand⟩
      exact ⟨_, _, hcall, ⟨nofun, fun hcont => absurd hcont hexi⟩, nofun, fun _ => rfl⟩

end invariant

lemma Invariant.reserve {s : Session} (hs : Invariant lo hi s) (hhi : hi < 2 ^ 64)
    (ha : a % pageSize = 0) (hresb : Reservable a n s.vaa.freeList)
    (h : s.vaa.reserve a n = .ok (.ok (), vaa)) : Invariant lo hi ⟨vaa, ⟨a, n⟩ :: s.live⟩ := by
  have hexi : ∃ b ∈ s.vaa.freeList, Contains a n b := by
    by_contra hnone
    have hfail := reserve_of_not_candidate hhi hs.free_within hresb.fits
      fun b hb hcand =>
        hnone ⟨b, mem_of_find?_eq_some hb, hresb.genuine b hb hcand⟩
    rw [h] at hfail
    cases hfail
  obtain ⟨b, hb, hcont⟩ := hexi
  obtain ⟨vaa', hcall, hwin, hcov⟩ :=
    hs.reserve_of_contains hhi ha hresb hb hcont
  rw [h] at hcall
  cases hcall
  have hbds := hs.free_within b hb
  refine ⟨fun x => ?_, hwin, forall_mem_cons.mpr ⟨?_, hs.live_within⟩⟩
  · have hpart := hs.partitions x
    have hx := hcov x
    simp only [Session.ranges, freeRanges, map_cons, coverage_append, coverage_cons,
      Allocation.range] at hpart hx ⊢
    omega
  · exact ⟨hbds.1.trans hcont.1, hcont.2.trans hbds.2⟩

/-- Every `reserve` of a run is exact if and only if every one is reservable in the state before
it. -/
theorem reservesExactly_iff_reservable (start total : ℕ)
    (hfit : start + total * pageSize < 2 ^ 64) {events : List (Event Session Call Outcome)}
    {s : Session} (hrun : Run Session.call ⟨new start total, []⟩ events s)
    (hcalls : ∀ e ∈ events, ∀ a n, e.call = .reserve a n → a % pageSize = 0 ∧ 1 ≤ n) :
    (∀ e ∈ events, ∀ a n, e.call = .reserve a n → e.before.vaa.ReservesExactly a n) ↔
      ∀ e ∈ events, ∀ a n, e.call = .reserve a n → Reservable a n e.before.vaa.freeList := by
  refine hrun.forall_iff_of (I := Invariant start (start + total * pageSize)) hcalls
    (invariant_new start total) ?_ ?_
  · intro c s r t hs hcall hdom hresb
    exact (called_of_call hcall).invariant hfit hs fun a n vaa hc =>
      hs.reserve hfit (hdom a n hc).1 (hresb a n hc)
  · intro c s r t hs hcall hdom
    refine forall_congr' fun a => forall_congr' fun n => forall_congr' fun hc => ?_
    obtain ⟨ha, hn⟩ := hdom a n hc
    exact hs.reservesExactly_iff hfit ha hn

/-- The third and fourth of eight pages, and then the last one. -/
theorem reservesExactly_iff_reservable_two :
    ∃ events s, Run Session.call ⟨new 0x1_0000 8, []⟩ events s ∧
      s.vaa.freeList = [⟨0x1_0000, 2⟩, ⟨0x1_4000, 3⟩] ∧
      ((∀ e ∈ events, ∀ a n, e.call = .reserve a n → e.before.vaa.ReservesExactly a n) ↔
        ∀ e ∈ events, ∀ a n, e.call = .reserve a n → Reservable a n e.before.vaa.freeList) := by
  obtain ⟨events, s, hrun, hlist, hcs⟩ := Run.exists_of_execute Session.call
    ⟨new 0x1_0000 8, []⟩ (.reserve 0x1_7000 1 :: .reserve 0x1_2000 2 :: [])
    (Q := fun events s => s.vaa.freeList = [⟨0x1_0000, 2⟩, ⟨0x1_4000, 3⟩] ∧
      ∀ e ∈ events, ∀ a n, e.call = .reserve a n → a % pageSize = 0 ∧ 1 ≤ n)
    ⟨_, rfl, by decide, by simp [pageSize]⟩
  exact ⟨events, s, hrun, hlist, reservesExactly_iff_reservable _ _ (by decide) hrun hcs⟩

/-- Reserving the first page of a block moves the block by one byte: most of the page stays
free, and the last page of the block is lost. -/
theorem reserve_front_stays_free :
    (new 0x1_0000 8).reserve 0x1_0000 1 = .ok (.ok (), ⟨[⟨0x1_0001, 7⟩]⟩) ∧
      ¬ (new 0x1_0000 8).ReservesExactly 0x1_0000 1 := by
  have hcall : (new 0x1_0000 8).reserve 0x1_0000 1 = .ok (.ok (), ⟨[⟨0x1_0001, 7⟩]⟩) := by decide
  refine ⟨hcall, ?_⟩
  rintro ⟨r, vaa', hcall', -, hrem, -⟩
  rw [hcall] at hcall'
  cases hcall'
  have hfree : IsFree ⟨[⟨0x1_0001, 7⟩]⟩ 0x1_0001 :=
    ⟨⟨0x1_0001, 7⟩, mem_singleton_self _, by decide⟩
  exact ((hrem rfl 0x1_0001).mp hfree).2 (by decide)

end Kernel.Memory.VirtualAddressAllocator
