import Kernel.Core.Runs
import Kernel.Memory.VirtualAddressAllocator.Properties

/-!
# The order of the free list

`reserve` and `free` stop at the first block behind their range, as if the list were sorted.
-/

namespace Kernel.Memory.VirtualAddressAllocator

open Core List Session

/-! ### Calls -/

inductive Call where
  | reserve (startAddress pageCount : ℕ)
  | alloc (pageCount : ℕ)
  | free (a : Allocation)
  deriving DecidableEq

abbrev Outcome := Checked (Except MemoryError ℕ)

def Session.call : Call → Session → Option (Outcome × Session)
  | .reserve startAddress pageCount, s =>
    match s.vaa.reserve startAddress pageCount with
    | .ok (.ok _, vaa) =>
      some (.ok (.ok startAddress), ⟨vaa, ⟨startAddress, pageCount⟩ :: s.live⟩)
    | .ok (.error e, vaa) => some (.ok (.error e), ⟨vaa, s.live⟩)
    | .error p => some (.error p, s)
  | .alloc pageCount, s =>
    match s.vaa.alloc pageCount with
    | .ok (.ok a, vaa) => some (.ok (.ok a), ⟨vaa, ⟨a, pageCount⟩ :: s.live⟩)
    | .ok (.error e, vaa) => some (.ok (.error e), ⟨vaa, s.live⟩)
    | .error p => some (.error p, s)
  | .free a, s =>
    if a ∈ s.live then
      match s.vaa.free a.address a.pageCount with
      | .ok vaa => some (.ok (.ok a.address), ⟨vaa, s.live.erase a⟩)
      | .error p => some (.error p, s)
    else none

inductive Called (s : Session) : Call → Outcome → Session → Prop where
  | reserve {a n vaa} (h : s.vaa.reserve a n = .ok (.ok (), vaa)) :
      Called s (.reserve a n) (.ok (.ok a)) ⟨vaa, ⟨a, n⟩ :: s.live⟩
  | reserveError {a n e vaa} (h : s.vaa.reserve a n = .ok (.error e, vaa)) :
      Called s (.reserve a n) (.ok (.error e)) ⟨vaa, s.live⟩
  | reservePanic {a n p} (h : s.vaa.reserve a n = .error p) :
      Called s (.reserve a n) (.error p) s
  | alloc {n a vaa} (h : s.vaa.alloc n = .ok (.ok a, vaa)) :
      Called s (.alloc n) (.ok (.ok a)) ⟨vaa, ⟨a, n⟩ :: s.live⟩
  | allocError {n e vaa} (h : s.vaa.alloc n = .ok (.error e, vaa)) :
      Called s (.alloc n) (.ok (.error e)) ⟨vaa, s.live⟩
  | allocPanic {n p} (h : s.vaa.alloc n = .error p) : Called s (.alloc n) (.error p) s
  | free {a vaa} (hlive : a ∈ s.live) (h : s.vaa.free a.address a.pageCount = .ok vaa) :
      Called s (.free a) (.ok (.ok a.address)) ⟨vaa, s.live.erase a⟩
  | freePanic {a p} (hlive : a ∈ s.live) (h : s.vaa.free a.address a.pageCount = .error p) :
      Called s (.free a) (.error p) s

variable {c : Call} {s t : Session} {r : Outcome}

lemma called_of_call (h : s.call c = some (r, t)) :
    Called s c r t := by
  cases c with
  | reserve a n =>
    simp only [call] at h
    split at h
    · cases h
      exact .reserve ‹_›
    · cases h
      exact .reserveError ‹_›
    · cases h
      exact .reservePanic ‹_›
  | alloc n =>
    simp only [call] at h
    split at h
    · cases h
      exact .alloc ‹_›
    · cases h
      exact .allocError ‹_›
    · cases h
      exact .allocPanic ‹_›
  | free a =>
    simp only [call] at h
    split_ifs at h with hlive
    split at h
    · cases h
      exact .free hlive ‹_›
    · cases h
      exact .freePanic hlive ‹_›

lemma reserve_error {vaa vaa' : VirtualAddressAllocator} {a n : ℕ} {e : MemoryError}
    (h : vaa.reserve a n = .ok (.error e, vaa')) : vaa' = vaa := by
  simp only [reserve, bind_eq_ok] at h
  obtain ⟨_, -, found, -, h⟩ := h
  cases found with
  | none =>
    cases h
    rfl
  | some left => cases h

lemma Called.invariant {lo hi : ℕ} (hhi : hi < 2 ^ 64)
    (h : Called s c r t) (hs : Invariant lo hi s)
    (hrsv : ∀ a n vaa, c = .reserve a n → s.vaa.reserve a n = .ok (.ok (), vaa) →
      Invariant lo hi ⟨vaa, ⟨a, n⟩ :: s.live⟩) :
    Invariant lo hi t := by
  cases h with
  | reserve h => exact hrsv _ _ _ rfl h
  | reserveError h =>
    rw [reserve_error h]
    exact hs
  | reservePanic h | allocPanic h | freePanic hlive h => exact hs
  | alloc h => exact (Step.alloc h).invariant hhi hs
  | allocError h => exact (Step.allocError h).invariant hhi hs
  | free hlive h => exact (Step.free hlive h).invariant hhi hs

/-! ### Sorted lists -/

def Sorted (blocks : List FreeBlock) : Prop := blocks.Pairwise (·.address < ·.address)

instance (blocks : List FreeBlock) : Decidable (Sorted blocks) :=
  inferInstanceAs (Decidable (List.Pairwise _ _))

variable {blocks : List FreeBlock} {lo hi a n : ℕ}

lemma sorted_cons {b : FreeBlock} :
    Sorted (b :: blocks) ↔ (∀ c ∈ blocks, b.address < c.address) ∧ Sorted blocks :=
  pairwise_cons

lemma sorted_append {passed : List FreeBlock} :
    Sorted (passed ++ blocks) ↔ Sorted passed ∧ Sorted blocks ∧
      ∀ c ∈ passed, ∀ b ∈ blocks, c.address < b.address :=
  pairwise_append

def AllocKeepsOrder (n : ℕ) (blocks : List FreeBlock) : Prop :=
  ∀ b ∈ blocks.find? (n ≤ ·.size), b.size ≠ n →
    ∀ c ∈ blocks, b.address < c.address → b.address + n * pageSize < c.address

lemma sorted_of_allocFrom {left : List FreeBlock} (hhi : hi < 2 ^ 64) (hw : Within lo hi blocks)
    (hsort : Sorted blocks) (h : allocFrom n blocks = .ok (some (a, left))) :
    Sorted left ↔ AllocKeepsOrder n blocks := by
  obtain ⟨passed, b, rest, rfl, hsm, rfl, hleft⟩ := allocFrom_split h
  obtain ⟨hpass, hb, hfro⟩ := sorted_append.mp hsort
  obtain ⟨hlt, hrest⟩ := sorted_cons.mp hb
  have hge : n ≤ b.size := hleft.elim (·.1.ge) (·.1.le)
  have hfind : (passed ++ b :: rest).find? (n ≤ ·.size) = some b :=
    List.find?_eq_some_iff_append.mpr ⟨by simpa using hge, passed, rest, rfl, by simpa using hsm⟩
  simp only [AllocKeepsOrder, hfind, Option.mem_def, Option.some.injEq, forall_eq']
  rcases hleft with ⟨heq, rfl⟩ | ⟨hne, rfl⟩
  · refine iff_of_true ?_ fun hne => absurd heq hne
    exact sorted_append.mpr
      ⟨hpass, hrest, fun c hc d hd => hfro c hc d (mem_cons_of_mem b hd)⟩
  · have hle : b.address + n * pageSize ≤ hi := by
      have hb := hw b (by simp)
      simp only [pageSize] at hb ⊢
      omega
    rw [add_end hhi hle, sorted_append, sorted_cons, and_iff_right hpass, and_iff_left hrest,
      forall_mem_append, forall_mem_cons]
    refine ⟨fun hkp _ => ⟨fun c hc hbc => ?_, fun hbb => absurd hbb (lt_irrefl _),
      fun c hc _ => hkp.1 c hc⟩, fun hkp => ?_⟩
    · exact absurd (hfro c hc b mem_cons_self) hbc.asymm
    · obtain ⟨-, -, hnext⟩ := hkp hne.ne'
      refine ⟨fun c hc => hnext c hc (hlt c hc), fun c hc => forall_mem_cons.mpr ⟨?_, ?_⟩⟩
      · exact (hfro c hc b mem_cons_self).trans_le (Nat.le_add_right _ _)
      · exact fun d hd => hfro c hc d (mem_cons_of_mem b hd)

def Touches (a n : ℕ) (b : FreeBlock) : Prop :=
  a + n * pageSize = b.address ∨ a = b.address + b.size * pageSize

def Merges (a n : ℕ) (blocks : List FreeBlock) : Prop :=
  ∃ b ∈ blocks, Touches a n b ∧ ∀ c ∈ blocks, c.address < b.address → c.address ≤ a

def FreeKeepsOrder (a n : ℕ) (blocks : List FreeBlock) : Prop :=
  Merges a n blocks ∨ ∀ b ∈ blocks, b.address < a

def Apart (a n : ℕ) (blocks : List FreeBlock) : Prop :=
  ∀ b ∈ blocks, b.address = a → b.size = 0 ∨ n = 0

lemma sorted_of_mergeInto {merged : List FreeBlock} (hhi : hi < 2 ^ 64) (hw : Within lo hi blocks)
    (hsort : Sorted blocks) (hap : Apart a n blocks)
    (h : mergeInto a (a + n * pageSize) n blocks = .ok (some merged)) :
    Sorted merged ∧ Merges a n blocks := by
  obtain ⟨passed, b, rest, rfl, hpass, hmrg⟩ := mergeInto_split h
  obtain ⟨hsorted_passed, hb, hfro⟩ := sorted_append.mp hsort
  obtain ⟨hlt, hrest⟩ := sorted_cons.mp hb
  rw [add_end hhi (hw b (by simp)).2] at hmrg
  -- a block that was passed begins in front of the range
  have hst : ∀ c ∈ passed, c.address < a := fun c hc => by
    obtain ⟨hbef, haft, hle⟩ := hpass c hc
    rw [add_end hhi (hw c (by simp [hc])).2] at haft
    refine lt_of_le_of_ne hle fun heq => ?_
    rcases hap c (by simp [hc]) heq with hzero | hzero
    · rw [hzero, zero_mul] at haft
      omega
    · rw [hzero, zero_mul] at hbef
      omega
  have hmer : Touches a n b → Merges a n (passed ++ b :: rest) := fun htou =>
    ⟨b, by simp, htou, forall_mem_append.mpr ⟨fun c hc _ => (hst c hc).le,
      forall_mem_cons.mpr ⟨fun hbb => absurd hbb (lt_irrefl _),
        fun c hc hcb => absurd (hlt c hc) hcb.asymm⟩⟩⟩
  rcases hmrg with ⟨hbef, rfl⟩ | ⟨haft, rfl⟩
  · refine ⟨sorted_append.mpr ⟨hsorted_passed, sorted_cons.mpr ⟨fun c hc => ?_, hrest⟩,
      fun c hc => forall_mem_cons.mpr ⟨hst c hc,
        fun d hd => hfro c hc d (mem_cons_of_mem b hd)⟩⟩, hmer (.inl hbef)⟩
    have hbc := hlt c hc
    dsimp only
    omega
  · exact ⟨sorted_append.mpr ⟨hsorted_passed, sorted_cons.mpr ⟨hlt, hrest⟩,
      fun c hc => forall_mem_cons.mpr (forall_mem_cons.mp (hfro c hc))⟩, hmer (.inr haft)⟩

lemma not_merges_of_mergeInto (hhi : hi < 2 ^ 64) (hw : Within lo hi blocks)
    (hsort : Sorted blocks) (h : mergeInto a (a + n * pageSize) n blocks = .ok none) :
    ¬ Merges a n blocks := by
  induction blocks with
  | nil =>
    rintro ⟨b, hb, -⟩
    cases hb
  | cons b rest ih =>
    obtain ⟨hb, hrest⟩ := within_cons.mp hw
    obtain ⟨hlt, hsort'⟩ := sorted_cons.mp hsort
    simp only [mergeInto, bind_eq_ok, checkedMul_eq_ok] at h
    obtain ⟨_, ⟨_, rfl⟩, h⟩ := h
    rw [add_end hhi hb.2] at h
    split_ifs at h with hbef haft hpast
    · obtain ⟨_, -, hret⟩ := bind_eq_ok.mp h
      cases hret
    · obtain ⟨_, -, hret⟩ := bind_eq_ok.mp h
      cases hret
    · rintro ⟨b', hb', htou, hpass⟩
      rcases mem_cons.mp hb' with rfl | hb'
      · exact htou.elim hbef haft
      · exact absurd (hpass b mem_cons_self (hlt b' hb')) (by omega)
    · obtain ⟨_ | _, hfd, hret⟩ := bind_eq_ok.mp h
      · rintro ⟨b', hb', htou, hpass⟩
        rcases mem_cons.mp hb' with rfl | hb'
        · exact htou.elim hbef haft
        · exact ih hrest hsort' hfd
            ⟨b', hb', htou, fun c hc => hpass c (mem_cons_of_mem b hc)⟩
      · cases hret

lemma sorted_of_free {vaa vaa' : VirtualAddressAllocator} (hhi : hi < 2 ^ 64)
    (hw : Within lo hi vaa.freeList) (hsort : Sorted vaa.freeList)
    (hap : Apart a n vaa.freeList) (ha : a + n * pageSize ≤ hi) (h : vaa.free a n = .ok vaa') :
    Sorted vaa'.freeList ↔ FreeKeepsOrder a n vaa.freeList := by
  simp only [free, bind_eq_ok, checkedMul_eq_ok] at h
  obtain ⟨_, ⟨_, rfl⟩, merged, hmrg, h⟩ := h
  rw [add_end hhi ha] at hmrg
  split at h
  · cases h
    obtain ⟨hmerged_sorted, hmer⟩ := sorted_of_mergeInto hhi hw hsort hap hmrg
    exact ⟨fun _ => .inl hmer, fun _ => hmerged_sorted⟩
  · cases h
    have hnot := not_merges_of_mergeInto hhi hw hsort hmrg
    rw [FreeKeepsOrder, or_iff_right hnot, sorted_append, and_iff_right hsort]
    simp [Sorted]

/-! ### Runs -/

lemma Invariant.apart {live : Allocation} (hs : Invariant lo hi s)
    (hlive : live ∈ s.live) : Apart live.address live.pageCount s.vaa.freeList := by
  intro b hb heq
  by_contra hne
  obtain ⟨hsize, hcnt⟩ := not_or.mp hne
  have hpos : ∀ k, k ≠ 0 → 0 < k * pageSize := fun k hk =>
    mul_pos (pos_of_ne_zero hk) (by decide)
  have hle := hs.partitions.coverage_le_one b.address
  have hfree : 0 < coverage (s.vaa.freeList.map FreeBlock.range) b.address :=
    coverage_pos_iff.mpr ⟨b.range, mem_map_of_mem hb, le_rfl, by
      have := hpos _ hsize
      dsimp only [FreeBlock.range]
      omega⟩
  have hused : 0 < coverage (s.live.map Allocation.range) b.address :=
    coverage_pos_iff.mpr ⟨live.range, mem_map_of_mem hlive, heq.ge, by
      have := hpos _ hcnt
      dsimp only [Allocation.range]
      omega⟩
  rw [Session.ranges, coverage_append] at hle
  omega

def KeepsOrder (blocks : List FreeBlock) : Call → Prop
  | .reserve _ _ => True
  | .alloc n => AllocKeepsOrder n blocks
  | .free a => FreeKeepsOrder a.address a.pageCount blocks

lemma Called.sorted_iff (hhi : hi < 2 ^ 64) (h : Called s c r t) (hc : ∀ a n, c ≠ .reserve a n)
    (hs : Invariant lo hi s) (hsort : Sorted s.vaa.freeList) :
    Sorted t.vaa.freeList ↔ KeepsOrder s.vaa.freeList c := by
  cases h with
  | reserve h | reserveError h | reservePanic h => exact absurd rfl (hc _ _)
  | alloc h => exact sorted_of_allocFrom hhi hs.free_within hsort (alloc_ok h)
  | @allocError n e vaa h =>
    obtain ⟨rfl, hsm⟩ := alloc_error h
    refine ⟨fun _ b hb => ?_, fun _ => hsort⟩
    have hge : n ≤ b.size := by simpa using List.find?_some hb
    exact absurd hge (hsm b (mem_of_find?_eq_some hb)).not_ge
  | allocPanic h =>
    obtain ⟨_, hret⟩ := alloc_returns _ hhi hs.free_within
    rw [hret] at h
    cases h
  | free hlive h =>
    exact sorted_of_free hhi hs.free_within hsort (hs.apart hlive) (hs.live_within _ hlive).2 h
  | freePanic hlive h =>
    obtain ⟨_, hret⟩ := free_returns hhi hs.free_within (hs.live_within _ hlive).2
    rw [hret] at h
    cases h

/-- The list stays sorted along a run of `alloc` and `free` exactly if every range that is freed
is merged with a block or lies behind all of them, and no `alloc` passes an empty block. -/
theorem sorted_iff_keepsOrder (start total : ℕ) (hfit : start + total * pageSize < 2 ^ 64)
    {events : List (Event Session Call Outcome)} {s : Session}
    (hrun : Run call ⟨new start total, []⟩ events s)
    (hcalls : ∀ e ∈ events, ∀ a n, e.call ≠ .reserve a n) :
    (∀ e ∈ events, Sorted e.after.vaa.freeList) ↔
      ∀ e ∈ events, KeepsOrder e.before.vaa.freeList e.call := by
  refine hrun.forall_iff_of (I := fun s => Invariant start (start + total * pageSize) s ∧
    Sorted s.vaa.freeList) hcalls ⟨invariant_new start total, pairwise_singleton _ _⟩ ?_ ?_
  · rintro c s r t ⟨hs, hsort⟩ hcall hc hkp
    have hcal := called_of_call hcall
    exact ⟨hcal.invariant hfit hs fun a n _ heq => absurd heq (hc a n),
      (hcal.sorted_iff hfit hc hs hsort).mpr hkp⟩
  · rintro c s r t ⟨hs, hsort⟩ hcall hc
    exact (called_of_call hcall).sorted_iff hfit hc hs hsort

/-- Two pages out of eight, and the second one is freed first. -/
theorem sorted_iff_keepsOrder_last_first :
    ∃ events s, Run call ⟨new 0x1_0000 8, []⟩ events s ∧ events.length = 4 ∧
      ((∀ e ∈ events, Sorted e.after.vaa.freeList) ↔
        ∀ e ∈ events, KeepsOrder e.before.vaa.freeList e.call) := by
  obtain ⟨events, s, hrun, hlen, hcs⟩ := Run.exists_of_execute call
    ⟨new 0x1_0000 8, []⟩
    (.free ⟨0x1_0000, 1⟩ :: .free ⟨0x1_1000, 1⟩ :: .alloc 1 :: .alloc 1 :: [])
    (Q := fun events s => events.length = 4 ∧ ∀ e ∈ events, ∀ a n, e.call ≠ .reserve a n)
    ⟨_, rfl, rfl, by simp⟩
  exact ⟨events, s, hrun, hlen, sorted_iff_keepsOrder _ _ (by decide) hrun hcs⟩

/-- Of two pages the first one is freed while the second one is in use: it ends up behind the block
that begins after it. -/
theorem free_appends_out_of_order :
    ∃ events s, Run call ⟨new 0x1_0000 8, []⟩ events s ∧
      s.vaa.freeList = [⟨0x1_2000, 6⟩, ⟨0x1_0000, 1⟩] ∧ ¬ Sorted s.vaa.freeList :=
  Run.exists_of_execute call ⟨new 0x1_0000 8, []⟩
    (.free ⟨0x1_0000, 1⟩ :: .alloc 1 :: .alloc 1 :: []) ⟨_, rfl, by decide, by decide⟩

end Kernel.Memory.VirtualAddressAllocator
