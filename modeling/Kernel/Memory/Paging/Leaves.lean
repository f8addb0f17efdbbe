import Kernel.Memory.Paging.Lookup

/-!
# The entries of a page table in a row

The entries that end the paths of the pages divide the pages into intervals.
-/

namespace Kernel.Memory

open Core Action List

namespace PageTable

variable {pt : PageTable} {s : TableMemory} {x y v : ℕ}

/-! ### Entries -/

def Begins (pt : PageTable) (s : TableMemory) (x : ℕ) : Prop :=
  x % span (pt.view s x).level = 0

lemma begins_iff : pt.Begins s x ↔ chunk (pt.view s x).level x = x :=
  ⟨fun h => Nat.div_mul_cancel (Nat.dvd_of_mod_eq_zero h),
    fun h => Nat.mod_eq_zero_of_dvd (Dvd.intro_left _ h)⟩

lemma Begins.div_eq (h : pt.Begins s x) (hle : x ≤ y) (hlt : y < x + span (pt.view s x).level) :
    y / span (pt.view s x).level = x / span (pt.view s x).level :=
  (div_span_eq_iff (begins_iff.mp h) y).mpr ⟨hle, hlt⟩

lemma Begins.end_le (h : pt.Begins s x) (hx : x < halfPages) :
    x + span (pt.view s x).level ≤ halfPages := by
  have hlvl := view_level_lt pt s x
  rw [Begins] at h
  generalize (pt.view s x).level = lvl at *
  simp only [halfPages] at *
  interval_cases lvl <;> simp only [span] at * <;> omega

lemma Begins.view_eq (h : pt.Begins s x) (hx : x < halfPages) (hle : x ≤ y)
    (hlt : y < x + span (pt.view s x).level) : pt.view s y = pt.view s x :=
  view_eq_of_span (by have := h.end_le hx; omega) hx (h.div_eq hle hlt)

lemma Begins.not_begins (h : pt.Begins s x) (hx : x < halfPages) (hle : x < y)
    (hlt : y < x + span (pt.view s x).level) : ¬ pt.Begins s y := by
  intro hy
  rw [Begins, h.view_eq hx hle.le hlt] at hy
  obtain ⟨a, rfl⟩ := Nat.dvd_of_mod_eq_zero hy
  have hdiv := h.div_eq hle.le hlt
  rw [Nat.mul_div_cancel_left _ (span_pos _)] at hdiv
  have hmul := Nat.div_mul_cancel (Nat.dvd_of_mod_eq_zero h)
  rw [← hdiv, mul_comm] at hmul
  omega

lemma view_chunk (hx : x < halfPages) :
    pt.view s (chunk (pt.view s x).level x) = pt.view s x :=
  view_eq_of_span ((chunk_le _ _).trans_lt hx) hx (div_chunk _ _)

lemma begins_chunk (hx : x < halfPages) : pt.Begins s (chunk (pt.view s x).level x) := by
  rw [begins_iff, view_chunk hx, chunk, div_chunk]
  rfl

lemma Begins.next (h : pt.Begins s x) (hlt : x + span (pt.view s x).level < halfPages) :
    pt.Begins s (x + span (pt.view s x).level) := by
  have hpos := span_pos (pt.view s x).level
  generalize hy : x + span (pt.view s x).level = y at *
  have hview : pt.view s (chunk (pt.view s y).level y) = pt.view s y := view_chunk hlt
  have hle := chunk_le (pt.view s y).level y
  have hund := lt_chunk_add_span (pt.view s y).level y
  have hbeg : pt.Begins s (chunk (pt.view s y).level y) := begins_chunk hlt
  -- otherwise one of the two entries would begin under the other
  refine begins_iff.mpr (le_antisymm hle (Nat.le_of_not_lt fun hbef => ?_))
  rcases lt_trichotomy (chunk (pt.view s y).level y) x with hfro | heq | hbeh
  · exact hbeg.not_begins (by omega) hfro (by rw [hview]; omega) h
  · have hsame : pt.view s y = pt.view s x := by rw [← hview, heq]
    rw [hsame] at heq hund
    omega
  · exact h.not_begins (by omega) hbeh (by omega) hbeg

lemma Begins.chunk_le_iff (hy : pt.Begins s y) (hlt : y < halfPages) (hx : x < halfPages) :
    chunk (pt.view s x).level x ≤ y ↔ x < y + span (pt.view s y).level := by
  have hbeg : pt.Begins s (chunk (pt.view s x).level x) := begins_chunk hx
  have hle := chunk_le (pt.view s x).level x
  have hund := lt_chunk_add_span (pt.view s x).level x
  have hview : pt.view s (chunk (pt.view s x).level x) = pt.view s x := view_chunk hx
  constructor
  · intro hge
    rcases eq_or_lt_of_le hge with rfl | hgt
    · rwa [hview]
    · by_contra hbef
      have hpos := span_pos (pt.view s y).level
      refine hbeg.not_begins (by omega) hgt ?_ hy
      rw [hview]
      omega
  · intro hend
    by_contra hgt
    exact hy.not_begins hlt (Nat.lt_of_not_le hgt) (by omega) hbeg

/-! ### Leaves -/

def tag (pt : PageTable) : ℕ := if pt.highAddresses then 0xffff else 0x0000

def address (pt : PageTable) (x : ℕ) : ℕ := pt.tag * 2 ^ 48 + x * pageSize

lemma tag_le (pt : PageTable) : pt.tag ≤ 0xffff := by
  rw [tag]
  split_ifs <;> decide

lemma address_lt_iff : pt.address x < pt.address y ↔ x < y := by
  simp only [address, pageSize]
  omega

def IsLeaf (pt : PageTable) (s : TableMemory) (x : ℕ) : Prop :=
  pt.Begins s x ∧ pt.frame s x ≠ none

instance (pt : PageTable) (s : TableMemory) (x : ℕ) : Decidable (pt.IsLeaf s x) :=
  inferInstanceAs (Decidable (_ % _ = 0 ∧ _ ≠ none))

def region (pt : PageTable) (s : TableMemory) (x : ℕ) : MappedRegion where
  basePhysAddr := (pt.frame s x).getD 0
  baseVirtAddr := pt.address x
  pageCount := span (pt.view s x).level

lemma IsLeaf.base_eq (h : pt.IsLeaf s x) : (pt.view s x).level ≠ 0 ∧ ∃ base,
    (pt.view s x).entry.baseAddress (pt.view s x).level = some base ∧
      pt.frame s x = some base := by
  obtain ⟨a, ha⟩ := Option.ne_none_iff_exists'.mp h.2
  have hlev := (valid_of_frame ha).2
  have hmod : x % span (pt.view s x).level = 0 := h.1
  refine ⟨hlev, a, ?_, ha⟩
  rw [frame_eq_base hlev, hmod] at ha
  simpa using ha

lemma IsLeaf.frame_eq (h : pt.IsLeaf s x) : pt.frame s x = some (pt.region s x).basePhysAddr := by
  obtain ⟨-, base, -, hfr⟩ := h.base_eq
  rw [region, hfr]
  rfl

lemma IsLeaf.frame_add {j : ℕ} (h : pt.IsLeaf s x) (hx : x < halfPages)
    (hj : j < span (pt.view s x).level) :
    pt.frame s (x + j) = some ((pt.region s x).basePhysAddr + j * pageSize) := by
  obtain ⟨hlev, base, hbase, hfr⟩ := h.base_eq
  have hview : pt.view s x = ⟨(pt.view s x).level, (pt.view s x).entry⟩ := rfl
  rw [frame_under_entry hview hlev h.1 hj (h.1.end_le hx), hbase, region, hfr]
  rfl

lemma exists_leaf {a : ℕ} (hx : x < halfPages) (h : pt.frame s x = some a) :
    ∃ y j, pt.IsLeaf s y ∧ j < span (pt.view s y).level ∧ x = y + j := by
  have hview : pt.view s (chunk (pt.view s x).level x) = pt.view s x := view_chunk hx
  have hle := chunk_le (pt.view s x).level x
  have hlt := lt_chunk_add_span (pt.view s x).level x
  refine ⟨chunk (pt.view s x).level x, x - chunk (pt.view s x).level x, ⟨begins_chunk hx, ?_⟩, ?_,
    by omega⟩
  · obtain ⟨-, hlev⟩ := valid_of_frame h
    rw [frame_eq_base hlev] at h
    obtain ⟨base, hbase, -⟩ := Option.map_eq_some_iff.mp h
    rw [frame_eq_base (by rwa [hview]), hview, hbase]
    exact nofun
  · rw [hview]
    omega

lemma IsLeaf.pageCount_eq (h : pt.IsLeaf s x) : (pt.region s x).pageCount = 1 ∨
    (pt.region s x).pageCount = 512 ∨ (pt.region s x).pageCount = 262144 := by
  obtain ⟨hlev, -⟩ := h.base_eq
  have hlvl := view_level_lt pt s x
  rw [region]
  dsimp only
  generalize (pt.view s x).level = lvl at *
  interval_cases lvl <;> simp [span] at *

/-! ### Addresses -/

lemma address_lt (h : x < halfPages) : pt.address x < 2 ^ 64 := by
  have htag := pt.tag_le
  simp only [address, halfPages, pageSize] at *
  omega

lemma address_inj : pt.address x = pt.address y ↔ x = y := by
  simp only [address, pageSize]
  omega

lemma address_add (pt : PageTable) (x n : ℕ) :
    pt.address (x + n) = pt.address x + n * pageSize := by
  simp only [address, pageSize]
  omega

lemma eq_address (hlt : v < 2 ^ 64) (htag : pt.tagMatches (VirtualAddress.toParts v).tag = true) :
    v = pt.address (pageOf v) + v % pageSize := by
  rw [tagMatches_iff, toParts_eq] at htag
  change _ = pt.tag at htag
  rw [address, ← htag]
  simp only [pageOf, halfPages, pageSize]
  omega

lemma pageOf_address_add {k : ℕ} (h : x + k / pageSize < halfPages) :
    pageOf (pt.address x + k) = x + k / pageSize := by
  simp only [pageOf, address, halfPages, pageSize] at *
  omega

lemma leafAddress_address {j : ℕ} (hx : x < halfPages) (hj : j < pageSize) :
    pt.leafAddress s (pt.address x + j) = (pt.frame s x).map (· + j) := by
  have htag := pt.tag_le
  have hpage : pageOf (pt.address x + j) = x := by
    have hzero : j / pageSize = 0 := Nat.div_eq_of_lt hj
    rw [pageOf_address_add (by omega), hzero, add_zero]
  have hoff : (pt.address x + j) % pageSize = j := by
    simp only [address, pageSize] at *
    omega
  have hmat : pt.tagMatches (VirtualAddress.toParts (pt.address x + j)).tag = true := by
    rw [tagMatches_iff, toParts_eq]
    change _ = pt.tag
    simp only [address, halfPages, pageSize] at *
    omega
  rw [leafAddress, if_pos hmat, hpage, hoff]

/-! ### The leaves in order -/

def leavesFrom (pt : PageTable) (s : TableMemory) (x : ℕ) : List ℕ :=
  (List.range' x (halfPages - x)).filter fun y => pt.IsLeaf s y

lemma mem_leavesFrom : y ∈ pt.leavesFrom s x ↔ x ≤ y ∧ y < halfPages ∧ pt.IsLeaf s y := by
  rw [leavesFrom, mem_filter, mem_range'_1, decide_eq_true_iff, and_assoc]
  exact ⟨fun ⟨hle, hlt, hleaf⟩ => ⟨hle, by omega, hleaf⟩,
    fun ⟨hle, hlt, hleaf⟩ => ⟨hle, by omega, hleaf⟩⟩

lemma leavesFrom_sorted (pt : PageTable) (s : TableMemory) (x : ℕ) :
    (pt.leavesFrom s x).Pairwise (· < ·) :=
  List.Pairwise.filter _ pairwise_lt_range'

lemma leavesFrom_eq_of_not (hxy : x ≤ y) (hy : y ≤ halfPages)
    (hno : ∀ z, x ≤ z → z < y → ¬ pt.IsLeaf s z) : pt.leavesFrom s x = pt.leavesFrom s y := by
  have hspl : halfPages - x = (y - x) + (halfPages - y) := by omega
  rw [leavesFrom, hspl, ← range'_append_1, filter_append, Nat.add_sub_cancel' hxy,
    leavesFrom, filter_eq_nil_iff.mpr, nil_append]
  intro z hz
  rw [mem_range'_1] at hz
  simpa using hno z hz.1 (by omega)

lemma IsLeaf.leavesFrom_eq (h : pt.IsLeaf s x) (hx : x < halfPages) :
    pt.leavesFrom s x = x :: pt.leavesFrom s (x + span (pt.view s x).level) := by
  have hend := h.1.end_le hx
  have hpos := span_pos (pt.view s x).level
  have hcons : pt.leavesFrom s x = x :: pt.leavesFrom s (x + 1) := by
    obtain ⟨n, hn⟩ : ∃ n, halfPages - x = n + 1 := ⟨halfPages - x - 1, by omega⟩
    rw [leavesFrom, leavesFrom, hn, range'_succ, filter_cons_of_pos (by simpa using h)]
    rw [show halfPages - (x + 1) = n by omega]
  rw [hcons, leavesFrom_eq_of_not (y := x + span (pt.view s x).level) (by omega) hend]
  exact fun z hle hlt hleaf => h.1.not_begins hx hle hlt hleaf.1

end PageTable

end Kernel.Memory
