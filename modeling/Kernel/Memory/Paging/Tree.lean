import Kernel.Memory.Paging.Basic
import Kernel.Memory.PhysicalMemoryAllocator.Properties

/-!
# The tree of a page table

`view` is the entry that ends the path of a page, with its level; everything that a page table says
about a page is a function of its view.
-/

namespace Kernel.Memory

open Core RadixTree PageTableEntry PageTable Nat

def span (lvl : ℕ) : ℕ := 512 ^ (3 - lvl)

def digit (page lvl : ℕ) : Fin 512 := ⟨page / span lvl % 512, mod_lt _ (by decide)⟩

def digits (page : ℕ) : List (Fin 512) := (List.range 4).map (digit page)

def pathTo (page lvl : ℕ) : List (Fin 512) := (List.range lvl).map (digit page)

def halfPages : ℕ := 2 ^ 36

lemma pathTo_succ (page lvl : ℕ) : pathTo page (lvl + 1) = pathTo page lvl ++ [digit page lvl] := by
  rw [pathTo, pathTo, List.range_succ, List.map_append, List.map_singleton]

@[simp] lemma length_pathTo (page lvl : ℕ) : (pathTo page lvl).length = lvl := by simp [pathTo]

lemma digits_eq_append {page lvl : ℕ} (hlvl : lvl < 4) :
    digits page = pathTo page lvl ++ digit page lvl :: (digits page).drop (lvl + 1) := by
  interval_cases lvl <;> rfl

/-! ### Indices -/

section indices

variable {x y lvl k n : ℕ}

lemma span_pos (lvl : ℕ) : 0 < span lvl := Nat.pow_pos (by decide)

lemma span_dvd_span {i j : ℕ} (h : j ≤ i) : span i ∣ span j :=
  pow_dvd_pow 512 (by omega)

lemma span_eq_mul (hlvl : lvl < 3) : span lvl = span (lvl + 1) * 512 := by
  have hsucc : 3 - lvl = 3 - (lvl + 1) + 1 := by omega
  rw [span, hsucc, pow_succ]
  rfl

lemma div_span_div (x : ℕ) (hlvl : lvl < 3) : x / span (lvl + 1) / 512 = x / span lvl := by
  rw [span_eq_mul hlvl, Nat.div_div_eq_div_mul]

lemma div_span_zero_lt_iff : x / span 0 < 512 ↔ x < halfPages :=
  div_lt_iff_lt_mul (by decide)

lemma val_digit (x lvl : ℕ) : (digit x lvl).val = x / span lvl % 512 := rfl

lemma digit_eq_digit_iff : digit x lvl = digit y lvl ↔ x / span lvl % 512 = y / span lvl % 512 :=
  Fin.ext_iff

lemma digit_eq_zero (hdvd : span lvl ∣ y) (hk : lvl < k) (hk3 : k ≤ 3) : (digit y k).val = 0 := by
  obtain ⟨j, rfl⟩ := Nat.exists_eq_add_of_lt hk
  obtain ⟨z, rfl⟩ := (span_dvd_span (le_add_right lvl j)).trans hdvd
  rw [val_digit, span_eq_mul (by omega), mul_assoc, Nat.mul_div_cancel_left _ (span_pos _),
    mul_mod_right]

lemma pathTo_eq_pathTo_iff : pathTo x n = pathTo y n ↔ ∀ k < n, digit x k = digit y k := by
  rw [pathTo, pathTo, List.map_inj_left]
  exact forall_congr' fun k => imp_congr_left List.mem_range

lemma pathTo_succ_eq_iff (hx : x < halfPages) (hy : y < halfPages) (hlvl : lvl < 4) :
    pathTo x (lvl + 1) = pathTo y (lvl + 1) ↔ x / span lvl = y / span lvl := by
  rw [pathTo_eq_pathTo_iff, forall_lt_succ_right, digit_eq_digit_iff]
  induction lvl with
  | zero =>
    have hx' := div_span_zero_lt_iff.mpr hx
    have hy' := div_span_zero_lt_iff.mpr hy
    rw [mod_eq_of_lt hx', mod_eq_of_lt hy']
    exact and_iff_right fun k hk => absurd hk (not_lt_zero k)
  | succ lvl ih =>
    rw [forall_lt_succ_right, digit_eq_digit_iff, ih (by omega), ← div_span_div x (by omega),
      ← div_span_div y (by omega)]
    omega

lemma pathTo_prefix_digits_iff (hx : x < halfPages) (hy : y < halfPages) (hlvl : lvl < 4) :
    pathTo y (lvl + 1) <+: digits x ↔ x / span lvl = y / span lvl := by
  have htake : (digits x).take (lvl + 1) = pathTo x (lvl + 1) := by
    rw [digits_eq_append hlvl, pathTo_succ, List.append_cons, List.take_left' (by simp)]
  rw [List.prefix_iff_eq_take, length_pathTo, htake, eq_comm, pathTo_succ_eq_iff hx hy hlvl]

end indices

/-! ### Entries -/

def tableChild (lvl : ℕ) (e : PageTableEntry) : Option ℕ := e.tableRef lvl

lemma tableChild_invalid (lvl : ℕ) : tableChild lvl .invalid = none := by
  simp [tableChild, tableRef, tablePhyAddr, invalid]

lemma toNat_addressField {address : ℕ} (hlt : address < 2 ^ 48) :
    (BitVec.ofNat 36 (address >>> 12)).toNat = address / pageSize := by
  rw [BitVec.toNat_ofNat, shiftRight_eq_div_pow, pageSize]
  omega

lemma tableChild_tableDesc {lvl table : ℕ} (hlvl : lvl < 3) (hal : table % pageSize = 0)
    (hlt : table < 2 ^ 48) : tableChild lvl (.tableDesc table) = some table := by
  have haddr : (table / pageSize) <<< 12 = table := by
    simp only [pageSize] at hal ⊢
    rw [shiftLeft_eq]
    omega
  rw [tableChild, tableRef, if_neg (by omega), tablePhyAddr,
    tableDesc, toNat_addressField hlt, haddr]
  rfl

namespace PageTable

/-! ### Views -/

structure View where
  level : ℕ
  entry : PageTableEntry

def view (pt : PageTable) (s : TableMemory) (page : ℕ) : View :=
  match lookup tableChild s.tables 0 pt.level0PhyAddr (digits page) with
  | some (lvl, e, _) => ⟨lvl, e⟩
  | none => ⟨0, .invalid⟩

def WellFormed (pt : PageTable) (s : TableMemory) : Prop :=
  Distinct tableChild s.tables pt.level0PhyAddr

structure Supplied (pt : PageTable) (s : TableMemory) : Prop where
  aligned : s.pma.memoryStart % pageSize = 0
  end_le : s.pma.memoryStart + s.pma.allocatedPages.length * pageSize ≤ 2 ^ 48
  fresh : ∀ i, s.pma.allocatedPages[i]? = some false → ∀ q,
    follow tableChild s.tables 0 pt.level0PhyAddr q ≠
      some (s.pma.memoryStart + i * pageSize)

def TableAt (pt : PageTable) (s : TableMemory) (page lvl table : ℕ) : Prop :=
  follow tableChild s.tables 0 pt.level0PhyAddr (pathTo page lvl) = some table

variable {pt : PageTable} {s : TableMemory} {w x lvl table : ℕ} {e : PageTableEntry}

lemma TableAt.next {next : ℕ} (ht : pt.TableAt s w lvl table)
    (he : (s.tables table (digit w lvl)).tableRef lvl = some next) :
    pt.TableAt s w (lvl + 1) next := by
  rw [TableAt, pathTo_succ, follow_append, ht, length_pathTo, zero_add,
    Option.bind_some, follow, tableChild, he]
  rfl

lemma TableAt.view_eq (ht : pt.TableAt s w lvl table) (hlvl : lvl < 4)
    (he : (s.tables table (digit w lvl)).tableRef lvl = none) :
    pt.view s w = ⟨lvl, s.tables table (digit w lvl)⟩ := by
  rw [view, digits_eq_append hlvl, lookup_append ht, length_pathTo, zero_add,
    lookup, tableChild, he]

lemma TableAt.exists_last (ht : pt.TableAt s w lvl table) (hlvl : lvl < 4) :
    ∃ last table', lvl ≤ last ∧ last < 4 ∧ pt.TableAt s w last table' ∧
      (s.tables table' (digit w last)).tableRef last = none := by
  obtain ⟨n, hn⟩ : ∃ n, lvl + n = 3 := ⟨3 - lvl, by omega⟩
  induction n generalizing lvl table with
  | zero =>
    obtain rfl : lvl = 3 := hn
    exact ⟨3, table, le_refl _, hlvl, ht, rfl⟩
  | succ n ih =>
    cases href : (s.tables table (digit w lvl)).tableRef lvl with
    | none => exact ⟨lvl, table, le_refl _, hlvl, ht, href⟩
    | some next =>
      obtain ⟨last, table', hle, hlast⟩ := ih (ht.next href) (by omega) (by omega)
      exact ⟨last, table', by omega, hlast⟩

lemma TableAt.le_level (ht : pt.TableAt s w lvl table) (hlvl : lvl < 4) :
    lvl ≤ (pt.view s w).level := by
  obtain ⟨last, table', hle, hlast, ht', href⟩ := ht.exists_last hlvl
  rwa [ht'.view_eq hlast href]

lemma tableAt_zero (pt : PageTable) (s : TableMemory) (w : ℕ) :
    pt.TableAt s w 0 pt.level0PhyAddr := rfl

lemma view_eq_of_span (hx : x < halfPages) (hw : w < halfPages)
    (h : x / span (pt.view s w).level = w / span (pt.view s w).level) :
    pt.view s x = pt.view s w := by
  obtain ⟨last, table, -, hlast, ht, href⟩ := (pt.tableAt_zero s w).exists_last (by decide)
  have hview := ht.view_eq hlast href
  rw [hview] at h ⊢
  have hpath := (pathTo_succ_eq_iff hx hw hlast).mpr h
  rw [pathTo_succ, pathTo_succ] at hpath
  obtain ⟨hpath, hdig⟩ := List.append_inj hpath (by simp)
  have hdig : digit x last = digit w last := List.head_eq_of_cons_eq hdig
  have htx : pt.TableAt s x last table := by rwa [TableAt, hpath]
  rw [htx.view_eq hlast (by rwa [hdig]), hdig]

/-! ### Empty tables -/

section empty

variable (hemp : ∀ i, s.tables pt.level0PhyAddr i = .invalid)
include hemp

lemma follow_of_empty {q : List (Fin 512)}
    (hq : follow tableChild s.tables 0 pt.level0PhyAddr q = some table) :
    q = [] ∧ table = pt.level0PhyAddr := by
  cases q with
  | nil => exact ⟨rfl, (Option.some.inj hq).symm⟩
  | cons i q =>
    rw [follow, hemp, tableChild_invalid] at hq
    cases hq

lemma wellFormed_of_empty : pt.WellFormed s := fun _ _ _ hp hq =>
  (follow_of_empty hemp hp).1.trans (follow_of_empty hemp hq).1.symm

lemma supplied_of_empty (hal : s.pma.memoryStart % pageSize = 0)
    (hend : s.pma.memoryStart + s.pma.allocatedPages.length * pageSize ≤ 2 ^ 48)
    (hroot : ∀ i, s.pma.allocatedPages[i]? = some false →
      s.pma.memoryStart + i * pageSize ≠ pt.level0PhyAddr) : pt.Supplied s where
  aligned := hal
  end_le := hend
  fresh i hi _ hq := hroot i hi (follow_of_empty hemp hq).2

lemma view_of_empty (x : ℕ) : pt.view s x = ⟨0, .invalid⟩ := by
  rw [(pt.tableAt_zero s x).view_eq (by decide) (by rw [hemp]; rfl), hemp]

end empty

/-! ### The changes of the tables -/

def putEntry (s : TableMemory) (table : ℕ) (i : Fin 512) (e : PageTableEntry) : TableMemory :=
  { s with tables := set s.tables table i e }

@[simp] lemma putEntry_self {i : Fin 512} : (putEntry s table i e).tables table i = e :=
  set_self

section put

variable (hwf : pt.WellFormed s) (ht : pt.TableAt s w lvl table) (he : tableChild lvl e = none)
include hwf ht he

lemma WellFormed.putEntry : pt.WellFormed (putEntry s table (digit w lvl) e) :=
  Distinct.set_leaf hwf ht (by rwa [length_pathTo])

lemma Supplied.putEntry (hsup : pt.Supplied s) :
    pt.Supplied (putEntry s table (digit w lvl) e) where
  aligned := hsup.aligned
  end_le := hsup.end_le
  fresh i hi q hq := hsup.fresh i hi q
    (follow_of_set_leaf hwf ht (by rwa [length_pathTo]) hq)

lemma view_putEntry (hlvl : lvl < 4) (hw : w < halfPages) (hx : x < halfPages) :
    pt.view (putEntry s table (digit w lvl) e) x =
      if x / span lvl = w / span lvl then ⟨lvl, e⟩ else pt.view s x := by
  split_ifs with hspan
  · obtain ⟨r, hr⟩ := (pathTo_prefix_digits_iff hx hw hlvl).mpr hspan
    rw [pathTo_succ, List.append_assoc, List.singleton_append] at hr
    have hlkp := lookup_set_leaf hwf ht (r := r) (i := digit w lvl) (e := e)
      (by rwa [length_pathTo])
    rw [hr, length_pathTo] at hlkp
    rw [view, putEntry, hlkp]
  · have hpre : ¬ pathTo w lvl ++ [digit w lvl] <+: digits x := by
      rwa [← pathTo_succ, pathTo_prefix_digits_iff hx hw hlvl]
    rw [view, view, putEntry, (follow_lookup_set hwf ht hpre).2]

end put

def attachTable (s : TableMemory) (pma : PhysicalMemoryAllocator) (table : ℕ) (i : Fin 512)
    (b : ℕ) : TableMemory where
  tables := attach s.tables table i (.tableDesc b) b fun _ => .invalid
  pma

lemma freePage_lt {pma : PhysicalMemoryAllocator} {start : ℕ}
    (hend : pma.memoryStart + pma.allocatedPages.length * pageSize ≤ 2 ^ 48)
    (hfree : pma.allocatedPages[start]? = some false) :
    pma.memoryStart + start * pageSize < 2 ^ 48 := by
  obtain ⟨hlt, -⟩ := List.getElem?_eq_some_iff.mp hfree
  have hle : pma.memoryStart + (start + 1) * pageSize ≤ 2 ^ 48 :=
    (Nat.add_le_add_left (Nat.mul_le_mul_right _ hlt) _).trans hend
  simp only [pageSize] at hle ⊢
  omega

section attach

variable {start : ℕ} {pma : PhysicalMemoryAllocator} (hwf : pt.WellFormed s)
  (hsup : pt.Supplied s) (ht : pt.TableAt s w lvl table) (hlvl : lvl < 3)
  (hfree : s.pma.allocatedPages[start]? = some false)
include hwf hsup ht hlvl hfree

omit hwf ht in
lemma Supplied.child_eq : tableChild (pathTo w lvl).length
    (.tableDesc (s.pma.memoryStart + start * pageSize)) =
      some (s.pma.memoryStart + start * pageSize) := by
  have hal : (s.pma.memoryStart + start * pageSize) % pageSize = 0 := by
    rw [add_mul_mod_self_right, hsup.aligned]
  rw [length_pathTo]
  exact tableChild_tableDesc hlvl hal (freePage_lt hsup.end_le hfree)

lemma WellFormed.attachTable :
    pt.WellFormed (attachTable s pma table (digit w lvl) (s.pma.memoryStart + start * pageSize)) :=
  Distinct.attach hwf ht (hsup.fresh start hfree) (hsup.child_eq hlvl hfree)
    fun lvl _ => tableChild_invalid lvl

lemma Supplied.attachTable (hpma : s.pma.Filled start 1 true pma) :
    pt.Supplied (attachTable s pma table (digit w lvl) (s.pma.memoryStart + start * pageSize)) where
  aligned := by
    rw [PageTable.attachTable, hpma.memoryStart_eq]
    exact hsup.aligned
  end_le := by
    rw [PageTable.attachTable, hpma.memoryStart_eq, hpma.length_eq]
    exact hsup.end_le
  fresh i hi q hq := by
    dsimp only [PageTable.attachTable] at hi hq
    rw [hpma.getElem?_eq] at hi
    split_ifs at hi with hrng
    · cases hi
    rw [hpma.memoryStart_eq] at hq
    rcases follow_of_attach hwf ht (hsup.fresh start hfree) (hsup.child_eq hlvl hfree)
      (fun lvl _ => tableChild_invalid lvl) hq with ⟨-, heq⟩ | hq
    · simp only [pageSize] at heq
      omega
    · exact hsup.fresh i hi q hq

lemma TableAt.attachTable :
    pt.TableAt (attachTable s pma table (digit w lvl) (s.pma.memoryStart + start * pageSize)) w
      (lvl + 1) (s.pma.memoryStart + start * pageSize) := by
  rw [TableAt, pathTo_succ]
  exact follow_attach_node hwf ht (hsup.fresh start hfree) (hsup.child_eq hlvl hfree)

lemma view_attachTable (pma : PhysicalMemoryAllocator) (hw : w < halfPages) (hx : x < halfPages) :
    pt.view (attachTable s pma table (digit w lvl) (s.pma.memoryStart + start * pageSize)) x =
      if x / span lvl = w / span lvl then ⟨lvl + 1, .invalid⟩ else pt.view s x := by
  split_ifs with hspan
  · obtain ⟨r, hr⟩ := (pathTo_prefix_digits_iff hx hw (by omega)).mpr hspan
    rw [pathTo_succ, List.append_assoc, List.singleton_append] at hr
    cases r with
    | nil =>
      have := congrArg List.length hr
      simp [digits] at this
      omega
    | cons j r =>
      have hlkp := lookup_attach hwf ht (hsup.fresh start hfree)
        (hsup.child_eq hlvl hfree) (fun lvl _ => tableChild_invalid lvl) (i := digit w lvl) (j := j)
        (r := r)
      rw [hr, length_pathTo] at hlkp
      rw [view, attachTable, hlkp]
  · have hpre : ¬ pathTo w lvl ++ [digit w lvl] <+: digits x := by
      rwa [← pathTo_succ, pathTo_prefix_digits_iff hx hw (by omega)]
    rw [view, view, attachTable, (follow_lookup_attach hwf ht (hsup.fresh start hfree) hpre).2]

end attach

end PageTable

end Kernel.Memory
