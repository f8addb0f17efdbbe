import Kernel.Core.Iterator
import Kernel.Memory.Paging.Iter
import Kernel.Memory.Paging.Leaves

/-!
# The leaves in order

The stack of the iterator holds the tables on the path of some page, with the indices of the page.
-/

namespace Kernel.Memory

open Core Action List PageTableIter

/-! ### The next page -/

lemma chunk_add_span (lvl x : ℕ) : chunk lvl x + span lvl = (x / span lvl + 1) * span lvl :=
  (Nat.succ_mul _ _).symm

variable {k lvl x : ℕ}

lemma div_span_chunk (hk : k ≤ lvl) : chunk lvl x / span k = x / span k :=
  div_span_eq_of_le hk (Nat.mul_div_cancel _ (span_pos lvl))

lemma digit_chunk (hk : k ≤ 3) :
    (digit (chunk lvl x) k).val = if k < lvl + 1 then (digit x k).val else 0 := by
  split_ifs with hlt
  · rw [val_digit, div_span_chunk (Nat.le_of_lt_succ hlt)]
    rfl
  · exact digit_eq_zero (Nat.dvd_mul_left _ _) (by omega) hk

lemma sum_digits (hx : x < halfPages) :
    (digit x 0).val * 512 ^ 3 + (digit x 1).val * 512 ^ 2 + (digit x 2).val * 512 +
      (digit x 3).val = x := by
  simp only [val_digit, span, halfPages] at *
  omega

lemma digit_next (hlvl : lvl ≤ 3) (hx : x < halfPages)
    (hlast : (digit x lvl).val + 1 < 512) :
    chunk lvl x + span lvl < halfPages ∧
      (digit (chunk lvl x + span lvl) lvl).val = (digit x lvl).val + 1 ∧
      (∀ k < lvl, digit (chunk lvl x + span lvl) k = digit x k) ∧
      ∀ k, lvl < k → k ≤ 3 → (digit (chunk lvl x + span lvl) k).val = 0 := by
  rw [val_digit] at hlast
  have hdiv : (chunk lvl x + span lvl) / span lvl = x / span lvl + 1 := by
    rw [chunk_add_span, Nat.mul_div_cancel _ (span_pos lvl)]
  have habo : ∀ k < lvl, (chunk lvl x + span lvl) / span k = x / span k := by
    intro k hk
    obtain ⟨m, rfl⟩ := Nat.exists_eq_add_one_of_ne_zero (Nat.ne_zero_of_lt hk)
    refine div_span_eq_of_le (Nat.le_of_lt_succ hk) ?_
    rw [← div_span_div _ hlvl, ← div_span_div x hlvl, hdiv]
    omega
  refine ⟨?_, ?_, fun k hk => ?_, fun k hk hk3 => ?_⟩
  · have hlt := div_span_zero_lt_iff.mpr hx
    rw [← div_span_zero_lt_iff]
    rcases eq_zero_or_pos lvl with rfl | hpos
    · omega
    · rwa [habo 0 hpos]
  · rw [val_digit, val_digit, hdiv]
    omega
  · rw [digit_eq_digit_iff, habo k hk]
  · refine digit_eq_zero ?_ hk hk3
    rw [chunk_add_span]
    exact Nat.dvd_mul_left _ _

lemma next_of_last (hlvl : lvl < 3) (hlast : 512 ≤ (digit x (lvl + 1)).val + 1) :
    chunk (lvl + 1) x + span (lvl + 1) = chunk lvl x + span lvl := by
  rw [val_digit] at hlast
  have hdiv : x / span (lvl + 1) + 1 = 512 * (x / span (lvl + 1) / 512 + 1) := by omega
  rw [chunk_add_span, chunk_add_span, ← div_span_div x hlvl, span_eq_mul hlvl, hdiv,
    mul_comm 512, mul_assoc, mul_comm 512]

lemma next_of_last_zero (hx : x < halfPages) (hlast : 512 ≤ (digit x 0).val + 1) :
    chunk 0 x + span 0 = halfPages := by
  simp only [val_digit, chunk, span, halfPages] at *
  omega

namespace PageTable

variable {pt : PageTable} {s : TableMemory} {x y : ℕ}

variable {t : ℕ}

lemma TableAt.congr {lvl : ℕ} (h : pt.TableAt s x lvl t)
    (heq : ∀ k < lvl, digit y k = digit x k) : pt.TableAt s y lvl t := by
  have hpath : pathTo y lvl = pathTo x lvl :=
    map_congr_left fun k hk => heq k (mem_range.mp hk)
  rwa [TableAt, hpath]

lemma TableAt.view_of_level (h : pt.TableAt s x (pt.view s x).level t) :
    s.tables t (digit x (pt.view s x).level) = (pt.view s x).entry ∧
      (pt.view s x).entry.tableRef (pt.view s x).level = none := by
  obtain ⟨last, t', -, hlast, ht, href⟩ := (pt.tableAt_zero s x).exists_last (by decide)
  have hview := ht.view_eq hlast href
  rw [hview] at h ⊢
  obtain rfl : t' = t := Option.some.inj (ht.symm.trans h)
  exact ⟨rfl, href⟩

end PageTable

namespace PageTableIter

open PageTable

variable {pt : PageTable} {s : TableMemory} {x : ℕ} {it : PageTableIter}

/-! ### The position of the iterator -/

def OnPath (pt : PageTable) (s : TableMemory) (x : ℕ) : List (ℕ × ℕ) → Prop
  | [] => True
  | (t, i) :: rest =>
    pt.TableAt s x rest.length t ∧ i = (digit x rest.length).val ∧ OnPath pt s x rest

variable {stack : List (ℕ × ℕ)}

lemma OnPath.congr {y : ℕ} (h : OnPath pt s x stack)
    (heq : ∀ k < stack.length, digit y k = digit x k) : OnPath pt s y stack := by
  induction stack with
  | nil => trivial
  | cons top rest ih =>
    obtain ⟨ht, hi, hrest⟩ := h
    rw [length_cons] at heq
    refine ⟨ht.congr fun k hk => heq k (by omega), ?_, ih hrest fun k hk => heq k (by omega)⟩
    rw [heq _ (by omega)]
    exact hi

structure At (pt : PageTable) (s : TableMemory) (x : ℕ) (it : PageTableIter) : Prop where
  tag_eq : it.tag = pt.tag
  lt : x < halfPages
  onPath : OnPath pt s x it.stack
  length : it.stack.length = (pt.view s x).level + 1

lemma At.stack_eq (h : At pt s x it) : ∃ t rest, it.stack =
    (t, (digit x (pt.view s x).level).val) :: rest ∧ rest.length = (pt.view s x).level ∧
      pt.TableAt s x (pt.view s x).level t := by
  have hpath := h.onPath
  have hlen := h.length
  cases hstk : it.stack with
  | nil =>
    rw [hstk] at hlen
    cases hlen
  | cons top rest =>
    obtain ⟨t, i⟩ := top
    rw [hstk] at hpath hlen
    obtain ⟨ht, hi, -⟩ := hpath
    have hrest : rest.length = (pt.view s x).level := Nat.succ.inj hlen
    rw [hrest] at ht hi
    exact ⟨t, rest, by rw [hi], hrest, ht⟩

lemma At.lvl_eq (h : At pt s x it) : it.lvl = (pt.view s x).level := by
  rw [lvl, h.length, Nat.add_sub_cancel]

lemma At.currentEntry_eq (h : At pt s x it) :
    it.currentEntry s.tables = some (pt.view s x).entry := by
  obtain ⟨t, rest, hstk, -, ht⟩ := h.stack_eq
  rw [currentEntry, hstk]
  dsimp only
  rw [dif_pos (Fin.isLt _)]
  exact congrArg some ht.view_of_level.1

lemma currentTable_eq_tableRef {t : ℕ} {rest : List (ℕ × ℕ)}
    (hstk : it.stack = (t, (digit x rest.length).val) :: rest) :
    it.currentTable s.tables = (s.tables t (digit x rest.length)).tableRef rest.length := by
  rw [currentTable, currentEntry, lvl, hstk]
  dsimp only
  rw [dif_pos (Fin.isLt _), length_cons, Nat.add_sub_cancel, Fin.eta]
  by_cases hval : (s.tables t (digit x rest.length)).valid = true
  · rw [Option.filter_some, if_pos hval, Option.bind_some]
  · have hnone : (s.tables t (digit x rest.length)).tablePhyAddr = none := if_pos (.inl hval)
    rw [Option.filter_some, if_neg hval, Option.bind_none, PageTableEntry.tableRef, hnone, ite_self]

lemma At.currentTable_eq (h : At pt s x it) : it.currentTable s.tables = none := by
  obtain ⟨t, rest, hstk, hrest, ht⟩ := h.stack_eq
  rw [← hrest] at hstk
  rw [currentTable_eq_tableRef hstk, hrest, ht.view_of_level.1]
  exact ht.view_of_level.2

variable {indices : List ℕ}

lemma followTree_eq_self (h : it.currentTable s.tables = none) :
    followTree s.tables indices it = .ok it := by
  unfold followTree
  rw [h]
  rfl

lemma currentTable_of_none (h : it.currentEntry s.tables = none) :
    it.currentTable s.tables = none := by
  rw [currentTable, h]
  rfl

lemma OnPath.at_of_none (h : OnPath pt s x it.stack) (htag : it.tag = pt.tag)
    (hx : x < halfPages) (hne : it.stack ≠ []) (hlen : it.stack.length ≤ 4)
    (hnone : it.currentTable s.tables = none) : At pt s x it := by
  obtain ⟨⟨t, i⟩, rest, hstk⟩ := exists_cons_of_ne_nil hne
  refine ⟨htag, hx, h, ?_⟩
  rw [hstk] at h hlen ⊢
  obtain ⟨ht, rfl, -⟩ := h
  rw [currentTable_eq_tableRef hstk] at hnone
  rw [ht.view_eq hlen hnone]
  rfl

lemma OnPath.push {p : ℕ} (h : OnPath pt s x it.stack) (hne : it.stack ≠ [])
    (htab : it.currentTable s.tables = some p) : it.stack.length ≤ 3 ∧
      OnPath pt s x ((p, (digit x it.stack.length).val) :: it.stack) := by
  obtain ⟨⟨t, i⟩, rest, hstk⟩ := exists_cons_of_ne_nil hne
  have hpath := h
  rw [hstk] at hpath
  obtain ⟨ht, rfl, -⟩ := hpath
  rw [currentTable_eq_tableRef hstk] at htab
  have hlen : it.stack.length = rest.length + 1 := by rw [hstk, length_cons]
  refine ⟨?_, ?_, rfl, h⟩
  · by_contra hge
    rw [PageTableEntry.tableRef, if_pos (by omega)] at htab
    cases htab
  · rw [hlen]
    exact ht.next htab

lemma followTree_cases (htag : it.tag = pt.tag) (hx : x < halfPages)
    (hpath : OnPath pt s x it.stack) (hne : it.stack ≠ []) (hlen : it.stack.length ≤ 4)
    (hind : ∀ k, it.stack.length + k ≤ 3 → ∃ i, indices[k]? = some i ∧
      (i = (digit x (it.stack.length + k)).val ∨ 512 ≤ i)) :
    ∃ it', followTree s.tables indices it = .ok it' ∧
      (At pt s x it' ∨ it'.currentEntry s.tables = none ∧ ∃ i ∈ indices, 512 ≤ i) := by
  induction indices generalizing it with
  | nil =>
    cases htab : it.currentTable s.tables with
    | none =>
      exact ⟨it, followTree_eq_self htab, .inl (hpath.at_of_none htag hx hne hlen htab)⟩
    | some p =>
      obtain ⟨i, hi, -⟩ := hind 0 (hpath.push hne htab).1
      cases hi
  | cons i indices ih =>
    cases htab : it.currentTable s.tables with
    | none =>
      exact ⟨it, followTree_eq_self htab, .inl (hpath.at_of_none htag hx hne hlen htab)⟩
    | some p =>
      obtain ⟨hle, hpush⟩ := hpath.push hne htab
      obtain ⟨_, hi, hcas⟩ := hind 0 hle
      obtain rfl := Option.some.inj hi
      rw [followTree, htab]
      dsimp only
      rcases hcas with heq | hlg
      · rw [add_zero] at heq
        subst heq
        have hrest : ∀ k, it.stack.length + 1 + k ≤ 3 → ∃ i, indices[k]? = some i ∧
            (i = (digit x (it.stack.length + 1 + k)).val ∨ 512 ≤ i) := by
          intro k hk
          rw [add_assoc, add_comm 1 k] at hk ⊢
          exact hind (k + 1) hk
        obtain ⟨it', hrun, hend⟩ := @ih ⟨_ :: it.stack, it.tag⟩ htag hpush
          (cons_ne_nil _ _) (Nat.succ_le_succ hle) hrest
        refine ⟨it', hrun, hend.imp_right fun ⟨hnone, i, hi, hlg⟩ => ?_⟩
        exact ⟨hnone, i, mem_cons_of_mem _ hi, hlg⟩
      · have hnone : (mk ((p, i) :: it.stack) it.tag).currentEntry s.tables = none :=
          dif_neg (by omega)
        exact ⟨_, followTree_eq_self (currentTable_of_none hnone),
          .inr ⟨hnone, i, mem_cons_self, hlg⟩⟩

/-! ### One step -/

lemma nextEntryFrom_next {l : ℕ} (hx : x < halfPages)
    (hpath : OnPath pt s x stack) (hlen : stack.length = l + 1) (hl : l ≤ 3) :
    ∃ it', nextEntryFrom s.tables pt.tag stack = .ok it' ∧
      (chunk l x + span l < halfPages ∧ At pt s (chunk l x + span l) it' ∨
        chunk l x + span l = halfPages ∧ it'.stack = []) := by
  induction stack generalizing l with
  | nil => cases hlen
  | cons top rest ih =>
    obtain ⟨t, i⟩ := top
    obtain ⟨ht, rfl, hrest⟩ := hpath
    obtain rfl : rest.length = l := Nat.succ.inj hlen
    rw [nextEntryFrom]
    split_ifs with hlast
    · cases rest with
      | nil =>
        have hend : chunk 0 x + span 0 = halfPages := next_of_last_zero hx hlast
        exact ⟨⟨[], pt.tag⟩, rfl, .inr ⟨hend, rfl⟩⟩
      | cons top' rest' =>
        obtain ⟨it', hrun, hnext⟩ := ih hrest rfl (by rw [length_cons] at hl; omega)
        have hstay : it'.currentTable s.tables = none := by
          rcases hnext with ⟨-, hat⟩ | ⟨-, hstk⟩
          · exact hat.currentTable_eq
          · exact currentTable_of_none (by rw [currentEntry, hstk])
        refine ⟨it', ?_, ?_⟩
        · rw [hrun]
          exact followTree_eq_self hstay
        · rwa [length_cons, next_of_last (by rw [length_cons] at hl; omega) hlast]
    · obtain ⟨hlt, hidx, habo, hbel⟩ := digit_next hl hx (Nat.lt_of_not_le hlast)
      have hstk : OnPath pt s (chunk rest.length x + span rest.length)
          ((t, (digit x rest.length).val + 1) :: rest) :=
        ⟨ht.congr habo, hidx.symm, hrest.congr habo⟩
      have hzer : ∀ k, rest.length + 1 + k ≤ 3 → ∃ i, [0, 0, 0][k]? = some i ∧
          (i = (digit (chunk rest.length x + span rest.length) (rest.length + 1 + k)).val ∨
            512 ≤ i) := by
        intro k hk
        refine ⟨0, ?_, .inl (hbel _ (by omega) hk).symm⟩
        have hk2 : k ≤ 2 := by omega
        interval_cases k <;> rfl
      obtain ⟨it', hrun, hend⟩ := @followTree_cases pt s _ ⟨_ :: rest, pt.tag⟩ [0, 0, 0] rfl hlt
        hstk (cons_ne_nil _ _) (Nat.succ_le_succ hl) hzer
      rcases hend with hat | ⟨-, i, hi, hlg⟩
      · exact ⟨it', hrun, .inl ⟨hlt, hat⟩⟩
      · simp only [mem_cons, not_mem_nil, or_false, or_self] at hi
        omega

end PageTableIter

/-! ### Addresses -/

lemma shiftLeft_or_shiftLeft {a d m : ℕ} (n : ℕ) (hd : d < 2 ^ m) :
    a <<< (n + m) ||| d <<< n = (a * 2 ^ m + d) <<< n := by
  rw [add_comm n m, Nat.shiftLeft_add, ← Nat.shiftLeft_or_distrib,
    ← Nat.shiftLeft_add_eq_or_of_lt hd, Nat.shiftLeft_eq a m]

namespace VirtualAddress

/-- A tag of 16 bits, four indices of 9 bits and an offset of 12 bits. -/
def Parts.InRange (p : Parts) : Prop :=
  p.tag ≤ 0xffff ∧ p.lv0 < 512 ∧ p.lv1 < 512 ∧ p.lv2 < 512 ∧ p.lv3 < 512 ∧ p.offset < pageSize

def Parts.address (p : Parts) : ℕ :=
  p.tag * 2 ^ 48 + (p.lv0 * 512 ^ 3 + p.lv1 * 512 ^ 2 + p.lv2 * 512 + p.lv3) * pageSize + p.offset

variable {p : Parts} {v : ℕ}

lemma Parts.InRange.or_eq (h : p.InRange) :
    p.tag <<< 48 ||| p.lv0 <<< 39 ||| p.lv1 <<< 30 ||| p.lv2 <<< 21 ||| p.lv3 <<< 12 ||| p.offset =
      p.address := by
  obtain ⟨-, h0, h1, h2, h3, hoff⟩ := h
  rw [shiftLeft_or_shiftLeft (m := 9) 39 h0, shiftLeft_or_shiftLeft (m := 9) 30 h1,
    shiftLeft_or_shiftLeft (m := 9) 21 h2, shiftLeft_or_shiftLeft (m := 9) 12 h3,
    ← Nat.shiftLeft_add_eq_or_of_lt (i := 12) hoff, Nat.shiftLeft_eq, address]
  simp only [pageSize]
  ring

lemma fromParts_eq_ok : fromParts p = .ok v ↔ (p.InRange ∧ p.offset ≤ 0x3ff) ∧ v = p.address := by
  simp only [fromParts, bind_eq_ok, assert_eq_ok]
  constructor
  · rintro ⟨-, htag, -, h0, -, h1, -, h2, -, h3, -, hoff, hret⟩
    have hin : p.InRange := by
      rw [Parts.InRange, pageSize]
      omega
    rw [hin.or_eq] at hret
    exact ⟨⟨hin, hoff⟩, (Except.ok.inj hret).symm⟩
  · rintro ⟨⟨hin, hoff⟩, rfl⟩
    obtain ⟨htag, h0, h1, h2, h3, -⟩ := id hin
    refine ⟨(), htag, (), by omega, (), by omega, (), by omega, (), by omega, (), hoff, ?_⟩
    rw [hin.or_eq]
    rfl

lemma inRange_toParts (v : ℕ) : (toParts v).InRange := by
  rw [toParts_eq]
  simp only [Parts.InRange, pageSize]
  omega

lemma address_toParts (hv : v < 2 ^ 64) : (toParts v).address = v := by
  rw [toParts_eq]
  simp only [Parts.address, pageSize]
  omega

lemma Parts.InRange.toParts_address (h : p.InRange) : toParts p.address = p := by
  obtain ⟨htag, h0, h1, h2, h3, hoff⟩ := h
  obtain ⟨tag, lv0, lv1, lv2, lv3, offset⟩ := p
  rw [toParts_eq]
  simp only [address, pageSize, Parts.mk.injEq] at *
  omega

/-- The parts and the address determine each other, but `from_parts` takes only the offsets with at
most ten bits. -/
theorem fromParts_toParts_iff (v : ℕ) (p : Parts) :
    (v < 2 ^ 64 → (fromParts (toParts v) = .ok v ↔ v % pageSize ≤ 0x3ff)) ∧
      (p.InRange → ((∃ w, fromParts p = .ok w ∧ toParts w = p) ↔ p.offset ≤ 0x3ff)) := by
  refine ⟨fun hv => ?_, fun hp => ⟨fun ⟨w, hfrom, _⟩ => ?_, fun hoff => ?_⟩⟩
  · have hoff : (toParts v).offset = v % pageSize := by rw [toParts_eq]
    rw [fromParts_eq_ok, address_toParts hv, hoff]
    exact ⟨fun h => h.1.2, fun h => ⟨⟨inRange_toParts v, h⟩, rfl⟩⟩
  · exact (fromParts_eq_ok.mp hfrom).1.2
  · exact ⟨_, fromParts_eq_ok.mpr ⟨⟨hp, hoff⟩, rfl⟩, hp.toParts_address⟩

/-- The address 0x400 is the first one that cannot be put together again. -/
theorem fromParts_toParts_fails :
    fromParts (toParts 0x400) = .error .assertion ∧
      Parts.InRange ⟨0, 0, 0, 0, 0, 0x400⟩ ∧
      fromParts ⟨0, 0, 0, 0, 0, 0x400⟩ = .error .assertion :=
  ⟨rfl, by rw [Parts.InRange]; decide, rfl⟩

end VirtualAddress

namespace PageTableIter

open PageTable

variable {pt : PageTable} {s : TableMemory} {x : ℕ} {it : PageTableIter}

lemma OnPath.index_eq {stack : List (ℕ × ℕ)} (h : OnPath pt s x stack) (k : ℕ) :
    (stack.reverse[k]?.map Prod.snd).getD 0 = if k < stack.length then (digit x k).val else 0 := by
  induction stack with
  | nil => rfl
  | cons top rest ih =>
    obtain ⟨t, i⟩ := top
    obtain ⟨-, rfl, hrest⟩ := h
    rw [reverse_cons, length_cons]
    rcases lt_trichotomy k rest.length with hlt | rfl | hgt
    · rw [List.getElem?_append_left (by rwa [length_reverse]), ih hrest, if_pos hlt,
        if_pos (by omega)]
    · rw [List.getElem?_append_right (by rw [length_reverse]), length_reverse,
        Nat.sub_self, if_pos (by omega)]
      rfl
    · rw [List.getElem?_eq_none (by simp; omega), if_neg (by omega)]
      rfl

lemma At.currentVaFromStack_eq (h : At pt s x it) :
    it.currentVaFromStack = .ok (pt.address (chunk (pt.view s x).level x)) := by
  have hlt := (chunk_le (pt.view s x).level x).trans_lt h.lt
  rw [currentVaFromStack, h.tag_eq]
  simp only [h.onPath.index_eq, h.length]
  rw [← digit_chunk (by decide), ← digit_chunk (by decide), ← digit_chunk (by decide),
    ← digit_chunk (by decide)]
  refine VirtualAddress.fromParts_eq_ok.mpr ⟨⟨⟨pt.tag_le, Fin.isLt _, Fin.isLt _, Fin.isLt _,
    Fin.isLt _, Nat.two_pow_pos 12⟩, Nat.zero_le _⟩, ?_⟩
  simp only [VirtualAddress.Parts.address, address, sum_digits hlt, add_zero]

lemma At.chunk (h : At pt s x it) : At pt s (chunk (pt.view s x).level x) it := by
  have hlvl := view_level_lt pt s x
  have hx := h.lt
  refine ⟨h.tag_eq, (chunk_le _ _).trans_lt hx, h.onPath.congr fun k hk => ?_, ?_⟩
  · rw [h.length] at hk
    rw [digit_eq_digit_iff, div_span_chunk (Nat.le_of_lt_succ hk)]
  · rw [view_chunk hx]
    exact h.length

lemma At.nextEntry (h : At pt s x it) (hbeg : pt.Begins s x) :
    ∃ it', it.nextEntry s.tables = .ok it' ∧
      (x + span (pt.view s x).level < halfPages ∧ At pt s (x + span (pt.view s x).level) it' ∧
          pt.Begins s (x + span (pt.view s x).level) ∨
        x + span (pt.view s x).level = halfPages ∧ it'.stack = []) := by
  have hlvl := view_level_lt pt s x
  obtain ⟨it', hrun, hnext⟩ := nextEntryFrom_next h.lt h.onPath h.length (by omega)
  rw [begins_iff.mp hbeg] at hnext
  rw [PageTableIter.nextEntry, h.tag_eq]
  exact ⟨it', hrun, hnext.imp_left fun ⟨hlt, hat⟩ => ⟨hlt, hat, hbeg.next hlt⟩⟩

lemma sub_lt_maxSteps (x : ℕ) : halfPages - x < maxSteps := by
  simp only [halfPages, maxSteps]
  omega

lemma At.move {steps : ℕ} (h : At pt s x it) (hbeg : pt.Begins s x) (hste : halfPages - x < steps) :
    ∃ it', moveToNextValidMapEntry s.tables steps it = .ok it' ∧
      ((∃ y, x ≤ y ∧ At pt s y it' ∧ pt.Begins s y ∧ (pt.view s y).entry.valid = true ∧
          ∀ z, x ≤ z → z < y → (pt.view s z).entry.valid = false) ∨
        it'.currentEntry s.tables = none ∧
          ∀ z, x ≤ z → z < halfPages → (pt.view s z).entry.valid = false) := by
  induction steps generalizing x it with
  | zero => omega
  | succ steps ih =>
    rw [moveToNextValidMapEntry, h.currentEntry_eq]
    dsimp only
    by_cases hval : (pt.view s x).entry.valid = true
    · rw [if_pos hval]
      exact ⟨it, rfl, .inl ⟨x, le_rfl, h, hbeg, hval, fun z h₁ h₂ => by omega⟩⟩
    · rw [if_neg hval]
      have hpos := span_pos (pt.view s x).level
      have hund : ∀ z, x ≤ z → z < x + span (pt.view s x).level →
          (pt.view s z).entry.valid = false := by
        intro z hle hlt
        rw [hbeg.view_eq h.lt hle hlt]
        exact Bool.eq_false_iff.mpr hval
      obtain ⟨it₁, hrun, hnext⟩ := h.nextEntry hbeg
      rw [hrun]
      rcases hnext with ⟨hlt, hat, hbeg₁⟩ | ⟨hend, hstk⟩
      · obtain ⟨it', hmove, hcas⟩ := ih hat hbeg₁ (by have := h.lt; omega)
        refine ⟨it', hmove, ?_⟩
        rcases hcas with ⟨y, hle, hy, hbeg', hval', hno⟩ | ⟨hnone, hno⟩
        · refine .inl ⟨y, by omega, hy, hbeg', hval', fun z h₁ h₂ => ?_⟩
          rcases lt_or_ge z (x + span (pt.view s x).level) with hz | hz
          · exact hund z h₁ hz
          · exact hno z hz h₂
        · refine .inr ⟨hnone, fun z h₁ h₂ => ?_⟩
          rcases lt_or_ge z (x + span (pt.view s x).level) with hz | hz
          · exact hund z h₁ hz
          · exact hno z hz h₂
      · have hnone : it₁.currentEntry s.tables = none := by rw [currentEntry, hstk]
        refine ⟨it₁, ?_, .inr ⟨hnone, fun z h₁ h₂ => hund z h₁ (by omega)⟩⟩
        cases steps with
        | zero => rfl
        | succ steps =>
          change moveToNextValidMapEntry s.tables (steps + 1) it₁ = .ok it₁
          rw [moveToNextValidMapEntry, hnone]
          rfl

/-! ### All steps -/

lemma next_of_none (h : it.currentEntry s.tables = none) : it.next s.tables = .ok none := by
  have hmove : moveToNextValidMapEntry s.tables maxSteps it = .ok it := by
    rw [maxSteps, moveToNextValidMapEntry, h]
    rfl
  rw [next, hmove]
  dsimp only [bind, Except.bind]
  rw [h]
  rfl

lemma At.next_of_leaf {it₁ it₂ : PageTableIter} (h : At pt s x it₁) (hleaf : pt.IsLeaf s x)
    (hmove : moveToNextValidMapEntry s.tables maxSteps it = .ok it₁)
    (hnext : it₁.nextEntry s.tables = .ok it₂) :
    it.next s.tables = .ok (some (pt.region s x, it₂)) := by
  obtain ⟨-, a, hbase, ha⟩ := hleaf.base_eq
  have hva := h.currentVaFromStack_eq
  rw [begins_iff.mp hleaf.1] at hva
  rw [next, hmove]
  dsimp only [bind, Except.bind]
  rw [h.currentEntry_eq]
  dsimp only
  rw [h.lvl_eq, hbase]
  dsimp only
  rw [hva, hnext, region, ha]
  rfl

lemma At.next_cases (hprop : pt.Proper s) (h : At pt s x it) (hbeg : pt.Begins s x) :
    (it.next s.tables = .ok none ∧ ∀ z, x ≤ z → z < halfPages → ¬ pt.IsLeaf s z) ∨
    ∃ y it', x ≤ y ∧ y < halfPages ∧ pt.IsLeaf s y ∧ (∀ z, x ≤ z → z < y → ¬ pt.IsLeaf s z) ∧
      it.next s.tables = .ok (some (pt.region s y, it')) ∧
      (y + span (pt.view s y).level < halfPages ∧ At pt s (y + span (pt.view s y).level) it' ∧
          pt.Begins s (y + span (pt.view s y).level) ∨
        y + span (pt.view s y).level = halfPages ∧ it'.stack = []) := by
  have hinv : ∀ z, (pt.view s z).entry.valid = false → ¬ pt.IsLeaf s z := by
    intro z hz hleaf
    obtain ⟨a, ha⟩ := Option.ne_none_iff_exists'.mp hleaf.2
    rw [(valid_of_frame ha).1] at hz
    cases hz
  obtain ⟨it₁, hmove, hcas⟩ := h.move hbeg (sub_lt_maxSteps x)
  rcases hcas with ⟨y, hle, hat, hbeg', hval, hno⟩ | ⟨hnone, hno⟩
  · have hleaf : pt.IsLeaf s y := ⟨hbeg', hprop y hat.lt hval⟩
    obtain ⟨it₂, hnext, hend⟩ := hat.nextEntry hbeg'
    exact .inr ⟨y, it₂, hle, hat.lt, hleaf, fun z h₁ h₂ => hinv z (hno z h₁ h₂),
      hat.next_of_leaf hleaf hmove hnext, hend⟩
  · refine .inl ⟨?_, fun z h₁ h₂ => hinv z (hno z h₁ h₂)⟩
    rw [next, hmove]
    dsimp only [bind, Except.bind]
    rw [hnone]
    rfl

lemma At.yields (hprop : pt.Proper s) (h : At pt s x it) (hbeg : pt.Begins s x) :
    Yields (next s.tables) it ((pt.leavesFrom s x).map (pt.region s)) := by
  obtain ⟨n, hn⟩ : ∃ n, halfPages - x ≤ n := ⟨_, le_rfl⟩
  induction n generalizing x it with
  | zero =>
    have := h.lt
    omega
  | succ n ih =>
    rcases h.next_cases hprop hbeg with
      ⟨hnext, hno⟩ | ⟨y, it', hle, hy, hleaf, hno, hnext, hend⟩
    · rw [leavesFrom_eq_of_not h.lt.le le_rfl hno]
      rw [leavesFrom, Nat.sub_self]
      exact .done hnext
    · rw [leavesFrom_eq_of_not hle hy.le hno, hleaf.leavesFrom_eq hy, map_cons]
      refine .more hnext ?_
      have hpos := span_pos (pt.view s y).level
      rcases hend with ⟨hlt, hat, hbeg'⟩ | ⟨hlast, hstk⟩
      · exact ih hat hbeg' (by omega)
      · rw [hlast, leavesFrom, Nat.sub_self]
        exact .done (next_of_none (by rw [currentEntry, hstk]))

def pageOfIndices (i0 i1 i2 i3 : ℕ) : ℕ :=
  let index (i : ℕ) : ℕ := if i < 512 then i else 0
  index i0 * 512 ^ 3 + index i1 * 512 ^ 2 + index i2 * 512 + index i3

lemma clip_lt (i : ℕ) : (if i < 512 then i else 0) < 512 := by
  split_ifs <;> omega

lemma digit_pageOfIndices (i0 i1 i2 i3 : ℕ) {k i : ℕ} (hi : [i0, i1, i2, i3][k]? = some i)
    (hlt : i < 512) : i = (digit (pageOfIndices i0 i1 i2 i3) k).val := by
  have hk : k < 4 := (List.getElem?_eq_some_iff.mp hi).1
  have h0 := clip_lt i0
  have h1 := clip_lt i1
  have h2 := clip_lt i2
  have h3 := clip_lt i3
  rw [val_digit, pageOfIndices]
  interval_cases k <;> cases hi <;> simp only [span, if_pos hlt] at * <;> omega

lemma pageOfIndices_lt (i0 i1 i2 i3 : ℕ) : pageOfIndices i0 i1 i2 i3 < halfPages := by
  have h0 := clip_lt i0
  have h1 := clip_lt i1
  have h2 := clip_lt i2
  have h3 := clip_lt i3
  simp only [pageOfIndices, halfPages]
  omega

lemma startingAt_cases (pt : PageTable) (s : TableMemory) (i0 i1 i2 i3 : ℕ) :
    ∃ it, startingAt s.tables pt i0 i1 i2 i3 = .ok it ∧
      (At pt s (pageOfIndices i0 i1 i2 i3) it ∨
        it.currentEntry s.tables = none ∧ ∃ i ∈ [i0, i1, i2, i3], 512 ≤ i) := by
  rw [startingAt]
  by_cases h0 : i0 < 512
  · have hpath : OnPath pt s (pageOfIndices i0 i1 i2 i3) [(pt.level0PhyAddr, i0)] :=
      ⟨pt.tableAt_zero s _, digit_pageOfIndices i0 i1 i2 i3 (k := 0) rfl h0, trivial⟩
    obtain ⟨it, hrun, hcas⟩ := @followTree_cases pt s _ ⟨_, pt.tag⟩ [i1, i2, i3] rfl
      (pageOfIndices_lt i0 i1 i2 i3) hpath (cons_ne_nil _ _) (by simp) fun k hk => by
        have hlt : k < [i1, i2, i3].length := by
          simp only [length_cons, length_nil] at hk ⊢
          omega
        refine ⟨_, List.getElem?_eq_getElem hlt, ?_⟩
        rcases lt_or_ge ([i1, i2, i3][k]) 512 with hi | hi
        · refine .inl (digit_pageOfIndices i0 i1 i2 i3 ?_ hi)
          simp only [length_cons, length_nil, zero_add, add_comm 1 k, List.getElem?_cons_succ]
          exact List.getElem?_eq_getElem hlt
        · exact .inr hi
    exact ⟨it, hrun, hcas.imp_right fun ⟨hnone, i, hi, hlg⟩ =>
      ⟨hnone, i, mem_cons_of_mem _ hi, hlg⟩⟩
  · have hnone : (mk [(pt.level0PhyAddr, i0)] pt.tag).currentEntry s.tables = none :=
      dif_neg h0
    exact ⟨_, followTree_eq_self (currentTable_of_none hnone),
      .inr ⟨hnone, i0, mem_cons_self, Nat.le_of_not_lt h0⟩⟩

end PageTableIter

namespace PageTable

variable {pt : PageTable} {s : TableMemory}

lemma startingAt_leaves (hprop : pt.Proper s) (i0 i1 i2 i3 : ℕ) :
    ∃ it rs, startingAt s.tables pt i0 i1 i2 i3 = .ok it ∧
      Yields (next s.tables) it rs ∧
      ((∀ i ∈ [i0, i1, i2, i3], i < 512) → rs =
        (pt.leavesFrom s (chunk (pt.view s (pageOfIndices i0 i1 i2 i3)).level
          (pageOfIndices i0 i1 i2 i3))).map (pt.region s)) := by
  obtain ⟨it, hrun, hat | ⟨hnone, i, hi, hlg⟩⟩ :=
    startingAt_cases pt s i0 i1 i2 i3
  · exact ⟨it, _, hrun, hat.chunk.yields hprop (begins_chunk hat.lt), fun _ => rfl⟩
  · refine ⟨it, [], hrun, .done (next_of_none hnone), fun hsm => ?_⟩
    exact absurd (hsm i hi) (Nat.not_lt.mpr hlg)

lemma length_leavesFrom_lt (pt : PageTable) (s : TableMemory) (x : ℕ) :
    (pt.leavesFrom s x).length < maxSteps := by
  have hle : (pt.leavesFrom s x).length ≤ halfPages - x :=
    (length_filter_le _ _).trans_eq length_range'
  exact (hle.trans (Nat.sub_le _ _)).trans_lt (by decide)

lemma mem_leavesFrom_chunk {x y : ℕ} (hx : x < halfPages) :
    y ∈ pt.leavesFrom s (chunk (pt.view s x).level x) ↔ y < halfPages ∧ pt.IsLeaf s y ∧
      pt.address x < pt.address y + span (pt.view s y).level * pageSize := by
  have hend : pt.address x < pt.address y + span (pt.view s y).level * pageSize ↔
      x < y + span (pt.view s y).level := by
    simp only [address, pageSize]
    omega
  rw [mem_leavesFrom, hend]
  constructor
  · rintro ⟨hle, hy, hleaf⟩
    exact ⟨hy, hleaf, (hleaf.1.chunk_le_iff hy hx).mp hle⟩
  · rintro ⟨hy, hleaf, hlt⟩
    exact ⟨(hleaf.1.chunk_le_iff hy hx).mpr hlt, hy, hleaf⟩

/-- From any indices on, the iterator comes to its end without a panic. Where the indices make an
address, it yields the regions of the leaves that end behind this address, in the order of their
addresses. From the first indices on, these are the regions of all pages that are mapped. -/
theorem startingAt_yields (hproper : pt.Proper s) :
    (∀ i0 i1 i2 i3, ∃ it rs, startingAt s.tables pt i0 i1 i2 i3 = .ok it ∧
      Yields (next s.tables) it rs ∧
      ∀ v, VirtualAddress.fromParts ⟨pt.tag, i0, i1, i2, i3, 0⟩ = .ok v →
        (∀ r, r ∈ rs ↔ (∃ y < halfPages, pt.IsLeaf s y ∧ r = pt.region s y) ∧
          v < r.baseVirtAddr + r.pageCount * pageSize) ∧
        rs.Pairwise (fun r r' => r.baseVirtAddr < r'.baseVirtAddr) ∧
        ∀ r ∈ rs, r.pageCount = 1 ∨ r.pageCount = 512 ∨ r.pageCount = 262144) ∧
    ∃ it rs, startingAt s.tables pt 0 0 0 0 = .ok it ∧
      Yields (next s.tables) it rs ∧
      ∀ x < halfPages, ∀ a, pt.frame s x = some a ↔ ∃ r ∈ rs, ∃ j < r.pageCount,
        pt.address x = r.baseVirtAddr + j * pageSize ∧ a = r.basePhysAddr + j * pageSize := by
  refine ⟨fun i0 i1 i2 i3 => ?_, ?_⟩
  · obtain ⟨it, rs, hrun, hyld, hlvs⟩ := startingAt_leaves hproper i0 i1 i2 i3
    refine ⟨it, rs, hrun, hyld, fun v hv => ?_⟩
    obtain ⟨⟨⟨-, h0, h1, h2, h3, -⟩, -⟩, rfl⟩ := VirtualAddress.fromParts_eq_ok.mp hv
    have hlt := pageOfIndices_lt i0 i1 i2 i3
    have haddr : VirtualAddress.Parts.address ⟨pt.tag, i0, i1, i2, i3, 0⟩ =
        pt.address (pageOfIndices i0 i1 i2 i3) := by
      simp only [address, pageOfIndices, if_pos h0, if_pos h1, if_pos h2, if_pos h3]
      exact add_zero _
    obtain rfl := hlvs (by simp [h0, h1, h2, h3])
    rw [haddr]
    refine ⟨fun r => ?_, ?_, fun r hr => ?_⟩
    · rw [mem_map]
      constructor
      · rintro ⟨y, hy, rfl⟩
        obtain ⟨hlty, hleaf, hend⟩ := (mem_leavesFrom_chunk hlt).mp hy
        exact ⟨⟨y, hlty, hleaf, rfl⟩, hend⟩
      · rintro ⟨⟨y, hlty, hleaf, rfl⟩, hend⟩
        exact ⟨y, (mem_leavesFrom_chunk hlt).mpr ⟨hlty, hleaf, hend⟩, rfl⟩
    · rw [pairwise_map]
      exact (leavesFrom_sorted pt s _).imp fun h => address_lt_iff.mpr h
    · obtain ⟨y, hy, rfl⟩ := mem_map.mp hr
      exact (mem_leavesFrom.mp hy).2.2.pageCount_eq
  · obtain ⟨it, rs, hrun, hyld, hlvs⟩ := startingAt_leaves hproper 0 0 0 0
    obtain rfl := hlvs (by simp)
    refine ⟨it, _, hrun, hyld, fun x hx a => ⟨fun hfr => ?_, ?_⟩⟩
    · obtain ⟨y, j, hleaf, hj, rfl⟩ := exists_leaf hx hfr
      have hfst : chunk (pt.view s (pageOfIndices 0 0 0 0)).level
          (pageOfIndices 0 0 0 0) ≤ y := by
        exact (chunk_le _ _).trans (Nat.zero_le y)
      refine ⟨_, mem_map_of_mem (mem_leavesFrom.mpr ⟨hfst, by omega, hleaf⟩), j, hj, ?_, ?_⟩
      · simp only [region, address]
        ring
      · rw [hleaf.frame_add (by omega) hj] at hfr
        exact (Option.some.inj hfr).symm
    · rintro ⟨r, hr, j, hj, haddr, rfl⟩
      obtain ⟨y, hy, rfl⟩ := mem_map.mp hr
      obtain ⟨-, hlty, hleaf⟩ := mem_leavesFrom.mp hy
      have hxy : x = y + j := by
        simp only [region, address, pageSize] at haddr
        omega
      rw [hxy]
      exact hleaf.frame_add hlty hj

/-- The iterator of a table with one block. -/
theorem startingAt_yields_block :
    ∃ it rs, startingAt sampleBlock.tables sampleTable 0 0 0 0 = .ok it ∧
      Yields (next sampleBlock.tables) it rs ∧
      ∀ x < halfPages, ∀ a, sampleTable.frame sampleBlock x = some a ↔
        ∃ r ∈ rs, ∃ j < r.pageCount, sampleTable.address x = r.baseVirtAddr + j * pageSize ∧
          a = r.basePhysAddr + j * pageSize :=
  (startingAt_yields sampleBlock_proper).2

end PageTable

end Kernel.Memory
