import Mathlib.Data.List.Infix
import Mathlib.Logic.Function.Basic
import Mathlib.Tactic

/-!
# Prefix trees

A key with a value ends at a leaf, so no such key is a prefix of another one.
-/

namespace Kernel.Core

open List Function Option

/-- A tree with the values of type `α` at its leaves. -/
inductive PrefixTree (κ α : Type) where
  | branch (children : κ → Option (PrefixTree κ α))
  | leaf (a : α)

namespace PrefixTree

variable {κ α : Type}

def empty : PrefixTree κ α := .branch fun _ => none

/-- The subtree behind a key. -/
def get? : PrefixTree κ α → List κ → Option (PrefixTree κ α)
  | t, [] => some t
  | .branch children, k :: ks => (children k).bind fun t => t.get? ks
  | .leaf _, _ :: _ => none

/-- The key `ks` has the value `a`. -/
def Stores (t : PrefixTree κ α) (ks : List κ) (a : α) : Prop := t.get? ks = some (.leaf a)

/-- Every branch below the root leads to a value. -/
def Full (t : PrefixTree κ α) : Prop :=
  ∀ ks children, ks ≠ [] → t.get? ks = some (.branch children) →
    ∃ rs a, rs ≠ [] ∧ t.Stores (ks ++ rs) a

@[simp] lemma get?_nil (t : PrefixTree κ α) : t.get? [] = some t := by
  cases t <;> rfl

@[simp] lemma get?_branch_cons (children : κ → Option (PrefixTree κ α)) (k : κ) (ks : List κ) :
    (branch children).get? (k :: ks) = (children k).bind fun t => t.get? ks := rfl

@[simp] lemma get?_leaf_cons (a : α) (k : κ) (ks : List κ) :
    (leaf a : PrefixTree κ α).get? (k :: ks) = none := rfl

lemma stores_leaf {a b : α} {ls : List κ} : (leaf a).Stores ls b ↔ ls = [] ∧ b = a := by
  cases ls with
  | nil => simp [Stores, eq_comm]
  | cons l ls => simp [Stores]

variable {children : κ → Option (PrefixTree κ α)}

lemma stores_branch {ls : List κ} {b : α} :
    (branch children).Stores ls b ↔
      ∃ l rs t, ls = l :: rs ∧ children l = some t ∧ t.Stores rs b := by
  cases ls with
  | nil => simp [Stores]
  | cons l ls =>
    simp only [Stores, get?_branch_cons, bind_eq_some_iff, List.cons.injEq]
    constructor
    · rintro ⟨t, ht, hsto⟩
      exact ⟨l, ls, t, ⟨rfl, rfl⟩, ht, hsto⟩
    · rintro ⟨_, _, t, ⟨rfl, rfl⟩, ht, hsto⟩
      exact ⟨t, ht, hsto⟩

lemma full_empty : (empty : PrefixTree κ α).Full := by
  intro ks children hks hget
  cases ks with
  | nil => exact absurd rfl hks
  | cons k ks => cases hget

/-- The subtrees of a full tree are full. -/
lemma Full.child {k : κ} {t : PrefixTree κ α}
    (h : (branch children).Full) (hk : children k = some t) : t.Full := by
  intro ks c hks hget
  obtain ⟨rs, a, hrs, hsto⟩ := h (k :: ks) c (cons_ne_nil k ks) (by simpa [hk] using hget)
  refine ⟨rs, a, hrs, ?_⟩
  rwa [Stores, cons_append, get?_branch_cons, hk] at hsto

/-- There is a value below every subtree of a full tree. -/
lemma Full.exists_stores {k : κ} {t : PrefixTree κ α}
    (h : (branch children).Full) (hk : children k = some t) : ∃ rs a, t.Stores rs a := by
  cases t with
  | leaf a => exact ⟨[], a, rfl⟩
  | branch c =>
    obtain ⟨rs, a, -, hsto⟩ := h [k] c (cons_ne_nil k []) (by simp [hk])
    refine ⟨rs, a, ?_⟩
    rwa [Stores, cons_append, get?_branch_cons, hk] at hsto

section insert

variable [DecidableEq κ]

/-- Give the key that consists of `ps` and the last letter `k` the value `a`. -/
def insert (k : κ) (a : α) : List κ → PrefixTree κ α → Option (PrefixTree κ α)
  | [], .branch children =>
    if (children k).isSome then none
    else some (.branch (Function.update children k (some (.leaf a))))
  | p :: ps, .branch children =>
    (insert k a ps ((children p).getD empty)).map fun t =>
      .branch (Function.update children p (some t))
  | _, .leaf _ => none

variable {t t' : PrefixTree κ α} {k : κ} {a b : α} {ps ls : List κ}

/-- There is a value in the way of the key. -/
def Obstructed (t : PrefixTree κ α) (ks : List κ) : Prop :=
  ∃ ls b, t.Stores ls b ∧ (ls <+: ks ∨ ks <+: ls)

omit [DecidableEq κ] in
variable {children : κ → Option (PrefixTree κ α)}

lemma obstructed_branch_cons {ks : List κ} :
    (branch children).Obstructed (k :: ks) ↔ ∃ t, children k = some t ∧ t.Obstructed ks := by
  constructor
  · rintro ⟨ls, b, hsto, hcmp⟩
    obtain ⟨l, rs, t, rfl, hl, hrs⟩ := stores_branch.mp hsto
    rw [cons_prefix_cons, cons_prefix_cons] at hcmp
    rcases hcmp with ⟨rfl, h⟩ | ⟨rfl, h⟩
    · exact ⟨t, hl, rs, b, hrs, .inl h⟩
    · exact ⟨t, hl, rs, b, hrs, .inr h⟩
  · rintro ⟨t, hk, ls, b, hsto, hcmp⟩
    refine ⟨k :: ls, b, stores_branch.mpr ⟨k, ls, t, rfl, hk, hsto⟩, ?_⟩
    rwa [cons_prefix_cons, cons_prefix_cons, and_iff_right rfl, and_iff_right rfl]

omit [DecidableEq κ] in
lemma not_obstructed_empty (ks : List κ) : ¬ (empty : PrefixTree κ α).Obstructed ks := by
  rintro ⟨ls, b, hsto, -⟩
  obtain ⟨_, _, _, _, hl, _⟩ := stores_branch.mp hsto
  cases hl

lemma Full.insert_eq_none_iff (h : t.Full) (k : κ) (a : α) (ps : List κ) :
    insert k a ps t = none ↔ t.Obstructed (ps ++ [k]) := by
  induction ps generalizing t with
  | nil =>
    cases t with
    | leaf b =>
      exact ⟨fun _ => ⟨[], b, rfl, .inl nil_prefix⟩, fun _ => rfl⟩
    | branch children =>
      rw [insert, nil_append, obstructed_branch_cons]
      cases hk : children k with
      | none => simp
      | some t =>
        obtain ⟨rs, b, hsto⟩ := h.exists_stores hk
        simp only [isSome_some, if_true, true_iff]
        exact ⟨t, rfl, rs, b, hsto, .inr nil_prefix⟩
  | cons p ps ih =>
    cases t with
    | leaf b =>
      exact ⟨fun _ => ⟨[], b, rfl, .inl nil_prefix⟩, fun _ => rfl⟩
    | branch children =>
      rw [insert, cons_append, obstructed_branch_cons, map_eq_none_iff]
      cases hp : children p with
      | none =>
        rw [getD_none, ih full_empty]
        simp [not_obstructed_empty]
      | some t =>
        rw [getD_some, ih (h.child hp)]
        simp

/-- What is stored after one child has been replaced. -/
lemma stores_update {p : κ} :
    (branch (Function.update children p (some t'))).Stores ls b ↔
      (∃ rs, ls = p :: rs ∧ t'.Stores rs b) ∨
        ls.head? ≠ some p ∧ (branch children).Stores ls b := by
  rw [stores_branch, stores_branch]
  constructor
  · rintro ⟨l, rs, t, rfl, hl, hsto⟩
    by_cases hlp : l = p
    · subst hlp
      rw [update_self] at hl
      cases hl
      exact .inl ⟨rs, rfl, hsto⟩
    · rw [update_of_ne hlp] at hl
      exact .inr ⟨by simpa using hlp, l, rs, t, rfl, hl, hsto⟩
  · rintro (⟨rs, rfl, hsto⟩ | ⟨hhead, l, rs, t, rfl, hl, hsto⟩)
    · exact ⟨p, rs, t', rfl, update_self .., hsto⟩
    · have hlp : l ≠ p := by simpa using hhead
      exact ⟨l, rs, t, rfl, by rwa [update_of_ne hlp], hsto⟩

omit [DecidableEq κ] in
/-- What is stored below one child. A child that is missing counts as an empty one. -/
lemma stores_child {p : κ} {rs : List κ} :
    ((children p).getD empty).Stores rs b ↔ (branch children).Stores (p :: rs) b := by
  rw [Stores, Stores, get?_branch_cons]
  cases children p with
  | none =>
    refine ⟨fun hsto => ?_, nofun⟩
    exact absurd ⟨rs, b, hsto, .inl prefix_rfl⟩ (not_obstructed_empty rs)
  | some t => rfl

/-- A key that is inserted has its value, and the other keys keep theirs. -/
lemma stores_of_insert (h : insert k a ps t = some t') :
    t'.Stores ls b ↔ t.Stores ls b ∨ ls = ps ++ [k] ∧ b = a := by
  induction ps generalizing t t' ls with
  | nil =>
    cases t with
    | leaf b => cases h
    | branch children =>
      rw [insert] at h
      split_ifs at h with hk
      cases h
      rw [stores_update]
      constructor
      · rintro (⟨rs, rfl, hsto⟩ | ⟨-, hsto⟩)
        · obtain ⟨rfl, rfl⟩ := stores_leaf.mp hsto
          exact .inr ⟨rfl, rfl⟩
        · exact .inl hsto
      · rintro (hsto | ⟨rfl, rfl⟩)
        · refine .inr ⟨fun hhead => ?_, hsto⟩
          obtain ⟨l, rs, t, rfl, hl, -⟩ := stores_branch.mp hsto
          rw [List.head?_cons, Option.some.injEq] at hhead
          rw [hhead] at hl
          exact hk (by rw [hl]; rfl)
        · exact .inl ⟨[], rfl, rfl⟩
  | cons p ps ih =>
    cases t with
    | leaf b => cases h
    | branch children =>
      rw [insert, map_eq_some_iff] at h
      obtain ⟨t', hins, rfl⟩ := h
      rw [stores_update]
      constructor
      · rintro (⟨rs, rfl, hsto⟩ | ⟨-, hsto⟩)
        · rcases (ih hins).mp hsto with hold | ⟨rfl, rfl⟩
          · exact .inl (stores_child.mp hold)
          · exact .inr ⟨rfl, rfl⟩
        · exact .inl hsto
      · rintro (hsto | ⟨rfl, rfl⟩)
        · by_cases hhead : ls.head? = some p
          · obtain ⟨rs, rfl⟩ := List.head?_eq_some_iff.mp hhead
            exact .inl ⟨rs, rfl, (ih hins).mpr (.inl (stores_child.mpr hsto))⟩
          · exact .inr ⟨hhead, hsto⟩
        · exact .inl ⟨ps ++ [k], rfl, (ih hins).mpr (.inr ⟨rfl, rfl⟩)⟩

lemma Full.insert (hfull : t.Full) (h : insert k a ps t = some t') : t'.Full := by
  induction ps generalizing t t' with
  | nil =>
    cases t with
    | leaf b => cases h
    | branch children =>
      rw [PrefixTree.insert] at h
      split_ifs at h with hk
      cases h
      rintro (_ | ⟨l, ls⟩) c hks hget
      · exact absurd rfl hks
      · by_cases hlk : l = k
        · subst hlk
          rw [get?_branch_cons, update_self, bind_some] at hget
          cases ls with
          | nil | cons _ _ => cases hget
        · rw [get?_branch_cons, update_of_ne hlk] at hget
          obtain ⟨rs, b, hrs, hsto⟩ := hfull (l :: ls) c hks hget
          refine ⟨rs, b, hrs, ?_⟩
          rwa [Stores, cons_append, get?_branch_cons, update_of_ne hlk]
  | cons p ps ih =>
    cases t with
    | leaf b => cases h
    | branch children =>
      rw [PrefixTree.insert, map_eq_some_iff] at h
      obtain ⟨t', hins, rfl⟩ := h
      have hold : ((children p).getD empty).Full := by
        cases hp : children p with
        | none => exact full_empty
        | some t => exact hfull.child hp
      rintro (_ | ⟨l, ls⟩) c hks hget
      · exact absurd rfl hks
      · by_cases hlp : l = p
        · subst hlp
          -- the subtree itself leads to the new value
          have hsub : ∃ rs b, rs ≠ [] ∧ t'.Stores (ls ++ rs) b := by
            rw [get?_branch_cons, update_self, bind_some] at hget
            cases ls with
            | nil => exact ⟨ps ++ [k], a, by simp, (stores_of_insert hins).mpr (.inr ⟨rfl, rfl⟩)⟩
            | cons l' ls => exact ih hold hins (l' :: ls) c (cons_ne_nil _ _) hget
          obtain ⟨rs, b, hrs, hsto⟩ := hsub
          refine ⟨rs, b, hrs, ?_⟩
          rwa [Stores, cons_append, get?_branch_cons, update_self]
        · rw [get?_branch_cons, update_of_ne hlp] at hget
          obtain ⟨rs, b, hrs, hsto⟩ := hfull (l :: ls) c hks hget
          refine ⟨rs, b, hrs, ?_⟩
          rwa [Stores, cons_append, get?_branch_cons, update_of_ne hlp]

end insert

end PrefixTree

end Kernel.Core
