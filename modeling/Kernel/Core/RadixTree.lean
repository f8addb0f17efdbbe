import Mathlib.Tactic
import Mathlib.Data.List.Infix

/-!
# Radix trees in memory

The nodes are arrays of entries, stored at addresses. `child` decides from an entry and its level
whether it is the address of a node.
-/

namespace Kernel.Core.RadixTree

open List Function

variable {α ι ε : Type*} (child : ℕ → ε → Option α)

/-- The node at the end of a path that starts on level `lvl`. -/
def follow (nodes : α → ι → ε) : ℕ → α → List ι → Option α
  | _, a, [] => some a
  | lvl, a, i :: is =>
    match child lvl (nodes a i) with
    | some b => follow nodes (lvl + 1) b is
    | none => none

/-- The first entry on the path that is not the address of a node. -/
def lookup (nodes : α → ι → ε) : ℕ → α → List ι → Option (ℕ × ε × List ι)
  | _, _, [] => none
  | lvl, a, i :: is =>
    match child lvl (nodes a i) with
    | some b => lookup nodes (lvl + 1) b is
    | none => some (lvl, nodes a i, is)

/-- No node is reached on two paths. -/
def Distinct (nodes : α → ι → ε) (root : α) : Prop :=
  ∀ p q a, follow child nodes 0 root p = some a → follow child nodes 0 root q = some a → p = q

variable {child} {nodes nodes' : α → ι → ε} {lvl : ℕ} {root a b : α} {i : ι} {p q : List ι} {e : ε}

lemma follow_append :
    follow child nodes lvl a (p ++ q) =
      (follow child nodes lvl a p).bind fun b => follow child nodes (lvl + p.length) b q := by
  induction p generalizing lvl a with
  | nil => rfl
  | cons i p ih =>
    rw [cons_append, follow, follow]
    cases child lvl (nodes a i) with
    | none => rfl
    | some b =>
      dsimp only
      rw [ih, length_cons, add_right_comm, add_assoc]

lemma lookup_append (h : follow child nodes lvl a p = some b) :
    lookup child nodes lvl a (p ++ q) = lookup child nodes (lvl + p.length) b q := by
  induction p generalizing lvl a with
  | nil =>
    cases h
    rfl
  | cons i p ih =>
    rw [follow] at h
    rw [cons_append, lookup]
    cases hc : child lvl (nodes a i) with
    | none => simp [hc] at h
    | some c =>
      rw [hc] at h
      dsimp only at h ⊢
      rw [ih h, length_cons, add_right_comm, add_assoc]

/-- A path sees only the entries that it goes through. -/
lemma follow_lookup_congr
    (h : ∀ q j r b, p = q ++ j :: r → follow child nodes lvl a q = some b →
      nodes' b j = nodes b j) :
    follow child nodes' lvl a p = follow child nodes lvl a p ∧
      lookup child nodes' lvl a p = lookup child nodes lvl a p := by
  induction p generalizing lvl a with
  | nil => exact ⟨rfl, rfl⟩
  | cons i p ih =>
    have hi : nodes' a i = nodes a i := h [] i p a rfl rfl
    simp only [follow, lookup, hi]
    cases hc : child lvl (nodes a i) with
    | none => exact ⟨rfl, rfl⟩
    | some c =>
      refine ih fun q j r b hp hq => h (i :: q) j r b (by rw [hp]; rfl) ?_
      rw [follow, hc]
      exact hq

/-- Write one entry. -/
def set [DecidableEq α] [DecidableEq ι] (nodes : α → ι → ε) (a : α) (i : ι) (e : ε) : α → ι → ε :=
  update nodes a (update (nodes a) i e)

section set

variable [DecidableEq α] [DecidableEq ι]

@[simp] lemma set_self : set nodes a i e a i = e := by simp [set]

lemma set_of_ne {c : α} {j : ι} (h : c ≠ a ∨ j ≠ i) : set nodes a i e c j = nodes c j := by
  by_cases hc : c = a
  · subst hc
    simp [set, h.resolve_left (fun h => h rfl)]
  · simp [set, hc]

variable (hd : Distinct child nodes root) (hp : follow child nodes 0 root p = some a)
include hd hp

/-- The paths that do not go through the entry do not see the write. -/
lemma follow_lookup_set (hq : ¬ p ++ [i] <+: q) :
    follow child (set nodes a i e) 0 root q = follow child nodes 0 root q ∧
      lookup child (set nodes a i e) 0 root q = lookup child nodes 0 root q := by
  refine follow_lookup_congr fun q' j r b hq' hb => set_of_ne ?_
  by_contra hne
  obtain ⟨rfl, rfl⟩ : b = a ∧ j = i := by simpa [not_or] using hne
  rw [hd q' p b hb hp] at hq'
  exact hq ⟨r, by simp [hq']⟩

lemma follow_set_node : follow child (set nodes a i e) 0 root p = some a := by
  rw [(follow_lookup_set hd hp ?_).1, hp]
  intro hpre
  have := hpre.length_le
  simp at this

/-- The paths through the entry continue behind it. -/
lemma lookup_set_append {r : List ι} :
    lookup child (set nodes a i e) 0 root (p ++ i :: r) =
      lookup child (set nodes a i e) p.length a (i :: r) := by
  rw [lookup_append (follow_set_node hd hp), zero_add]

lemma lookup_set_leaf {r : List ι} (hch : child p.length e = none) :
    lookup child (set nodes a i e) 0 root (p ++ i :: r) = some (p.length, e, r) := by
  rw [lookup_set_append hd hp, lookup, set_self, hch]

lemma follow_set_append {r : List ι} :
    follow child (set nodes a i e) 0 root (p ++ i :: r) =
      follow child (set nodes a i e) p.length a (i :: r) := by
  rw [follow_append, follow_set_node hd hp, zero_add]
  rfl

/-- A path that still ends at a node does not go through an entry that ends paths. -/
lemma follow_of_set_leaf (hch : child p.length e = none)
    (hb : follow child (set nodes a i e) 0 root q = some b) :
    follow child nodes 0 root q = some b := by
  by_cases hq : p ++ [i] <+: q
  · obtain ⟨r, rfl⟩ := hq
    rw [append_assoc, singleton_append, follow_set_append hd hp, follow, set_self, hch] at hb
    cases hb
  · rwa [(follow_lookup_set hd hp hq).1] at hb

lemma Distinct.set_leaf (hch : child p.length e = none) :
    Distinct child (set nodes a i e) root := fun _ _ _ hq hq' =>
  hd _ _ _ (follow_of_set_leaf hd hp hch hq) (follow_of_set_leaf hd hp hch hq')

end set

section attach

variable [DecidableEq α] {empty : ι → ε}

/-- A node that is not part of the tree can be overwritten. -/
lemma follow_lookup_update (hfsh : ∀ q, follow child nodes 0 root q ≠ some b) :
    follow child (update nodes b empty) 0 root q = follow child nodes 0 root q ∧
      lookup child (update nodes b empty) 0 root q = lookup child nodes 0 root q := by
  refine follow_lookup_congr fun q' j r c _ hc => ?_
  have hne : c ≠ b := by
    rintro rfl
    exact hfsh q' hc
  rw [update_of_ne hne]

/-- Store an empty node at `b` and its address in an entry of node `a`. -/
def attach [DecidableEq ι] (nodes : α → ι → ε) (a : α) (i : ι) (e : ε) (b : α) (empty : ι → ε) :
    α → ι → ε :=
  set (update nodes b empty) a i e

variable (hd : Distinct child nodes root) (hp : follow child nodes 0 root p = some a)
  (hfsh : ∀ q, follow child nodes 0 root q ≠ some b) (hch : child p.length e = some b)
  (hemp : ∀ lvl j, child lvl (empty j) = none)
include hd hp hfsh

omit hp in
lemma Distinct.update : Distinct child (update nodes b empty) root := fun q q' c hq hq' =>
  hd q q' c ((follow_lookup_update hfsh).1 ▸ hq) ((follow_lookup_update hfsh).1 ▸ hq')

variable [DecidableEq ι]

/-- The paths that do not go through the entry do not see the new node. -/
lemma follow_lookup_attach (hq : ¬ p ++ [i] <+: q) :
    follow child (attach nodes a i e b empty) 0 root q = follow child nodes 0 root q ∧
      lookup child (attach nodes a i e b empty) 0 root q = lookup child nodes 0 root q := by
  have hp' : follow child (update nodes b empty) 0 root p = some a :=
    (follow_lookup_update hfsh).1.trans hp
  have hset := follow_lookup_set (hd.update hfsh) hp' hq (e := e)
  exact ⟨hset.1.trans (follow_lookup_update hfsh).1, hset.2.trans (follow_lookup_update hfsh).2⟩

omit hd in
lemma attach_node (j : ι) : attach nodes a i e b empty b j = empty j := by
  have hne : b ≠ a := by
    rintro rfl
    exact hfsh p hp
  rw [attach, set_of_ne (.inl hne), update_self]

include hch

lemma follow_attach_node :
    follow child (attach nodes a i e b empty) 0 root (p ++ [i]) = some b := by
  rw [attach, follow_set_append (hd.update hfsh) ((follow_lookup_update hfsh).1.trans hp),
    follow, set_self, hch]
  rfl

include hemp

/-- The paths through the new node end in it. -/
lemma lookup_attach {j : ι} {r : List ι} :
    lookup child (attach nodes a i e b empty) 0 root (p ++ i :: j :: r) =
      some (p.length + 1, empty j, r) := by
  rw [append_cons, lookup_append (follow_attach_node hd hp hfsh hch), lookup,
    attach_node hp hfsh, hemp, length_append, length_singleton, zero_add]

lemma follow_of_attach {c : α} (hc : follow child (attach nodes a i e b empty) 0 root q = some c) :
    q = p ++ [i] ∧ c = b ∨ follow child nodes 0 root q = some c := by
  by_cases hq : p ++ [i] <+: q
  · left
    obtain ⟨r, rfl⟩ := hq
    rw [follow_append, follow_attach_node hd hp hfsh hch, Option.bind_some] at hc
    cases r with
    | nil =>
      cases hc
      exact ⟨append_nil _, rfl⟩
    | cons j r =>
      rw [follow, attach_node hp hfsh, hemp] at hc
      cases hc
  · exact .inr ((follow_lookup_attach hd hp hfsh hq).1 ▸ hc)

lemma Distinct.attach : Distinct child (attach nodes a i e b empty) root := by
  intro q q' c h h'
  have hc := follow_of_attach hd hp hfsh hch hemp h
  have hc' := follow_of_attach hd hp hfsh hch hemp h'
  rcases hc with ⟨rfl, rfl⟩ | hq
  · rcases hc' with ⟨rfl, -⟩ | hq'
    · rfl
    · exact absurd hq' (hfsh q')
  · rcases hc' with ⟨-, rfl⟩ | hq'
    · exact absurd hq (hfsh q)
    · exact hd q q' c hq hq'

end attach

/-! ### All nodes -/

section postorder

variable (child) in
/-- The nodes on the paths that are shorter than `depth`, every node behind the ones below it. -/
def postorder (indices : List ι) (nodes : α → ι → ε) : (depth lvl : ℕ) → α → List α
  | 0, _, _ => []
  | depth + 1, lvl, a =>
    (indices.flatMap fun i => match child lvl (nodes a i) with
      | some b => postorder indices nodes depth (lvl + 1) b
      | none => []) ++ [a]

variable {indices : List ι} {depth : ℕ}

lemma mem_postorder (hall : ∀ i, i ∈ indices) :
    b ∈ postorder child indices nodes depth lvl a ↔
      ∃ q, q.length < depth ∧ follow child nodes lvl a q = some b := by
  induction depth generalizing lvl a with
  | zero => simp [postorder]
  | succ depth ih =>
    rw [postorder, mem_append, mem_flatMap, mem_singleton]
    constructor
    · rintro (⟨i, -, hb⟩ | rfl)
      · cases hc : child lvl (nodes a i) with
        | none => simp [hc] at hb
        | some c =>
          rw [hc] at hb
          obtain ⟨q, hlen, hq⟩ := ih.mp hb
          exact ⟨i :: q, by simpa using hlen, by rw [follow, hc]; exact hq⟩
      · exact ⟨[], by simp, rfl⟩
    · rintro ⟨q, hlen, hq⟩
      cases q with
      | nil =>
        cases hq
        exact .inr rfl
      | cons i q =>
        rw [follow] at hq
        cases hc : child lvl (nodes a i) with
        | none => simp [hc] at hq
        | some c =>
          rw [hc] at hq
          refine .inl ⟨i, hall i, ?_⟩
          rw [hc]
          exact ih.mpr ⟨q, by simpa using hlen, hq⟩

/-- No node is listed twice if no node is reached on two paths. -/
lemma nodup_postorder (hind : indices.Nodup) (hall : ∀ i, i ∈ indices)
    (hd : Distinct child nodes root) (hp : follow child nodes 0 root p = some a) :
    (postorder child indices nodes depth p.length a).Nodup := by
  induction depth generalizing p a with
  | zero => exact nodup_nil
  | succ depth ih =>
    -- the nodes below one entry of the node are on the paths through the entry
    have hbel : ∀ i b, b ∈ (match child p.length (nodes a i) with
        | some b => postorder child indices nodes depth (p.length + 1) b
        | none => []) → ∃ q, follow child nodes 0 root (p ++ i :: q) = some b := by
      intro i b hb
      cases hc : child p.length (nodes a i) with
      | none => simp [hc] at hb
      | some c =>
        rw [hc] at hb
        obtain ⟨q, -, hq⟩ := (mem_postorder hall).mp hb
        refine ⟨q, ?_⟩
        rw [follow_append, hp, Option.bind_some, follow, zero_add, hc]
        exact hq
    rw [postorder, nodup_append, nodup_flatMap]
    refine ⟨⟨fun i _ => ?_, hind.imp fun {i j} hij b hi hj => ?_⟩, nodup_singleton a, ?_⟩
    · cases hc : child p.length (nodes a i) with
      | none => exact nodup_nil
      | some c =>
        have hfol : follow child nodes 0 root (p ++ [i]) = some c := by
          rw [follow_append, hp, Option.bind_some, follow, zero_add, hc]
          rfl
        have hnd := ih hfol
        rwa [length_append, length_singleton] at hnd
    · obtain ⟨q, hq⟩ := hbel i b hi
      obtain ⟨q', hq'⟩ := hbel j b hj
      exact hij (List.cons.inj (append_cancel_left (hd _ _ _ hq hq'))).1
    · rintro b hb _ ha rfl
      obtain rfl := mem_singleton.mp ha
      obtain ⟨i, -, hb⟩ := mem_flatMap.mp hb
      obtain ⟨q, hq⟩ := hbel i b hb
      exact absurd (hd _ _ _ hq hp) (by simp)

/-- A recursion that visits the nodes below a node and then the node itself is a loop over all
nodes. -/
lemma visit_eq {m : Type* → Type*} [Monad m] [LawfulMonad m] {σ : Type _} {f : σ → α → m σ}
    {visit : (depth lvl : ℕ) → α → σ → m σ} (hzero : ∀ lvl a st, visit 0 lvl a st = pure st)
    (hsucc : ∀ depth lvl a st, visit (depth + 1) lvl a st = do
      let st ← indices.foldlM (fun st i => match child lvl (nodes a i) with
        | some b => visit depth (lvl + 1) b st
        | none => pure st) st
      f st a) (st : σ) :
    visit depth lvl a st = (postorder child indices nodes depth lvl a).foldlM f st := by
  induction depth generalizing lvl a st with
  | zero => exact hzero lvl a st
  | succ depth ih =>
    rw [hsucc, postorder, foldlM_append]
    have hloop : ∀ (is : List ι) st, (is.flatMap fun i => match child lvl (nodes a i) with
        | some b => postorder child indices nodes depth (lvl + 1) b
        | none => []).foldlM f st =
          is.foldlM (fun st i => match child lvl (nodes a i) with
            | some b => visit depth (lvl + 1) b st
            | none => pure st) st := by
      intro is
      induction is with
      | nil => exact fun _ => rfl
      | cons i is ihis =>
        intro st
        rw [flatMap_cons, foldlM_append, foldlM_cons]
        cases hc : child lvl (nodes a i) with
        | none => simp [ihis]
        | some c => simp [ihis, ih]
    rw [hloop]
    simp

end postorder

end Kernel.Core.RadixTree
