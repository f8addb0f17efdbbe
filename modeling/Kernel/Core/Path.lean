import Mathlib.Tactic
import Mathlib.Logic.Function.Basic

/-!
# Singly linked lists in memory

`Path next a as b` says that following the links from `a` visits the nodes `as` and arrives at `b`.
-/

namespace Kernel.Core

open List Function

variable {α : Type*} {next next' : α → Option α} {a b c x y null : α} {as bs l r : List α}

/-- Following the links from the first pointer visits the nodes and arrives at the second. -/
def Path (next : α → Option α) : α → List α → α → Prop
  | a, [], b => a = b
  | a, x :: as, b => a = x ∧ ∃ c, next x = some c ∧ Path next c as b

@[simp] lemma path_nil : Path next a [] b ↔ a = b := Iff.rfl

@[simp] lemma path_cons :
    Path next a (x :: as) b ↔ a = x ∧ ∃ c, next x = some c ∧ Path next c as b := Iff.rfl

lemma path_append :
    Path next a (as ++ bs) b ↔ ∃ c, Path next a as c ∧ Path next c bs b := by
  induction as generalizing a with
  | nil => simp
  | cons x as ih =>
    simp only [cons_append, path_cons, ih]
    constructor
    · rintro ⟨rfl, c, hc, d, hd, hrest⟩
      exact ⟨d, ⟨rfl, c, hc, hd⟩, hrest⟩
    · rintro ⟨d, ⟨rfl, c, hc, hd⟩, hrest⟩
      exact ⟨rfl, c, hc, d, hd, hrest⟩

lemma Path.congr (h : Path next a as b) (hlnk : ∀ x ∈ as, next' x = next x) :
    Path next' a as b := by
  induction as generalizing a with
  | nil => exact h
  | cons x as ih =>
    obtain ⟨rfl, c, hc, hrest⟩ := h
    refine ⟨rfl, c, (hlnk a mem_cons_self).trans hc, ih hrest ?_⟩
    intro y hy
    exact hlnk y (mem_cons_of_mem _ hy)

lemma Path.isSome (h : Path next a as b) (hx : x ∈ as) : (next x).isSome := by
  induction as generalizing a with
  | nil => simp at hx
  | cons y as ih =>
    obtain ⟨rfl, c, hc, hrest⟩ := h
    rcases mem_cons.mp hx with rfl | hx
    · exact Option.isSome_of_mem hc
    · exact ih hrest hx

/-- The nodes of a path and its end determine the links of these nodes. -/
lemma Path.next_eq (h : Path next a as b) (h' : Path next' c as b) (hx : x ∈ as) :
    next' x = next x := by
  induction as generalizing a c with
  | nil => simp at hx
  | cons y as ih =>
    obtain ⟨rfl, d, hd, hrest⟩ := h
    obtain ⟨rfl, e, he, hrest'⟩ := h'
    rcases mem_cons.mp hx with rfl | hx
    · cases as with
      | nil => rw [hd, he, hrest, hrest']
      | cons z as => rw [hd, he, hrest.1, hrest'.1]
    · exact ih hrest hrest' hx

/-- The links from a pointer to `null` visit the same nodes each time. -/
lemma Path.unique (hnull : next null = none) (h : Path next a as null)
    (h' : Path next a bs null) : as = bs := by
  induction as generalizing a bs with
  | nil =>
    cases bs with
    | nil => rfl
    | cons y bs =>
      obtain ⟨rfl, c, hc, -⟩ := h'
      cases h
      rw [hnull] at hc
      cases hc
  | cons x as ih =>
    obtain ⟨rfl, c, hc, hrest⟩ := h
    cases bs with
    | nil =>
      cases h'
      rw [hnull] at hc
      cases hc
    | cons y bs =>
      obtain ⟨rfl, d, hd, hrest'⟩ := h'
      cases hc.symm.trans hd
      rw [ih hrest hrest']

/-- A path to `null` runs in no circle. -/
lemma Path.nodup (hnull : next null = none) (h : Path next a as null) : as.Nodup := by
  induction as generalizing a with
  | nil => exact nodup_nil
  | cons x as ih =>
    obtain ⟨rfl, c, hc, hrest⟩ := h
    refine nodup_cons.mpr ⟨?_, ih hrest⟩
    intro hmem
    obtain ⟨l, r, rfl⟩ := append_of_mem hmem
    -- from the second visit on, the path is the whole path again
    obtain ⟨d, -, hsec⟩ := path_append.mp hrest
    have hd : d = a := hsec.1
    subst hd
    have hwho : Path next d (d :: (l ++ d :: r)) null := ⟨rfl, c, hc, hrest⟩
    have hlen := congrArg List.length (Path.unique hnull hwho hsec)
    simp only [length_cons, length_append] at hlen
    omega

/-- The pointers that the links lead to from a pointer. -/
def Leads (next : α → Option α) (a b : α) : Prop := ∃ as, Path next a as b

lemma Leads.mem_or_eq (hnull : next null = none) (h : Path next a as null)
    (hlead : Leads next a b) : b ∈ as ∨ b = null := by
  obtain ⟨bs, hbs⟩ := hlead
  induction bs generalizing a as with
  | nil =>
    cases hbs
    cases as with
    | nil => exact Or.inr h
    | cons x as => exact Or.inl (h.1 ▸ mem_cons_self)
  | cons y bs ih =>
    obtain ⟨rfl, c, hc, hrest⟩ := hbs
    cases as with
    | nil =>
      cases h
      rw [hnull] at hc
      cases hc
    | cons x as =>
      obtain ⟨rfl, d, hd, hrest'⟩ := h
      cases hc.symm.trans hd
      exact (ih hrest' hrest).imp_left (mem_cons_of_mem _)

lemma Path.leads (h : Path next a as b) (hx : x ∈ as) : Leads next a x := by
  obtain ⟨l, r, rfl⟩ := append_of_mem hx
  obtain ⟨c, hl, hr⟩ := path_append.mp h
  obtain ⟨rfl, -⟩ := hr
  exact ⟨l, hl⟩

variable [DecidableEq α]

/-- Taking the node after `x` out of a path to `null` that visits `x`. -/
lemma Path.unlink (hnull : next null = none) (h : Path next a (l ++ x :: y :: r) null) :
    Path (Function.update next x (next y)) a (l ++ x :: r) null := by
  have hnd := h.nodup hnull
  obtain ⟨c, hl, rfl, d, hd, rfl, e, he, hr⟩ := path_append.mp h
  rw [nodup_append] at hnd
  obtain ⟨-, hrig, hdisj⟩ := hnd
  refine path_append.mpr ⟨c, ?_, rfl, e, ?_, ?_⟩
  · apply hl.congr
    intro z hz
    have hzc : z ≠ c := hdisj z hz c mem_cons_self
    exact update_of_ne hzc _ _
  · rw [update_self, he]
  · apply hr.congr
    intro z hz
    have hzc : z ≠ c := by
      rintro rfl
      simp [hz] at hrig
    exact update_of_ne hzc _ _

/-- Wherever a pointer stands, after `y` was taken out behind `x` it leads past the same nodes, or
past all of them but `y`. -/
lemma Path.after_unlink (hnull : next null = none) (hx : next x = some y) (hy : (next y).isSome)
    (h : Path next a as null) :
    ∃ bs, Path (Function.update next x (next y)) a bs null ∧
      (bs = as ∨ ∃ l r, as = l ++ y :: r ∧ bs = l ++ r) := by
  by_cases hmem : x ∈ as
  · obtain ⟨l, r, rfl⟩ := append_of_mem hmem
    obtain ⟨c, -, rfl, d, hd, hr⟩ := path_append.mp h
    cases hx.symm.trans hd
    cases r with
    | nil =>
      cases hr
      simp [hnull] at hy
    | cons z r =>
      obtain ⟨rfl, hrest⟩ := hr
      exact ⟨l ++ c :: r, h.unlink hnull, Or.inr ⟨l ++ [c], r, by simp, by simp⟩⟩
  · refine ⟨as, h.congr ?_, Or.inl rfl⟩
    intro z hz
    exact update_of_ne (by rintro rfl; exact hmem hz) _ _

end Kernel.Core
