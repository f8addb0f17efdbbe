import Mathlib.Tactic
import Mathlib.Data.List.Nodup

/-!
# Doubly linked lists in memory

`Linked next prev before ps after` says that the nodes `ps` are linked in both directions, the first
one back to `before` and the last one on to `after`.
-/

namespace Kernel.Core

open List

variable {α : Type*} {next prev next' prev' : α → α} {before after x : α} {l r ps : List α}

/-- The nodes are linked in both directions between their neighbours `before` and `after`. -/
def Linked (next prev : α → α) : α → List α → α → Prop
  | _, [], _ => True
  | before, p :: ps, after =>
    prev p = before ∧ next p = ps.headD after ∧ Linked next prev p ps after

@[simp] lemma linked_nil : Linked next prev before [] after := trivial

@[simp] lemma linked_cons {p : α} :
    Linked next prev before (p :: ps) after ↔
      prev p = before ∧ next p = ps.headD after ∧ Linked next prev p ps after := Iff.rfl

lemma headD_append : (l ++ r).headD after = l.headD (r.headD after) := by
  cases l <;> rfl

lemma getLastD_append : (l ++ r).getLastD before = r.getLastD (l.getLastD before) := by
  induction l generalizing before with
  | nil => rfl
  | cons p l ih => simp only [cons_append, getLastD_cons, ih]

lemma linked_append :
    Linked next prev before (l ++ r) after ↔
      Linked next prev before l (r.headD after) ∧ Linked next prev (l.getLastD before) r after := by
  induction l generalizing before with
  | nil => simp
  | cons p l ih =>
    simp only [cons_append, linked_cons, ih, headD_append, getLastD_cons, and_assoc]

lemma Linked.congr (h : Linked next prev before ps after)
    (hlnk : ∀ p ∈ ps, next' p = next p ∧ prev' p = prev p) :
    Linked next' prev' before ps after := by
  induction ps generalizing before with
  | nil => trivial
  | cons p ps ih =>
    obtain ⟨hprev, hnext, hrest⟩ := h
    obtain ⟨hn, hp⟩ := hlnk p mem_cons_self
    exact ⟨hp.trans hprev, hn.trans hnext, ih hrest fun q hq => hlnk q (mem_cons_of_mem _ hq)⟩

/-- The first node determines the others. -/
lemma Linked.eq_of_headD {before' : α} {qs : List α} (hp : Linked next prev before ps after)
    (hq : Linked next prev before' qs after) (hps : after ∉ ps) (hqs : after ∉ qs)
    (hhead : ps.headD after = qs.headD after) : ps = qs := by
  induction ps generalizing before before' qs with
  | nil =>
    cases qs with
    | nil => rfl
    | cons q qs =>
      obtain rfl : after = q := hhead
      exact absurd mem_cons_self hqs
  | cons p ps ih =>
    cases qs with
    | nil =>
      obtain rfl : p = after := hhead
      exact absurd mem_cons_self hps
    | cons q qs =>
      obtain rfl : p = q := hhead
      exact congrArg _ (ih hp.2.2 hq.2.2 (not_mem_of_not_mem_cons hps)
        (not_mem_of_not_mem_cons hqs) (hp.2.1.symm.trans hq.2.1))

lemma headD_mem_cons (r : List α) (after : α) : r.headD after ∈ after :: r := by
  cases r <;> simp

lemma ne_getLastD (hnd : (l ++ r).Nodup) (hbef : before ∉ l ++ r) {p : α} (hp : p ∈ r) :
    p ≠ l.getLastD before := by
  rintro rfl
  rcases mem_cons.mp (getLastD_mem_cons (l := l) (a := before)) with h | h
  · exact hbef (mem_append_right _ (h ▸ hp))
  · exact (nodup_append.mp hnd).2.2 _ h _ hp rfl

lemma ne_headD (hnd : (l ++ r).Nodup) (haft : after ∉ l ++ r) {p : α} (hp : p ∈ l) :
    p ≠ r.headD after := by
  rintro rfl
  rcases mem_cons.mp (headD_mem_cons r after) with h | h
  · exact haft (mem_append_left _ (h ▸ hp))
  · exact (nodup_append.mp hnd).2.2 _ hp _ h rfl

section splice

variable [DecidableEq α]

/-- The last node is linked to another successor. -/
lemma Linked.set_after {after' : α} (h : Linked next prev before l after) (hnd : l.Nodup)
    (hnext : ∀ p ∈ l, next' p = if p = l.getLastD before then after' else next p)
    (hprev : ∀ p ∈ l, prev' p = prev p) : Linked next' prev' before l after' := by
  rcases eq_nil_or_concat l with rfl | ⟨l, p, rfl⟩
  · trivial
  · rw [concat_eq_append] at *
    rw [linked_append] at h ⊢
    rw [nodup_append] at hnd
    refine ⟨h.1.congr fun q hq => ⟨?_, hprev q (by simp [hq])⟩, ?_⟩
    · have hne : q ≠ p := hnd.2.2 q hq p (by simp)
      simp [hnext q (by simp [hq]), hne]
    · exact ⟨(hprev p (by simp)).trans h.2.1, by simpa using hnext p (by simp), trivial⟩

/-- The first node is linked to another predecessor. -/
lemma Linked.set_before {before' : α} (h : Linked next prev before r after) (hnd : r.Nodup)
    (hprev : ∀ p ∈ r, prev' p = if p = r.headD after then before' else prev p)
    (hnext : ∀ p ∈ r, next' p = next p) : Linked next' prev' before' r after := by
  cases r with
  | nil => trivial
  | cons p r =>
    rw [nodup_cons] at hnd
    refine ⟨by simpa using hprev p (by simp), (hnext p (by simp)).trans h.2.1,
      h.2.2.congr fun q hq => ⟨hnext q (by simp [hq]), ?_⟩⟩
    have hne : q ≠ p := by
      rintro rfl
      exact hnd.1 hq
    simp [hprev q (by simp [hq]), hne]

/-- Both parts of a list stay linked when only the links at the cut change. -/
lemma Linked.relink {a a' b b' : α} (hl : Linked next prev before l a)
    (hr : Linked next prev b r after) (hnd : (l ++ r).Nodup) (hbef : before ∉ l ++ r)
    (haft : after ∉ l ++ r)
    (hnext : ∀ p ∈ l ++ r, next' p = if p = l.getLastD before then a' else next p)
    (hprev : ∀ p ∈ l ++ r, prev' p = if p = r.headD after then b' else prev p) :
    Linked next' prev' before l a' ∧ Linked next' prev' b' r after := by
  obtain ⟨hnodup_l, hnodup_r, -⟩ := nodup_append.mp hnd
  constructor
  · refine hl.set_after hnodup_l (fun p hp => hnext p (mem_append_left _ hp)) fun p hp => ?_
    rw [hprev p (mem_append_left _ hp), if_neg (ne_headD hnd haft hp)]
  · refine hr.set_before hnodup_r (fun p hp => hprev p (mem_append_right _ hp)) fun p hp => ?_
    rw [hnext p (mem_append_right _ hp), if_neg (ne_getLastD hnd hbef hp)]

/-- Node `x` was taken out of the list. -/
lemma Linked.remove (h : Linked next prev before (l ++ x :: r) after) (hnd : (l ++ r).Nodup)
    (hbef : before ∉ l ++ r) (haft : after ∉ l ++ r)
    (hnext : ∀ p ∈ l ++ r, next' p = if p = l.getLastD before then r.headD after else next p)
    (hprev : ∀ p ∈ l ++ r, prev' p = if p = r.headD after then l.getLastD before else prev p) :
    Linked next' prev' before (l ++ r) after := by
  rw [linked_append, linked_cons] at h
  exact linked_append.mpr (h.1.relink h.2.2.2 hnd hbef haft hnext hprev)

/-- Node `x` was put into the list. -/
lemma Linked.insert (h : Linked next prev before (l ++ r) after) (hnd : (l ++ r).Nodup)
    (hbef : before ∉ l ++ r) (haft : after ∉ l ++ r)
    (hnext : ∀ p ∈ l ++ r, next' p = if p = l.getLastD before then x else next p)
    (hprev : ∀ p ∈ l ++ r, prev' p = if p = r.headD after then x else prev p)
    (hnext_x : next' x = r.headD after) (hprev_x : prev' x = l.getLastD before) :
    Linked next' prev' before (l ++ x :: r) after := by
  rw [linked_append] at h
  obtain ⟨hl, hr⟩ := h.1.relink h.2 hnd hbef haft hnext hprev
  exact linked_append.mpr ⟨hl, hprev_x, hnext_x, hr⟩

end splice

end Kernel.Core
