import Mathlib.Data.Set.Finite.Basic

/-!
# Iterators

An iterator is a state with a step that returns the next value and the state behind it, ends, or
fails.
-/

namespace Kernel.Core

variable {ι α β ε : Type}

/-- The values that the iterator returns until it ends. -/
inductive Yields (next : ι → Except ε (Option (α × ι))) : ι → List α → Prop where
  | done {it : ι} (h : next it = .ok none) : Yields next it []
  | more {it it' : ι} {a : α} {as : List α} (h : next it = .ok (some (a, it')))
      (rest : Yields next it' as) : Yields next it (a :: as)

variable {next : ι → Except ε (Option (α × ι))} {it : ι} {as : List α}

lemma Yields.congr {it' : ι}
    (h : Yields next it' as) (heq : next it = next it') : Yields next it as := by
  cases h with
  | done h => exact .done (heq.trans h)
  | more h rest => exact .more (heq.trans h) rest

section

open Relation

/-- The iterator comes from one state to the other. -/
def Follows (next : ι → Except ε (Option (α × ι))) (it it' : ι) : Prop :=
  ∃ a, next it = .ok (some (a, it'))

variable {next : ι → Except ε (Option (α × ι))} {it it' : ι} {as : List α}

lemma Yields.of_follows (h : Yields next it as) (hstep : Follows next it it') :
    ∃ bs, Yields next it' bs ∧ bs.length < as.length := by
  obtain ⟨a, hstep⟩ := hstep
  cases h with
  | done hnext => cases hstep.symm.trans hnext
  | more hnext rest =>
    cases hstep.symm.trans hnext
    exact ⟨_, rest, Nat.lt_succ_self _⟩

lemma Yields.of_transGen (h : Yields next it as) (hreach : TransGen (Follows next) it it') :
    ∃ bs, Yields next it' bs ∧ bs.length < as.length := by
  induction hreach with
  | single hstep => exact h.of_follows hstep
  | tail _ hstep ih =>
    obtain ⟨bs, hbs, hlt⟩ := ih
    obtain ⟨cs, hcs, hlt'⟩ := hbs.of_follows hstep
    exact ⟨cs, hcs, hlt'.trans hlt⟩

/-- An iterator that ends does not come to a state again. -/
lemma Yields.not_transGen (h : Yields next it as) : ¬ TransGen (Follows next) it it := by
  intro hcyc
  induction hn : as.length using Nat.strong_induction_on generalizing as with
  | _ n ih =>
    obtain ⟨bs, hbs, hlt⟩ := h.of_transGen hcyc
    exact ih _ (hn ▸ hlt) hbs rfl

/-- An iterator that returns its states does not return one of them twice. -/
lemma Yields.nodup {next : ι → Except ε (Option (ι × ι))} {as : List ι}
    (hval : ∀ it a it', next it = .ok (some (a, it')) → a = it) (h : Yields next it as) :
    as.Nodup ∧ ∀ a ∈ as, ReflTransGen (Follows next) it a := by
  induction h with
  | done => exact ⟨List.nodup_nil, nofun⟩
  | @more it it' a as hnext rest ih =>
    obtain rfl := hval _ _ _ hnext
    have hreach := fun b hb => ReflTransGen.head ⟨a, hnext⟩ (ih.2 b hb)
    refine ⟨List.nodup_cons.mpr ⟨fun hmem => ?_, ih.1⟩, List.forall_mem_cons.mpr ⟨.refl, hreach⟩⟩
    exact (Yields.more hnext rest).not_transGen (.head' ⟨a, hnext⟩ (ih.2 a hmem))

end

/-- A loop over the iterator that is cut off after a number of rounds is the loop over its values
if the number is large enough. -/
lemma Yields.loop_eq
    (h : Yields next it as) {loop : ℕ → ι → β → Except ε β} {body : β → α → Except ε β}
    (hdone : ∀ n it b, next it = .ok none → loop (n + 1) it b = .ok b)
    (hmore : ∀ n it it' a b, next it = .ok (some (a, it')) →
      loop (n + 1) it b = (do loop n it' (← body b a)))
    {n : ℕ} (hn : as.length < n) (b : β) : loop n it b = as.foldlM body b := by
  induction h generalizing n b with
  | done hnext =>
    obtain ⟨n, rfl⟩ := Nat.exists_eq_add_of_lt hn
    exact hdone _ _ _ hnext
  | more hnext _ ih =>
    obtain ⟨n, rfl⟩ := Nat.exists_eq_add_one_of_ne_zero (Nat.ne_zero_of_lt hn)
    rw [hmore n _ _ _ b hnext, List.foldlM_cons]
    rw [List.length_cons] at hn
    exact congrArg (body b _ >>= ·) (funext fun b => ih (Nat.lt_of_succ_lt_succ hn) b)

end Kernel.Core
