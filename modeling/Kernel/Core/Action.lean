import Mathlib.Tactic

/-!
# Programs with a state that may fail

A failure keeps the changes made so far, as a function of the source does that returns an error half
way.
-/

namespace Kernel.Core

/-- A program on states `σ` that returns a value or an error. -/
def Action (σ ε α : Type) : Type := σ → Except ε α × σ

namespace Action

variable {σ ε α β : Type}

instance : Monad (Action σ ε) where
  pure a := fun s => (.ok a, s)
  bind x f := fun s =>
    match x s with
    | (.ok a, s) => f a s
    | (.error e, s) => (.error e, s)

instance : LawfulMonad (Action σ ε) := .mk' _
  (fun x => funext fun s => by
    change (match x s with
      | (.ok a, s') => (.ok (id a), s')
      | (.error e, s') => (.error e, s')) = x s
    rcases x s with ⟨_ | _, _⟩ <;> rfl)
  (fun _ _ => rfl)
  (fun x f g => funext fun s => by
    change (match (match x s with
        | (.ok a, s') => f a s'
        | (.error e, s') => (.error e, s')) with
      | (.ok b, s') => g b s'
      | (.error e, s') => (.error e, s')) =
      match x s with
      | (.ok a, s') => (f a >>= g) s'
      | (.error e, s') => (.error e, s')
    rcases x s with ⟨_ | _, _⟩ <;> rfl)

/-- The current state. -/
def get : Action σ ε σ := fun s => (.ok s, s)

def modify (f : σ → σ) : Action σ ε Unit := fun s => (.ok (), f s)

def throw (e : ε) : Action σ ε α := fun s => (.error e, s)

/-- A computation that does not touch the state. -/
def lift {ε' : Type} (f : ε' → ε) (x : Except ε' α) : Action σ ε α := fun s => (x.mapError f, s)

/-- The weakest precondition of `x` for the results in `Q` and the errors in `E`. -/
def wp (x : Action σ ε α) (Q : α → σ → Prop) (E : ε → σ → Prop) (s : σ) : Prop :=
  match x s with
  | (.ok a, s') => Q a s'
  | (.error e, s') => E e s'

variable {x : Action σ ε α} {f : α → Action σ ε β} {Q Q' : α → σ → Prop} {R : β → σ → Prop}
  {E E' : ε → σ → Prop} {s s' : σ}

/-- A sequence whose first part returns goes on with the second part. -/
lemma bind_of_ok {a : α} (h : x s = (.ok a, s')) : (x >>= f) s = f a s' := by
  change (match x s with
    | (.ok a, s') => f a s'
    | (.error e, s') => (.error e, s')) = _
  rw [h]

/-- A sequence whose first part fails does nothing else. -/
lemma bind_of_error {e : ε} (h : x s = (.error e, s')) : (x >>= f) s = (.error e, s') := by
  change (match x s with
    | (.ok a, s') => f a s'
    | (.error e, s') => (.error e, s')) = _
  rw [h]

/-- A sequence returns exactly when both of its parts do. -/
lemma bind_eq_ok_iff {b : β} : (x >>= f) s = (.ok b, s') ↔
    ∃ a s₁, x s = (.ok a, s₁) ∧ f a s₁ = (.ok b, s') := by
  rcases hrun : x s with ⟨e | a, s₁⟩
  · rw [bind_of_error hrun]
    exact ⟨nofun, nofun⟩
  · rw [bind_of_ok hrun]
    refine ⟨fun h => ⟨a, s₁, rfl, h⟩, ?_⟩
    rintro ⟨_, _, ⟨⟩, h⟩
    exact h

/-- A sequence fails in its first part or in its second. -/
lemma bind_eq_error_iff {e : ε} : (x >>= f) s = (.error e, s') ↔
    x s = (.error e, s') ∨ ∃ a s₁, x s = (.ok a, s₁) ∧ f a s₁ = (.error e, s') := by
  rcases hrun : x s with ⟨e' | a, s₁⟩
  · rw [bind_of_error hrun]
    constructor
    · rintro ⟨⟩
      exact .inl rfl
    · rintro (h | ⟨_, _, h, _⟩)
      · cases h
        rfl
      · cases h
  · rw [bind_of_ok hrun]
    refine ⟨fun h => .inr ⟨a, s₁, rfl, h⟩, ?_⟩
    rintro (h | ⟨_, _, ⟨⟩, h⟩)
    · cases h
    · exact h

lemma lift_eq_ok_iff {ε' : Type} {g : ε' → ε} {y : Except ε' α} {a : α} :
    (lift g y : Action σ ε α) s = (.ok a, s') ↔ y = .ok a ∧ s' = s := by
  cases y with
  | error e => exact ⟨nofun, nofun⟩
  | ok a' =>
    constructor
    · rintro ⟨⟩
      exact ⟨rfl, rfl⟩
    · rintro ⟨⟨⟩, rfl⟩
      rfl

@[simp] lemma wp_pure (a : α) : wp (pure a) Q E s ↔ Q a s := Iff.rfl

@[simp] lemma wp_bind : wp (x >>= f) R E s ↔ wp x (fun a => wp (f a) R E) E s := by
  change (match (match x s with
    | (.ok a, s') => f a s'
    | (.error e, s') => (.error e, s')) with
    | (.ok b, s') => R b s'
    | (.error e, s') => E e s') ↔ _
  unfold wp
  cases x s with
  | mk result s' => cases result <;> rfl

@[simp] lemma wp_get {Q : σ → σ → Prop} : wp get Q E s ↔ Q s s := Iff.rfl

@[simp] lemma wp_modify {g : σ → σ} {Q : Unit → σ → Prop} :
    wp (modify g) Q E s ↔ Q () (g s) := Iff.rfl

@[simp] lemma wp_throw (e : ε) : wp (throw e) Q E s ↔ E e s := Iff.rfl

@[simp] lemma wp_ite {p : Prop} [Decidable p] {y : Action σ ε α} :
    wp (if p then x else y) Q E s ↔ (p → wp x Q E s) ∧ (¬ p → wp y Q E s) := by
  by_cases h : p <;> simp [h]

lemma wp_lift {ε' : Type} {g : ε' → ε} {y : Except ε' α} (hok : ∀ a, y = .ok a → Q a s)
    (herr : ∀ e, y = .error e → E (g e) s) : wp (lift g y) Q E s := by
  cases y with
  | ok a => exact hok a rfl
  | error e => exact herr e rfl

/-- The rule of consequence. -/
lemma wp_mono (h : wp x Q E s) (hQ : ∀ a s, Q a s → Q' a s) (hE : ∀ e s, E e s → E' e s) :
    wp x Q' E' s := by
  unfold wp at h ⊢
  split at h
  · exact hQ _ _ h
  · exact hE _ _ h

/-- Every program ends in some way. -/
lemma wp_true (x : Action σ ε α) (s : σ) : wp x (fun _ _ => True) (fun _ _ => True) s := by
  unfold wp
  split <;> trivial

/-- Two specifications of one program hold together. -/
lemma wp_and (h : wp x Q E s) (h' : wp x Q' E' s) :
    wp x (fun a s => Q a s ∧ Q' a s) (fun e s => E e s ∧ E' e s) s := by
  unfold wp at h h' ⊢
  cases hrun : x s with
  | mk result s' =>
    rw [hrun] at h h'
    cases result with
    | ok a | error e => exact ⟨h, h'⟩

/-- What a specification says about a result. -/
lemma wp_ok (h : wp x Q E s) {a : α} (hrun : x s = (.ok a, s')) : Q a s' := by
  unfold wp at h
  rwa [hrun] at h

lemma exists_of_fst {r : Except ε α} (h : (x s).1 = r) : ∃ t, x s = (r, t) :=
  ⟨(x s).2, Prod.ext h rfl⟩

lemma exists_of_fst_snd {r : Except ε α} {Q : σ → Prop} (h : (x s).1 = r ∧ Q (x s).2) :
    ∃ t, x s = (r, t) ∧ Q t :=
  ⟨(x s).2, Prod.ext h.1 rfl, h.2⟩

/-- A program that cannot fail returns. -/
lemma exists_of_wp (h : wp x Q (fun _ _ => False) s) : ∃ a s', x s = (.ok a, s') ∧ Q a s' := by
  unfold wp at h
  rcases hrun : x s with ⟨e | a, s'⟩
  · rw [hrun] at h
    exact h.elim
  · rw [hrun] at h
    exact ⟨a, s', rfl, h⟩

/-! ### What a program leaves alone -/

section keeps

variable {γ : Type} {g : σ → γ}

/-- However it ends, `x` does not change what `g` reads from the state. -/
def Keeps (g : σ → γ) (x : Action σ ε α) : Prop := ∀ s, g (x s).2 = g s

lemma keeps_pure (a : α) : Keeps g (pure a : Action σ ε α) := fun _ => rfl

lemma keeps_get : Keeps g (get : Action σ ε σ) := fun _ => rfl

lemma keeps_throw (e : ε) : Keeps g (throw e : Action σ ε α) := fun _ => rfl

lemma keeps_lift {ε' : Type} (h : ε' → ε) (y : Except ε' α) :
    Keeps g (lift h y : Action σ ε α) := fun _ => rfl

lemma Keeps.bind (hx : Keeps g x) (hf : ∀ a, Keeps g (f a)) : Keeps g (x >>= f) := by
  intro s
  change g (match x s with
    | (.ok a, s') => f a s'
    | (.error e, s') => (.error e, s')).2 = g s
  have hs := hx s
  cases hrun : x s with
  | mk result s' =>
    rw [hrun] at hs
    cases result with
    | ok a => exact (hf a s').trans hs
    | error e => exact hs

lemma Keeps.map {h : α → β} (hx : Keeps g x) : Keeps g (h <$> x) :=
  hx.bind fun a => keeps_pure (h a)

lemma Keeps.ite {p : Prop} [Decidable p] {y : Action σ ε α} (hx : Keeps g x) (hy : Keeps g y) :
    Keeps g (if p then x else y) := by
  split_ifs
  · exact hx
  · exact hy

/-- A specification together with what the program leaves alone. -/
lemma wp_of_keeps (hx : Keeps g x) :
    wp x (fun _ s' => g s' = g s) (fun _ s' => g s' = g s) s := by
  have hs := hx s
  unfold wp
  cases hrun : x s with
  | mk result s' =>
    rw [hrun] at hs
    cases result with
    | ok a | error e => exact hs

end keeps

/-! ### What a program maintains -/

section maintains

variable {I : σ → Prop}

/-- However it ends, `x` leaves `I` true. -/
def Maintains (I : σ → Prop) (x : Action σ ε α) : Prop := ∀ s, I s → I (x s).2

lemma maintains_pure (a : α) : Maintains I (pure a : Action σ ε α) := fun _ h => h

lemma maintains_lift {ε' : Type} (g : ε' → ε) (y : Except ε' α) :
    Maintains I (lift g y : Action σ ε α) := fun _ h => h

lemma maintains_modify {g : σ → σ} (h : ∀ s, I s → I (g s)) :
    Maintains I (modify g : Action σ ε Unit) := h

lemma Maintains.bind (hx : Maintains I x) (hf : ∀ a, Maintains I (f a)) :
    Maintains I (x >>= f) := by
  intro s hs
  have hrun := hx s hs
  change I (match x s with
    | (.ok a, s') => f a s'
    | (.error e, s') => (.error e, s')).2
  cases h : x s with
  | mk result s' =>
    rw [h] at hrun
    cases result with
    | ok a => exact hf a s' hrun
    | error e => exact hrun

end maintains

/-! ### What two runs have in common -/

section respects

variable {r : σ → σ → Prop}

/-- From related states, `x` ends in the same way and in related states. -/
def Respects (r : σ → σ → Prop) (x : Action σ ε α) : Prop :=
  ∀ s t, r s t → (x s).1 = (x t).1 ∧ r (x s).2 (x t).2

lemma respects_pure (a : α) : Respects r (pure a : Action σ ε α) := fun _ _ h => ⟨rfl, h⟩

lemma respects_lift {ε' : Type} (g : ε' → ε) (y : Except ε' α) :
    Respects r (lift g y : Action σ ε α) := fun _ _ h => ⟨rfl, h⟩

lemma Respects.bind (hx : Respects r x) (hf : ∀ a, Respects r (f a)) : Respects r (x >>= f) := by
  intro s t hst
  obtain ⟨hres, hsta⟩ := hx s t hst
  rcases hs : x s with ⟨result, s₁⟩
  rcases ht : x t with ⟨result', t₁⟩
  rw [hs, ht] at hres hsta
  obtain rfl : result = result' := hres
  cases result with
  | ok a =>
    rw [bind_of_ok hs, bind_of_ok ht]
    exact hf a s₁ t₁ hsta
  | error e =>
    rw [bind_of_error hs, bind_of_error ht]
    exact ⟨rfl, hsta⟩

lemma Respects.ite {p : Prop} [Decidable p] {y : Action σ ε α} (hx : Respects r x)
    (hy : Respects r y) : Respects r (if p then x else y) := by
  split_ifs
  · exact hx
  · exact hy

end respects

end Action

end Kernel.Core
