import Mathlib.Tactic
import Mathlib.Logic.Relation

/-!
# Interleavings of any number of calls

A program is given by the calls that may begin and by what one call does to the shared state in one
atomic step.
-/

namespace Kernel.Core

open Relation List Nat

variable {σ τ : Type*}

/-- A shared state and the calls in flight. -/
structure Config (σ τ : Type*) where
  shared : σ
  calls : List τ

/-- The calls that may begin in a shared state, and the atomic steps of call number `t`. -/
structure Program (σ τ : Type*) where
  start : σ → τ → Prop
  step : ℕ → σ → τ → σ → τ → Prop

/-! ### Sums over the calls -/

/-- The sum of a weight over the calls in flight. -/
def total (f : τ → ℕ) (calls : List τ) : ℕ := (calls.map f).sum

section total

variable {f g : τ → ℕ} {calls : List τ} {t : ℕ} {c c' : τ}

@[simp] lemma total_nil : total f [] = 0 := rfl

lemma total_append_singleton : total f (calls ++ [c]) = total f calls + f c := by simp [total]

/-- What one call adds to a sum before and after it takes a step. -/
lemma total_set (f : τ → ℕ) (c' : τ) (h : calls[t]? = some c) :
    total f (calls.set t c') + f c = total f calls + f c' := by
  induction calls generalizing t with
  | nil => simp at h
  | cons d calls ih =>
    cases t with
    | zero =>
      cases h
      simp only [total, set_cons_zero, map_cons, sum_cons]
      omega
    | succ t =>
      have := ih (t := t) h
      simp only [total, set_cons_succ, map_cons, sum_cons] at this ⊢
      omega

lemma total_eq_zero (h : ∀ c ∈ calls, f c = 0) : total f calls = 0 := by
  rw [total, sum_eq_zero_iff]
  intro n hn
  obtain ⟨c, hc, rfl⟩ := mem_map.mp hn
  exact h c hc

lemma total_le_total (h : ∀ c, f c ≤ g c) : total f calls ≤ total g calls :=
  sum_le_sum fun c _ => h c

lemma total_add : total (fun c => f c + g c) calls = total f calls + total g calls :=
  sum_map_add

lemma single_le_total (h : calls[t]? = some c) : f c ≤ total f calls :=
  single_le_sum (fun _ _ => zero_le _) _
    (mem_map_of_mem (mem_of_getElem? h))

/-- The smaller of two weights leaves room in the sum of the larger one for each call. -/
lemma total_add_sub_le (hle : ∀ d, f d ≤ g d) (h : calls[t]? = some c) :
    total f calls + (g c - f c) ≤ total g calls := by
  have hsum : total g calls = total f calls + total (fun d => g d - f d) calls := by
    rw [← total_add]
    exact congrArg (total · calls) (funext fun d => (Nat.add_sub_cancel' (hle d)).symm)
  rw [hsum]
  exact Nat.add_le_add_left (single_le_total (f := fun d => g d - f d) h) _

/-- Two calls add their weights to a sum. -/
lemma add_le_total {u : ℕ} (htu : t ≠ u) (h : calls[t]? = some c) (h' : calls[u]? = some c') :
    f c + f c' ≤ total f calls := by
  induction calls generalizing t u with
  | nil => simp at h
  | cons d calls ih =>
    cases t with
    | zero =>
      cases u with
      | zero => exact absurd rfl htu
      | succ u =>
        cases h
        exact Nat.add_le_add_left (single_le_total (t := u) h') _
    | succ t =>
      cases u with
      | zero =>
        cases h'
        rw [add_comm]
        exact Nat.add_le_add_left (single_le_total (t := t) h) _
      | succ u =>
        exact (ih (t := t) (u := u) (by omega) h h').trans (le_add_left _ _)

end total

namespace Program

inductive Step (p : Program σ τ) : Config σ τ → Config σ τ → Prop where
  | start {s cs c} (h : p.start s c) : Step p ⟨s, cs⟩ ⟨s, cs ++ [c]⟩
  | call {s s' cs t c c'} (hc : cs[t]? = some c) (h : p.step t s c s' c') :
      Step p ⟨s, cs⟩ ⟨s', cs.set t c'⟩

/-- The configurations reached from a shared state without calls. -/
def Reachable (p : Program σ τ) (s : σ) (cfg : Config σ τ) : Prop :=
  ReflTransGen p.Step ⟨s, []⟩ cfg

/-- Every call of the configuration satisfies its assertion. -/
def Asserted {γ : Type*} (L : γ → σ → ℕ → τ → Prop) (g : γ) (cfg : Config σ τ) : Prop :=
  ∀ t c, cfg.calls[t]? = some c → L g cfg.shared t c

/-- What holds without calls and is kept by every start and every step of a call holds in all
reachable configurations. -/
theorem Reachable.induct {p : Program σ τ} {s₀ : σ} {cfg : Config σ τ}
    {I : σ → List τ → Prop} (init : I s₀ [])
    (start : ∀ s cs c, I s cs → p.start s c → I s (cs ++ [c]))
    (step : ∀ s cs t c s' c', I s cs → cs[t]? = some c → p.step t s c s' c' →
      I s' (cs.set t c'))
    (h : p.Reachable s₀ cfg) : I cfg.shared cfg.calls := by
  induction h with
  | refl => exact init
  | tail _ hstep ih =>
    cases hstep with
    | start hst => exact start _ _ _ ih hst
    | call hc hcall => exact step _ _ _ _ _ _ ih hc hcall

/-- An assertion for the shared state and the number of calls, and one for each call, hold in
every reachable configuration when the start of a call establishes its assertion and every step
re-establishes its own assertion and keeps the assertions of the other calls, for some new values
of the auxiliary variables. -/
theorem Reachable.invariant {γ : Type*} {p : Program σ τ} {s₀ : σ} {cfg : Config σ τ}
    (G : γ → ℕ → σ → Prop) (L : γ → σ → ℕ → τ → Prop)
    (init : ∃ g, G g 0 s₀)
    (start : ∀ g k s c, G g k s → p.start s c → G g (k + 1) s ∧ L g s k c)
    (step : ∀ g k s t c s' c', t < k → G g k s → L g s t c → p.step t s c s' c' →
      ∃ g', G g' k s' ∧ L g' s' t c' ∧ ∀ u d, u ≠ t → L g s u d → L g' s' u d)
    (h : p.Reachable s₀ cfg) : ∃ g, G g cfg.calls.length cfg.shared ∧ Asserted L g cfg := by
  refine h.induct (I := fun s cs => ∃ g, G g cs.length s ∧ Asserted L g ⟨s, cs⟩) ?_ ?_ ?_
  · obtain ⟨g, hg⟩ := init
    exact ⟨g, hg, fun t c hc => by simp at hc⟩
  · rintro s cs c ⟨g, hg, hcs⟩ hst
    obtain ⟨hg', hc⟩ := start g cs.length s c hg hst
    refine ⟨g, by rwa [length_append], fun t d hd => ?_⟩
    rcases lt_or_ge t cs.length with ht | ht
    · exact hcs t d (by rwa [List.getElem?_append_left ht] at hd)
    · rw [List.getElem?_append_right ht, List.getElem?_singleton] at hd
      split_ifs at hd with hzero
      cases hd
      have hlast : t = cs.length := by omega
      exact hlast ▸ hc
  · rintro s cs t c s' c' ⟨g, hg, hcs⟩ hc hcall
    have ht : t < cs.length := (List.getElem?_eq_some_iff.mp hc).1
    obtain ⟨g', hg', hown, hoth⟩ := step g cs.length s t c s' c' ht hg (hcs t c hc) hcall
    refine ⟨g', by rwa [length_set], fun u d hd => ?_⟩
    rw [List.getElem?_set] at hd
    split_ifs at hd with hut
    · cases hd
      exact hut ▸ hown
    · exact hoth u d (Ne.symm hut) (hcs u d hd)

/-! ### Disciplined runs -/

/-- A restriction on runs: which calls may begin beside the calls in flight, and when a call may
take its next step. -/
structure Discipline (σ τ : Type*) where
  start : List τ → τ → Prop
  step : σ → List τ → τ → Prop

/-- A step that obeys the discipline. -/
inductive StepUnder (p : Program σ τ) (d : Discipline σ τ) :
    Config σ τ → Config σ τ → Prop where
  | start {s cs c} (h : p.start s c) (hd : d.start cs c) : StepUnder p d ⟨s, cs⟩ ⟨s, cs ++ [c]⟩
  | call {s s' cs t c c'} (hc : cs[t]? = some c) (h : p.step t s c s' c') (hd : d.step s cs c) :
      StepUnder p d ⟨s, cs⟩ ⟨s', cs.set t c'⟩

/-- The configurations reached by runs all of whose steps obey the discipline. -/
def ReachableUnder (p : Program σ τ) (d : Discipline σ τ) (s : σ) (cfg : Config σ τ) : Prop :=
  ReflTransGen (p.StepUnder d) ⟨s, []⟩ cfg

/-- A run under a discipline is a run. -/
lemma ReachableUnder.reachable {p : Program σ τ} {d : Discipline σ τ} {s₀ : σ}
    {cfg : Config σ τ} (h : p.ReachableUnder d s₀ cfg) : p.Reachable s₀ cfg := by
  refine ReflTransGen.mono ?_ _ _ h
  rintro a b (⟨hst, -⟩ | ⟨hc, hcall, -⟩)
  · exact .start hst
  · exact .call hc hcall

/-- What holds without calls and is kept by every start and every step that obeys the discipline
holds in all configurations that are reached under it. -/
theorem ReachableUnder.induct {p : Program σ τ} {d : Discipline σ τ} {s₀ : σ} {cfg : Config σ τ}
    {I : σ → List τ → Prop} (init : I s₀ [])
    (start : ∀ s cs c, I s cs → p.start s c → d.start cs c → I s (cs ++ [c]))
    (step : ∀ s cs t c s' c', I s cs → cs[t]? = some c → p.step t s c s' c' → d.step s cs c →
      I s' (cs.set t c'))
    (h : p.ReachableUnder d s₀ cfg) : I cfg.shared cfg.calls := by
  induction h with
  | refl => exact init
  | tail _ hstep ih =>
    cases hstep with
    | start hst hd => exact start _ _ _ ih hst hd
    | call hc hcall hd => exact step _ _ _ _ _ _ ih hc hcall hd

/-- The discipline that allows everything. -/
def Discipline.free : Discipline σ τ := ⟨fun _ _ => True, fun _ _ _ => True⟩

/-- A step of the call that began last. -/
lemma StepUnder.last {p : Program σ τ} {d : Discipline σ τ} {s s' : σ} {cs : List τ} {c c' : τ}
    (h : p.step cs.length s c s' c') (hd : d.step s (cs ++ [c]) c) :
    p.StepUnder d ⟨s, cs ++ [c]⟩ ⟨s', cs ++ [c']⟩ := by
  have hset : (cs ++ [c]).set cs.length c' = cs ++ [c'] := by simp
  rw [← hset]
  exact .call (by simp) h hd

/-! ### Runs as sequences of configurations -/

/-- A run with all the configurations that it goes through. -/
structure Trace (p : Program σ τ) (d : Discipline σ τ) (s₀ : σ) where
  length : ℕ
  config : ℕ → Config σ τ
  init : config 0 = ⟨s₀, []⟩
  step : ∀ i < length, p.StepUnder d (config i) (config (i + 1))

namespace Trace

variable {p : Program σ τ} {d : Discipline σ τ} {s₀ : σ}

lemma reachableUnder (tr : p.Trace d s₀) {i : ℕ} (hi : i ≤ tr.length) :
    p.ReachableUnder d s₀ (tr.config i) := by
  induction i with
  | zero =>
    rw [tr.init]
    exact ReflTransGen.refl
  | succ i ih => exact (ih (by omega)).tail (tr.step i (by omega))

/-- A call that no longer is in a state in which calls begin has left these states in a step of its
own. -/
lemma exists_step (tr : p.Trace d s₀) {P : τ → Prop} (hst : ∀ s c, p.start s c → ¬ P c)
    {j t : ℕ} {c : τ} (hj : j ≤ tr.length) (hc : (tr.config j).calls[t]? = some c) (hP : P c) :
    ∃ i < j, ∃ c₁ c₂, (tr.config i).calls[t]? = some c₁ ∧ ¬ P c₁ ∧ P c₂ ∧
      p.step t (tr.config i).shared c₁ (tr.config (i + 1)).shared c₂ ∧
      d.step (tr.config i).shared (tr.config i).calls c₁ := by
  induction j generalizing c with
  | zero =>
    rw [tr.init] at hc
    cases hc
  | succ j ih =>
    by_cases hbef : ∃ c₁, (tr.config j).calls[t]? = some c₁ ∧ P c₁
    · obtain ⟨c₁, hc₁, hP₁⟩ := hbef
      obtain ⟨i, hi, hrest⟩ := ih (by omega) hc₁ hP₁
      exact ⟨i, by omega, hrest⟩
    · have hstep := tr.step j (by omega)
      refine ⟨j, lt_succ_self j, ?_⟩
      generalize tr.config j = a at hbef hstep ⊢
      generalize tr.config (j + 1) = b at hc hstep ⊢
      cases hstep with
      | @start s cs c' hnew hd =>
        rcases lt_or_ge t cs.length with hlt | hge
        · rw [List.getElem?_append_left hlt] at hc
          exact absurd ⟨c, hc, hP⟩ hbef
        · rw [List.getElem?_append_right hge, List.getElem?_singleton] at hc
          split_ifs at hc
          cases hc
          exact absurd hP (hst _ _ hnew)
      | @call s s' cs u c₁ c₂ hcall hmove hd =>
        rw [List.getElem?_set] at hc
        split_ifs at hc with hut
        · cases hc
          subst hut
          exact ⟨c₁, c, hcall, fun hP₁ => hbef ⟨c₁, hcall, hP₁⟩, hP, hmove, hd⟩
        · exact absurd ⟨c, hc, hP⟩ hbef

/-- A run with one more step. -/
def snoc (tr : p.Trace d s₀) (b : Config σ τ) (h : p.StepUnder d (tr.config tr.length) b) :
    p.Trace d s₀ where
  length := tr.length + 1
  config i := if i ≤ tr.length then tr.config i else b
  init := by simp [tr.init]
  step i hi := by
    rcases Nat.lt_succ_iff_lt_or_eq.mp hi with hlt | rfl
    · rw [if_pos hlt.le, if_pos (succ_le_of_lt hlt)]
      exact tr.step i hlt
    · rw [if_pos le_rfl, if_neg (by omega)]
      exact h

/-- Steps to configurations with a property give a run through such configurations. -/
lemma exists_of_reflTransGen {P : Config σ τ → Prop} {b : Config σ τ} (hinit : P ⟨s₀, []⟩)
    (h : ReflTransGen (fun a b => p.StepUnder d a b ∧ P b) ⟨s₀, []⟩ b) :
    ∃ tr : p.Trace d s₀, tr.config tr.length = b ∧ ∀ i ≤ tr.length, P (tr.config i) := by
  induction h with
  | refl => exact ⟨⟨0, fun _ => ⟨s₀, []⟩, rfl, by omega⟩, rfl, fun _ _ => hinit⟩
  | @tail a b _ hstep ih =>
    obtain ⟨tr, rfl, hP⟩ := ih
    refine ⟨tr.snoc b hstep.1, if_neg (by simp [snoc]), fun i hi => ?_⟩
    change P (if i ≤ tr.length then tr.config i else b)
    split_ifs with hle
    · exact hP i hle
    · exact hstep.2

end Trace

end Program

/-! ### Runs that follow a schedule -/

/-- One entry of a schedule: a call begins, or a call takes a step with the given choice. -/
inductive Act (ι τ : Type*) where
  | start (c : τ)
  | step (t : ℕ) (i : ι)

section schedule

variable {ι : Type*} (f : ι → ℕ → σ → τ → σ × τ)

/-- The program whose calls begin when `start` allows it and whose steps are those of `f`. -/
def Program.ofFun (start : τ → Prop) : Program σ τ where
  start _ c := start c
  step t s c s' c' := ∃ i, (s', c') = f i t s c

/-- The configuration after one entry. A step of a call that does not exist changes nothing. -/
def act (cfg : Config σ τ) : Act ι τ → Config σ τ
  | .start c => ⟨cfg.shared, cfg.calls ++ [c]⟩
  | .step t i =>
    match cfg.calls[t]? with
    | some c => ⟨(f i t cfg.shared c).1, cfg.calls.set t (f i t cfg.shared c).2⟩
    | none => cfg

/-- A schedule begins only calls that may begin, and all of its steps obey the discipline. -/
def Obeys (start : τ → Prop) (d : Program.Discipline σ τ) : Config σ τ → List (Act ι τ) → Prop
  | _, [] => True
  | cfg, .start c :: acts =>
    (start c ∧ d.start cfg.calls c) ∧ Obeys start d (act f cfg (.start c)) acts
  | cfg, .step t i :: acts =>
    (∀ c, cfg.calls[t]? = some c → d.step cfg.shared cfg.calls c) ∧
      Obeys start d (act f cfg (.step t i)) acts

/-- Whether a schedule obeys a discipline can be found out by running it. -/
instance decidableObeys (start : τ → Prop) [DecidablePred start] (d : Program.Discipline σ τ)
    [∀ cs c, Decidable (d.start cs c)] [∀ s cs c, Decidable (d.step s cs c)] :
    (cfg : Config σ τ) → (acts : List (Act ι τ)) → Decidable (Obeys f start d cfg acts)
  | _, [] => .isTrue trivial
  | cfg, .start c :: acts =>
    have := decidableObeys start d (act f cfg (.start c)) acts
    inferInstanceAs (Decidable ((start c ∧ d.start cfg.calls c) ∧ _))
  | cfg, .step t i :: acts =>
    have := decidableObeys start d (act f cfg (.step t i)) acts
    have : Decidable (∀ c, cfg.calls[t]? = some c → d.step cfg.shared cfg.calls c) :=
      match cfg.calls[t]? with
      | none => .isTrue nofun
      | some c => decidable_of_iff (d.step cfg.shared cfg.calls c)
          ⟨fun h _ hc => Option.some.inj hc ▸ h, fun h => h c rfl⟩
    inferInstanceAs (Decidable (_ ∧ _))

variable {f} {start : τ → Prop} {d : Program.Discipline σ τ}

lemma Obeys.reflTransGen {cfg : Config σ τ} {acts : List (Act ι τ)} (h : Obeys f start d cfg acts) :
    ReflTransGen ((Program.ofFun f start).StepUnder d) cfg (acts.foldl (act f) cfg) := by
  induction acts generalizing cfg with
  | nil => exact ReflTransGen.refl
  | cons a acts ih =>
    cases a with
    | start c =>
      obtain ⟨⟨hst, hd⟩, hrest⟩ := h
      exact ReflTransGen.head (.start hst hd) (ih hrest)
    | step t i =>
      obtain ⟨hd, hrest⟩ := h
      cases hc : cfg.calls[t]? with
      | none =>
        have hstay : act f cfg (.step t i) = cfg := by simp only [act, hc]
        rw [foldl_cons, hstay]
        rw [hstay] at hrest
        exact ih hrest
      | some c =>
        refine ReflTransGen.head ?_ (ih hrest)
        have hmov : act f cfg (.step t i) =
            ⟨(f i t cfg.shared c).1, cfg.calls.set t (f i t cfg.shared c).2⟩ := by
          simp only [act, hc]
        rw [hmov]
        exact .call hc ⟨i, rfl⟩ (hd c hc)

/-- A schedule that obeys the discipline leads to a configuration that is reached under it. -/
lemma Obeys.reachableUnder {s : σ} {acts : List (Act ι τ)} (h : Obeys f start d ⟨s, []⟩ acts) :
    (Program.ofFun f start).ReachableUnder d s (acts.foldl (act f) ⟨s, []⟩) :=
  h.reflTransGen

/-- Every schedule leads to a reachable configuration. -/
lemma reachable_schedule {s : σ} {acts : List (Act ι τ)} (h : ∀ c, Act.start c ∈ acts → start c) :
    (Program.ofFun f start).Reachable s (acts.foldl (act f) ⟨s, []⟩) := by
  suffices hobe : ∀ cfg, Obeys f start ⟨fun _ _ => True, fun _ _ _ => True⟩ cfg acts from
    (hobe _).reachableUnder.reachable
  induction acts with
  | nil => exact fun _ => trivial
  | cons a acts ih =>
    intro cfg
    have hrest := ih fun c hc => h c (mem_cons_of_mem _ hc)
    cases a with
    | start c => exact ⟨⟨h c mem_cons_self, trivial⟩, hrest _⟩
    | step t i => exact ⟨fun _ _ => trivial, hrest _⟩

end schedule

end Kernel.Core
