import Kernel.Ds.Lists.Alone

/-!
# Operations executed one at a time

`contents` is the sequence that results from putting pushed elements in front and deleting the first
match of each removal. Iterators live across operations.
-/

namespace Kernel.Ds

open Core Relation List Option ConcurrentLinkedList Shared Function Nat

variable {T : Type}

/-! ### Executing an operation -/

def Alone (t : ℕ) (cfg cfg' : Config (Shared T) (Call T)) : Prop :=
  ∃ c choice, cfg.calls[t]? = some c ∧ c.atRest = false ∧
    cfg' = act step cfg (.step t choice)

inductive Event (T : Type) where
  | push (t : ℕ) (data : T)
  | remove (t : ℕ) (predicate : T → Bool) (result : Option T)
  | iter (t : ℕ)
  | next (t : ℕ) (result : Option T)
  | drop (t : ℕ)

inductive Performs : Config (Shared T) (Call T) → Event T → Config (Shared T) (Call T) → Prop where
  | push {cfg cfg' data node}
      (hrun : ReflTransGen (Alone cfg.calls.length) ⟨cfg.shared, cfg.calls ++ [.push data]⟩ cfg')
      (hend : cfg'.calls[cfg.calls.length]? = some (.pushReturned node)) :
      Performs cfg (.push cfg.calls.length data) cfg'
  | remove {cfg cfg' predicate result}
      (hrun : ReflTransGen (Alone cfg.calls.length)
        ⟨cfg.shared, cfg.calls ++ [.remove predicate]⟩ cfg')
      (hend : cfg'.calls[cfg.calls.length]? = some (.removeReturned result)) :
      Performs cfg (.remove cfg.calls.length predicate result) cfg'
  | iter {cfg cfg' current}
      (hrun : ReflTransGen (Alone cfg.calls.length) ⟨cfg.shared, cfg.calls ++ [.iter]⟩ cfg')
      (hend : cfg'.calls[cfg.calls.length]? = some (.iterating current [])) :
      Performs cfg (.iter cfg.calls.length) cfg'
  | nextNone {cfg t yielded} (hcall : cfg.calls[t]? = some (.iterating 0 yielded)) :
      Performs cfg (.next t none) cfg
  | nextSome {cfg : Config (Shared T) (Call T)} {t current yielded} (choice : Choice T)
      (hcall : cfg.calls[t]? = some (.iterating current yielded)) (hcurrent : current ≠ 0)
      (hdrop : choice.drop = false) :
      Performs cfg (.next t (some (cfg.shared.list.read choice current).data))
        (act step cfg (.step t choice))
  | drop {cfg cfg' t current yielded choice}
      (hcall : cfg.calls[t]? = some (.iterating current yielded)) (hdrop : choice.drop = true)
      (hrun : ReflTransGen (Alone t) (act step cfg (.step t choice)) cfg')
      (hend : cfg'.calls[t]? = some .dropped) :
      Performs cfg (.drop t) cfg'

inductive Run : List (Event T) → Config (Shared T) (Call T) → Prop where
  | nil : Run [] ⟨.default, []⟩
  | snoc {es e cfg cfg'} (h : Run es cfg) (hop : Performs cfg e cfg') : Run (es ++ [e]) cfg'

/-! ### The sequence of elements -/

def Event.apply (xs : List (ℕ × T)) : Event T → List (ℕ × T)
  | .push t data => (t, data) :: xs
  | .remove _ predicate _ => xs.eraseP fun x => predicate x.2
  | _ => xs

def contents (es : List (Event T)) : List (ℕ × T) := es.foldl Event.apply []

@[simp] lemma contents_snoc (es : List (Event T)) (e : Event T) :
    contents (es ++ [e]) = e.apply (contents es) := by
  simp [contents]

def yields (t : ℕ) (es : List (Event T)) : List T :=
  es.filterMap fun
    | .next u result => if u = t then result else none
    | _ => none

lemma yields_snoc (t : ℕ) (es : List (Event T)) (e : Event T) :
    yields t (es ++ [e]) = yields t es ++ yields t [e] := by
  simp only [yields, filterMap_append]

lemma snoc_eq_append_cons {α : Type} {es before after : List α} {e x : α}
    (h : es ++ [e] = before ++ x :: after) :
    (es = before ∧ e = x) ∨ ∃ rest, es = before ++ x :: rest := by
  rcases eq_nil_or_concat after with rfl | ⟨rest, y, rfl⟩
  · left
    obtain ⟨hes, he⟩ := append_inj' h rfl
    exact ⟨hes, singleton_inj.mp he⟩
  · right
    rw [concat_eq_append, ← cons_append, ← append_assoc] at h
    exact ⟨rest, (append_inj' h rfl).1⟩

/-! ### Between and during operations -/

def HasPushed (cs : List (Call T)) (x : ℕ × T) : Prop :=
  ∃ d, cs[x.1]? = some d ∧ d.hasPushed = true

structure Settled (es : List (Event T)) (cfg : Config (Shared T) (Call T)) (xs : List ℕ)
    (qs : List (ℕ × ℕ)) : Prop where
  owned : Owned cfg.shared.list cfg.calls xs qs
  recorded : Recorded cfg.shared cfg.calls xs
  stores : Stores cfg.shared xs (contents es)
  resting : ∀ (u : ℕ) (d : Call T), cfg.calls[u]? = some d → d.atRest = true
  results : ∀ before u p r after, es = before ++ .remove u p r :: after →
    r = ((contents before).find? fun y => p y.2).map Prod.snd
  tours : ∀ before u after, es = before ++ .iter u :: after →
    u < cfg.calls.length ∧ Tour cfg.shared cfg.calls xs (contents before) u
  yielded : ∀ (u current : ℕ) (ys : List T), cfg.calls[u]? = some (.iterating current ys) →
    ys = yields u es
  silent : ∀ u, cfg.calls.length ≤ u → yields u es = []

structure Working (es : List (Event T)) (cs : List (Call T)) (t : ℕ)
    (A : Shared T → List ℕ → Call T → Prop) (cfg : Config (Shared T) (Call T)) (c : Call T)
    (xs : List ℕ) (qs : List (ℕ × ℕ)) : Prop where
  active : Active cfg.shared cfg.calls t c xs qs
  ok : A cfg.shared xs c
  length : cfg.calls.length = cs.length
  others : ∀ u : ℕ, u ≠ t → cfg.calls[u]? = cs[u]?
  tours : ∀ before u after, es = before ++ .iter u :: after →
    u < cs.length ∧ (∀ x ∈ contents before, HasPushed cfg.calls x) ∧
      (u ≠ t → Tour cfg.shared cfg.calls xs (contents before) u)

section working

variable {es : List (Event T)} {cs : List (Call T)} {t : ℕ} {cfg cfg' : Config (Shared T) (Call T)}
  {c : Call T} {xs : List ℕ} {qs : List (ℕ × ℕ)} {A : Shared T → List ℕ → Call T → Prop}

variable {choice : Choice T}

lemma act_step (hc : cfg.calls[t]? = some c) :
    act step cfg (.step t choice) =
      ⟨(cfg.shared.step choice t c).1, cfg.calls.set t (cfg.shared.step choice t c).2⟩ := by
  simp only [act, hc]

lemma Working.step {B : Shared T → List ℕ → Call T → Prop} (h : Working es cs t A cfg c xs qs)
    (choice : Choice T)
    (hB : ∀ ys, Effect xs ys c (cfg.shared.step choice t c).2 →
      B (cfg.shared.step choice t c).1 ys (cfg.shared.step choice t c).2) :
    ∃ ys rs, Working es cs t B (act step cfg (.step t choice))
      (cfg.shared.step choice t c).2 ys rs := by
  obtain ⟨ys, rs, hact, heff⟩ := h.active.step choice
  rw [act_step h.active.call]
  refine ⟨ys, rs, hact, hB ys heff, ?_, ?_, ?_⟩
  · rw [length_set]
    exact h.length
  · intro u hut
    rw [getElem?_set_ne (Ne.symm hut)]
    exact h.others u hut
  · intro before u after hes
    obtain ⟨hlt, hpush, htour⟩ := h.tours before u after hes
    refine ⟨hlt, fun x hx => pushed_step h.active.call choice (hpush x hx), ?_⟩
    intro hut
    exact (htour hut).step h.active hut choice heff

def Kept (t : ℕ) (A : Shared T → List ℕ → Call T → Prop) : Prop :=
  ∀ sh ds d ys zs rs choice, A sh ys d → d.atRest = false → Active sh ds t d ys rs →
    Effect ys zs d (sh.step choice t d).2 → A (sh.step choice t d).1 zs (sh.step choice t d).2

lemma Working.run (h : Working es cs t A cfg c xs qs) (hA : Kept t A)
    (hrun : ReflTransGen (Alone t) cfg cfg') :
    ∃ d ys rs, Working es cs t A cfg' d ys rs := by
  induction hrun with
  | refl => exact ⟨c, xs, qs, h⟩
  | tail _ hstep ih =>
    obtain ⟨d, ys, rs, hd⟩ := ih
    obtain ⟨d', choice, hd', hrest, rfl⟩ := hstep
    cases hd.active.call.symm.trans hd'
    obtain ⟨zs, ps, hstd⟩ := hd.step choice fun zs heff =>
      hA _ _ _ _ zs _ choice hd.ok hrest hd.active heff
    exact ⟨_, zs, ps, hstd⟩

variable {x : ℕ × T}

lemma hasPushed_append (h : HasPushed cs x) : HasPushed (cs ++ [c]) x := by
  obtain ⟨d, hd, hpush⟩ := h
  refine ⟨d, ?_, hpush⟩
  rw [List.getElem?_append_left (List.getElem?_eq_some_iff.mp hd).1]
  exact hd

lemma Settled.begin (h : Settled es cfg xs qs)
    (hc : (∃ data, c = .push data) ∨ (∃ p, c = .removeLoad p) ∨ c = .iter)
    (hA : A cfg.shared xs c) :
    Working es (cfg.calls ++ [c]) cfg.calls.length A ⟨cfg.shared, cfg.calls ++ [c]⟩ c xs qs := by
  have hold : ∀ u : ℕ, u < cfg.calls.length → (cfg.calls ++ [c])[u]? = cfg.calls[u]? := fun u hu =>
    List.getElem?_append_left hu
  refine ⟨⟨?_, ?_, ?_, by simp, ?_⟩, hA, rfl, fun _ _ => rfl, ?_⟩
  · rcases hc with ⟨data, rfl⟩ | ⟨p, rfl⟩ | rfl <;>
    exact h.owned.append (fun _ => rfl) (fun _ => rfl) rfl rfl trivial trivial
  · rcases hc with ⟨data, rfl⟩ | ⟨p, rfl⟩ | rfl <;> exact h.recorded.append rfl rfl
  · rcases hc with ⟨data, rfl⟩ | ⟨p, rfl⟩ | rfl <;> trivial
  · intro u d hut hd
    have hu := (List.getElem?_eq_some_iff.mp hd).1
    rw [length_append, length_singleton] at hu
    rw [hold u (by omega)] at hd
    exact h.resting u d hd
  · intro before u after hes
    obtain ⟨hlt, hpush, hopen⟩ := h.tours before u after hes
    refine ⟨by rw [length_append]; omega, fun x hx => hasPushed_append (hpush x hx), ?_⟩
    refine fun _ => ⟨fun x hx => hasPushed_append (hpush x hx), ?_⟩
    intro current ys hu
    rw [hold u hlt] at hu
    exact hopen current ys hu

section settled

variable {e : Event T} {cfg₀ : Config (Shared T) (Call T)} {xs₀ : List ℕ} {qs₀ : List (ℕ × ℕ)}
  (h : Working es cs t A cfg c xs qs) (h₀ : Settled es cfg₀ xs₀ qs₀) (hrest : c.atRest = true)
  (hsto : Stores cfg.shared xs (contents (es ++ [e])))
  (hres : ∀ u p r, e = .remove u p r → r = ((contents es).find? fun y => p y.2).map Prod.snd)
  (hnew : ∀ u, e = .iter u → u = t ∧ Tour cfg.shared cfg.calls xs (contents es) u)
  (hown : ∀ before after, es = before ++ .iter t :: after →
    Tour cfg.shared cfg.calls xs (contents before) t)
include h h₀ hrest hsto hres hnew hown

lemma Working.settled
    (hyie : ∀ (u current : ℕ) (ys : List T), cfg.calls[u]? = some (.iterating current ys) →
      ys = yields u (es ++ [e]))
    (hsil : ∀ u, cs.length ≤ u → yields u (es ++ [e]) = []) :
    Settled (es ++ [e]) cfg xs qs := by
  refine ⟨h.active.owned, h.active.recorded, hsto, ?_, ?_, ?_, hyie, by rwa [h.length]⟩
  · intro u d hd
    by_cases hut : u = t
    · subst hut
      cases h.active.call.symm.trans hd
      exact hrest
    · exact h.active.others u d hut hd
  · intro before u p r after hes
    rcases snoc_eq_append_cons hes with ⟨rfl, he⟩ | ⟨rest, hes⟩
    · exact hres u p r he
    · exact h₀.results before u p r rest hes
  · intro before u after hes
    rcases snoc_eq_append_cons hes with ⟨rfl, he⟩ | ⟨rest, hes⟩
    · obtain ⟨rfl, htour⟩ := hnew u he
      exact ⟨(List.getElem?_eq_some_iff.mp h.active.call).1, htour⟩
    · obtain ⟨hlt, hpush, htour⟩ := h.tours before u rest hes
      refine ⟨by rwa [h.length], ?_⟩
      by_cases hut : u = t
      · subst hut
        exact hown before rest hes
      · exact htour hut

lemma Working.settled_of_silent (hlen : cfg₀.calls.length ≤ cs.length)
    (hoth : ∀ u : ℕ, u ≠ t → cs[u]? = cfg₀.calls[u]?)
    (hopen : ∀ current zs, c = .iterating current zs → zs = yields t es)
    (hsil : ∀ u, yields u [e] = []) : Settled (es ++ [e]) cfg xs qs := by
  have hyld : ∀ u, yields u (es ++ [e]) = yields u es := by
    intro u
    rw [yields_snoc, hsil, append_nil]
  refine h.settled h₀ hrest hsto hres hnew hown ?_ ?_
  · intro u current zs hu
    rw [hyld]
    by_cases hut : u = t
    · subst hut
      exact hopen current zs (Option.some.inj (h.active.call.symm.trans hu))
    · rw [h.others u hut, hoth u hut] at hu
      exact h₀.yielded u current zs hu
  · intro u hu
    rw [hyld]
    exact h₀.silent u (hlen.trans hu)

end settled

lemma Settled.end_of_begin {c₀ : Call T} {e : Event T} {ys : List ℕ} {rs : List (ℕ × ℕ)}
    (h : Settled es cfg xs qs)
    (hw : Working es (cfg.calls ++ [c₀]) cfg.calls.length A cfg' c ys rs)
    (hrest : c.atRest = true) (hsto : Stores cfg'.shared ys (contents (es ++ [e])))
    (hres : ∀ u p r, e = .remove u p r → r = ((contents es).find? fun y => p y.2).map Prod.snd)
    (hnew : ∀ u, e = .iter u →
      u = cfg.calls.length ∧ Tour cfg'.shared cfg'.calls ys (contents es) u)
    (hopen : ∀ current zs, c = .iterating current zs → zs = [])
    (hsil : ∀ u, yields u [e] = []) : Settled (es ++ [e]) cfg' ys rs := by
  refine hw.settled_of_silent h hrest hsto hres hnew ?_ (by simp) ?_ ?_ hsil
  · intro before after hes
    exact absurd (h.tours before _ after hes).1 (lt_irrefl _)
  · intro u hu
    rw [getElem?_append, getElem?_singleton]
    split_ifs
    · rfl
    · omega
    · rw [getElem?_eq_none (by omega)]
  · rw [h.silent _ le_rfl]
    exact hopen

def OpenOk (L : List (ℕ × T)) (sh : Shared T) (xs : List ℕ) : Call T → Prop
  | .iter | .iterLoad => Stores sh xs L
  | .iterating current ys => Stores sh xs L ∧ current = sh.list.head ∧ ys = []
  | _ => False

variable {L : List (ℕ × T)}

lemma OpenOk.kept : Kept t (OpenOk L) := by
  intro sh _ c _ ys _ choice hok hrest h heff
  cases c with
  | iter =>
    cases heff
    exact h.stores choice hok
  | iterLoad =>
    cases heff
    exact ⟨h.stores choice hok, rfl, rfl⟩
  | iterating current zs => cases hrest
  | _ => exact absurd hok id

def DropOk (L : List (ℕ × T)) (sh : Shared T) (xs : List ℕ) : Call T → Prop
  | .poolLoad | .poolHead _ | .poolExchange _ _ | .poolFree _ _ | .dropped => Stores sh xs L
  | _ => False

lemma DropOk.kept : Kept t (DropOk L) := by
  intro sh _ c _ ys _ choice hok _ h heff
  cases c with
  | poolLoad | poolFree | dropped =>
    cases heff
    exact h.stores choice hok
  | poolHead | poolExchange =>
    have hkeep := h.stores choice hok
    simp only [step, Call.step] at heff hkeep ⊢
    split_ifs at heff hkeep ⊢ <;>
    · cases heff
      exact hkeep
  | _ => exact absurd hok id

lemma Working.drop {current : ℕ} {yielded : List T}
    (h : Working es cs t A cfg (.iterating current yielded) xs qs)
    (hsto : Stores cfg.shared xs (contents es)) (hdrop : choice.drop = true) :
    ∃ ys rs, Working es cs t (DropOk (contents es)) (act Shared.step cfg (.step t choice))
      (cfg.shared.step choice t (.iterating current yielded)).2 ys rs := by
  refine h.step choice fun ys heff => ?_
  have hkeep := h.active.stores choice hsto
  simp only [Shared.step, Call.step, hdrop, if_true] at heff hkeep ⊢
  split_ifs at heff hkeep ⊢ <;>
  · cases heff
    exact hkeep

lemma hasPushed_of_mem {sh : Shared T} (hrec : Recorded sh cs xs)
    (hsto : Stores sh xs L) (hx : x ∈ L) : HasPushed cs x := by
  refine (hrec.elements x.1).mp (mem_append_left _ ?_)
  rw [← hsto.map_fst]
  exact mem_map_of_mem hx

end working

/-! ### Every operation -/

section performs

variable {es : List (Event T)} {cfg cfg' : Config (Shared T) (Call T)} {xs : List ℕ}
  {qs : List (ℕ × ℕ)} {t : ℕ}

variable {L : List (ℕ × T)}

lemma pushOk_kept {data : T} :
    Kept t fun sh ys d => PushOk sh ys L t data d :=
  fun _ _ _ _ _ _ choice hok _ hact heff => hok.step hact choice heff

lemma removeOk_kept {p : T → Bool} :
    Kept t fun sh ys d => RemoveOk sh ys L p d :=
  fun _ _ _ _ _ _ choice hok _ hact heff => hok.step hact choice heff

section

variable (h : Settled es cfg xs qs)

include h

lemma Settled.push {data : T} {node : ℕ}
    (hrun : ReflTransGen (Alone cfg.calls.length) ⟨cfg.shared, cfg.calls ++ [.push data]⟩ cfg')
    (hend : cfg'.calls[cfg.calls.length]? = some (.pushReturned node)) :
    ∃ ys rs, Settled (es ++ [.push cfg.calls.length data]) cfg' ys rs := by
  have hbeg := h.begin (A := fun sh ys d => PushOk sh ys (contents es) cfg.calls.length data d)
    (Or.inl ⟨data, rfl⟩) ⟨rfl, h.stores⟩
  obtain ⟨d, ys, rs, hw⟩ := hbeg.run pushOk_kept hrun
  cases hw.active.call.symm.trans hend
  refine ⟨ys, rs, h.end_of_begin hw rfl ?_ nofun nofun nofun (fun _ => rfl)⟩
  rw [contents_snoc]
  exact hw.ok

lemma Settled.remove {p : T → Bool} {result : Option T}
    (hrun : ReflTransGen (Alone cfg.calls.length) ⟨cfg.shared, cfg.calls ++ [.remove p]⟩ cfg')
    (hend : cfg'.calls[cfg.calls.length]? = some (.removeReturned result)) :
    ∃ ys rs, Settled (es ++ [.remove cfg.calls.length p result]) cfg' ys rs := by
  have hbeg := h.begin (A := fun sh ys d => RemoveOk sh ys (contents es) p d)
    (Or.inr (Or.inl ⟨p, rfl⟩)) ⟨rfl, h.stores⟩
  obtain ⟨d, ys, rs, hw⟩ := hbeg.run removeOk_kept hrun
  cases hw.active.call.symm.trans hend
  obtain ⟨hsto, hres⟩ := hw.ok
  refine ⟨ys, rs, h.end_of_begin hw rfl ?_ ?_ nofun nofun (fun _ => rfl)⟩
  · rw [contents_snoc]
    exact hsto
  · rintro u q r ⟨rfl⟩
    exact hres.symm

lemma Settled.iter {current : ℕ}
    (hrun : ReflTransGen (Alone cfg.calls.length) ⟨cfg.shared, cfg.calls ++ [.iter]⟩ cfg')
    (hend : cfg'.calls[cfg.calls.length]? = some (.iterating current [])) :
    ∃ ys rs, Settled (es ++ [.iter cfg.calls.length]) cfg' ys rs := by
  have hbeg := h.begin (A := OpenOk (contents es)) (Or.inr (Or.inr rfl)) h.stores
  obtain ⟨d, ys, rs, hw⟩ := hbeg.run OpenOk.kept hrun
  cases hw.active.call.symm.trans hend
  obtain ⟨hsto, hhead, -⟩ := hw.ok
  refine ⟨ys, rs, h.end_of_begin hw rfl (by rwa [contents_snoc]) nofun ?_ ?_ (fun _ => rfl)⟩
  · rintro u ⟨rfl⟩
    refine ⟨rfl, fun x hx => hasPushed_of_mem hw.active.recorded hsto hx, ?_⟩
    intro k zs hk
    cases hw.active.call.symm.trans hk
    -- the iterator has the whole list before it
    refine ⟨[], rfl, ys, contents es, ?_, hsto, List.Sublist.refl _, ?_⟩
    · rw [hhead]
      exact hw.active.owned.path
    · intro a ha x hx _
      exact hsto.mem ha hx
  · rintro k zs ⟨rfl, rfl⟩
    rfl

lemma Settled.working {c : Call T} (hc : cfg.calls[t]? = some c)
    (hrem : RemoverOk cfg.shared.list xs c) :
    Working es cfg.calls t (fun _ _ _ => True) cfg c xs qs := by
  refine ⟨⟨h.owned, h.recorded, hrem, hc, fun u d _ => h.resting u d⟩, trivial, rfl,
    fun _ _ => rfl, ?_⟩
  intro before u after hes
  obtain ⟨hlt, hpush, hopen⟩ := h.tours before u after hes
  exact ⟨hlt, hpush, fun _ => ⟨hpush, hopen⟩⟩

lemma Settled.nextNone {yielded : List T} (hcall : cfg.calls[t]? = some (.iterating 0 yielded)) :
    Settled (es ++ [.next t none]) cfg xs qs := by
  refine (h.working hcall trivial).settled_of_silent h rfl ?_ nofun nofun ?_ le_rfl (fun _ _ => rfl)
    ?_ ?_
  · rw [contents_snoc]
    exact h.stores
  · intro before after hes
    exact (h.tours before t after hes).2
  · rintro current zs ⟨rfl, rfl⟩
    exact h.yielded t 0 yielded hcall
  · intro u
    simp [yields]

end

variable {current : ℕ}

lemma Visits.next {sh : Shared T} {start seen : List (ℕ × T)} {x : ℕ × T}
    {node : Node T} (h : Visits sh xs start seen current) (hnull : sh.list.next 0 = none)
    (hnode : sh.list.nodes current = some node) (hx : sh.value current = some x) :
    Visits sh xs start (seen ++ [x]) node.next := by
  obtain ⟨zs, rest, hpath, hsto, hsub, hlive⟩ := h
  have hlink : sh.list.next current = some node.next := by
    simp [ConcurrentLinkedList.next, hnode]
  cases zs with
  | nil =>
    cases hpath
    simp [hnull] at hlink
  | cons z zs =>
    obtain ⟨rfl, m, hm, htail⟩ := hpath
    cases hlink.symm.trans hm
    obtain ⟨y, rest, rfl, hy, hrest⟩ := stores_cons.mp hsto
    cases hx.symm.trans hy
    refine ⟨zs, rest, htail, hrest, by simpa using hsub, ?_⟩
    intro a ha w hw hmem
    simpa using hlive a ha w hw hmem

variable {yielded : List T} {choice : Choice T}

lemma Settled.nextSome
    (h : Settled es cfg xs qs) (hcall : cfg.calls[t]? = some (.iterating current yielded))
    (hcur : current ≠ 0) (hdrop : choice.drop = false) :
    ∃ ys rs, Settled (es ++ [.next t (some (cfg.shared.list.read choice current).data)])
      (act step cfg (.step t choice)) ys rs := by
  have hnode := h.owned.read_eq choice hcall hcur
  have hstep : cfg.shared.step choice t (.iterating current yielded) =
      (cfg.shared, .iterating (cfg.shared.list.read choice current).next
        (yielded ++ [(cfg.shared.list.read choice current).data])) := by
    simp [step, Call.step, record, hdrop, hcur]
  obtain ⟨ys, rs, hw⟩ := (h.working hcall trivial).step
    (B := fun sh ys _ => sh = cfg.shared ∧ ys = xs) choice (by
      intro ys heff
      rw [hstep] at heff ⊢
      exact ⟨rfl, heff⟩)
  obtain ⟨hsha, rfl⟩ := hw.ok
  rw [hstep] at hw
  refine ⟨ys, rs, hw.settled h rfl ?_ (by simp) (by simp) ?_ ?_ ?_⟩
  · rw [contents_snoc, hsha]
    exact h.stores
  · intro before after hes
    obtain ⟨-, hpush, hopen⟩ := h.tours before t after hes
    refine ⟨(hw.tours before t after hes).2.1, ?_⟩
    intro k zs hk
    cases hw.active.call.symm.trans hk
    obtain ⟨seen, hseen, hvis⟩ := hopen current yielded hcall
    have hval : cfg.shared.value current =
        some (cfg.shared.element current, (cfg.shared.list.read choice current).data) := by
      rw [value, hnode]
      rfl
    refine ⟨_, ?_, by rw [hsha]; exact hvis.next h.owned.next_zero hnode hval⟩
    simp [hseen]
  · intro u k zs hu
    rw [yields_snoc]
    by_cases hut : u = t
    · subst hut
      cases hw.active.call.symm.trans hu
      rw [← h.yielded u current yielded hcall]
      simp [yields]
    · rw [hw.others u hut] at hu
      have hoth : yields u
          [.next t (some (cfg.shared.list.read choice current).data)] = [] := by
        simp [yields, Ne.symm hut]
      rw [hoth, append_nil]
      exact h.yielded u k zs hu
  · intro u hu
    have hut : t ≠ u := by
      have hlt := (List.getElem?_eq_some_iff.mp hcall).1
      omega
    have hoth : yields u [.next t (some (cfg.shared.list.read choice current).data)] = [] := by
      simp [yields, hut]
    rw [yields_snoc, h.silent u hu, hoth]
    rfl

lemma Settled.drop (h : Settled es cfg xs qs)
    (hcall : cfg.calls[t]? = some (.iterating current yielded)) (hdrop : choice.drop = true)
    (hrun : ReflTransGen (Alone t) (act Shared.step cfg (.step t choice)) cfg')
    (hend : cfg'.calls[t]? = some .dropped) :
    ∃ ys rs, Settled (es ++ [.drop t]) cfg' ys rs := by
  obtain ⟨zs, ps, hfst⟩ := (h.working hcall trivial).drop h.stores hdrop
  obtain ⟨d, ys, rs, hw⟩ := hfst.run DropOk.kept hrun
  cases hw.active.call.symm.trans hend
  refine ⟨ys, rs, hw.settled_of_silent h rfl ?_ nofun nofun ?_ le_rfl (fun _ _ => rfl) nofun
    fun _ => rfl⟩
  · rw [contents_snoc]
    exact hw.ok
  · intro before after hes
    refine ⟨(hw.tours before t after hes).2.1, ?_⟩
    intro k zs hk
    cases hend.symm.trans hk

lemma Performs.settled {e : Event T} (hop : Performs cfg e cfg') (h : Settled es cfg xs qs) :
    ∃ ys rs, Settled (es ++ [e]) cfg' ys rs := by
  cases hop with
  | push hrun hend => exact h.push hrun hend
  | remove hrun hend => exact h.remove hrun hend
  | iter hrun hend => exact h.iter hrun hend
  | nextNone hcall => exact ⟨xs, qs, h.nextNone hcall⟩
  | nextSome choice hcall hcur hdrop => exact h.nextSome hcall hcur hdrop
  | drop hcall hdrop hrun hend => exact h.drop hcall hdrop hrun hend

lemma Run.settled (h : Run es cfg) : ∃ xs qs, Settled es cfg xs qs := by
  induction h with
  | nil =>
    refine ⟨[], [], Owned.default, ?_, rfl, by simp, by simp, by simp, by simp, fun _ _ => rfl⟩
    exact ⟨by simp [Shared.default], by simp [Shared.default], by simp [Shared.default]⟩
  | snoc _ hop ih =>
    obtain ⟨xs, qs, hset⟩ := ih
    exact hop.settled hset

end performs

/-! ### Every operation comes to its end -/

def Bounded (s : ConcurrentLinkedList T) : Prop :=
  ∃ N, ∀ a, N ≤ a → s.nodes a = none ∧ s.pool a = none

lemma Bounded.exists_fresh {s : ConcurrentLinkedList T} (h : Bounded s) : ∃ a, s.Fresh a := by
  obtain ⟨N, hN⟩ := h
  obtain ⟨hnds, hpool⟩ := hN (N + 1) (le_succ N)
  exact ⟨N + 1, succ_ne_zero N, hnds, hpool⟩

inductive Halts : ConcurrentLinkedList T → Call T → Prop where
  | rest {s c} (h : c.atRest = true) : Halts s c
  | step {s c} (choice : Choice T) (hbusy : c.atRest = false)
      (h : Halts (c.step choice s).1 (c.step choice s).2) : Halts s c

section halts

variable {s : ConcurrentLinkedList T} {c : Call T}

lemma Bounded.step (h : Bounded s) (choice : Choice T) : Bounded (c.step choice s).1 := by
  obtain ⟨N, hN⟩ := h
  refine ⟨max N (choice.address + 1), fun a ha => ?_⟩
  obtain ⟨hnds, hpool⟩ := hN a (le_trans (le_max_left _ _) ha)
  have hne : a ≠ choice.address := by omega
  have hupd : ∀ {α : Type} {g : ℕ → Option α} {b : ℕ} {x : Option α}, g a = none →
      (a = b → x = none) → update g b x a = none := by
    intro α g b x hg hx
    rw [update_apply]
    split_ifs with hab
    · exact hx hab
    · exact hg
  have hset : ∀ b n, (s.setNext b n).nodes a = none := fun b n =>
    hupd hnds fun hab => by simp [← hab, hnds]
  cases c with
  | push data =>
    dsimp only [Call.step]
    split_ifs
    · exact ⟨hupd hnds fun hab => absurd hab hne, hpool⟩
    · exact ⟨hnds, hpool⟩
  | pushStore n k => exact ⟨hset n k, hpool⟩
  | removeExchange p prev b n =>
    dsimp only [Call.step]
    split_ifs
    · cases prev with
      | head => exact ⟨hnds, hpool⟩
      | next d => exact ⟨hset d n, hpool⟩
    · exact ⟨hnds, hpool⟩
  | deferFree n v => exact ⟨hupd hnds fun _ => rfl, hpool⟩
  | deferAllocate n v =>
    dsimp only [Call.step]
    split_ifs
    · exact ⟨hnds, hupd hpool fun hab => absurd hab hne⟩
    · exact ⟨hnds, hpool⟩
  | deferStore b k n v => exact ⟨hnds, hupd hpool fun hab => by simp [← hab, hpool]⟩
  | poolFree b n => exact ⟨hupd hnds fun _ => rfl, hupd hpool fun _ => rfl⟩
  | _ =>
    dsimp only [Call.step]
    try split_ifs
    all_goals exact ⟨hnds, hpool⟩

variable [Nonempty T]

noncomputable def chooseAddress (a : ℕ) : Choice T := ⟨a, ⟨Classical.arbitrary T, 0⟩, ⟨0, 0⟩, false⟩

lemma halts_push (h : Bounded s) (data : T) : Halts s (.push data) := by
  obtain ⟨a, ha⟩ := h.exists_fresh
  refine .step (chooseAddress a) rfl ?_
  have hstep : Call.step (chooseAddress a) s (.push data) = (s.allocate a data, .pushLoad a) :=
    if_pos ha
  rw [hstep]
  refine .step (chooseAddress a) rfl (.step (chooseAddress a) rfl (.step (chooseAddress a) rfl ?_))
  refine .rest ?_
  simp [Call.step, setNext, allocate, Call.atRest]

lemma halts_defer (h : Bounded s) (a : ℕ) (v : T) : Halts s (.deferLoad a v) := by
  refine .step (chooseAddress 0) rfl ?_
  simp only [Call.step]
  split_ifs with hrdrs
  · exact .step (chooseAddress 0) rfl (.rest rfl)
  · obtain ⟨b, hb⟩ := h.exists_fresh
    refine .step (chooseAddress b) rfl ?_
    have hstep : Call.step (chooseAddress b) s (.deferAllocate a v) =
        (s.allocatePool b a, .deferLoadPool b a v) := if_pos hb
    rw [hstep]
    refine .step (chooseAddress b) rfl (.step (chooseAddress b) rfl
      (.step (chooseAddress b) rfl (.rest ?_)))
    simp [Call.step, setPoolNext, allocatePool, Call.atRest]

variable {p : T → Bool}

lemma halts_scan {prev : Link} {current : ℕ} {r : List ℕ} (h : Bounded s)
    (hnull : s.nodes 0 = none) (hpath : Path s.next current r 0)
    (hload : ∀ choice, s.load choice prev = current) :
    Halts s (.removeScan p prev current) := by
  induction r generalizing prev current with
  | nil =>
    cases hpath
    exact .step (chooseAddress 0) rfl (.rest rfl)
  | cons a r ih =>
    obtain ⟨rfl, m, hm, hrest⟩ := hpath
    obtain ⟨node, hnode, rfl⟩ := map_eq_some_iff.mp hm
    have hne : current ≠ 0 := by
      rintro rfl
      simp [hnull] at hnode
    have hread : ∀ choice, s.read choice current = node := by
      intro choice
      simp [ConcurrentLinkedList.read, hnode]
    refine .step (chooseAddress 0) rfl ?_
    simp only [Call.step, if_neg hne, hread]
    split_ifs with hmat
    · refine .step (chooseAddress 0) rfl ?_
      have hbdd := h.step (c := .removeExchange p prev current node.next) (chooseAddress 0)
      simp only [Call.step, hload, if_true] at hbdd ⊢
      exact halts_defer hbdd _ _
    · refine ih hrest ?_
      intro choice
      rw [ConcurrentLinkedList.load, hread]

lemma halts_remove {xs : List ℕ} (h : Bounded s) (hnull : s.nodes 0 = none)
    (hpath : Path s.next s.head xs 0) : Halts s (.removeLoad p) := by
  refine .step (chooseAddress 0) rfl (.step (chooseAddress 0) rfl ?_)
  by_cases hzero : s.head = 0
  · simp only [Call.step, if_pos hzero]
    exact .rest rfl
  by_cases hmat : p (s.read (chooseAddress 0) s.head).data = true
  · simp only [Call.step, if_neg hzero, hmat, if_true]
    refine .step (chooseAddress 0) rfl ?_
    have hbdd := h.step (c := .removeHeadExchange p s.head
      (s.read (chooseAddress 0) s.head).next) (chooseAddress 0)
    simp only [Call.step, if_true] at hbdd ⊢
    exact halts_defer hbdd _ _
  · simp only [Call.step, if_neg hzero, hmat]
    refine .step (chooseAddress 0) rfl ?_
    exact halts_scan h hnull hpath fun _ => rfl

lemma halts_iter : Halts s (.iter : Call T) :=
  .step (chooseAddress 0) rfl (.step (chooseAddress 0) rfl (.rest rfl))

lemma halts_pool {bs : List ℕ} (hnull : s.pool 0 = none)
    (hpath : Path s.poolNext s.pendingDeletion bs 0) :
    Halts s (.poolHead s.pendingDeletion : Call T) := by
  induction bs generalizing s with
  | nil =>
    have hzero : s.pendingDeletion = 0 := hpath
    refine .step (chooseAddress 0) rfl ?_
    simp only [Call.step, hzero, if_true]
    exact .rest rfl
  | cons b bs ih =>
    have hnd := Path.nodup (by simp [poolNext, hnull]) hpath
    obtain ⟨hb, m, hm, hrest⟩ := hpath
    obtain ⟨node, hnode, rfl⟩ := map_eq_some_iff.mp hm
    have hne : b ≠ 0 := by
      rintro rfl
      simp [hnull] at hnode
    have hoth : ∀ x ∈ bs, x ≠ b := by
      rintro x hx rfl
      exact (nodup_cons.mp hnd).1 hx
    have hmov : node.next ≠ b := by
      cases bs with
      | nil =>
        rw [path_nil.mp hrest]
        exact Ne.symm hne
      | cons d bs =>
        rw [hrest.1]
        exact hoth d mem_cons_self
    rw [hb]
    refine .step (chooseAddress 0) rfl ?_
    simp only [Call.step, if_neg hne, readPool, hnode, getD_some]
    refine .step (chooseAddress 0) rfl ?_
    simp only [Call.step, hb, if_true, readPool, hnode, getD_some]
    refine .step (chooseAddress 0) rfl (.step (chooseAddress 0) rfl ?_)
    simp only [Call.step, if_neg hne]
    refine .step (chooseAddress 0) rfl ?_
    have hpend : (({ s with pendingDeletion := node.next } : ConcurrentLinkedList T).freePool b
        node.data).pendingDeletion = node.next := rfl
    simp only [Call.step, hpend, if_neg hmov]
    refine ih ?_ ?_
    · simp [freePool, update_of_ne (Ne.symm hne), hnull]
    · refine hrest.congr ?_
      intro x hx
      simp [poolNext, freePool, update_of_ne (hoth x hx)]

end halts

section finishes

variable {es : List (Event T)} {cfg cfg' : Config (Shared T) (Call T)} {xs : List ℕ}
  {qs : List (ℕ × ℕ)} {t : ℕ} {c : Call T}

lemma list_act_step {choice : Choice T} (hc : cfg.calls[t]? = some c) :
    (act step cfg (.step t choice)).shared.list = (c.step choice cfg.shared.list).1 := by
  rw [act_step hc]
  exact record_list ..

lemma Halts.finishes {s : ConcurrentLinkedList T} (h : Halts s c)
    (hc : cfg.calls[t]? = some c) (hs : s = cfg.shared.list) :
    ∃ cfg' d, ReflTransGen (Alone t) cfg cfg' ∧ cfg'.calls[t]? = some d ∧ d.atRest = true := by
  induction h generalizing cfg with
  | rest hrest => exact ⟨cfg, _, ReflTransGen.refl, hc, hrest⟩
  | @step s c choice hbusy _ ih =>
    subst hs
    have ht := (List.getElem?_eq_some_iff.mp hc).1
    have hnext : (act Shared.step cfg (.step t choice)).calls[t]? =
        some (c.step choice cfg.shared.list).2 := by
      rw [act_step hc]
      simp [ht, Shared.step]
    obtain ⟨cfg', d, hrun, hd, hrest⟩ := ih hnext (list_act_step hc).symm
    exact ⟨cfg', d, ReflTransGen.head ⟨c, choice, hc, hbusy, rfl⟩ hrun, hd, hrest⟩

lemma Working.finishes {cs : List (Call T)} {A : Shared T → List ℕ → Call T → Prop}
    (h : Working es cs t A cfg c xs qs) (hA : Kept t A) (hhal : Halts cfg.shared.list c) :
    ∃ cfg' d ys, ReflTransGen (Alone t) cfg cfg' ∧ cfg'.calls[t]? = some d ∧ d.atRest = true ∧
      A cfg'.shared ys d := by
  obtain ⟨cfg', d, hrun, hend, hrest⟩ := hhal.finishes h.active.call rfl
  obtain ⟨d', ys, rs, hw⟩ := h.run hA hrun
  cases hw.active.call.symm.trans hend
  exact ⟨cfg', d, ys, hrun, hend, hrest, hw.ok⟩

lemma bounded_act (h : Bounded cfg.shared.list) (choice : Choice T) :
    Bounded (act step cfg (.step t choice)).shared.list := by
  cases hc : cfg.calls[t]? with
  | none =>
    have hstay : act step cfg (.step t choice) = cfg := by simp only [act, hc]
    rwa [hstay]
  | some c =>
    rw [list_act_step hc]
    exact h.step choice

lemma bounded_alone (hrun : ReflTransGen (Alone t) cfg cfg') (h : Bounded cfg.shared.list) :
    Bounded cfg'.shared.list := by
  induction hrun with
  | refl => exact h
  | tail _ hstep ih =>
    obtain ⟨-, choice, -, -, rfl⟩ := hstep
    exact bounded_act ih choice

lemma Run.bounded (h : Run es cfg) : Bounded cfg.shared.list := by
  induction h with
  | nil => exact ⟨0, fun _ _ => ⟨rfl, rfl⟩⟩
  | snoc _ hop ih =>
    cases hop with
    | push hrun | remove hrun | iter hrun => exact bounded_alone hrun ih
    | nextNone => exact ih
    | nextSome => exact bounded_act ih _
    | drop _ _ hrun => exact bounded_alone hrun (bounded_act ih _)

variable [Nonempty T]

lemma Settled.exists_push (h : Settled es cfg xs qs) (hbdd : Bounded cfg.shared.list)
    (data : T) : ∃ cfg', Performs cfg (.push cfg.calls.length data) cfg' := by
  have hbeg := h.begin (A := fun sh ys d => PushOk sh ys (contents es) cfg.calls.length data d)
    (Or.inl ⟨data, rfl⟩) ⟨rfl, h.stores⟩
  obtain ⟨cfg', d, ys, hrun, hend, hrest, hok⟩ :=
    hbeg.finishes pushOk_kept (halts_push hbdd data)
  cases d with
  | pushReturned n => exact ⟨cfg', .push hrun hend⟩
  | removeReturned | iterating | dropped => exact absurd hok id
  | _ => cases hrest

lemma Settled.exists_remove (h : Settled es cfg xs qs) (hbdd : Bounded cfg.shared.list)
    (p : T → Bool) : ∃ r cfg', Performs cfg (.remove cfg.calls.length p r) cfg' := by
  have hbeg := h.begin (A := fun sh ys d => RemoveOk sh ys (contents es) p d)
    (Or.inr (Or.inl ⟨p, rfl⟩)) ⟨rfl, h.stores⟩
  obtain ⟨cfg', d, ys, hrun, hend, hrest, hok⟩ :=
    hbeg.finishes removeOk_kept (halts_remove hbdd h.owned.null h.owned.path)
  cases d with
  | removeReturned r => exact ⟨r, cfg', .remove hrun hend⟩
  | pushReturned | iterating | dropped => exact absurd hok id
  | _ => cases hrest

lemma Settled.exists_iter (h : Settled es cfg xs qs) :
    ∃ cfg', Performs cfg (.iter cfg.calls.length) cfg' := by
  have hbeg := h.begin (A := OpenOk (contents es)) (Or.inr (Or.inr rfl)) h.stores
  obtain ⟨cfg', d, ys, hrun, hend, hrest, hok⟩ := hbeg.finishes OpenOk.kept halts_iter
  cases d with
  | iterating current ys =>
    obtain ⟨-, -, rfl⟩ := hok
    exact ⟨cfg', .iter hrun hend⟩
  | pushReturned | removeReturned | dropped => exact absurd hok id
  | _ => cases hrest

noncomputable def chooseDrop : Choice T := ⟨0, ⟨Classical.arbitrary T, 0⟩, ⟨0, 0⟩, true⟩

variable {current : ℕ} {yielded : List T}

lemma Settled.exists_next
    (hcall : cfg.calls[t]? = some (.iterating current yielded)) :
    ∃ r cfg', Performs cfg (.next t r) cfg' := by
  by_cases hcur : current = 0
  · subst hcur
    exact ⟨none, cfg, .nextNone hcall⟩
  · exact ⟨_, _, .nextSome (chooseAddress 0) hcall hcur rfl⟩

lemma Settled.exists_drop (h : Settled es cfg xs qs)
    (hcall : cfg.calls[t]? = some (.iterating current yielded)) :
    ∃ cfg', Performs cfg (.drop t) cfg' := by
  have hdrop : (chooseDrop : Choice T).drop = true := rfl
  obtain ⟨zs, ps, hfst⟩ := (h.working hcall trivial).drop h.stores hdrop
  have hhal : Halts (act Shared.step cfg (.step t chooseDrop)).shared.list
      (cfg.shared.step chooseDrop t (.iterating current yielded)).2 := by
    rw [list_act_step hcall]
    simp only [Shared.step, Call.step, chooseDrop, if_true]
    split_ifs
    · refine .step chooseDrop rfl ?_
      exact halts_pool h.owned.poolNull h.owned.poolPath
    · exact .rest rfl
  obtain ⟨cfg', d, ys, hrun, hend, hrest, hok⟩ := hfst.finishes DropOk.kept hhal
  cases d with
  | dropped => exact ⟨cfg', .drop hcall rfl hrun hend⟩
  | pushReturned | removeReturned | iterating => exact absurd hok id
  | _ => cases hrest

end finishes

/-! ### The list as a sequence -/

structure Faithful (es : List (Event T)) (cfg : Config (Shared T) (Call T)) : Prop where
  list : ∃ xs, Path cfg.shared.list.next cfg.shared.list.head xs 0 ∧
    Stores cfg.shared xs (contents es)
  results : ∀ before t p r after, es = before ++ .remove t p r :: after →
    r = ((contents before).find? fun y => p y.2).map Prod.snd
  iterators : ∀ before t after current yielded, es = before ++ .iter t :: after →
    cfg.calls[t]? = some (.iterating current yielded) →
    yielded = yields t es ∧ (current ≠ 0 → (cfg.shared.list.nodes current).isSome) ∧
      ∃ seen : List (ℕ × T), seen.map Prod.snd = yielded ∧ seen.Sublist (contents before) ∧
        (seen.map Prod.fst).Nodup ∧
        (current = 0 → ∀ x ∈ contents before, x ∈ contents es → x ∈ seen)

structure Live (cfg : Config (Shared T) (Call T)) : Prop where
  push : ∀ data, ∃ cfg', Performs cfg (.push cfg.calls.length data) cfg'
  remove : ∀ p, ∃ r cfg', Performs cfg (.remove cfg.calls.length p r) cfg'
  iter : ∃ cfg', Performs cfg (.iter cfg.calls.length) cfg'
  next : ∀ (t current : ℕ) (yielded : List T),
    cfg.calls[t]? = some (.iterating current yielded) → ∃ r cfg', Performs cfg (.next t r) cfg'
  drop : ∀ (t current : ℕ) (yielded : List T),
    cfg.calls[t]? = some (.iterating current yielded) → ∃ cfg', Performs cfg (.drop t) cfg'

section faithful

variable {es before after : List (Event T)} {cfg : Config (Shared T) (Call T)}

lemma Run.exists_of_append (h : Run es cfg) (hes : es = before ++ after) :
    ∃ cfg', Run before cfg' := by
  induction h generalizing after with
  | nil =>
    obtain ⟨rfl, -⟩ := nil_eq_append_iff.mp hes
    exact ⟨_, .nil⟩
  | @snoc es e cfg cfg' hrun hop ih =>
    rcases eq_nil_or_concat after with rfl | ⟨rest, x, rfl⟩
    · rw [append_nil] at hes
      exact ⟨cfg', hes ▸ .snoc hrun hop⟩
    · rw [concat_eq_append, ← append_assoc] at hes
      exact ih (append_inj' hes rfl).1

lemma Run.contents_nodup (h : Run es cfg) : ((contents es).map Prod.fst).Nodup := by
  obtain ⟨xs, qs, hset⟩ := h.settled
  rw [hset.stores.map_fst]
  exact (nodup_append.mp hset.recorded.nodup).1

lemma Run.faithful (h : Run es cfg) : Faithful es cfg := by
  obtain ⟨xs, qs, hset⟩ := h.settled
  refine ⟨⟨xs, hset.owned.path, hset.stores⟩, hset.results, ?_⟩
  intro before t after current yielded hes hcall
  refine ⟨hset.yielded t current yielded hcall, ?_, ?_⟩
  · intro hne
    obtain ⟨zs, hpath, -⟩ := hset.owned.iterOk t _ hcall
    cases zs with
    | nil => exact absurd hpath hne
    | cons z zs =>
      rw [← Owned.isSome_next, hpath.1]
      exact hpath.isSome mem_cons_self
  · obtain ⟨-, -, hopen⟩ := hset.tours before t after hes
    obtain ⟨seen, hseen, zs, rest, hpath, hsto, hsub, hlive⟩ := hopen current yielded hcall
    have hpart : seen.Sublist (contents before) := (sublist_append_left seen rest).trans hsub
    obtain ⟨cfg', hbef⟩ := h.exists_of_append hes
    refine ⟨seen, hseen, hpart, (hpart.map Prod.fst).nodup hbef.contents_nodup, ?_⟩
    rintro rfl x hx hsti
    obtain ⟨a, ha, hval⟩ := hset.stores.exists_mem hsti
    cases Path.unique hset.owned.next_zero hpath (path_nil.mpr rfl)
    rw [stores_nil] at hsto
    simpa [hsto] using hlive a ha x hval hx

end faithful

/-- Whatever operations are executed one at a time, the list is the sequence of the elements, the
iterators go through it as they should, and every operation can be executed to its end. -/
theorem run_faithful [Nonempty T] {es : List (Event T)} {cfg : Config (Shared T) (Call T)}
    (h : Run es cfg) : Faithful es cfg ∧ Live cfg := by
  obtain ⟨xs, qs, hset⟩ := h.settled
  refine ⟨h.faithful, fun data => hset.exists_push h.bounded data,
    fun p => hset.exists_remove h.bounded p, hset.exists_iter, ?_, ?_⟩
  · intro t current yielded hcall
    exact Settled.exists_next hcall
  · intro t current yielded hcall
    exact hset.exists_drop hcall

def steps (t n : ℕ) (choice : Choice T) (cfg : Config (Shared T) (Call T)) :
    Config (Shared T) (Call T) :=
  (replicate n (Act.step t choice)).foldl (act step) cfg

lemma alone_steps {t : ℕ} {choice : Choice T} (n : ℕ) {cfg : Config (Shared T) (Call T)}
    (h : ∀ k < n, (steps t k choice cfg).calls[t]?.map Call.atRest = some false) :
    ReflTransGen (Alone t) cfg (steps t n choice cfg) := by
  induction n generalizing cfg with
  | zero => exact .refl
  | succ n ih =>
    obtain ⟨c, hc, hbusy⟩ := map_eq_some_iff.mp (h 0 (succ_pos n))
    refine .head ⟨c, choice, hc, hbusy, rfl⟩ (ih ?_)
    intro k hk
    exact h (k + 1) (succ_lt_succ hk)

def afterPush : Config (Shared ℕ) (Call ℕ) :=
  steps 0 4 (sampleChoice 10) ⟨.default, [.push 7]⟩

def afterIter : Config (Shared ℕ) (Call ℕ) :=
  steps 1 2 (sampleChoice 0) ⟨afterPush.shared, afterPush.calls ++ [.iter]⟩

def afterRemove : Config (Shared ℕ) (Call ℕ) :=
  steps 2 8 (sampleChoice 20) ⟨afterIter.shared, afterIter.calls ++ [.remove (· == 7)]⟩

/-- The only element is removed under an iterator that has not seen it yet, and is yielded. -/
theorem run_faithful_remove_under_iterator :
    ∃ cfg, Faithful [.push 0 7, .iter 1, .remove 2 (· == 7) (some 7), .next 1 (some 7)] cfg ∧
      Live cfg ∧ cfg.calls[1]? = some (.iterating 0 [7]) ∧
      contents [.push 0 7, .iter 1, .remove 2 (· == 7) (some 7), .next 1 (some 7)] = [] := by
  have hpus : afterPush.calls[0]? = some (.pushReturned 10) := rfl
  have hite : afterIter.calls[1]? = some (.iterating 10 []) := rfl
  have hrem : afterRemove.calls[2]? = some (.removeReturned (some 7)) := rfl
  have hopen : afterRemove.calls[1]? = some (.iterating 10 []) := rfl
  have hpush : ReflTransGen (Alone 0) ⟨.default, [.push 7]⟩ afterPush :=
    alone_steps 4 (by decide +kernel)
  have hiter : ReflTransGen (Alone 1) ⟨afterPush.shared, afterPush.calls ++ [.iter]⟩ afterIter :=
    alone_steps 2 (by decide +kernel)
  have hremo : ReflTransGen (Alone 2)
      ⟨afterIter.shared, afterIter.calls ++ [.remove (· == 7)]⟩ afterRemove :=
    alone_steps 8 (by decide +kernel)
  have hrun := Run.snoc (Run.snoc (Run.snoc (Run.snoc Run.nil (.push hpush hpus))
    (.iter hiter hite)) (.remove hremo hrem))
    (.nextSome (sampleChoice 0) hopen (by decide) rfl)
  exact ⟨_, (run_faithful hrun).1, (run_faithful hrun).2, rfl, rfl⟩

end Kernel.Ds
