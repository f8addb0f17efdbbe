import Kernel.Ds.Lists.Steps

/-!
# Concurrent calls on one list

Any number of calls interleave. A run records which `push` filled each node and which removal took
which element out; an element is named by the number of its `push`.
-/

namespace Kernel.Ds

open Core Call List Function

variable {T : Type}

structure Shared (T : Type) where
  list : ConcurrentLinkedList T
  element : ℕ → ℕ
  removals : List (ℕ × ℕ)

namespace Shared

def default : Shared T := ⟨.default, fun _ => 0, []⟩

def record (sh : Shared T) (t : ℕ) (before : Call T) :
    ConcurrentLinkedList T × Call T → Shared T
  | (s, after) =>
    match before, after with
    | .pushExchange _ _, .pushReturned a => ⟨s, update sh.element a t, sh.removals⟩
    | .removeHeadExchange _ _ _, .deferLoad a _ | .removeExchange _ _ _ _, .deferLoad a _ =>
      ⟨s, sh.element, sh.removals ++ [(t, sh.element a)]⟩
    | _, _ => ⟨s, sh.element, sh.removals⟩

def step (choice : Choice T) (t : ℕ) (sh : Shared T) (c : Call T) : Shared T × Call T :=
  (sh.record t c (c.step choice sh.list), (c.step choice sh.list).2)

@[simp] lemma record_list (sh : Shared T) (t : ℕ) (c : Call T)
    (r : ConcurrentLinkedList T × Call T) :
    (sh.record t c r).list = r.1 := by
  simp only [record]
  split <;> rfl

def Holds (sh : Shared T) (e : ℕ) : Prop :=
  ∃ a, a ≠ 0 ∧ Leads sh.list.next sh.list.head a ∧ sh.element a = e

end Shared

def updates (T : Type) : Program (Shared T) (Call T) :=
  .ofFun Shared.step fun c =>
    (∃ data, c = .push data) ∨ ∃ predicate, c = .remove predicate ∨ c = .removeCloned predicate

def program (T : Type) : Program (Shared T) (Call T) :=
  .ofFun Shared.step fun c =>
    (∃ data, c = .push data) ∨ (∃ predicate, c = .remove predicate ∨ c = .removeCloned predicate) ∨
      c = .iter

/-! ### What a step does to the history -/

def Call.hasUnlinked : Call T → Bool
  | .deferLoad _ _ | .deferFree _ _ | .deferAllocate _ _ | .deferLoadPool _ _ _
  | .deferStore _ _ _ _ | .deferExchange _ _ _ _ | .removeReturned (some _) => true
  | _ => false

def Call.hasPushed : Call T → Bool
  | .pushReturned _ => true
  | _ => false

variable {sh : Shared T} {t : ℕ} {c : Call T} {xs : List ℕ}

lemma step_cases {choice : Choice T} {ys : List ℕ}
    (heff : Effect xs ys c (c.step choice sh.list).2) :
    (∃ a, c.hasPushed = false ∧ (c.step choice sh.list).2 = .pushReturned a ∧ ys = a :: xs ∧
      c.held a = 1 ∧ c.hasUnlinked = false ∧ (sh.step choice t c).1 =
        ⟨(c.step choice sh.list).1, update sh.element a t, sh.removals⟩) ∨
    (∃ a v l r, c.removing = 1 ∧ c.hasPushed = false ∧
      (c.step choice sh.list).2 = .deferLoad a v ∧ xs = l ++ a :: r ∧ ys = l ++ r ∧
      (sh.step choice t c).1 =
        ⟨(c.step choice sh.list).1, sh.element, sh.removals ++ [(t, sh.element a)]⟩) ∨
    ((c.step choice sh.list).2.hasPushed = c.hasPushed ∧
      (c.step choice sh.list).2.hasUnlinked = c.hasUnlinked ∧ ys = xs ∧
      (sh.step choice t c).1 = ⟨(c.step choice sh.list).1, sh.element, sh.removals⟩) := by
  cases c with
  | pushExchange n k =>
    simp only [Shared.step, step] at heff ⊢
    split_ifs at heff ⊢ with hhead
    · left
      exact ⟨n, rfl, rfl, heff, by simp [held, closed, unpublished, doomed,
        kept], rfl, rfl⟩
    · right; right
      exact ⟨rfl, rfl, heff, rfl⟩
  | removeHeadExchange p a n =>
    simp only [Shared.step, step] at heff ⊢
    split_ifs at heff ⊢ with hhead
    · right; left
      obtain ⟨l, r, hxs, hys⟩ := heff
      exact ⟨a, _, l, r, rfl, rfl, rfl, hxs, hys, rfl⟩
    · right; right
      exact ⟨rfl, rfl, heff, rfl⟩
  | removeExchange p prev a n =>
    simp only [Shared.step, step] at heff ⊢
    split_ifs at heff ⊢ with hcell
    · right; left
      obtain ⟨l, r, hxs, hys⟩ := heff
      exact ⟨a, _, l, r, rfl, rfl, rfl, hxs, hys, rfl⟩
    · right; right
      exact ⟨rfl, rfl, heff, rfl⟩
  | _ =>
    right; right
    dsimp only [Shared.step, step] at heff ⊢
    try split_ifs at heff ⊢
    all_goals exact ⟨rfl, rfl, heff, rfl⟩

/-! ### The contents of the list -/

structure Recorded (sh : Shared T) (cs : List (Call T)) (xs : List ℕ) : Prop where
  elements : ∀ e, e ∈ xs.map sh.element ++ sh.removals.map Prod.snd ↔
    ∃ c, cs[e]? = some c ∧ c.hasPushed = true
  nodup : (xs.map sh.element ++ sh.removals.map Prod.snd).Nodup
  removers : ∀ u, u ∈ sh.removals.map Prod.fst ↔ ∃ c, cs[u]? = some c ∧ c.hasUnlinked = true

section recorded

variable {sh : Shared T} {cs : List (Call T)} {xs : List ℕ} {qs : List (ℕ × ℕ)} {t : ℕ}
  {c c' : Call T}

variable {flag : Call T → Bool}

lemma exists_set_iff (hc : cs[t]? = some c) (e : ℕ) :
    (∃ d, (cs.set t c')[e]? = some d ∧ flag d = true) ↔
      (e = t ∧ flag c' = true) ∨ (e ≠ t ∧ ∃ d, cs[e]? = some d ∧ flag d = true) := by
  obtain ⟨ht, -⟩ := List.getElem?_eq_some_iff.mp hc
  rw [List.getElem?_set]
  by_cases hte : t = e
  · subst hte
    simp [ht]
  · simp [hte, Ne.symm hte]

lemma exists_set_iff_of_eq (hc : cs[t]? = some c) (hflag : flag c' = flag c) (e : ℕ) :
    (∃ d, (cs.set t c')[e]? = some d ∧ flag d = true) ↔ ∃ d, cs[e]? = some d ∧ flag d = true := by
  rw [exists_set_iff hc]
  by_cases hte : e = t
  · subst hte
    simp [hc, hflag]
  · simp [hte]

lemma exists_set_iff_of_new (hc : cs[t]? = some c) (hflag : flag c' = true) (e : ℕ) :
    (∃ d, (cs.set t c')[e]? = some d ∧ flag d = true) ↔
      e = t ∨ ∃ d, cs[e]? = some d ∧ flag d = true := by
  rw [exists_set_iff hc]
  by_cases hte : e = t
  · subst hte
    simp [hflag]
  · simp [hte]

lemma Recorded.step (h : Recorded sh cs xs) (hown : Owned sh.list cs xs qs) (hc : cs[t]? = some c)
    (choice : Choice T) {ys : List ℕ} (heff : Effect xs ys c (c.step choice sh.list).2) :
    Recorded (sh.step choice t c).1 (cs.set t (sh.step choice t c).2) ys := by
  rcases step_cases (t := t) heff with ⟨a, hold, hnew, rfl, hheld, hunl, hstep⟩ |
    ⟨a, v, l, r, -, hpush, hnew, rfl, rfl, hstep⟩ | ⟨hpush, hunl, rfl, hstep⟩
  · -- the node is put in front and carries the new element
    have hsame : xs.map (update sh.element a t) = xs.map sh.element := by
      apply map_congr_left
      intro x hx
      apply update_of_ne
      rintro rfl
      exact hown.not_mem_of_held hc (by omega) hx
    have hfsh : t ∉ xs.map sh.element ++ sh.removals.map Prod.snd := by
      rw [h.elements]
      rintro ⟨d, hd, hflag⟩
      cases hc.symm.trans hd
      simp [hold] at hflag
    have hlast : (sh.step choice t c).2 = .pushReturned a := hnew
    rw [hstep, hlast]
    refine ⟨?_, ?_, ?_⟩
    · intro e
      rw [exists_set_iff_of_new hc rfl, ← h.elements]
      simp only [map_cons, update_self, hsame, cons_append, mem_cons]
    · simp only [map_cons, update_self, hsame, cons_append]
      exact nodup_cons.mpr ⟨hfsh, h.nodup⟩
    · intro u
      rw [exists_set_iff_of_eq hc hunl.symm]
      exact h.removers u
  · -- the element goes from the list to the removals
    have hlast : (sh.step choice t c).2 = .deferLoad a v := hnew
    have hperm : ((l ++ r).map sh.element ++ (sh.removals ++ [(t, sh.element a)]).map Prod.snd).Perm
        ((l ++ a :: r).map sh.element ++ sh.removals.map Prod.snd) := by
      simp only [map_append, map_cons, map_nil, append_assoc]
      refine List.Perm.append_left _ ?_
      rw [← append_assoc]
      exact perm_append_singleton _ _
    rw [hstep, hlast]
    refine ⟨?_, ?_, ?_⟩
    · intro e
      rw [exists_set_iff_of_eq hc hpush.symm, ← h.elements]
      exact hperm.mem_iff
    · exact hperm.nodup_iff.mpr h.nodup
    · intro u
      rw [exists_set_iff_of_new hc rfl, ← h.removers]
      simp only [map_append, map_cons, map_nil, mem_append, mem_singleton]
      exact or_comm
  · have hlast : (sh.step choice t c).2 = (c.step choice sh.list).2 := rfl
    rw [hstep, hlast]
    refine ⟨?_, h.nodup, ?_⟩
    · intro e
      rw [exists_set_iff_of_eq hc hpush]
      exact h.elements e
    · intro u
      rw [exists_set_iff_of_eq hc hunl]
      exact h.removers u

lemma Recorded.append (h : Recorded sh cs xs) (hpush : c.hasPushed = false)
    (hunl : c.hasUnlinked = false) : Recorded sh (cs ++ [c]) xs := by
  have hflag : ∀ {flag : Call T → Bool}, flag c = false → ∀ e : ℕ,
      (∃ d, (cs ++ [c])[e]? = some d ∧ flag d = true) ↔ ∃ d, cs[e]? = some d ∧ flag d = true := by
    intro flag hc e
    rw [getElem?_append]
    split_ifs with he
    · rfl
    · have hnone : cs[e]? = none := getElem?_eq_none (by omega)
      rw [hnone]
      constructor
      · rintro ⟨d, hd, hflag⟩
        cases mem_singleton.mp (mem_of_getElem? hd)
        simp [hc] at hflag
      · rintro ⟨d, hd, -⟩
        cases hd
  refine ⟨?_, h.nodup, ?_⟩
  · intro e
    rw [hflag hpush]
    exact h.elements e
  · intro u
    rw [hflag hunl]
    exact h.removers u

end recorded

structure Intact (cfg : Config (Shared T) (Call T)) : Prop where
  returned : ∀ (u : ℕ) (v : T), cfg.calls[u]? = some (.removeReturned (some v)) →
    ∃ e, (u, e) ∈ cfg.shared.removals
  removed : ∀ u e, (u, e) ∈ cfg.shared.removals → ¬ cfg.shared.Holds e
  once : (cfg.shared.removals.map Prod.snd).Nodup
  pushed : ∀ e a, cfg.calls[e]? = some (.pushReturned a) →
    e ∉ cfg.shared.removals.map Prod.snd → cfg.shared.Holds e

variable {cs : List (Call T)} {qs : List (ℕ × ℕ)}

lemma holds_iff (h : Owned sh.list cs xs qs) {e : ℕ} : sh.Holds e ↔ e ∈ xs.map sh.element := by
  constructor
  · rintro ⟨a, hzero, hlea, rfl⟩
    rcases Leads.mem_or_eq h.next_zero h.path hlea with hmem | rfl
    · exact mem_map_of_mem hmem
    · exact absurd rfl hzero
  · intro hmem
    obtain ⟨a, ha, rfl⟩ := mem_map.mp hmem
    refine ⟨a, ?_, h.path.leads ha, rfl⟩
    rintro rfl
    have hsome := h.path.isSome ha
    simp [h.next_zero] at hsome

variable {cfg : Config (Shared T) (Call T)}

lemma Recorded.intact
    (hown : Owned cfg.shared.list cfg.calls xs qs) (h : Recorded cfg.shared cfg.calls xs) :
    Intact cfg := by
  obtain ⟨-, hrem, hdisj⟩ := nodup_append.mp h.nodup
  refine ⟨?_, ?_, hrem, ?_⟩
  · intro u v hu
    obtain ⟨⟨u, e⟩, hmem, rfl⟩ := mem_map.mp ((h.removers u).mpr ⟨_, hu, rfl⟩)
    exact ⟨e, hmem⟩
  · intro u e hmem hhol
    rw [holds_iff hown] at hhol
    exact hdisj e hhol e (mem_map_of_mem (f := Prod.snd) hmem) rfl
  · intro e a he hnot
    rw [holds_iff hown]
    have hmem := (h.elements e).mpr ⟨_, he, rfl⟩
    rcases mem_append.mp hmem with hmem | hmem
    · exact hmem
    · exact absurd hmem hnot

def Call.isUpdate : Call T → Bool
  | .iter | .iterLoad | .iterating _ _ | .poolLoad | .poolHead _ | .poolExchange _ _
  | .poolFree _ _ | .dropped => false
  | _ => true

lemma Call.isUpdate_step (h : c.isUpdate = true) (choice : Choice T)
    (s : ConcurrentLinkedList T) : (c.step choice s).2.isUpdate = true := by
  cases c with
  | iter | iterLoad | iterating | poolLoad | poolHead | poolExchange | poolFree | dropped => cases h
  | _ =>
    dsimp only [step]
    try split_ifs
    all_goals rfl

lemma Call.draining_of_isUpdate (h : c.isUpdate = true) : c.draining = 0 := by
  cases c with
  | poolLoad | poolHead | poolExchange | poolFree => cases h
  | _ => rfl

lemma undisturbed_of_isUpdate {s : ConcurrentLinkedList T} (h : ∀ d ∈ cs, d.isUpdate = true)
    (hc : cs[t]? = some c) :
    Undisturbed s cs c := by
  have hdr : total draining cs = 0 :=
    total_eq_zero fun d hd => draining_of_isUpdate (h d hd)
  cases c with
  | iter => exact hdr
  | deferExchange => exact fun _ => hdr
  | _ => trivial

def unlinking : Program.Discipline (Shared T) (Call T) where
  start _ _ := True
  step sh _ c := Unlinks sh.list c

def UpdateInv (sh : Shared T) (cs : List (Call T)) : Prop :=
  (∀ c ∈ cs, c.isUpdate = true) ∧
    ∃ xs qs, Owned sh.list cs xs qs ∧ Recorded sh cs xs

lemma updateInv_of_reachable (h : (updates T).ReachableUnder unlinking .default cfg) :
    UpdateInv cfg.shared cfg.calls := by
  refine h.induct ?_ ?_ ?_
  · exact ⟨by simp, [], [], Owned.default, by simp [Shared.default], by simp [Shared.default],
      by simp [Shared.default]⟩
  · rintro sh cs c ⟨hall, xs, qs, hown, hrec⟩ hst -
    refine ⟨?_, xs, qs, ?_⟩
    · intro d hd
      rcases mem_append.mp hd with hd | hd
      · exact hall d hd
      · rcases hst with ⟨data, rfl⟩ | ⟨p, rfl | rfl⟩ <;>
        · cases mem_singleton.mp hd
          rfl
    · rcases hst with ⟨data, rfl⟩ | ⟨p, rfl | rfl⟩ <;>
      exact ⟨hown.append (fun _ => rfl) (fun _ => rfl) rfl rfl trivial trivial, hrec.append rfl rfl⟩
  · rintro sh cs t c s' c' ⟨hall, xs, qs, hown, hrec⟩ hc ⟨choice, hstep⟩ hunl
    obtain ⟨rfl, rfl⟩ := Prod.mk.injEq .. ▸ hstep
    obtain ⟨ys, rs, hown', heff⟩ :=
      hown.step hc hunl (undisturbed_of_isUpdate hall hc) choice
    refine ⟨?_, ys, rs, by simpa [Shared.step] using hown',
      hrec.step hown hc choice heff⟩
    intro d hd
    rcases mem_or_eq_of_mem_set hd with hd | rfl
    · exact hall d hd
    · exact isUpdate_step (hall c (mem_of_getElem? hc)) choice sh.list

/-- In every run of `push`, `remove` and `remove_cloned` whose unlinking compare-exchanges go
through cells of the list and write the current successor, the list keeps what it guarantees about
its elements. -/
theorem updates_intact {cfg : Config (Shared T) (Call T)}
    (h : (updates T).ReachableUnder unlinking .default cfg) : Intact cfg := by
  obtain ⟨-, xs, qs, hown, hrec⟩ := updateInv_of_reachable h
  exact hrec.intact hown

def sampleChoice (address : ℕ) : Choice ℕ := ⟨address, ⟨0, 0⟩, ⟨0, 0⟩, false⟩

def samplePush (t address data : ℕ) : List (Act (Choice ℕ) (Call ℕ)) :=
  .start (.push data) :: replicate 4 (.step t (sampleChoice address))

def pushRemove : List (Act (Choice ℕ) (Call ℕ)) :=
  samplePush 0 10 1 ++ .start (.remove (· == 1)) :: replicate 5 (.step 1 (sampleChoice 0))

theorem updates_intact_push_remove :
    Intact (pushRemove.foldl (act Shared.step) ⟨.default, []⟩) ∧
      (pushRemove.foldl (act Shared.step) ⟨.default, []⟩).shared.removals = [(1, 0)] := by
  refine ⟨updates_intact (Obeys.reachableUnder ?_), by decide +kernel⟩
  refine ⟨⟨Or.inl ⟨1, rfl⟩, trivial⟩, ?_, ?_, ?_, ?_, ⟨Or.inr ⟨_, Or.inl rfl⟩, trivial⟩, ?_, ?_, ?_,
    ?_, ?_, trivial⟩ <;>
  · intro c hc
    cases hc
    first | trivial | exact fun _ => rfl

def removeNeighbours : List (Act (Choice ℕ) (Call ℕ)) :=
  samplePush 0 10 1 ++ samplePush 1 20 2 ++ samplePush 2 30 3 ++
    .start (.remove (· == 2)) :: replicate 5 (.step 3 (sampleChoice 0)) ++
    .start (.remove (· == 1)) :: replicate 9 (.step 4 (sampleChoice 0)) ++
    replicate 3 (.step 3 (sampleChoice 0))

def Call.hasReturned : Call T → Bool
  | .pushReturned _ | .removeReturned _ | .dropped => true
  | _ => false

/-- When all calls have returned, the element `1` that a call has removed is reachable again. -/
theorem updates_not_intact :
    ∃ cfg : Config (Shared ℕ) (Call ℕ), (updates ℕ).Reachable .default cfg ∧
      cfg.calls.all hasReturned = true ∧
      cfg.calls[4]? = some (.removeReturned (some 1)) ∧ ¬ Intact cfg := by
  refine ⟨removeNeighbours.foldl (act Shared.step) ⟨.default, []⟩, reachable_schedule ?_,
    by decide +kernel, by rfl, ?_⟩
  · intro c hc
    simp only [removeNeighbours, samplePush, mem_append, mem_cons, mem_replicate,
      Act.start.injEq, reduceCtorEq, and_false, or_false] at hc
    rcases hc with ((((rfl | rfl) | rfl) | rfl) | rfl)
    all_goals first | exact Or.inl ⟨_, rfl⟩ | exact Or.inr ⟨_, Or.inl rfl⟩
  · intro hint
    refine hint.removed 4 0 (by decide +kernel) ⟨10, by decide, ⟨[30], ?_⟩, by decide +kernel⟩
    exact ⟨by decide +kernel, 10, by decide +kernel, rfl⟩

/-! ### One removal at a time -/

def RemoverOk (s : ConcurrentLinkedList T) (xs : List ℕ) : Call T → Prop
  | .removeHead _ headPtr => headPtr = 0 ∨ headPtr ∈ xs
  | .removeHeadExchange _ headPtr next => headPtr ∈ xs ∧ s.next headPtr = some next
  | .removeScan _ prev current =>
    (current = 0 ∨ current ∈ xs) ∧ ∀ a, prev = .next a → a ∈ xs ∧ s.next a = some current
  | .removeExchange _ prev current next =>
    (current ∈ xs ∧ s.next current = some next) ∧
      ∀ a, prev = .next a → a ∈ xs ∧ s.next a = some current
  | .removeReload _ prev => ∀ a, prev = .next a → a ∈ xs
  | _ => True

section remover

variable {s s' : ConcurrentLinkedList T} {cs : List (Call T)} {xs ys : List ℕ}
  {qs : List (ℕ × ℕ)} {t a : ℕ} {c : Call T}

lemma RemoverOk.unlinks (h : RemoverOk s xs c) (hown : Owned s cs xs qs) : Unlinks s c := by
  cases c with
  | removeHeadExchange p a n => exact fun _ => h.2
  | removeExchange p prev a n =>
    obtain ⟨⟨ha, hnext⟩, hprev⟩ := h
    cases prev with
    | head => exact fun _ => hnext
    | next b =>
      obtain ⟨hb, hba⟩ := hprev b rfl
      exact ⟨by simp [hba], fun _ => ⟨hown.path.leads hb, hnext⟩⟩
  | _ => trivial

lemma RemoverOk.mono (h : RemoverOk s xs c) (hsub : xs ⊆ ys)
    (hnext : ∀ a ∈ xs, s'.next a = s.next a) : RemoverOk s' ys c := by
  cases c with
  | removeHead p a => exact h.imp_right fun ha => hsub ha
  | removeHeadExchange p a n => exact ⟨hsub h.1, (hnext a h.1).trans h.2⟩
  | removeScan p prev a =>
    refine ⟨h.1.imp_right fun ha => hsub ha, ?_⟩
    intro b hb
    obtain ⟨hmem, hlink⟩ := h.2 b hb
    exact ⟨hsub hmem, (hnext b hmem).trans hlink⟩
  | removeExchange p prev a n =>
    refine ⟨⟨hsub h.1.1, (hnext a h.1.1).trans h.1.2⟩, ?_⟩
    intro b hb
    obtain ⟨hmem, hlink⟩ := h.2 b hb
    exact ⟨hsub hmem, (hnext b hmem).trans hlink⟩
  | removeReload p prev =>
    intro b hb
    exact hsub (h b hb)
  | _ => trivial

lemma RemoverOk.of_removing_eq_zero (h : c.removing = 0) : RemoverOk s xs c := by
  cases c with
  | removeHead | removeHeadExchange | removeScan | removeExchange | removeReload => cases h
  | _ => trivial

namespace Owned

lemma head_mem (h : Owned s cs xs qs) : s.head = 0 ∨ s.head ∈ xs := by
  have hpath := h.path
  cases xs with
  | nil => exact Or.inl hpath
  | cons x xs => exact Or.inr (hpath.1 ▸ mem_cons_self)

lemma next_mem {n : ℕ} (h : Owned s cs xs qs) (ha : a ∈ xs) (hn : s.next a = some n) :
    n = 0 ∨ n ∈ xs := by
  obtain ⟨l, r, rfl⟩ := append_of_mem ha
  obtain ⟨b, -, rfl, m, hm, hr⟩ := path_append.mp h.path
  cases hn.symm.trans hm
  cases r with
  | nil => exact Or.inl hr
  | cons y r =>
    obtain ⟨rfl, -⟩ := hr
    right
    simp

lemma next_eq_read (h : Owned s cs xs qs) (ha : a ∈ xs) (choice : Choice T) :
    s.next a = some (s.read choice a).next := by
  obtain ⟨node, hnode⟩ := Option.isSome_iff_exists.mp (isSome_next s a ▸ h.path.isSome ha)
  rw [ConcurrentLinkedList.next, ConcurrentLinkedList.read, hnode]
  rfl

end Owned

lemma RemoverOk.step (h : RemoverOk s xs c) (hown : Owned s cs xs qs) (choice : Choice T)
    (heff : Effect xs ys c (c.step choice s).2) :
    RemoverOk (c.step choice s).1 ys (c.step choice s).2 := by
  cases c with
  | removeLoad p =>
    cases heff
    exact hown.head_mem
  | removeHead p a =>
    simp only [step] at heff ⊢
    split_ifs at heff ⊢ with hzero hmat
    · trivial
    · cases heff
      have ha := h.resolve_left hzero
      exact ⟨ha, hown.next_eq_read ha choice⟩
    · trivial
  | removeHeadExchange p a n =>
    simp only [step] at heff ⊢
    split_ifs at heff ⊢
    · trivial
    · cases heff
      exact hown.head_mem
  | removeRest p =>
    cases heff
    exact ⟨hown.head_mem, by simp⟩
  | removeScan p prev a =>
    simp only [step] at heff ⊢
    split_ifs at heff ⊢ with hzero hmat
    · trivial
    · cases heff
      have ha := h.1.resolve_left hzero
      exact ⟨⟨ha, hown.next_eq_read ha choice⟩, h.2⟩
    · cases heff
      have ha := h.1.resolve_left hzero
      have hnext := hown.next_eq_read ha choice
      refine ⟨hown.next_mem ha hnext, ?_⟩
      rintro b ⟨rfl⟩
      exact ⟨ha, hnext⟩
  | removeExchange p prev a n =>
    simp only [step] at heff ⊢
    split_ifs at heff ⊢
    · trivial
    · cases heff
      intro b hb
      exact (h.2 b hb).1
  | removeReload p prev =>
    cases heff
    cases prev with
    | head => exact ⟨hown.head_mem, by simp⟩
    | next b =>
      have hb := h b rfl
      have hnext := hown.next_eq_read hb choice
      refine ⟨hown.next_mem hb hnext, ?_⟩
      rintro d ⟨rfl⟩
      exact ⟨hb, hnext⟩
  | iterating a zs =>
    dsimp only [step]
    split_ifs <;> trivial
  | _ =>
    dsimp only [step]
    try split_ifs
    all_goals trivial

end remover

lemma Call.removing_step_le (c : Call T) (choice : Choice T) (s : ConcurrentLinkedList T) :
    (c.step choice s).2.removing ≤ c.removing := by
  cases c with
  | iterating a zs =>
    dsimp only [step]
    split_ifs <;> exact le_rfl
  | _ =>
    dsimp only [step]
    try split_ifs
    all_goals first | exact le_rfl | exact Nat.zero_le _

def oneRemoval : Program.Discipline (Shared T) (Call T) where
  start cs c := c.removing = 1 → total removing cs = 0
  step _ _ _ := True

def undisturbed : Program.Discipline (Shared T) (Call T) where
  start cs c := c.removing = 1 → total removing cs = 0
  step sh cs c := Undisturbed sh.list cs c

def ReclaimInv (sh : Shared T) (cs : List (Call T)) : Prop :=
  total removing cs ≤ 1 ∧
    ∃ xs qs, Owned sh.list cs xs qs ∧ ∀ (u : ℕ) d, cs[u]? = some d → RemoverOk sh.list xs d

lemma ReclaimInv.append (h : ReclaimInv sh cs)
    (hc : (∃ data, c = .push data) ∨ (∃ predicate, c = .removeLoad predicate) ∨ c = .iter)
    (hone : c.removing = 1 → total removing cs = 0) : ReclaimInv sh (cs ++ [c]) := by
  obtain ⟨hle, xs, qs, hown, hrem⟩ := h
  have hnew : RemoverOk sh.list xs c := by
    rcases hc with ⟨data, rfl⟩ | ⟨p, rfl⟩ | rfl <;> trivial
  refine ⟨?_, xs, qs, ?_, ?_⟩
  · rw [total_append_singleton]
    rcases hc with ⟨data, rfl⟩ | ⟨p, rfl⟩ | rfl
    · exact hle
    · rw [hone rfl]
      exact le_rfl
    · exact hle
  · rcases hc with ⟨data, rfl⟩ | ⟨p, rfl⟩ | rfl <;>
    exact hown.append (fun _ => rfl) (fun _ => rfl) rfl rfl trivial trivial
  · intro u d hd
    rw [getElem?_append] at hd
    split_ifs at hd
    · exact hrem u d hd
    · cases mem_singleton.mp (mem_of_getElem? hd)
      exact hnew

lemma ReclaimInv.step (h : ReclaimInv sh cs) (hc : cs[t]? = some c)
    (hund : Undisturbed sh.list cs c) (choice : Choice T) :
    ReclaimInv (sh.step choice t c).1 (cs.set t (sh.step choice t c).2) := by
  obtain ⟨hle, xs, qs, howne, hrem⟩ := h
  have hown := hrem t c hc
  obtain ⟨ys, rs, hown', heff⟩ :=
    howne.step hc (hown.unlinks howne) hund choice
  have hlist : (sh.step choice t c).1.list = (c.step choice sh.list).1 := Shared.record_list ..
  refine ⟨?_, ys, rs, by rwa [hlist], ?_⟩
  · have hset := total_set removing (sh.step choice t c).2 hc
    have hstep : (sh.step choice t c).2.removing ≤ c.removing :=
      removing_step_le c choice sh.list
    omega
  · intro u d hd
    rw [hlist]
    rw [getElem?_set] at hd
    split_ifs at hd with htu
    · cases hd
      exact hown.step howne choice heff
    · -- either this was not a step of a removal, or the other call is none
      rcases step_cases (t := t) heff with ⟨a, -, -, rfl, -⟩ | ⟨a, v, l, r, hone, -⟩ |
        ⟨-, -, rfl, -⟩
      · refine (hrem u d hd).mono (subset_cons_self a xs) ?_
        obtain ⟨-, m, -, hrest⟩ := hown'.path
        intro x hx
        exact howne.path.next_eq hrest hx
      · apply RemoverOk.of_removing_eq_zero
        have hsum := add_le_total (f := removing) htu hc hd
        omega
      · refine (hrem u d hd).mono (List.Subset.refl _) ?_
        intro x hx
        exact howne.path.next_eq hown'.path hx

lemma reclaimInv_of_reachable (h : (program T).ReachableUnder undisturbed .default cfg) :
    ReclaimInv cfg.shared cfg.calls := by
  refine h.induct ?_ ?_ ?_
  · exact ⟨Nat.zero_le _, [], [], Owned.default, by simp⟩
  · rintro sh cs c hinv hst hone
    refine hinv.append ?_ hone
    rcases hst with hpush | ⟨p, rfl | rfl⟩ | rfl
    · exact Or.inl hpush
    · exact Or.inr (Or.inl ⟨p, rfl⟩)
    · exact Or.inr (Or.inl ⟨p, rfl⟩)
    · exact Or.inr (Or.inr rfl)
  · rintro sh cs t c s' c' hinv hc ⟨choice, hstep⟩ hund
    obtain ⟨rfl, rfl⟩ := Prod.mk.injEq .. ▸ hstep
    exact hinv.step hc hund choice

/-! ### The time at which nodes are freed -/

def Call.frees : Call T → Option ℕ
  | .deferFree node _ | .poolFree _ node => some node
  | _ => none

structure FreeSafe (cfg : Config (Shared T) (Call T)) : Prop where
  unreached : ∀ (t u a current : ℕ) (c : Call T) (yielded : List T),
    cfg.calls[t]? = some c → c.frees = some a →
    cfg.calls[u]? = some (.iterating current yielded) → ¬ Leads cfg.shared.list.next current a
  once : ∀ (t a : ℕ) (c : Call T), cfg.calls[t]? = some c → c.frees = some a →
    (cfg.shared.list.nodes a).isSome ∧
      ∀ (u : ℕ) (d : Call T), u ≠ t → cfg.calls[u]? = some d → d.frees ≠ some a

lemma Call.closed_of_frees {a : ℕ} (h : c.frees = some a) : 0 < c.closed a := by
  cases c with
  | deferFree n v | poolFree b n =>
    cases h
    simp [closed, doomed]
  | _ => cases h

lemma Owned.freeSafe (h : Owned cfg.shared.list cfg.calls xs qs) : FreeSafe cfg := by
  have hheld : ∀ {c : Call T} {a : ℕ}, c.frees = some a → 0 < c.held a := by
    intro c a hc
    exact (closed_of_frees hc).trans_le (Nat.le_add_right _ _)
  constructor
  · intro t u a current c yielded hc ha hu hlea
    obtain ⟨zs, hpath, hclo⟩ := h.iterOk u _ hu
    have hsome := h.isSome_of_held hc (hheld ha)
    rcases Leads.mem_or_eq h.next_zero hpath hlea with hmem | rfl
    · have hle := single_le_total (f := closed a) hc
      have hpos := closed_of_frees ha
      rw [hclo a hmem] at hle
      omega
    · simp [h.null] at hsome
  · intro t a c hc ha
    refine ⟨h.isSome_of_held hc (hheld ha), ?_⟩
    intro u d hut hd hda
    have hsum := add_le_total (f := held a) hut hd hc
    have hle := h.places_le a
    have hc' := hheld ha
    have hd' := hheld hda
    omega

/-- In every run with one removal at a time in which no iterator begins and no removal puts a node
on the pool while the drop of an iterator empties it, nodes are freed once and only when no
iterator can come to them. -/
theorem program_freeSafe {cfg : Config (Shared T) (Call T)}
    (h : (program T).ReachableUnder undisturbed .default cfg) : FreeSafe cfg := by
  obtain ⟨-, xs, qs, hown, -⟩ := reclaimInv_of_reachable h
  exact hown.freeSafe

def sampleDrop : Choice ℕ := ⟨0, ⟨0, 0⟩, ⟨0, 0⟩, true⟩

def removeThenDrop : List (Act (Choice ℕ) (Call ℕ)) :=
  samplePush 0 10 1 ++ .start .iter :: replicate 2 (.step 1 (sampleChoice 0)) ++
    .start (.remove (· == 1)) :: replicate 8 (.step 2 (sampleChoice 20)) ++
    .step 1 sampleDrop :: replicate 3 (.step 1 (sampleChoice 0))

theorem program_freeSafe_remove_then_drop :
    FreeSafe (removeThenDrop.foldl (act Shared.step) ⟨.default, []⟩) ∧
      ((removeThenDrop.foldl (act Shared.step) ⟨.default, []⟩).calls[1]?.bind frees) =
        some 10 := by
  refine ⟨program_freeSafe (Obeys.reachableUnder ?_), by decide +kernel⟩
  refine ⟨⟨Or.inl ⟨1, rfl⟩, nofun⟩, ?_, ?_, ?_, ?_, ⟨Or.inr (Or.inr rfl), nofun⟩, ?_, ?_,
    ⟨Or.inr (Or.inl ⟨_, Or.inl rfl⟩), fun _ => rfl⟩, ?_, ?_, ?_, ?_, ?_, ?_, ?_, ?_, ?_, ?_, ?_, ?_,
    trivial⟩ <;>
  · intro c hc
    cases hc
    first | trivial | rfl | exact fun _ => rfl

def iterDuringDrop : List (Act (Choice ℕ) (Call ℕ)) :=
  samplePush 0 10 1 ++ .start .iter :: replicate 2 (.step 1 (sampleChoice 0)) ++
    .step 1 sampleDrop :: .start .iter :: replicate 2 (.step 2 (sampleChoice 0)) ++
    .start (.remove (· == 1)) :: replicate 8 (.step 3 (sampleChoice 20)) ++
    replicate 3 (.step 1 (sampleChoice 0))

/-- A node is freed while an iterator stands on it. -/
theorem program_not_freeSafe :
    ∃ cfg : Config (Shared ℕ) (Call ℕ), (program ℕ).ReachableUnder oneRemoval .default cfg ∧
      cfg.calls[1]? = some (.poolFree 20 10) ∧ cfg.calls[2]? = some (.iterating 10 []) ∧
      ¬ FreeSafe cfg := by
  have hfst : (iterDuringDrop.foldl (act Shared.step) ⟨.default, []⟩).calls[1]? =
      some (.poolFree 20 10) := by rfl
  have hsec : (iterDuringDrop.foldl (act Shared.step) ⟨.default, []⟩).calls[2]? =
      some (.iterating 10 []) := by rfl
  refine ⟨iterDuringDrop.foldl (act Shared.step) ⟨.default, []⟩, Obeys.reachableUnder ?_, hfst,
    hsec, ?_⟩
  · exact ⟨⟨Or.inl ⟨1, rfl⟩, nofun⟩, fun _ _ => trivial, fun _ _ => trivial, fun _ _ => trivial,
      fun _ _ => trivial, ⟨Or.inr (Or.inr rfl), nofun⟩, fun _ _ => trivial, fun _ _ => trivial,
      fun _ _ => trivial, ⟨Or.inr (Or.inr rfl), nofun⟩, fun _ _ => trivial, fun _ _ => trivial,
      ⟨Or.inr (Or.inl ⟨_, Or.inl rfl⟩), fun _ => rfl⟩, fun _ _ => trivial, fun _ _ => trivial,
      fun _ _ => trivial, fun _ _ => trivial, fun _ _ => trivial, fun _ _ => trivial,
      fun _ _ => trivial, fun _ _ => trivial, fun _ _ => trivial, fun _ _ => trivial,
      fun _ _ => trivial, trivial⟩
  · intro hsafe
    exact hsafe.unreached 1 2 10 10 _ [] hfst rfl hsec ⟨[], rfl⟩

end Kernel.Ds
