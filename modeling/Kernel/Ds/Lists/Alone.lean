import Kernel.Ds.Lists.Concurrent

/-!
# One call at work

When operations are executed one at a time, all calls but one rest: they have returned, or they are
iterators whose owner does something else.
-/

namespace Kernel.Ds

open Core Call List Function Option ConcurrentLinkedList

variable {T : Type}

/-! ### The elements in the nodes -/

def Shared.value (sh : Shared T) (a : ℕ) : Option (ℕ × T) :=
  (sh.list.nodes a).map fun node => (sh.element a, node.data)

def Stores (sh : Shared T) (as : List ℕ) (xs : List (ℕ × T)) : Prop :=
  as.map sh.value = xs.map some

section stores

variable {sh sh' : Shared T} {as bs : List ℕ} {xs ys : List (ℕ × T)} {a : ℕ} {x : ℕ × T}

@[simp] lemma stores_nil : Stores sh [] xs ↔ xs = [] := by
  cases xs <;> simp [Stores]

@[simp] lemma stores_cons :
    Stores sh (a :: as) xs ↔ ∃ x ys, xs = x :: ys ∧ sh.value a = some x ∧ Stores sh as ys := by
  cases xs with
  | nil => simp [Stores]
  | cons x ys =>
    simp only [Stores, map_cons, List.cons.injEq]
    constructor
    · rintro ⟨hx, hys⟩
      exact ⟨x, ys, ⟨rfl, rfl⟩, hx, hys⟩
    · rintro ⟨y, zs, ⟨rfl, rfl⟩, hx, hys⟩
      exact ⟨hx, hys⟩

lemma stores_append :
    Stores sh (as ++ bs) xs ↔ ∃ ys zs, xs = ys ++ zs ∧ Stores sh as ys ∧ Stores sh bs zs := by
  induction as generalizing xs with
  | nil => simp
  | cons a as ih =>
    simp only [cons_append, stores_cons, ih]
    constructor
    · rintro ⟨x, _, rfl, hx, ys, zs, rfl, hys, hzs⟩
      exact ⟨x :: ys, zs, rfl, ⟨x, ys, rfl, hx, hys⟩, hzs⟩
    · rintro ⟨_, zs, rfl, ⟨x, ys, rfl, hx, hys⟩, hzs⟩
      exact ⟨x, ys ++ zs, rfl, hx, ys, zs, rfl, hys, hzs⟩

lemma Stores.congr (h : Stores sh as xs) (hval : ∀ a ∈ as, sh'.value a = sh.value a) :
    Stores sh' as xs := by
  rw [Stores, ← h]
  exact map_congr_left hval

lemma Stores.mem (h : Stores sh as xs) (ha : a ∈ as) (hx : sh.value a = some x) : x ∈ xs := by
  have hmem : some x ∈ xs.map some := h ▸ hx ▸ mem_map_of_mem ha
  simpa using hmem

lemma Stores.exists_mem (h : Stores sh as xs) (hx : x ∈ xs) : ∃ a ∈ as, sh.value a = some x := by
  have hmem : some x ∈ as.map sh.value := by
    rw [h]
    exact mem_map_of_mem hx
  exact mem_map.mp hmem

lemma Stores.map_fst (h : Stores sh as xs) : xs.map Prod.fst = as.map sh.element := by
  induction as generalizing xs with
  | nil =>
    rw [stores_nil] at h
    simp [h]
  | cons a as ih =>
    obtain ⟨x, ys, rfl, hx, hys⟩ := stores_cons.mp h
    obtain ⟨node, -, rfl⟩ := map_eq_some_iff.mp hx
    simp [ih hys]

end stores

/-! ### What a step writes -/

section writes

variable {sh : Shared T} {s : ConcurrentLinkedList T} {cs : List (Call T)} {t a z : ℕ} {c : Call T}

lemma setNext_data (s : ConcurrentLinkedList T) (a n z : ℕ) :
    ((s.setNext a n).nodes z).map Node.data = (s.nodes z).map Node.data := by
  by_cases hz : z = a
  · subst hz
    simp [setNext, comp_def]
  · simp [setNext, update_of_ne hz]

lemma step_data (choice : Choice T) (hz : (s.nodes z).isSome) (hclo : c.closed z = 0) :
    ((c.step choice s).1.nodes z).map Node.data = (s.nodes z).map Node.data := by
  have hfree : ∀ {a : ℕ}, z ≠ a → ((s.free a).nodes z) = s.nodes z := fun hne =>
    update_of_ne hne _ _
  cases c with
  | push data =>
    dsimp only [step]
    split_ifs with hfsh
    · have hne : z ≠ choice.address := by
        rintro rfl
        simp [hfsh.2.1] at hz
      simp [allocate, update_of_ne hne]
    · rfl
  | pushStore n k => exact setNext_data s n k z
  | removeExchange p prev b n =>
    dsimp only [step]
    split_ifs
    · cases prev with
      | head => rfl
      | next d => exact setNext_data s d n z
    · rfl
  | deferFree n | poolFree _ n =>
    have hne : z ≠ n := by
      rintro rfl
      simp [closed, doomed] at hclo
    exact congrArg _ (hfree hne)
  | _ =>
    dsimp only [step]
    try split_ifs
    all_goals rfl

lemma step_next (choice : Choice T) (hunl : Unlinks s c) :
    (∀ z, (s.nodes z).isSome → c.closed z = 0 → (c.step choice s).1.next z = s.next z) ∨
      ∃ b a v, c.hasUnlinked = false ∧ (c.step choice s).2 = .deferLoad a v ∧ s.next b = some a ∧
        (s.next a).isSome ∧ (c.step choice s).1.next = Function.update s.next b (s.next a) := by
  have hnds : ∀ {s' : ConcurrentLinkedList T} {a z : ℕ},
      s'.nodes = Function.update s.nodes a (s'.nodes a) → z ≠ a → s'.next z = s.next z := by
    intro s' a z hs hne
    rw [ConcurrentLinkedList.next, hs, update_of_ne hne]
    rfl
  cases c with
  | push data =>
    left
    intro z hz _
    dsimp only [step]
    split_ifs with hfsh
    · refine hnds (a := choice.address) (by simp [ConcurrentLinkedList.allocate]) ?_
      rintro rfl
      simp [hfsh.2.1] at hz
    · rfl
  | pushStore n k =>
    left
    intro z _ hclo
    refine hnds (a := n) (by simp [step, ConcurrentLinkedList.setNext]) ?_
    rintro rfl
    simp [closed, unpublished] at hclo
  | removeExchange p prev a n =>
    dsimp only [step]
    split_ifs with hcell
    · cases prev with
      | head =>
        left
        exact fun _ _ _ => rfl
      | next b =>
        right
        obtain ⟨hsome, hfd⟩ := hunl
        obtain ⟨m, hm⟩ := ne_none_iff_exists'.mp hsome
        obtain ⟨node, hnode, rfl⟩ := map_eq_some_iff.mp hm
        have hba : s.next b = some a := by
          rw [hm, ← hcell]
          simp [ConcurrentLinkedList.load, ConcurrentLinkedList.read, hnode]
        obtain ⟨-, hnext⟩ := hfd hba
        refine ⟨b, a, _, rfl, rfl, hba, by simp [hnext], ?_⟩
        rw [hnext]
        exact next_setNext (by simp [hba])
    · left
      exact fun _ _ _ => rfl
  | deferFree n | poolFree _ n =>
    left
    intro z _ hclo
    refine hnds (a := n)
      (by simp [step, ConcurrentLinkedList.freePool, ConcurrentLinkedList.free]) ?_
    rintro rfl
    simp [closed, doomed] at hclo
  | _ =>
    left
    dsimp only [step]
    try split_ifs
    all_goals exact fun _ _ _ => rfl

lemma step_element (choice : Choice T) (hclo : c.closed z = 0) :
    (sh.step choice t c).1.element z = sh.element z := by
  by_cases hpush : ∃ n k, c = .pushExchange n k
  · obtain ⟨n, k, rfl⟩ := hpush
    dsimp only [Shared.step, step]
    split_ifs
    · refine update_of_ne ?_ _ _
      rintro rfl
      simp [closed, unpublished] at hclo
    · rfl
  · have heq : ∀ r : ConcurrentLinkedList T × Call T,
        (sh.record t c r).element z = sh.element z := by
      intro r
      simp only [Shared.record]
      split
      · exact absurd ⟨_, _, rfl⟩ hpush
      all_goals rfl
    exact heq (c.step choice sh.list)

lemma step_value (choice : Choice T) (hz : (sh.list.nodes z).isSome) (hclo : c.closed z = 0) :
    (sh.step choice t c).1.value z = sh.value z := by
  have hdata := step_data choice hz hclo
  have hele : (sh.step choice t c).1.element z = sh.element z := step_element choice hclo
  have hlist : (sh.step choice t c).1.list = (c.step choice sh.list).1 := Shared.record_list ..
  have hspl : ∀ sh' : Shared T, sh'.value z =
      ((sh'.list.nodes z).map Node.data).map (sh'.element z, ·) := by
    intro sh'
    rw [Option.map_map]
    rfl
  rw [hspl, hspl, hlist, hdata, hele]

end writes

/-! ### One call at work -/

def Call.atRest : Call T → Bool
  | .pushReturned _ | .removeReturned _ | .iterating _ _ | .dropped => true
  | _ => false

structure Active (sh : Shared T) (cs : List (Call T)) (t : ℕ) (c : Call T) (xs : List ℕ)
    (qs : List (ℕ × ℕ)) : Prop where
  owned : Owned sh.list cs xs qs
  recorded : Recorded sh cs xs
  remover : RemoverOk sh.list xs c
  call : cs[t]? = some c
  others : ∀ (u : ℕ) (d : Call T), u ≠ t → cs[u]? = some d → d.atRest = true

section active

variable {sh : Shared T} {cs : List (Call T)} {t u a : ℕ} {c : Call T} {xs ys zs : List ℕ}
  {qs : List (ℕ × ℕ)} {start seen L : List (ℕ × T)}

lemma Call.draining_of_atRest (h : c.atRest = true) : c.draining = 0 := by
  cases c with
  | poolLoad | poolHead | poolExchange | poolFree => cases h
  | _ => rfl

section

variable (h : Active sh cs t c xs qs)

include h

lemma Active.undisturbed : Undisturbed sh.list cs c := by
  have hdr : c.draining = 0 → total draining cs = 0 := by
    intro hzero
    apply total_eq_zero
    intro d hd
    obtain ⟨u, hu, rfl⟩ := mem_iff_getElem.mp hd
    by_cases hut : u = t
    · subst hut
      cases (List.getElem?_eq_getElem hu).symm.trans h.call
      exact hzero
    · exact draining_of_atRest (h.others u _ hut (List.getElem?_eq_getElem hu))
  cases c with
  | iter => exact hdr rfl
  | deferExchange => exact fun _ => hdr rfl
  | _ => trivial

lemma Active.step (choice : Choice T) :
    ∃ ys rs, Active (sh.step choice t c).1 (cs.set t (sh.step choice t c).2) t
      (sh.step choice t c).2 ys rs ∧ Effect xs ys c (sh.step choice t c).2 := by
  have hlist : (sh.step choice t c).1.list = (c.step choice sh.list).1 := Shared.record_list ..
  obtain ⟨ys, rs, hown, heff⟩ :=
    h.owned.step h.call (h.remover.unlinks h.owned) h.undisturbed choice
  refine ⟨ys, rs, ⟨by rwa [hlist], h.recorded.step h.owned h.call choice heff, ?_, ?_, ?_⟩, heff⟩
  · rw [hlist]
    exact h.remover.step h.owned choice heff
  · obtain ⟨ht, -⟩ := List.getElem?_eq_some_iff.mp h.call
    simp [ht]
  · intro u d hut hd
    rw [List.getElem?_set_ne (Ne.symm hut)] at hd
    exact h.others u d hut hd

lemma Active.closed_eq_zero (hz : total (closed a) cs = 0) :
    c.closed a = 0 := by
  have hle := single_le_total (f := closed a) h.call
  omega

lemma Active.value_eq (choice : Choice T) (ha : a ∈ xs) :
    (sh.step choice t c).1.value a = sh.value a := by
  apply step_value
  · rw [← Owned.isSome_next]
    exact h.owned.path.isSome ha
  · exact h.closed_eq_zero (h.owned.closed_of_mem ha)

lemma Active.stores (choice : Choice T) (hs : Stores sh xs L) :
    Stores (sh.step choice t c).1 xs L :=
  hs.congr fun _ ha => h.value_eq choice ha

end

/-! ### The way of an iterator -/

/-- An iterator has seen `seen` and stands at `current`; `start` was the list at its creation. What
it has seen and will see is a part of `start` and has all elements that are still in the list. -/
def Visits (sh : Shared T) (xs : List ℕ) (start seen : List (ℕ × T)) (current : ℕ) : Prop :=
  ∃ zs rest, Path sh.list.next current zs 0 ∧ Stores sh zs rest ∧ (seen ++ rest).Sublist start ∧
    ∀ a ∈ xs, ∀ x, sh.value a = some x → x ∈ start → x ∈ seen ++ rest

variable {x : ℕ × T}

lemma Active.mem_or_new (h : Active sh cs t c xs qs) (choice : Choice T)
    (heff : Effect xs ys c (sh.step choice t c).2) (ha : a ∈ ys)
    (hx : (sh.step choice t c).1.value a = some x) :
    (a ∈ xs ∧ sh.value a = some x) ∨ (x.1 = t ∧ c.hasPushed = false) := by
  have hold : a ∈ xs → a ∈ xs ∧ sh.value a = some x := by
    intro hmem
    exact ⟨hmem, (h.value_eq choice hmem).symm.trans hx⟩
  rcases step_cases (t := t) heff with ⟨b, hpush, -, rfl, -, -, hstep⟩ |
    ⟨b, v, l, r, -, -, -, rfl, rfl, -⟩ | ⟨-, -, rfl, -⟩
  · rcases mem_cons.mp ha with rfl | hmem
    · right
      rw [hstep] at hx
      obtain ⟨node, -, rfl⟩ := map_eq_some_iff.mp hx
      exact ⟨update_self .., hpush⟩
    · exact Or.inl (hold hmem)
  · exact Or.inl (hold (((sublist_cons_self b r).append_left l).subset ha))
  · exact Or.inl (hold ha)

variable {yielded : List T} {current : ℕ}

lemma Active.path_step (h : Active sh cs t c xs qs)
    (choice : Choice T) (heff : Effect xs ys c (sh.step choice t c).2)
    (hu : cs[u]? = some (.iterating current yielded)) (hpath : Path sh.list.next current zs 0) :
    (∀ z ∈ zs, (sh.step choice t c).1.value z = sh.value z) ∧
    ∃ bs, Path (sh.step choice t c).1.list.next current bs 0 ∧
      (bs = zs ∨ ∃ l r b, zs = l ++ b :: r ∧ bs = l ++ r ∧ b ∈ xs ∧ b ∉ ys) := by
  have hlist : (sh.step choice t c).1.list = (c.step choice sh.list).1 := Shared.record_list ..
  obtain ⟨as, has, hclo⟩ := h.owned.iterOk u _ hu
  cases Path.unique h.owned.next_zero hpath has
  have hopen : ∀ z ∈ zs, (sh.list.nodes z).isSome ∧ c.closed z = 0 := by
    intro z hz
    have hsome := hpath.isSome hz
    rw [Owned.isSome_next] at hsome
    exact ⟨hsome, h.closed_eq_zero (hclo z hz)⟩
  refine ⟨fun z hz => step_value choice (hopen z hz).1 (hopen z hz).2, ?_⟩
  rw [hlist]
  rcases step_next choice (h.remover.unlinks h.owned) with hsame |
    ⟨b, y, v, hbef, hc', hby, hy, hnext⟩
  · refine ⟨zs, hpath.congr ?_, Or.inl rfl⟩
    intro z hz
    exact hsame z (hopen z hz).1 (hopen z hz).2
  · obtain ⟨bs, hbs, hsha⟩ := hpath.after_unlink h.owned.next_zero hby hy
    rw [← hnext] at hbs
    refine ⟨bs, hbs, hsha.imp_right ?_⟩
    rintro ⟨l, r, rfl, rfl⟩
    -- the node that was taken out of the path has left the list
    rcases step_cases (t := t) heff with ⟨d, -, hnew, -⟩ |
      ⟨d, w, l', r', -, -, hnew, rfl, rfl, -⟩ | ⟨-, hflag, -, -⟩
    · cases hc'.symm.trans hnew
    · cases hc'.symm.trans hnew
      have hnd := h.owned.path.nodup h.owned.next_zero
      rw [nodup_append] at hnd
      obtain ⟨-, hrig, hdisj⟩ := hnd
      refine ⟨l, r, y, rfl, rfl, by simp, ?_⟩
      rw [mem_append]
      rintro (hmem | hmem)
      · exact hdisj y hmem y mem_cons_self rfl
      · exact (nodup_cons.mp hrig).1 hmem
    · rw [hc', hbef] at hflag
      cases hflag

lemma Visits.step (hvis : Visits sh xs start seen current)
    (h : Active sh cs t c xs qs) (choice : Choice T) (heff : Effect xs ys c (sh.step choice t c).2)
    (hu : cs[u]? = some (.iterating current yielded))
    (hst : ∀ x ∈ start, ∃ d, cs[x.1]? = some d ∧ d.hasPushed = true) :
    Visits (sh.step choice t c).1 ys start seen current := by
  obtain ⟨zs, rest, hpath, hsto, hsub, hlive⟩ := hvis
  obtain ⟨hval, bs, hbs, hsha⟩ := h.path_step choice heff hu hpath
  -- what is in the list after the step was there before or was not in the list at the start
  have hlive' : ∀ a ∈ ys, ∀ x, (sh.step choice t c).1.value a = some x → x ∈ start →
      a ∈ xs ∧ sh.value a = some x ∧ x ∈ seen ++ rest := by
    intro a ha x hx hmem
    rcases h.mem_or_new choice heff ha hx with ⟨hax, hold⟩ | ⟨hnew, hflag⟩
    · exact ⟨hax, hold, hlive a hax x hold hmem⟩
    · obtain ⟨d, hd, hpush⟩ := hst x hmem
      rw [hnew, h.call] at hd
      cases hd
      rw [hflag] at hpush
      cases hpush
  rcases hsha with rfl | ⟨l, r, b, rfl, rfl, hbx, hby⟩
  · refine ⟨bs, rest, hbs, hsto.congr hval, hsub, ?_⟩
    intro a ha x hx hmem
    exact (hlive' a ha x hx hmem).2.2
  · obtain ⟨restL, _, rfl, hL, hR⟩ := stores_append.mp hsto
    obtain ⟨y, restR, rfl, hy, hR⟩ := stores_cons.mp hR
    refine ⟨l ++ r, restL ++ restR, hbs, ?_, ?_, ?_⟩
    · refine (stores_append.mpr ⟨restL, restR, rfl, hL, hR⟩).congr ?_
      intro z hz
      exact hval z (((sublist_cons_self b r).append_left l).subset hz)
    · refine List.Sublist.trans ?_ hsub
      exact ((sublist_cons_self y restR).append_left restL).append_left seen
    · intro a ha x hx hmem
      obtain ⟨hax, hold, hin⟩ := hlive' a ha x hx hmem
      -- another node of the list has another element
      have hxy : x ≠ y := by
        rintro rfl
        have hne : a ≠ b := by
          rintro rfl
          exact hby ha
        have hinj := inj_on_of_nodup_map (nodup_append.mp h.recorded.nodup).1
        obtain ⟨n, -, hn⟩ := map_eq_some_iff.mp hold
        obtain ⟨m, -, hm⟩ := map_eq_some_iff.mp hy
        exact hne (hinj hax hbx ((congrArg Prod.fst hn).trans (congrArg Prod.fst hm).symm))
      simp only [mem_append, mem_cons] at hin ⊢
      tauto

def Tour (sh : Shared T) (cs : List (Call T)) (xs : List ℕ) (start : List (ℕ × T)) (u : ℕ) :
    Prop :=
  (∀ x ∈ start, ∃ d, cs[x.1]? = some d ∧ d.hasPushed = true) ∧
    ∀ (current : ℕ) (yielded : List T), cs[u]? = some (.iterating current yielded) →
      ∃ seen, seen.map Prod.snd = yielded ∧ Visits sh xs start seen current

lemma Call.hasPushed_step (h : c.hasPushed = true) (choice : Choice T)
    (s : ConcurrentLinkedList T) : (c.step choice s).2.hasPushed = true := by
  cases c with
  | pushReturned n => rfl
  | _ => cases h

lemma pushed_step (hc : cs[t]? = some c) (choice : Choice T) {e : ℕ}
    (h : ∃ d, cs[e]? = some d ∧ d.hasPushed = true) :
    ∃ d, (cs.set t (sh.step choice t c).2)[e]? = some d ∧ d.hasPushed = true := by
  rw [exists_set_iff hc]
  by_cases het : e = t
  · subst het
    obtain ⟨d, hd, hpush⟩ := h
    cases hc.symm.trans hd
    exact Or.inl ⟨rfl, hasPushed_step hpush choice sh.list⟩
  · exact Or.inr ⟨het, h⟩

lemma Tour.step (htour : Tour sh cs xs start u) (h : Active sh cs t c xs qs) (hut : u ≠ t)
    (choice : Choice T) (heff : Effect xs ys c (sh.step choice t c).2) :
    Tour (sh.step choice t c).1 (cs.set t (sh.step choice t c).2) ys start u := by
  obtain ⟨hst, hopen⟩ := htour
  refine ⟨fun x hx => pushed_step h.call choice (hst x hx), ?_⟩
  intro current yielded hu
  rw [List.getElem?_set_ne (Ne.symm hut)] at hu
  obtain ⟨seen, hseen, hvis⟩ := hopen current yielded hu
  exact ⟨seen, hseen, hvis.step h choice heff hu hst⟩

/-! ### What an operation does to the elements -/

def PushOk (sh : Shared T) (xs : List ℕ) (L : List (ℕ × T)) (t : ℕ) (data : T) : Call T → Prop
  | .push d => d = data ∧ Stores sh xs L
  | .pushLoad n | .pushStore n _ | .pushExchange n _ =>
    (sh.list.nodes n).map Node.data = some data ∧ Stores sh xs L
  | .pushReturned _ => Stores sh xs ((t, data) :: L)
  | _ => False

lemma PushOk.step {data : T} (hok : PushOk sh xs L t data c) (h : Active sh cs t c xs qs)
    (choice : Choice T) (heff : Effect xs ys c (sh.step choice t c).2) :
    PushOk (sh.step choice t c).1 ys L t data (sh.step choice t c).2 := by
  cases c with
  | push d =>
    obtain ⟨rfl, hsto⟩ := hok
    have hkeep := h.stores choice hsto
    simp only [Shared.step, step] at heff hkeep ⊢
    split_ifs at heff hkeep ⊢ with hfsh
    · cases heff
      exact ⟨by simp [Shared.record, allocate], hkeep⟩
    · cases heff
      exact ⟨rfl, hkeep⟩
  | pushLoad n =>
    cases heff
    exact ⟨hok.1, h.stores choice hok.2⟩
  | pushStore n k =>
    cases heff
    exact ⟨(setNext_data sh.list n k n).trans hok.1, h.stores choice hok.2⟩
  | pushExchange n k =>
    have hkeep := h.stores choice hok.2
    simp only [Shared.step, step] at heff hkeep ⊢
    split_ifs at heff hkeep ⊢ with hhead
    · cases heff
      obtain ⟨node, hnode, hdata⟩ := map_eq_some_iff.mp hok.1
      refine stores_cons.mpr ⟨_, L, rfl, ?_, hkeep⟩
      simp [Shared.value, Shared.record, hnode, hdata]
    · cases heff
      exact ⟨hok.1, hkeep⟩
  | pushReturned n =>
    cases heff
    exact h.stores choice hok
  | _ => exact absurd hok id

def Matched (sh : Shared T) (xs : List ℕ) (L : List (ℕ × T)) (p : T → Bool) (a : ℕ) : Prop :=
  ∃ l r L₁ x L₂, xs = l ++ a :: r ∧ L = L₁ ++ x :: L₂ ∧ Stores sh l L₁ ∧ sh.value a = some x ∧
    Stores sh r L₂ ∧ (∀ y ∈ L₁, p y.2 = false) ∧ p x.2 = true

def RemoveOk (sh : Shared T) (xs : List ℕ) (L : List (ℕ × T)) (p : T → Bool) : Call T → Prop
  | .removeLoad q | .removeRest q => q = p ∧ Stores sh xs L
  | .removeHead q headPtr => q = p ∧ Stores sh xs L ∧ headPtr = sh.list.head
  | .removeHeadExchange q headPtr _ => q = p ∧ Matched sh xs L p headPtr ∧ headPtr = sh.list.head
  | .removeScan q prev current => q = p ∧ ∃ l r L₁ L₂, xs = l ++ r ∧ L = L₁ ++ L₂ ∧
      Stores sh l L₁ ∧ Stores sh r L₂ ∧ (∀ y ∈ L₁, p y.2 = false) ∧ current = r.headD 0 ∧
      (prev = .head → current = sh.list.head)
  | .removeExchange q prev current _ => q = p ∧ Matched sh xs L p current ∧
      (prev = .head → current = sh.list.head)
  | .deferLoad _ v | .deferFree _ v | .deferAllocate _ v | .deferLoadPool _ _ v
  | .deferStore _ _ _ v | .deferExchange _ _ _ v =>
    Stores sh xs (L.eraseP fun y => p y.2) ∧ (L.find? fun y => p y.2).map Prod.snd = some v
  | .removeReturned result =>
    Stores sh xs (L.eraseP fun y => p y.2) ∧ (L.find? fun y => p y.2).map Prod.snd = result
  | _ => False

lemma Active.ne_zero (h : Active sh cs t c xs qs) (ha : a ∈ xs) : a ≠ 0 := by
  rintro rfl
  have hsome := h.owned.path.isSome ha
  simp [h.owned.next_zero] at hsome

lemma read_data (choice : Choice T) (hx : sh.value a = some x) :
    (sh.list.read choice a).data = x.2 := by
  obtain ⟨node, hnode, rfl⟩ := map_eq_some_iff.mp hx
  simp [ConcurrentLinkedList.read, hnode]

variable {p : T → Bool}

lemma Matched.unlinked (hmat : Matched sh xs L p a) (h : Active sh cs t c xs qs)
    (choice : Choice T) (heff : ∃ l r, xs = l ++ a :: r ∧ ys = l ++ r) :
    Stores (sh.step choice t c).1 ys (L.eraseP fun y => p y.2) ∧
      (L.find? fun y => p y.2).map Prod.snd = some (sh.list.read choice a).data := by
  obtain ⟨l, r, L₁, x, L₂, rfl, rfl, hl, hx, hr, hno, hyes⟩ := hmat
  obtain ⟨l', r', hxs, rfl⟩ := heff
  have hnd := h.owned.path.nodup h.owned.next_zero
  have hera : ∀ {l r : List ℕ}, (l ++ a :: r).Nodup → (l ++ a :: r).erase a = l ++ r := by
    intro l r hnd
    have hnot : a ∉ l := fun hmem =>
      (nodup_append.mp hnd).2.2 a hmem a mem_cons_self rfl
    rw [erase_append_right _ hnot, erase_cons_head]
  have hys : l' ++ r' = l ++ r := by
    rw [← hera hnd, hxs, hera (hxs ▸ hnd)]
  have hnone : L₁.find? (fun y => p y.2) = none := by
    rw [List.find?_eq_none]
    intro y hy
    simp [hno y hy]
  constructor
  · have hdel : (L₁ ++ x :: L₂).eraseP (fun y => p y.2) = L₁ ++ L₂ := by
      rw [eraseP_append_right _ (by simpa using hno),
        eraseP_cons_of_pos (p := fun y : ℕ × T => p y.2) hyes]
    rw [hys, hdel]
    refine (stores_append.mpr ⟨L₁, L₂, rfl, hl, hr⟩).congr ?_
    intro b hb
    exact h.value_eq choice (((sublist_cons_self a r).append_left l).subset hb)
  · rw [List.find?_append, hnone, none_or,
      List.find?_cons_of_pos (p := fun y : ℕ × T => p y.2) hyes, read_data choice hx]
    rfl

lemma eraseP_find?_of_forall (hno : ∀ y ∈ L, p y.2 = false) :
    L.eraseP (fun y => p y.2) = L ∧ (L.find? fun y => p y.2).map Prod.snd = none := by
  constructor
  · exact eraseP_of_forall_not (by simpa using hno)
  · rw [List.find?_eq_none.mpr (by simpa using hno)]
    rfl

lemma Active.load_eq {prev : Link} {n : ℕ} (choice : Choice T)
    (h : Active sh cs t (.removeExchange p prev a n) xs qs)
    (hhead : prev = .head → a = sh.list.head) : sh.list.load choice prev = a := by
  cases prev with
  | head => exact (hhead rfl).symm
  | next b =>
    obtain ⟨hb, hba⟩ := h.remover.2 b rfl
    have hread := h.owned.next_eq_read hb choice
    exact Option.some.inj (hread.symm.trans hba)

lemma RemoveOk.step (hok : RemoveOk sh xs L p c) (h : Active sh cs t c xs qs)
    (choice : Choice T) (heff : Effect xs ys c (sh.step choice t c).2) :
    RemoveOk (sh.step choice t c).1 ys L p (sh.step choice t c).2 := by
  cases c with
  | removeLoad q =>
    cases heff
    exact ⟨hok.1, h.stores choice hok.2, rfl⟩
  | removeHead q b =>
    obtain ⟨rfl, hsto, rfl⟩ := hok
    have hpath := h.owned.path
    cases xs with
    | nil =>
      have hzero : sh.list.head = 0 := hpath
      simp only [Shared.step, step, hzero, if_true] at heff ⊢
      cases heff
      rw [stores_nil] at hsto
      subst hsto
      exact ⟨stores_nil.mpr rfl, rfl⟩
    | cons a r =>
      obtain ⟨hhead, -⟩ := hpath
      have hne : sh.list.head ≠ 0 := hhead ▸ h.ne_zero mem_cons_self
      obtain ⟨x, L₂, rfl, hx, hr⟩ := stores_cons.mp hsto
      have hkeep := h.stores choice hsto
      have hdata : (sh.list.read choice sh.list.head).data = x.2 := by
        rw [hhead]
        exact read_data choice hx
      simp only [Shared.step, step, if_neg hne, hdata] at heff hkeep ⊢
      split_ifs at heff hkeep ⊢ with hmat
      · cases heff
        exact ⟨rfl, ⟨[], r, [], x, L₂, by rw [hhead]; rfl, rfl, stores_nil.mpr rfl,
          by rw [hhead]; exact hx, hr, by simp, hmat⟩, rfl⟩
      · cases heff
        exact ⟨rfl, hkeep⟩
  | removeHeadExchange q b n =>
    obtain ⟨rfl, hmat, rfl⟩ := hok
    have hlast : (sh.step choice t (.removeHeadExchange q sh.list.head n)).2 =
        .deferLoad sh.list.head (sh.list.read choice sh.list.head).data := by
      simp [Shared.step, step]
    rw [hlast] at heff ⊢
    exact hmat.unlinked h choice heff
  | removeRest q =>
    cases heff
    obtain ⟨rfl, hsto⟩ := hok
    refine ⟨rfl, [], xs, [], L, rfl, rfl, stores_nil.mpr rfl, h.stores choice hsto, by simp, ?_,
      fun _ => rfl⟩
    have hpath := h.owned.path
    cases xs with
    | nil => exact hpath
    | cons a r => exact hpath.1
  | removeScan q prev b =>
    obtain ⟨rfl, l, r, L₁, L₂, rfl, rfl, hl, hr, hno, hcur, hhead⟩ := hok
    have hkeep := h.stores choice (stores_append.mpr ⟨L₁, L₂, rfl, hl, hr⟩)
    cases r with
    | nil =>
      have hzero : b = 0 := hcur
      simp only [Shared.step, step, hzero, if_true] at heff hkeep ⊢
      cases heff
      rw [stores_nil] at hr
      subst hr
      simp only [append_nil] at hkeep ⊢
      obtain ⟨hera, hfind⟩ := eraseP_find?_of_forall hno
      exact ⟨by rw [hera]; exact hkeep, hfind⟩
    | cons a r =>
      have hba : b = a := hcur
      subst hba
      have hmem : b ∈ l ++ b :: r := by simp
      obtain ⟨x, L₃, rfl, hx, hr⟩ := stores_cons.mp hr
      have hnext := h.owned.next_eq_read hmem choice
      simp only [Shared.step, step, if_neg (h.ne_zero hmem), read_data choice hx]
        at heff hkeep ⊢
      split_ifs at heff hkeep ⊢ with hmat
      · cases heff
        exact ⟨rfl, ⟨l, r, L₁, x, L₃, rfl, rfl, hl, hx, hr, hno, hmat⟩, hhead⟩
      · cases heff
        refine ⟨rfl, l ++ [b], r, L₁ ++ [x], L₃, by simp, by simp, ?_, hr, ?_, ?_, by simp⟩
        · exact stores_append.mpr ⟨L₁, [x], rfl, hl, stores_cons.mpr ⟨x, [], rfl, hx, by simp⟩⟩
        · intro y hy
          rcases mem_append.mp hy with hy | hy
          · exact hno y hy
          · cases mem_singleton.mp hy
            simpa using hmat
        · obtain ⟨m, -, rfl, n, hn, hrest⟩ := path_append.mp h.owned.path
          cases hn.symm.trans hnext
          cases r with
          | nil => exact hrest
          | cons d r => exact hrest.1
  | removeExchange q prev b n =>
    obtain ⟨rfl, hmat, hhead⟩ := hok
    have hlast : (sh.step choice t (.removeExchange q prev b n)).2 =
        .deferLoad b (sh.list.read choice b).data := by
      simp [Shared.step, step, h.load_eq choice hhead]
    rw [hlast] at heff ⊢
    exact hmat.unlinked h choice heff
  | deferLoad | deferAllocate | deferExchange =>
    have hkeep := h.stores choice hok.1
    simp only [Shared.step, step] at heff hkeep ⊢
    split_ifs at heff hkeep ⊢ <;>
    · cases heff
      exact ⟨hkeep, hok.2⟩
  | deferFree | deferLoadPool | deferStore | removeReturned =>
    cases heff
    exact ⟨h.stores choice hok.1, hok.2⟩
  | _ => exact absurd hok id

end active

end Kernel.Ds
