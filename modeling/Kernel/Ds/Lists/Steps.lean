import Kernel.Ds.Lists.Ownership

/-!
# The steps keep the places

One lemma for each access to the shared memory that moves a box or changes a counter, and the step
lemma assembled from them.
-/

namespace Kernel.Ds

open Core List Function Option ConcurrentLinkedList Call Nat

variable {T : Type} {s : ConcurrentLinkedList T} {cs : List (Call T)} {xs : List ℕ}
  {qs : List (ℕ × ℕ)} {t a b n k : ℕ} {c : Call T} {v : T}

def Call.Searching : Call T → Prop
  | .removeLoad _ | .removeHead _ _ | .removeHeadExchange _ _ _ | .removeRest _
  | .removeScan _ _ _ | .removeExchange _ _ _ _ | .removeReload _ _ | .removeReturned _ => True
  | _ => False

lemma Call.Searching.holds_nothing {c : Call T} (h : c.Searching) :
    (∀ a, c.held a = 0) ∧ (∀ b, c.heldPool b = 0) ∧ c.reading = 0 ∧ c.draining = 0 := by
  cases c with
  | removeLoad | removeHead | removeHeadExchange | removeRest | removeScan | removeExchange
  | removeReload | removeReturned => exact ⟨fun _ => rfl, fun _ => rfl, rfl, rfl⟩
  | _ => exact absurd h id

lemma next_setNext (h : (s.next b).isSome) :
    (s.setNext b n).next = Function.update s.next b (some n) := by
  funext x
  by_cases hx : x = b
  · subst hx
    obtain ⟨m, hm⟩ := isSome_iff_exists.mp h
    obtain ⟨node, hnode, -⟩ := map_eq_some_iff.mp hm
    simp [ConcurrentLinkedList.next, ConcurrentLinkedList.setNext, hnode]
  · rw [update_of_ne hx]
    simp [ConcurrentLinkedList.next, ConcurrentLinkedList.setNext, update_of_ne hx]

lemma isSome_setNext (s : ConcurrentLinkedList T) (b n x : ℕ) :
    ((s.setNext b n).nodes x).isSome = (s.nodes x).isSome := by
  by_cases hx : x = b
  · subst hx
    simp [setNext]
  · simp [setNext, update_of_ne hx]

namespace Owned

/-! ### Boxes that are in no other place -/

section

variable (h : Owned s cs xs qs)

include h

lemma not_mem_of_fresh (hnone : s.nodes a = none) : a ∉ xs := by
  intro hmem
  have hsome := h.path.isSome hmem
  simp [ConcurrentLinkedList.next, hnone] at hsome

lemma not_mem_of_held (hc : cs[t]? = some c) (ha : 0 < c.held a) :
    a ∉ xs := by
  intro hmem
  have hcnt := count_pos_iff.mpr hmem
  have hheld := single_le_total (f := held a) hc
  have hle := h.places_le a
  omega

lemma isSome_of_held (hc : cs[t]? = some c) (ha : 0 < c.held a) :
    (s.nodes a).isSome := by
  have hheld := single_le_total (f := held a) hc
  have hpla := h.places a
  exact isSome_of_toNat (by omega)

lemma isSome_of_heldPool (hc : cs[t]? = some c) (hb : 0 < c.heldPool b) :
    (s.pool b).isSome := by
  have hheld := single_le_total (f := heldPool b) hc
  have hpla := h.poolPlaces b
  exact isSome_of_toNat (by omega)

lemma poolFst_not_mem
    (hb : s.pool b = none ∨ 0 < total (heldPool b) cs) : b ∉ qs.map Prod.fst := by
  intro hmem
  have hcnt := count_pos_iff.mpr hmem
  have hpla := h.poolPlaces b
  have hle := Bool.toNat_le (s.pool b).isSome
  rcases hb with hnone | hheld
  · rw [hnone] at hpla
    simp only [isSome_none, Bool.toNat_false] at hpla
    omega
  · omega

lemma closed_of_mem (ha : a ∈ xs) : total (closed a) cs = 0 := by
  have hcnt := count_pos_iff.mpr ha
  have hle := h.places_le a
  have hclo : total (closed a) cs ≤ total (held a) cs :=
    total_le_total fun c => le_add_right _ _
  omega

variable {s' : ConcurrentLinkedList T}

lemma nodes_kept (hzero : a ≠ 0) (ha : a ∉ xs)
    (hsame : ∀ x, x ≠ a → s'.nodes x = s.nodes x) :
    s'.nodes 0 = none ∧ Path s'.next s.head xs 0 := by
  refine ⟨(hsame 0 hzero.symm).trans h.null, h.path.congr fun x hx => ?_⟩
  rw [ConcurrentLinkedList.next, ConcurrentLinkedList.next, hsame x (ne_of_mem_of_not_mem hx ha)]

lemma nodes_kept_of_held
    (hc : cs[t]? = some c) (ha : 0 < c.held a) (hsame : ∀ x, x ≠ a → s'.nodes x = s.nodes x) :
    s'.nodes 0 = none ∧ Path s'.next s.head xs 0 := by
  refine h.nodes_kept ?_ (h.not_mem_of_held hc ha) hsame
  rintro rfl
  simpa [h.null] using h.isSome_of_held hc ha

lemma pool_kept (hzero : b ≠ 0)
    (hb : s.pool b = none ∨ 0 < total (heldPool b) cs)
    (hsame : ∀ x, x ≠ b → s'.pool x = s.pool x) :
    s'.pool 0 = none ∧ Path s'.poolNext s.pendingDeletion (qs.map Prod.fst) 0 ∧
      ∀ q ∈ qs, (s'.pool q.1).map Node.data = some q.2 := by
  have hne : ∀ x ∈ qs.map Prod.fst, x ≠ b := fun x hx =>
    ne_of_mem_of_not_mem hx (h.poolFst_not_mem hb)
  refine ⟨(hsame 0 hzero.symm).trans h.poolNull, h.poolPath.congr fun x hx => ?_, fun q hq => ?_⟩
  · rw [poolNext, poolNext, hsame x (hne x hx)]
  · rw [hsame q.1 (hne q.1 (mem_map_of_mem hq))]
    exact h.poolData q hq

lemma pool_kept_of_held
    (hc : cs[t]? = some c) (hb : 0 < c.heldPool b) (hsame : ∀ x, x ≠ b → s'.pool x = s.pool x) :
    s'.pool 0 = none ∧ Path s'.poolNext s.pendingDeletion (qs.map Prod.fst) 0 ∧
      ∀ q ∈ qs, (s'.pool q.1).map Node.data = some q.2 := by
  refine h.pool_kept ?_ (Or.inr (hb.trans_le (single_le_total hc))) hsame
  rintro rfl
  simpa [h.poolNull] using h.isSome_of_heldPool hc hb

/-! ### `push` -/

lemma push {data : T} (hc : cs[t]? = some (.push data))
    (hfsh : s.Fresh a) : Owned (s.allocate a data) (cs.set t (.pushLoad a)) xs qs := by
  obtain ⟨hzero, hnone, -⟩ := hfsh
  have hne : ∀ x, (s.nodes x).isSome → x ≠ a := by
    rintro x hx rfl
    simp [hnone] at hx
  have hsame : ∀ x, x ≠ a → (s.allocate a data).nodes x = s.nodes x := fun x hx =>
    update_of_ne hx _ _
  obtain ⟨hnull, hpath⟩ := h.nodes_kept hzero (h.not_mem_of_fresh hnone) hsame
  refine h.move hc hnull hpath h.poolNull h.poolPath h.poolData ?_ (fun _ => rfl)
    (h.counters hc rfl rfl le_rfl) trivial
    (h.callOk_frame hc (fun x hx _ => hsame x (hne x hx)) (fun _ _ _ => rfl) (Or.inl rfl)) trivial
    (h.iterOk_frame hc (fun x hx _ => hsame x (hne x hx)) ?_)
  · intro x
    by_cases hx : x = a
    · subst hx
      simp [allocate, hnone, held, closed, unpublished, doomed, kept]
    · rw [hsame x hx]
      simp [held, closed, unpublished, doomed, kept, Ne.symm hx]
  · intro x hx _
    simp [closed, unpublished, doomed, Ne.symm (hne x hx)]

lemma pushStore (hc : cs[t]? = some (.pushStore n k)) :
    Owned (s.setNext n k) (cs.set t (.pushExchange n k)) xs qs := by
  have hheld : 0 < (Call.pushStore n k : Call T).held n := by
    simp [Call.held, Call.closed, Call.unpublished]
  have hsame : ∀ x, x ≠ n → (s.setNext n k).nodes x = s.nodes x := fun x hx =>
    update_of_ne hx _ _
  obtain ⟨hnull, hpath⟩ := h.nodes_kept_of_held hc hheld hsame
  refine h.move hc hnull hpath h.poolNull h.poolPath h.poolData ?_ (fun _ => rfl)
    (h.counters hc rfl rfl le_rfl) ?_ (h.callOk_frame hc ?_ (fun _ _ _ => rfl) (Or.inl rfl)) trivial
    (h.iterOk_frame hc ?_ fun x _ hx => hx)
  · intro x
    rw [isSome_setNext]
    rfl
  · obtain ⟨node, hnode⟩ := isSome_iff_exists.mp (h.isSome_of_held hc hheld)
    simp [CallOk, ConcurrentLinkedList.next, ConcurrentLinkedList.setNext, hnode]
  · intro x _ hx
    apply hsame
    rintro rfl
    omega
  · intro x _ hx
    apply hsame
    rintro rfl
    simp [Call.closed, Call.unpublished] at hx

lemma pushExchange (hc : cs[t]? = some (.pushExchange n k)) (hhead : s.head = k) :
    Owned { s with head := n } (cs.set t (.pushReturned n)) (n :: xs) qs := by
  have hnext : s.next n = some k := h.callOk t _ hc
  refine h.move hc h.null ⟨rfl, k, hnext, hhead ▸ h.path⟩ h.poolNull h.poolPath h.poolData
    ?_ (fun _ => rfl) (h.counters hc rfl rfl le_rfl) trivial (fun u d _ => h.callOk u d) trivial
    (h.iterOk_frame hc (fun _ _ _ => rfl) fun _ _ _ => rfl)
  intro x
  simp only [count_cons, held, closed, unpublished, doomed, kept, beq_iff_eq]
  omega

/-! ### Unlinking a node -/

lemma unlinkHead (hc : cs[t]? = some c) (hs : c.Searching)
    (hhead : s.head = a) (hnext : s.next a = some n) :
    ∃ ys, xs = a :: ys ∧ Owned { s with head := n } (cs.set t (.deferLoad a v)) ys qs := by
  obtain ⟨hheld, hpool, hrdg, hdra⟩ := hs.holds_nothing
  have hpath := h.path
  rw [hhead] at hpath
  cases xs with
  | nil =>
    cases hpath
    simp [h.next_zero] at hnext
  | cons x ys =>
    obtain ⟨rfl, m, hm, hrest⟩ := hpath
    cases hnext.symm.trans hm
    refine ⟨ys, rfl, h.move hc h.null hrest h.poolNull h.poolPath h.poolData ?_ ?_
      (h.counters hc rfl hrdg.symm (zero_le _)) trivial (fun u d _ => h.callOk u d) trivial
      (h.iterOk_frame hc (fun _ _ _ => rfl) fun _ _ _ => rfl)⟩
    · intro x
      rw [hheld]
      simp only [count_cons, held, closed, unpublished, doomed, kept, beq_iff_eq]
      omega
    · intro x
      rw [hpool]
      rfl

lemma unlinkNext (hc : cs[t]? = some c) (hs : c.Searching)
    (hb : Leads s.next s.head b) (hba : s.next b = some a) (hnext : s.next a = some n) :
    ∃ l r, xs = l ++ b :: a :: r ∧
      Owned (s.setNext b n) (cs.set t (.deferLoad a v)) (l ++ b :: r) qs := by
  obtain ⟨hheld, hpool, hrdg, hdra⟩ := hs.holds_nothing
  have hnull := h.next_zero
  -- the cell is in the list and the node to unlink comes after it
  obtain ⟨l, r, rfl⟩ : ∃ l r, xs = l ++ b :: a :: r := by
    rcases Leads.mem_or_eq hnull h.path hb with hmem | rfl
    · obtain ⟨l, r, rfl⟩ := append_of_mem hmem
      obtain ⟨m, -, rfl, d, hd, hr⟩ := path_append.mp h.path
      cases hba.symm.trans hd
      cases r with
      | nil =>
        cases hr
        simp [hnull] at hnext
      | cons y r =>
        obtain ⟨rfl, -⟩ := hr
        exact ⟨l, r, rfl⟩
    · simp [hnull] at hba
  have hlnk : (s.setNext b n).next = Function.update s.next b (s.next a) := by
    rw [hnext]
    exact next_setNext (by simp [hba])
  refine ⟨l, r, rfl, h.move hc ?_ ?_ h.poolNull h.poolPath h.poolData ?_ ?_
    (h.counters hc rfl hrdg.symm (zero_le _)) trivial
    (h.callOk_frame hc ?_ (fun _ _ _ => rfl) (Or.inl rfl)) trivial ?_⟩
  · rw [← not_isSome_iff_eq_none, isSome_setNext, h.null]
    simp
  · rw [hlnk]
    exact h.path.unlink hnull
  · intro x
    rw [hheld, isSome_setNext]
    simp only [count_append, count_cons, held, closed, unpublished, doomed, kept, beq_iff_eq]
    omega
  · intro x
    rw [hpool]
    rfl
  · intro x _ hx
    apply update_of_ne
    rintro rfl
    simp at hx
  · intro u d _ hd
    cases d with
    | iterating current ys =>
      obtain ⟨zs, hzs, hclo⟩ := h.iterOk u _ hd
      have ha : (s.next a).isSome := by simp [hnext]
      obtain ⟨bs, hbs, hsha⟩ := hzs.after_unlink hnull hba ha
      have hsub : bs ⊆ zs := by
        rcases hsha with rfl | ⟨l, r, rfl, rfl⟩
        · exact List.Subset.refl _
        · exact ((sublist_cons_self a r).append_left l).subset
      rw [← hlnk] at hbs
      refine ⟨bs, hbs, ?_⟩
      intro z hz
      have hset := total_set (closed z) (deferLoad a v) hc
      have hzero := hclo z (hsub hz)
      have hnone : (deferLoad a v : Call T).closed z = 0 := rfl
      omega
    | _ => trivial

/-! ### `push_pending_deletion` -/

lemma deferLoad_free (hc : cs[t]? = some (.deferLoad a v))
    (hzero : s.readers = 0) : Owned s (cs.set t (.deferFree a v)) xs qs := by
  refine h.move hc h.null h.path h.poolNull h.poolPath h.poolData ?_ (fun _ => rfl)
    (h.counters hc rfl rfl le_rfl) trivial (fun u d _ => h.callOk u d) trivial
    (h.iterOk_of_readers_eq_zero hzero)
  intro x
  simp only [held, closed, unpublished, doomed, kept]
  omega

lemma deferFree (hc : cs[t]? = some (.deferFree a v)) :
    Owned (s.free a) (cs.set t (.removeReturned (some v))) xs qs := by
  have hheld : 0 < (Call.deferFree a v).held a := by simp [Call.held, Call.closed, Call.doomed]
  have hsome := h.isSome_of_held hc hheld
  have hsame : ∀ x, x ≠ a → (s.free a).nodes x = s.nodes x := fun x hx =>
    update_of_ne hx _ _
  obtain ⟨hnull, hpath⟩ := h.nodes_kept_of_held hc hheld hsame
  refine h.move hc hnull hpath h.poolNull h.poolPath h.poolData ?_ (fun _ => rfl)
    (h.counters hc rfl rfl le_rfl) trivial (h.callOk_frame hc ?_ (fun _ _ _ => rfl) (Or.inl rfl))
    trivial (h.iterOk_frame hc ?_ fun _ _ _ => rfl)
  · intro x
    by_cases hx : x = a
    · subst hx
      simp [free, hsome, Call.held, Call.closed, Call.unpublished, Call.doomed, Call.kept]
    · rw [hsame x hx]
      simp [Call.held, Call.closed, Call.unpublished, Call.doomed, Call.kept, Ne.symm hx]
  · intro x _ hx
    apply hsame
    rintro rfl
    omega
  · intro x _ hx
    apply hsame
    rintro rfl
    simp [Call.closed, Call.doomed] at hx

lemma deferAllocate (hc : cs[t]? = some (.deferAllocate a v)) (hfsh : s.Fresh b) :
    Owned (s.allocatePool b a) (cs.set t (.deferLoadPool b a v)) xs qs := by
  obtain ⟨hzero, -, hnone⟩ := hfsh
  have hsame : ∀ x, x ≠ b → (s.allocatePool b a).pool x = s.pool x := fun x hx =>
    update_of_ne hx _ _
  obtain ⟨hnull, hpath, hdata⟩ := h.pool_kept hzero (Or.inl hnone) hsame
  refine h.move hc h.null h.path hnull hpath hdata (fun _ => rfl) ?_
    (h.counters hc rfl rfl le_rfl) ?_ (h.callOk_frame hc (fun _ _ _ => rfl) ?_ (Or.inl rfl)) trivial
    (h.iterOk_frame hc (fun _ _ _ => rfl) fun _ _ _ => rfl)
  · intro x
    by_cases hx : x = b
    · subst hx
      simp [allocatePool, hnone, heldPool]
    · rw [hsame x hx]
      simp [heldPool, Ne.symm hx]
  · simp [CallOk, allocatePool]
  · intro x hsome _
    apply hsame
    rintro rfl
    simp [hnone] at hsome

lemma deferStore (hc : cs[t]? = some (.deferStore b k a v)) :
    Owned (s.setPoolNext b k) (cs.set t (.deferExchange b k a v)) xs qs := by
  have hheld : 0 < (Call.deferStore b k a v).heldPool b := by simp [Call.heldPool]
  have hdata : (s.pool b).map Node.data = some a := h.callOk t _ hc
  have hsame : ∀ x, x ≠ b → (s.setPoolNext b k).pool x = s.pool x := fun x hx =>
    update_of_ne hx _ _
  obtain ⟨hnull, hpath, hall⟩ := h.pool_kept_of_held hc hheld hsame
  refine h.move hc h.null h.path hnull hpath hall (fun _ => rfl) ?_ (h.counters hc rfl rfl le_rfl)
    ?_ (h.callOk_frame hc (fun _ _ _ => rfl) ?_ (Or.inl rfl)) trivial
    (h.iterOk_frame hc (fun _ _ _ => rfl) fun _ _ _ => rfl)
  · intro x
    by_cases hx : x = b
    · subst hx
      simp [setPoolNext, Call.heldPool]
    · rw [hsame x hx]
      rfl
  · obtain ⟨node, hnode, rfl⟩ := map_eq_some_iff.mp hdata
    simp [CallOk, setPoolNext, hnode]
  · intro x _ hx
    apply hsame
    rintro rfl
    omega

lemma deferExchange (hc : cs[t]? = some (.deferExchange b k a v))
    (hpend : s.pendingDeletion = k) (hdr : total draining cs = 0) :
    Owned { s with pendingDeletion := b } (cs.set t (.removeReturned (some v))) xs
      ((b, a) :: qs) := by
  have hbox : s.pool b = some ⟨a, k⟩ := h.callOk t _ hc
  refine h.move hc h.null h.path h.poolNull ⟨rfl, k, ?_, hpend ▸ h.poolPath⟩ ?_ ?_ ?_
    (h.counters hc rfl rfl le_rfl) trivial
    (h.callOk_frame hc (fun _ _ _ => rfl) (fun _ _ _ => rfl) (Or.inr hdr)) trivial
    (h.iterOk_frame hc (fun _ _ _ => rfl) fun _ _ _ => rfl)
  · exact congrArg (Option.map Node.next) hbox
  · intro q hq
    rcases mem_cons.mp hq with rfl | hq
    · exact congrArg (Option.map Node.data) hbox
    · exact h.poolData q hq
  · intro x
    simp only [map_cons, count_cons, held, closed, unpublished, doomed, kept, beq_iff_eq]
    omega
  · intro x
    simp only [map_cons, count_cons, heldPool, beq_iff_eq]
    omega

/-! ### Iterators -/

lemma iter (hc : cs[t]? = some .iter) (hdr : total draining cs = 0) :
    Owned { s with readers := s.readers + 1 } (cs.set t .iterLoad) xs qs := by
  refine h.move hc h.null h.path h.poolNull h.poolPath h.poolData (fun _ => rfl) (fun _ => rfl)
    ⟨rfl, ?_, ?_⟩ trivial (fun u d _ => h.callOk u d) trivial
    (h.iterOk_frame hc (fun _ _ _ => rfl) fun _ _ _ => rfl)
  · simp [draining, hdr]
  · intro hne
    simp [draining, hdr] at hne

variable {ys : List T}

lemma iterLoad (hc : cs[t]? = some .iterLoad) :
    Owned s (cs.set t (.iterating s.head ys)) xs qs := by
  refine h.silent hc (fun _ => rfl) (fun _ => rfl) (fun _ _ => rfl) rfl le_rfl trivial
    ⟨xs, h.path, ?_⟩
  intro z hz
  have hset := total_set (closed z) (iterating s.head ys) hc
  rw [h.closed_of_mem hz] at hset
  exact hset

lemma iterNext {node : Node T} {zs : List T}
    (hc : cs[t]? = some (.iterating a ys)) (hnode : s.nodes a = some node) :
    Owned s (cs.set t (.iterating node.next zs)) xs qs := by
  refine h.silent hc (fun _ => rfl) (fun _ => rfl) (fun _ _ => rfl) rfl le_rfl trivial ?_
  obtain ⟨as, hpath, hclo⟩ := h.iterOk t _ hc
  have hnext : s.next a = some node.next := by simp [ConcurrentLinkedList.next, hnode]
  cases as with
  | nil =>
    cases hpath
    simp [h.next_zero] at hnext
  | cons x as =>
    obtain ⟨rfl, m, hm, hrest⟩ := hpath
    cases hnext.symm.trans hm
    refine ⟨as, hrest, ?_⟩
    intro z hz
    have hset := total_set (closed z) (iterating node.next zs) hc
    rw [hclo z (mem_cons_of_mem _ hz)] at hset
    exact hset

lemma drop (hc : cs[t]? = some (.iterating a ys)) :
    Owned { s with readers := s.readers - 1 }
      (cs.set t (if s.readers = 1 then .poolLoad else .dropped)) xs qs := by
  have hpos := single_le_total (f := reading) hc
  rw [← h.readers] at hpos
  simp only [reading] at hpos
  -- there is a reader, so no call is emptying the pool
  have hdr : total draining cs = 0 := by
    by_contra hne
    have := h.drain_alone hne
    omega
  have hcas : ∀ {P : Call T → Prop}, P .poolLoad → P .dropped →
      P (if s.readers = 1 then .poolLoad else .dropped) := by
    intro P hpool hdrp
    split
    · exact hpool
    · exact hdrp
  refine h.move hc h.null h.path h.poolNull h.poolPath h.poolData ?_ ?_ ⟨?_, ?_, ?_⟩ ?_
    (fun u d _ => h.callOk u d) ?_ (h.iterOk_frame hc (fun _ _ _ => rfl) ?_)
  · intro x
    exact hcas (P := fun c' => _ + c'.held x + _ = _) rfl rfl
  · intro x
    exact hcas (P := fun c' => _ + c'.heldPool x + _ = _) rfl rfl
  · refine hcas (P := fun c' => _ = s.readers + c'.reading) ?_ ?_ <;>
    · simp only [reading]
      omega
  · rw [hdr]
    exact hcas (P := fun c' => 0 + c'.draining ≤ _) le_rfl (zero_le _)
  · rw [hdr]
    intro hne
    split_ifs at hne with hlast
    · simp [hlast]
    · simp [draining] at hne
  · exact hcas (P := CallOk _) trivial trivial
  · exact hcas (P := IterOk _ _) trivial trivial
  · exact fun x _ _ => hcas (P := fun c' => c'.closed x = 0) rfl rfl

/-! ### `free_pool` -/

lemma poolHead (hc : cs[t]? = some (.poolHead b)) (hb : b ≠ 0)
    (hn : ∀ node, s.pool b = some node → node.next = n) :
    Owned s (cs.set t (.poolExchange b n)) xs qs := by
  refine h.silent hc (fun _ => rfl) (fun _ => rfl) (fun _ _ => rfl) rfl le_rfl ?_ trivial
  intro hpend
  have hpath := h.poolPath
  rw [hpend] at hpath
  cases hqs : qs.map Prod.fst with
  | nil =>
    rw [hqs] at hpath
    exact absurd hpath hb
  | cons q rest =>
    rw [hqs] at hpath
    obtain ⟨rfl, m, hm, -⟩ := hpath
    obtain ⟨node, hnode, rfl⟩ := map_eq_some_iff.mp hm
    rw [hm, hn node hnode]

lemma poolExchange (hc : cs[t]? = some (.poolExchange b n)) (hpend : s.pendingDeletion = b) :
    ∃ node rs, s.pool b = some node ∧ qs = (b, node.data) :: rs ∧
      Owned { s with pendingDeletion := n } (cs.set t (.poolFree b node.data)) xs rs := by
  have hnext : s.poolNext b = some n := h.callOk t _ hc hpend
  have hdr : total draining cs = 1 := by
    have hone := single_le_total (f := draining) hc
    have hle := h.drain_le
    simp only [draining] at hone
    omega
  obtain ⟨node, hnode, rfl⟩ := map_eq_some_iff.mp hnext
  have hpath := h.poolPath
  rw [hpend] at hpath
  cases qs with
  | nil =>
    cases hpath
    simp [h.poolNull] at hnode
  | cons q rs =>
    obtain ⟨rfl, m, hm, hrest⟩ := hpath
    cases hnext.symm.trans hm
    have hdata : node.data = q.2 := by
      have := h.poolData q mem_cons_self
      rw [hnode] at this
      exact Option.some.inj this
    refine ⟨node, rs, hnode, by rw [hdata], h.move hc h.null h.path h.poolNull hrest ?_ ?_ ?_
      (h.counters hc rfl rfl le_rfl) trivial
      (h.callOk_frame hc (fun _ _ _ => rfl) (fun _ _ _ => rfl) (Or.inr hdr)) trivial
      (h.iterOk_of_readers_eq_zero (h.drain_alone (by omega)))⟩
    · intro p hp
      exact h.poolData p (mem_cons_of_mem _ hp)
    · intro x
      simp only [map_cons, count_cons, held, closed, unpublished, doomed, kept, beq_iff_eq, hdata]
      omega
    · intro x
      simp only [map_cons, count_cons, heldPool, beq_iff_eq]
      omega

lemma poolFree (hc : cs[t]? = some (.poolFree b a)) :
    Owned (s.freePool b a) (cs.set t (.poolHead b)) xs qs := by
  have hheld : 0 < (Call.poolFree b a : Call T).held a := by
    simp [Call.held, Call.closed, Call.doomed]
  have hheldPool : 0 < (Call.poolFree b a : Call T).heldPool b := by simp [Call.heldPool]
  have hsome := h.isSome_of_held hc hheld
  have hsomePool := h.isSome_of_heldPool hc hheldPool
  have hsame : ∀ x, x ≠ a → (s.freePool b a).nodes x = s.nodes x := fun x hx =>
    update_of_ne hx _ _
  have hsamePool : ∀ x, x ≠ b → (s.freePool b a).pool x = s.pool x := fun x hx =>
    update_of_ne hx _ _
  have hdr : total Call.draining cs ≠ 0 := by
    have hone := single_le_total (f := Call.draining) hc
    simp only [Call.draining] at hone
    omega
  obtain ⟨hnull, hpath⟩ := h.nodes_kept_of_held hc hheld hsame
  obtain ⟨hpoolNull, hpoolPath, hdata⟩ := h.pool_kept_of_held hc hheldPool hsamePool
  refine h.move hc hnull hpath hpoolNull hpoolPath hdata ?_ ?_ (h.counters hc rfl rfl le_rfl)
    trivial
    (h.callOk_frame hc ?_ ?_ (Or.inl rfl)) trivial
    (h.iterOk_of_readers_eq_zero (h.drain_alone hdr))
  · intro x
    by_cases hx : x = a
    · subst hx
      simp [freePool, free, hsome, Call.held, Call.closed, Call.unpublished, Call.doomed, Call.kept]
    · rw [hsame x hx]
      simp [Call.held, Call.closed, Call.unpublished, Call.doomed, Call.kept, Ne.symm hx]
  · intro x
    by_cases hx : x = b
    · subst hx
      simp [freePool, hsomePool, Call.heldPool]
    · rw [hsamePool x hx]
      simp [Call.heldPool, Ne.symm hx]
  · intro x _ hx
    apply hsame
    rintro rfl
    omega
  · intro x _ hx
    apply hsamePool
    rintro rfl
    omega

end

/-! ### The step lemma -/

lemma set_self (hc : cs[t]? = some c) : cs.set t c = cs := by
  obtain ⟨ht, rfl⟩ := List.getElem?_eq_some_iff.mp hc
  exact set_getElem_self ht

lemma search {c' : Call T} (h : Owned s cs xs qs) (hc : cs[t]? = some c) (hs : c.Searching)
    (hs' : c'.Searching) : Owned s (cs.set t c') xs qs := by
  obtain ⟨hheld, hpool, hrdg, hdra⟩ := hs.holds_nothing
  obtain ⟨hheld', hpool', hrdg', hdra'⟩ := hs'.holds_nothing
  refine h.silent hc ?_ ?_ ?_ ?_ ?_ ?_ ?_
  · intro a
    rw [hheld, hheld']
  · intro b
    rw [hpool, hpool']
  · intro a _
    exact Nat.eq_zero_of_add_eq_zero_right (hheld' a)
  · rw [hrdg, hrdg']
  · rw [hdra']
    exact zero_le _
  · cases c' <;> trivial
  · cases c' <;> trivial

lemma read_eq {ys : List T} (h : Owned s cs xs qs) (choice : Choice T)
    (hc : cs[t]? = some (.iterating a ys)) (ha : a ≠ 0) : s.nodes a = some (s.read choice a) := by
  obtain ⟨zs, hpath, -⟩ := h.iterOk t _ hc
  cases zs with
  | nil => exact absurd hpath ha
  | cons z zs =>
    obtain ⟨rfl, m, hm, -⟩ := hpath
    obtain ⟨node, hnode, -⟩ := map_eq_some_iff.mp hm
    rw [ConcurrentLinkedList.read, hnode, getD_some]

end Owned

def Effect (xs ys : List ℕ) : Call T → Call T → Prop
  | .pushExchange _ _, .pushReturned a => ys = a :: xs
  | .removeHeadExchange _ _ _, .deferLoad a _ | .removeExchange _ _ _ _, .deferLoad a _ =>
    ∃ l r, xs = l ++ a :: r ∧ ys = l ++ r
  | _, _ => ys = xs

/-- Every step of every call keeps the places, when an unlinking compare-exchange finds the cell
in the list and the successor it has loaded, and the emptying of the pool is not disturbed. -/
theorem Owned.step (h : Owned s cs xs qs) (hc : cs[t]? = some c) (hunl : Unlinks s c)
    (hund : Undisturbed s cs c) (choice : Choice T) :
    ∃ ys rs, Owned (c.step choice s).1 (cs.set t (c.step choice s).2) ys rs ∧
      Effect xs ys c (c.step choice s).2 := by
  cases c with
  | push data =>
    simp only [step]
    split_ifs with hfsh
    · exact ⟨xs, qs, h.push hc hfsh, rfl⟩
    · exact ⟨xs, qs, by rwa [set_self hc], rfl⟩
  | pushLoad n | poolLoad =>
    exact ⟨xs, qs, h.silent hc (fun _ => rfl) (fun _ => rfl) (fun _ hx => hx) rfl le_rfl trivial
      trivial, rfl⟩
  | pushStore n k => exact ⟨xs, qs, h.pushStore hc, rfl⟩
  | pushExchange n k =>
    simp only [step]
    split_ifs with hhead
    · exact ⟨n :: xs, qs, h.pushExchange hc hhead, rfl⟩
    · exact ⟨xs, qs, h.silent hc (fun _ => rfl) (fun _ => rfl) (fun _ hx => hx) rfl le_rfl trivial
        trivial, rfl⟩
  | removeLoad p | removeRest p | removeReload p prev =>
    exact ⟨xs, qs, h.search hc trivial trivial, rfl⟩
  | removeHead p a | removeScan p prev a =>
    simp only [step]
    split_ifs <;> exact ⟨xs, qs, h.search hc trivial trivial, rfl⟩
  | removeHeadExchange p a n =>
    simp only [step]
    split_ifs with hhead
    · obtain ⟨ys, rfl, hys⟩ := h.unlinkHead hc trivial hhead (hunl hhead)
      exact ⟨ys, qs, hys, [], ys, rfl, rfl⟩
    · exact ⟨xs, qs, h.search hc trivial trivial, rfl⟩
  | removeExchange p prev a n =>
    simp only [step]
    split_ifs with hcell
    · cases prev with
      | head =>
        obtain ⟨ys, rfl, hys⟩ := h.unlinkHead hc trivial hcell (hunl hcell)
        exact ⟨ys, qs, hys, [], ys, rfl, rfl⟩
      | next b =>
        obtain ⟨hsome, hfd⟩ := hunl
        obtain ⟨node, hnode⟩ := ne_none_iff_exists'.mp (fun hnone =>
          hsome (by simp [ConcurrentLinkedList.next, hnone]) : s.nodes b ≠ none)
        have hba : s.next b = some a := by
          simpa [ConcurrentLinkedList.next, ConcurrentLinkedList.load, ConcurrentLinkedList.read,
            hnode] using hcell
        obtain ⟨hlea, hnext⟩ := hfd hba
        obtain ⟨l, r, rfl, hys⟩ := h.unlinkNext hc trivial hlea hba hnext
        exact ⟨l ++ b :: r, qs, hys, l ++ [b], r, by simp, by simp⟩
    · exact ⟨xs, qs, h.search hc trivial trivial, rfl⟩
  | deferLoad a v =>
    simp only [step]
    split_ifs with hrdrs
    · exact ⟨xs, qs, h.deferLoad_free hc hrdrs, rfl⟩
    · exact ⟨xs, qs, h.silent hc (fun _ => rfl) (fun _ => rfl) (fun _ hx => hx) rfl le_rfl trivial
        trivial, rfl⟩
  | deferFree a v => exact ⟨xs, qs, h.deferFree hc, rfl⟩
  | deferAllocate a v =>
    simp only [step]
    split_ifs with hfsh
    · exact ⟨xs, qs, h.deferAllocate hc hfsh, rfl⟩
    · exact ⟨xs, qs, by rwa [set_self hc], rfl⟩
  | deferLoadPool b a v =>
    have hbox : (s.pool b).map Node.data = some a := h.callOk t _ hc
    exact ⟨xs, qs, h.silent hc (fun _ => rfl) (fun _ => rfl) (fun _ hx => hx) rfl le_rfl hbox
      trivial, rfl⟩
  | deferStore b k a v => exact ⟨xs, qs, h.deferStore hc, rfl⟩
  | deferExchange b k a v =>
    simp only [step]
    split_ifs with hpend
    · exact ⟨xs, (b, a) :: qs, h.deferExchange hc hpend (hund hpend), rfl⟩
    · have hbox : s.pool b = some ⟨a, k⟩ := h.callOk t _ hc
      exact ⟨xs, qs, h.silent hc (fun _ => rfl) (fun _ => rfl) (fun _ hx => hx) rfl le_rfl
        (congrArg (Option.map Node.data) hbox) trivial, rfl⟩
  | removeReturned r | dropped | pushReturned n =>
    exact ⟨xs, qs, by rwa [step, set_self hc], rfl⟩
  | iter => exact ⟨xs, qs, h.iter hc hund, rfl⟩
  | iterLoad => exact ⟨xs, qs, h.iterLoad hc, rfl⟩
  | iterating a ys =>
    by_cases hdrop : choice.drop
    · simp only [step, hdrop, if_true]
      refine ⟨xs, qs, h.drop hc, ?_⟩
      split_ifs <;> rfl
    · simp only [step, if_neg hdrop]
      split_ifs with hnull
      · exact ⟨xs, qs, by rwa [set_self hc], rfl⟩
      · exact ⟨xs, qs, h.iterNext hc (h.read_eq choice hc hnull), rfl⟩
  | poolHead b =>
    simp only [step]
    split_ifs with hb
    · exact ⟨xs, qs, h.silent hc (fun _ => rfl) (fun _ => rfl) (fun _ hx => hx) rfl
        (zero_le _) trivial trivial, rfl⟩
    · refine ⟨xs, qs, h.poolHead hc hb ?_, rfl⟩
      intro node hnode
      rw [ConcurrentLinkedList.readPool, hnode, getD_some]
  | poolExchange b n =>
    simp only [step]
    split_ifs with hpend
    · obtain ⟨node, rs, hnode, rfl, hrs⟩ := h.poolExchange hc hpend
      rw [ConcurrentLinkedList.readPool, hnode, getD_some]
      exact ⟨xs, rs, hrs, rfl⟩
    · exact ⟨xs, qs, h.silent hc (fun _ => rfl) (fun _ => rfl) (fun _ hx => hx) rfl le_rfl trivial
        trivial, rfl⟩
  | poolFree b a => exact ⟨xs, qs, h.poolFree hc, rfl⟩

lemma Owned.append (h : Owned s cs xs qs) (hheld : ∀ a, c.held a = 0)
    (hpool : ∀ b, c.heldPool b = 0) (hrdg : c.reading = 0) (hdra : c.draining = 0)
    (hok : CallOk s c) (hiter : IterOk s (cs ++ [c]) c) : Owned s (cs ++ [c]) xs qs := by
  have hlast : ∀ {u : ℕ} {d : Call T}, (cs ++ [c])[u]? = some d → cs[u]? = some d ∨ d = c := by
    intro u d hd
    rw [List.getElem?_append] at hd
    split_ifs at hd with hu
    · exact Or.inl hd
    · exact Or.inr (mem_singleton.mp (mem_of_getElem? hd))
  refine ⟨h.null, h.path, h.poolNull, h.poolPath, h.poolData, ?_, ?_, ?_, ?_, ?_, ?_, ?_⟩
  · intro a
    rw [total_append_singleton, hheld]
    exact h.places a
  · intro b
    rw [total_append_singleton, hpool]
    exact h.poolPlaces b
  · rw [total_append_singleton, hrdg]
    exact h.readers
  · rw [total_append_singleton, hdra]
    exact h.drain_le
  · rw [total_append_singleton, hdra]
    exact h.drain_alone
  · intro u d hd
    rcases hlast hd with hd | rfl
    · exact h.callOk u d hd
    · exact hok
  · intro u d hd
    rcases hlast hd with hd | rfl
    · have hold := h.iterOk u d hd
      cases d with
      | iterating a ys =>
        obtain ⟨zs, hpath, hclo⟩ := hold
        refine ⟨zs, hpath, ?_⟩
        intro z hz
        rw [total_append_singleton, hclo z hz, zero_add]
        exact Nat.eq_zero_of_add_eq_zero_right (hheld z)
      | _ => trivial
    · exact hiter

lemma Owned.default : Owned (default : ConcurrentLinkedList T) [] [] [] :=
  ⟨rfl, rfl, rfl, rfl, by simp, fun _ => rfl, fun _ => rfl, rfl, zero_le _, fun _ => rfl,
    by simp, by simp⟩

end Kernel.Ds
