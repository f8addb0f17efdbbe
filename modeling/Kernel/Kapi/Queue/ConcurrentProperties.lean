import Kernel.Core.Ring
import Kernel.Kapi.Queue.Concurrent

/-!
# Concurrent calls deliver every element once and in order

Every step leaves the shared state alone or moves one slot to the next phase of its use. `Frame`
collects what such a move leaves untouched.
-/

namespace Kernel.Kapi

open Core Queue List Function Call Shared Nat

variable {q : Queue} {α : Type} {use use' : Fin q.capacity → Use} {s s' : Shared q α}
  {t k : ℕ}

/-! ### Interference -/

structure Frame (t : ℕ) (use : Fin q.capacity → Use) (s : Shared q α)
    (use' : Fin q.capacity → Use) (s' : Shared q α) : Prop where
  posts_prefix : s.posts <+: s'.posts
  polls_prefix : s.polls <+: s'.polls
  posts_mem : ∀ u ≠ t, u ∈ s'.posts.map Prod.fst → u ∈ s.posts.map Prod.fst
  polls_mem : ∀ u ≠ t, u ∈ s'.polls → u ∈ s.polls
  empty : ∀ i, use i = ⟨s'.posts.length, .empty⟩ → use' i = use i
  full : ∀ i, use i = ⟨s'.polls.length, .full⟩ → use' i = use i
  writing : ∀ i n, ∀ u ≠ t, use i = ⟨n, .writing u⟩ →
    use' i = use i ∧ (s'.memory.slots i).value = (s.memory.slots i).value
  reading : ∀ i n, ∀ u ≠ t, use i = ⟨n, .reading u⟩ → use' i = use i

lemma Frame.refl (t : ℕ) (use : Fin q.capacity → Use) (s : Shared q α) :
    Frame t use s use s where
  posts_prefix := prefix_refl _
  polls_prefix := prefix_refl _
  posts_mem := fun _ _ h => h
  polls_mem := fun _ _ h => h
  empty := fun _ _ => rfl
  full := fun _ _ => rfl
  writing := fun _ _ _ _ _ => ⟨rfl, rfl⟩
  reading := fun _ _ _ _ _ => rfl

variable {n : ℕ}

private lemma getElem?_of_prefix {β : Type} {l l' : List β} (h : l <+: l') {x : β}
    (hx : l[n]? = some x) : l'[n]? = some x := by
  obtain ⟨r, rfl⟩ := h
  rwa [List.getElem?_append_left (List.getElem?_eq_some_iff.mp hx).1]

private lemma Loaded.mono {atStart length length' : ℕ} {w : BitVec 64}
    (h : Loaded q atStart length n w) (hle : length ≤ length') : Loaded q atStart length' n w :=
  ⟨h.1, h.2.1.trans hle, h.2.2⟩

lemma Frame.callOk (h : Frame t use s use' s') {u : ℕ} (hu : u ≠ t) {d : Caller q α}
    (hd : CallOk use s u d) : CallOk use' s' u d := by
  have hpsts := h.posts_prefix.length_le
  have hpls := h.polls_prefix.length_le
  have hnpo : u ∉ s.posts.map Prod.fst → u ∉ s'.posts.map Prod.fst :=
    fun hn hm => hn (h.posts_mem u hu hm)
  have hnpol : u ∉ s.polls → u ∉ s'.polls := fun hn hm => hn (h.polls_mem u hu hm)
  obtain ⟨call, p₀, h₀⟩ := d
  cases call with
  | postLoadTail value => exact hnpo hd
  | postLoadStamp value tail newTail i =>
    obtain ⟨hn, n, hload, hrest⟩ := hd
    exact ⟨hnpo hn, n, hload.mono hpsts, hrest⟩
  | postCompareExchange value tail newTail i =>
    obtain ⟨hn, n, hload, hnew, hi, huse⟩ := hd
    refine ⟨hnpo hn, n, hload.mono hpsts, hnew, hi, fun hlen => ?_⟩
    -- `n` is at most the old length, so the tail has not moved
    have hold : s.posts.length = n := by
      have := hload.2.1
      omega
    rw [h.empty i (by rw [huse hold, hlen]), huse hold]
  | postLoadHead value tail =>
    obtain ⟨hn, n, hload⟩ := hd
    exact ⟨hnpo hn, n, hload.mono hpsts⟩
  | postWrite value tail i | postWriting value tail i =>
    obtain ⟨n, htail, hi, huse, hpost⟩ := hd
    exact ⟨n, htail, hi, by rw [(h.writing i n u hu huse).1, huse],
      getElem?_of_prefix h.posts_prefix hpost⟩
  | postStoreStamp stamp i =>
    obtain ⟨n, value, hstp, hi, huse, hpost, hval⟩ := hd
    obtain ⟨huse', hval'⟩ := h.writing i n u hu huse
    exact ⟨n, value, hstp, hi, by rw [huse', huse], getElem?_of_prefix h.posts_prefix hpost,
      hval'.trans hval⟩
  | postReturned result =>
    cases result with
    | ok _ =>
      obtain ⟨n, value, hpost⟩ := hd
      exact ⟨n, value, getElem?_of_prefix h.posts_prefix hpost⟩
    | error value => exact hnpo hd
  | pollLoadHead => exact hnpol hd
  | pollLoadStamp head i =>
    obtain ⟨hn, n, hload, hi⟩ := hd
    exact ⟨hnpol hn, n, hload.mono hpls, hi⟩
  | pollCompareExchange head new i =>
    obtain ⟨hn, n, hload, hnew, hi, huse⟩ := hd
    refine ⟨hnpol hn, n, hload.mono hpls, hnew, hi, fun hlen => ?_⟩
    have hold : s.polls.length = n := by
      have := hload.2.1
      omega
    rw [h.full i (by rw [huse hold, hlen]), huse hold]
  | pollLoadTail head =>
    obtain ⟨hn, n, hload⟩ := hd
    exact ⟨hnpol hn, n, hload.mono hpls⟩
  | pollRead head i | pollReading head i =>
    obtain ⟨n, hhead, hi, huse, hpoll⟩ := hd
    exact ⟨n, hhead, hi, by rw [h.reading i n u hu huse, huse],
      getElem?_of_prefix h.polls_prefix hpoll⟩
  | pollStoreStamp head i msg =>
    obtain ⟨n, v, value, hhead, hi, huse, hpoll, hpost, hmsg⟩ := hd
    exact ⟨n, v, value, hhead, hi, by rw [h.reading i n u hu huse, huse],
      getElem?_of_prefix h.polls_prefix hpoll, getElem?_of_prefix h.posts_prefix hpost, hmsg⟩
  | pollReturned result =>
    cases result with
    | none => exact hnpol hd
    | some msg =>
      obtain ⟨n, v, value, hpoll, hpost, hmsg⟩ := hd
      exact ⟨n, v, value, getElem?_of_prefix h.polls_prefix hpoll,
        getElem?_of_prefix h.posts_prefix hpost, hmsg⟩
  | panicked reason => exact hd

/-! ### What a stamp tells about its slot -/

lemma SharedOk.mod_eq (hs : SharedOk use k s) (n : ℕ) :
    (use (q.slot n)).element % q.capacity = n % q.capacity := hs.element_mod _

lemma SharedOk.use_of_stamp_eq_tail (hs : SharedOk use k s)
    (hstp : q.encode s.posts.length = (s.memory.slots (q.slot s.posts.length)).stamp) :
    use (q.slot s.posts.length) = ⟨s.posts.length, .empty⟩ := by
  have hmod := hs.mod_eq s.posts.length
  have hslot := hs.slot_ok (q.slot s.posts.length)
  have hle := hs.posts_le
  have hge := hs.polls_le
  generalize use (q.slot s.posts.length) = u at hmod hslot
  obtain ⟨n, phase⟩ := u
  cases phase with
  | empty =>
    obtain ⟨_, h₁, h₂⟩ := hslot
    have hn : s.posts.length = n := eq_of_slot_eq hmod.symm h₁ (by omega)
    rw [hn]
  | writing u =>
    -- the previous element of the slot, one lap behind
    obtain ⟨h₀, h₁, h₂⟩ := hslot
    have hprev : n + q.capacity = s.posts.length :=
      (eq_of_slot_eq (by rw [add_mod_right, hmod]) (by omega) (by omega)).symm
    rw [h₀, ← hprev] at hstp
    exact absurd hstp.symm (q.encode_ne_encode_add_capacity n)
  | full | reading u =>
    rw [hslot.1] at hstp
    exact absurd hstp.symm (q.encode_add_one_ne hmod)

lemma SharedOk.use_of_stamp_eq_head (hs : SharedOk use k s)
    (hstp : q.encode s.polls.length + 1 = (s.memory.slots (q.slot s.polls.length)).stamp) :
    use (q.slot s.polls.length) = ⟨s.polls.length, .full⟩ := by
  have hmod := hs.mod_eq s.polls.length
  have hslot := hs.slot_ok (q.slot s.polls.length)
  have hle := hs.posts_le
  have hge := hs.polls_le
  have hper := q.capacity_lt_period
  generalize use (q.slot s.polls.length) = u at hmod hslot
  obtain ⟨n, phase⟩ := u
  cases phase with
  | empty | writing u =>
    rw [hslot.1] at hstp
    exact absurd hstp (q.encode_add_one_ne hmod.symm)
  | full =>
    obtain ⟨h₀, ⟨u, value, hpost, _⟩, h₁⟩ := hslot
    have hlt : n < s.posts.length := (List.getElem?_eq_some_iff.mp hpost).1
    rw [h₀] at hstp
    rw [q.encode_injective h₁ (by omega) ((BitVec.add_left_inj 1).mp hstp)]
  | reading u =>
    obtain ⟨h₀, _, h₁, h₂⟩ := hslot
    rw [h₀] at hstp
    have := q.encode_injective h₁.le (by omega) ((BitVec.add_left_inj 1).mp hstp).symm
    omega

/-! ### Moving a slot to its next phase -/

variable {i : Fin q.capacity}

private lemma slot_ne {m : ℕ} (h : n % q.capacity = i)
    (hne : i ≠ q.slot m) : n % q.capacity ≠ m % q.capacity :=
  fun heq => hne (Fin.ext (h.symm.trans heq))

variable {slot : Slot α} {u : Use}

lemma SlotOk.post {posts : List (ℕ × α)} {polls : List ℕ}
    (h : SlotOk q posts polls slot u) (hne : u.element % q.capacity ≠ posts.length % q.capacity)
    (x : ℕ × α) : SlotOk q (posts ++ [x]) polls slot u := by
  obtain ⟨n, phase⟩ := u
  have hpost : ∀ {t value}, posts[n]? = some (t, value) →
      (posts ++ [x])[n]? = some (t, value) := fun hp =>
    getElem?_of_prefix (prefix_append _ _) hp
  cases phase with
  | empty =>
    obtain ⟨h₀, h₁, h₂⟩ := h
    have hn : n ≠ posts.length := fun heq => hne (by rw [heq])
    exact ⟨h₀, by simp; omega, h₂⟩
  | writing t =>
    obtain ⟨h₀, h₁, h₂⟩ := h
    exact ⟨h₀, h₁, by simp; omega⟩
  | full =>
    obtain ⟨h₀, ⟨t, value, hp, hv⟩, h₁⟩ := h
    exact ⟨h₀, ⟨t, value, hpost hp, hv⟩, h₁⟩
  | reading t =>
    obtain ⟨h₀, ⟨t, value, hp, hv⟩, h₁, h₂⟩ := h
    have hn : n + q.capacity ≠ posts.length := fun heq => hne (by rw [← heq]; simp)
    exact ⟨h₀, ⟨t, value, hpost hp, hv⟩, h₁, by simp; omega⟩

lemma SlotOk.poll {posts : List (ℕ × α)} {polls : List ℕ}
    (h : SlotOk q posts polls slot u) (hne : u.element % q.capacity ≠ polls.length % q.capacity)
    (t : ℕ) : SlotOk q posts (polls ++ [t]) slot u := by
  obtain ⟨n, phase⟩ := u
  have hn : n ≠ polls.length := fun heq => hne (by rw [heq])
  cases phase with
  | empty =>
    obtain ⟨h₀, h₁, h₂⟩ := h
    exact ⟨h₀, h₁, by simp; omega⟩
  | writing t =>
    obtain ⟨h₀, h₁, h₂⟩ := h
    exact ⟨h₀, by simp; omega, h₂⟩
  | full =>
    obtain ⟨h₀, hp, h₁⟩ := h
    exact ⟨h₀, hp, by simp; omega⟩
  | reading t =>
    obtain ⟨h₀, hp, h₁, h₂⟩ := h
    exact ⟨h₀, hp, by simp; omega, h₂⟩

private lemma element_mod_update (hs : SharedOk use k s)
    (hu : u.element % q.capacity = i) (j : Fin q.capacity) :
    (update use i u j).element % q.capacity = j := by
  by_cases hj : j = i
  · subst hj
    rwa [update_self]
  · rw [update_of_ne hj]
    exact hs.element_mod j

lemma SharedOk.post (hs : SharedOk use k s) (ht : t < k) (hnew : t ∉ s.posts.map Prod.fst)
    (value : α) (huse : use (q.slot s.posts.length) = ⟨s.posts.length, .empty⟩) :
    SharedOk (update use (q.slot s.posts.length) ⟨s.posts.length, .writing t⟩) k
      { s with
        memory := { s.memory with tail := q.encode (s.posts.length + 1) }
        posts := s.posts ++ [(t, value)] } := by
  have hemp := hs.slot_ok (q.slot s.posts.length)
  rw [huse] at hemp
  obtain ⟨hstp, -, hroom⟩ := hemp
  have hle := hs.polls_le
  refine { hs with
    tail_eq := by simp
    polls_le := by simp; omega
    posts_le := by simp; omega
    element_mod := element_mod_update hs rfl
    slot_ok := fun i => ?_
    posts_nodup := by
      rw [map_append]
      exact hs.posts_nodup.append (nodup_singleton _) (by simpa using hnew)
    posts_lt := fun u hu => by
      rw [map_append, mem_append] at hu
      rcases hu with hu | hu
      · exact hs.posts_lt u hu
      · simp_all }
  by_cases hi : i = q.slot s.posts.length
  · subst hi
    rw [update_self]
    exact ⟨hstp, by omega, by simp⟩
  · rw [update_of_ne hi]
    exact (hs.slot_ok i).post (slot_ne (hs.element_mod i) hi) _

lemma SharedOk.poll (hs : SharedOk use k s) (ht : t < k) (hnew : t ∉ s.polls)
    (huse : use (q.slot s.polls.length) = ⟨s.polls.length, .full⟩) :
    SharedOk (update use (q.slot s.polls.length) ⟨s.polls.length, .reading t⟩) k
      { s with
        memory := { s.memory with head := q.encode (s.polls.length + 1) }
        polls := s.polls ++ [t] } := by
  have hfull := hs.slot_ok (q.slot s.polls.length)
  rw [huse] at hfull
  obtain ⟨hstp, ⟨u, value, hpost, hval⟩, -⟩ := hfull
  have hlt : s.polls.length < s.posts.length := (List.getElem?_eq_some_iff.mp hpost).1
  have hle := hs.posts_le
  refine { hs with
    head_eq := by simp
    polls_le := by simp; omega
    posts_le := by simp; omega
    element_mod := element_mod_update hs rfl
    slot_ok := fun i => ?_
    polls_nodup := hs.polls_nodup.append (nodup_singleton _) (by simpa using hnew)
    polls_lt := by simpa [or_imp, forall_and] using ⟨hs.polls_lt, ht⟩ }
  by_cases hi : i = q.slot s.polls.length
  · subst hi
    rw [update_self]
    exact ⟨hstp, ⟨u, value, hpost, hval⟩, by simp, hle⟩
  · rw [update_of_ne hi]
    exact (hs.slot_ok i).poll (slot_ne (hs.element_mod i) hi) _

lemma SharedOk.store (hs : SharedOk use k s)
    (hu : u.element % q.capacity = i) (hslot : SlotOk q s.posts s.polls slot u) :
    SharedOk (update use i u) k
      { s with memory := { s.memory with slots := update s.memory.slots i slot } } := by
  refine { hs with
    element_mod := element_mod_update hs hu
    slot_ok := fun j => ?_ }
  by_cases hj : j = i
  · subst hj
    simpa using hslot
  · simpa [update_of_ne hj] using hs.slot_ok j

lemma Frame.update (u : Use) (hpsts : s.posts <+: s'.posts) (hpls : s.polls <+: s'.polls)
    (hpostsMem : ∀ v ≠ t, v ∈ s'.posts.map Prod.fst → v ∈ s.posts.map Prod.fst)
    (hpollsMem : ∀ v ≠ t, v ∈ s'.polls → v ∈ s.polls)
    (hslo : ∀ j ≠ i, s'.memory.slots j = s.memory.slots j)
    (hemp : use i ≠ ⟨s'.posts.length, .empty⟩) (hfull : use i ≠ ⟨s'.polls.length, .full⟩)
    (hown : ∀ n, ∀ v ≠ t, use i ≠ ⟨n, .writing v⟩ ∧ use i ≠ ⟨n, .reading v⟩) :
    Frame t use s (update use i u) s' where
  posts_prefix := hpsts
  polls_prefix := hpls
  posts_mem := hpostsMem
  polls_mem := hpollsMem
  empty := fun j hj => update_of_ne (by rintro rfl; exact hemp hj) _ _
  full := fun j hj => update_of_ne (by rintro rfl; exact hfull hj) _ _
  writing := fun j n v hv hj => by
    have hne : j ≠ i := by rintro rfl; exact (hown n v hv).1 hj
    exact ⟨update_of_ne hne _ _, by rw [hslo j hne]⟩
  reading := fun j n v hv hj =>
    update_of_ne (by rintro rfl; exact (hown n v hv).2 hj) _ _

lemma Frame.store (slot : Slot α) (u : Use)
    (hown : use i = ⟨n, .writing t⟩ ∨ use i = ⟨n, .reading t⟩) :
    Frame t use s (Function.update use i u)
      { s with memory := { s.memory with slots := Function.update s.memory.slots i slot } } := by
  apply Frame.update
  · exact prefix_refl _
  · exact prefix_refl _
  · exact fun _ _ h => h
  · exact fun _ _ h => h
  · exact fun j hj => update_of_ne hj _ _
  · rcases hown with h | h <;> simp [h]
  · rcases hown with h | h <;> simp [h]
  · rcases hown with h | h <;> simp +contextual [h, eq_comm]

/-! ### One step -/

def Kept (use : Fin q.capacity → Use) (k t : ℕ) (s : Shared q α) (p₀ h₀ : ℕ) (s' : Shared q α)
    (c : Call q α) : Prop :=
  ∃ use', SharedOk use' k s' ∧ CallOk use' s' t ⟨c, p₀, h₀⟩ ∧ Frame t use s use' s'

variable {p₀ h₀ : ℕ}

variable {c : Call q α}

lemma Kept.read (hs : SharedOk use k s) (hc : CallOk use s t ⟨c, p₀, h₀⟩) :
    Kept use k t s p₀ h₀ s c :=
  ⟨use, hs, hc, .refl t use s⟩

lemma Kept.postLoop (hs : SharedOk use k s) (hst : p₀ ≤ s.posts.length)
    (hn : t ∉ s.posts.map Prod.fst) (value : α) :
    Kept use k t s p₀ h₀ s (Queue.postLoop value s.memory.tail) := by
  rw [hs.tail_eq, postLoop_encode]
  exact .read hs ⟨hn, _, ⟨hst, le_rfl, rfl⟩, rfl, rfl⟩

lemma Kept.pollLoop (hs : SharedOk use k s) (hst : h₀ ≤ s.polls.length)
    (hn : t ∉ s.polls) : Kept use k t s p₀ h₀ s (Queue.pollLoop s.memory.head) := by
  rw [hs.head_eq, pollLoop_encode]
  exact .read hs ⟨hn, _, ⟨hst, le_rfl, rfl⟩, rfl⟩

lemma Loaded.eq_of_encode_eq {atStart length : ℕ} {w : BitVec 64} (h : Loaded q atStart length n w)
    (hwrap : length - atStart < q.period) (heq : q.encode length = w) : n = length := by
  obtain ⟨hge, hle, rfl⟩ := h
  exact q.encode_injective hle (by omega) heq.symm

lemma Kept.post (hs : SharedOk use k s) (ht : t < k) {value : α} {tail newTail : BitVec 64}
    (hc : CallOk use s t ⟨.postCompareExchange value tail newTail i, p₀, h₀⟩)
    (hwrap : s.posts.length - p₀ < q.period) (htail : s.memory.tail = tail) :
    Kept use k t s p₀ h₀
      { s with
        memory := { s.memory with tail := newTail }
        posts := s.posts ++ [(t, value)] } (.postWrite value tail i) := by
  obtain ⟨hnew, n, hload, rfl, rfl, huse⟩ := hc
  obtain rfl := hload.eq_of_encode_eq hwrap (hs.tail_eq ▸ htail)
  refine ⟨_, hs.post ht hnew value (huse rfl), ?_, ?_⟩
  · exact ⟨_, hload.2.2, rfl, by simp, by simp⟩
  · apply Frame.update
    · exact prefix_append _ _
    · exact prefix_refl _
    · intro u hu hmem
      simpa [hu] using hmem
    · exact fun _ _ h => h
    · exact fun _ _ => rfl
    · simp [huse rfl]
    · simp [huse rfl]
    · simp [huse rfl]

lemma Kept.poll (hs : SharedOk use k s) (ht : t < k) {head new : BitVec 64}
    (hc : CallOk use s t ⟨.pollCompareExchange head new i, p₀, h₀⟩)
    (hwrap : s.polls.length - h₀ < q.period) (hhead : s.memory.head = head) :
    Kept use k t s p₀ h₀
      { s with memory := { s.memory with head := new }, polls := s.polls ++ [t] }
      (.pollRead head i) := by
  obtain ⟨hnew, n, hload, rfl, rfl, huse⟩ := hc
  obtain rfl := hload.eq_of_encode_eq hwrap (hs.head_eq ▸ hhead)
  refine ⟨_, hs.poll ht hnew (huse rfl), ?_, ?_⟩
  · exact ⟨_, hload.2.2, rfl, by simp, by simp⟩
  · apply Frame.update
    · exact prefix_refl _
    · exact prefix_append _ _
    · exact fun _ _ h => h
    · intro u hu hmem
      simpa [hu] using hmem
    · exact fun _ _ => rfl
    · simp [huse rfl]
    · simp [huse rfl]
    · simp [huse rfl]

lemma Kept.store (hs : SharedOk use k s)
    (hown : use i = ⟨n, .writing t⟩ ∨ use i = ⟨n, .reading t⟩)
    (hu : u.element % q.capacity = i) (hslot : SlotOk q s.posts s.polls slot u)
    (hc : CallOk (update use i u)
      { s with memory := { s.memory with slots := update s.memory.slots i slot } } t ⟨c, p₀, h₀⟩) :
    Kept use k t s p₀ h₀
      { s with memory := { s.memory with slots := update s.memory.slots i slot } } c :=
  ⟨_, hs.store hu hslot, hc, .store slot u hown⟩

lemma Kept.step (hs : SharedOk use k s) (ht : t < k) (hwrap : s.NoWrap ⟨c, p₀, h₀⟩)
    (hst : Started s t ⟨c, p₀, h₀⟩) (hc : CallOk use s t ⟨c, p₀, h₀⟩) (spurious : Bool) :
    Kept use k t s p₀ h₀ (s.record t c (c.step spurious s.memory))
      (c.step spurious s.memory).2 := by
  have hpsts : p₀ ≤ s.posts.length := hst.posts_le
  have hpls : h₀ ≤ s.polls.length := hst.polls_le
  cases c with
  | postLoadTail value => exact .postLoop hs hpsts hc value
  | postLoadStamp value tail newTail i =>
    obtain ⟨hn, n, hload, hnew, rfl⟩ := hc
    obtain rfl := hload.2.2
    rw [step]
    split_ifs with hstp
    · refine .read hs ⟨hn, n, hload, hnew, rfl, ?_⟩
      rintro rfl
      exact hs.use_of_stamp_eq_tail hstp
    · simp only [orPanic, checkedAddWord_encode]
      split_ifs
      · exact .read hs ⟨hn, n, hload⟩
      · exact .read hs hn
  | postCompareExchange value tail newTail i =>
    rw [step]
    split_ifs with hcas
    · exact .post hs ht hc hwrap.1 hcas.1
    · have hloop : Kept use k t s p₀ h₀ s _ := .postLoop hs hpsts hc.1 value
      rw [hs.tail_eq, postLoop_encode] at hloop ⊢
      exact hloop
  | postLoadHead value tail | pollLoadTail head =>
    rw [step]
    split_ifs
    · exact .read hs hc.1
    · exact .read hs hc.1
  | postWrite value tail i =>
    obtain ⟨n, rfl, rfl, huse, hpost⟩ := hc
    have hslot := hs.slot_ok (q.slot n)
    rw [huse] at hslot
    exact .store hs (u := ⟨n, .writing t⟩) (.inl huse) rfl hslot
      ⟨n, rfl, rfl, update_self _ _ _, hpost⟩
  | postWriting value tail i =>
    obtain ⟨n, rfl, rfl, huse, hpost⟩ := hc
    have hslot := hs.slot_ok (q.slot n)
    rw [huse] at hslot
    simp only [step, orPanic, checkedAddWord_encode]
    exact .store hs (u := ⟨n, .writing t⟩) (.inl huse) rfl hslot
      ⟨n, value, rfl, rfl, update_self _ _ _, hpost, by simp⟩
  | postStoreStamp stamp i =>
    obtain ⟨n, value, rfl, rfl, huse, hpost, hval⟩ := hc
    have hslot := hs.slot_ok (q.slot n)
    rw [huse] at hslot
    exact .store hs (u := ⟨n, .full⟩) (.inl huse) rfl ⟨rfl, ⟨t, value, hpost, hval⟩, hslot.2.1⟩
      ⟨n, value, hpost⟩
  | postReturned result | pollRead head i | pollReturned result => exact .read hs hc
  | pollLoadHead => exact .pollLoop hs hpls hc
  | pollLoadStamp head i =>
    obtain ⟨hn, n, hload, rfl⟩ := hc
    obtain rfl := hload.2.2
    simp only [step, orPanic, checkedAddWord_encode, advance_encode]
    split_ifs with hstp
    · refine .read hs ⟨hn, n, hload, rfl, rfl, ?_⟩
      rintro rfl
      exact hs.use_of_stamp_eq_head hstp
    · exact .read hs ⟨hn, n, hload⟩
    · exact .read hs hn
  | pollCompareExchange head new i =>
    rw [step]
    split_ifs with hcas
    · exact .poll hs ht hc hwrap.2 hcas.1
    · have hloop : Kept use k t s p₀ h₀ s _ := .pollLoop hs hpls hc.1
      rw [hs.head_eq, pollLoop_encode] at hloop ⊢
      exact hloop
  | pollReading head i =>
    obtain ⟨n, rfl, rfl, huse, hpoll⟩ := hc
    have hslot := hs.slot_ok (q.slot n)
    rw [huse] at hslot
    obtain ⟨-, ⟨u, value, hpost, hval⟩, -⟩ := hslot
    exact .read hs ⟨n, u, value, rfl, rfl, huse, hpoll, hpost, hval⟩
  | pollStoreStamp head i msg =>
    -- the slot now waits for the element of the next lap
    obtain ⟨n, u, value, rfl, rfl, huse, hpoll, hpost, rfl⟩ := hc
    have hslot := hs.slot_ok (q.slot n)
    rw [huse] at hslot
    obtain ⟨-, -, hlt, hle⟩ := hslot
    refine .store hs (u := ⟨n + q.capacity, .empty⟩) (.inr huse) (add_mod_right _ _) ?_
      ⟨n, u, value, hpoll, hpost, rfl⟩
    exact ⟨(q.encode_add_capacity n).symm, hle, by omega⟩
  | panicked reason => exact hc.elim

lemma Call.isPost_step {spurious : Bool} {m : Memory q α}
    (h : ∀ reason, (c.step spurious m).2 ≠ .panicked reason) :
    (c.step spurious m).2.IsPost ↔ c.IsPost := by
  cases c <;> simp only [step, orPanic, Queue.postLoop, Queue.pollLoop] at h ⊢ <;>
    (repeat' split) <;> simp_all [Call.IsPost]

lemma Shared.polls_record (hc : c.IsPost) (r : Memory q α × Call q α) :
    (s.record t c r).polls = s.polls := by
  obtain ⟨m, after⟩ := r
  cases c <;> cases after <;> simp_all [record, Call.IsPost]

lemma Shared.posts_record (hc : ¬ c.IsPost) (r : Memory q α × Call q α) :
    (s.record t c r).posts = s.posts := by
  obtain ⟨m, after⟩ := r
  cases c <;> cases after <;> simp_all [record, Call.IsPost]

lemma Frame.started (h : Frame t use s use' s') {u : ℕ} (hu : u ≠ t) {d : Caller q α}
    (hd : Started s u d) : Started s' u d where
  posts_le := hd.posts_le.trans h.posts_prefix.length_le
  polls_le := hd.polls_le.trans h.polls_prefix.length_le
  not_mem_polls := fun hpost hmem => hd.not_mem_polls hpost (h.polls_mem u hu hmem)
  not_mem_posts := fun hpoll hmem => hd.not_mem_posts hpoll (h.posts_mem u hu hmem)

/-! ### All interleavings -/

lemma reachable_asserted {cfg : Config (Shared q α) (Caller q α)}
    (h : (program q α).Reachable (Shared.initialized q α) cfg) :
    ∃ use, SharedOk use cfg.calls.length cfg.shared ∧
      Program.Asserted (fun use s t c => Started s t c ∧ CallOk use s t c) use cfg := by
  refine h.invariant SharedOk _ ⟨fun i => ⟨i, .empty⟩, ?_⟩ ?_ ?_
  · refine ⟨?_, ?_, ?_, ?_, ?_, ?_, ?_, ?_, ?_, ?_⟩ <;>
      simp [Shared.initialized, Queue.initialized, SlotOk, encode, mod_eq_of_lt,
        div_eq_of_lt]
  · rintro use k s ⟨call, p₀, h₀⟩ hs ⟨rfl, rfl, hcall⟩
    have hpsts : k ∉ s.posts.map Prod.fst := fun hmem => (hs.posts_lt k hmem).false
    have hpls : k ∉ s.polls := fun hmem => (hs.polls_lt k hmem).false
    refine ⟨{ hs with
      posts_lt := fun u hu => (hs.posts_lt u hu).trans (lt_add_one k)
      polls_lt := fun u hu => (hs.polls_lt u hu).trans (lt_add_one k) },
      ⟨le_rfl, le_rfl, fun _ => hpls, fun _ => hpsts⟩, ?_⟩
    rcases hcall with rfl | ⟨value, rfl⟩
    · exact hpls
    · exact hpsts
  · rintro use k s t ⟨c, p₀, h₀⟩ s' c' ht hs ⟨hst, hc⟩ ⟨hwrap, spurious, rfl, rfl⟩
    obtain ⟨use', hs', hc', hfr⟩ := Kept.step hs ht hwrap hst hc spurious
    refine ⟨use', hs', ⟨?_, hc'⟩, fun u d hu hd => ⟨hfr.started hu hd.1, hfr.callOk hu hd.2⟩⟩
    have hkind : (c.step spurious s.memory).2.IsPost ↔ c.IsPost :=
      isPost_step fun reason hpan => by
        rw [hpan] at hc'
        exact hc'
    refine ⟨hst.posts_le.trans hfr.posts_prefix.length_le,
      hst.polls_le.trans hfr.polls_prefix.length_le, fun hpost => ?_, fun hpoll => ?_⟩
    · rw [hkind] at hpost
      rw [Shared.polls_record hpost]
      exact hst.not_mem_polls hpost
    · rw [hkind] at hpoll
      rw [Shared.posts_record hpoll]
      exact hst.not_mem_posts hpoll

lemma CallOk.use_of_writes {c : Caller q α} (hc : CallOk use s t c)
    (h : c.call.writes = some i) : ∃ n, use i = ⟨n, .writing t⟩ := by
  obtain ⟨c, p₀, h₀⟩ := c
  cases c <;> simp only [writes, Option.some.injEq, reduceCtorEq] at h
  case postWrite =>
    obtain ⟨n, -, -, huse, -⟩ := hc
    exact ⟨n, h ▸ huse⟩
  case postWriting =>
    obtain ⟨n, -, -, huse, -⟩ := hc
    exact ⟨n, h ▸ huse⟩
  case postStoreStamp =>
    obtain ⟨n, _, -, -, huse, -⟩ := hc
    exact ⟨n, h ▸ huse⟩

lemma CallOk.use_of_reads {c : Caller q α} (hc : CallOk use s t c)
    (h : c.call.reads = some i) : ∃ n, use i = ⟨n, .reading t⟩ ∧ s.polls[n]? = some t := by
  obtain ⟨c, p₀, h₀⟩ := c
  cases c <;> simp only [reads, Option.some.injEq, reduceCtorEq] at h
  case pollRead =>
    obtain ⟨n, -, -, huse, hpoll⟩ := hc
    exact ⟨n, h ▸ huse, hpoll⟩
  case pollReading =>
    obtain ⟨n, -, -, huse, hpoll⟩ := hc
    exact ⟨n, h ▸ huse, hpoll⟩
  case pollStoreStamp =>
    obtain ⟨n, _, _, -, -, huse, hpoll, -⟩ := hc
    exact ⟨n, h ▸ huse, hpoll⟩

lemma CallOk.of_mem_posts {c : Caller q α} (hst : Started s t c) (hc : CallOk use s t c)
    (h : t ∈ s.posts.map Prod.fst) :
    c.call = .postReturned (.ok ()) ∨ ∃ i, c.call.writes = some i := by
  have hkind : c.call.IsPost := not_imp_not.mp hst.not_mem_posts h
  obtain ⟨c, p₀, h₀⟩ := c
  cases c
  case postLoadTail => exact absurd h hc
  case postLoadStamp => exact absurd h hc.1
  case postCompareExchange => exact absurd h hc.1
  case postLoadHead => exact absurd h hc.1
  case postWrite i => exact .inr ⟨i, rfl⟩
  case postWriting i => exact .inr ⟨i, rfl⟩
  case postStoreStamp i => exact .inr ⟨i, rfl⟩
  case postReturned result =>
    cases result with
    | ok _ => exact .inl rfl
    | error value => exact absurd h hc
  all_goals exact hkind.elim

lemma CallOk.of_mem_polls {c : Caller q α} (hs : SharedOk use k s) (hst : Started s t c)
    (hc : CallOk use s t c) (h : s.polls[n]? = some t) : ∃ u value,
      s.posts[n]? = some (u, value) ∧
      (c.call = .pollReturned (some (some value)) ∨ ∃ i, c.call.reads = some i) := by
  have hmem : t ∈ s.polls := mem_of_getElem? h
  have hkind : ¬ c.call.IsPost := fun hpost => hst.not_mem_polls hpost hmem
  have hn : n < s.polls.length := (List.getElem?_eq_some_iff.mp h).1
  obtain ⟨⟨u, value⟩, hpost⟩ : ∃ x, s.posts[n]? = some x :=
    ⟨_, List.getElem?_eq_getElem (hn.trans_le hs.polls_le)⟩
  refine ⟨u, value, hpost, ?_⟩
  obtain ⟨c, p₀, h₀⟩ := c
  cases c
  case pollLoadHead => exact absurd hmem hc
  case pollLoadStamp => exact absurd hmem hc.1
  case pollCompareExchange => exact absurd hmem hc.1
  case pollLoadTail => exact absurd hmem hc.1
  case pollRead i => exact .inr ⟨i, rfl⟩
  case pollReading i => exact .inr ⟨i, rfl⟩
  case pollStoreStamp i _ => exact .inr ⟨i, rfl⟩
  case pollReturned result =>
    cases result with
    | none => exact absurd hmem hc
    | some msg =>
      obtain ⟨n', u', value', hpoll', hpost', rfl⟩ := hc
      -- a call takes one element only
      obtain rfl : n' = n := ((List.getElem?_inj hn hs.polls_nodup).mp (h.trans hpoll'.symm)).symm
      rw [hpost] at hpost'
      cases hpost'
      exact .inl rfl
  case panicked => exact hc.elim
  all_goals exact absurd trivial hkind

/-- Any interleaving of `post` and `poll` calls delivers each element once, in the order of the
compare-exchanges, and lets no two calls at one slot. -/
theorem reachable_linearized {cfg : Config (Shared q α) (Caller q α)}
    (h : (program q α).Reachable (initialized q α) cfg) :
    Linearized cfg.shared cfg.calls := by
  obtain ⟨use, hs, hcs⟩ := reachable_asserted h
  have hcall : ∀ t < cfg.calls.length, ∃ c, cfg.calls[t]? = some c := fun t ht =>
    ⟨_, List.getElem?_eq_getElem ht⟩
  refine ⟨hs.posts_nodup, hs.polls_nodup, hs.polls_le, hs.posts_le, ?_, ?_, ?_, ?_, ?_, ?_, ?_,
    ?_, ?_, ?_⟩
  · intro t value hmem
    have hmem : t ∈ cfg.shared.posts.map Prod.fst := mem_map_of_mem hmem
    obtain ⟨c, hc⟩ := hcall t (hs.posts_lt t hmem)
    exact ⟨c, hc, CallOk.of_mem_posts (hcs t c hc).1 (hcs t c hc).2 hmem⟩
  · rintro t ⟨c, p₀, h₀⟩ hc rfl
    obtain ⟨n, value, hpost⟩ := (hcs t _ hc).2
    exact mem_map_of_mem (mem_of_getElem? hpost)
  · rintro t ⟨c, p₀, h₀⟩ value hc rfl
    exact (hcs t _ hc).2
  · intro n t hpoll
    obtain ⟨c, hc⟩ := hcall t (hs.polls_lt t (mem_of_getElem? hpoll))
    obtain ⟨u, value, hpost, hret⟩ :=
      CallOk.of_mem_polls hs (hcs t c hc).1 (hcs t c hc).2 hpoll
    exact ⟨c, u, value, hc, hpost, hret⟩
  · rintro t ⟨c, p₀, h₀⟩ msg hc rfl
    exact (hcs t _ hc).2
  · rintro t ⟨c, p₀, h₀⟩ hc rfl
    exact (hcs t _ hc).2
  · intro t u c d i hc hd hne hw
    obtain ⟨n, huse⟩ := (hcs t c hc).2.use_of_writes hw
    refine ⟨fun hw' => ?_, fun hr' => ?_⟩
    · obtain ⟨n', huse'⟩ := (hcs u d hd).2.use_of_writes hw'
      simp_all
    · obtain ⟨n', huse', -⟩ := (hcs u d hd).2.use_of_reads hr'
      simp_all
  · intro t u c d i hc hd hne hr hr'
    obtain ⟨n, huse, -⟩ := (hcs t c hc).2.use_of_reads hr
    obtain ⟨n', huse', -⟩ := (hcs u d hd).2.use_of_reads hr'
    simp_all
  · intro t c i hc hr
    obtain ⟨n, huse, hpoll⟩ := (hcs t c hc).2.use_of_reads hr
    have hslot := hs.slot_ok i
    rw [huse] at hslot
    obtain ⟨-, ⟨u, value, hpost, hval⟩, -⟩ := hslot
    exact ⟨n, u, value, hpoll, hpost, hval⟩
  · rintro t ⟨c, p₀, h₀⟩ reason hc rfl
    exact (hcs t _ hc).2

lemma step_of_le {c : Caller q α} (h : s.posts.length ≤ q.capacity ∧ s.polls.length ≤ q.capacity) :
    (program q α).step t s c (s.record t c.call (c.call.step false s.memory))
      { c with call := (c.call.step false s.memory).2 } := by
  have := q.capacity_lt_period
  exact ⟨⟨by omega, by omega⟩, false, rfl, rfl⟩

/-- A queue of two slots, on which one call posts `7` and another one takes it. -/
theorem reachable_linearized_post_poll :
    ∃ cfg : Config (Shared twoSlots ℕ) (Caller twoSlots ℕ),
      (program twoSlots ℕ).Reachable (initialized twoSlots ℕ) cfg ∧
      cfg.shared.posts = [(0, 7)] ∧ cfg.shared.polls = [1] ∧
      Linearized cfg.shared cfg.calls := by
  have hrun : (program twoSlots ℕ).Reachable (initialized twoSlots ℕ) _ :=
    Relation.ReflTransGen.refl
      |>.tail (.start (c := ⟨.postLoadTail 7, 0, 0⟩) ⟨rfl, rfl, .inr ⟨7, rfl⟩⟩)
      |>.tail (.call (t := 0) rfl (step_of_le (by decide)))
      |>.tail (.call (t := 0) rfl (step_of_le (by decide)))
      |>.tail (.call (t := 0) rfl (step_of_le (by decide)))
      |>.tail (.call (t := 0) rfl (step_of_le (by decide)))
      |>.tail (.call (t := 0) rfl (step_of_le (by decide)))
      |>.tail (.call (t := 0) rfl (step_of_le (by decide)))
      |>.tail (.start (c := ⟨.pollLoadHead, 1, 0⟩) ⟨rfl, rfl, .inl rfl⟩)
      |>.tail (.call (t := 1) rfl (step_of_le (by decide)))
      |>.tail (.call (t := 1) rfl (step_of_le (by decide)))
      |>.tail (.call (t := 1) rfl (step_of_le (by decide)))
      |>.tail (.call (t := 1) rfl (step_of_le (by decide)))
      |>.tail (.call (t := 1) rfl (step_of_le (by decide)))
      |>.tail (.call (t := 1) rfl (step_of_le (by decide)))
  exact ⟨_, hrun, by decide, by decide, reachable_linearized hrun⟩

end Kernel.Kapi
