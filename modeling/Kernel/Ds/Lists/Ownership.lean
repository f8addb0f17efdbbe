import Kernel.Core.Interleaving
import Kernel.Core.Path
import Kernel.Ds.Lists.Basic

/-!
# Who owns a node

Each box belongs to one place: the list, the pool, or one call in flight.
-/

namespace Kernel.Ds

open Core ConcurrentLinkedList Call

variable {T : Type}

/-! ### The places of a box -/

namespace Call

def unpublished (a : ℕ) : Call T → ℕ
  | .pushLoad n | .pushStore n _ | .pushExchange n _ => if n = a then 1 else 0
  | _ => 0

def kept (a : ℕ) : Call T → ℕ
  | .deferLoad n _ | .deferAllocate n _ | .deferLoadPool _ n _ | .deferStore _ _ n _
  | .deferExchange _ _ n _ => if n = a then 1 else 0
  | _ => 0

def doomed (a : ℕ) : Call T → ℕ
  | .deferFree n _ | .poolFree _ n => if n = a then 1 else 0
  | _ => 0

def closed (a : ℕ) (c : Call T) : ℕ := c.unpublished a + c.doomed a

def held (a : ℕ) (c : Call T) : ℕ := c.closed a + c.kept a

def heldPool (b : ℕ) : Call T → ℕ
  | .deferLoadPool n _ _ | .deferStore n _ _ _ | .deferExchange n _ _ _ | .poolFree n _ =>
    if n = b then 1 else 0
  | _ => 0

def reading : Call T → ℕ
  | .iterLoad | .iterating _ _ => 1
  | _ => 0

def draining : Call T → ℕ
  | .poolLoad | .poolHead _ | .poolExchange _ _ | .poolFree _ _ => 1
  | _ => 0

def removing : Call T → ℕ
  | .removeLoad _ | .removeHead _ _ | .removeHeadExchange _ _ _ | .removeRest _
  | .removeScan _ _ _ | .removeExchange _ _ _ _ | .removeReload _ _ | .deferLoad _ _
  | .deferFree _ _ | .deferAllocate _ _ | .deferLoadPool _ _ _ | .deferStore _ _ _ _
  | .deferExchange _ _ _ _ => 1
  | _ => 0

end Call

def CallOk (s : ConcurrentLinkedList T) : Call T → Prop
  | .pushExchange newNode currentHead => s.next newNode = some currentHead
  | .deferLoadPool newNode node _ | .deferStore newNode _ node _ =>
    (s.pool newNode).map Node.data = some node
  | .deferExchange newNode currentHead node _ => s.pool newNode = some ⟨node, currentHead⟩
  | .poolExchange headPtr next => s.pendingDeletion = headPtr → s.poolNext headPtr = some next
  | _ => True

def IterOk (s : ConcurrentLinkedList T) (cs : List (Call T)) : Call T → Prop
  | .iterating current _ => ∃ zs, Path s.next current zs 0 ∧ ∀ z ∈ zs, total (closed z) cs = 0
  | _ => True

structure Owned (s : ConcurrentLinkedList T) (cs : List (Call T)) (xs : List ℕ)
    (qs : List (ℕ × ℕ)) : Prop where
  null : s.nodes 0 = none
  path : Path s.next s.head xs 0
  poolNull : s.pool 0 = none
  poolPath : Path s.poolNext s.pendingDeletion (qs.map Prod.fst) 0
  poolData : ∀ q ∈ qs, (s.pool q.1).map Node.data = some q.2
  places : ∀ a, xs.count a + (qs.map Prod.snd).count a + total (held a) cs =
    (s.nodes a).isSome.toNat
  poolPlaces : ∀ b, (qs.map Prod.fst).count b + total (heldPool b) cs =
    (s.pool b).isSome.toNat
  readers : s.readers = total reading cs
  drain_le : total draining cs ≤ 1
  drain_alone : total draining cs ≠ 0 → s.readers = 0
  callOk : ∀ (t : ℕ) (c : Call T), cs[t]? = some c → CallOk s c
  iterOk : ∀ (t : ℕ) (c : Call T), cs[t]? = some c → IterOk s cs c

def Unlinks (s : ConcurrentLinkedList T) : Call T → Prop
  | .removeHeadExchange _ headPtr next => s.head = headPtr → s.next headPtr = some next
  | .removeExchange _ .head current next => s.head = current → s.next current = some next
  | .removeExchange _ (.next a) current next =>
    s.next a ≠ none ∧
      (s.next a = some current → Leads s.next s.head a ∧ s.next current = some next)
  | _ => True

def Undisturbed (s : ConcurrentLinkedList T) (cs : List (Call T)) : Call T → Prop
  | .iter => total draining cs = 0
  | .deferExchange _ currentHead _ _ => s.pendingDeletion = currentHead → total draining cs = 0
  | _ => True

/-! ### Reading off the places -/

namespace Owned

variable {s s' : ConcurrentLinkedList T} {cs : List (Call T)} {xs xs' : List ℕ}
  {qs qs' : List (ℕ × ℕ)} {t u a b : ℕ} {c c' d : Call T}

lemma next_zero (h : Owned s cs xs qs) : s.next 0 = none := by
  simp [next, h.null]

lemma isSome_next (s : ConcurrentLinkedList T) (a : ℕ) : (s.next a).isSome = (s.nodes a).isSome :=
  Option.isSome_map

lemma isSome_of_toNat {α : Type} {o : Option α} (h : 0 < o.isSome.toNat) : o.isSome := by
  cases o with
  | none => exact absurd h (lt_irrefl 0)
  | some => rfl

variable (h : Owned s cs xs qs)

include h

lemma places_le (a : ℕ) :
    xs.count a + (qs.map Prod.snd).count a + total (held a) cs ≤ 1 := by
  rw [h.places]
  exact Bool.toNat_le _

lemma held_of_held (htu : u ≠ t) (hc : cs[t]? = some c) (hd : cs[u]? = some d) (ha : 0 < d.held a) :
    (s.nodes a).isSome ∧ xs.count a + c.held a = 0 := by
  have hle := h.places_le a
  have hsum := add_le_total (f := held a) htu hd hc
  have hpla := h.places a
  exact ⟨isSome_of_toNat (by omega), by omega⟩

lemma heldPool_of_heldPool (htu : u ≠ t) (hc : cs[t]? = some c)
    (hd : cs[u]? = some d) (hb : 0 < d.heldPool b) :
    (s.pool b).isSome ∧ c.heldPool b = 0 := by
  have hsum := add_le_total (f := heldPool b) htu hd hc
  have hpla := h.poolPlaces b
  have hle := Bool.toNat_le (s.pool b).isSome
  exact ⟨isSome_of_toNat (by omega), by omega⟩

/-! ### What a step leaves to the other calls -/

lemma callOk_frame (hc : cs[t]? = some c)
    (hnds : ∀ a, (s.nodes a).isSome → xs.count a + c.held a = 0 → s'.nodes a = s.nodes a)
    (hpool : ∀ b, (s.pool b).isSome → c.heldPool b = 0 → s'.pool b = s.pool b)
    (hpend : s'.pendingDeletion = s.pendingDeletion ∨ total draining cs = c.draining) :
    ∀ (u : ℕ) (d : Call T), u ≠ t → cs[u]? = some d → CallOk s' d := by
  intro u d htu hd
  have hok := h.callOk u d hd
  have hnode : ∀ a, 0 < d.held a → s'.nodes a = s.nodes a := by
    intro a ha
    obtain ⟨hsome, hzero⟩ := h.held_of_held htu hc hd ha
    exact hnds a hsome hzero
  have hbox : ∀ b, 0 < d.heldPool b → s'.pool b = s.pool b := by
    intro b hb
    obtain ⟨hsome, hzero⟩ := h.heldPool_of_heldPool htu hc hd hb
    exact hpool b hsome hzero
  cases d with
  | pushExchange n k =>
    simp only [CallOk, next] at hok ⊢
    rw [hnode n (by simp [held, closed, unpublished])]
    exact hok
  | deferLoadPool n | deferStore n | deferExchange n =>
    simp only [CallOk] at hok ⊢
    rw [hbox n (by simp [heldPool])]
    exact hok
  | poolExchange p n =>
    intro hp
    rcases hpend with heq | hdr
    · -- the head of the pool belongs to the pool, so the step did not write to it
      have hnext := hok (heq ▸ hp)
      have hpath := h.poolPath
      rw [← heq, hp] at hpath
      have hmem : p ∈ qs.map Prod.fst := by
        cases hqs : qs.map Prod.fst with
        | nil =>
          rw [hqs] at hpath
          cases hpath
          simp [poolNext, h.poolNull] at hnext
        | cons q rest =>
          rw [hqs] at hpath
          exact hpath.1 ▸ List.mem_cons_self
      have hcnt := List.count_pos_iff.mpr hmem
      have hpla := h.poolPlaces p
      have hle := Bool.toNat_le (s.pool p).isSome
      have hheld := single_le_total (f := heldPool p) hc
      have hsome : (s.pool p).isSome := by
        rw [← Option.isSome_map (f := Node.next)]
        exact Option.isSome_of_mem hnext
      rw [poolNext, hpool p hsome (by omega)]
      exact hnext
    · have hsum := add_le_total (f := draining) htu hd hc
      simp only [draining] at hsum hdr
      omega
  | _ => trivial

lemma iterOk_frame (hc : cs[t]? = some c)
    (hnds : ∀ a, (s.nodes a).isSome → c.closed a = 0 → s'.nodes a = s.nodes a)
    (hclo : ∀ a, (s.nodes a).isSome → c.closed a = 0 → c'.closed a = 0) :
    ∀ (u : ℕ) (d : Call T), u ≠ t → cs[u]? = some d → IterOk s' (cs.set t c') d := by
  intro u d _ hd
  have hok := h.iterOk u d hd
  cases d with
  | iterating current ys =>
    obtain ⟨zs, hpath, hzs⟩ := hok
    have hown : ∀ z ∈ zs, (s.nodes z).isSome ∧ c.closed z = 0 := by
      intro z hz
      have hsome := hpath.isSome hz
      have hle := single_le_total (f := closed z) hc
      rw [hzs z hz] at hle
      exact ⟨by rwa [isSome_next] at hsome, Nat.le_zero.mp hle⟩
    refine ⟨zs, hpath.congr ?_, ?_⟩
    · intro z hz
      rw [next, next, hnds z (hown z hz).1 (hown z hz).2]
    · intro z hz
      have hset := total_set (closed z) c' hc
      rw [hzs z hz, (hown z hz).2, hclo z (hown z hz).1 (hown z hz).2] at hset
      exact hset
  | _ => trivial

lemma iterOk_of_readers_eq_zero (hzero : s.readers = 0)
    {ds : List (Call T)} : ∀ (u : ℕ) (d : Call T), u ≠ t → cs[u]? = some d → IterOk s' ds d := by
  intro u d _ hd
  have hle := single_le_total (f := reading) hd
  rw [← h.readers, hzero] at hle
  cases d with
  | iterating current ys => simp [reading] at hle
  | _ => trivial

lemma counters (hc : cs[t]? = some c) (counter : s'.readers = s.readers)
    (reading : c'.reading = c.reading) (draining : c'.draining ≤ c.draining) :
    s'.readers + c.reading = s.readers + c'.reading ∧
      total Call.draining cs + c'.draining ≤ 1 + c.draining ∧
      (total Call.draining cs + c'.draining ≠ c.draining → s'.readers = 0) := by
  have hdr := h.drain_le
  have hown := single_le_total (f := Call.draining) hc
  refine ⟨by omega, by omega, fun hne => ?_⟩
  rw [counter]
  exact h.drain_alone (by omega)

lemma move (hc : cs[t]? = some c)
    (null : s'.nodes 0 = none) (path : Path s'.next s'.head xs' 0) (poolNull : s'.pool 0 = none)
    (poolPath : Path s'.poolNext s'.pendingDeletion (qs'.map Prod.fst) 0)
    (poolData : ∀ q ∈ qs', (s'.pool q.1).map Node.data = some q.2)
    (places : ∀ a, xs'.count a + (qs'.map Prod.snd).count a + c'.held a + (s.nodes a).isSome.toNat =
      xs.count a + (qs.map Prod.snd).count a + c.held a + (s'.nodes a).isSome.toNat)
    (poolPlaces : ∀ b, (qs'.map Prod.fst).count b + c'.heldPool b + (s.pool b).isSome.toNat =
      (qs.map Prod.fst).count b + c.heldPool b + (s'.pool b).isSome.toNat)
    (counters : s'.readers + c.reading = s.readers + c'.reading ∧
      total draining cs + c'.draining ≤ 1 + c.draining ∧
      (total draining cs + c'.draining ≠ c.draining → s'.readers = 0))
    (callOk : CallOk s' c')
    (others : ∀ (u : ℕ) (d : Call T), u ≠ t → cs[u]? = some d → CallOk s' d)
    (iterOk : IterOk s' (cs.set t c') c')
    (iterators : ∀ (u : ℕ) (d : Call T), u ≠ t → cs[u]? = some d → IterOk s' (cs.set t c') d) :
    Owned s' (cs.set t c') xs' qs' := by
  have hdr := total_set draining c' hc
  obtain ⟨readers, drain_le, drain_alone⟩ := counters
  refine ⟨null, path, poolNull, poolPath, poolData, ?_, ?_, ?_, ?_, ?_, ?_, ?_⟩
  · intro a
    have hset := total_set (held a) c' hc
    have hold := h.places a
    have hnew := places a
    omega
  · intro b
    have hset := total_set (heldPool b) c' hc
    have hold := h.poolPlaces b
    have hnew := poolPlaces b
    omega
  · have hset := total_set reading c' hc
    have hold := h.readers
    omega
  · omega
  · intro hne
    exact drain_alone (by omega)
  · intro u d hd
    rw [List.getElem?_set] at hd
    split_ifs at hd with htu
    · cases hd
      exact callOk
    · exact others u d (Ne.symm htu) hd
  · intro u d hd
    rw [List.getElem?_set] at hd
    split_ifs at hd with htu
    · cases hd
      exact iterOk
    · exact iterators u d (Ne.symm htu) hd

lemma silent (hc : cs[t]? = some c) (held : ∀ a, c'.held a = c.held a)
    (heldPool : ∀ b, c'.heldPool b = c.heldPool b) (closed : ∀ a, c.closed a = 0 → c'.closed a = 0)
    (reading : c'.reading = c.reading) (draining : c'.draining ≤ c.draining) (callOk : CallOk s c')
    (iterOk : IterOk s (cs.set t c') c') : Owned s (cs.set t c') xs qs := by
  refine h.move hc h.null h.path h.poolNull h.poolPath h.poolData ?_ ?_
    (h.counters hc rfl reading draining) callOk (fun u d _ => h.callOk u d) iterOk
    (h.iterOk_frame hc (fun _ _ _ => rfl) fun a _ => closed a)
  · intro a
    rw [held]
  · intro b
    rw [heldPool]

end Owned

end Kernel.Ds
