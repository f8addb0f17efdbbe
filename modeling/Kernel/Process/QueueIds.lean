import Kernel.Core.Interleaving
import Kernel.Process.Basic

/-!
# Queue ids under concurrent calls

`next_queue_id` takes the next id with a compare-exchange in a loop. A call that sees zero fails.
-/

namespace Kernel.Process

open Core Kapi Relation List

/-- The counter, and which call was given which id, in the order of the exchanges. -/
structure IdCounter where
  next : QueueId
  issued : List (ℕ × QueueId)

inductive NextQueueIdCall where
  | load
  | exchange (id : QueueId)
  | returned (result : Except Error QueueId)

open NextQueueIdCall

namespace NextQueueIdCall

def outOfIds : Error := .misc "ran out of queue IDs for process" (some .outOfIds)

/-- The head of the loop. -/
def seen (id : QueueId) : NextQueueIdCall :=
  if id = 0 then .returned (.error outOfIds) else .exchange id

/-- A compare-exchange may also fail without a reason. -/
def step (spurious : Bool) (t : ℕ) (s : IdCounter) :
    NextQueueIdCall → IdCounter × NextQueueIdCall
  | load => (s, seen s.next)
  | exchange id =>
    if s.next = id ∧ ¬ spurious then (⟨id + 1, s.issued ++ [(t, id)]⟩, .returned (.ok id))
    else (s, seen s.next)
  | returned result => (s, .returned result)

def program : Program IdCounter NextQueueIdCall := .ofFun step (· = .load)

structure Counted (first : QueueId) (s : IdCounter) (cs : List NextQueueIdCall) : Prop where
  consecutive : s.issued.map (fun e => e.2.toNat) = List.range' first.toNat s.issued.length
  le_last : first.toNat + s.issued.length ≤ 2 ^ 16
  next_eq : s.next.toNat = (first.toNat + s.issued.length) % 2 ^ 16
  issued_ne : ∀ e ∈ s.issued, e.2 ≠ 0
  issued_iff : ∀ t id, (t, id) ∈ s.issued ↔ cs[t]? = some (.returned (.ok id))
  exchange_ne : exchange 0 ∉ cs

variable {first id : QueueId} {s : IdCounter} {cs : List NextQueueIdCall} {t : ℕ}
  {c c' : NextQueueIdCall}

lemma seen_ne : seen id ≠ .exchange 0 ∧ ∀ id', seen id ≠ .returned (.ok id') := by
  rw [seen]
  split_ifs with hzero
  · exact ⟨nofun, nofun⟩
  · exact ⟨fun h => hzero (exchange.inj h), nofun⟩

lemma getElem?_set_eq (hc : cs[t]? = some c) (u : ℕ) :
    (cs.set t c')[u]? = if u = t then some c' else cs[u]? := by
  have ht := (List.getElem?_eq_some_iff.mp hc).1
  rw [List.getElem?_set]
  simp [ht, eq_comm]

lemma Counted.exchange_ne_set (h : Counted first s cs) (hc' : c' ≠ .exchange 0) :
    exchange 0 ∉ cs.set t c' := fun hmem =>
  (mem_or_eq_of_mem_set hmem).elim h.exchange_ne hc'.symm

/-- A call that is not given an id leaves the counter as it is. -/
lemma Counted.move (h : Counted first s cs) (hc : cs[t]? = some c)
    (hid : ∀ id, c' = .returned (.ok id) ↔ c = .returned (.ok id)) (hc' : c' ≠ .exchange 0) :
    Counted first s (cs.set t c') := by
  refine { h with issued_iff := fun u id => ?_, exchange_ne := h.exchange_ne_set hc' }
  rw [h.issued_iff, getElem?_set_eq hc]
  split_ifs with hu
  · rw [hu, hc, Option.some.injEq, Option.some.injEq, hid]
  · rfl

lemma Counted.issue (h : Counted first s cs) (hc : cs[t]? = some (.exchange s.next)) :
    Counted first ⟨s.next + 1, s.issued ++ [(t, s.next)]⟩ (cs.set t (.returned (.ok s.next))) := by
  have hle := h.le_last
  have hnext := h.next_eq
  have hne : s.next ≠ 0 := fun hzero => h.exchange_ne (hzero ▸ mem_of_getElem? hc)
  have hpos : s.next.toNat ≠ 0 := fun hzero => hne (BitVec.eq_of_toNat_eq hzero)
  have hlast : s.next.toNat = first.toNat + s.issued.length := by omega
  refine ⟨?_, ?_, ?_, ?_, fun u id => ?_, h.exchange_ne_set nofun⟩
  · simp [h.consecutive, range'_concat, hlast]
  · rw [length_append, length_singleton]
    omega
  · rw [length_append, length_singleton, BitVec.toNat_add, hlast, add_assoc]
    rfl
  · exact forall_mem_append.mpr ⟨h.issued_ne, forall_mem_singleton.mpr hne⟩
  · rw [mem_append, h.issued_iff, mem_singleton, getElem?_set_eq hc]
    split_ifs with hu
    · simp [hu, hc, eq_comm]
    · simp [hu]

lemma Counted.step (h : Counted first s cs) (hc : cs[t]? = some c) (spurious : Bool) :
    Counted first (c.step spurious t s).1 (cs.set t (c.step spurious t s).2) := by
  have hseen : (∀ id, c ≠ .returned (.ok id)) → Counted first s (cs.set t (seen s.next)) :=
    fun hne => h.move hc (fun id => iff_of_false (seen_ne.2 id) (hne id)) seen_ne.1
  cases c with
  | load => exact hseen nofun
  | exchange id =>
    rw [step]
    split_ifs with hcas
    · obtain ⟨rfl, -⟩ := hcas
      exact h.issue hc
    · exact hseen nofun
  | returned result => exact h.move hc (fun _ => Iff.rfl) nofun

lemma counted_of_reachable {cfg : Config IdCounter NextQueueIdCall}
    (h : program.Reachable ⟨first, []⟩ cfg) : Counted first cfg.shared cfg.calls := by
  refine h.induct ?_ ?_ ?_
  · exact ⟨rfl, first.isLt.le, (Nat.mod_eq_of_lt first.isLt).symm, nofun,
      fun t id => iff_of_false not_mem_nil nofun, not_mem_nil⟩
  · rintro s cs c h rfl
    have hload : exchange 0 ∉ cs ++ [.load] := fun hmem =>
      h.exchange_ne (by simpa using hmem)
    refine { h with issued_iff := fun t id => ?_, exchange_ne := hload }
    rw [h.issued_iff, List.getElem?_append]
    split_ifs with ht
    · rfl
    · rw [List.getElem?_eq_none (by omega), List.getElem?_singleton]
      split_ifs <;> simp
  · rintro s cs t c s' c' h hc ⟨spurious, heq⟩
    obtain ⟨rfl, rfl⟩ := Prod.mk.inj heq
    exact h.step hc spurious

/-- Behind the last id nothing changes any more, and every call fails. -/
lemma Counted.step_of_last (h : Counted first s cs) (hzero : s.next = 0) (hc : c ∈ cs)
    (spurious : Bool) (t : ℕ) : (c.step spurious t s).1 = s ∧
      ((∀ result, c ≠ .returned result) →
        (c.step spurious t s).2 = .returned (.error outOfIds)) := by
  have hseen : seen s.next = .returned (.error outOfIds) := if_pos hzero
  cases c with
  | load => exact ⟨rfl, fun _ => hseen⟩
  | exchange id =>
    have hne : ¬ (s.next = id ∧ ¬ spurious) := by
      rintro ⟨rfl, -⟩
      exact h.exchange_ne (hzero ▸ hc)
    rw [NextQueueIdCall.step, if_neg hne]
    exact ⟨rfl, fun _ => hseen⟩
  | returned result => exact ⟨rfl, fun hres => absurd rfl (hres result)⟩

lemma Counted.next_eq_zero (h : Counted first s cs) (hlast : 65535 ∈ s.issued.map Prod.snd) :
    s.next = 0 := by
  obtain ⟨e, he, heq⟩ := mem_map.mp hlast
  have hmem : e.2.toNat ∈ s.issued.map (fun e => e.2.toNat) := mem_map_of_mem he
  rw [h.consecutive, heq, mem_range'_1] at hmem
  have hle := h.le_last
  have hnext := h.next_eq
  have hmax : (65535 : QueueId).toNat = 65535 := rfl
  have hlen : first.toNat + s.issued.length = 2 ^ 16 := by omega
  rw [hlen] at hnext
  exact BitVec.eq_of_toNat_eq hnext

/-- In every interleaving the ids that were returned are distinct and not zero. They are issued one
after the other from the first one on, and behind the last one every call fails. -/
theorem issued_of_reachable {cfg : Config IdCounter NextQueueIdCall}
    (h : program.Reachable ⟨first, []⟩ cfg) :
    (∀ (t u : ℕ) id, cfg.calls[t]? = some (.returned (.ok id)) →
      cfg.calls[u]? = some (.returned (.ok id)) → id ≠ 0 ∧ t = u) ∧
    (∀ (t : ℕ) id, (t, id) ∈ cfg.shared.issued ↔ cfg.calls[t]? = some (.returned (.ok id))) ∧
    cfg.shared.issued.map (fun e => e.2.toNat) =
      List.range' first.toNat cfg.shared.issued.length ∧
    (65535 ∈ cfg.shared.issued.map Prod.snd → ∀ cfg', ReflTransGen program.Step cfg cfg' →
      cfg'.shared = ⟨0, cfg.shared.issued⟩ ∧ ∀ c ∈ cfg'.calls, (∀ result, c ≠ .returned result) →
        ∀ spurious t, (c.step spurious t cfg'.shared).2 = .returned (.error outOfIds)) := by
  have hcnt := counted_of_reachable h
  refine ⟨fun t u id ht hu => ?_, hcnt.issued_iff, hcnt.consecutive, fun hlast => ?_⟩
  · have htu := (hcnt.issued_iff t id).mpr ht
    have huu := (hcnt.issued_iff u id).mpr hu
    refine ⟨hcnt.issued_ne _ htu, ?_⟩
    have hnd : (cfg.shared.issued.map (fun e => e.2.toNat)).Nodup :=
      hcnt.consecutive ▸ nodup_range'
    exact congrArg Prod.fst (inj_on_of_nodup_map hnd htu huu rfl)
  · intro cfg' hrun
    have hsha : cfg'.shared = ⟨0, cfg.shared.issued⟩ := by
      induction hrun with
      | refl => rw [← hcnt.next_eq_zero hlast]
      | tail hrun hstep ih =>
        have hcnt' := counted_of_reachable (h.trans hrun)
        cases hstep with
        | start => exact ih
        | call hc hcall =>
          obtain ⟨spurious, heq⟩ := hcall
          obtain ⟨rfl, rfl⟩ := Prod.mk.inj heq
          exact (hcnt'.step_of_last (by rw [ih]) (mem_of_getElem? hc) spurious _).1.trans ih
    refine ⟨hsha, fun c hc hres spurious t => ?_⟩
    exact ((counted_of_reachable (h.trans hrun)).step_of_last (by rw [hsha]) hc spurious t).2
      hres

/-- One call is given the last id. -/
theorem issued_of_reachable_last : ∃ cfg, program.Reachable ⟨65535, []⟩ cfg ∧
    cfg.shared.issued = [(0, 65535)] ∧
      cfg.shared.issued.map (fun e => e.2.toNat) = List.range' 65535 cfg.shared.issued.length := by
  have hrun : program.Reachable ⟨65535, []⟩ ([.start .load, .step 0 false, .step 0 false].foldl
      (act step) ⟨⟨65535, []⟩, []⟩) := reachable_schedule (by simp)
  exact ⟨_, hrun, rfl, (issued_of_reachable hrun).2.2.1⟩

end NextQueueIdCall

end Kernel.Process
