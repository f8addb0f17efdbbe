import Kernel.Core.Checked

/-!
# The interrupt controller

The distributor has eight bits for the priority and the target of an interrupt, and two for how it
is triggered.
-/

namespace Kernel.Exception

open Core List Function

abbrev InterruptId := BitVec 32

inductive InterruptConfig where
  | edge
  | level
  deriving DecidableEq

/-- The words of the distributor, in the order of their addresses. -/
abbrev Distributor := ℕ → BitVec 32

/-- A bit of a word is written through a pointer to the bit. -/
def writeBit (w : BitVec 32) (i : ℕ) (b : Bool) : BitVec 32 :=
  if b then w ||| .twoPow 32 i else w &&& ~~~.twoPow 32 i

namespace Distributor

def ipriorityr : ℕ := 0x0400 >>> 2

def itargetsr : ℕ := 0x0800 >>> 2

def icfgr : ℕ := 0x0c00 >>> 2

variable (d : Distributor)

def readByteForId (register : ℕ) (id : InterruptId) : BitVec 8 :=
  (d (register + id.toNat / 4) >>> (id.toNat % 4 * 8)).setWidth 8

/-- The new value is combined with the old one. -/
def writeByteForId (register : ℕ) (id : InterruptId) (value : BitVec 8) : Distributor :=
  Function.update d (register + id.toNat / 4)
    (d (register + id.toNat / 4) ||| value.setWidth 32 <<< (id.toNat % 4 * 8))

def priority (id : InterruptId) : BitVec 8 := d.readByteForId ipriorityr id

def setPriority (id : InterruptId) (priority : BitVec 8) : Distributor :=
  d.writeByteForId ipriorityr id priority

def targetCpu (id : InterruptId) : BitVec 8 := d.readByteForId itargetsr id

def setTargetCpu (id : InterruptId) (targetCpu : BitVec 8) : Distributor :=
  d.writeByteForId itargetsr id targetCpu

def config (id : InterruptId) : InterruptConfig :=
  if (d (icfgr + id.toNat / 16)).getLsbD (id.toNat % 16 + 1) then .edge else .level

/-- The two bits are those at `id % 16`, not at twice that position. -/
def setConfig (id : InterruptId) (config : InterruptConfig) : Distributor :=
  Function.update d (icfgr + id.toNat / 16)
    (writeBit (writeBit (d (icfgr + id.toNat / 16)) (id.toNat % 16) false) (id.toNat % 16 + 1)
      (config = .edge))

/-! ### Two bits for each interrupt -/

def SetsConfig (id : InterruptId) (c : InterruptConfig) : Prop :=
  (∀ w k, ¬ (w = icfgr + id.toNat / 16 ∧ (k = 2 * (id.toNat % 16) ∨ k = 2 * (id.toNat % 16) + 1)) →
    (d.setConfig id c w).getLsbD k = (d w).getLsbD k) ∧
  (d.setConfig id c).config id = c ∧ ∀ j ≠ id, (d.setConfig id c).config j = d.config j

variable {d} {id : InterruptId}

lemma getLsbD_writeBit (w : BitVec 32) {i : ℕ} (hi : i < 32) (b : Bool) (k : ℕ) :
    (writeBit w i b).getLsbD k = if k = i then b else w.getLsbD k := by
  by_cases hk : k < 32
  · split_ifs with heq
    · cases b <;> simp [writeBit, heq, hi]
    · cases b <;> simp [writeBit, hk, heq]
  · rw [if_neg (by omega), BitVec.getLsbD_of_ge _ _ (by omega), BitVec.getLsbD_of_ge _ _ (by omega)]

lemma getLsbD_setConfig (c : InterruptConfig) (w k : ℕ) :
    (d.setConfig id c w).getLsbD k =
      if w = icfgr + id.toNat / 16 ∧ k = id.toNat % 16 + 1 then decide (c = .edge)
      else if w = icfgr + id.toNat / 16 ∧ k = id.toNat % 16 then false
      else (d w).getLsbD k := by
  by_cases hw : w = icfgr + id.toNat / 16
  · rw [setConfig, hw, update_self, getLsbD_writeBit _ (by omega), getLsbD_writeBit _ (by omega)]
    simp
  · rw [setConfig, update_of_ne hw]
    simp [hw]

lemma config_setConfig_self (c : InterruptConfig) : (d.setConfig id c).config id = c := by
  simp only [config, getLsbD_setConfig, and_self, if_true]
  cases c <;> rfl

/-- The interrupts that are configured as they should be are those whose bits are the lowest ones of
a word. -/
theorem setsConfig_iff (id : InterruptId) :
    (∀ (d : Distributor) (c : InterruptConfig), d.SetsConfig id c) ↔ id.toNat % 16 = 0 := by
  constructor
  · intro h
    by_contra hne
    -- a bit that was set is cleared, and it is not one of the two
    have hbit := (h (fun _ => BitVec.allOnes 32) .level).1 (icfgr + id.toNat / 16) (id.toNat % 16)
      (by omega)
    rw [getLsbD_setConfig, if_neg (by omega), if_pos ⟨rfl, rfl⟩, BitVec.getLsbD_allOnes] at hbit
    simp at hbit
    omega
  · intro hzero d c
    refine ⟨fun w k hk => ?_, config_setConfig_self c, fun j hj => ?_⟩
    · rw [getLsbD_setConfig, if_neg (by omega), if_neg (by omega)]
    · have hne : j.toNat ≠ id.toNat := fun heq => hj (BitVec.eq_of_toNat_eq heq)
      have hself : ¬ (icfgr + j.toNat / 16 = icfgr + id.toNat / 16 ∧
          j.toNat % 16 + 1 = id.toNat % 16 + 1) := by omega
      have hbel : ¬ (icfgr + j.toNat / 16 = icfgr + id.toNat / 16 ∧
          j.toNat % 16 + 1 = id.toNat % 16) := by omega
      rw [config, config, getLsbD_setConfig, if_neg hself, if_neg hbel]

/-- The interrupt 33 is made level triggered, and the interrupt 32 becomes level triggered too. -/
theorem setConfig_changes_other : ∃ d : Distributor, d.config 32 = .edge ∧
    (d.setConfig 33 .level).config 32 = .level :=
  ⟨fun _ => 2, by decide, by decide⟩

/-! ### Eight bits for each interrupt -/

def SetsByte (get : Distributor → InterruptId → BitVec 8) (d d' : Distributor) (id : InterruptId)
    (value : BitVec 8) : Prop :=
  get d' id = value ∧ ∀ j ≠ id, get d' j = get d j

variable {register : ℕ}

lemma getLsbD_readByteForId (d : Distributor) (j : InterruptId) (k : ℕ) :
    (d.readByteForId register j).getLsbD k =
      (decide (k < 8) && (d (register + j.toNat / 4)).getLsbD (j.toNat % 4 * 8 + k)) := by
  simp [readByteForId]

lemma readByteForId_writeByteForId (value : BitVec 8) (j : InterruptId) :
    (d.writeByteForId register id value).readByteForId register j =
      if j = id then d.readByteForId register id ||| value else d.readByteForId register j := by
  apply BitVec.eq_of_getLsbD_eq
  intro k hk
  by_cases hword : j.toNat / 4 = id.toNat / 4
  · rw [getLsbD_readByteForId, writeByteForId, hword, update_self, BitVec.getLsbD_or,
      BitVec.getLsbD_shiftLeft, BitVec.getLsbD_setWidth]
    split_ifs with hj
    · rw [BitVec.getLsbD_or, getLsbD_readByteForId, hj]
      have hlt : id.toNat % 4 * 8 + k < 32 ∧ k < 32 := by omega
      simp [hk, hlt]
    · -- another byte of the same word
      have hne : j.toNat ≠ id.toNat := fun heq => hj (BitVec.eq_of_toNat_eq heq)
      rw [getLsbD_readByteForId, hword]
      have hout : j.toNat % 4 * 8 + k < id.toNat % 4 * 8 ∨
          8 ≤ j.toNat % 4 * 8 + k - id.toNat % 4 * 8 := by omega
      rcases hout with hlt | hge
      · simp [hlt]
      · simp [BitVec.getLsbD_of_ge value _ hge]
  · have hj : j ≠ id := fun heq => hword (by rw [heq])
    rw [if_neg hj, getLsbD_readByteForId, getLsbD_readByteForId, writeByteForId,
      update_of_ne (by omega)]

lemma setsByte_iff (value : BitVec 8) :
    SetsByte (readByteForId · register) d (d.writeByteForId register id value) id value ↔
      d.readByteForId register id ||| value = value := by
  simp only [SetsByte, readByteForId_writeByteForId, if_pos]
  exact ⟨And.left, fun h => ⟨h, fun j hj => if_neg hj⟩⟩

/-- A priority or a set of processors is stored as it is given exactly if it has all the bits that
were stored before. -/
theorem setPriority_setTargetCpu_iff (d : Distributor) (id : InterruptId) (value : BitVec 8) :
    (SetsByte priority d (d.setPriority id value) id value ↔ d.priority id ||| value = value) ∧
      (SetsByte targetCpu d (d.setTargetCpu id value) id value ↔
        d.targetCpu id ||| value = value) :=
  ⟨setsByte_iff value, setsByte_iff value⟩

/-- The priority 2 is set where the priority was 1, and 3 is read. -/
theorem setPriority_combines : ∃ d : Distributor, (d.setPriority 0 2).priority 0 = 3 :=
  ⟨fun _ => 1, by decide⟩

end Distributor

/-! ### Message signalled interrupts -/

structure MsiDescriptor where
  registerAddr : ℕ
  dataValue : ℕ
  intid : ℕ
  deriving DecidableEq

structure V2mMsiController where
  registerAddr : ℕ
  spiStart : ℕ
  numSpis : ℕ
  nextSpi : ℕ
  deriving DecidableEq

namespace V2mMsiController

/-- The type register has the lowest id in the bits from 25 to 16 and their number in the bits from
9 to 0. -/
def init (base : ℕ) (typer : BitVec 32) : V2mMsiController where
  registerAddr := wrappingAdd base 0x040
  spiStart := (typer.extractLsb' 16 10).toNat
  numSpis := (typer.extractLsb' 0 10).toNat
  nextSpi := (typer.extractLsb' 16 10).toNat

def checkedAdd32 (a b : ℕ) : Checked ℕ := if a + b < 2 ^ 32 then .ok (a + b) else .error .overflow

def allocMsi (s : V2mMsiController) : Checked (MsiDescriptor × V2mMsiController) := do
  let bound ← checkedAdd32 s.spiStart s.numSpis
  if s.nextSpi > bound then .error .explicit
  else do
    let nextSpi ← checkedAdd32 s.nextSpi 1
    pure (⟨s.registerAddr, s.nextSpi, s.nextSpi⟩, { s with nextSpi })

/-- What the calls of a run hand out before one of them panics. -/
def handedOut : ℕ → V2mMsiController → List MsiDescriptor
  | 0, _ => []
  | calls + 1, s =>
    match s.allocMsi with
    | .error _ => []
    | .ok (m, s') => m :: handedOut calls s'

def HandsOutExactly (calls : ℕ) (s : V2mMsiController) : Prop :=
  ((s.handedOut calls).map MsiDescriptor.intid).Nodup ∧
    (∀ m ∈ s.handedOut calls, s.spiStart ≤ m.intid ∧ m.intid < s.spiStart + s.numSpis) ∧
    (s.handedOut calls).length = min calls s.numSpis

lemma allocMsi_eq {s : V2mMsiController} (hfit : s.spiStart + s.numSpis + 1 < 2 ^ 32) :
    s.allocMsi = if s.spiStart + s.numSpis < s.nextSpi then .error .explicit
      else .ok (⟨s.registerAddr, s.nextSpi, s.nextSpi⟩, { s with nextSpi := s.nextSpi + 1 }) := by
  rw [allocMsi, checkedAdd32, if_pos (by omega)]
  split_ifs with hout
  · exact if_pos hout
  · rw [checkedAdd32, if_pos (by omega)]
    exact if_neg hout

lemma intids_handedOut {s : V2mMsiController} (calls left : ℕ)
    (hleft : s.nextSpi + left = s.spiStart + s.numSpis + 1)
    (hfit : s.spiStart + s.numSpis + 1 < 2 ^ 32) :
    (s.handedOut calls).map MsiDescriptor.intid = List.range' s.nextSpi (min calls left) := by
  induction calls generalizing s left with
  | zero => simp [handedOut]
  | succ calls ih =>
    rw [handedOut, allocMsi_eq hfit]
    cases left with
    | zero =>
      rw [if_pos (by omega), Nat.min_zero]
      rfl
    | succ left =>
      rw [if_neg (by omega), Nat.succ_min_succ, range'_succ]
      have hnext : s.nextSpi + 1 + left = s.spiStart + s.numSpis + 1 := by omega
      exact congrArg (s.nextSpi :: ·)
        (ih (s := { s with nextSpi := s.nextSpi + 1 }) left hnext hfit)

/-- The ids that a run hands out are distinct, belong to the controller and are as many as it has
exactly if there are no more calls than ids: one call more gets the id behind the last one. -/
theorem handsOutExactly_iff (base : ℕ) (typer : BitVec 32) (calls : ℕ) :
    (init base typer).HandsOutExactly calls ↔ calls ≤ (init base typer).numSpis := by
  have hst := (typer.extractLsb' 16 10).isLt
  have hnum := (typer.extractLsb' 0 10).isLt
  have hids := intids_handedOut (s := init base typer) calls ((init base typer).numSpis + 1) rfl
    (by simp only [init]; omega)
  have hlen := congrArg List.length hids
  rw [length_map, length_range'] at hlen
  constructor
  · rintro ⟨-, -, hcnt⟩
    omega
  · intro hle
    refine ⟨hids ▸ nodup_range', fun m hm => ?_, by omega⟩
    have hmem := mem_map_of_mem (f := MsiDescriptor.intid) hm
    rw [hids, mem_range'_1] at hmem
    simp only [init] at hmem hle ⊢
    omega

/-- A controller with one id, which is 80, also hands out 81. -/
theorem handedOut_beyond :
    ((init 0 0x0050_0001).handedOut 2).map MsiDescriptor.intid = [80, 81] := by
  decide

end V2mMsiController

end Kernel.Exception
