import Kernel.Storage.Nvme.Queue

/-!
# The words of a command

The methods of `Command` fill in sixteen words. The device reads its arguments from the fields that
the NVMe specification defines.
-/

namespace Kernel.Storage.Nvme

open Core Words List BitVec Function

inductive IdentifyStructure where
  | namespace'
  | controller
  | activeNamespaceList
  deriving DecidableEq

def IdentifyStructure.code : IdentifyStructure → BitVec 32
  | namespace' => 0x00
  | controller => 0x01
  | activeNamespaceList => 0x02

inductive QueuePriority where
  | urgent
  | high
  | medium
  | low
  deriving DecidableEq

def QueuePriority.code : QueuePriority → BitVec 32
  | urgent => 0b00
  | high => 0b01
  | medium => 0b10
  | low => 0b11

inductive Builder where
  | identify (controllerId : BitVec 16) (structureId : IdentifyStructure)
  | createIoCompletionQueue (queueId : QueueId) (queueSize : ℕ) (interruptVectorIndex : BitVec 16)
      (interruptsEnabled physicallyContinuous : Bool)
  | deleteIoCompletionQueue (queueId : QueueId)
  | createIoSubmissionQueue (queueId : QueueId) (queueSize : ℕ) (completionQueueId : QueueId)
      (priority : QueuePriority) (physicallyContinuous : Bool)
  | deleteIoSubmissionQueue (queueId : QueueId)
  | read (startingLba : BitVec 64) (numBlocks : ℕ)
  | write (startingLba : BitVec 64) (numBlocks : ℕ)
  deriving DecidableEq

namespace Words

variable (w : Words)

def setCommandId (id : BitVec 16) : Words := update w 0 (id ++ (w 0).extractLsb' 0 16)

def setOpcode (op : BitVec 8) : Words := update w 0 ((w 0).extractLsb' 8 24 ++ op)

def setDword (idx : Fin 16) (data : BitVec 32) : Words := update w idx data

def setQword (idx : Fin 16) (data : BitVec 64) : Words :=
  (w.setDword idx (data.setWidth 32)).setDword (idx + 1) ((data >>> 32).setWidth 32)

def setNamespaceId (id : BitVec 32) : Words := w.setDword 1 id

def setDataPtrSingle (ptr : BitVec 64) : Words := w.setQword 6 ptr

def createQueue (op : BitVec 8) (queueId : QueueId) (queueSize : ℕ) (upper : BitVec 16)
    (flags : BitVec 32) : Checked Words := do
  let size ← checkedSub queueSize 1
  pure (((w.setOpcode op).setDword 10
    ((BitVec.ofNat 16 size).setWidth 32 <<< 16 ||| queueId.setWidth 32)).setDword 11
    (upper.setWidth 32 <<< 16 ||| flags))

def deleteQueue (op : BitVec 8) (queueId : QueueId) : Words :=
  (w.setOpcode op).setDword 10 (queueId.setWidth 32)

def transfer (op : BitVec 8) (startingLba : BitVec 64) (numBlocks : ℕ) : Words :=
  (((w.setOpcode op).setQword 10 startingLba).setDword 12
    ((BitVec.ofNat 16 numBlocks).setWidth 32)).setDword 13 0

def build : Builder → Checked Words
  | .identify controllerId structureId =>
    pure ((w.setOpcode 0x06).setDword 10 (controllerId.setWidth 32 <<< 16 ||| structureId.code))
  | .createIoCompletionQueue queueId queueSize vectorIndex interruptsEnabled continuous =>
    w.createQueue 0x05 queueId queueSize vectorIndex
      ((if interruptsEnabled then 2 else 0) ||| if continuous then 1 else 0)
  | .deleteIoCompletionQueue queueId => pure (w.deleteQueue 0x04 queueId)
  | .createIoSubmissionQueue queueId queueSize completionQueueId priority continuous => do
    let w ← w.createQueue 0x01 queueId queueSize completionQueueId
      (priority.code <<< 1 ||| if continuous then 1 else 0)
    pure (w.setDword 12 0)
  | .deleteIoSubmissionQueue queueId => pure (w.deleteQueue 0x00 queueId)
  | .read startingLba numBlocks => pure (w.transfer 0x02 startingLba numBlocks)
  | .write startingLba numBlocks => pure (w.transfer 0x01 startingLba numBlocks)

end Words

inductive CommandCall where
  | build (b : Builder)
  | setCommandId (id : BitVec 16)
  | setNamespaceId (id : BitVec 32)
  | setDataPtrSingle (ptr : BitVec 64)
  deriving DecidableEq

def CommandCall.apply (w : Words) : CommandCall → Checked Words
  | build b => w.build b
  | setCommandId id => pure (w.setCommandId id)
  | setNamespaceId id => pure (w.setNamespaceId id)
  | setDataPtrSingle ptr => pure (w.setDataPtrSingle ptr)

/-! ### What the device reads -/

namespace Words

variable (w : Words)

def opcode : BitVec 8 := (w 0).extractLsb' 0 8

def commandId : BitVec 16 := (w 0).extractLsb' 16 16

def namespaceId : BitVec 32 := w 1

def qword (idx : Fin 16) : BitVec 64 := w (idx + 1) ++ w idx

def low (idx : Fin 16) : BitVec 16 := (w idx).extractLsb' 0 16

def high (idx : Fin 16) : BitVec 16 := (w idx).extractLsb' 16 16

end Words

namespace Builder

def Reads : Builder → Words → Prop
  | identify controllerId structureId, w => w.opcode = 0x06 ∧ w.high 10 = controllerId ∧
    (w 10).extractLsb' 0 8 = structureId.code.setWidth 8
  | createIoCompletionQueue queueId queueSize vectorIndex interruptsEnabled continuous, w =>
    w.opcode = 0x05 ∧ w.low 10 = queueId ∧ (w.high 10).toNat + 1 = queueSize ∧
      w.high 11 = vectorIndex ∧ (w 11).extractLsb' 1 1 = .ofBool interruptsEnabled ∧
      (w 11).extractLsb' 0 1 = .ofBool continuous
  | deleteIoCompletionQueue queueId, w => w.opcode = 0x04 ∧ w.low 10 = queueId
  | createIoSubmissionQueue queueId queueSize completionQueueId priority continuous, w =>
    w.opcode = 0x01 ∧ w.low 10 = queueId ∧ (w.high 10).toNat + 1 = queueSize ∧
      w.high 11 = completionQueueId ∧ (w 11).extractLsb' 1 2 = priority.code.setWidth 2 ∧
      (w 11).extractLsb' 0 1 = .ofBool continuous
  | deleteIoSubmissionQueue queueId, w => w.opcode = 0x00 ∧ w.low 10 = queueId
  | read startingLba numBlocks, w => w.opcode = 0x02 ∧ w.qword 10 = startingLba ∧
    (w.low 12).toNat + 1 = numBlocks
  | write startingLba numBlocks, w => w.opcode = 0x01 ∧ w.qword 10 = startingLba ∧
    (w.low 12).toNat + 1 = numBlocks

def Valid : Builder → Prop
  | createIoCompletionQueue _ size _ _ _ | createIoSubmissionQueue _ size _ _ _ =>
    1 ≤ size ∧ size < 2 ^ 16
  | read _ numBlocks | write _ numBlocks => 1 ≤ numBlocks ∧ numBlocks < 2 ^ 16
  | _ => True

def numBlocks? : Builder → Option ℕ
  | read _ numBlocks | write _ numBlocks => some numBlocks
  | _ => none

def Filled (b : Builder) (w : Words) : Prop :=
  match b.numBlocks? with
  | none => b.Reads w
  | some numBlocks => (w.low 12).toNat = numBlocks

end Builder

/-! ### Reading back what was filled in -/

namespace Words

variable {w w' : Words} {idx : Fin 16}

lemma opcode_eq {o : BitVec 8} (h : w' 0 = (w 0).extractLsb' 8 24 ++ o) : w'.opcode = o := by
  rw [opcode, h]
  exact extractLsb'_append_eq_right

lemma halves_eq {x : BitVec 16} {y : BitVec 32} (h : w idx = x.setWidth 32 <<< 16 ||| y)
    (hy : y.toNat < 2 ^ 16) : w.high idx = x ∧
      ∀ s n, s + n ≤ 16 → (w idx).extractLsb' s n = y.extractLsb' s n := by
  constructor
  · rw [high, h]
    ext i hi
    have hfal : y.getLsbD (16 + i) = false := by
      rw [← testBit_toNat]
      exact Nat.testBit_lt_two_pow (hy.trans_le (Nat.pow_le_pow_right (by decide) (by omega)))
    have hlt : i < 32 ∧ 16 + i < 32 := by omega
    rw [getElem_extractLsb', getLsbD_or, hfal]
    simpa [hlt] using getLsbD_eq_getElem hi
  · intro s n hsn
    rw [h]
    ext i hi
    have hlt : s + i < 16 := by omega
    simp [getElem_extractLsb', hlt]

lemma low_eq {x : BitVec 16} (h : w idx = x.setWidth 32) : w.low idx = x := by
  rw [low, h]
  ext i hi
  have hlt : i < 32 := by omega
  simpa [hlt] using getLsbD_eq_getElem hi

lemma qword_eq {x : BitVec 64} (hlow : w idx = x.setWidth 32)
    (hhigh : w (idx + 1) = (x >>> 32).setWidth 32) : w.qword idx = x := by
  rw [qword, hlow, hhigh]
  ext i hi
  rw [BitVec.getElem_append]
  split_ifs with hlt
  · simpa using BitVec.getLsbD_eq_getElem hi
  · have hadd : 32 + (i - 32) = i := by omega
    simpa [hadd] using BitVec.getLsbD_eq_getElem hi

lemma createQueue_eq (w : Words) (op : BitVec 8) (queueId : QueueId) {size : ℕ}
    (hsize : 1 ≤ size ∧ size < 2 ^ 16) (upper : BitVec 16) {flags : BitVec 32}
    (hfla : flags.toNat < 2 ^ 16) :
    ∃ w', w.createQueue op queueId size upper flags = .ok w' ∧ w'.opcode = op ∧
      w'.low 10 = queueId ∧ (w'.high 10).toNat + 1 = size ∧ w'.high 11 = upper ∧
      ∀ s n, s + n ≤ 16 → (w' 11).extractLsb' s n = flags.extractLsb' s n := by
  refine ⟨_, by rw [createQueue, checkedSub_eq_ok.mpr ⟨hsize.1, rfl⟩]; rfl,
    opcode_eq (w := w) rfl, ?_, ?_, halves_eq rfl hfla⟩
  all_goals
    have hid : (queueId.setWidth 32).toNat < 2 ^ 16 := by
      rw [toNat_setWidth_of_le (by decide)]
      exact queueId.isLt
    generalize hw : setDword _ 11 _ = w'
    have hten : w' 10 = (BitVec.ofNat 16 (size - 1)).setWidth 32 <<< 16 ||| queueId.setWidth 32 :=
      hw ▸ rfl
    obtain ⟨hhigh, hlow⟩ := halves_eq hten hid
  · have heq : low (fun _ => queueId.setWidth 32) 0 = queueId := low_eq rfl
    rw [low, hlow 0 16 (by decide)]
    exact heq
  · rw [hhigh, toNat_ofNat, Nat.mod_eq_of_lt (by omega), Nat.sub_add_cancel hsize.1]

lemma transfer_numBlocks (w : Words) (op : BitVec 8) (startingLba : BitVec 64) {numBlocks : ℕ}
    (h : numBlocks < 2 ^ 16) :
    ((w.transfer op startingLba numBlocks).low 12).toNat = numBlocks := by
  have hlow : (w.transfer op startingLba numBlocks).low 12 = BitVec.ofNat 16 numBlocks :=
    low_eq rfl
  rw [hlow, toNat_ofNat, Nat.mod_eq_of_lt h]

end Words

namespace Builder

variable {b : Builder} {w w' : Words}

lemma exists_build (hb : b.Valid) (w : Words) : ∃ w', w.build b = .ok w' ∧ b.Filled w' := by
  cases b with
  | identify controllerId structureId =>
    have hcode : structureId.code.toNat < 2 ^ 16 := by cases structureId <;> decide
    refine ⟨_, rfl, opcode_eq (w := w) rfl, (halves_eq rfl hcode).1,
      ((halves_eq rfl hcode).2 0 8 (by decide)).trans ?_⟩
    cases structureId <;> rfl
  | createIoCompletionQueue queueId queueSize vectorIndex interruptsEnabled continuous =>
    obtain ⟨w', hw', hop, hid, hsize, hhigh, hlow⟩ := w.createQueue_eq 0x05 queueId hb vectorIndex
      (show ((if interruptsEnabled then 2 else 0) ||| if continuous then 1 else 0 :
        BitVec 32).toNat < 2 ^ 16 by cases interruptsEnabled <;> cases continuous <;> decide)
    refine ⟨w', hw', hop, hid, hsize, hhigh, (hlow 1 1 (by decide)).trans ?_,
      (hlow 0 1 (by decide)).trans ?_⟩
    all_goals cases interruptsEnabled <;> cases continuous <;> rfl
  | createIoSubmissionQueue queueId queueSize completionQueueId priority continuous =>
    obtain ⟨w', hw', hop, hid, hsize, hhigh, hlow⟩ :=
      w.createQueue_eq 0x01 queueId hb completionQueueId
        (show (priority.code <<< 1 ||| if continuous then 1 else 0 : BitVec 32).toNat < 2 ^ 16 by
          cases priority <;> cases continuous <;> decide)
    refine ⟨w'.setDword 12 0, by rw [build, hw']; rfl, hop, hid, hsize, hhigh,
      (hlow 1 2 (by decide)).trans ?_, (hlow 0 1 (by decide)).trans ?_⟩
    all_goals cases priority <;> cases continuous <;> rfl
  | deleteIoCompletionQueue queueId | deleteIoSubmissionQueue queueId =>
    exact ⟨_, rfl, opcode_eq (w := w) rfl, low_eq rfl⟩
  | read startingLba numBlocks => exact ⟨_, rfl, w.transfer_numBlocks 0x02 startingLba hb.2⟩
  | write startingLba numBlocks => exact ⟨_, rfl, w.transfer_numBlocks 0x01 startingLba hb.2⟩

/-! ### Calls in any order -/

lemma Filled.congr (h : b.Filled w) (hop : w'.opcode = w.opcode) (h10 : w' 10 = w 10)
    (h11 : w' 11 = w 11) (h12 : w' 12 = w 12) : b.Filled w' := by
  cases b <;>
    simpa only [Filled, numBlocks?, Reads, low, high, hop, h10, h11, h12] using h

end Builder

lemma Words.build_kept {w w' : Words} {b : Builder} (h : w.build b = .ok w') :
    w'.commandId = w.commandId ∧ w' 1 = w 1 ∧ w' 6 = w 6 ∧ w' 7 = w 7 := by
  obtain ⟨o, hword, hrest⟩ : ∃ o, w' 0 = (w 0).extractLsb' 8 24 ++ o ∧
      w' 1 = w 1 ∧ w' 6 = w 6 ∧ w' 7 = w 7 := by
    cases b with
    | createIoCompletionQueue =>
      obtain ⟨size, -, heq⟩ := bind_eq_ok.mp h
      cases heq
      exact ⟨_, rfl, rfl, rfl, rfl⟩
    | createIoSubmissionQueue =>
      obtain ⟨w₁, hcre, heq⟩ := bind_eq_ok.mp h
      obtain ⟨size, -, heq₁⟩ := bind_eq_ok.mp hcre
      cases heq₁
      cases heq
      exact ⟨_, rfl, rfl, rfl, rfl⟩
    | _ =>
      cases h
      exact ⟨_, rfl, rfl, rfl, rfl⟩
  refine ⟨?_, hrest⟩
  rw [commandId, commandId, hword]
  refine (extractLsb'_append_eq_of_le (by decide)).trans ?_
  ext i hi
  have hlt : 8 + i < 24 := by omega
  simp [hlt, ← add_assoc]

lemma Words.setCommandId_opcode (w : Words) (id : BitVec 16) :
    (w.setCommandId id).opcode = w.opcode :=
  (extractLsb'_append_eq_of_add_le (by decide)).trans
    (extractLsb'_extractLsb'_of_le (by decide))

namespace CommandCall

variable {calls : List CommandCall} {w w' : Words}

lemma of_foldlM (p : Words → Prop) {c : CommandCall} (hc : c ∈ calls)
    (hset : ∀ w w', c.apply w = .ok w' → p w')
    (hkeep : ∀ d ∈ calls, d ≠ c → ∀ w w', d.apply w = .ok w' → p w → p w')
    (hrun : calls.foldlM apply w = .ok w') : p w' := by
  induction calls using List.reverseRecOn generalizing w' with
  | nil => cases hc
  | append_singleton calls d ih =>
    rw [foldlM_append, bind_eq_ok] at hrun
    obtain ⟨w₁, hrun, hlast⟩ := hrun
    rw [foldlM_cons, bind_eq_ok] at hlast
    obtain ⟨w₂, hlast, hnil⟩ := hlast
    cases hnil
    by_cases heq : d = c
    · exact hset _ _ (heq ▸ hlast)
    · have hear :=
        (mem_append.mp hc).resolve_right fun h => heq (mem_singleton.mp h).symm
      exact hkeep d (by simp) heq _ _ hlast
        (ih hear (fun e he => hkeep e (mem_append_left _ he)) hrun)

lemma exists_foldlM (h : ∀ c ∈ calls, ∀ w, ∃ w', apply w c = .ok w') (w : Words) :
    ∃ w', calls.foldlM apply w = .ok w' := by
  induction calls generalizing w with
  | nil => exact ⟨w, rfl⟩
  | cons c calls ih =>
    obtain ⟨w₁, hw₁⟩ := h c mem_cons_self w
    obtain ⟨w₂, hw₂⟩ := ih (fun d hd => h d (.tail _ hd)) w₁
    exact ⟨w₂, by rw [foldlM_cons, hw₁]; exact hw₂⟩

variable {b : Builder} {id : BitVec 16} {ns : BitVec 32} {ptr : BitVec 64}

lemma exists_reads (hb : b.Valid) (hperm : calls.Perm
      [build b, setCommandId id, setNamespaceId ns, setDataPtrSingle ptr]) (w : Words) :
    ∃ w', calls.foldlM apply w = .ok w' ∧ w'.commandId = id ∧ w'.namespaceId = ns ∧
      w'.qword 6 = ptr ∧ b.Filled w' := by
  have hmem : ∀ c, c ∈ calls ↔ c = build b ∨ c = setCommandId id ∨ c = setNamespaceId ns ∨
      c = setDataPtrSingle ptr := fun c => by simp [hperm.mem_iff]
  obtain ⟨w', hrun⟩ : ∃ w', calls.foldlM apply w = .ok w' := by
    refine exists_foldlM (fun c hc w => ?_) w
    rcases (hmem c).mp hc with rfl | rfl | rfl | rfl
    · obtain ⟨w', hw', -⟩ := b.exists_build hb w
      exact ⟨w', hw'⟩
    all_goals exact ⟨_, rfl⟩
  refine ⟨w', hrun,
    of_foldlM (·.commandId = id) ((hmem (setCommandId id)).mpr (by simp)) ?_ ?_ hrun,
    of_foldlM (·.namespaceId = ns) ((hmem (setNamespaceId ns)).mpr (by simp)) ?_ ?_ hrun,
    of_foldlM (·.qword 6 = ptr) ((hmem (setDataPtrSingle ptr)).mpr (by simp)) ?_ ?_ hrun,
    of_foldlM b.Filled ((hmem (build b)).mpr (by simp)) ?_ ?_ hrun⟩
  · rintro w w' ⟨⟩
    exact extractLsb'_append_eq_left
  · intro d hd hne w w' happ
    rcases (hmem d).mp hd with rfl | rfl | rfl | rfl
    · exact (build_kept happ).1.trans
    · exact absurd rfl hne
    all_goals cases happ; exact fun h => h
  · rintro w w' ⟨⟩
    rfl
  · intro d hd hne w w' happ
    rcases (hmem d).mp hd with rfl | rfl | rfl | rfl
    · exact (build_kept happ).2.1.trans
    · cases happ; exact fun h => h
    · exact absurd rfl hne
    · cases happ; exact fun h => h
  · rintro w w' ⟨⟩
    exact qword_eq rfl rfl
  · intro d hd hne w w' happ
    rcases (hmem d).mp hd with rfl | rfl | rfl | rfl
    · obtain ⟨-, -, hlow, hhigh⟩ := build_kept happ
      exact (congrArg₂ (· ++ ·) hhigh hlow).trans
    · cases happ; exact fun h => h
    · cases happ; exact fun h => h
    · exact absurd rfl hne
  · intro w w' happ
    obtain ⟨w₁, hw₁, hrea⟩ := b.exists_build hb w
    cases hw₁.symm.trans happ
    exact hrea
  · intro d hd hne w w' happ hfil
    rcases (hmem d).mp hd with rfl | rfl | rfl | rfl
    · exact absurd rfl hne
    all_goals cases happ
    · exact hfil.congr (w.setCommandId_opcode id) rfl rfl rfl
    · exact hfil.congr rfl rfl rfl rfl
    · exact hfil.congr rfl rfl rfl rfl

def RoundTrips (calls : List CommandCall) (b : Builder) (id : BitVec 16) (ns : BitVec 32)
    (ptr : BitVec 64) : Prop :=
  ∀ w : Words, ∃ w', calls.foldlM apply w = .ok w' ∧ w'.commandId = id ∧ w'.namespaceId = ns ∧
    w'.qword 6 = ptr ∧ b.Reads w'

/-- Whatever the order of the calls, exactly the commands that move no blocks are read as they
should be: for the others, the device moves one block more. -/
theorem roundTrips_iff (hb : b.Valid) (hperm : calls.Perm
      [build b, setCommandId id, setNamespaceId ns, setDataPtrSingle ptr]) :
    RoundTrips calls b id ns ptr ↔ b.numBlocks? = none := by
  have hrea := exists_reads hb hperm
  constructor
  · intro h
    obtain ⟨w', hrun, -, -, -, hargs⟩ := h zero
    obtain ⟨w₁, hrun₁, -, -, -, hblks⟩ := hrea zero
    cases hrun.symm.trans hrun₁
    cases b with
    | read | write => exact absurd (hargs.2.2.trans hblks.symm) (Nat.succ_ne_self _)
    | _ => rfl
  · intro h
    simp only [Builder.Filled, h] at hrea
    exact hrea

theorem roundTrips_iff_identify :
    RoundTrips [setNamespaceId 1, build (.identify 0 .namespace'), setDataPtrSingle 0x1000,
      setCommandId 7] (.identify 0 .namespace') 7 1 0x1000 :=
  have hval : Builder.Valid (.identify 0 .namespace') := trivial
  (roundTrips_iff hval (by decide)).mpr rfl

/-- A command to read one block is taken for one that reads two. -/
theorem read_reads_longer : ∃ w,
    [build (.read 0 1), setCommandId 7, setNamespaceId 1, setDataPtrSingle 0x1000].foldlM apply
      zero = .ok w ∧ Builder.Reads (.read 0 2) w :=
  ⟨_, rfl, rfl, rfl, rfl⟩

end CommandCall

end Kernel.Storage.Nvme
