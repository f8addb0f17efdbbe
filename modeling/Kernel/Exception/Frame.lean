import Mathlib.Tactic

/-!
# The frame of an exception

The registers are stored below the stack pointer. The frame has room for 30 of them, and 31 are
stored: the last one lies where the stack pointer was.
-/

namespace Kernel.Exception

open List Function

/-- The memory has a word at each address. All addresses that are used are multiples of 8. -/
structure Machine where
  x : Fin 31 → BitVec 64
  sp : BitVec 64
  esr : BitVec 64
  far : BitVec 64
  memory : BitVec 64 → BitVec 64

inductive Instruction where
  | subSp (n : ℕ)
  | addSp (n : ℕ)
  | stp (a b : Fin 31) (offset : ℕ)
  | str (a : Fin 31) (offset : ℕ)
  | ldp (a b : Fin 31) (offset : ℕ)
  | ldr (a : Fin 31) (offset : ℕ)
  | movSp (a : Fin 31)
  | mrsEsr (a : Fin 31)
  | mrsFar (a : Fin 31)
  | bl (returnAddress : BitVec 64)

namespace Machine

variable (m : Machine)

def slot (offset : ℕ) : BitVec 64 := m.sp + BitVec.ofNat 64 offset

def write (a : Fin 31) (value : BitVec 64) : Machine := { m with x := Function.update m.x a value }

def store (a : Fin 31) (offset : ℕ) : Machine :=
  { m with memory := Function.update m.memory (m.slot offset) (m.x a) }

def load (a : Fin 31) (offset : ℕ) : Machine := m.write a (m.memory (m.slot offset))

def step (handler : Machine → Machine) : Instruction → Machine
  | .subSp n => { m with sp := m.sp - BitVec.ofNat 64 n }
  | .addSp n => { m with sp := m.sp + BitVec.ofNat 64 n }
  | .stp a b offset => (m.store a offset).store b (offset + 8)
  | .str a offset => m.store a offset
  | .ldp a b offset => (m.load a offset).load b (offset + 8)
  | .ldr a offset => m.load a offset
  | .movSp a => m.write a m.sp
  | .mrsEsr a => m.write a m.esr
  | .mrsFar a => m.write a m.far
  | .bl returnAddress => handler (m.write 30 returnAddress)

def run (handler : Machine → Machine) (program : List Instruction) : Machine :=
  program.foldl (fun m i => m.step handler i) m

end Machine

open Instruction

def saveRegs : List Instruction :=
  [stp 0 1 (0 * 16), stp 2 3 (1 * 16), stp 4 5 (2 * 16), stp 6 7 (3 * 16), stp 8 9 (4 * 16),
    stp 10 11 (5 * 16), stp 12 13 (6 * 16), stp 14 15 (7 * 16), stp 16 17 (8 * 16),
    stp 18 19 (9 * 16), stp 20 21 (10 * 16), stp 22 23 (11 * 16), stp 24 25 (12 * 16),
    stp 26 27 (13 * 16), stp 28 29 (14 * 16), str 30 (15 * 16)]

def restoreRegs : List Instruction :=
  [ldp 0 1 (0 * 16), ldp 2 3 (1 * 16), ldp 4 5 (2 * 16), ldp 6 7 (3 * 16), ldp 8 9 (4 * 16),
    ldp 10 11 (5 * 16), ldp 12 13 (6 * 16), ldp 14 15 (7 * 16), ldp 16 17 (8 * 16),
    ldp 18 19 (9 * 16), ldp 20 21 (10 * 16), ldp 22 23 (11 * 16), ldp 24 25 (12 * 16),
    ldp 26 27 (13 * 16), ldp 28 29 (14 * 16), ldr 30 (15 * 16)]

/-- The macro `exception_handler` up to `eret`. -/
def exceptionHandler (returnAddress : BitVec 64) : List Instruction :=
  [subSp (8 * 30)] ++ saveRegs ++ [movSp 0, mrsEsr 1, mrsFar 2, bl returnAddress] ++ restoreRegs ++
    [addSp (8 * 30)]

/-- The handler gives the stack pointer back and changes nothing from the saved registers on. -/
def LeavesFrame (handler : Machine → Machine) : Prop :=
  ∀ m, (handler m).sp = m.sp ∧ ∀ a, m.x 0 ≤ a → (handler m).memory a = m.memory a

namespace Machine

variable {m : Machine} {handler : Machine → Machine}

def Restores (m : Machine) (handler : Machine → Machine) (returnAddress : BitVec 64) : Prop :=
  (m.run handler (exceptionHandler returnAddress)).x = m.x ∧
    (m.run handler (exceptionHandler returnAddress)).sp = m.sp ∧
    ∀ a, m.sp ≤ a → (m.run handler (exceptionHandler returnAddress)).memory a = m.memory a

/-! ### All the registers, one after the other -/

def storeAll (m : Machine) (l : List (Fin 31)) : Machine := l.foldl (fun m i => m.store i (8 * i)) m

def loadAll (m : Machine) (l : List (Fin 31)) : Machine := l.foldl (fun m i => m.load i (8 * i)) m

lemma run_saveRegs (m : Machine) : m.run handler saveRegs = m.storeAll (List.finRange 31) := rfl

lemma run_restoreRegs (m : Machine) : m.run handler restoreRegs = m.loadAll (List.finRange 31) :=
  rfl

lemma slot_inj {i j : Fin 31} (h : m.slot (8 * i) = m.slot (8 * j)) : i = j := by
  simp only [slot] at h
  bv_omega

lemma storeAll_eq (m : Machine) {l : List (Fin 31)} (hl : l.Nodup) :
    (m.storeAll l).x = m.x ∧ (m.storeAll l).sp = m.sp ∧
      (∀ i ∈ l, (m.storeAll l).memory (m.slot (8 * i)) = m.x i) ∧
      ∀ a, (∀ i ∈ l, a ≠ m.slot (8 * i)) → (m.storeAll l).memory a = m.memory a := by
  induction l generalizing m with
  | nil => exact ⟨rfl, rfl, nofun, fun _ _ => rfl⟩
  | cons j l ih =>
    obtain ⟨hj, hnd⟩ := nodup_cons.mp hl
    obtain ⟨hx, hsp, hsto, hoth⟩ := ih (m.store j (8 * j)) hnd
    refine ⟨hx, hsp, forall_mem_cons.mpr ⟨?_, hsto⟩, fun a ha => ?_⟩
    · refine (hoth _ fun i hi heq => ?_).trans (update_self ..)
      rw [slot_inj (m := m) heq] at hj
      exact hj hi
    · obtain ⟨hne, hrest⟩ := forall_mem_cons.mp ha
      exact (hoth a hrest).trans (update_of_ne hne _ _)

lemma loadAll_eq (m : Machine) (l : List (Fin 31)) :
    (m.loadAll l).sp = m.sp ∧ (m.loadAll l).memory = m.memory ∧
      ∀ i, (m.loadAll l).x i = if i ∈ l then m.memory (m.slot (8 * i)) else m.x i := by
  induction l generalizing m with
  | nil => exact ⟨rfl, rfl, fun _ => rfl⟩
  | cons j l ih =>
    obtain ⟨hsp, hmem, hx⟩ := ih (m.load j (8 * j))
    refine ⟨hsp, hmem, fun i => (hx i).trans ?_⟩
    by_cases hi : i ∈ l
    · rw [if_pos hi, if_pos (mem_cons_of_mem _ hi)]
      rfl
    · rw [if_neg hi]
      by_cases hij : i = j
      · rw [if_pos (hij ▸ mem_cons_self), hij]
        exact update_self ..
      · rw [if_neg (by simp [hij, hi])]
        exact update_of_ne hij _ _

lemma run_append (p q : List Instruction) :
    m.run handler (p ++ q) = (m.run handler p).run handler q :=
  foldl_append

def lowered (m : Machine) : Machine := { m with sp := m.sp - BitVec.ofNat 64 (8 * 30) }

def called (m : Machine) (returnAddress : BitVec 64) : Machine :=
  (((m.write 0 m.sp).write 1 m.esr).write 2 m.far).write 30 returnAddress

lemma run_exceptionHandler (m : Machine) (returnAddress : BitVec 64) :
    m.run handler (exceptionHandler returnAddress) =
      ((handler ((m.lowered.storeAll (List.finRange 31)).called returnAddress)).loadAll
        (List.finRange 31)).step handler (addSp (8 * 30)) := by
  have hcall : ∀ m : Machine, m.run handler [movSp 0, mrsEsr 1, mrsFar 2, bl returnAddress] =
      handler (m.called returnAddress) := fun _ => rfl
  rw [exceptionHandler, run_append, run_append, run_append, run_append, run_restoreRegs, hcall,
    run_saveRegs]
  rfl

lemma toNat_slot_lowered (hroom : 240 ≤ m.sp.toNat) (i : Fin 31) :
    (m.lowered.slot (8 * i)).toNat = m.sp.toNat - 240 + 8 * i := by
  simp only [slot, lowered]
  bv_omega

/-- After an exception the registers and the stack pointer are as before. The memory from the stack
pointer on is as before exactly if the word at the stack pointer was that of the last register. -/
theorem restores_iff (hhandler : LeavesFrame handler) (hroom : 240 ≤ m.sp.toNat)
    (returnAddress : BitVec 64) :
    m.Restores handler returnAddress ↔ m.memory m.sp = m.x 30 := by
  obtain ⟨-, hsp, hsto, hoth⟩ := m.lowered.storeAll_eq (nodup_finRange 31)
  rw [Restores, run_exceptionHandler]
  generalize m.lowered.storeAll (List.finRange 31) = saved at hsp hsto hoth ⊢
  obtain ⟨hsp', hmem⟩ := hhandler (saved.called returnAddress)
  generalize handler (saved.called returnAddress) = m' at hsp' hmem ⊢
  obtain ⟨hsp'', hmem', hload⟩ := m'.loadAll_eq (List.finRange 31)
  generalize m'.loadAll (List.finRange 31) = m'' at hsp'' hmem' hload ⊢
  replace hsp' : m'.sp = m.lowered.sp := hsp'.trans hsp
  replace hmem : ∀ a, m.lowered.sp ≤ a → m''.memory a = saved.memory a := by
    rw [hmem', ← hsp]
    exact hmem
  have hslot := toNat_slot_lowered hroom
  have hlow : m.lowered.sp.toNat = m.sp.toNat - 240 := by
    simp only [lowered]
    bv_omega
  have hlast : m.lowered.slot (8 * (30 : Fin 31)) = m.sp :=
    BitVec.eq_of_toNat_eq ((hslot 30).trans (Nat.sub_add_cancel hroom))
  have hx : m''.x = m.x := by
    funext i
    rw [hload, if_pos (mem_finRange i), ← hmem', slot, hsp', hmem]
    · exact hsto i (mem_finRange i)
    · have := hslot i
      rw [slot] at this
      rw [BitVec.le_def]
      omega
  have hword : m''.memory m.sp = m.x 30 := by
    rw [hmem _ (by rw [BitVec.le_def]; omega), ← hlast]
    exact hsto 30 (mem_finRange 30)
  constructor
  · rintro ⟨-, -, hall⟩
    exact (hall m.sp (BitVec.le_refl _)).symm.trans hword
  · intro heq
    refine ⟨hx, ?_, fun a ha => ?_⟩
    · apply BitVec.eq_of_toNat_eq
      simp only [step, hsp'', hsp']
      bv_omega
    · change m''.memory a = m.memory a
      rw [BitVec.le_def] at ha
      by_cases hne : a = m.sp
      · rw [hne, hword, heq]
      · rw [hmem _ (by rw [BitVec.le_def]; omega), hoth]
        · rfl
        · rintro i - rfl
          have := hslot i
          exact hne (BitVec.eq_of_toNat_eq (by omega))

/-- An exception of a machine whose words are all zero. -/
theorem restores_iff_zero : Restores ⟨fun _ => 0, 0x1000, 0, 0, fun _ => 0⟩ id 0 :=
  (restores_iff (fun _ => ⟨rfl, fun _ _ => rfl⟩) (by decide) 0).mpr rfl

/-- The word at the stack pointer is overwritten with the link register. -/
theorem exceptionHandler_overwrites :
    (run ⟨fun _ => 5, 0x1000, 0, 0, fun _ => 0⟩ id (exceptionHandler 0)).memory 0x1000 = 5 := by
  rfl

end Machine

end Kernel.Exception
