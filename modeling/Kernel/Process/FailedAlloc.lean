import Kernel.Memory.PhysicalBuffer.Properties
import Kernel.Process.Queues

/-!
# Allocations that fail

`PhysicalBuffer::alloc` and `alloc_memory` take pages and addresses in several steps and map the one
to the other.
-/

namespace Kernel.Memory

open Core Action PhysicalMemoryAllocator KernelM

/-! ### What should not change -/

def NewTable (tables : List PageTable) (s s' : TableMemory) (a : ℕ) : Prop :=
  (∃ pt ∈ tables, pt.IsTable s' a) ∧ ∀ pt ∈ tables, ¬ pt.IsTable s a

structure MemoryKept (tables : List PageTable) (s s' : TableMemory) : Prop where
  frame_eq : ∀ pt ∈ tables, ∀ x < halfPages, pt.frame s' x = pt.frame s x
  bitmap : ∀ i, s'.pma.allocatedPages[i]? = s.pma.allocatedPages[i]? ∨
    NewTable tables s s' (s.pma.pageAddress i)

lemma MemoryKept.refl (tables : List PageTable) (s : TableMemory) : MemoryKept tables s s :=
  ⟨fun _ _ _ _ => rfl, fun _ => .inl rfl⟩

lemma not_memoryKept_of_filled {tables : List PageTable} {s : TableMemory}
    {pma : PhysicalMemoryAllocator} {start n : ℕ} (hn : 1 ≤ n)
    (hfree : FreeRun s.pma.allocatedPages start n) (hfill : s.pma.Filled start n true pma) :
    ¬ MemoryKept tables s { s with pma } := by
  intro hkept
  rcases hkept.bitmap start with heq | ⟨⟨pt, hpt, hnew⟩, hold⟩
  · have hset : pma.allocatedPages[start]? = some true := by
      rw [hfill.getElem?_eq, if_pos ⟨le_refl start, by omega⟩]
    rw [show _ = some true from hset, hfree start (le_refl start) (by omega)] at heq
    cases heq
  · exact hold pt hpt hnew

/-! ### `PhysicalBuffer::alloc` -/

structure BufferUnchanged (tables : List PageTable) (s s' : KernelMemory) : Prop where
  addresses_eq : s'.virtualAddressAllocator = s.virtualAddressAllocator
  memory : MemoryKept tables s.memory s'.memory

section buffer

variable {s s' : KernelMemory} {n : ℕ} {e : MemoryError}

lemma KernelM.allocContig_eq_error (h : allocContig n s = (.error (.memory e), s')) :
    s.memory.pma.allocContig n = .ok (.error e, s.memory.pma) ∧ s' = s := by
  unfold allocContig at h
  rcases hrun : s.memory.pma.allocContig n with p | ⟨e' | a, pma⟩
  · rw [hrun] at h
    cases h
  · rw [hrun] at h
    cases h
    obtain rfl := allocContig_error hrun
    exact ⟨rfl, rfl⟩
  · rw [hrun] at h
    cases h

lemma KernelM.allocContig_eq_ok {a : ℕ} (h : allocContig n s = (.ok a, s')) :
    ∃ pma, s.memory.pma.allocContig n = .ok (.ok a, pma) ∧ s' = { s with memory.pma := pma } := by
  unfold allocContig at h
  rcases hrun : s.memory.pma.allocContig n with p | ⟨e' | a, pma⟩
  · rw [hrun] at h
    cases h
  · rw [hrun] at h
    cases h
  · rw [hrun] at h
    cases h
    exact ⟨pma, rfl, rfl⟩

lemma KernelM.allocAddresses_eq_error (h : allocAddresses n s = (.error (.memory e), s')) :
    s' = s := by
  unfold allocAddresses at h
  rcases hrun : s.virtualAddressAllocator.alloc n with p | ⟨e' | a, vaa⟩
  · rw [hrun] at h
    cases h
  · rw [hrun] at h
    cases h
    obtain ⟨rfl, -⟩ := VirtualAddressAllocator.alloc_error hrun
    rfl
  · rw [hrun] at h
    cases h

lemma KernelM.expect_ne_error {α : Type} {x : KernelM α} :
    expect x s ≠ (.error (.memory e), s') := by
  unfold expect
  rcases x s with ⟨(p | e') | a, t⟩ <;> exact nofun

lemma PhysicalBuffer.alloc_unchanged_iff {kt : PageTable} {options : PageTableEntryOptions}
    (tables : List PageTable) (h : PhysicalBuffer.alloc kt n options s = (.error (.memory e), s')) :
    BufferUnchanged tables s s' ↔
      n = 0 ∨ ∀ start, ¬ FreeRun s.memory.pma.allocatedPages start n := by
  rcases bind_eq_error_iff.mp h with hpgs | ⟨addr, s₁, hpgs, h⟩
  · obtain ⟨hrun, rfl⟩ := allocContig_eq_error hpgs
    refine iff_of_true ⟨rfl, .refl _ _⟩ ?_
    rcases eq_zero_or_pos n with hn | hn
    · exact .inl hn
    · exact .inr (not_freeRun_of_allocContig hn hrun)
  · obtain ⟨pma, hrun, rfl⟩ := allocContig_eq_ok hpgs
    have hn := pos_of_allocContig hrun
    obtain ⟨start, hfree, -, hfill⟩ := allocContig_ok hn hrun
    rcases bind_eq_error_iff.mp h with haddr | ⟨v, s₂, -, h⟩
    · obtain rfl := allocAddresses_eq_error haddr
      refine iff_of_false (fun hsame => not_memoryKept_of_filled hn hfree hfill hsame.memory) ?_
      rintro (rfl | hnone)
      · omega
      · exact hnone start hfree
    · rcases bind_eq_error_iff.mp h with hmap | ⟨_, s₃, -, h⟩
      · exact absurd hmap expect_ne_error
      · cases h

end buffer

end Kernel.Memory

namespace Kernel.Process

open Core Action Memory ProcessM

/-! ### `alloc_memory` -/

structure MemoryUnchanged (kt : PageTable) (s s' : ProcessState) : Prop where
  addresses_eq : s'.proc.addressSpaceAllocator = s.proc.addressSpaceAllocator
  kernelAddresses_eq : s'.virtualAddressAllocator = s.virtualAddressAllocator
  memory : MemoryKept [kt, s.proc.pageTables] s.memory s'.memory

lemma MemoryUnchanged.refl (kt : PageTable) (s : ProcessState) : MemoryUnchanged kt s s :=
  ⟨rfl, rfl, .refl _ _⟩

section process

variable {kt : PageTable} {s s' : ProcessState} {n : ℕ} {err : Error} {share : Bool}

section allocator

variable {α β : Type} {reason : String} {put : β → ProcessState → ProcessState}
  {x : Checked (Except MemoryError α × β)}

lemma allocator_eq_error (h : allocator reason put x s = (.error (.error err), s')) :
    ∃ e b, x = .ok (.error e, b) ∧ s' = put b s := by
  rcases x with p | ⟨e | a, b⟩
  · cases h
  · cases h
    exact ⟨e, b, rfl, rfl⟩
  · cases h

lemma allocator_eq_ok {a : α} (h : allocator reason put x s = (.ok a, s')) :
    ∃ b, x = .ok (.ok a, b) ∧ s' = put b s := by
  rcases x with p | ⟨e | a, b⟩
  · cases h
  · cases h
  · cases h
    exact ⟨b, rfl, rfl⟩

end allocator

lemma keeps_shareAddresses (n : ℕ) (share : Bool) :
    Keeps ProcessState.proc (shareAddresses n share) := by
  cases share with
  | false => exact keeps_pure none
  | true => exact Keeps.map (keeps_get.bind fun _ => keeps_allocator (by intros; rfl) _ _)

lemma shareAddresses_eq_error (h : shareAddresses n share s = (.error (.error err), s')) :
    s' = s := by
  cases share with
  | false => cases h
  | true =>
    change (allocKernelAddresses n >>= fun k => pure (some k)) s = _ at h
    rcases bind_eq_error_iff.mp h with hker | ⟨_, _, -, h⟩
    · obtain ⟨e, vaa, hrun, rfl⟩ := allocator_eq_error hker
      obtain ⟨rfl, -⟩ := VirtualAddressAllocator.alloc_error hrun
      rfl
    · cases h

lemma allocMemory_unchanged_iff (h : allocMemory kt n share s = (.error (.error err), s')) :
    MemoryUnchanged kt s s' ↔ s.proc.addressSpaceAllocator.TakesNothing n := by
  rcases bind_eq_error_iff.mp h with huser | ⟨v, s₁, huser, h⟩
  · obtain ⟨e, vaa, hrun, rfl⟩ := allocator_eq_error huser
    obtain ⟨rfl, hsm⟩ := VirtualAddressAllocator.alloc_error hrun
    exact iff_of_true (.refl kt s) (.inl hsm)
  · obtain ⟨vaa, hrun, rfl⟩ := allocator_eq_ok huser
    rw [← VirtualAddressAllocator.alloc_eq_self_iff hrun]
    constructor
    · intro hsame
      have hkp : Keeps ProcessState.proc (shareAddresses n share >>= fun kvaddr =>
          allocPages kt v kvaddr n 0 n >>= fun _ => pure (v, kvaddr)) :=
        (keeps_shareAddresses n share).bind fun _ =>
          (keeps_allocPages (fun _ _ => rfl) _ _ _ _ _).bind fun _ => keeps_pure _
      have hproc := hkp { s with proc.addressSpaceAllocator := vaa }
      rw [h] at hproc
      rw [← hsame.addresses_eq, hproc]
    · rintro rfl
      -- only a call for no addresses succeeds without a change
      have hzero : n = 0 := by
        by_contra hn
        exact VirtualAddressAllocator.ne_of_allocFrom (Nat.one_le_iff_ne_zero.mpr hn)
          (VirtualAddressAllocator.alloc_ok hrun) rfl
      subst hzero
      rcases bind_eq_error_iff.mp h with hshr | ⟨kv, s₂, -, h⟩
      · obtain rfl := shareAddresses_eq_error hshr
        exact .refl kt s
      · cases h

end process

/-- A call that fails leaves the bitmap, the allocators of addresses and the translations as they
were exactly if nothing was taken before the failure: a physical buffer gets no pages, or the
process has no addresses for the memory. -/
theorem failed_alloc_unchanged_iff (kt : PageTable) :
    (∀ tables s n options e s', PhysicalBuffer.alloc kt n options s = (.error (.memory e), s') →
      (BufferUnchanged tables s s' ↔
        n = 0 ∨ ∀ start, ¬ FreeRun s.memory.pma.allocatedPages start n)) ∧
    ∀ s n share err s', allocMemory kt n share s = (.error (.error err), s') →
      (MemoryUnchanged kt s s' ↔ s.proc.addressSpaceAllocator.TakesNothing n) :=
  ⟨fun tables _ _ _ _ _ h => PhysicalBuffer.alloc_unchanged_iff tables h,
    fun _ _ _ _ _ h => allocMemory_unchanged_iff h⟩

def sampleBuffers (bits : List Bool) (pages : ℕ) : KernelMemory where
  memory := { QueueTask.sampleState.memory with pma := ⟨bits, 0x10000⟩ }
  virtualAddressAllocator := .new 0xffff_0001_0000_0000 pages
  contents _ := 0

def sampleAddresses (bits : List Bool) (pages : ℕ) : ProcessState :=
  { QueueTask.sampleState with
    memory.pma := ⟨bits, 0x10000⟩
    proc.addressSpaceAllocator := .new 0x1000 pages }

/-- There are no two pages in a row, and there are no two pages of addresses. -/
theorem failed_alloc_unchanged_two_pages :
    (∃ s', PhysicalBuffer.alloc QueueTask.sampleKernelTable 2 memoryOptions
        (sampleBuffers [false, true, false] 8) =
          (.error (.memory (.insufficentForAllocation 0x2000)), s') ∧
      BufferUnchanged [QueueTask.sampleKernelTable] (sampleBuffers [false, true, false] 8) s') ∧
    ∃ s', allocMemory QueueTask.sampleKernelTable 2 true (sampleAddresses [false, false] 1) =
        (.error (.error (.memory "allocate virtual addresses for memory region in process"
          .outOfMemory)), s') ∧
      MemoryUnchanged QueueTask.sampleKernelTable (sampleAddresses [false, false] 1) s' := by
  obtain ⟨hbuf, hmem⟩ := failed_alloc_unchanged_iff QueueTask.sampleKernelTable
  constructor
  · have hrun : (sampleBuffers [false, true, false] 8).memory.pma.allocContig 2 =
        .ok (.error (.insufficentForAllocation 0x2000), ⟨[false, true, false], 0x10000⟩) := by
      decide
    refine (exists_of_fst (by decide +kernel)).imp fun s' hfl => ⟨hfl, ?_⟩
    exact (hbuf _ _ _ _ _ _ hfl).mpr
      (.inr (PhysicalMemoryAllocator.not_freeRun_of_allocContig (by decide) hrun))
  · refine (exists_of_fst (by decide +kernel)).imp fun s' hfl => ⟨hfl, ?_⟩
    exact (hmem _ _ _ _ _ hfl).mpr (by decide)

def fragmented : ProcessState := sampleAddresses (false :: true :: List.replicate 8 false) 8

/-- Two pages without addresses stay allocated. Of the four pages for a process the first one stays
mapped when there are not enough pages for the others. -/
theorem failed_alloc_changes :
    (∃ s', PhysicalBuffer.alloc QueueTask.sampleKernelTable 2 memoryOptions
        (sampleBuffers [false, false] 1) = (.error (.memory .outOfMemory), s') ∧
      s'.memory.pma.allocatedPages = [true, true] ∧
      ¬ BufferUnchanged [QueueTask.sampleKernelTable] (sampleBuffers [false, false] 1) s') ∧
    ∃ s', allocMemory QueueTask.sampleKernelTable 4 true fragmented =
        (.error (.error (.memory "allocate physical memory for process"
          (.insufficentForAllocation 0x3000))), s') ∧
      s'.proc.addressSpaceAllocator = .new 0x5000 4 ∧
      QueueTask.sampleKernelTable.frame s'.memory (pageOf 0xffff_0001_0000_0000) = some 0x10000 ∧
      ¬ MemoryUnchanged QueueTask.sampleKernelTable fragmented s' := by
  constructor
  · refine (exists_of_fst_snd (Q := fun t => t.memory.pma.allocatedPages = [true, true])
      (by decide +kernel)).imp fun s' ⟨hfl, hbits⟩ => ⟨hfl, hbits, fun hsame => ?_⟩
    have hfree : FreeRun [false, false] 0 2 := by
      intro p _ hp
      interval_cases p <;> rfl
    rcases (PhysicalBuffer.alloc_unchanged_iff _ hfl).mp hsame with hzero | hnone
    · cases hzero
    · exact hnone 0 hfree
  · refine (exists_of_fst_snd (Q := fun t => t.proc.addressSpaceAllocator = .new 0x5000 4 ∧
      QueueTask.sampleKernelTable.frame t.memory (pageOf 0xffff_0001_0000_0000) = some 0x10000)
      (by decide +kernel)).imp fun s' ⟨hfl, haddr, hfr⟩ => ⟨hfl, haddr, hfr, fun hsame => ?_⟩
    have htak : ¬ fragmented.proc.addressSpaceAllocator.TakesNothing 4 := by decide
    exact htak ((allocMemory_unchanged_iff hfl).mp hsame)

end Kernel.Process
