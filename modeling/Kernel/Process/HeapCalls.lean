import Kernel.Process.Regions

/-!
# The system calls for the heap

`HeapAllocate` gives a process a new region. `HeapFree` frees whatever region it is called with.
-/

set_option linter.dupNamespace false

namespace Kernel.Process

open Core Action Memory Kapi ProcessM QueueTask List
open VirtualAddressAllocator (Allocation)

/-! ### The calls -/

def CanWrite (s : ProcessState) (ptr : ℕ) : Prop :=
  ptr < 2 ^ 48 ∧ ∃ m ∈ (s.proc.pageTables.view s.memory (pageOf ptr)).mapping (pageOf ptr),
    m.options.readOnly = false

instance (s : ProcessState) (ptr : ℕ) : Decidable (CanWrite s ptr) :=
  inferInstanceAs (Decidable (_ ∧ ∃ m ∈ _, _))

/-- A result is written through a pointer of the caller. The pointer must be aligned and must not
be null; a fault in the kernel is a panic, and so is here a write to the memory of the kernel. The
bytes of the memory of a process play no part in the following. -/
def writeResult (ptr : ℕ) : ProcessM Unit := fun s =>
  if ptr = 0 ∨ ptr % 8 ≠ 0 then (.error (.panic .assertion), s)
  else if CanWrite s ptr then (.ok (), s)
  else (.error (.panic .explicit), s)

def writeRegion (resPtr resSize : ℕ) (region : Allocation) : ProcessM (Option Allocation) := do
  writeResult resPtr
  let _ ← checked (checkedMul region.pageCount pageSize)
  writeResult resSize
  pure (some region)

def writeFailure (resPtr resSize : ℕ) : ProcessM (Option Allocation) := do
  writeResult resPtr
  writeResult resSize
  pure none

def heapAllocate (kt : PageTable) (size resPtr resSize : ℕ) : ProcessM (Option Allocation) :=
  let pageCount := divCeil size pageSize
  fun s =>
    match allocMemory kt pageCount false s with
    | (.ok (addr, _), s') => writeRegion resPtr resSize ⟨addr, pageCount⟩ s'
    | (.error (.error _), s') => writeFailure resPtr resSize s'
    | (.error (.panic p), s') => (.error (.panic p), s')

def heapFree (ptr size : ℕ) : ProcessM Unit := freeMemory ptr (divCeil size pageSize)

structure HeapState where
  state : ProcessState
  heap : List Allocation

inductive HeapCall where
  | heapAllocate (size resPtr resSize : BitVec 64)
  | heapFree (ptr size : BitVec 64)
  deriving DecidableEq

open HeapCall

def freedRegion (ptr size : BitVec 64) : Allocation := ⟨ptr.toNat, divCeil size.toNat pageSize⟩

def HeapCall.run (kt : PageTable) : HeapCall → HeapState → Option (Option Allocation × HeapState)
  | .heapAllocate size resPtr resSize, s =>
    match Process.heapAllocate kt size.toNat resPtr.toNat resSize.toNat s.state with
    | (.ok region, state) => some (region, ⟨state, region.toList ++ s.heap⟩)
    | (.error _, _) => none
  | .heapFree ptr size, s =>
    match Process.heapFree ptr.toNat size.toNat s.state with
    | (.ok _, state) => some (none, ⟨state, s.heap.erase (freedRegion ptr size)⟩)
    | (.error _, _) => none

abbrev HeapEvent := Core.Event HeapState HeapCall (Option Allocation)

/-! ### What should hold -/

def Process.queueMemory (proc : Process) : List (Allocation × ℕ) :=
  proc.sendQueues.map (fun q => (⟨q.1.userBaseAddress, q.1.pages .command⟩, q.1.rootAddress)) ++
    proc.recvQueues.map fun q => (⟨q.userBaseAddress, q.pages .completion⟩, q.rootAddress)

structure HeapSafe (kt : PageTable) (users : List PageTable) (s : HeapState) : Prop where
  queues : ∀ m ∈ s.state.proc.queueMemory, ∀ j < m.1.pageCount,
    ∃ a, kt.frame s.state.memory (pageOf m.2 + j) = some a ∧ s.state.memory.pma.InUse a ∧
      ∀ pt ∈ users, pt ≠ s.state.proc.pageTables → ∀ x < halfPages,
        pt.frame s.state.memory x ≠ some a
  disjoint : (s.heap.map Allocation.range).Pairwise Range.Disjoint

def IsResultPointer (s : ProcessState) (ptr : ℕ) : Prop := ptr ≠ 0 ∧ ptr % 8 = 0 ∧ CanWrite s ptr

instance (s : ProcessState) (ptr : ℕ) : Decidable (IsResultPointer s ptr) :=
  inferInstanceAs (Decidable (_ ∧ _ ∧ _))

def Proper (s : HeapState) : HeapCall → Prop
  | .heapAllocate _ resPtr resSize =>
    IsResultPointer s.state resPtr.toNat ∧ IsResultPointer s.state resSize.toNat
  | .heapFree ptr size => freedRegion ptr size ∈ s.heap

instance (s : HeapState) : DecidablePred (Proper s)
  | .heapAllocate _ _ _ => inferInstanceAs (Decidable (_ ∧ _))
  | .heapFree _ _ => inferInstanceAs (Decidable (_ ∈ _))

structure HeapReady (kt : PageTable) (users : List PageTable) (lo hi : ℕ)
    (others : List Allocation) (s : HeapState) : Prop where
  owns : Owns kt users lo hi s.state
    (s.heap ++ (s.state.proc.queueMemory.map Prod.fst ++ others))
  kernel_end : ∀ m ∈ s.state.proc.queueMemory, pageOf m.2 + m.1.pageCount ≤ halfPages
  shared : ∀ m ∈ s.state.proc.queueMemory, ∀ j < m.1.pageCount,
    kt.frame s.state.memory (pageOf m.2 + j) =
      s.state.proc.pageTables.frame s.state.memory (pageOf m.1.address + j)

section

variable {kt : PageTable} {users : List PageTable} {lo hi : ℕ} {others : List Allocation}
  {s s' : HeapState} {size ptr : ℕ}

lemma mem_of_queueMemory {m : Allocation × ℕ} (hm : m ∈ s.state.proc.queueMemory) :
    m.1 ∈ s.heap ++ (s.state.proc.queueMemory.map Prod.fst ++ others) :=
  mem_append_right _ (mem_append_left _ (mem_map_of_mem hm))

lemma HeapReady.hasPage (h : HeapReady kt users lo hi others s) {m : Allocation × ℕ}
    (hm : m ∈ s.state.proc.queueMemory) {j : ℕ} (hj : j < m.1.pageCount) :
    HasPage m.1 (pageOf m.1.address + j) :=
  (h.owns.isRegion _ (mem_of_queueMemory hm)).hasPage_iff.mpr ⟨le_self_add, by omega⟩

lemma HeapReady.safe (h : HeapReady kt users lo hi others s) : HeapSafe kt users s := by
  have hrdy := h.owns.ready
  refine ⟨fun m hm j hj => ?_, ?_⟩
  · have hpage := h.hasPage hm hj
    obtain ⟨a, ha⟩ := Option.isSome_iff_exists.mp (h.owns.mapped _ (mem_of_queueMemory hm) _ hpage)
    have hheld : PageTable.Held users s.state.memory s.state.proc.pageTables
        (pageOf m.1.address + j) a :=
      ⟨hrdy.mem_users, (h.owns.isRegion _ (mem_of_queueMemory hm)).page_lt hpage, ha⟩
    refine ⟨a, (h.shared m hm j hj).trans ha, (hrdy.sound.isData _ _ _ hheld).inUse, ?_⟩
    intro pt hpt hne x hx hfr
    exact hne (hrdy.sound.injective _ _ _ _ a ⟨hpt, hx, hfr⟩ hheld).1
  · refine pairwise_disjoint_of_coverage_le_one fun x => ?_
    have hle := h.owns.disjoint x
    rw [map_append, coverage_append] at hle
    exact le_self_add.trans ((Nat.le_add_left _ _).trans hle)

lemma HeapReady.of_undisturbed (h : HeapReady kt users lo hi others s) {rs : List Allocation}
    (hproc : s'.state.proc = { s.state.proc with
      addressSpaceAllocator := s'.state.proc.addressSpaceAllocator })
    (hun : Undisturbed kt users s.state rs s'.state)
    (hrs : ∀ r ∈ s.state.proc.queueMemory.map Prod.fst ++ others, r ∈ rs)
    (howns : Owns kt users lo hi s'.state
      (s'.heap ++ (s.state.proc.queueMemory.map Prod.fst ++ others))) :
    HeapReady kt users lo hi others s' := by
  have hqs : s'.state.proc.queueMemory = s.state.proc.queueMemory := by
    rw [hproc]
    rfl
  have hpt : s'.state.proc.pageTables = s.state.proc.pageTables := by rw [hproc]
  refine ⟨?_, ?_, ?_⟩
  · rw [hqs]
    exact howns
  · rw [hqs]
    exact h.kernel_end
  · rw [hqs, hpt]
    intro m hm j hj
    have hend := h.kernel_end m hm
    have hr : m.1 ∈ rs := hrs _ (mem_append_left _ (mem_map_of_mem hm))
    rw [hun.kernel _ (by omega), hun.frames m.1 hr _ (h.hasPage hm hj)]
    exact h.shared m hm j hj

/-! ### One call -/

lemma writeResult_eq {t : ProcessState} (h : IsResultPointer t ptr) :
    writeResult ptr t = (.ok (), t) := by
  obtain ⟨hnull, hal, hwr⟩ := h
  rw [writeResult, if_neg (not_or.mpr ⟨hnull, not_not.mpr hal⟩), if_pos hwr]

lemma IsResultPointer.of_staysMapped {t t' : ProcessState} (h : IsResultPointer t ptr)
    (hpt : t'.proc.pageTables = t.proc.pageTables) (hsty : StaysMapped t t') :
    IsResultPointer t' ptr := by
  obtain ⟨hnull, hal, hlt, m, hm, hwr⟩ := h
  have hpage : pageOf ptr < halfPages := Nat.mod_lt _ (by decide)
  have hval : (t.proc.pageTables.view t.memory (pageOf ptr)).entry.valid = true := by
    by_contra hnot
    rw [PageTable.View.mapping_of_not_valid (Bool.eq_false_iff.mpr hnot)] at hm
    cases hm
  refine ⟨hnull, hal, hlt, m, ?_, hwr⟩
  rw [hpt, hsty _ hpage hval]
  exact hm

variable (h : HeapReady kt users lo hi others s)
include h

lemma HeapReady.wp_heapAllocate (size : ℕ) {resPtr resSize : ℕ}
    (hptr : IsResultPointer s.state resPtr) (hsize : IsResultPointer s.state resSize) :
    wp (heapAllocate kt size resPtr resSize)
      (fun region state => HeapReady kt users lo hi others ⟨state, region.toList ++ s.heap⟩)
      (fun _ _ => False) s.state := by
  have hall := h.owns.wp_allocMemory (divCeil size pageSize)
  have hrs : ∀ r ∈ s.state.proc.queueMemory.map Prod.fst ++ others,
      r ∈ s.heap ++ (s.state.proc.queueMemory.map Prod.fst ++ others) :=
    fun r hr => mem_append_right _ hr
  rw [wp] at hall
  cases hrun : allocMemory kt (divCeil size pageSize) false s.state with
  | mk result t =>
    rw [hrun] at hall
    cases result with
    | ok a =>
      obtain ⟨-, howns, hun, hsty⟩ := hall
      have hpt : t.proc.pageTables = s.state.proc.pageTables := by rw [hun.proc_eq]
      have hmul : checkedMul (divCeil size pageSize) pageSize =
          .ok (divCeil size pageSize * pageSize) := by
        have hend := (howns.isRegion _ mem_cons_self).end_le
        exact checkedMul_eq_ok.mpr ⟨by dsimp only at hend; omega, rfl⟩
      have hwrt : writeRegion resPtr resSize ⟨a.1, divCeil size pageSize⟩ t =
          (.ok (some ⟨a.1, divCeil size pageSize⟩), t) := by
        rw [writeRegion, bind_of_ok (writeResult_eq (hptr.of_staysMapped hpt hsty)), hmul]
        exact bind_of_ok (writeResult_eq (hsize.of_staysMapped hpt hsty))
      have hcall : heapAllocate kt size resPtr resSize s.state =
          (.ok (some ⟨a.1, divCeil size pageSize⟩), t) := by
        simp only [heapAllocate, hrun]
        exact hwrt
      rw [wp, hcall]
      exact h.of_undisturbed hun.proc_eq hun hrs howns
    | error e =>
      obtain ⟨⟨err, rfl⟩, howns, hun, hsty⟩ := hall
      have hpt : t.proc.pageTables = s.state.proc.pageTables := by rw [hun.proc_eq]
      have hwrt : writeFailure resPtr resSize t = (.ok none, t) := by
        rw [writeFailure, bind_of_ok (writeResult_eq (hptr.of_staysMapped hpt hsty))]
        exact bind_of_ok (writeResult_eq (hsize.of_staysMapped hpt hsty))
      have hcall : heapAllocate kt size resPtr resSize s.state = (.ok none, t) := by
        simp only [heapAllocate, hrun]
        exact hwrt
      rw [wp, hcall]
      exact h.of_undisturbed hun.proc_eq hun hrs howns

lemma HeapReady.wp_heapFree {r : Allocation} (hr : r ∈ s.heap) :
    wp (freeMemory r.address r.pageCount)
      (fun _ state => HeapReady kt users lo hi others ⟨state, s.heap.erase r⟩)
      (fun _ _ => False) s.state := by
  refine wp_mono (h.owns.wp_freeMemory (mem_append_left _ hr)) ?_ fun _ _ he => he
  rintro - state ⟨howns, hun⟩
  rw [erase_append_left _ hr] at howns hun
  exact h.of_undisturbed hun.proc_eq hun (fun r hr => mem_append_right _ hr) howns

lemma HeapReady.call {c : HeapCall} (hc : Proper s c) :
    ∃ region s', c.run kt s = some (region, s') ∧ HeapReady kt users lo hi others s' := by
  cases c with
  | heapAllocate size resPtr resSize =>
    have hwp := h.wp_heapAllocate size.toNat hc.1 hc.2
    rw [wp] at hwp
    rw [run]
    cases hrun : heapAllocate kt size.toNat resPtr.toNat resSize.toNat s.state with
    | mk result state =>
      rw [hrun] at hwp
      cases result with
      | ok region => exact ⟨region, _, rfl, hwp⟩
      | error e => exact hwp.elim
  | heapFree ptr size =>
    have hwp := h.wp_heapFree hc
    rw [wp] at hwp
    rw [run, heapFree]
    cases hrun : freeMemory ptr.toNat (divCeil size.toNat pageSize) s.state with
    | mk result state =>
      rw [freedRegion, hrun] at hwp
      cases result with
      | ok _ => exact ⟨none, _, rfl, hwp⟩
      | error e => exact hwp.elim

omit h in
/-- In every run of proper calls the pages of the queues stay in use, the regions of the heap do not
overlap, and no proper call panics. -/
theorem heapSafe_of_proper {s₀ : HeapState} {events : List HeapEvent}
    (h₀ : HeapReady kt users lo hi others s₀) (hrun : Core.Run (run kt) s₀ events s)
    (hproper : ∀ e ∈ events, Proper e.before e.call) :
    HeapSafe kt users s ∧ ∀ c, Proper s c → ∃ region s', c.run kt s = some (region, s') := by
  have h : HeapReady kt users lo hi others s := by
    refine hrun.invariant (A := fun e => Proper e.before e.call) h₀ ?_ hproper
    intro c s region s' hs hstep hc
    obtain ⟨_, _, hcall, hs'⟩ := hs.call hc
    cases hstep.symm.trans hcall
    exact hs'
  refine ⟨h.safe, fun c hc => ?_⟩
  obtain ⟨region, s', hcall, -⟩ := h.call hc
  exact ⟨region, s', hcall⟩

/-! ### A process with a queue -/

omit h in
lemma wp_createCompletionQueue_heapReady {t : ProcessState} (h : Owns kt users lo hi t others)
    (hnone : t.proc.sendQueues = [] ∧ t.proc.recvQueues = []) :
    wp (createCompletionQueue kt size)
      (fun _ state => HeapReady kt users lo hi others ⟨state, []⟩) (fun _ _ => True) t := by
  rw [createCompletionQueue, wp_bind]
  refine wp_mono wp_prepareQueue ?_ fun _ _ _ => trivial
  rintro ⟨id, n⟩ _ ⟨hpgs, next, rfl⟩
  have h' : Owns kt users lo hi { t with proc.nextQueueId := next } others :=
    h.congr rfl rfl rfl rfl
  dsimp only
  rw [finishCompletionQueue, wp_bind]
  refine wp_mono (wp_finishQueue_memory h'.ready) ?_ fun _ _ _ => trivial
  rintro q t' ⟨rfl, hres, hserv⟩
  have hcnt : q.pages .completion = n := by
    rw [UserQueue.pages, hpgs]
  have hqs : t'.proc.sendQueues = [] ∧ t'.proc.recvQueues = [] := by
    rw [hres.proc_eq]
    exact hnone
  have hmem : ({ t'.proc with recvQueues := q :: t'.proc.recvQueues } : Process).queueMemory =
      [(⟨q.userBaseAddress, n⟩, q.rootAddress)] := by
    rw [Process.queueMemory, hqs.1, hqs.2, ← hcnt]
    rfl
  have hpt : t'.proc.pageTables = t.proc.pageTables := by rw [hres.proc_eq]
  change HeapReady kt users lo hi others
    ⟨{ t' with proc := { t'.proc with recvQueues := q :: t'.proc.recvQueues } }, []⟩
  refine ⟨?_, ?_, ?_⟩
  · dsimp only
    rw [hmem]
    exact (h'.served hres hserv).congr rfl rfl rfl rfl
  · dsimp only
    rw [hmem]
    refine forall_mem_singleton.mpr ?_
    exact ((h'.ready.ranges hres (queuePages_pos hpgs)).kernel _ rfl).end_le
  · dsimp only
    rw [hmem, hpt]
    exact forall_mem_singleton.mpr (hserv.kernel _ rfl).2

end

def sampleHeap : Option HeapState :=
  match Process.spawn 1 sampleKernel with
  | some (.ok _, s) =>
    s.processes.head?.bind fun proc =>
      match (allocMemory QueueTask.sampleKernelTable 1 false >>= fun _ =>
          createCompletionQueue QueueTask.sampleKernelTable 1) (s.focus proc) with
      | (.ok _, state) => some ⟨state, []⟩
      | (.error _, _) => none
  | _ => none

lemma sampleHeap_ready {s₀ : HeapState} (h : s₀ ∈ sampleHeap) :
    ∃ users others, HeapReady QueueTask.sampleKernelTable users 0xffff_0001_0000_0000
      0xffff_0101_0000_0000 others s₀ := by
  rw [sampleHeap] at h
  split at h
  next s hsp =>
    obtain ⟨proc, hproc, hnone, howns⟩ := owns_of_spawn sampleKernel_booted hsp
    obtain ⟨_, hhead, h⟩ := Option.bind_eq_some_iff.mp h
    cases hproc.symm.trans hhead
    split at h
    next state hrun =>
      cases h
      have hwp : wp (allocMemory QueueTask.sampleKernelTable 1 false >>= fun _ =>
          createCompletionQueue QueueTask.sampleKernelTable 1)
          (fun _ state => ∃ users others, HeapReady QueueTask.sampleKernelTable users
            0xffff_0001_0000_0000 0xffff_0101_0000_0000 others ⟨state, []⟩)
          (fun _ _ => True) (s.focus proc) := by
        rw [wp_bind]
        refine wp_mono (howns.wp_allocMemory 1) ?_ fun _ _ _ => trivial
        rintro a t ⟨-, howns', hun, -⟩
        have hqs : t.proc.sendQueues = [] ∧ t.proc.recvQueues = [] := by
          rw [hun.proc_eq]
          exact hnone
        exact wp_mono (wp_createCompletionQueue_heapReady howns' hqs)
          (fun _ _ hrdy => ⟨_, _, hrdy⟩) fun _ _ _ => trivial
      exact wp_ok hwp hrun
    next => cases h
  next => cases h

/-- Two regions are allocated and one of them is freed. The results are written to the stack. -/
theorem heapSafe_of_proper_three :
    ∃ users others s₀ events s, HeapReady QueueTask.sampleKernelTable users 0xffff_0001_0000_0000
        0xffff_0101_0000_0000 others s₀ ∧
      Core.Run (run QueueTask.sampleKernelTable) s₀ events s ∧ events.length = 3 ∧
      s.state.proc.queueMemory.length = 1 ∧ s.heap = [⟨0x4000, 2⟩] ∧
      HeapSafe QueueTask.sampleKernelTable users s := by
  obtain ⟨s₀, hs₀, x, hx, hlen, hqs, hheap, hprop⟩ : ∃ s₀ ∈ sampleHeap,
      ∃ x ∈ execute (run QueueTask.sampleKernelTable) s₀
        [.heapFree 0x3000 4096, .heapAllocate 5000 0x1000 0x1008, .heapAllocate 1 0x1000 0x1008],
      x.1.length = 3 ∧ x.2.state.proc.queueMemory.length = 1 ∧ x.2.heap = [⟨0x4000, 2⟩] ∧
        ∀ e ∈ x.1, Proper e.before e.call := by
    decide +kernel
  obtain ⟨users, others, h₀⟩ := sampleHeap_ready hs₀
  have hrun : Core.Run (run QueueTask.sampleKernelTable) s₀ x.1 x.2 := .of_execute hx
  exact ⟨users, others, s₀, x.1, x.2, h₀, hrun, hlen, hqs, hheap,
    (heapSafe_of_proper h₀ hrun hprop).1⟩

/-- A process frees the memory of its queue: the kernel still has the page mapped, and the page is
free. It frees an address that it has never used: the kernel panics. -/
theorem heapFree_unchecked :
    ∃ users others s₀, HeapReady QueueTask.sampleKernelTable users 0xffff_0001_0000_0000
        0xffff_0101_0000_0000 others s₀ ∧
      (∃ events s, Core.Run (run QueueTask.sampleKernelTable) s₀ events s ∧
        ∃ m ∈ s.state.proc.queueMemory, ∃ i < s.state.memory.pma.allocatedPages.length,
          QueueTask.sampleKernelTable.frame s.state.memory (pageOf m.2) =
            some (s.state.memory.pma.pageAddress i) ∧
          s.state.memory.pma.allocatedPages[i]? = some false) ∧
      run QueueTask.sampleKernelTable (.heapFree 0x8000_0000_0000 1) s₀ = none := by
  obtain ⟨s₀, hs₀, ⟨x, hx, hfrd⟩, hpan⟩ : ∃ s₀ ∈ sampleHeap,
      (∃ x ∈ execute (run QueueTask.sampleKernelTable) s₀ [.heapFree 0x2000 4096],
        ∃ m ∈ x.2.state.proc.queueMemory, ∃ i < x.2.state.memory.pma.allocatedPages.length,
          QueueTask.sampleKernelTable.frame x.2.state.memory (pageOf m.2) =
            some (x.2.state.memory.pma.pageAddress i) ∧
          x.2.state.memory.pma.allocatedPages[i]? = some false) ∧
      run QueueTask.sampleKernelTable (.heapFree 0x8000_0000_0000 1) s₀ = none := by
    decide +kernel
  obtain ⟨users, others, h₀⟩ := sampleHeap_ready hs₀
  exact ⟨users, others, s₀, h₀, ⟨x.1, x.2, .of_execute hx, hfrd⟩, hpan⟩

end Kernel.Process
