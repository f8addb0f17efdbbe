import Kernel.Process.Regions

/-!
# The size of a queue

`create_queue` takes the number of slots from user space as it is.
-/

namespace Kernel.Process

open Core Action Memory Kapi ProcessM QueueTask

section

variable (kernelTable : PageTable)

def createQueue (message : Message) (numElements : ℕ) : ProcessM UserQueue := do
  let (id, pageCount) ← prepareQueue message numElements
  finishQueue kernelTable id pageCount numElements

lemma createCompletionQueue_eq (size : ℕ) : createCompletionQueue kernelTable size = (do
    let queue ← createQueue kernelTable .completion size
    pushRecv queue
    pure queue.newQueue) := by
  rw [createQueue, bind_assoc]
  rfl

lemma createSubmissionQueue_eq (info : CreateSubmissionQueue) :
    createSubmissionQueue kernelTable info = (do
      let recv ← findRecv info.associatedCompletionQueue
      let queue ← createQueue kernelTable .command info.size
      pushSend queue recv
      pure queue.newQueue) := by
  simp only [createQueue, bind_assoc]
  rfl

end

def initializeWrites (message : Message) (base capacity : ℕ) : List Range :=
  ⟨base, countersSize⟩ :: (List.range capacity).map fun index =>
    ⟨base + countersSize + index * message.slotSize, message.slotSize⟩

lemma mem_of_mem_initializeWrites {message : Message} {base capacity v : ℕ} {r : Range}
    (hr : r ∈ initializeWrites message base capacity) (hv : v ∈ r) :
    base ≤ v ∧ v < base + (countersSize + message.slotSize * capacity) := by
  obtain ⟨hge, hlt⟩ := Range.mem_iff.mp hv
  rcases List.mem_cons.mp hr with rfl | hslot
  · dsimp only at hge hlt
    omega
  · obtain ⟨index, hidx, rfl⟩ := List.mem_map.mp hslot
    have hle : (index + 1) * message.slotSize ≤ capacity * message.slotSize :=
      Nat.mul_le_mul_right _ (List.mem_range.mp hidx)
    rw [add_mul, mul_comm capacity] at hle
    dsimp only at hge hlt
    omega

structure Backed (kt : PageTable) (message : Message) (q : UserQueue) (s : TableMemory) :
    Prop where
  writes : ∀ r ∈ initializeWrites message q.rootAddress q.capacity, ∀ v ∈ r,
    v ∈ q.kernelRange message
  mapped : ∀ v ∈ q.kernelRange message, (kt.frame s (pageOf v)).isSome

/-- The call returns an error, or a queue with as many slots as were asked for and with memory for
them. It does not panic, except if `map_range` finds that a page is mapped already. -/
def MakesRoom (kt : PageTable) (message : Message) (numElements : ℕ) (s : ProcessState) : Prop :=
  wp (createQueue kt message numElements)
    (fun q s' => q.capacity = numElements ∧ Backed kt message q s'.memory)
    (fun e _ => (∃ err, e = .error err) ∨ e = .panic .assertion) s

section

variable {kt : PageTable} {users : List PageTable} {lo hi : ℕ} {s : ProcessState}
  {message : Message} {size n : ℕ}

/-! ### Before the memory is mapped -/

lemma queuePages_eq_error (h : ¬ countersSize + message.slotSize * size < 2 ^ 64) :
    queuePages message size = .error .overflow := by
  rw [queuePages, queueSizeInBytes, checkedMul]
  split_ifs with hmul
  · change (checkedAdd countersSize (message.slotSize * size) >>= _) = _
    rw [checkedAdd, if_neg h]
    rfl
  · rfl

lemma succ_le_of_fits (h : countersSize + message.slotSize * size < 2 ^ 64) :
    size + 1 ≤ 2 ^ 63 := by
  cases message with
  | command | completion =>
    simp only [countersSize, Message.slotSize] at h
    omega

lemma createQueue_zero : createQueue kt message 0 s = (.error (.error
    (.misc "queue must have at least a capacity of 1, got 0" (some .invalidSize))), s) := rfl

lemma createQueue_of_no_id (hsize : size ≠ 0) (hid : s.proc.nextQueueId = 0) :
    createQueue kt message size s = (.error (.error
      (.misc "ran out of queue IDs for process" (some .outOfIds))), s) := by
  have hnext : nextQueueId s = (.error (.error
      (.misc "ran out of queue IDs for process" (some .outOfIds))), s) := if_pos hid
  rw [createQueue, prepareQueue, if_neg hsize, bind_assoc]
  exact bind_of_error hnext

lemma createQueue_eq (hsize : size ≠ 0) (hid : s.proc.nextQueueId ≠ 0) :
    createQueue kt message size s =
      (checked (queuePages message size) >>= fun pageCount =>
        finishQueue kt s.proc.nextQueueId pageCount size)
        { s with proc.nextQueueId := s.proc.nextQueueId + 1 } := by
  have hnext : nextQueueId s = (.ok s.proc.nextQueueId,
      { s with proc.nextQueueId := s.proc.nextQueueId + 1 }) := if_neg hid
  simp only [createQueue, prepareQueue, if_neg hsize, bind_assoc]
  exact bind_of_ok hnext

lemma createQueue_overflow (hsize : size ≠ 0) (hid : s.proc.nextQueueId ≠ 0)
    (h : ¬ countersSize + message.slotSize * size < 2 ^ 64) :
    createQueue kt message size s = (.error (.panic .overflow),
      { s with proc.nextQueueId := s.proc.nextQueueId + 1 }) := by
  rw [createQueue_eq hsize hid, queuePages_eq_error h]
  rfl

/-! ### The memory -/

lemma wp_finishQueue_panics {id : QueueId} (h : Ready kt users lo hi s) (hpos : 0 < size)
    (hle : size + 1 ≤ 2 ^ 63) :
    wp (finishQueue kt id n size) (fun _ _ => True)
      (fun e _ => (∃ err, e = .error err) ∨ e = .panic .assertion) s := by
  have hnew : Queue.new size = .ok ⟨size, hpos, hle⟩ := by
    rw [Queue.new, dif_pos hpos, dif_pos hle]
  rw [finishQueue, wp_bind]
  refine wp_mono (wp_allocMemory h n true) ?_ ?_
  · rintro ⟨v, _ | k⟩ s' ⟨hshr, hres, -⟩
    · cases hshr
    · obtain ⟨⟨-, hlo, -⟩, -⟩ := h.kernelAddresses.alloc h.hi_lt (hres.kernel k rfl)
      have hst := h.le_lo
      dsimp only
      rw [if_neg (by omega), wp_bind, wp_checked_of_eq hnew]
      trivial
  · rintro (p | err) s' he
    · exact .inr (by rw [he.1])
    · exact .inl ⟨err, rfl⟩

lemma backed_of_served {q : UserQueue} {t : ProcessState} (h : Ready kt users lo hi s)
    (hpgs : queuePages message q.capacity = .ok n)
    (hres : Reserved s n q.userBaseAddress (some q.rootAddress) t)
    (hserv : Served kt s.proc.pageTables users s.memory q.userBaseAddress n
      (some q.rootAddress) n t.memory) : Backed kt message q t.memory := by
  have hrng : q.kernelRange message = ⟨q.rootAddress, n * pageSize⟩ := by
    rw [UserQueue.kernelRange, UserQueue.pages, hpgs]
  obtain ⟨⟨hal, hlo, hend⟩, -⟩ := h.kernelAddresses.alloc h.hi_lt (hres.kernel _ rfl)
  have hker : IsKernelRange lo hi ⟨q.rootAddress, n * pageSize⟩ :=
    ⟨hal, hlo, hend, n, queuePages_pos hpgs, rfl⟩
  refine ⟨fun r hr v hv => ?_, fun v hv => ?_⟩
  · obtain ⟨hge, hlt⟩ := mem_of_mem_initializeWrites hr hv
    obtain ⟨-, rfl⟩ := queuePages_eq_ok.mp hpgs
    have hrd := (divCeil_bounds (countersSize + message.slotSize * q.capacity)).1
    rw [hrng, Range.mem_iff]
    exact ⟨hge, by dsimp only; omega⟩
  · rw [hrng] at hv
    have hst := h.le_lo
    have hstop := h.hi_lt
    obtain ⟨hge, hlt⟩ := Range.mem_iff.mp hv
    dsimp only at hge hlt
    have hpage := (hker.mem_iff h.le_lo h.hi_lt (v := v) (by omega) (by omega)).mp hv
    rw [Nat.mul_div_cancel _ (by decide)] at hpage
    exact (hserv.kernel _ rfl).1.inside _ hpage.1 hpage.2

lemma makesRoom_of_fits (h : Ready kt users lo hi s) (hsize : size ≠ 0)
    (hid : s.proc.nextQueueId ≠ 0) (hfits : countersSize + message.slotSize * size < 2 ^ 64) :
    MakesRoom kt message size s := by
  have hpgs := queuePages_eq_ok.mpr ⟨hfits, rfl⟩
  have hrdy : Ready kt users lo hi { s with proc.nextQueueId := s.proc.nextQueueId + 1 } :=
    { h with }
  rw [MakesRoom, wp, createQueue_eq hsize hid]
  change wp _ _ _ _
  rw [wp_bind, wp_checked_of_eq hpgs]
  refine wp_mono (wp_and (wp_finishQueue_memory hrdy) (wp_finishQueue_panics hrdy
    (pos_of_ne_zero hsize) (succ_le_of_fits hfits))) ?_ fun e t he => he.2
  rintro q t ⟨⟨rfl, hres, hserv⟩, -⟩
  exact ⟨rfl, backed_of_served hrdy hpgs hres hserv⟩

/-- A queue of any number of slots has room for all of them, or the call returns an error, exactly
if the size in bytes of the queue is a word. Otherwise the kernel panics, unless the call ends
before the size is computed. -/
theorem makesRoom_iff (h : Ready kt users lo hi s) :
    MakesRoom kt message size s ↔
      size = 0 ∨ s.proc.nextQueueId = 0 ∨ countersSize + message.slotSize * size < 2 ^ 64 := by
  rcases eq_or_ne size 0 with rfl | hsize
  · rw [MakesRoom, wp, createQueue_zero]
    exact iff_of_true (.inl ⟨_, rfl⟩) (.inl rfl)
  by_cases hid : s.proc.nextQueueId = 0
  · rw [MakesRoom, wp, createQueue_of_no_id hsize hid]
    exact iff_of_true (.inl ⟨_, rfl⟩) (.inr (.inl hid))
  by_cases hfits : countersSize + message.slotSize * size < 2 ^ 64
  · exact iff_of_true (makesRoom_of_fits h hsize hid hfits) (.inr (.inr hfits))
  · refine iff_of_false ?_ (by tauto)
    rw [MakesRoom, wp, createQueue_overflow hsize hid hfits]
    rintro (⟨_, herr⟩ | herr) <;> cases herr

end

/-! ### A new process -/

def sampleSpawned : Option ProcessState :=
  match Process.spawn 1 sampleKernel with
  | some (.ok _, k) => k.processes.head?.map k.focus
  | _ => none

lemma sampleSpawned_owns {s : ProcessState} (h : s ∈ sampleSpawned) :
    ∃ users, Owns QueueTask.sampleKernelTable users 0xffff_0001_0000_0000 0xffff_0101_0000_0000 s
      [] := by
  rw [sampleSpawned] at h
  split at h
  next k hsp =>
    obtain ⟨proc, hproc, -, howns⟩ := owns_of_spawn sampleKernel_booted hsp
    rw [hproc] at h
    cases h
    exact ⟨_, howns⟩
  next => cases h

/-- A queue with 100 slots for commands takes up two pages. -/
theorem makesRoom_hundred :
    ∃ users s, Ready QueueTask.sampleKernelTable users 0xffff_0001_0000_0000
        0xffff_0101_0000_0000 s ∧
      (∃ q, (createQueue QueueTask.sampleKernelTable .command 100 s).1 = .ok q ∧
        q.kernelRange .command = ⟨0xffff_0001_0000_0000, 0x2000⟩) ∧
      MakesRoom QueueTask.sampleKernelTable .command 100 s := by
  obtain ⟨s, hs, hqu⟩ : ∃ s ∈ sampleSpawned,
      ∃ q ∈ (createQueue QueueTask.sampleKernelTable .command 100 s).1.toOption,
        q.kernelRange .command = ⟨0xffff_0001_0000_0000, 0x2000⟩ := by
    decide +kernel
  obtain ⟨users, howns⟩ := sampleSpawned_owns hs
  refine ⟨users, s, howns.ready, ?_, (makesRoom_iff howns.ready).mpr (.inr (.inr (by decide)))⟩
  obtain ⟨q, hq, hrng⟩ := hqu
  cases hres : (createQueue QueueTask.sampleKernelTable .command 100 s).1 with
  | error e =>
    rw [hres] at hq
    cases hq
  | ok q' =>
    rw [hres] at hq
    cases hq
    exact ⟨q, rfl, hrng⟩

/-- A process asks for `2 ^ 58` slots for commands, and for as many completions as a word can
count: the kernel panics on arithmetic. -/
theorem createQueue_panics :
    ∃ users s, Ready QueueTask.sampleKernelTable users 0xffff_0001_0000_0000
        0xffff_0101_0000_0000 s ∧
      (createQueue QueueTask.sampleKernelTable .command (2 ^ 58) s).1 =
        .error (.panic .overflow) ∧
      (createCompletionQueue QueueTask.sampleKernelTable (2 ^ 64 - 1) s).1 =
        .error (.panic .overflow) ∧
      ¬ MakesRoom QueueTask.sampleKernelTable .command (2 ^ 58) s := by
  obtain ⟨s, hs, hid⟩ : ∃ s ∈ sampleSpawned, s.proc.nextQueueId ≠ 0 := by
    decide +kernel
  obtain ⟨users, howns⟩ := sampleSpawned_owns hs
  have hcmd : createQueue QueueTask.sampleKernelTable .command (2 ^ 58) s =
      (.error (.panic .overflow), _) := createQueue_overflow (by decide) hid (by decide)
  have hcom : createQueue QueueTask.sampleKernelTable .completion (2 ^ 64 - 1) s =
      (.error (.panic .overflow), _) := createQueue_overflow (by decide) hid (by decide)
  refine ⟨users, s, howns.ready, by rw [hcmd], ?_, fun hroom => ?_⟩
  · rw [createCompletionQueue_eq, bind_of_error hcom]
  · rw [MakesRoom, wp, hcmd] at hroom
    rcases hroom with ⟨_, herr⟩ | herr <;> cases herr

end Kernel.Process
