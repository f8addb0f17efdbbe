import Kernel.Core.Runs
import Kernel.Memory.Paging.Drop
import Kernel.Process.Memory
import Kernel.Process.Queues

/-!
# The addresses of the kernel that belong to queues

The memory of a queue is mapped twice, for its process and for the kernel.
-/

set_option linter.dupNamespace false

namespace Kernel.Process

open Core Action Memory Kapi ProcessM QueueTask List Option
open PageTable (Sound)

def UserQueue.pages (message : Message) (q : UserQueue) : ℕ :=
  match queuePages message q.capacity with
  | .ok n => n
  | .error _ => 0

def UserQueue.kernelRange (message : Message) (q : UserQueue) : Range :=
  ⟨q.rootAddress, q.pages message * pageSize⟩

def Process.kernelRanges (proc : Process) : List Range :=
  proc.sendQueues.map (fun q => q.1.kernelRange .command) ++
    proc.recvQueues.map (·.kernelRange .completion)

structure KernelState where
  memory : TableMemory
  virtualAddressAllocator : VirtualAddressAllocator
  processes : List Process

namespace KernelState

def queueRanges (s : KernelState) : List Range := s.processes.flatMap Process.kernelRanges

def focus (s : KernelState) (proc : Process) : ProcessState :=
  ⟨s.memory, s.virtualAddressAllocator, proc⟩

def put (s : KernelState) (p : ℕ) (t : ProcessState) : KernelState :=
  ⟨t.memory, t.virtualAddressAllocator, s.processes.set p t.proc⟩

def IsFree (s : KernelState) (v : ℕ) : Prop := ∃ r ∈ s.virtualAddressAllocator.freeRanges, v ∈ r

instance (s : KernelState) (v : ℕ) : Decidable (s.IsFree v) :=
  inferInstanceAs (Decidable (∃ r ∈ s.virtualAddressAllocator.freeRanges, v ∈ r))

def IsMapped (kt : PageTable) (s : KernelState) (v : ℕ) : Prop :=
  (kt.frame s.memory (pageOf v)).isSome

instance (kt : PageTable) (s : KernelState) (v : ℕ) : Decidable (s.IsMapped kt v) :=
  inferInstanceAs (Decidable (_ = true))

end KernelState

/-! ### Calls -/

inductive QueueCall where
  | spawn (id : ProcessId)
  | createCompletionQueue (p size : ℕ)
  | createSubmissionQueue (p : ℕ) (info : CreateSubmissionQueue)
  | destroyQueue (p : ℕ) (id : QueueId)
  | drop (p : ℕ)

def Process.new (id : ProcessId) (pageTables : PageTable) : Process where
  id
  pageTables
  addressSpaceAllocator := .new pageSize (0x0000_ffff_ffff_ffff / pageSize)
  nextQueueId := firstRecvQueueId
  sendQueues := []
  recvQueues := []

abbrev Returned := Option (Except Error Unit × KernelState)

def spawn (id : ProcessId) (s : KernelState) : Returned :=
  match PageTable.empty false (.ofNat 16 id) s.memory with
  | (.ok pageTables, memory) =>
    some (.ok (), { s with memory, processes := .new id pageTables :: s.processes })
  | (.error e, memory) =>
    match ofPagingError "create process page tables" e with
    | .error e => some (.error e, { s with memory })
    | .panic _ => none

def onProcess {α : Type} (p : ℕ) (x : ProcessM α) (s : KernelState) : Returned :=
  match s.processes[p]? with
  | none => none
  | some proc =>
    match x (s.focus proc) with
    | (.ok _, t) => some (.ok (), s.put p t)
    | (.error (.error e), t) => some (.error e, s.put p t)
    | (.error (.panic _), _) => none

def dropProcess (p : ℕ) (s : KernelState) : Returned :=
  match s.processes[p]? with
  | none => none
  | some proc =>
    match proc.drop s.memory s.virtualAddressAllocator with
    | .ok (memory, vaa) => some (.ok (), ⟨memory, vaa, s.processes.eraseIdx p⟩)
    | .error _ => none

def QueueCall.run (kt : PageTable) : QueueCall → KernelState → Returned
  | .spawn id, s => Process.spawn id s
  | .createCompletionQueue p size, s => onProcess p (Process.createCompletionQueue kt size) s
  | .createSubmissionQueue p info, s => onProcess p (Process.createSubmissionQueue kt info) s
  | .destroyQueue p id, s => onProcess p (Process.destroyQueue kt id) s
  | .drop p, s => dropProcess p s

abbrev QueueEvent := Core.Event KernelState QueueCall (Except Error Unit)

def Leaks (e : QueueEvent) : Prop :=
  match e.call, e.result with
  | .destroyQueue _ _, .ok _ => True
  | .drop p, .ok _ => ∃ proc ∈ e.before.processes[p]?, proc.sendQueues ≠ [] ∨ proc.recvQueues ≠ []
  | .createCompletionQueue _ _, .error err => GivesUp err
  | .createSubmissionQueue _ _, .error err => GivesUp err
  | _, _ => False

instance : DecidablePred Leaks
  | ⟨.destroyQueue _ _, .ok _, _, _⟩ => .isTrue trivial
  | ⟨.drop p, .ok _, s, _⟩ => inferInstanceAs (Decidable (∃ proc ∈ s.processes[p]?, _ ∨ _))
  | ⟨.createCompletionQueue _ _, .error err, _, _⟩ => inferInstanceAs (Decidable (GivesUp err))
  | ⟨.createSubmissionQueue _ _, .error err, _, _⟩ => inferInstanceAs (Decidable (GivesUp err))
  | ⟨.spawn _, .ok _, _, _⟩ | ⟨.spawn _, .error _, _, _⟩ | ⟨.createCompletionQueue _ _, .ok _, _, _⟩
  | ⟨.createSubmissionQueue _ _, .ok _, _, _⟩ | ⟨.destroyQueue _ _, .error _, _, _⟩
  | ⟨.drop _, .error _, _, _⟩ => .isFalse id

/-! ### What should hold -/

structure QueuesMatch (kt : PageTable) (s₀ s : KernelState) : Prop where
  taken : ∀ v, s₀.IsFree v → (¬ s.IsFree v ↔ ∃ r ∈ s.queueRanges, v ∈ r)
  mapped : ∀ v, 0xffff_0000_0000_0000 ≤ v → v < 2 ^ 64 → ¬ s₀.IsMapped kt v →
    (s.IsMapped kt v ↔ ∃ r ∈ s.queueRanges, v ∈ r)

structure Booted (kt : PageTable) (lo hi : ℕ) (s : KernelState) : Prop where
  high : kt.highAddresses = true
  le_lo : 0xffff_0000_0000_0000 ≤ lo
  hi_lt : hi < 2 ^ 64
  sound : Sound kt (s.processes.map (·.pageTables)) s.memory
  processes : ∀ proc ∈ s.processes, proc.pageTables.highAddresses = false ∧
    proc.addressSpaceAllocator.Manages 0 (2 ^ 48)
  kernelAddresses : s.virtualAddressAllocator.Manages lo hi
  no_queues : ∀ proc ∈ s.processes, proc.sendQueues = [] ∧ proc.recvQueues = []
  disjoint : ∀ v, coverage s.virtualAddressAllocator.freeRanges v ≤ 1
  unmapped : ∀ v, s.IsFree v → ¬ s.IsMapped kt v

/-! ### What the calls do to one process -/

section process

variable {kt : PageTable} {users : List PageTable} {lo hi : ℕ} {s : ProcessState}
  {message : Message} {size n : ℕ}

structure QueueAdded (kt : PageTable) (users : List PageTable) (s : ProcessState) (r : Range)
    (s' : ProcessState) : Prop where
  sound : Sound kt users s'.memory
  pageTables_eq : s'.proc.pageTables = s.proc.pageTables
  addresses : s'.proc.addressSpaceAllocator.Manages 0 (2 ^ 48)
  taken : ∃ n, 0 < n ∧ r.len = n * pageSize ∧
    s.virtualAddressAllocator.alloc n = .ok (.ok r.start, s'.virtualAddressAllocator) ∧
    kt.Provided s.memory (pageOf r.start) n s'.memory
  ranges : s'.proc.kernelRanges.Perm (r :: s.proc.kernelRanges)

structure QueueRefused (s s' : ProcessState) : Prop where
  memory_eq : s'.memory = s.memory
  kernelAddresses_eq : s'.virtualAddressAllocator = s.virtualAddressAllocator
  pageTables_eq : s'.proc.pageTables = s.proc.pageTables
  addresses : s'.proc.addressSpaceAllocator.Manages 0 (2 ^ 48)
  ranges : s'.proc.kernelRanges = s.proc.kernelRanges

structure QueueLost (s s' : ProcessState) : Prop where
  taken : ∃ n k, 0 < n ∧
    s.virtualAddressAllocator.alloc n = .ok (.ok k, s'.virtualAddressAllocator)
  ranges : s'.proc.kernelRanges = s.proc.kernelRanges

lemma wp_prepareQueue :
    wp (prepareQueue message size)
      (fun r s' => queuePages message size = .ok r.2 ∧
        ∃ next, s' = { s with proc.nextQueueId := next })
      (fun e s' => ∀ err, e = .error err → ¬ GivesUp err ∧ s' = s) s := by
  rw [prepareQueue, wp_ite]
  refine ⟨fun _ err herr => ?_, fun _ => ?_⟩
  · cases herr
    exact ⟨by simp [GivesUp], rfl⟩
  rw [wp_bind]
  by_cases hid : s.proc.nextQueueId = 0
  · have hrun : nextQueueId s = (.error (.error
        (.misc "ran out of queue IDs for process" (some .outOfIds))), s) := if_pos hid
    rw [wp, hrun]
    intro err herr
    cases herr
    exact ⟨by simp [GivesUp], rfl⟩
  · have hrun : nextQueueId s = (.ok s.proc.nextQueueId,
        { s with proc.nextQueueId := s.proc.nextQueueId + 1 }) := if_neg hid
    rw [wp, hrun]
    dsimp only
    rw [wp_bind]
    refine wp_lift (fun pages hpgs => ⟨hpgs, _, rfl⟩) fun p _ err herr => ?_
    cases herr

variable {id : QueueId}

lemma wp_finishQueue_memory (h : Ready kt users lo hi s) :
    wp (finishQueue kt id n size)
      (fun q s' => q.capacity = size ∧ Reserved s n q.userBaseAddress (some q.rootAddress) s' ∧
        Served kt s.proc.pageTables users s.memory q.userBaseAddress n (some q.rootAddress) n
          s'.memory)
      (fun e s' => ∀ err, e = .error err → AllocFailed kt users s n true (.error err) s') s := by
  rw [finishQueue, wp_bind]
  refine wp_mono (wp_allocMemory h n true) ?_ ?_
  · rintro ⟨v, _ | k⟩ s' ⟨hshr, hres, hserv⟩
    · cases hshr
    · dsimp only
      rw [wp_ite]
      refine ⟨fun _ err herr => (by cases herr), fun _ => ?_⟩
      rw [wp_bind]
      refine wp_lift (fun queue hqu => ⟨?_, hres, hserv⟩) fun p _ err herr => by cases herr
      rw [Queue.new] at hqu
      split_ifs at hqu
      cases hqu
      rfl
  · rintro (p | e) s' he err ⟨⟩
    exact he

variable {t s' : ProcessState}

lemma queueAdded_of_served (h : Ready kt users lo hi s) {q : UserQueue}
    (hpgs : queuePages message q.capacity = .ok n)
    (hres : Reserved s n q.userBaseAddress (some q.rootAddress) t)
    (hserv : Served kt s.proc.pageTables users s.memory q.userBaseAddress n
      (some q.rootAddress) n t.memory)
    (hmem : s'.memory = t.memory)
    (hker : s'.virtualAddressAllocator = t.virtualAddressAllocator)
    (hproc : s'.proc.pageTables = t.proc.pageTables ∧
      s'.proc.addressSpaceAllocator = t.proc.addressSpaceAllocator)
    (hrngs : s'.proc.kernelRanges.Perm (q.kernelRange message :: t.proc.kernelRanges)) :
    QueueAdded kt users s (q.kernelRange message) s' where
  sound := hmem ▸ hserv.sound
  pageTables_eq := by rw [hproc.1, hres.proc_eq]
  addresses := by
    rw [hproc.2]
    exact (h.addresses.alloc (by decide) hres.user).2.1
  taken := by
    refine ⟨n, queuePages_pos hpgs, ?_, ?_, ?_⟩
    · rw [UserQueue.kernelRange, UserQueue.pages, hpgs]
    · rw [hker]
      exact hres.kernel _ rfl
    · rw [hmem]
      exact (hserv.kernel _ rfl).1
  ranges := by
    rw [hres.proc_eq] at hrngs
    exact hrngs

lemma queueFailed_of_allocFailed (h : Ready kt users lo hi s) {err : Error}
    (hn : 0 < n) (he : AllocFailed kt users s n true (.error err) s') :
    GivesUp err ∧ QueueLost s s' ∨ ¬ GivesUp err ∧ QueueRefused s s' := by
  rcases he with ⟨hgiv, v, kv, hshr, hres, -⟩ | ⟨hgiv, hmem, hker, hcas⟩
  · obtain ⟨k, rfl⟩ := isSome_iff_exists.mp hshr
    refine .inl ⟨hgiv, ⟨n, k, hn, hres.kernel k rfl⟩, ?_⟩
    rw [hres.proc_eq]
    rfl
  · refine .inr ⟨hgiv, ?_⟩
    rcases hcas with rfl | ⟨-, v, hres⟩
    · exact ⟨rfl, rfl, rfl, h.addresses, rfl⟩
    · refine ⟨hmem, hker, by rw [hres.proc_eq], ?_, ?_⟩
      · exact (h.addresses.alloc (by decide) hres.user).2.1
      · rw [hres.proc_eq]
        rfl

def QueueFailed (s : ProcessState) (e : Failure) (s' : ProcessState) : Prop :=
  ∀ err, e = .error err → GivesUp err ∧ QueueLost s s' ∨ ¬ GivesUp err ∧ QueueRefused s s'

lemma wp_createQueue (message : Message) (register : UserQueue → ProcessM NewQueue)
    (h : Ready kt users lo hi s)
    (hreg : ∀ q t, wp (register q) (fun _ s' => s'.memory = t.memory ∧
        s'.virtualAddressAllocator = t.virtualAddressAllocator ∧
        s'.proc.pageTables = t.proc.pageTables ∧
        s'.proc.addressSpaceAllocator = t.proc.addressSpaceAllocator ∧
        s'.proc.kernelRanges.Perm (q.kernelRange message :: t.proc.kernelRanges))
      (fun _ _ => False) t) :
    wp (prepareQueue message size >>= fun r =>
        finishQueue kt r.1 r.2 size >>= register)
      (fun _ s' => ∃ r, QueueAdded kt users s r s') (QueueFailed s) s := by
  rw [wp_bind]
  refine wp_mono wp_prepareQueue ?_ fun e s' he err herr => ?_
  · rintro ⟨id, n⟩ _ ⟨hpgs, next, rfl⟩
    have hrdy : Ready kt users lo hi { s with proc.nextQueueId := next } :=
      { h with }
    rw [wp_bind]
    refine wp_mono (wp_finishQueue_memory hrdy) ?_ fun e s' he err herr => ?_
    · rintro q t ⟨rfl, hres, hserv⟩
      refine wp_mono (hreg q t) ?_ fun _ _ hfal => hfal.elim
      rintro _ s' ⟨hmem, hker, hpt, haddr, hrngs⟩
      have hadd := queueAdded_of_served hrdy hpgs hres hserv hmem hker
        ⟨hpt, haddr⟩ hrngs
      exact ⟨_, { hadd with }⟩
    · rcases queueFailed_of_allocFailed hrdy (queuePages_pos hpgs) (he err herr) with
        ⟨hgiv, hlost⟩ | ⟨hgiv, href⟩
      · exact .inl ⟨hgiv, hlost.taken, hlost.ranges⟩
      · exact .inr ⟨hgiv, { href with }⟩
  · obtain ⟨hgiv, rfl⟩ := he err herr
    exact .inr ⟨hgiv, rfl, rfl, rfl, h.addresses, rfl⟩

lemma wp_createCompletionQueue (h : Ready kt users lo hi s) :
    wp (createCompletionQueue kt size) (fun _ s' => ∃ r, QueueAdded kt users s r s')
      (QueueFailed s) s := by
  refine wp_createQueue .completion (fun q => pushRecv q >>= fun _ => pure q.newQueue) h
    fun q t => ?_
  rw [wp_bind, pushRecv, wp_modify, wp_pure]
  exact ⟨rfl, rfl, rfl, rfl, perm_middle⟩

lemma wp_createSubmissionQueue (h : Ready kt users lo hi s) {info : CreateSubmissionQueue} :
    wp (createSubmissionQueue kt info) (fun _ s' => ∃ r, QueueAdded kt users s r s')
      (QueueFailed s) s := by
  rw [createSubmissionQueue, findRecv, wp_bind, wp_bind, wp_get]
  cases s.proc.recvQueues.find? fun q => q.id = info.associatedCompletionQueue with
  | none =>
    intro err herr
    cases herr
    exact .inr ⟨by simp [GivesUp], rfl, rfl, rfl, h.addresses, rfl⟩
  | some recv =>
    refine wp_createQueue .command (fun q => pushSend q recv >>= fun _ => pure q.newQueue) h
      fun q t => ?_
    rw [wp_bind, pushSend, wp_modify, wp_pure]
    exact ⟨rfl, rfl, rfl, rfl, .refl _⟩

lemma onlyPanics_freeRegion (region : MappedRegion) : PageTable.OnlyPanics (freeRegion region) := by
  intro t
  rw [wp, freeRegion]
  cases t.pma.freePages region.basePhysAddr region.pageCount with
  | error p => exact ⟨p, rfl⟩
  | ok pma => trivial

lemma wp_freeQueue (userAddr kernelAddr : ℕ) :
    wp (freeQueue kt (some (userAddr, kernelAddr, n)))
      (fun _ s' => s'.virtualAddressAllocator = s.virtualAddressAllocator ∧ s'.queues = s.queues)
      (fun e _ => ∃ p, e = .panic p) s := by
  have hpan : ∀ (reason : String) (e : PageTable.PagingError), (∃ p, e = .panic p) →
      ∃ p, ofPagingError reason e = .panic p := by
    rintro reason _ ⟨p, rfl⟩
    exact ⟨p, rfl⟩
  rw [freeQueue, freeMemory, wp_bind, wp_bind, wp_get, wp_bind, wp_paging]
  refine wp_mono (PageTable.onlyPanics_unmapRangeCustom onlyPanics_freeRegion _ _ _ _) ?_
    fun e _ he => hpan _ e he
  intro _ memory _
  cases hfree : s.proc.addressSpaceAllocator.free userAddr n with
  | error p =>
    rw [wp, freeAddresses, hfree]
    exact ⟨p, rfl⟩
  | ok vaa =>
    rw [wp, freeAddresses, hfree]
    dsimp only
    rw [wp_paging]
    exact wp_mono (PageTable.onlyPanics_unmapRange kernelAddr n kt memory)
      (fun _ _ _ => ⟨rfl, rfl⟩) fun e _ he => hpan _ e he

lemma wp_regionOf {q : Option UserQueue} {Q : Option (ℕ × ℕ × ℕ) → ProcessState → Prop}
    {E : Failure → ProcessState → Prop} (hok : ∀ r, r.isSome = q.isSome → Q r s)
    (hpan : ∀ p, E (.panic p) s) : wp (regionOf message q) Q E s := by
  cases q with
  | none => exact hok none rfl
  | some q =>
    change wp (checked _ >>= fun r => pure (some r)) Q E s
    rw [wp_bind]
    exact wp_lift (fun r _ => hok (some r) rfl) fun p _ => hpan p

structure QueueGone (s s' : ProcessState) : Prop where
  kernelAddresses_eq : s'.virtualAddressAllocator = s.virtualAddressAllocator
  removed : ∃ r ∈ s.proc.kernelRanges, ∀ v,
    r.ind v + coverage s'.proc.kernelRanges v ≤ coverage s.proc.kernelRanges v

lemma wp_freeQueue_gone {region : Option (ℕ × ℕ × ℕ)} {r : Range}
    (hreg : region.isSome) (hr : r ∈ s.proc.kernelRanges)
    (hker : t.virtualAddressAllocator = s.virtualAddressAllocator)
    (hle : ∀ v, r.ind v + coverage t.proc.kernelRanges v ≤ coverage s.proc.kernelRanges v) :
    wp (freeQueue kt region) (fun _ s' => QueueGone s s')
      (fun e s' => ∀ err, e = .error err → s' = s) t := by
  obtain ⟨⟨userAddr, kernelAddr, pages⟩, rfl⟩ := isSome_iff_exists.mp hreg
  refine wp_mono (wp_freeQueue userAddr kernelAddr) ?_ ?_
  · rintro _ s' ⟨haddr, hqs⟩
    have hrngs : s'.proc.kernelRanges = t.proc.kernelRanges := by
      rw [Process.kernelRanges, Process.kernelRanges, show s'.proc.sendQueues = _ from
        congrArg Queues.sendQueues hqs, show s'.proc.recvQueues = _ from
        congrArg Queues.recvQueues hqs]
      rfl
    exact ⟨haddr.trans hker, r, hr, hrngs ▸ hle⟩
  · rintro _ s' ⟨p, rfl⟩ err herr
    cases herr

lemma wp_destroyQueue :
    wp (destroyQueue kt id) (fun _ s' => QueueGone s s')
      (fun e s' => ∀ err, e = .error err → s' = s) s := by
  rw [destroyQueue, wp_bind, wp_get, wp_ite]
  refine ⟨fun _ _ _ => rfl, fun _ => ?_⟩
  rw [removeQueue, removeRecv, wp_bind, wp_bind, wp_get, wp_bind, wp_modify, wp_pure, wp_bind]
  refine wp_regionOf (fun recvRegion hrecv => ?_) fun p err herr => by cases herr
  rw [removeSend, wp_bind, wp_bind, wp_get, wp_bind, wp_modify, wp_pure, wp_bind]
  refine wp_regionOf (fun sendRegion hsend => ?_) fun p err herr => by cases herr
  dsimp only at hsend
  have hsendLe := coverage_le_of_sublist
    ((eraseP_sublist (l := s.proc.sendQueues) (p := fun q => q.1.id = id)).map
      fun q => q.1.kernelRange .command)
  cases hfind : s.proc.recvQueues.find? fun q => q.id = id with
  | some q =>
    rw [hfind] at hrecv
    refine wp_freeQueue_gone (r := q.kernelRange .completion) ?_ ?_ rfl fun v => ?_
    · rw [isSome_or, hrecv]
      rfl
    · exact mem_append_right _ (mem_map_of_mem (mem_of_find?_eq_some hfind))
    · have hrem := coverage_map_eraseP (·.kernelRange .completion) hfind v
      have hle := hsendLe v
      simp only [Process.kernelRanges, coverage_append]
      omega
  | none =>
    rw [hfind] at hrecv
    have hkept : (s.proc.recvQueues.eraseP fun q => q.id = id) = s.proc.recvQueues :=
      eraseP_of_forall_not fun q hq => by simpa using List.find?_eq_none.mp hfind q hq
    rw [hkept]
    cases hfind' : s.proc.sendQueues.find? fun q => q.1.id = id with
    | some q =>
      rw [hfind'] at hsend
      refine wp_freeQueue_gone (r := q.1.kernelRange .command) ?_ ?_ rfl fun v => ?_
      · rw [isSome_or, hsend]
        exact Bool.or_true _
      · exact mem_append_left _ (mem_map.mpr ⟨q, mem_of_find?_eq_some hfind', rfl⟩)
      · have hrem := coverage_map_eraseP (fun q => q.1.kernelRange .command) hfind' v
        simp only [Process.kernelRanges, coverage_append]
        omega
    | none =>
      rw [hfind'] at hsend
      have hkept' : (s.proc.sendQueues.eraseP fun q => q.1.id = id) = s.proc.sendQueues :=
        eraseP_of_forall_not fun q hq => by simpa using List.find?_eq_none.mp hfind' q hq
      obtain rfl := isNone_iff_eq_none.mp (by simpa using hrecv)
      obtain rfl := isNone_iff_eq_none.mp (by simpa using hsend)
      rw [hkept']
      exact fun _ _ => rfl

lemma drop_ok {proc : Process} {memory memory' : TableMemory}
    {vaa vaa' : VirtualAddressAllocator} (hsnd : Sound kt users memory)
    (hpt : proc.pageTables ∈ users) (h : proc.drop memory vaa = .ok (memory', vaa')) :
    ∃ pma, memory' = { memory with pma } ∧ proc.pageTables.ChangedIn memory pma ∧
      (proc.sendQueues = [] ∧ proc.recvQueues = [] → vaa' = vaa) := by
  simp only [Process.drop, PageTable.drop, bind_eq_ok] at h
  obtain ⟨vaa₁, hsend, vaa₂, hrecv, it, hit, pma₁, hregs, _, ⟨pma₂, htabs, hmem⟩, hret⟩ := h
  cases hmem
  cases hret
  have hfrd := PageTable.freeRegions_changedIn hsnd hpt (PageTable.startingAt_stands hit)
    (.refl _ _) hregs
  refine ⟨pma₂, rfl, ?_, ?_⟩
  · exact PageTable.dropTable_changedIn (hsnd.supplied _ mem_cons_self).aligned
      (q := []) rfl rfl (hsnd.root_aligned _ hpt) hfrd htabs
  · rintro ⟨hs, hr⟩
    rw [hs] at hsend
    cases hsend
    rw [hr] at hrecv
    cases hrecv
    rfl

end process

/-! ### The invariant -/

structure IsKernelRange (lo hi : ℕ) (r : Range) : Prop where
  aligned : r.start % pageSize = 0
  le_start : lo ≤ r.start
  end_le : r.start + r.len ≤ hi
  len_eq : ∃ n, 0 < n ∧ r.len = n * pageSize

structure QueuesKept (kt : PageTable) (lo hi : ℕ) (s₀ s : KernelState) : Prop where
  sound : Sound kt (s.processes.map (·.pageTables)) s.memory
  processes : ∀ proc ∈ s.processes, proc.pageTables.highAddresses = false ∧
    proc.addressSpaceAllocator.Manages 0 (2 ^ 48)
  kernelAddresses : s.virtualAddressAllocator.Manages lo hi
  coverage_eq : ∀ v, coverage s.virtualAddressAllocator.freeRanges v +
    coverage s.queueRanges v = coverage s₀.virtualAddressAllocator.freeRanges v
  mapped_iff : ∀ x < halfPages, (kt.frame s.memory x).isSome ↔
    (kt.frame s₀.memory x).isSome ∨
      ∃ r ∈ s.queueRanges, pageOf r.start ≤ x ∧ x < pageOf r.start + r.len / pageSize
  ranges : ∀ r ∈ s.queueRanges, IsKernelRange lo hi r

section system

variable {kt : PageTable} {lo hi : ℕ} {s₀ s s' : KernelState} {p : ℕ} {proc : Process}
  {t : ProcessState} {r : Range} {v : ℕ}

lemma isFree_iff : s.IsFree v ↔ 0 < coverage s.virtualAddressAllocator.freeRanges v :=
  coverage_pos_iff.symm

lemma Booted.queueRanges_eq (h : Booted kt lo hi s₀) : s₀.queueRanges = [] := by
  refine flatMap_eq_nil_iff.mpr fun proc hproc => ?_
  obtain ⟨hsend, hrecv⟩ := h.no_queues proc hproc
  rw [Process.kernelRanges, hsend, hrecv]
  rfl

lemma Booted.kept (h : Booted kt lo hi s₀) : QueuesKept kt lo hi s₀ s₀ := by
  refine ⟨h.sound, h.processes, h.kernelAddresses, fun v => ?_, fun x _ => ?_, fun r hr => ?_⟩
  · rw [h.queueRanges_eq, coverage_nil, add_zero]
  · simp [h.queueRanges_eq]
  · rw [h.queueRanges_eq] at hr
    cases hr

lemma IsKernelRange.mem_iff (h : IsKernelRange lo hi r) (hlo : 0xffff_0000_0000_0000 ≤ lo)
    (hhi : hi < 2 ^ 64) (hv : 0xffff_0000_0000_0000 ≤ v) (hv' : v < 2 ^ 64) :
    v ∈ r ↔ pageOf r.start ≤ pageOf v ∧ pageOf v < pageOf r.start + r.len / pageSize := by
  obtain ⟨hal, hst, hend, n, -, hlen⟩ := h
  rw [Range.mem_iff, hlen, Nat.mul_div_cancel _ (by decide)]
  simp only [pageOf, halfPages, pageSize] at *
  omega

lemma IsKernelRange.start_mem (h : IsKernelRange lo hi r) : r.start ∈ r := by
  obtain ⟨n, hn, hlen⟩ := h.len_eq
  refine ⟨le_refl _, ?_⟩
  simp only [pageSize] at hlen
  omega

lemma exists_split {l : List Process} (h : l[p]? = some proc) :
    ∃ before after, l = before ++ proc :: after ∧
      (∀ x, l.set p x = before ++ x :: after) ∧ l.eraseIdx p = before ++ after := by
  obtain ⟨hlt, rfl⟩ := List.getElem?_eq_some_iff.mp h
  refine ⟨l.take p, l.drop (p + 1), ?_, fun x => ?_, eraseIdx_eq_take_drop_succ l p⟩
  · rw [getElem_cons_drop, take_append_drop]
  · rw [set_eq_take_append_cons_drop, if_pos hlt]

lemma exists_others (hp : s.processes[p]? = some proc) :
    ∃ others, s.queueRanges.Perm (proc.kernelRanges ++ others) ∧
      (∀ t, (s.put p t).queueRanges.Perm (t.proc.kernelRanges ++ others)) ∧
      ((s.processes.eraseIdx p).flatMap Process.kernelRanges).Perm others := by
  obtain ⟨before, after, hspl, hset, hera⟩ := exists_split hp
  refine ⟨before.flatMap Process.kernelRanges ++ after.flatMap Process.kernelRanges, ?_,
    fun t => ?_, ?_⟩
  · rw [KernelState.queueRanges, hspl, flatMap_append, flatMap_cons]
    exact perm_append_comm_assoc _ _ _
  · rw [KernelState.queueRanges, KernelState.put, hset, flatMap_append, flatMap_cons]
    exact perm_append_comm_assoc _ _ _
  · rw [hera, flatMap_append]

section position

variable (h : QueuesKept kt lo hi s₀ s) (hp : s.processes[p]? = some proc)
include h hp

lemma QueuesKept.ready (hb : Booted kt lo hi s₀) :
    Ready kt (s.processes.map (·.pageTables)) lo hi (s.focus proc) := by
  have hmem := mem_of_getElem? hp
  obtain ⟨hlow, haddr⟩ := h.processes proc hmem
  exact ⟨h.sound, mem_map_of_mem hmem, hlow, hb.high, haddr, h.kernelAddresses, hb.le_lo, hb.hi_lt⟩

lemma QueuesKept.put_processes (hpt : t.proc.pageTables = proc.pageTables)
    (haddr : t.proc.addressSpaceAllocator.Manages 0 (2 ^ 48)) :
    (s.put p t).processes.map (·.pageTables) = s.processes.map (·.pageTables) ∧
    ∀ proc' ∈ (s.put p t).processes, proc'.pageTables.highAddresses = false ∧
      proc'.addressSpaceAllocator.Manages 0 (2 ^ 48) := by
  obtain ⟨before, after, hspl, hset, -⟩ := exists_split hp
  have hprs : (s.put p t).processes = before ++ t.proc :: after := hset t.proc
  have hold := h.processes
  rw [hspl] at hold
  constructor
  · rw [hprs, hspl, map_append, map_append, map_cons, map_cons, hpt]
  · rw [hprs]
    intro proc' hproc'
    rcases mem_append.mp hproc' with hproc' | hproc'
    · exact hold proc' (mem_append_left _ hproc')
    · rcases mem_cons.mp hproc' with rfl | hproc'
      · refine ⟨?_, haddr⟩
        rw [hpt]
        exact (hold proc (mem_append_right _ mem_cons_self)).1
      · exact hold proc' (mem_append_right _ (.tail _ hproc'))

lemma QueuesKept.added (hb : Booted kt lo hi s₀)
    (hadd : QueueAdded kt (s.processes.map (·.pageTables)) (s.focus proc) r t) :
    QueuesKept kt lo hi s₀ (s.put p t) := by
  obtain ⟨hmap, hprs⟩ := h.put_processes hp hadd.pageTables_eq hadd.addresses
  obtain ⟨others, hold, hnew, -⟩ := exists_others hp
  obtain ⟨n, hn, hlen, hall, hprov⟩ := hadd.taken
  obtain ⟨⟨hal, hlo, hend⟩, hman, hcove⟩ := h.kernelAddresses.alloc hb.hi_lt hall
  have hrngs : ((s.put p t).queueRanges).Perm (r :: s.queueRanges) :=
    (hnew t).trans ((hadd.ranges.append_right others).trans (hold.symm.cons r))
  have hrng : IsKernelRange lo hi r := ⟨hal, hlo, by rwa [hlen], n, hn, hlen⟩
  refine ⟨?_, hprs, hman, fun v => ?_, fun x hx => ?_, fun r' hr' => ?_⟩
  · rw [hmap]
    exact hadd.sound
  · have heq := h.coverage_eq v
    have hcov := hcove v
    rw [coverage_perm hrngs, coverage_cons]
    rw [← hlen] at hcov
    have hput : (s.put p t).virtualAddressAllocator = t.virtualAddressAllocator := rfl
    rw [hput]
    have hrng : r = ⟨r.start, r.len⟩ := rfl
    rw [← hrng] at hcov
    change coverage s.virtualAddressAllocator.freeRanges v = _ at hcov
    omega
  · have hiff := h.mapped_iff x hx
    have hpgs : r.len / pageSize = n := by rw [hlen, Nat.mul_div_cancel _ (by decide)]
    simp only [hrngs.mem_iff, exists_mem_cons_iff]
    rw [hpgs]
    by_cases hin : pageOf r.start ≤ x ∧ x < pageOf r.start + n
    · exact iff_of_true (hprov.inside x hin.1 hin.2) (.inr (.inl hin))
    · have hsame : kt.frame (s.put p t).memory x = kt.frame s.memory x :=
        (hprov.outside x hx hin).frame_eq
      rw [hsame, hiff, or_iff_right hin]
  · rcases mem_cons.mp (hrngs.mem_iff.mp hr') with rfl | hr'
    · exact hrng
    · exact h.ranges r' hr'

lemma QueuesKept.refused (href : QueueRefused (s.focus proc) t) :
    QueuesKept kt lo hi s₀ (s.put p t) := by
  obtain ⟨hmap, hprs⟩ := h.put_processes hp href.pageTables_eq href.addresses
  obtain ⟨others, hold, hnew, -⟩ := exists_others hp
  have hrngs : ((s.put p t).queueRanges).Perm s.queueRanges := by
    refine (hnew t).trans ?_
    rw [href.ranges]
    exact hold.symm
  have hmem : (s.put p t).memory = s.memory := href.memory_eq
  have haddr : (s.put p t).virtualAddressAllocator = s.virtualAddressAllocator :=
    href.kernelAddresses_eq
  refine ⟨?_, hprs, ?_, fun v => ?_, fun x hx => ?_, fun r' hr' => ?_⟩
  · rw [hmap, hmem]
    exact h.sound
  · rw [haddr]
    exact h.kernelAddresses
  · rw [haddr, coverage_perm hrngs]
    exact h.coverage_eq v
  · simp only [hrngs.mem_iff, hmem]
    exact h.mapped_iff x hx
  · exact h.ranges r' (hrngs.mem_iff.mp hr')

lemma QueuesKept.not_match_of_lost (hb : Booted kt lo hi s₀) (hlost : QueueLost (s.focus proc) t) :
    ¬ QueuesMatch kt s₀ (s.put p t) := by
  intro hmat
  obtain ⟨n, k, hn, hall⟩ := hlost.taken
  obtain ⟨-, -, hcove⟩ := h.kernelAddresses.alloc hb.hi_lt hall
  obtain ⟨others, hold, hnew, -⟩ := exists_others hp
  have hrngs : (s.put p t).queueRanges.Perm s.queueRanges := by
    refine (hnew t).trans ?_
    rw [hlost.ranges]
    exact hold.symm
  have hcov := hcove k
  rw [Range.ind_eq_one ⟨le_refl _, by simp only [pageSize]; omega⟩] at hcov
  have heq := h.coverage_eq k
  have hle := hb.disjoint k
  have htk := hmat.taken k (isFree_iff.mpr (by omega))
  rw [isFree_iff, ← coverage_pos_iff, coverage_perm hrngs] at htk
  change ¬ 0 < coverage t.virtualAddressAllocator.freeRanges k ↔ _ at htk
  omega

lemma QueuesKept.not_match_of_gone (hb : Booted kt lo hi s₀) (hgone : QueueGone (s.focus proc) t) :
    ¬ QueuesMatch kt s₀ (s.put p t) := by
  intro hmat
  obtain ⟨r, hr, hle⟩ := hgone.removed
  obtain ⟨others, hold, hnew, -⟩ := exists_others hp
  have hrng := h.ranges r (hold.mem_iff.mpr (mem_append_left _ hr))
  have hcov : r.ind r.start + coverage t.proc.kernelRanges r.start ≤
      coverage proc.kernelRanges r.start := hle r.start
  rw [Range.ind_eq_one hrng.start_mem] at hcov
  have heq := h.coverage_eq r.start
  have hone := hb.disjoint r.start
  rw [coverage_perm hold, coverage_append] at heq
  have htk := hmat.taken r.start (isFree_iff.mpr (by omega))
  rw [isFree_iff, ← coverage_pos_iff, coverage_perm (hnew t), coverage_append] at htk
  have haddr : (s.put p t).virtualAddressAllocator = s.virtualAddressAllocator :=
    hgone.kernelAddresses_eq
  rw [haddr] at htk
  omega

variable {memory : TableMemory} {vaa : VirtualAddressAllocator}

lemma QueuesKept.dropped (hnone : proc.sendQueues = [] ∧ proc.recvQueues = [])
    (hdrop : proc.drop s.memory s.virtualAddressAllocator = .ok (memory, vaa)) :
    QueuesKept kt lo hi s₀ ⟨memory, vaa, s.processes.eraseIdx p⟩ := by
  have hmem : proc.pageTables ∈ s.processes.map (·.pageTables) :=
    mem_map_of_mem (mem_of_getElem? hp)
  obtain ⟨pma, rfl, hchg, haddr⟩ := drop_ok h.sound hmem hdrop
  obtain rfl := haddr hnone
  obtain ⟨before, after, hspl, -, hera⟩ := exists_split hp
  obtain ⟨others, hold, -, hoth⟩ := exists_others hp
  have hemp : proc.kernelRanges = [] := by
    rw [Process.kernelRanges, hnone.1, hnone.2]
    rfl
  rw [hemp, nil_append] at hold
  have hrngs : (KernelState.queueRanges ⟨{ s.memory with pma }, s.virtualAddressAllocator,
      s.processes.eraseIdx p⟩).Perm s.queueRanges := hoth.trans hold.symm
  refine ⟨?_, fun proc' hproc' => ?_, h.kernelAddresses, fun v => ?_, fun x hx => ?_,
    fun r' hr' => ?_⟩
  · have hsnd := h.sound
    rw [hspl, map_append, map_cons] at hsnd
    dsimp only
    rw [hera, map_append]
    exact hsnd.drop hchg
  · exact h.processes proc' (mem_of_mem_eraseIdx hproc')
  · rw [coverage_perm hrngs]
    exact h.coverage_eq v
  · simp only [hrngs.mem_iff]
    exact h.mapped_iff x hx
  · exact h.ranges r' (hrngs.mem_iff.mp hr')

lemma QueuesKept.not_match_of_dropped (hb : Booted kt lo hi s₀)
    (hsome : proc.sendQueues ≠ [] ∨ proc.recvQueues ≠ [])
    (hdrop : proc.drop s.memory s.virtualAddressAllocator = .ok (memory, vaa)) :
    ¬ QueuesMatch kt s₀ ⟨memory, vaa, s.processes.eraseIdx p⟩ := by
  intro hmat
  have hmem : proc.pageTables ∈ s.processes.map (·.pageTables) :=
    mem_map_of_mem (mem_of_getElem? hp)
  obtain ⟨pma, rfl, -, -⟩ := drop_ok h.sound hmem hdrop
  obtain ⟨others, hold, -, hoth⟩ := exists_others hp
  -- Some queue of the process.
  obtain ⟨r, hr⟩ : ∃ r, r ∈ proc.kernelRanges := by
    refine exists_mem_of_ne_nil _ fun hnil => ?_
    rw [Process.kernelRanges, append_eq_nil_iff, map_eq_nil_iff, map_eq_nil_iff] at hnil
    exact hsome.elim (absurd hnil.1) (absurd hnil.2)
  have hr' := hold.mem_iff.mpr (mem_append_left others hr)
  have hrng := h.ranges r hr'
  have hlo := hb.le_lo.trans hrng.le_start
  have hhi : r.start < 2 ^ 64 := by
    have := hrng.end_le
    have := hb.hi_lt
    omega
  have hcov : 0 < coverage proc.kernelRanges r.start :=
    coverage_pos_iff.mpr ⟨r, hr, hrng.start_mem⟩
  have heq := h.coverage_eq r.start
  have hone := hb.disjoint r.start
  rw [coverage_perm hold, coverage_append] at heq
  have hfree : s₀.IsFree r.start := isFree_iff.mpr (by omega)
  have hpage : pageOf r.start < halfPages := Nat.mod_lt _ (by decide)
  have hwas : (kt.frame s.memory (pageOf r.start)).isSome :=
    (h.mapped_iff _ hpage).mpr
      (.inr ⟨r, hr', (hrng.mem_iff hb.le_lo hb.hi_lt hlo hhi).mp hrng.start_mem⟩)
  -- The drop has not touched the tables.
  have hmap := (hmat.mapped r.start hlo hhi (hb.unmapped _ hfree)).mp hwas
  have hnone := coverage_pos_iff.mpr hmap
  rw [KernelState.queueRanges, coverage_perm hoth] at hnone
  omega

end position

variable {result : Except Error Unit}

lemma QueuesKept.spawned (h : QueuesKept kt lo hi s₀ s) {id : ProcessId}
    (hrun : Process.spawn id s = some (result, s')) :
    QueuesKept kt lo hi s₀ s' := by
  have hnew : wp (PageTable.empty false (.ofNat 16 id)) _ _ s.memory := h.sound.wp_empty
  rw [Process.spawn] at hrun
  cases hemp : PageTable.empty false (.ofNat 16 id) s.memory with
  | mk made memory =>
    rw [wp, hemp] at hnew
    rw [hemp] at hrun
    cases made with
    | error e =>
      obtain ⟨rfl, rfl⟩ := hnew
      cases hrun
      exact h
    | ok pt =>
      obtain ⟨hlow, hsnd, -, hvs⟩ := hnew
      cases hrun
      refine ⟨hsnd, fun proc hproc => ?_, h.kernelAddresses, h.coverage_eq, fun x hx => ?_,
        h.ranges⟩
      · rcases mem_cons.mp hproc with rfl | hproc
        · refine ⟨hlow, fun b hb => ?_, fun b hb => ?_⟩
          all_goals
            rw [mem_singleton.mp hb]
            decide
        · exact h.processes proc hproc
      · rw [PageTable.frame_eq_of_view_eq (hvs kt mem_cons_self x)]
        exact h.mapped_iff x hx

/-! ### Runs -/

variable {α : Type}

lemma onProcess_cases {x : ProcessM α} (h : onProcess p x s = some (result, s')) :
    ∃ proc t, s.processes[p]? = some proc ∧ s' = s.put p t ∧
      ((∃ a, x (s.focus proc) = (.ok a, t) ∧ result = .ok ()) ∨
        ∃ err, x (s.focus proc) = (.error (.error err), t) ∧ result = .error err) := by
  rw [onProcess] at h
  cases hp : s.processes[p]? with
  | none =>
    rw [hp] at h
    cases h
  | some proc =>
    rw [hp] at h
    dsimp only at h
    cases hx : x (s.focus proc) with
    | mk outcome t =>
      rw [hx] at h
      rcases outcome with (p | err) | a
      · cases h
      · cases h
        exact ⟨proc, t, rfl, rfl, .inr ⟨err, hx, rfl⟩⟩
      · cases h
        exact ⟨proc, t, rfl, rfl, .inl ⟨a, hx, rfl⟩⟩

lemma QueuesKept.create {x : ProcessM α}
    (hb : Booted kt lo hi s₀) (h : QueuesKept kt lo hi s₀ s)
    (hspec : ∀ t, Ready kt (s.processes.map (·.pageTables)) lo hi t →
      wp x (fun _ s' => ∃ r, QueueAdded kt (s.processes.map (·.pageTables)) t r s')
        (QueueFailed t) t)
    (hrun : onProcess p x s = some (result, s')) :
    (∀ err, result = .error err → ¬ GivesUp err) ∧ QueuesKept kt lo hi s₀ s' ∨
      (∃ err, result = .error err ∧ GivesUp err) ∧ ¬ QueuesMatch kt s₀ s' := by
  obtain ⟨proc, t, hp, rfl, ⟨a, hx, rfl⟩ | ⟨err, hx, rfl⟩⟩ := onProcess_cases hrun
  · have hwp := hspec _ (h.ready hp hb)
    rw [wp, hx] at hwp
    obtain ⟨r, hadd⟩ := hwp
    exact .inl ⟨by simp, h.added hp hb hadd⟩
  · have hwp := hspec _ (h.ready hp hb)
    rw [wp, hx] at hwp
    rcases hwp err rfl with ⟨hgiv, hlost⟩ | ⟨hgiv, href⟩
    · exact .inr ⟨⟨err, rfl, hgiv⟩, h.not_match_of_lost hp hb hlost⟩
    · refine .inl ⟨?_, h.refused hp href⟩
      rintro _ ⟨⟩
      exact hgiv

lemma QueuesKept.call (hb : Booted kt lo hi s₀) (h : QueuesKept kt lo hi s₀ s) {c : QueueCall}
    (hrun : c.run kt s = some (result, s')) :
    ¬ Leaks ⟨c, result, s, s'⟩ ∧ QueuesKept kt lo hi s₀ s' ∨
      Leaks ⟨c, result, s, s'⟩ ∧ ¬ QueuesMatch kt s₀ s' := by
  cases c with
  | spawn id => exact .inl ⟨by simp [Leaks], h.spawned hrun⟩
  | createCompletionQueue p size =>
    rcases h.create hb (fun t ht => wp_createCompletionQueue ht) hrun with
      ⟨hnot, hkept⟩ | ⟨⟨err, rfl, hgiv⟩, hmat⟩
    · refine .inl ⟨?_, hkept⟩
      cases result with
      | ok _ => simp [Leaks]
      | error err => exact hnot err rfl
    · exact .inr ⟨hgiv, hmat⟩
  | createSubmissionQueue p info =>
    rcases h.create hb (fun t ht => wp_createSubmissionQueue ht) hrun with
      ⟨hnot, hkept⟩ | ⟨⟨err, rfl, hgiv⟩, hmat⟩
    · refine .inl ⟨?_, hkept⟩
      cases result with
      | ok _ => simp [Leaks]
      | error err => exact hnot err rfl
    · exact .inr ⟨hgiv, hmat⟩
  | destroyQueue p id =>
    obtain ⟨proc, t, hp, rfl, ⟨a, hx, rfl⟩ | ⟨err, hx, rfl⟩⟩ := onProcess_cases hrun
    · have hwp : wp (Process.destroyQueue kt id) _ _ (s.focus proc) := wp_destroyQueue
      rw [wp, hx] at hwp
      exact .inr ⟨trivial, h.not_match_of_gone hp hb hwp⟩
    · have hwp : wp (Process.destroyQueue kt id) _ _ (s.focus proc) := wp_destroyQueue
      rw [wp, hx] at hwp
      obtain rfl := hwp err rfl
      have href : QueueRefused (s.focus proc) (s.focus proc) :=
        ⟨rfl, rfl, rfl, (h.ready hp hb).addresses, rfl⟩
      exact .inl ⟨by simp [Leaks], h.refused hp href⟩
  | drop p =>
    rw [QueueCall.run, dropProcess] at hrun
    cases hp : s.processes[p]? with
    | none =>
      rw [hp] at hrun
      cases hrun
    | some proc =>
      rw [hp] at hrun
      dsimp only at hrun
      cases hdrop : proc.drop s.memory s.virtualAddressAllocator with
      | error e =>
        rw [hdrop] at hrun
        cases hrun
      | ok dropped =>
        obtain ⟨memory, vaa⟩ := dropped
        rw [hdrop] at hrun
        cases hrun
        by_cases hnone : proc.sendQueues = [] ∧ proc.recvQueues = []
        · refine .inl ⟨?_, h.dropped hp hnone hdrop⟩
          rintro ⟨proc', hproc', hsome⟩
          obtain rfl : proc = proc' := Option.some.inj (hp.symm.trans hproc')
          exact hsome.elim (absurd hnone.1) (absurd hnone.2)
        · have hsome : proc.sendQueues ≠ [] ∨ proc.recvQueues ≠ [] := not_and_or.mp hnone
          exact .inr ⟨⟨proc, hp, hsome⟩, h.not_match_of_dropped hp hb hsome hdrop⟩

end system

def sampleKernel : KernelState :=
  ⟨sampleState.memory, sampleState.virtualAddressAllocator, []⟩

lemma sampleKernel_booted : Booted QueueTask.sampleKernelTable 0xffff_0001_0000_0000
    0xffff_0101_0000_0000 sampleKernel where
  high := rfl
  le_lo := by decide
  hi_lt := by decide
  sound := .of_empty (fun _ => rfl) (by decide) (by decide) fun i _ heq => by
    simp only [sampleKernel, sampleState, QueueTask.sampleKernelTable] at heq
    omega
  processes := by simp [sampleKernel]
  kernelAddresses := by
    constructor
    all_goals
      intro b hb
      rw [mem_singleton.mp hb]
      decide
  no_queues := by simp [sampleKernel]
  disjoint v := by
    change Range.ind _ v + 0 ≤ 1
    rw [Range.ind]
    split_ifs <;> decide
  unmapped v _ := by
    rw [KernelState.IsMapped, PageTable.frame, PageTable.view_of_empty fun _ => rfl]
    exact Bool.false_ne_true

end Kernel.Process
