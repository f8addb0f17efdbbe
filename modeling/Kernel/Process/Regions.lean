import Kernel.Process.QueueRanges

/-!
# The regions of a process

The regions of a process are mapped, no two of them overlap, and none of their addresses is free.
-/

set_option linter.dupNamespace false

namespace Kernel.Process

open Core Action Memory Kapi ProcessM PageTable List
open PageTable (Sound)
open VirtualAddressAllocator (Allocation)

structure IsRegion (r : Allocation) : Prop where
  aligned : r.address % pageSize = 0
  end_le : r.address + r.pageCount * pageSize ≤ 2 ^ 48

def HasPage (r : Allocation) (x : ℕ) : Prop := x * pageSize ∈ r.range

variable {r : Allocation} {x : ℕ}

lemma IsRegion.hasPage_iff (h : IsRegion r) :
    HasPage r x ↔ pageOf r.address ≤ x ∧ x < pageOf r.address + r.pageCount := by
  obtain ⟨hal, hend⟩ := h
  rw [HasPage, Range.mem_iff]
  simp only [Allocation.range, pageOf, halfPages, pageSize] at *
  omega

lemma IsRegion.page_lt (h : IsRegion r) (hx : HasPage r x) :
    x < halfPages := by
  obtain ⟨-, hend⟩ := h
  rw [HasPage, Range.mem_iff] at hx
  simp only [Allocation.range, halfPages, pageSize] at *
  omega

def freeCount (s : ProcessState) (v : ℕ) : ℕ :=
  coverage s.proc.addressSpaceAllocator.freeRanges v

structure Owns (kt : PageTable) (users : List PageTable) (lo hi : ℕ) (s : ProcessState)
    (rs : List Allocation) : Prop where
  ready : Ready kt users lo hi s
  isRegion : ∀ r ∈ rs, IsRegion r
  mapped : ∀ r ∈ rs, ∀ x, HasPage r x → (s.proc.pageTables.frame s.memory x).isSome
  tiled : ∀ r ∈ rs, s.proc.pageTables.Tiled s.memory (pageOf r.address) r.pageCount
  disjoint : ∀ v, freeCount s v + coverage (rs.map Allocation.range) v ≤ 1
  unmapped : ∀ x < halfPages, 0 < freeCount s (x * pageSize) →
    (s.proc.pageTables.view s.memory x).entry.valid = false

structure Undisturbed (kt : PageTable) (users : List PageTable) (s : ProcessState)
    (rs : List Allocation) (s' : ProcessState) : Prop where
  proc_eq : s'.proc = { s.proc with addressSpaceAllocator := s'.proc.addressSpaceAllocator }
  frames : ∀ r ∈ rs, ∀ x, HasPage r x →
    s.proc.pageTables.frame s'.memory x = s.proc.pageTables.frame s.memory x
  kernel : ∀ x < halfPages, kt.frame s'.memory x = kt.frame s.memory x
  others : ∀ pt ∈ users, pt ≠ s.proc.pageTables → ∀ x,
    pt.frame s'.memory x = pt.frame s.memory x

def StaysMapped (s s' : ProcessState) : Prop :=
  ∀ x < halfPages, (s.proc.pageTables.view s.memory x).entry.valid = true →
    s.proc.pageTables.view s'.memory x = s.proc.pageTables.view s.memory x

section

variable {kt : PageTable} {users : List PageTable} {lo hi : ℕ} {s s' : ProcessState}
  {rs : List Allocation} {r : Allocation} {v n : ℕ}

lemma coverage_pos_of_hasPage {x : ℕ} (hr : r ∈ rs) (hx : HasPage r x) :
    0 < coverage (rs.map Allocation.range) (x * pageSize) :=
  coverage_pos_iff.mpr ⟨r.range, mem_map_of_mem hr, hx⟩

lemma tiled_of_view_eq {pt : PageTable} {memory memory' : TableMemory} (hr : IsRegion r)
    (h : pt.Tiled memory (pageOf r.address) r.pageCount)
    (hview : ∀ x, HasPage r x → (pt.view memory' x).level = (pt.view memory x).level) :
    pt.Tiled memory' (pageOf r.address) r.pageCount := by
  intro x hge hlt
  rw [hview x (hr.hasPage_iff.mpr ⟨hge, hlt⟩)]
  exact h x hge hlt

lemma Owns.congr (h : Owns kt users lo hi s rs) (hmemo : s'.memory = s.memory)
    (hker : s'.virtualAddressAllocator = s.virtualAddressAllocator)
    (hpt : s'.proc.pageTables = s.proc.pageTables)
    (haddr : s'.proc.addressSpaceAllocator = s.proc.addressSpaceAllocator) :
    Owns kt users lo hi s' rs := by
  obtain ⟨⟨hsnd, hmem, hlow, hhigh, hman, hman', hlo, hhi⟩, hreg, hmap, htil, hdisj, hunm⟩ := h
  simp only [freeCount] at hdisj hunm
  rw [← hmemo] at hsnd hmap htil hunm
  rw [← hpt] at hmem hlow hmap htil hunm
  rw [← haddr] at hman hdisj hunm
  rw [← hker] at hman'
  exact ⟨⟨hsnd, hmem, hlow, hhigh, hman, hman', hlo, hhi⟩, hreg, hmap, htil, hdisj, hunm⟩

lemma Owns.perm {rs' : List Allocation} (h : Owns kt users lo hi s rs) (hperm : rs.Perm rs') :
    Owns kt users lo hi s rs' where
  ready := h.ready
  isRegion r hr := h.isRegion r (hperm.mem_iff.mpr hr)
  mapped r hr := h.mapped r (hperm.mem_iff.mpr hr)
  tiled r hr := h.tiled r (hperm.mem_iff.mpr hr)
  disjoint x := by
    rw [← coverage_perm (hperm.map _)]
    exact h.disjoint x
  unmapped := h.unmapped

lemma owns_of_spawn {k₀ k : KernelState} {id : ProcessId} (hb : Booted kt lo hi k₀)
    (hsp : Process.spawn id k₀ = some (.ok (), k)) :
    ∃ proc, k.processes.head? = some proc ∧ (proc.sendQueues = [] ∧ proc.recvQueues = []) ∧
      Owns kt (k.processes.map (·.pageTables)) lo hi (k.focus proc) [] := by
  have hkept := hb.kept.spawned hsp
  have hnew : wp (empty false (.ofNat 16 id)) _ _ k₀.memory := hb.sound.wp_empty
  rw [Process.spawn] at hsp
  cases hemp : empty false (.ofNat 16 id) k₀.memory with
  | mk made memory =>
    rw [wp, hemp] at hnew
    rw [hemp] at hsp
    cases made with
    | error e =>
      obtain ⟨rfl, -⟩ := hnew
      cases hsp
    | ok pt =>
      obtain ⟨-, -, hvs, -⟩ := hnew
      cases hsp
      refine ⟨_, rfl, ⟨rfl, rfl⟩, hkept.ready (p := 0) rfl hb, forall_mem_nil _,
        forall_mem_nil _, forall_mem_nil _, fun x => ?_, fun x _ _ => ?_⟩
      · change Range.ind _ x + 0 + 0 ≤ 1
        rw [Range.ind]
        split_ifs <;> decide
      · exact congrArg (·.entry.valid) (hvs x)

/-! ### `alloc_memory` -/

section alloc

variable (h : Owns kt users lo hi s rs)
include h

variable {kv : Option ℕ}

lemma Owns.reserved (hres : Reserved s n v kv s') :
    IsRegion ⟨v, n⟩ ∧ s'.proc.addressSpaceAllocator.Manages 0 (2 ^ 48) ∧
      ∀ x, freeCount s x = (Allocation.range ⟨v, n⟩).ind x + freeCount s' x := by
  obtain ⟨⟨hal, -, hend⟩, hman, hcov⟩ :=
    h.ready.addresses.alloc (by decide) hres.user
  exact ⟨⟨hal, hend⟩, hman, hcov⟩

lemma Owns.invalid_of_reserved (hres : Reserved s n v kv s') {x : ℕ}
    (hx : HasPage ⟨v, n⟩ x) : (s.proc.pageTables.view s.memory x).entry.valid = false := by
  obtain ⟨hreg, -, hcnt⟩ := h.reserved hres
  refine h.unmapped x (hreg.page_lt hx) ?_
  rw [hcnt, Range.ind_eq_one hx]
  omega

section touched

variable {kv : Option ℕ} (hres : Reserved s n v kv s')
  (hout : ∀ x < halfPages, ¬ (pageOf v ≤ x ∧ x < pageOf v + n) →
    (s.proc.pageTables.view s.memory x).Untouched (s.proc.pageTables.view s'.memory x))
include hres hout

variable {x : ℕ}

lemma Owns.untouched (hx : x < halfPages) (hnew : ¬ HasPage ⟨v, n⟩ x) :
    (s.proc.pageTables.view s.memory x).Untouched (s.proc.pageTables.view s'.memory x) :=
  hout x hx fun hin => hnew ((h.reserved hres).1.hasPage_iff.mpr hin)

lemma Owns.view_eq_of_valid (hx : x < halfPages)
    (hval : (s.proc.pageTables.view s.memory x).entry.valid = true) :
    s.proc.pageTables.view s'.memory x = s.proc.pageTables.view s.memory x := by
  have hnew : ¬ HasPage ⟨v, n⟩ x := by
    intro hin
    rw [h.invalid_of_reserved hres hin] at hval
    cases hval
  exact (h.untouched hres hout hx hnew).eq_of_valid (.inl hval)

lemma Owns.view_eq (hr : r ∈ rs) (hx : HasPage r x) :
    s.proc.pageTables.view s'.memory x = s.proc.pageTables.view s.memory x := by
  obtain ⟨a, ha⟩ := Option.isSome_iff_exists.mp (h.mapped r hr x hx)
  exact h.view_eq_of_valid hres hout ((h.isRegion r hr).page_lt hx)
    (valid_of_frame ha).1

lemma Owns.of_touched (hsnd : Sound kt users s'.memory)
    (hker : s'.virtualAddressAllocator.Manages lo hi) : Owns kt users lo hi s' rs := by
  have hpt : s'.proc.pageTables = s.proc.pageTables := by rw [hres.proc_eq]
  obtain ⟨-, hman, hcnt⟩ := h.reserved hres
  refine ⟨?_, h.isRegion, fun r hr x hx => ?_, fun r hr => ?_, fun x => ?_, fun x hx hfree => ?_⟩
  · refine ⟨hsnd, ?_, ?_, h.ready.high, hman, hker, h.ready.le_lo, h.ready.hi_lt⟩
    · rw [hpt]
      exact h.ready.mem_users
    · rw [hpt]
      exact h.ready.low
  · rw [hpt, frame_eq_of_view_eq (h.view_eq hres hout hr hx)]
    exact h.mapped r hr x hx
  · rw [hpt]
    refine tiled_of_view_eq (h.isRegion r hr) (h.tiled r hr) fun x hx => ?_
    rw [h.view_eq hres hout hr hx]
  · have hle := h.disjoint x
    rw [hcnt x] at hle
    omega
  · have hspl := hcnt (x * pageSize)
    have hle := h.disjoint (x * pageSize)
    have hnew : ¬ HasPage ⟨v, n⟩ x := by
      intro hin
      rw [Range.ind_eq_one hin] at hspl
      omega
    have hinv := h.unmapped x hx (by omega)
    rw [hpt]
    rcases h.untouched hres hout hx hnew with heq | ⟨-, haft⟩
    · rw [heq]
      exact hinv
    · exact haft

lemma Owns.undisturbed
    (hker : ∀ x < halfPages, (kt.view s.memory x).Untouched (kt.view s'.memory x))
    (hoth : ∀ pt ∈ users, pt ≠ s.proc.pageTables → ∀ x,
      pt.view s'.memory x = pt.view s.memory x) : Undisturbed kt users s rs s' where
  proc_eq := hres.proc_eq
  frames _ hr _ hx := frame_eq_of_view_eq (h.view_eq hres hout hr hx)
  kernel x hx := (hker x hx).frame_eq
  others pt hpt hne x := frame_eq_of_view_eq (hoth pt hpt hne x)

end touched

omit h in
lemma Owns.added (hown : Owns kt users lo hi s' rs) (h : Owns kt users lo hi s rs)
    (hres : Reserved s n v kv s')
    (hprov : s.proc.pageTables.Provided s.memory (pageOf v) n s'.memory) :
    Owns kt users lo hi s' (⟨v, n⟩ :: rs) := by
  have hpt : s'.proc.pageTables = s.proc.pageTables := by rw [hres.proc_eq]
  obtain ⟨hreg, -, hcnt⟩ := h.reserved hres
  refine ⟨hown.ready, forall_mem_cons.mpr ⟨hreg, hown.isRegion⟩,
    forall_mem_cons.mpr ⟨fun x hx => ?_, hown.mapped⟩,
    forall_mem_cons.mpr ⟨?_, hown.tiled⟩, fun x => ?_, hown.unmapped⟩
  · obtain ⟨hge, hlt⟩ := hreg.hasPage_iff.mp hx
    rw [hpt]
    exact hprov.inside x hge hlt
  · rw [hpt]
    exact hprov.tiled
  · have hle := h.disjoint x
    rw [hcnt x] at hle
    rw [map_cons, coverage_cons]
    omega

lemma Owns.kernelAddresses (hres : Reserved s n v kv s') :
    s'.virtualAddressAllocator.Manages lo hi := by
  cases kv with
  | none =>
    rw [hres.kernel_none rfl]
    exact h.ready.kernelAddresses
  | some k => exact (h.ready.kernelAddresses.alloc h.ready.hi_lt (hres.kernel k rfl)).2.1

lemma Owns.served (hres : Reserved s n v kv s')
    (hserv : Served kt s.proc.pageTables users s.memory v n kv n s'.memory) :
    Owns kt users lo hi s' (⟨v, n⟩ :: rs) :=
  (h.of_touched hres hserv.user.outside hserv.sound (h.kernelAddresses hres)).added h hres
    hserv.user

lemma Owns.wp_allocMemory (n : ℕ) :
    wp (allocMemory kt n false)
      (fun a s' => a.2 = none ∧ Owns kt users lo hi s' (⟨a.1, n⟩ :: rs) ∧
        Undisturbed kt users s rs s' ∧ StaysMapped s s')
      (fun e s' => (∃ err, e = .error err) ∧ Owns kt users lo hi s' rs ∧
        Undisturbed kt users s rs s' ∧ StaysMapped s s') s := by
  refine wp_mono (Process.wp_allocMemory h.ready n false) ?_ ?_
  · rintro ⟨v, kv⟩ s' ⟨hshr, hres, hserv⟩
    obtain rfl : kv = none := by simpa using hshr
    exact ⟨rfl, h.served hres hserv, h.undisturbed hres hserv.user.outside
      (hserv.kernel_none rfl) hserv.others, fun x => h.view_eq_of_valid hres hserv.user.outside⟩
  · rintro (p | err) s' he
    · -- the addresses of the region were free, so none of its pages is mapped
      obtain ⟨-, v, kv, t, hshr, hres, hbusy⟩ := he
      obtain rfl : kv = none := by simpa using hshr
      obtain ⟨x, hge, hlt, hval⟩ | ⟨_, _, hnone, -⟩ := hbusy
      · rw [h.invalid_of_reserved hres ((h.reserved hres).1.hasPage_iff.mpr ⟨hge, hlt⟩)] at hval
        cases hval
      · cases hnone
    · refine ⟨⟨err, rfl⟩, ?_⟩
      rcases he with ⟨-, v, kv, hshr, hres, htch⟩ | ⟨-, -, -, rfl | ⟨hshr, -⟩⟩
      · obtain rfl : kv = none := by simpa using hshr
        exact ⟨h.of_touched hres htch.user htch.sound (h.kernelAddresses hres),
          h.undisturbed hres htch.user (fun x hx => htch.kernel x hx nofun)
            htch.others, fun x => h.view_eq_of_valid hres htch.user⟩
      · exact ⟨h, ⟨rfl, fun _ _ _ _ => rfl, fun _ _ => rfl, fun _ _ _ _ => rfl⟩, fun _ _ _ => rfl⟩
      · cases hshr

end alloc

/-! ### `free_memory` -/

section free

variable (h : Owns kt users lo hi s rs) (hr : r ∈ rs)
include h hr

lemma Owns.not_hasPage_of_erase {r' : Allocation} (hr' : r' ∈ rs.erase r) {x : ℕ}
    (hx : HasPage r' x) : ¬ HasPage r x := by
  intro hin
  have hle := h.disjoint (x * pageSize)
  rw [coverage_perm ((perm_cons_erase hr).map _), map_cons, coverage_cons,
    Range.ind_eq_one hin] at hle
  have hpos := coverage_pos_of_hasPage hr' hx
  omega

lemma Owns.wp_freeMemory :
    wp (freeMemory r.address r.pageCount)
      (fun _ s' => Owns kt users lo hi s' (rs.erase r) ∧ Undisturbed kt users s (rs.erase r) s')
      (fun _ _ => False) s := by
  have hreg := h.isRegion r hr
  refine wp_mono (Process.wp_freeMemory h.ready hreg.end_le (h.tiled r hr)) ?_
    fun _ _ he => he
  rintro - s' ⟨memory, vaa, rfl, hfree, hsnd, hun, -⟩
  obtain ⟨hman, hcov⟩ := h.ready.addresses.free (by decide)
    ⟨hreg.aligned, Nat.zero_le _, hreg.end_le⟩ hfree
  have hmem {r' : Allocation} (hr' : r' ∈ rs.erase r) : r' ∈ rs := mem_of_mem_erase hr'
  have hview (r' : Allocation) (hr' : r' ∈ rs.erase r) (x : ℕ) (hx : HasPage r' x) :
      s.proc.pageTables.view memory x = s.proc.pageTables.view s.memory x :=
    hun.outside x ((h.isRegion r' (hmem hr')).page_lt hx) fun hin =>
      h.not_hasPage_of_erase hr hr' hx (hreg.hasPage_iff.mpr hin)
  have hcnt (x : ℕ) : coverage vaa.freeRanges x = r.range.ind x + freeCount s x := hcov x
  refine ⟨⟨?_, fun r' hr' => h.isRegion r' (hmem hr'), fun r' hr' x hx => ?_, fun r' hr' => ?_,
    fun x => ?_, fun x hx hpos => ?_⟩, rfl, fun r' hr' x hx => ?_, fun x _ => ?_,
    fun pt hpt hne x => ?_⟩
  · exact { h.ready with sound := hsnd, addresses := hman }
  · rw [frame_eq_of_view_eq (hview r' hr' x hx)]
    exact h.mapped r' (hmem hr') x hx
  · refine tiled_of_view_eq (h.isRegion r' (hmem hr')) (h.tiled r' (hmem hr')) fun x hx => ?_
    rw [hview r' hr' x hx]
  · have hle := h.disjoint x
    rw [coverage_perm ((perm_cons_erase hr).map _), map_cons, coverage_cons] at hle
    rw [freeCount, hcnt x]
    omega
  · rw [freeCount, hcnt] at hpos
    by_cases hin : HasPage r x
    · obtain ⟨hge, hlt⟩ := hreg.hasPage_iff.mp hin
      rw [hun.inside x hge hlt]
      rfl
    · rw [Range.ind_eq_zero hin] at hpos
      rw [hun.outside x hx fun hpage => hin (hreg.hasPage_iff.mpr hpage)]
      exact h.unmapped x hx (by omega)
  · exact frame_eq_of_view_eq (hview r' hr' x hx)
  · exact frame_eq_of_view_eq (h.ready.sound.view_eq_of_unmapped
      (.tail _ h.ready.mem_users) hun mem_cons_self
      (h.ready.sound.ne_kernel h.ready.mem_users).symm x)
  · exact frame_eq_of_view_eq (h.ready.sound.view_eq_of_unmapped
      (.tail _ h.ready.mem_users) hun (.tail _ hpt) hne x)

end free

end

end Kernel.Process
