import Kernel.Memory.Paging.Shared
import Kernel.Memory.VirtualAddressAllocator.Properties
import Kernel.Process.Basic

/-!
# The memory of a process

`alloc_memory` takes addresses of the process and, for shared memory, of the kernel, and maps
physical pages to both, run by run.
-/

namespace Kernel.Process

open Core Action Memory ProcessM PhysicalMemoryAllocator VirtualAddressAllocator VirtualAddress
open PageTable (Sound Spare Provided Overwritten Remaining remaining InRange)

/-! ### Rules -/

section wp

variable {α β : Type} {Q : α → ProcessState → Prop} {E : Failure → ProcessState → Prop}
  {s : ProcessState} {reason : String}

lemma wp_paging {x : PageTable.PagingM α} : wp (paging reason x) Q E s ↔
    wp x (fun a memory => Q a { s with memory })
      (fun e memory => E (ofPagingError reason e) { s with memory }) s.memory := by
  unfold wp paging
  cases hrun : x s.memory with
  | mk result memory => cases result <;> rfl

variable {a : α}

lemma wp_checked_of_eq {x : Checked α} (hx : x = .ok a) :
    wp (checked x) Q E s ↔ Q a s := by
  subst hx
  rfl

variable {put : β → ProcessState → ProcessState} {b : β}

lemma wp_allocator_ok :
    wp (allocator reason put (.ok (.ok a, b))) Q E s ↔ Q a (put b s) := Iff.rfl

lemma wp_allocator_error {e : MemoryError} :
    wp (allocator reason put (.ok (.error e, b))) Q E s ↔
      E (.error (.memory reason e)) (put b s) := Iff.rfl

end wp

/-! ### Regions of addresses -/

structure Region (pt : PageTable) (v n : ℕ) : Prop where
  aligned : v % pageSize = 0
  lt : v < 2 ^ 64
  end_le : pageOf v + n ≤ halfPages
  tag : pt.tagMatches (toParts v).tag = true

variable {pt kt : PageTable} {users : List PageTable}

variable {v n : ℕ}

lemma Region.add {d k : ℕ} (h : Region pt v n) (hle : d + k ≤ n) (hk : 0 < k) :
    Region pt (VirtualAddress.add v (d * pageSize)) k ∧
      pageOf (VirtualAddress.add v (d * pageSize)) = pageOf v + d := by
  obtain ⟨hal, hlt, hend, htag⟩ := h
  have hsame : (VirtualAddress.toParts (VirtualAddress.add v (d * pageSize))).tag =
      (VirtualAddress.toParts v).tag := by
    simp only [toParts_eq, VirtualAddress.add, wrappingAdd, pageOf, halfPages, pageSize] at hend ⊢
    omega
  have hpage : pageOf (VirtualAddress.add v (d * pageSize)) = pageOf v + d := by
    simp only [VirtualAddress.add, wrappingAdd, pageOf, halfPages, pageSize] at hend ⊢
    omega
  refine ⟨⟨?_, ?_, by omega, by rwa [hsame]⟩, hpage⟩
  · simp only [VirtualAddress.add, wrappingAdd, pageSize] at hal ⊢
    omega
  · exact Nat.mod_lt _ (by decide)

lemma region_of_low (hlow : pt.highAddresses = false) (hv : v % pageSize = 0)
    (hend : v + n * pageSize ≤ 2 ^ 48) (hn : 0 < n) : Region pt v n := by
  simp only [pageSize] at hend
  refine ⟨hv, by omega, ?_, ?_⟩
  · simp only [pageOf, halfPages, pageSize]
    omega
  · rw [PageTable.tagMatches_iff, hlow, toParts_eq]
    simp only [Bool.false_eq_true, if_false]
    omega

lemma region_of_high (hhigh : pt.highAddresses = true) (hv : v % pageSize = 0)
    (hst : 0xffff_0000_0000_0000 ≤ v) (hend : v + n * pageSize < 2 ^ 64) : Region pt v n := by
  simp only [pageSize] at hend
  refine ⟨hv, by omega, ?_, ?_⟩
  · simp only [pageOf, halfPages, pageSize]
    omega
  · rw [PageTable.tagMatches_iff, hhigh, toParts_eq]
    simp only [if_true]
    omega

/-! ### One run of pages -/

structure Served (kt pt : PageTable) (users : List PageTable) (s : TableMemory) (v n : ℕ)
    (kv : Option ℕ) (m : ℕ) (s' : TableMemory) : Prop where
  sound : Sound kt users s'
  user : pt.Provided s (pageOf v) n s'
  kernel : ∀ k, kv = some k → kt.Provided s (pageOf k) m s' ∧
    ∀ j < m, kt.frame s' (pageOf k + j) = pt.frame s' (pageOf v + j)
  kernel_none : kv = none → ∀ x < halfPages, (kt.view s x).Untouched (kt.view s' x)
  others : ∀ pt' ∈ users, pt' ≠ pt → ∀ x, pt'.view s' x = pt'.view s x

structure Touched (kt pt : PageTable) (users : List PageTable) (s : TableMemory) (v : ℕ)
    (kv : Option ℕ) (n : ℕ) (s' : TableMemory) : Prop where
  sound : Sound kt users s'
  user : ∀ x < halfPages, ¬ (pageOf v ≤ x ∧ x < pageOf v + n) →
    (pt.view s x).Untouched (pt.view s' x)
  kernel : ∀ x < halfPages, (∀ k, kv = some k → ¬ (pageOf k ≤ x ∧ x < pageOf k + n)) →
    (kt.view s x).Untouched (kt.view s' x)
  others : ∀ pt' ∈ users, pt' ≠ pt → ∀ x, pt'.view s' x = pt'.view s x

section served

variable {s s₁ s₂ : TableMemory} {v n m N : ℕ} {kv : Option ℕ} {r : Remaining}
  {options : PageTableEntryOptions}

lemma Served.refl (h : Sound kt users s) (v : ℕ) (kv : Option ℕ) :
    Served kt pt users s v 0 kv 0 s where
  sound := h
  user := .refl pt s _
  kernel _ _ := ⟨.refl kt s _, fun j hj => absurd hj (Nat.not_lt_zero j)⟩
  kernel_none _ _ _ := .inl rfl
  others _ _ _ _ := rfl

lemma Served.touched (h : Served kt pt users s v n kv m s₁) (hn : n ≤ N) (hm : m ≤ N) :
    Touched kt pt users s v kv N s₁ where
  sound := h.sound
  user x hx hout := h.user.outside x hx (by omega)
  kernel x hx hout := by
    cases kv with
    | none => exact h.kernel_none rfl x hx
    | some k =>
      have := hout k rfl
      exact (h.kernel k rfl).1.outside x hx (by omega)
  others := h.others

lemma Served.of_pma {pma : PhysicalMemoryAllocator} (h : Served kt pt users s v n kv m s₁)
    (hsnd : Sound kt users { s₁ with pma }) :
    Served kt pt users s v n kv m { s₁ with pma } :=
  ⟨hsnd, h.user.congr fun _ => rfl, fun k hk =>
    ⟨(h.kernel k hk).1.congr fun _ => rfl, (h.kernel k hk).2⟩, h.kernel_none, h.others⟩

lemma Served.mapUser (h : Served kt pt users s v n kv m s₁) (hpt : pt ∈ users) (hm : m ≤ n)
    (hext : pt.Extends s₁ s₂) (hsnd : Sound kt users s₂) (ho : pt.Overwritten s₁ r options s₂)
    (hvirt : r.virt = pageOf v + n) (hend : pageOf v + n ≤ halfPages)
    (hphy : r.phy + r.count ≤ 2 ^ 36) : Served kt pt users s v (n + r.count) kv m s₂ := by
  have hmem : pt ∈ kt :: users := .tail _ hpt
  have hker := h.sound.view_eq hmem hext List.mem_cons_self (h.sound.ne_kernel hpt).symm
  refine ⟨hsnd, h.user.step ho hvirt hend hphy, fun k hk => ?_, fun hk x hx => ?_,
    fun pt' hpt' hne x => ?_⟩
  · obtain ⟨hprov, hsha⟩ := h.kernel k hk
    refine ⟨hprov.congr hker, fun j hj => ?_⟩
    have hkept := h.user.view_eq ho hvirt hend (x := pageOf v + j) (by omega) (by omega)
    rw [PageTable.frame_eq_of_view_eq (hker _), PageTable.frame_eq_of_view_eq hkept]
    exact hsha j hj
  · rw [hker]
    exact h.kernel_none hk x hx
  · rw [h.sound.view_eq hmem hext (.tail _ hpt') hne]
    exact h.others pt' hpt' hne x

lemma Served.mapKernel {k : ℕ} (h : Served kt pt users s v (m + r.count) (some k) m s₁)
    (hpt : pt ∈ users) (hext : kt.Extends s₁ s₂) (hsnd : Sound kt users s₂)
    (ho : kt.Overwritten s₁ r options s₂) (hvirt : r.virt = pageOf k + m)
    (hend : pageOf k + m ≤ halfPages) (hphy : r.phy + r.count ≤ 2 ^ 36)
    (hfrs : ∀ j < r.count, pt.frame s₁ (pageOf v + (m + j)) = some ((r.phy + j) * pageSize)) :
    Served kt pt users s v (m + r.count) (some k) (m + r.count) s₂ := by
  have huser : ∀ pt' ∈ users, ∀ x, pt'.view s₂ x = pt'.view s₁ x := fun pt' hpt' =>
    h.sound.view_eq List.mem_cons_self hext (.tail _ hpt') (h.sound.ne_kernel hpt')
  obtain ⟨hprov, hsha⟩ := h.kernel k rfl
  refine ⟨hsnd, h.user.congr (huser pt hpt), ?_, nofun, fun pt' hpt' hne x => ?_⟩
  · rintro _ ⟨⟩
    refine ⟨hprov.step ho hvirt hend hphy, fun j hj => ?_⟩
    rw [PageTable.frame_eq_of_view_eq (huser pt hpt _)]
    by_cases hlt : j < m
    · have hkept := hprov.view_eq ho hvirt hend (x := pageOf k + j) (by omega) (by omega)
      rw [PageTable.frame_eq_of_view_eq hkept]
      exact hsha j hlt
    · have huserFrame := hfrs (j - m) (by omega)
      rw [show m + (j - m) = j by omega] at huserFrame
      rw [ho.frame_eq hphy (x := pageOf k + j) ⟨by omega, by omega⟩, huserFrame]
      congr 2
      omega
  · rw [huser pt' hpt']
    exact h.others pt' hpt' hne x

lemma Served.of_none (h : Served kt pt users s v n none m s₁) (m' : ℕ) :
    Served kt pt users s v n none m' s₁ :=
  ⟨h.sound, h.user, nofun, h.kernel_none, h.others⟩

end served

/-! ### The loop of `alloc_memory` -/

def GivesUp : Error → Prop
  | .memory reason _ => reason ∈ ["allocate physical memory for process",
      "map new memory into process address space", "map new memory into kernel address space"]
  | _ => False

instance : DecidablePred GivesUp
  | .memory reason _ => inferInstanceAs (Decidable (reason ∈ _))
  | .registry _ _ | .storage _ _ | .fileSystem _ _ | .utf8 _ | .inner _ _ | .misc _ _
  | .other _ _ => .isFalse id

def Busy (kt pt : PageTable) (s : TableMemory) (v : ℕ) (kv : Option ℕ) (n : ℕ) : Prop :=
  (∃ x, pageOf v ≤ x ∧ x < pageOf v + n ∧ (pt.view s x).entry.valid = true) ∨
    ∃ k x, kv = some k ∧ pageOf k ≤ x ∧ x < pageOf k + n ∧ (kt.view s x).entry.valid = true

def LoopFailed (kt : PageTable) (users : List PageTable) (s : ProcessState) (v : ℕ)
    (kv : Option ℕ) (n : ℕ) : Failure → ProcessState → Prop
  | .panic p, _ => p = .assertion ∧ Busy kt s.proc.pageTables s.memory v kv n
  | .error e, s' => GivesUp e ∧ ∃ memory, s' = { s with memory } ∧
      Touched kt s.proc.pageTables users s.memory v kv n memory

section loop

variable {s : ProcessState} {v n d k paddr : ℕ} {kv : Option ℕ} {memory : TableMemory}

structure Ranges (kt pt : PageTable) (v : ℕ) (kv : Option ℕ) (n : ℕ) : Prop where
  user : Region pt v n
  kernel : ∀ k, kv = some k → Region kt k n

lemma inRange_of_region {u : ℕ} (hreg : Region pt u k) (hal : paddr % pageSize = 0)
    (hend : paddr + k * pageSize ≤ 2 ^ 48) : InRange paddr u k :=
  ⟨hal, hreg.lt, hreg.end_le, hend⟩

lemma Served.valid_of_valid {x : ℕ} (h : Served kt pt users s.memory v d kv d memory)
    (hx : x < halfPages) (hge : pageOf v + d ≤ x) (hval : (pt.view memory x).entry.valid = true) :
    (pt.view s.memory x).entry.valid = true := by
  rw [← (h.user.outside x hx (by omega)).eq_of_valid (.inr hval)]
  exact hval

section round

variable (hrngs : Ranges kt s.proc.pageTables v kv n) (hpt : s.proc.pageTables ∈ users)
  (h : Served kt s.proc.pageTables users s.memory v d kv d memory) (hk : 0 < k) (hle : d + k ≤ n)
  (hal : paddr % pageSize = 0) (hend : paddr + k * pageSize ≤ 2 ^ 48)
include hrngs hpt h hk hle hal hend

lemma wp_mapUser (hspa : ∀ j < k, Spare kt users memory (paddr + j * pageSize)) :
    wp (mapUser paddr (add v (d * pageSize)) k)
      (fun _ s' => ∃ memory', s' = { s with memory := memory' } ∧
        Served kt s.proc.pageTables users s.memory v (d + k) kv d memory' ∧
        ∀ j < k, s.proc.pageTables.frame memory' (pageOf v + (d + j)) =
          some ((paddr / pageSize + j) * pageSize))
      (LoopFailed kt users s v kv n) { s with memory } := by
  obtain ⟨hreg, hpage⟩ := hrngs.user.add hle hk
  have hrng := inRange_of_region hreg hal hend
  have hfull := hrngs.user.end_le
  have hphy : paddr / pageSize + 0 + (k - 0) ≤ 2 ^ 36 := by
    simp only [pageSize] at hend ⊢
    omega
  rw [mapUser, wp_bind, wp_get, wp_paging]
  refine wp_mono (h.sound.wp_mapRange_user hrng hpt hreg.aligned hreg.tag hspa) ?_ ?_
  · rintro _ memory' ⟨ho, hext, hsnd⟩
    refine ⟨memory', rfl, h.mapUser hpt (le_refl d) hext hsnd ho ?_ (by omega) hphy, ?_⟩
    · dsimp only [remaining]
      rw [hpage, add_zero]
    · intro j hj
      rw [← add_assoc, ← hpage, ho.frame_of_inRange hrng hj, add_mul,
        Nat.div_mul_cancel (Nat.dvd_of_mod_eq_zero hal)]
  · rintro e memory' ⟨habo, hext, hsnd⟩
    rcases habo with ⟨rfl, -, -, houts⟩ | ⟨rfl, x, hx, -, hval⟩
    · refine ⟨by simp [GivesUp], memory', rfl, ?_⟩
      have htch := h.touched (N := n) (by omega) (by omega)
      have hmem : s.proc.pageTables ∈ kt :: users := .tail _ hpt
      refine ⟨hsnd _ rfl, fun x hx hout => ?_, fun x hx hout => ?_, fun pt' hpt' hne x => ?_⟩
      · refine (htch.user x hx hout).trans (houts x hx fun hin => ?_)
        dsimp only [remaining, Remaining.Contains] at hin
        omega
      · rw [h.sound.view_eq hmem hext List.mem_cons_self (h.sound.ne_kernel hpt).symm]
        exact htch.kernel x hx hout
      · rw [h.sound.view_eq hmem hext (.tail _ hpt') hne]
        exact htch.others pt' hpt' hne x
    · dsimp only [remaining, Remaining.Contains] at hx
      exact ⟨rfl, .inl ⟨x, by omega, by omega, h.valid_of_valid (by omega) (by omega) hval⟩⟩

end round

lemma wp_mapKernel (hrngs : Ranges kt s.proc.pageTables v kv n)
    (hpt : s.proc.pageTables ∈ users)
    (h : Served kt s.proc.pageTables users s.memory v (d + k) kv d memory) (hk : 0 < k)
    (hle : d + k ≤ n) (hal : paddr % pageSize = 0) (hend : paddr + k * pageSize ≤ 2 ^ 48)
    (hfrs : ∀ j < k, s.proc.pageTables.frame memory (pageOf v + (d + j)) =
      some ((paddr / pageSize + j) * pageSize)) :
    wp (mapKernel kt paddr (d * pageSize) k kv)
      (fun _ s' => ∃ memory', s' = { s with memory := memory' } ∧
        Served kt s.proc.pageTables users s.memory v (d + k) kv (d + k) memory')
      (LoopFailed kt users s v kv n) { s with memory } := by
  cases kv with
  | none => exact ⟨memory, rfl, h.of_none (d + k)⟩
  | some kvaddr =>
    have hker := hrngs.kernel kvaddr rfl
    obtain ⟨hreg, hpage⟩ := hker.add hle hk
    have hrng := inRange_of_region hreg hal hend
    have hfull := hker.end_le
    have hphy : paddr / pageSize + 0 + (k - 0) ≤ 2 ^ 36 := by
      simp only [pageSize] at hend ⊢
      omega
    have hprov := (h.kernel kvaddr rfl).1
    rw [mapKernel, wp_paging]
    refine wp_mono (h.sound.wp_mapRange_kernel hrng hreg.aligned hreg.tag) ?_ ?_
    · rintro _ memory' ⟨ho, hext, hsnd⟩
      refine ⟨memory', rfl, h.mapKernel hpt hext hsnd ho ?_ (by omega) hphy hfrs⟩
      dsimp only [remaining]
      rw [hpage, add_zero]
    · rintro e memory' ⟨habo, hext, hsnd⟩
      rcases habo with ⟨rfl, -, -, houts⟩ | ⟨rfl, x, hx, -, hval⟩
      · refine ⟨by simp [GivesUp], memory', rfl, ?_⟩
        have htch := h.touched (N := n) hle (by omega)
        have huser : ∀ pt' ∈ users, ∀ x, pt'.view memory' x = pt'.view memory x :=
          fun pt' hpt' => h.sound.view_eq List.mem_cons_self hext (.tail _ hpt')
            (h.sound.ne_kernel hpt')
        refine ⟨hsnd _ rfl, fun x hx hout => ?_, fun x hx hout => ?_, fun pt' hpt' hne x => ?_⟩
        · rw [huser _ hpt]
          exact htch.user x hx hout
        · have hnot := hout kvaddr rfl
          refine (htch.kernel x hx hout).trans (houts x hx fun hin => ?_)
          dsimp only [remaining, Remaining.Contains] at hin
          omega
        · rw [huser pt' hpt']
          exact htch.others pt' hpt' hne x
      · dsimp only [remaining, Remaining.Contains] at hx
        refine ⟨rfl, .inr ⟨kvaddr, x, rfl, by omega, by omega, ?_⟩⟩
        rw [← (hprov.outside x (by omega) (by omega)).eq_of_valid (.inr hval)]
        exact hval

lemma wp_allocPages (hrngs : Ranges kt s.proc.pageTables v kv n)
    (hpt : s.proc.pageTables ∈ users) {rounds : ℕ} (hle : d ≤ n) (hrds : n - d ≤ rounds)
    (h : Served kt s.proc.pageTables users s.memory v d kv d memory) :
    wp (allocPages kt v kv rounds (d * pageSize) (n - d))
      (fun _ s' => ∃ memory', s' = { s with memory := memory' } ∧
        Served kt s.proc.pageTables users s.memory v n kv n memory')
      (LoopFailed kt users s v kv n) { s with memory } := by
  have hfull : n ≤ halfPages := (Nat.le_add_left _ _).trans hrngs.user.end_le
  simp only [halfPages] at hfull
  induction rounds generalizing d memory with
  | zero =>
    obtain rfl : d = n := by omega
    exact ⟨memory, rfl, h⟩
  | succ rounds ih =>
    rw [allocPages, wp_ite]
    refine ⟨fun hmore => ?_, fun hdone => ?_⟩
    · have hsup := h.sound.supplied kt List.mem_cons_self
      have hbyt : (n - d) * pageSize < 2 ^ 64 := by
        simp only [pageSize]
        omega
      rw [wp_bind, allocPhysical, wp_bind, wp_get]
      rcases memory.pma.tryAllocContig_cases hmore hbyt (by have := hsup.end_le; omega) with
        ⟨e, hall⟩ | ⟨start, k, pma, hall, hk, hkn, hfree, hpma⟩
      · dsimp only
        rw [hall, wp_allocator_error]
        exact ⟨by simp [GivesUp], memory, rfl, h.touched hle hle⟩
      · dsimp only
        rw [hall, wp_allocator_ok]
        have htk := h.sound.take hpma
        have hserv := h.of_pma htk
        have hst := hsup.aligned
        have hstop := hsup.end_le
        have hins := hpma.le_length
        have hal : (memory.pma.memoryStart + start * pageSize) % pageSize = 0 := by
          rw [Nat.add_mul_mod_self_right, hst]
        have hend : memory.pma.memoryStart + start * pageSize + k * pageSize ≤ 2 ^ 48 := by
          simp only [pageSize] at hstop ⊢
          omega
        have hspa : ∀ j < k, Spare kt users { memory with pma }
            (memory.pma.memoryStart + start * pageSize + j * pageSize) := by
          intro j hj
          have hspa := h.sound.spare_of_take hfree hpma hj
          rwa [pageAddress, add_mul, ← add_assoc] at hspa
        rw [wp_bind]
        refine wp_mono (wp_mapUser (s := s) hrngs hpt hserv hk (by omega) hal hend hspa)
          ?_ fun _ _ he => he
        rintro _ _ ⟨memory₁, rfl, huser, hfrs⟩
        rw [wp_bind]
        refine wp_mono (wp_mapKernel (s := s) hrngs hpt huser hk (by omega) hal hend hfrs)
          ?_ fun _ _ he => he
        rintro _ _ ⟨memory₂, rfl, hboth⟩
        have hmul : checkedMul k pageSize = .ok (k * pageSize) := by
          refine checkedMul_eq_ok.mpr ⟨?_, rfl⟩
          simp only [pageSize]
          omega
        have hadd : checkedAdd (d * pageSize) (k * pageSize) = .ok ((d + k) * pageSize) := by
          rw [add_mul]
          refine checkedAdd_eq_ok.mpr ⟨?_, rfl⟩
          simp only [pageSize]
          omega
        have hsub : checkedSub (n - d) k = .ok (n - (d + k)) :=
          checkedSub_eq_ok.mpr ⟨hkn, by omega⟩
        rw [wp_bind, wp_checked_of_eq hmul, wp_bind, wp_checked_of_eq hadd, wp_bind,
          wp_checked_of_eq hsub]
        exact ih (by omega) (by omega) hboth
    · obtain rfl : d = n := by omega
      exact ⟨memory, rfl, h⟩

end loop

/-! ### `alloc_memory` -/

structure Ready (kt : PageTable) (users : List PageTable) (lo hi : ℕ) (s : ProcessState) :
    Prop where
  sound : Sound kt users s.memory
  mem_users : s.proc.pageTables ∈ users
  low : s.proc.pageTables.highAddresses = false
  high : kt.highAddresses = true
  addresses : s.proc.addressSpaceAllocator.Manages 0 (2 ^ 48)
  kernelAddresses : s.virtualAddressAllocator.Manages lo hi
  le_lo : 0xffff_0000_0000_0000 ≤ lo
  hi_lt : hi < 2 ^ 64

structure Reserved (s : ProcessState) (n v : ℕ) (kv : Option ℕ) (t : ProcessState) : Prop where
  user : s.proc.addressSpaceAllocator.alloc n = .ok (.ok v, t.proc.addressSpaceAllocator)
  kernel : ∀ k, kv = some k →
    s.virtualAddressAllocator.alloc n = .ok (.ok k, t.virtualAddressAllocator)
  kernel_none : kv = none → t.virtualAddressAllocator = s.virtualAddressAllocator
  proc_eq : t.proc = { s.proc with addressSpaceAllocator := t.proc.addressSpaceAllocator }

def AllocFailed (kt : PageTable) (users : List PageTable) (s : ProcessState) (n : ℕ)
    (share : Bool) : Failure → ProcessState → Prop
  | .panic p, _ => p = .assertion ∧ ∃ v kv t, kv.isSome = share ∧ Reserved s n v kv t ∧
      Busy kt s.proc.pageTables s.memory v kv n
  | .error e, s' =>
    (GivesUp e ∧ ∃ v kv, kv.isSome = share ∧ Reserved s n v kv s' ∧
      Touched kt s.proc.pageTables users s.memory v kv n s'.memory) ∨
    (¬ GivesUp e ∧ s'.memory = s.memory ∧ s'.virtualAddressAllocator = s.virtualAddressAllocator ∧
      (s' = s ∨ share = true ∧ ∃ v, Reserved s n v none s'))

section allocMemory

variable {s t : ProcessState} {lo hi n v : ℕ} {kv : Option ℕ}

lemma Ready.ranges (h : Ready kt users lo hi s) (hres : Reserved s n v kv t) (hn : 0 < n) :
    Ranges kt s.proc.pageTables v kv n := by
  refine ⟨?_, fun k hk => ?_⟩
  · obtain ⟨⟨hal, -, hend⟩, -⟩ := h.addresses.alloc (by decide) hres.user
    exact region_of_low h.low hal hend hn
  · obtain ⟨⟨hal, hlo, hend⟩, -⟩ := h.kernelAddresses.alloc h.hi_lt (hres.kernel k hk)
    exact region_of_high h.high hal (h.le_lo.trans hlo) (hend.trans_lt h.hi_lt)

variable {E : Failure → ProcessState → Prop}

lemma wp_allocAddresses (h : Ready kt users lo hi s) {Q : ℕ → ProcessState → Prop}
    (hok : ∀ v vaa, s.proc.addressSpaceAllocator.alloc n = .ok (.ok v, vaa) →
      Q v { s with proc.addressSpaceAllocator := vaa })
    (herr : ∀ e, E (.error (.memory
      "allocate virtual addresses for memory region in process" e)) s) :
    wp (allocAddresses n) Q E s := by
  rw [allocAddresses, wp_bind, wp_get]
  obtain ⟨⟨result, vaa⟩, hall⟩ :=
    alloc_returns n (by decide) h.addresses.within
  rw [hall]
  cases result with
  | ok v => exact hok v vaa hall
  | error e =>
    obtain ⟨rfl, -⟩ := alloc_error hall
    exact herr e

lemma wp_shareAddresses {share : Bool} (hman : s.virtualAddressAllocator.Manages lo hi)
    (hhi : hi < 2 ^ 64) {Q : Option ℕ → ProcessState → Prop}
    (hok : ∀ kv vaa, kv.isSome = share →
      (∀ k, kv = some k → s.virtualAddressAllocator.alloc n = .ok (.ok k, vaa)) →
      (kv = none → vaa = s.virtualAddressAllocator) →
      Q kv { s with virtualAddressAllocator := vaa })
    (herr : share = true → ∀ e, E (.error (.memory
      "allocate virtual addresses for memory region in kernel" e)) s) :
    wp (shareAddresses n share) Q E s := by
  cases share with
  | false => exact hok none _ rfl nofun fun _ => rfl
  | true =>
    change wp (allocKernelAddresses n >>= fun k => pure (some k)) Q E s
    rw [wp_bind, allocKernelAddresses, wp_bind, wp_get]
    obtain ⟨⟨result, vaa⟩, hall⟩ :=
      alloc_returns n hhi hman.within
    rw [hall]
    cases result with
    | ok k =>
      refine hok (some k) vaa rfl (fun k' hk' => ?_) nofun
      obtain rfl := Option.some.inj hk'
      exact hall
    | error e =>
      obtain ⟨rfl, -⟩ := alloc_error hall
      exact herr rfl e

lemma wp_allocMemory (h : Ready kt users lo hi s) (n : ℕ) (share : Bool) :
    wp (allocMemory kt n share)
      (fun r s' => r.2.isSome = share ∧ Reserved s n r.1 r.2 s' ∧
        Served kt s.proc.pageTables users s.memory r.1 n r.2 n s'.memory)
      (AllocFailed kt users s n share) s := by
  rw [allocMemory, wp_bind]
  refine wp_allocAddresses h (fun v vaa huser => ?_) fun e => ?_
  · rw [wp_bind]
    refine wp_shareAddresses (s := { s with proc.addressSpaceAllocator := vaa }) h.kernelAddresses
      h.hi_lt (fun kv kvaa hshr hker hnone => ?_) fun hshr e => ?_
    · -- What is left works on the memory only.
      have hres : ∀ memory, Reserved s n v kv
          ⟨memory, kvaa, { s.proc with addressSpaceAllocator := vaa }⟩ :=
        fun memory => ⟨huser, hker, hnone, rfl⟩
      rw [wp_bind]
      rcases eq_zero_or_pos n with rfl | hn
      · exact ⟨hshr, hres s.memory, .refl h.sound v kv⟩
      · have hloop := wp_allocPages (s := ⟨s.memory, kvaa,
          { s.proc with addressSpaceAllocator := vaa }⟩) (h.ranges (hres s.memory) hn) h.mem_users
          (Nat.zero_le n) (Nat.sub_le n 0) (.refl h.sound v kv)
        rw [zero_mul, Nat.sub_zero] at hloop
        refine wp_mono hloop ?_ ?_
        · rintro _ _ ⟨memory, rfl, hserv⟩
          exact ⟨hshr, hres memory, hserv⟩
        · rintro (p | e) s' he
          · exact ⟨he.1, v, kv, _, hshr, hres s.memory, he.2⟩
          · obtain ⟨hgiv, memory, rfl, htch⟩ := he
            exact .inl ⟨hgiv, v, kv, hshr, hres memory, htch⟩
    · refine .inr ⟨by simp [GivesUp], rfl, rfl, .inr ⟨hshr, v, huser, nofun, fun _ => rfl, rfl⟩⟩
  · exact .inr ⟨by simp [GivesUp], rfl, rfl, .inl rfl⟩

end allocMemory

/-! ### `free_memory` -/

structure Freed (pt : PageTable) (s : TableMemory) (first k : ℕ) (pma : PhysicalMemoryAllocator) :
    Prop where
  memoryStart_eq : pma.memoryStart = s.pma.memoryStart
  length_eq : pma.allocatedPages.length = s.pma.allocatedPages.length
  freed : ∀ i y, first ≤ y → y < first + k → pt.frame s y = some (s.pma.pageAddress i) →
    pma.allocatedPages[i]? = some false
  kept : ∀ i, (∀ y, first ≤ y → y < first + k → pt.frame s y ≠ some (s.pma.pageAddress i)) →
    pma.allocatedPages[i]? = s.pma.allocatedPages[i]?

section freeMemory

variable {s : TableMemory} {first n k lvl base : ℕ} {pma : PhysicalMemoryAllocator}
  {e : PageTableEntry}

lemma Freed.refl (pt : PageTable) (s : TableMemory) (first : ℕ) : Freed pt s first 0 s.pma :=
  ⟨rfl, rfl, fun _ _ h₁ h₂ => by omega, fun _ _ => rfl⟩

lemma Freed.step {i₀ : ℕ} {pma' : PhysicalMemoryAllocator} (h : Freed pt s first k pma)
    (hfrs : ∀ j < span lvl, pt.frame s (first + k + j) = some (s.pma.pageAddress (i₀ + j)))
    (hfill : pma.Filled i₀ (span lvl) false pma') : Freed pt s first (k + span lvl) pma' where
  memoryStart_eq := hfill.memoryStart_eq.trans h.memoryStart_eq
  length_eq := hfill.length_eq.trans h.length_eq
  freed i y h₁ h₂ hfr := by
    rw [hfill.getElem?_eq]
    split_ifs with hin
    · rfl
    · by_cases hy : y < first + k
      · exact h.freed i y h₁ hy hfr
      · have hnew := hfrs (y - (first + k)) (by omega)
        rw [Nat.add_sub_cancel' (by omega), hfr, Option.some.injEq] at hnew
        have := pageAddress_inj hnew
        omega
  kept i hnot := by
    rw [hfill.getElem?_eq, if_neg]
    · exact h.kept i fun y h₁ h₂ => hnot y h₁ (by omega)
    · rintro ⟨hge, hlt⟩
      have hfr := hfrs (i - i₀) (by omega)
      rw [Nat.add_sub_cancel' hge] at hfr
      exact hnot _ (by omega) (by omega) hfr

lemma callback_freeRegion {v : ℕ} {E : PageTable.PagingError → TableMemory → Prop}
    (hsnd : Sound kt users s) (hpt : pt ∈ users) (hend : pageOf v + n ≤ halfPages)
    (htil : pt.Tiled s (pageOf v) n) :
    PageTable.Callback freeRegion pt s v n (Freed pt s (pageOf v)) E := by
  have hlev : ∀ k lvl e, k + span lvl ≤ n → pt.view s (pageOf v + k) = ⟨lvl, e⟩ → lvl ≠ 0 := by
    intro k lvl e hle hview
    have hpos := span_pos lvl
    have htile := (htil (pageOf v + k) (by omega) (by omega)).1
    rwa [hview] at htile
  refine ⟨fun k lvl e base s₁ hle hview hbase hmod hfrd => ?_,
    fun k lvl e pma hle hview hbase hmod hfrd => ?_⟩
  · have hpos := span_pos lvl
    have hfrs : ∀ j < span lvl, pt.frame s (pageOf v + k + j) = some (base + j * pageSize) := by
      intro j hj
      rw [PageTable.frame_under_entry hview (hlev k lvl e hle hview) hmod hj (by omega), hbase]
      rfl
    have hinUse : ∀ j < span lvl, s.pma.InUse (base + j * pageSize) := fun j hj =>
      (hsnd.isData pt _ _ ⟨hpt, by omega, hfrs j hj⟩).inUse
    -- The pages under the entry are pages of the bitmap.
    obtain ⟨i₀, -, hi₀⟩ := hinUse 0 hpos
    rw [zero_mul, add_zero] at hi₀
    have haddr : ∀ j, base + j * pageSize = s.pma.pageAddress (i₀ + j) := by
      intro j
      rw [hi₀, pageAddress, pageAddress, add_mul, add_assoc]
    have hlast := (haddr (span lvl - 1) ▸ hinUse (span lvl - 1) (by omega)).isAllocated
    obtain ⟨hlt, -⟩ := List.getElem?_eq_some_iff.mp hlast
    have hins : i₀ + span lvl ≤ s₁.pma.allocatedPages.length := by
      rw [hfrd.length_eq]
      omega
    obtain ⟨pma', hfree⟩ := freePages_returns hins
    have hbase' : s₁.pma.memoryStart + i₀ * pageSize = base := by
      rw [hfrd.memoryStart_eq, hi₀, pageAddress]
    have hrun : freeRegion ⟨base, v + k * pageSize, span lvl⟩ s₁ =
        (.ok (), { s₁ with pma := pma' }) := by
      rw [freeRegion, ← hbase', hfree]
    rw [wp, hrun]
    refine ⟨rfl, hfrd.step (fun j hj => ?_) (freePages_ok hfree)⟩
    rw [hfrs j hj, haddr]
  · refine ⟨hfrd.memoryStart_eq, hfrd.length_eq, fun i y h₁ h₂ hfr => ?_,
      fun i hnot => hfrd.kept i fun y h₁ h₂ => hnot y h₁ (by omega)⟩
    by_cases hy : y < pageOf v + k
    · exact hfrd.freed i y h₁ hy hfr
    · have hnone := PageTable.frame_under_entry (j := y - (pageOf v + k)) hview
        (hlev k lvl e hle hview) hmod (by omega) (by omega)
      rw [Nat.add_sub_cancel' (by omega), hfr, hbase] at hnone
      cases hnone

end freeMemory

lemma wp_freeMemory {s : ProcessState} {lo hi : ℕ} (h : Ready kt users lo hi s)
    (hend : v + n * pageSize ≤ 2 ^ 48) (htil : s.proc.pageTables.Tiled s.memory (pageOf v) n) :
    wp (freeMemory v n)
      (fun _ s' => ∃ memory vaa,
        s' = { s with memory, proc := { s.proc with addressSpaceAllocator := vaa } } ∧
        s.proc.addressSpaceAllocator.free v n = .ok vaa ∧ Sound kt users memory ∧
        s.proc.pageTables.Unmapped s.memory (pageOf v) n memory ∧
        Freed s.proc.pageTables s.memory (pageOf v) n memory.pma)
      (fun _ _ => False) s := by
  have hlt : v < 2 ^ 64 := by omega
  have hhalf : pageOf v + n ≤ halfPages := by
    simp only [pageOf, halfPages, pageSize] at hend ⊢
    omega
  obtain ⟨vaa, hfree⟩ := free_returns (by decide) h.addresses.within hend
  rw [freeMemory, wp_bind, wp_get, wp_bind, wp_paging]
  refine wp_mono (PageTable.wp_unmapRangeCustom (callback_freeRegion h.sound h.mem_users hhalf htil)
    (h.sound.wellFormed _ (.tail _ h.mem_users)) hlt hhalf htil (.refl _ _ _)) ?_ fun _ _ he => he
  rintro _ memory ⟨hun, hfrd⟩
  have hrun : freeAddresses v n { s with memory } = (.ok (),
      { s with memory, proc := { s.proc with addressSpaceAllocator := vaa } }) := by
    rw [freeAddresses, hfree]
  rw [wp, hrun]
  refine ⟨memory, vaa, rfl, hfree, ?_, hun, hfrd⟩
  refine h.sound.unmap_free hun h.mem_users hhalf hfrd.memoryStart_eq hfrd.length_eq fun i => ?_
  by_cases hin : ∃ y, pageOf v ≤ y ∧ y < pageOf v + n ∧
      s.proc.pageTables.frame s.memory y = some (s.memory.pma.pageAddress i)
  · exact .inr hin
  · push Not at hin
    exact .inl (hfrd.kept i hin)

end Kernel.Process
