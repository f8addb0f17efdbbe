import Kernel.Core.Runs
import Kernel.Memory.PhysicalBuffer.Basic
import Kernel.Memory.VirtualAddressAllocator.Properties

/-!
# The lifetimes of physical buffers

A buffer changes the bitmap, the free list of the kernel's addresses and the kernel's page table.
-/

namespace Kernel.Memory

open Core Action KernelM List PhysicalBuffer
open PageTable (Sound Spare IsData InRange Remaining remaining)
open PhysicalMemoryAllocator (Allocation)

variable {kt : PageTable} {users : List PageTable} {lo hi n v : ℕ} {s s' : KernelMemory}
  {b : PhysicalBuffer} {options : PageTableEntryOptions}

/-! ### Rules -/

section wp

variable {α : Type} {Q : α → KernelMemory → Prop} {E : PageTable.PagingError → KernelMemory → Prop}

variable {x : PageTable.PagingM α}

lemma wp_paging : wp (paging x) Q E s ↔
    wp x (fun a memory => Q a { s with memory }) (fun e memory => E e { s with memory })
      s.memory := by
  unfold wp paging
  rcases x s.memory with ⟨result | result, memory⟩ <;> rfl

lemma paging_eq_ok_iff {a : α} : paging x s = (.ok a, s') ↔
    ∃ memory, x s.memory = (.ok a, memory) ∧ s' = { s with memory } := by
  unfold paging
  rcases x s.memory with ⟨e | a', memory⟩
  · exact ⟨nofun, nofun⟩
  · constructor
    · rintro ⟨⟩
      exact ⟨memory, rfl, rfl⟩
    · rintro ⟨_, ⟨⟩, rfl⟩
      rfl

lemma wp_expect {x : KernelM α} (h : wp x Q (fun _ _ => True) s) :
    wp (expect x) Q (fun _ _ => True) s := by
  unfold wp at h ⊢
  unfold expect
  rcases hrun : x s with ⟨(p | e) | a, s'⟩
  · trivial
  · trivial
  · rw [hrun] at h
    exact h

variable {Q : ℕ → KernelMemory → Prop}

lemma wp_allocContig
    (h : ∀ a pma, s.memory.pma.allocContig n = .ok (.ok a, pma) →
      Q a { s with memory.pma := pma }) :
    wp (allocContig n) Q (fun _ _ => True) s := by
  unfold wp allocContig
  rcases hrun : s.memory.pma.allocContig n with p | ⟨e | a, pma⟩
  · trivial
  · trivial
  · exact h a pma hrun

lemma wp_allocAddresses
    (h : ∀ v vaa, s.virtualAddressAllocator.alloc n = .ok (.ok v, vaa) →
      Q v { s with virtualAddressAllocator := vaa }) :
    wp (allocAddresses n) Q (fun _ _ => True) s := by
  unfold wp allocAddresses
  rcases hrun : s.virtualAddressAllocator.alloc n with p | ⟨e | v, vaa⟩
  · trivial
  · trivial
  · exact h v vaa hrun

end wp

/-! ### Addresses -/

structure Placed (lo hi v n : ℕ) : Prop where
  aligned : v % pageSize = 0
  le_start : lo ≤ v
  end_le : v + n * pageSize ≤ hi

section placed

variable (hlo : 0xffff_0000_0000_0000 ≤ lo) (hhi : hi < 2 ^ 64) (h : Placed lo hi v n)
include hlo hhi h

lemma Placed.page_end_le : pageOf v + n ≤ halfPages := by
  have hst := h.le_start
  have hend := h.end_le
  simp only [pageOf, halfPages, pageSize] at hend ⊢
  omega

lemma Placed.pageOf_add {i : ℕ} (hi' : i < n) : pageOf (v + i * pageSize) = pageOf v + i := by
  have hst := h.le_start
  have hend := h.end_le
  simp only [pageOf, halfPages, pageSize] at hend ⊢
  omega

lemma Placed.tagMatches (hhigh : kt.highAddresses = true) :
    kt.tagMatches (VirtualAddress.toParts v).tag = true := by
  have hst := h.le_start
  have hend := h.end_le
  rw [PageTable.tagMatches_iff, hhigh, toParts_eq]
  simp only [if_true]
  omega

lemma Placed.apart {v' n' x : ℕ} (h' : Placed lo hi v' n')
    (hdisj : Range.Disjoint ⟨v, n * pageSize⟩ ⟨v', n' * pageSize⟩)
    (hx : pageOf v ≤ x ∧ x < pageOf v + n) : ¬ (pageOf v' ≤ x ∧ x < pageOf v' + n') := by
  intro hx'
  obtain ⟨hal, hst, hend⟩ := h
  obtain ⟨hal', hst', hend'⟩ := h'
  refine hdisj (v + (x - pageOf v) * pageSize) ?_ ?_
  all_goals
    simp only [Range.mem_iff, pageOf, halfPages, pageSize] at *
    omega

end placed

/-! ### One buffer -/

structure KernelReady (kt : PageTable) (users : List PageTable) (lo hi : ℕ) (s : KernelMemory) :
    Prop where
  sound : Sound kt users s.memory
  high : kt.highAddresses = true
  addresses : s.virtualAddressAllocator.Manages lo hi
  le_lo : 0xffff_0000_0000_0000 ≤ lo
  hi_lt : hi < 2 ^ 64

structure Acquired (kt : PageTable) (users : List PageTable) (s : KernelMemory) (n : ℕ)
    (b : PhysicalBuffer) (s' : KernelMemory) : Prop where
  pageCount_eq : b.pageCount = n
  sound : Sound kt users s'.memory
  contents_eq : s'.contents = s.contents
  addresses : s.virtualAddressAllocator.alloc n = .ok (.ok b.virAddr, s'.virtualAddressAllocator)
  pages : ∃ start pma, FreeRun s.memory.pma.allocatedPages start n ∧
    s.memory.pma.Filled start n true pma ∧ b.phyAddr = s.memory.pma.pageAddress start ∧
    kt.Extends { s.memory with pma } s'.memory
  frames : ∀ i < n, kt.frame s'.memory (pageOf b.virAddr + i) = some (b.phyAddr + i * pageSize)
  tiled : kt.Tiled s'.memory (pageOf b.virAddr) n
  outside : ∀ x < halfPages, ¬ (pageOf b.virAddr ≤ x ∧ x < pageOf b.virAddr + n) →
    (kt.view s.memory x).Untouched (kt.view s'.memory x)

section

variable (h : KernelReady kt users lo hi s)

include h

lemma KernelReady.placed {vaa : VirtualAddressAllocator}
    (hall : s.virtualAddressAllocator.alloc n = .ok (.ok v, vaa)) : Placed lo hi v n := by
  obtain ⟨⟨hal, hlo, hend⟩, -⟩ := h.addresses.alloc h.hi_lt hall
  exact ⟨hal, hlo, hend⟩

lemma KernelReady.withContents (c : ℕ → UInt8) :
    KernelReady kt users lo hi { s with contents := c } :=
  { h with }

lemma KernelReady.phy_bounds {start : ℕ}
    {pma : PhysicalMemoryAllocator} (hfill : s.memory.pma.Filled start n true pma) :
    s.memory.pma.pageAddress start % pageSize = 0 ∧
      s.memory.pma.pageAddress start + n * pageSize ≤ 2 ^ 48 := by
  have hsup := h.sound.supplied kt mem_cons_self
  have hend := hsup.end_le
  have hle := hfill.le_length
  rw [PhysicalMemoryAllocator.pageAddress, Nat.add_mul_mod_self_right]
  refine ⟨hsup.aligned, ?_⟩
  simp only [pageSize] at hend ⊢
  omega

lemma KernelReady.wp_alloc (hn : 1 ≤ n) :
    wp (alloc kt n options) (Acquired kt users s n) (fun _ _ => True) s := by
  rw [alloc, wp_bind]
  refine wp_allocContig fun addr pma hpgs => ?_
  rw [wp_bind]
  refine wp_allocAddresses fun v vaa haddr => ?_
  obtain ⟨start, hfree, rfl, hfill⟩ := PhysicalMemoryAllocator.allocContig_ok hn hpgs
  have hpl := h.placed haddr
  obtain ⟨hal, hphy⟩ := h.phy_bounds hfill
  rw [PhysicalMemoryAllocator.pageAddress] at hal hphy
  have hrng : InRange (s.memory.pma.memoryStart + start * pageSize) v n :=
    ⟨hal, le_self_add.trans_lt (hpl.end_le.trans_lt h.hi_lt), hpl.page_end_le h.le_lo h.hi_lt, hphy⟩
  rw [wp_bind]
  refine wp_expect (wp_paging.mpr ?_)
  refine wp_mono ((h.sound.take hfill).wp_mapRange_kernel hrng hpl.aligned
    (hpl.tagMatches h.le_lo h.hi_lt h.high)) ?_ fun _ _ _ => trivial
  rintro _ memory ⟨ho, hext, hsnd⟩
  refine ⟨rfl, hsnd, rfl, haddr, ⟨start, pma, hfree, hfill, rfl, hext⟩,
    fun i => ho.frame_of_inRange hrng, ?_, fun x hx hout => ?_⟩
  · exact ho.tiled
  · refine ho.outside x hx fun hin => hout ?_
    dsimp only [Remaining.Contains, remaining] at hin
    omega

end

section acquired

variable (h : KernelReady kt users lo hi s) (hacq : Acquired kt users s n b s')
include h hacq

lemma Acquired.ready : KernelReady kt users lo hi s' :=
  ⟨hacq.sound, h.high, (h.addresses.alloc h.hi_lt hacq.addresses).2.1, h.le_lo, h.hi_lt⟩

lemma Acquired.spare_of_spare {a : ℕ} (ha : Spare kt users s.memory a) :
    Spare kt users s'.memory a := by
  obtain ⟨start, pma, hfree, hfill, -, hext⟩ := hacq.pages
  have htk := h.sound.take hfill
  have hdata : IsData kt users { s.memory with pma } a := by
    refine ⟨ha.isData.inUse.mono hfill.memoryStart_eq fun i _ hi' => ?_, ha.isData.not_isTable⟩
    rw [PhysicalMemoryAllocator.IsAllocated, hfill.getElem?_eq]
    split_ifs
    · rfl
    · exact hi'
  exact ha.of_view_eq (htk.isData_extends mem_cons_self hext hdata) fun pt hpt x =>
    htk.view_eq mem_cons_self hext (.tail _ hpt) (htk.ne_kernel hpt) x

lemma Acquired.spare {i : ℕ} (hi' : i < n) :
    Spare kt users s'.memory (b.phyAddr + i * pageSize) := by
  obtain ⟨start, pma, hfree, hfill, hphy, hext⟩ := hacq.pages
  have htk := h.sound.take hfill
  have hspa := h.sound.spare_of_take hfree hfill hi'
  have haddr : s.memory.pma.pageAddress (start + i) = b.phyAddr + i * pageSize := by
    rw [hphy, PhysicalMemoryAllocator.pageAddress, PhysicalMemoryAllocator.pageAddress,
      add_mul, add_assoc]
  rw [haddr] at hspa
  exact hspa.of_view_eq (htk.isData_extends mem_cons_self hext hspa.isData)
    fun pt hpt x => htk.view_eq mem_cons_self hext (.tail _ hpt) (htk.ne_kernel hpt) x

end acquired

structure Released (kt : PageTable) (users : List PageTable) (s : KernelMemory)
    (b : PhysicalBuffer) (s' : KernelMemory) : Prop where
  sound : Sound kt users s'.memory
  contents_eq : s'.contents = s.contents
  pma_eq : s'.memory.pma = s.memory.pma
  addresses : s.virtualAddressAllocator.free b.virAddr b.pageCount = .ok s'.virtualAddressAllocator
  unmapped : kt.Unmapped s.memory (pageOf b.virAddr) b.pageCount s'.memory

lemma KernelReady.wp_unmapVirtual (h : KernelReady kt users lo hi s)
    (hpl : Placed lo hi b.virAddr b.pageCount)
    (htil : kt.Tiled s.memory (pageOf b.virAddr) b.pageCount) :
    wp (b.unmapVirtual kt) (fun _ s' => Released kt users s b s') (fun _ _ => False) s := by
  obtain ⟨vaa, hfree⟩ :=
    VirtualAddressAllocator.free_returns h.hi_lt h.addresses.within hpl.end_le
  have hcb : PageTable.Callback (fun _ => pure ()) kt s.memory b.virAddr b.pageCount
      (fun _ pma => pma = s.memory.pma) (fun _ _ => False) :=
    ⟨fun _ _ _ _ _ _ _ _ _ hpma => ⟨rfl, hpma⟩, fun _ _ _ _ _ _ _ _ hpma => hpma⟩
  rw [unmapVirtual, wp_bind, wp_paging]
  refine wp_mono (PageTable.wp_unmapRangeCustom hcb (h.sound.wellFormed kt mem_cons_self)
    (le_self_add.trans_lt (hpl.end_le.trans_lt h.hi_lt))
    (hpl.page_end_le h.le_lo h.hi_lt) htil rfl) ?_ fun _ _ he => he
  rintro _ memory ⟨hun, hpma⟩
  have hrun : freeAddresses b.virAddr b.pageCount { s with memory } =
      (.ok (), { s with memory, virtualAddressAllocator := vaa }) := by
    rw [freeAddresses, hfree]
  rw [wp, hrun]
  exact ⟨h.sound.unmap mem_cons_self hun hpma, rfl, hpma, hfree, hun⟩

section released

variable (h : KernelReady kt users lo hi s) (hrel : Released kt users s b s')
include h hrel

lemma Released.ready (hpl : Placed lo hi b.virAddr b.pageCount) :
    KernelReady kt users lo hi s' := by
  have hbds := And.intro hpl.aligned (And.intro hpl.le_start hpl.end_le)
  exact ⟨hrel.sound, h.high, (h.addresses.free h.hi_lt hbds hrel.addresses).1, h.le_lo, h.hi_lt⟩

lemma Released.spare_of_spare {a : ℕ} (ha : Spare kt users s.memory a) :
    Spare kt users s'.memory a := by
  have hkt : kt ∈ kt :: users := mem_cons_self
  refine ha.of_view_eq ⟨hrel.pma_eq ▸ ha.isData.inUse, fun pt hpt htab => ?_⟩ fun pt hpt x => ?_
  · exact ha.isData.not_isTable pt hpt
      ((h.sound.isTable_iff_of_unmapped hkt hrel.unmapped hpt a).mp htab)
  · exact h.sound.view_eq_of_unmapped hkt hrel.unmapped (.tail _ hpt) (h.sound.ne_kernel hpt) x

end released

/-! ### Access -/

lemma PageTable.translate_of_frames {pt : PageTable} {memory : TableMemory} {phy k : ℕ}
    (hv : v % pageSize = 0) (hend : pageOf v + n ≤ halfPages)
    (hfrs : ∀ i < n, pt.frame memory (pageOf v + i) = some (phy + i * pageSize))
    (hk : k < n * pageSize) : pt.translate memory (v + k) = some (phy + k) := by
  have hpage : pageOf (v + k) = pageOf v + k / pageSize := by
    simp only [pageOf, halfPages, pageSize] at *
    omega
  have hoff : (v + k) % pageSize = k % pageSize := by
    simp only [pageSize] at *
    omega
  rw [PageTable.translate, hpage, hfrs _ (Nat.div_lt_of_lt_mul (by rwa [mul_comm])), hoff,
    Option.map_some, add_assoc, Nat.div_add_mod']

lemma Acquired.translate_eq (h : KernelReady kt users lo hi s)
    (hacq : Acquired kt users s n b s') : ∀ k < b.pageCount * pageSize,
      kt.translate s'.memory (b.virAddr + k) = some (b.phyAddr + k) := by
  have hpl := h.placed hacq.addresses
  rw [hacq.pageCount_eq]
  exact fun k => PageTable.translate_of_frames hpl.aligned
    (hpl.page_end_le h.le_lo h.hi_lt) hacq.frames

lemma store_eq {a : ℕ} {bytes : List UInt8}
    (h : ∀ k < bytes.length, kt.translate s.memory (v + k) = some (a + k)) :
    store kt v bytes s = (.ok (), { s with contents := overwrite s.contents a bytes }) := by
  induction bytes generalizing v a s with
  | nil => rw [overwrite_nil]; rfl
  | cons byte bytes ih =>
    have hfst := h 0 (by simp)
    rw [add_zero, add_zero] at hfst
    have hbyte : storeByte kt v byte s =
        (.ok (), { s with contents := Function.update s.contents a byte }) := by
      rw [storeByte, hfst]
    rw [store, bind_of_ok hbyte, overwrite_cons]
    refine ih fun k hk => ?_
    have hnext := h (k + 1) (by simpa using hk)
    rwa [add_comm k 1, ← add_assoc, ← add_assoc] at hnext

section bytes

variable (htr : ∀ k < b.pageCount * pageSize,
  kt.translate s.memory (b.virAddr + k) = some (b.phyAddr + k))
include htr

variable {first : ℕ}

lemma store_of_translate {bytes : List UInt8}
    (hle : first + bytes.length ≤ b.pageCount * pageSize) :
    store kt (b.virAddr + first) bytes s =
      (.ok (), { s with contents := overwrite s.contents (b.phyAddr + first) bytes }) := by
  refine store_eq fun k hk => ?_
  rw [add_assoc, add_assoc]
  exact htr (first + k) (by omega)

lemma copyFromSlice_ok {last : ℕ} {src : List UInt8}
    (hrun : b.copyFromSlice kt first last src s = (.ok (), s')) :
    s' = { s with contents := overwrite s.contents (b.phyAddr + first) src } := by
  simp only [copyFromSlice, len, checked, bind_eq_ok_iff,
    lift_eq_ok_iff, checkedMul_eq_ok, ite_eq_ok] at hrun
  obtain ⟨_, _, ⟨⟨-, rfl⟩, rfl⟩, _, _, ⟨⟨hle, -⟩, rfl⟩, _, _, ⟨⟨hlen, -⟩, rfl⟩, hstr⟩ := hrun
  rw [store_of_translate htr (by omega)] at hstr
  exact (Prod.ext_iff.mp hstr).2.symm

lemma fill_ok {value : UInt8} (hrun : b.fill kt first value s = (.ok (), s')) :
    s' = { s with
      contents := overwrite s.contents (b.phyAddr + first)
        (List.replicate (b.pageCount * pageSize - first) value) } := by
  simp only [fill, len, checked, bind_eq_ok_iff, lift_eq_ok_iff,
    checkedMul_eq_ok, ite_eq_ok] at hrun
  obtain ⟨_, _, ⟨⟨-, rfl⟩, rfl⟩, _, _, ⟨⟨hle, -⟩, rfl⟩, hstr⟩ := hrun
  rw [store_of_translate htr (by rw [length_replicate]; omega)] at hstr
  exact (Prod.ext_iff.mp hstr).2.symm

end bytes

/-- A buffer that is cleared when it is allocated has nothing left of what was in its pages. -/
theorem allocZeroed_ok {options : PageTableEntryOptions} (h : KernelReady kt users lo hi s)
    (hn : 1 ≤ n) (hrun : allocZeroed kt n options s = (.ok b, s')) :
    ∀ k < n * pageSize, s'.contents (b.phyAddr + k) = 0 := by
  simp only [allocZeroed, bind_eq_ok_iff] at hrun
  obtain ⟨b', s₁, hall, _, s₂, hfill, hret⟩ := hrun
  cases hret
  have hacq := wp_ok (h.wp_alloc hn) hall
  intro k hk
  rw [fill_ok (hacq.translate_eq h) hfill]
  dsimp only
  rw [add_zero, overwrite_of_lt (by rw [length_replicate, hacq.pageCount_eq]; exact hk),
    getElem_replicate]

/-! ### Runs -/

namespace PhysicalBuffer

def physicalRange (b : PhysicalBuffer) : Range := ⟨b.phyAddr, b.pageCount * pageSize⟩

def virtualRange (b : PhysicalBuffer) : Range := ⟨b.virAddr, b.pageCount * pageSize⟩

def pages (b : PhysicalBuffer) : Allocation := ⟨b.phyAddr, b.pageCount⟩

def HasPage (b : PhysicalBuffer) (x : ℕ) : Prop :=
  pageOf b.virAddr ≤ x ∧ x < pageOf b.virAddr + b.pageCount

end PhysicalBuffer

structure Buffers where
  state : KernelMemory
  live : List PhysicalBuffer
  handedOver : List Allocation
  gone : List PhysicalBuffer

open Buffers

namespace Buffers

def owned (t : Buffers) : List Allocation := t.live.map pages ++ t.handedOver

def afterCall {α : Type} (t : Buffers) (x : KernelM α) (f : α → KernelMemory → Buffers) :
    Option (Unit × Buffers) :=
  match x t.state with
  | (.ok a, s) => some ((), f a s)
  | (.error _, _) => none

end Buffers

inductive BufferCall where
  | alloc (pageCount : ℕ) (pageTableOptions : PageTableEntryOptions)
  | unmap (b : PhysicalBuffer)
  | drop (b : PhysicalBuffer)

def BufferCall.run (kt : PageTable) : BufferCall → Buffers → Option (Unit × Buffers)
  | .alloc pageCount options, t =>
    if 1 ≤ pageCount then
      t.afterCall (PhysicalBuffer.alloc kt pageCount options) fun b s =>
        { t with state := s, live := b :: t.live }
    else none
  | .unmap b, t =>
    if b ∈ t.live then
      t.afterCall (b.unmap kt) fun (addr, pageCount) s =>
        ⟨s, t.live.erase b, ⟨addr, pageCount⟩ :: t.handedOver, b :: t.gone⟩
    else none
  | .drop b, t =>
    if b ∈ t.live then
      t.afterCall (b.drop kt) fun _ s => ⟨s, t.live.erase b, t.handedOver, b :: t.gone⟩
    else none

abbrev BufferEvent := Core.Event Buffers BufferCall Unit

structure BuffersKept (kt : PageTable) (users : List PageTable) (lo hi : ℕ) (s₀ : KernelMemory)
    (t : Buffers) : Prop where
  ready : KernelReady kt users lo hi t.state
  placed : ∀ b ∈ t.live, Placed lo hi b.virAddr b.pageCount
  gone_placed : ∀ b ∈ t.gone, Placed lo hi b.virAddr b.pageCount
  coverage_eq : ∀ v, coverage t.state.virtualAddressAllocator.freeRanges v +
    coverage (t.live.map virtualRange) v =
      coverage s₀.virtualAddressAllocator.freeRanges v
  frames : ∀ b ∈ t.live, ∀ i < b.pageCount,
    kt.frame t.state.memory (pageOf b.virAddr + i) = some (b.phyAddr + i * pageSize)
  tiled : ∀ b ∈ t.live, kt.Tiled t.state.memory (pageOf b.virAddr) b.pageCount
  cleared : ∀ b ∈ t.gone, ∀ x, b.HasPage x → (∀ b' ∈ t.live, ¬ b'.HasPage x) →
    kt.frame t.state.memory x = none
  spare : ∀ a ∈ t.owned, ∀ i < a.pageCount,
    Spare kt users t.state.memory (a.base + i * pageSize)
  bitmap : ∃ tables, PhysicalMemoryAllocator.Invariant s₀.memory.pma
    ⟨t.state.memory.pma, t.owned ++ tables⟩ ∧
      ∀ a ∈ tables, a.pageCount = 1 ∧ kt.IsTable t.state.memory a.base

section kept

variable {s₀ : KernelMemory} {t : Buffers} (h : BuffersKept kt users lo hi s₀ t)
  (hdisj : ∀ v, coverage s₀.virtualAddressAllocator.freeRanges v ≤ 1)
include h hdisj

lemma BuffersKept.virtual_disjoint :
    (t.live.map virtualRange).Pairwise Range.Disjoint := by
  refine pairwise_disjoint_of_coverage_le_one fun v => ?_
  have heq := h.coverage_eq v
  have hle := hdisj v
  omega

variable {b' : PhysicalBuffer} {x : ℕ}

lemma BuffersKept.apart_of_mem_erase (hb : b ∈ t.live)
    (hb' : b' ∈ t.live.erase b) (hx : b'.HasPage x) : ¬ b.HasPage x := by
  have hpai := (((perm_cons_erase hb).map virtualRange).pairwise_iff
    (fun {r r'} hr x hx' hx => hr x hx hx')).mp (h.virtual_disjoint hdisj)
  have hap := rel_of_pairwise_cons hpai (mem_map_of_mem hb')
  refine (h.placed b' (mem_of_mem_erase hb')).apart h.ready.le_lo h.ready.hi_lt
    (h.placed b hb) (fun y hy hy' => hap y hy' hy) hx

lemma BuffersKept.apart_of_alloc {vaa : VirtualAddressAllocator}
    (hall : t.state.virtualAddressAllocator.alloc n = .ok (.ok v, vaa)) (hb' : b' ∈ t.live)
    (hx : b'.HasPage x) : ¬ (pageOf v ≤ x ∧ x < pageOf v + n) := by
  refine (h.placed b' hb').apart h.ready.le_lo h.ready.hi_lt (h.ready.placed hall)
    (fun y hy hy' => ?_) hx
  obtain ⟨-, -, hcov⟩ := h.ready.addresses.alloc h.ready.hi_lt hall
  have hnew := hcov y
  have hlive : 0 < coverage (t.live.map virtualRange) y :=
    coverage_pos_iff.mpr ⟨_, mem_map_of_mem hb', hy⟩
  have heq := h.coverage_eq y
  have hle := hdisj y
  rw [Range.ind_eq_one hy'] at hnew
  omega

lemma BuffersKept.alloc (hacq : Acquired kt users t.state n b s') :
    BuffersKept kt users lo hi s₀ { t with state := s', live := b :: t.live } := by
  obtain ⟨hman, hcov⟩ := (h.ready.addresses.alloc h.ready.hi_lt hacq.addresses).2
  have hpl := h.ready.placed hacq.addresses
  have hcnt := hacq.pageCount_eq
  subst hcnt
  have hunt : ∀ b' ∈ t.live, ∀ x < halfPages, b'.HasPage x →
      (kt.view t.state.memory x).Untouched (kt.view s'.memory x) := fun b' hb' x hx hhas =>
    hacq.outside x hx (h.apart_of_alloc hdisj hacq.addresses hb' hhas)
  have hpage : ∀ b' ∈ t.live, ∀ x, b'.HasPage x → x < halfPages := fun b' hb' x hx =>
    hx.2.trans_le ((h.placed b' hb').page_end_le h.ready.le_lo h.ready.hi_lt)
  refine ⟨hacq.ready h.ready, forall_mem_cons.mpr ⟨hpl, h.placed⟩, h.gone_placed,
    fun v => ?_, forall_mem_cons.mpr ⟨hacq.frames, fun b' hb' i hi' => ?_⟩,
    forall_mem_cons.mpr ⟨hacq.tiled, fun b' hb' x hge hlt => ?_⟩, fun b' hb' x hx hnot => ?_,
    fun a ha i hi' => ?_, ?_⟩
  · have hold := h.coverage_eq v
    have hnew := hcov v
    rw [map_cons, coverage_cons, virtualRange]
    dsimp only
    omega
  · have hhas : b'.HasPage (pageOf b'.virAddr + i) := ⟨le_self_add, by omega⟩
    rw [(hunt b' hb' _ (hpage b' hb' _ hhas) hhas).frame_eq]
    exact h.frames b' hb' i hi'
  · -- the entries of a live buffer are valid, so they stay
    have hhas : b'.HasPage x := ⟨hge, hlt⟩
    have hfr := h.frames b' hb' (x - pageOf b'.virAddr) (by omega)
    rw [Nat.add_sub_cancel' hge] at hfr
    rw [(hunt b' hb' x (hpage b' hb' x hhas) hhas).eq_of_valid
      (.inl (PageTable.valid_of_frame hfr).1)]
    exact h.tiled b' hb' x hge hlt
  · obtain ⟨hnew, hlive⟩ := forall_mem_cons.mp hnot
    have hlt : x < halfPages :=
      hx.2.trans_le ((h.gone_placed b' hb').page_end_le h.ready.le_lo h.ready.hi_lt)
    rw [(hacq.outside x hlt hnew).frame_eq]
    exact h.cleared b' hb' x hx hlive
  · rcases mem_cons.mp ha with rfl | ha
    · exact hacq.spare h.ready hi'
    · exact hacq.spare_of_spare h.ready (h.spare a ha i hi')
  · obtain ⟨tables, hinv, htabs⟩ := h.bitmap
    obtain ⟨start, pma, hfree, hfill, hphy, hext⟩ := hacq.pages
    obtain ⟨new, hgro, hnew⟩ := (hinv.add hfree hfill).grow hext.memoryStart_eq hext.length_eq
      fun i => (hext.allocated i).imp_right fun hi' => ⟨hi'.1, hi'.2.1⟩
    have hown : owned { t with state := s', live := b :: t.live } ++ (tables ++ new) =
        (⟨t.state.memory.pma.memoryStart + start * pageSize, b.pageCount⟩ ::
          (t.owned ++ tables)) ++ new := by
      rw [← PhysicalMemoryAllocator.pageAddress, ← hphy]
      simp [owned, pages]
    refine ⟨tables ++ new, hown ▸ hgro, fun a ha => ?_⟩
    rcases mem_append.mp ha with ha | ha
    · exact ⟨(htabs a ha).1, hext.mono _ (htabs a ha).2⟩
    · -- a page that was marked on the way is a table
      obtain ⟨hone, i, hbase, hwas, hnow⟩ := hnew a ha
      refine ⟨hone, ?_⟩
      rcases hext.allocated i with hsame | ⟨-, -, htab⟩
      · cases hwas.symm.trans (hsame.symm.trans hnow)
      · have hst := hgro.memoryStart_eq
        have hst' := hext.memoryStart_eq
        dsimp only at hst hst' htab
        rw [hbase, PhysicalMemoryAllocator.pageAddress, ← hst, hst']
        exact htab

lemma BuffersKept.release (hb : b ∈ t.live) (hrel : Released kt users t.state b s') :
    BuffersKept kt users lo hi s₀
      ⟨s', t.live.erase b, b.pages :: t.handedOver, b :: t.gone⟩ := by
  have hpl := h.placed b hb
  have hend := fun b' hb' => (h.placed b' hb').page_end_le h.ready.le_lo h.ready.hi_lt
  have hmem : ∀ b' ∈ t.live.erase b, b' ∈ t.live := fun _ => mem_of_mem_erase
  have hview : ∀ b' ∈ t.live.erase b, ∀ x, b'.HasPage x →
      kt.view s'.memory x = kt.view t.state.memory x := fun b' hb' x hx =>
    hrel.unmapped.outside x (hx.2.trans_le (hend b' (hmem b' hb')))
      (h.apart_of_mem_erase hdisj hb hb' hx)
  have hown : (owned ⟨s', t.live.erase b, b.pages :: t.handedOver, b :: t.gone⟩).Perm
      t.owned := by
    refine perm_middle.trans ?_
    exact ((perm_cons_erase hb).map pages).symm.append_right t.handedOver
  refine ⟨hrel.ready h.ready hpl, fun b' hb' => h.placed b' (hmem b' hb'),
    forall_mem_cons.mpr ⟨hpl, h.gone_placed⟩, fun v => ?_, fun b' hb' i hi' => ?_,
    fun b' hb' x hge hlt => ?_, fun b' hb' x hx hnot => ?_, fun a ha i hi' => ?_, ?_⟩
  · have hold := h.coverage_eq v
    have hnew := (h.ready.addresses.free h.ready.hi_lt
      ⟨hpl.aligned, hpl.le_start, hpl.end_le⟩ hrel.addresses).2 v
    rw [coverage_perm ((perm_cons_erase hb).map _), map_cons, coverage_cons, virtualRange] at hold
    dsimp only
    omega
  · rw [PageTable.frame_eq_of_view_eq (hview b' hb' _ ⟨le_self_add, by omega⟩)]
    exact h.frames b' (hmem b' hb') i hi'
  · rw [hview b' hb' x ⟨hge, hlt⟩]
    exact h.tiled b' (hmem b' hb') x hge hlt
  · by_cases hin : b.HasPage x
    · rw [PageTable.frame, hrel.unmapped.inside x hin.1 hin.2,
        PageTable.View.mapping_of_not_valid rfl]
      rfl
    · have hgone : b' ∈ t.gone := by
        rcases mem_cons.mp hb' with rfl | hgone
        · exact absurd hx hin
        · exact hgone
      have hlt : x < halfPages :=
        hx.2.trans_le ((h.gone_placed b' hgone).page_end_le h.ready.le_lo h.ready.hi_lt)
      rw [PageTable.frame_eq_of_view_eq (hrel.unmapped.outside x hlt hin)]
      refine h.cleared b' hgone x hx fun b'' hb'' => ?_
      rcases mem_cons.mp ((perm_cons_erase hb).subset hb'') with rfl | hb''
      · exact hin
      · exact hnot b'' hb''
  · exact hrel.spare_of_spare h.ready (h.spare a (hown.subset ha) i hi')
  · obtain ⟨tables, hinv, htabs⟩ := h.bitmap
    refine ⟨tables, ?_, fun a ha => ⟨(htabs a ha).1, ?_⟩⟩
    · dsimp only
      rw [hrel.pma_eq]
      exact hinv.perm (hown.append_right tables)
    · exact (hrel.unmapped.isTable_iff a.base).mpr (htabs a ha).2

end kept

lemma BuffersKept.freePages {s₀ s : KernelMemory} {live gone : List PhysicalBuffer}
    {a : Allocation} {handedOver : List Allocation} {pma : PhysicalMemoryAllocator}
    (h : BuffersKept kt users lo hi s₀ ⟨s, live, a :: handedOver, gone⟩)
    (hfree : s.memory.pma.freePages a.base a.pageCount = .ok pma) :
    BuffersKept kt users lo hi s₀ ⟨{ s with memory.pma := pma }, live, handedOver, gone⟩ := by
  obtain ⟨tables, hinv, htabs⟩ := h.bitmap
  have hmem : a ∈ owned ⟨s, live, a :: handedOver, gone⟩ :=
    mem_append_right _ mem_cons_self
  have hperm : (owned ⟨s, live, a :: handedOver, gone⟩ ++ tables).Perm
      (a :: (live.map pages ++ handedOver ++ tables)) :=
    perm_middle.append_right tables
  obtain ⟨start, hbase, -⟩ := hinv.inBitmap a (mem_append_left _ hmem)
  have haddr : ∀ j, a.base + j * pageSize = s.memory.pma.pageAddress (start + j) := by
    intro j
    rw [hbase, PhysicalMemoryAllocator.pageAddress, PhysicalMemoryAllocator.pageAddress,
      ← hinv.memoryStart_eq, add_mul, add_assoc]
  have hfill : s.memory.pma.Filled start a.pageCount false pma := by
    refine PhysicalMemoryAllocator.freePages_ok ?_
    rwa [← PhysicalMemoryAllocator.pageAddress, ← add_zero start, ← haddr, zero_mul]
  have hspa : ∀ i, start ≤ i ∧ i < start + a.pageCount →
      Spare kt users s.memory (s.memory.pma.pageAddress i) := by
    intro i hi'
    have hspa := h.spare a hmem (i - start) (by omega)
    rwa [haddr, Nat.add_sub_cancel' hi'.1] at hspa
  have hsnd : Sound kt users { s.memory with pma } := h.ready.sound.give hfill hspa
  refine ⟨{ h.ready with sound := hsnd }, h.placed, h.gone_placed, h.coverage_eq, h.frames,
    h.tiled, h.cleared, fun a' ha' i hi' => ?_, ?_⟩
  · have hold := h.spare a' (by
      rcases mem_append.mp ha' with ha' | ha'
      · exact mem_append_left _ ha'
      · exact mem_append_right _ (.tail _ ha')) i hi'
    refine hold.of_view_eq ⟨hold.isData.inUse.of_freed hfill fun j hj heq => ?_,
      hold.isData.not_isTable⟩ fun _ _ _ => rfl
    -- the page would belong to two allocations
    have hle := hinv.coverage_le_one (a'.base + i * pageSize)
    rw [coverage_perm (hperm.map _), map_cons, coverage_cons] at hle
    have hin : a'.base + i * pageSize ∈ a.range := by
      have hj' := haddr (j - start)
      rw [Nat.add_sub_cancel' hj.1, ← heq] at hj'
      rw [Range.mem_iff, Allocation.range, ← hj']
      simp only [pageSize]
      omega
    have hin' : 0 < coverage ((live.map pages ++ handedOver ++ tables).map
        Allocation.range) (a'.base + i * pageSize) := by
      refine coverage_pos_iff.mpr
        ⟨_, mem_map_of_mem (mem_append_left _ ha'), le_self_add, ?_⟩
      simp only [Allocation.range, pageSize]
      omega
    rw [Range.ind_eq_one hin] at hle
    omega
  · refine ⟨tables, ?_, htabs⟩
    have hrem := hinv.free (mem_append_left _ hmem) hfree
    refine hrem.perm ?_
    have hera := hperm.erase a
    rw [erase_cons_head] at hera
    exact hera.symm

section calls

variable {s₀ : KernelMemory} {t : Buffers} (h : BuffersKept kt users lo hi s₀ t)
include h

lemma BuffersKept.unmapVirtual_eq (hb : b ∈ t.live) :
    ∃ s₁, b.unmapVirtual kt t.state = (.ok (), s₁) ∧ Released kt users t.state b s₁ := by
  obtain ⟨_, s₁, hrun, hrel⟩ :=
    exists_of_wp (h.ready.wp_unmapVirtual (h.placed b hb) (h.tiled b hb))
  exact ⟨s₁, hrun, hrel⟩

lemma BuffersKept.unmap_eq (hb : b ∈ t.live) :
    ∃ s₁, b.unmap kt t.state = (.ok (b.phyAddr, b.pageCount), s₁) ∧
      Released kt users t.state b s₁ := by
  obtain ⟨s₁, hrun, hrel⟩ := h.unmapVirtual_eq hb
  refine ⟨s₁, ?_, hrel⟩
  rw [unmap, bind_of_ok hrun]
  rfl

lemma BuffersKept.drop_eq (hb : b ∈ t.live) :
    ∃ s₁ pma, b.drop kt t.state = (.ok (), { s₁ with memory.pma := pma }) ∧
      Released kt users t.state b s₁ ∧
      s₁.memory.pma.freePages b.phyAddr b.pageCount = .ok pma := by
  obtain ⟨s₁, hrun, hrel⟩ := h.unmapVirtual_eq hb
  obtain ⟨tables, hinv, -⟩ := h.bitmap
  obtain ⟨start, hbase, hle⟩ := hinv.inBitmap b.pages
    (mem_append_left _ (mem_append_left _ (mem_map_of_mem hb)))
  obtain ⟨pma, hfree⟩ : ∃ pma, s₁.memory.pma.freePages b.phyAddr b.pageCount = .ok pma := by
    have hphy : b.phyAddr = s₁.memory.pma.memoryStart + start * pageSize := by
      rw [hrel.pma_eq, hinv.memoryStart_eq]
      exact hbase
    rw [hphy]
    refine PhysicalMemoryAllocator.freePages_returns ?_
    rw [hrel.pma_eq, hinv.length_eq]
    exact hle
  refine ⟨s₁, pma, ?_, hrel, hfree⟩
  rw [PhysicalBuffer.drop, bind_of_ok hrun, KernelM.freePages, hfree]

lemma BuffersKept.call (hdisj : ∀ v, coverage s₀.virtualAddressAllocator.freeRanges v ≤ 1)
    {c : BufferCall} {r : Unit} {t' : Buffers} (hrun : c.run kt t = some (r, t')) :
    BuffersKept kt users lo hi s₀ t' := by
  cases c with
  | alloc n options =>
    rw [BufferCall.run] at hrun
    split_ifs at hrun with hn
    rw [afterCall] at hrun
    rcases hall : PhysicalBuffer.alloc kt n options t.state with ⟨e | b, s'⟩
    · rw [hall] at hrun
      cases hrun
    · rw [hall] at hrun
      cases hrun
      exact h.alloc hdisj (wp_ok (h.ready.wp_alloc hn) hall)
  | unmap b =>
    rw [BufferCall.run] at hrun
    split_ifs at hrun with hb
    obtain ⟨s₁, hunm, hrel⟩ := h.unmap_eq hb
    rw [afterCall, hunm] at hrun
    cases hrun
    exact h.release hdisj hb hrel
  | drop b =>
    rw [BufferCall.run] at hrun
    split_ifs at hrun with hb
    obtain ⟨s₁, pma, hdrop, hrel, hfree⟩ := h.drop_eq hb
    rw [afterCall, hdrop] at hrun
    cases hrun
    exact (h.release hdisj hb hrel).freePages hfree

end calls

/-! ### Results -/

structure InStep (kt : PageTable) (s₀ : KernelMemory) (t : Buffers) : Prop where
  physical_disjoint : (t.live.map physicalRange).Pairwise Range.Disjoint
  virtual_disjoint : (t.live.map virtualRange).Pairwise Range.Disjoint
  mapped : ∀ b ∈ t.live, ∀ i < b.pageCount,
    kt.frame t.state.memory (pageOf (b.virAddr + i * pageSize)) = some (b.phyAddr + i * pageSize)
  unmapped : ∀ b ∈ t.gone, ∀ i < b.pageCount,
    (∀ b' ∈ t.live, b.virAddr + i * pageSize ∉ b'.virtualRange) →
      kt.frame t.state.memory (pageOf (b.virAddr + i * pageSize)) = none
  addresses : ∀ v, (∃ r ∈ t.state.virtualAddressAllocator.freeRanges, v ∈ r) ↔
    (∃ r ∈ s₀.virtualAddressAllocator.freeRanges, v ∈ r) ∧ ∀ b ∈ t.live, v ∉ b.virtualRange
  pages : ∀ p < s₀.memory.pma.allocatedPages.length, t.state.memory.pma.IsAllocated p ↔
    s₀.memory.pma.IsAllocated p ∨
    (∃ b ∈ t.live, s₀.memory.pma.pageAddress p ∈ b.physicalRange) ∨
    (∃ a ∈ t.handedOver, s₀.memory.pma.pageAddress p ∈ a.range) ∨
    kt.IsTable t.state.memory (s₀.memory.pma.pageAddress p)

def Returnable (kt : PageTable) (t : Buffers) : Prop :=
  ∀ b ∈ t.live, (∃ s, b.unmap kt t.state = (.ok (b.phyAddr, b.pageCount), s)) ∧
    ∃ s, b.drop kt t.state = (.ok (), s)

structure NoBuffers (kt : PageTable) (users : List PageTable) (lo hi : ℕ) (s : KernelMemory) :
    Prop where
  ready : KernelReady kt users lo hi s
  disjoint : ∀ v, coverage s.virtualAddressAllocator.freeRanges v ≤ 1

section results

variable {s₀ : KernelMemory} {t : Buffers} (h₀ : NoBuffers kt users lo hi s₀)
include h₀

lemma NoBuffers.kept : BuffersKept kt users lo hi s₀ ⟨s₀, [], [], []⟩ where
  ready := h₀.ready
  placed := nofun
  gone_placed := nofun
  coverage_eq _ := rfl
  frames := nofun
  tiled := nofun
  cleared := nofun
  spare := nofun
  bitmap := ⟨[], PhysicalMemoryAllocator.invariant_init _, nofun⟩

omit h₀ in
lemma BuffersKept.isAllocated_iff (h : BuffersKept kt users lo hi s₀ t) {p : ℕ}
    (hp : p < s₀.memory.pma.allocatedPages.length) : t.state.memory.pma.IsAllocated p ↔
      s₀.memory.pma.IsAllocated p ∨
      (∃ b ∈ t.live, s₀.memory.pma.pageAddress p ∈ b.physicalRange) ∨
      (∃ a ∈ t.handedOver, s₀.memory.pma.pageAddress p ∈ a.range) ∨
      kt.IsTable t.state.memory (s₀.memory.pma.pageAddress p) := by
  obtain ⟨tables, hinv, htabs⟩ := h.bitmap
  have hsup := h.ready.sound.supplied kt mem_cons_self
  constructor
  · intro hall
    refine ((hinv.isAllocated_iff hp).mp hall).imp_right ?_
    rintro ⟨a, ha, hin⟩
    rcases mem_append.mp ha with ha | ha
    · rcases mem_append.mp ha with ha | ha
      · obtain ⟨b, hb, rfl⟩ := mem_map.mp ha
        exact .inl ⟨b, hb, hin⟩
      · exact .inr (.inl ⟨a, ha, hin⟩)
    · -- a table is a single page
      obtain ⟨hone, htab⟩ := htabs a ha
      obtain ⟨start, hbase, -⟩ := hinv.inBitmap a (mem_append_right _ ha)
      have hpage : a.base = s₀.memory.pma.pageAddress p := by
        rw [Range.mem_iff, Allocation.range, hone, hbase] at hin
        simp only [hbase, PhysicalMemoryAllocator.pageAddress, pageSize] at hin ⊢
        omega
      exact .inr (.inr (hpage ▸ htab))
  · rintro (hinit | ⟨b, hb, hin⟩ | ⟨a, ha, hin⟩ | ⟨q, hq⟩)
    · exact (hinv.isAllocated_iff hp).mpr (.inl hinit)
    · exact (hinv.isAllocated_iff hp).mpr (.inr ⟨b.pages,
        mem_append_left _ (mem_append_left _ (mem_map_of_mem hb)), hin⟩)
    · exact (hinv.isAllocated_iff hp).mpr
        (.inr ⟨a, mem_append_left _ (mem_append_right _ ha), hin⟩)
    · -- a page that is free is not a table
      have hlt : p < t.state.memory.pma.allocatedPages.length := hinv.length_eq ▸ hp
      rw [PhysicalMemoryAllocator.pageAddress, ← hinv.memoryStart_eq] at hq
      have hnot : t.state.memory.pma.allocatedPages[p]? ≠ some false := fun hfree =>
        hsup.fresh p hfree q hq
      rw [PhysicalMemoryAllocator.IsAllocated]
      rw [List.getElem?_eq_getElem hlt] at hnot ⊢
      simpa using hnot

lemma BuffersKept.inStep (h : BuffersKept kt users lo hi s₀ t) : InStep kt s₀ t := by
  have hlo := h₀.ready.le_lo
  have hhi := h₀.ready.hi_lt
  refine ⟨?_, h.virtual_disjoint h₀.disjoint, fun b hb i hi' => ?_, fun b hb i hi' hnot => ?_,
    fun v => ?_, fun p => h.isAllocated_iff⟩
  · obtain ⟨tables, hinv, -⟩ := h.bitmap
    refine pairwise_disjoint_of_coverage_le_one fun x => ?_
    have hle := hinv.coverage_le_one x
    simp only [owned, map_append, map_map, coverage_append] at hle
    have hsame : coverage (t.live.map physicalRange) x =
        coverage (t.live.map (Allocation.range ∘ pages)) x := rfl
    omega
  · rw [(h.placed b hb).pageOf_add hlo hhi hi']
    exact h.frames b hb i hi'
  · have hpl := h.gone_placed b hb
    refine h.cleared b hb _ ?_ fun b' hb' hhas => hnot b' hb' ?_
    · rw [hpl.pageOf_add hlo hhi hi']
      exact ⟨le_self_add, by omega⟩
    · obtain ⟨hal, hst, hend⟩ := hpl
      obtain ⟨hal', hst', hend'⟩ := h.placed b' hb'
      obtain ⟨hge, hlt⟩ := hhas
      simp only [virtualRange, Range.mem_iff, pageOf, halfPages, pageSize] at *
      omega
  · have heq := h.coverage_eq v
    have hle := h₀.disjoint v
    have hlive : (∀ b ∈ t.live, v ∉ b.virtualRange) ↔
        coverage (t.live.map virtualRange) v = 0 := by
      rw [← Nat.le_zero, ← not_lt, coverage_pos_iff]
      simp
    rw [← coverage_pos_iff, ← coverage_pos_iff, hlive]
    omega

/-- Over every run of allocations, `unmap`s and drops the bitmap, the free list and the page table
stay in step with the buffers, and every live buffer can be returned. -/
theorem buffers_inStep {events : List BufferEvent}
    (hrun : Core.Run (BufferCall.run kt) ⟨s₀, [], [], []⟩ events t) :
    InStep kt s₀ t ∧ Returnable kt t := by
  have h : BuffersKept kt users lo hi s₀ t :=
    hrun.invariant (A := fun _ => True) h₀.kept (fun _ _ _ _ h hstep _ => h.call h₀.disjoint hstep)
      fun _ _ => trivial
  refine ⟨h.inStep h₀, fun b hb => ⟨?_, ?_⟩⟩
  · obtain ⟨s₁, hunm, -⟩ := h.unmap_eq hb
    exact ⟨s₁, hunm⟩
  · obtain ⟨s₁, pma, hdrop, -⟩ := h.drop_eq hb
    exact ⟨_, hdrop⟩

end results

def sampleKernelTable : PageTable := ⟨true, 0, 0x1000⟩

def sampleKernelMemory : KernelMemory where
  memory := ⟨fun _ _ => .invalid, ⟨List.replicate 24 false, 0x10000⟩⟩
  virtualAddressAllocator := .new 0xffff_0001_0000_0000 (0x0100_0000_0000 / pageSize)
  contents := fun _ => 0

lemma sampleKernelMemory_noBuffers : NoBuffers sampleKernelTable [] 0xffff_0001_0000_0000
    0xffff_0101_0000_0000 sampleKernelMemory where
  ready :=
    { sound := .of_empty (fun _ => rfl) (by decide) (by decide) fun i _ heq => by
        simp only [sampleKernelMemory, sampleKernelTable] at heq
        omega
      high := rfl
      addresses := by
        constructor
        all_goals
          intro b hb
          rw [mem_singleton.mp hb]
          decide
      le_lo := by decide
      hi_lt := by decide }
  disjoint v := by
    change Range.ind _ v + 0 ≤ 1
    rw [Range.ind]
    split_ifs <;> decide

/-- Of three buffers, one is dropped and one unmapped, and the addresses of the first are used
again. -/
theorem buffers_inStep_three :
    ∃ events t, Core.Run (BufferCall.run sampleKernelTable) ⟨sampleKernelMemory, [], [], []⟩
      events t ∧ t.live.length = 1 ∧ t.gone.length = 2 ∧ t.handedOver.length = 1 ∧
      InStep sampleKernelTable sampleKernelMemory t := by
  obtain ⟨events, t, hrun, hlive, hgone, hover⟩ := Core.Run.exists_of_execute
    (BufferCall.run sampleKernelTable) ⟨sampleKernelMemory, [], [], []⟩
    [.alloc 1 {}, .drop ⟨0x10000, 0xffff_0001_0000_0000, 1⟩,
      .unmap ⟨0x14000, 0xffff_0001_0000_1000, 2⟩, .alloc 2 {}, .alloc 1 {}]
    (Q := fun _ t => t.live.length = 1 ∧ t.gone.length = 2 ∧ t.handedOver.length = 1)
    (by decide +kernel)
  exact ⟨events, t, hrun, hlive, hgone, hover, (buffers_inStep sampleKernelMemory_noBuffers hrun).1⟩

end Kernel.Memory
