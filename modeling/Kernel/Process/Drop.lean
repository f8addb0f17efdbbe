import Kernel.Memory.Paging.Drop
import Kernel.Process.Basic

/-!
# The pages that a process returns

The regions that the iterator yields are returned, and then the level tables.
-/

namespace Kernel.Memory

open Core Action List PhysicalMemoryAllocator PageTableIter RadixTree Nat

namespace PhysicalMemoryAllocator

def Allocation.pages (a : Allocation) : List ℕ :=
  (List.range a.pageCount).map fun j => a.base + j * pageSize

structure Cleared (pma : PhysicalMemoryAllocator) (pages : List ℕ)
    (pma' : PhysicalMemoryAllocator) : Prop where
  memoryStart_eq : pma'.memoryStart = pma.memoryStart
  length_eq : pma'.allocatedPages.length = pma.allocatedPages.length
  cleared : ∀ i, pma.pageAddress i ∈ pages → pma'.allocatedPages[i]? = some false
  kept : ∀ i, pma.pageAddress i ∉ pages → pma'.allocatedPages[i]? = pma.allocatedPages[i]?

variable {pma pma' : PhysicalMemoryAllocator} {order : List Allocation}

lemma mem_pages (pma : PhysicalMemoryAllocator) (start n i : ℕ) :
    pma.pageAddress i ∈ (Allocation.mk (pma.pageAddress start) n).pages ↔
      start ≤ i ∧ i < start + n := by
  simp only [Allocation.pages, mem_map, mem_range, pageAddress, pageSize]
  constructor
  · rintro ⟨j, hj, heq⟩
    omega
  · intro hi
    exact ⟨i - start, by omega, by omega⟩

lemma freeAll_cleared (hin : ∀ a ∈ order, pma.InBitmap a) :
    ∃ pma', pma.freeAll order = .ok pma' ∧
      pma.Cleared (order.flatMap Allocation.pages) pma' := by
  induction order generalizing pma with
  | nil => exact ⟨pma, rfl, rfl, rfl, fun i hi => absurd hi not_mem_nil, fun _ _ => rfl⟩
  | cons a order ih =>
    obtain ⟨⟨base, n⟩, hbase⟩ : ∃ b, b = a := ⟨_, rfl⟩
    subst hbase
    obtain ⟨start, rfl, hle⟩ := hin _ mem_cons_self
    obtain ⟨pma₁, hfree⟩ := freePages_returns hle
    have hfil := freePages_ok hfree
    have haddr : ∀ i, pma₁.pageAddress i = pma.pageAddress i := fun i => by
      rw [pageAddress, hfil.memoryStart_eq, pageAddress]
    obtain ⟨pma', hrest, hclr⟩ := @ih pma₁ fun a ha => by
      obtain ⟨start, hst, hle⟩ := hin a (mem_cons_of_mem _ ha)
      exact ⟨start, (haddr start).symm ▸ hst, hfil.length_eq.symm ▸ hle⟩
    refine ⟨pma', ?_, hclr.memoryStart_eq.trans hfil.memoryStart_eq,
      hclr.length_eq.trans hfil.length_eq, fun i hi => ?_, fun i hi => ?_⟩
    · rw [freeAll, foldlM_cons]
      exact bind_eq_ok.mpr ⟨pma₁, hfree, hrest⟩
    · by_cases hlat : pma₁.pageAddress i ∈ order.flatMap Allocation.pages
      · exact hclr.cleared i hlat
      · rw [hclr.kept i hlat, hfil.getElem?_eq, if_pos]
        rw [haddr] at hlat
        rw [flatMap_cons, mem_append, or_iff_left hlat] at hi
        exact (pma.mem_pages start n i).mp hi
    · rw [flatMap_cons, mem_append, not_or] at hi
      rw [hclr.kept i (by rw [haddr]; exact hi.2), hfil.getElem?_eq, if_neg]
      exact fun h => hi.1 ((pma.mem_pages start n i).mpr h)

end PhysicalMemoryAllocator

namespace PageTable

/-! ### The two walks -/

section

variable {σ : Type} (free : σ → (baseAddress pageCount : ℕ) → Checked σ)
  (tables : ℕ → LevelTable)

def freeRegionsWith : (steps : ℕ) → PageTableIter → σ → Checked σ
  | 0, _, st => pure st
  | steps + 1, it, st => do
    match ← it.next tables with
    | none => pure st
    | some (mappedRegion, it) => do
      let st ← free st mappedRegion.basePhysAddr mappedRegion.pageCount
      freeRegionsWith steps it st

def dropTableWith : (depth lvl table : ℕ) → σ → Checked σ
  | 0, _, _, st => pure st
  | depth + 1, lvl, table, st => do
    let st ← (List.finRange 512).foldlM (fun st i =>
      match (tables table i).tableRef lvl with
      | some t => dropTableWith depth (lvl + 1) t st
      | none => pure st) st
    free st table 1

def dropWith (pt : PageTable) (st : σ) : Checked σ := do
  let it ← startingAt tables pt 0 0 0 0
  let st ← freeRegionsWith free tables maxSteps it st
  dropTableWith free tables 4 0 pt.level0PhyAddr st

end

lemma freeRegionsWith_freePages (tables : ℕ → LevelTable) (steps : ℕ) (it : PageTableIter)
    (pma : PhysicalMemoryAllocator) :
    freeRegionsWith freePages tables steps it pma =
      freeRegions tables steps it pma := by
  induction steps generalizing it pma with
  | zero => rfl
  | succ steps ih =>
    rw [freeRegionsWith, freeRegions]
    refine congrArg (_ >>= ·) (funext fun found => ?_)
    cases found with
    | none => rfl
    | some found => exact congrArg (_ >>= ·) (funext fun pma => ih _ pma)

lemma dropTableWith_freePages (tables : ℕ → LevelTable) (depth lvl table : ℕ)
    (pma : PhysicalMemoryAllocator) :
    dropTableWith freePages tables depth lvl table pma =
      dropTable tables depth lvl table pma := by
  induction depth generalizing lvl table pma with
  | zero => rfl
  | succ depth ih =>
    rw [dropTableWith, dropTable]
    simp only [ih]
    rfl

def dropCalls (pt : PageTable) (s : TableMemory) : List PhysicalMemoryAllocator.Allocation :=
  (pt.leavesFrom s 0).map (fun x => ⟨(pt.region s x).basePhysAddr, (pt.region s x).pageCount⟩) ++
    (postorder tableChild (List.finRange 512) s.tables 4 0 pt.level0PhyAddr).map
      (⟨·, 1⟩)

variable {pt : PageTable} {s : TableMemory} {σ : Type}

lemma dropWith_eq (hprop : pt.Proper s)
    (free : σ → (baseAddress pageCount : ℕ) → Checked σ) (st : σ) :
    dropWith free s.tables pt st =
      (pt.dropCalls s).foldlM (fun st a => free st a.base a.pageCount) st := by
  obtain ⟨it, rs, hst, hyld, hlvs⟩ := startingAt_leaves hprop 0 0 0 0
  have hrs : rs = (pt.leavesFrom s 0).map (pt.region s) := by
    have hfst : chunk (pt.view s (pageOfIndices 0 0 0 0)).level
        (pageOfIndices 0 0 0 0) = 0 := le_zero.mp (chunk_le _ _)
    rw [hlvs (by simp), hfst]
  have hste : rs.length < maxSteps := by
    rw [hrs, length_map]
    exact length_leavesFrom_lt pt s 0
  have hregs : ∀ st, freeRegionsWith free s.tables maxSteps it st =
      rs.foldlM (fun st r => free st r.basePhysAddr r.pageCount) st := by
    refine hyld.loop_eq (fun steps it st hnext => ?_) (fun steps it it' r st hnext => ?_) hste
    · rw [freeRegionsWith, checked_bind_of_ok hnext]
      rfl
    · rw [freeRegionsWith, checked_bind_of_ok hnext]
  have htabs : ∀ st, dropTableWith free s.tables 4 0 pt.level0PhyAddr st =
      (postorder tableChild (List.finRange 512) s.tables 4 0 pt.level0PhyAddr).foldlM
        (fun st t => free st t 1) st := by
    refine visit_eq (fun _ _ _ => rfl) fun depth lvl table st => ?_
    rw [dropTableWith]
    congr 2
    funext st i
    rw [tableChild]
    cases (s.tables table i).tableRef lvl <;> rfl
  rw [dropWith, checked_bind_of_ok hst, dropCalls, foldlM_append, foldlM_map,
    hregs, hrs, foldlM_map]
  refine congrArg (_ >>= ·) (funext fun st => ?_)
  rw [htabs, foldlM_map]

/-! ### Every page once -/

structure PagesDisjoint (pt : PageTable) (s : TableMemory) : Prop where
  proper : pt.Proper s
  wellFormed : pt.WellFormed s
  frame_inUse : ∀ x < halfPages, ∀ a, pt.frame s x = some a → s.pma.InUse a
  table_inUse : ∀ a, pt.IsTable s a → s.pma.InUse a
  frame_injective : ∀ x < halfPages, ∀ y < halfPages, ∀ a, pt.frame s x = some a →
    pt.frame s y = some a → x = y
  frame_not_table : ∀ x < halfPages, ∀ a, pt.frame s x = some a → ¬ pt.IsTable s a

lemma mem_pages_leaf {x a : ℕ} (hleaf : pt.IsLeaf s x) (hx : x < halfPages) :
    a ∈ (PhysicalMemoryAllocator.Allocation.mk (pt.region s x).basePhysAddr
      (pt.region s x).pageCount).pages ↔
      ∃ j < span (pt.view s x).level, pt.frame s (x + j) = some a := by
  simp only [PhysicalMemoryAllocator.Allocation.pages, mem_map, mem_range]
  constructor
  · rintro ⟨j, hj, rfl⟩
    exact ⟨j, hj, hleaf.frame_add hx hj⟩
  · rintro ⟨j, hj, hfr⟩
    rw [hleaf.frame_add hx hj] at hfr
    exact ⟨j, hj, Option.some.inj hfr⟩

lemma mem_leaf_pages {a : ℕ} :
    a ∈ ((pt.leavesFrom s 0).map fun x => PhysicalMemoryAllocator.Allocation.mk
      (pt.region s x).basePhysAddr (pt.region s x).pageCount).flatMap
        PhysicalMemoryAllocator.Allocation.pages ↔
      ∃ x < halfPages, pt.frame s x = some a := by
  simp only [mem_flatMap, mem_map, exists_exists_and_eq_and]
  constructor
  · rintro ⟨y, hy, ha⟩
    obtain ⟨-, hlt, hleaf⟩ := mem_leavesFrom.mp hy
    obtain ⟨j, hj, hfr⟩ := (mem_pages_leaf hleaf hlt).mp ha
    have hend := hleaf.1.end_le hlt
    exact ⟨y + j, by omega, hfr⟩
  · rintro ⟨x, hx, hfr⟩
    obtain ⟨y, j, hleaf, hj, rfl⟩ := exists_leaf hx hfr
    have hlt : y < halfPages := by omega
    exact ⟨y, mem_leavesFrom.mpr ⟨zero_le y, hlt, hleaf⟩,
      (mem_pages_leaf hleaf hlt).mpr ⟨j, hj, hfr⟩⟩

lemma mem_table_pages {a : ℕ} :
    a ∈ ((postorder tableChild (List.finRange 512) s.tables 4 0
      pt.level0PhyAddr).map (PhysicalMemoryAllocator.Allocation.mk · 1)).flatMap
        PhysicalMemoryAllocator.Allocation.pages ↔ pt.IsTable s a := by
  have hpgs : ∀ t, (PhysicalMemoryAllocator.Allocation.mk t 1).pages = [t] := fun t => by
    simp [PhysicalMemoryAllocator.Allocation.pages]
  simp only [mem_flatMap, mem_map, exists_exists_and_eq_and, hpgs,
    mem_singleton, mem_postorder mem_finRange]
  constructor
  · rintro ⟨t, ⟨q, -, hq⟩, rfl⟩
    exact ⟨q, hq⟩
  · rintro ⟨q, hq⟩
    have hlen := length_of_follow (zero_le 3) hq
    exact ⟨a, ⟨q, by omega, hq⟩, rfl⟩

lemma mem_dropCalls {a : ℕ} :
    a ∈ (pt.dropCalls s).flatMap PhysicalMemoryAllocator.Allocation.pages ↔
      pt.IsTable s a ∨ ∃ x < halfPages, pt.frame s x = some a := by
  rw [dropCalls, flatMap_append, mem_append, mem_leaf_pages, mem_table_pages, or_comm]

namespace PagesDisjoint

variable (h : pt.PagesDisjoint s)
include h

lemma nodup_dropCalls :
    ((pt.dropCalls s).flatMap PhysicalMemoryAllocator.Allocation.pages).Nodup := by
  rw [dropCalls, flatMap_append]
  refine List.Nodup.append ?_ ?_ fun a hleaf htab => ?_
  · rw [flatMap_map, nodup_flatMap]
    constructor
    · intro x _
      refine List.Nodup.map (fun i j hij => ?_) nodup_range
      simp only [pageSize] at hij
      omega
    · refine (leavesFrom_sorted pt s 0).imp_of_mem fun {x y} hx hy hlt a hax hay => ?_
      obtain ⟨-, hltx, hlea⟩ := mem_leavesFrom.mp hx
      obtain ⟨-, hlty, hleafy⟩ := mem_leavesFrom.mp hy
      obtain ⟨j, hj, hfr⟩ := (mem_pages_leaf hlea hltx).mp hax
      obtain ⟨k, hk, hfr'⟩ := (mem_pages_leaf hleafy hlty).mp hay
      have hendx := hlea.1.end_le hltx
      have hendy := hleafy.1.end_le hlty
      have hsame := h.frame_injective _ (by omega) _ (by omega) a hfr hfr'
      exact hlea.1.not_begins hltx hlt (by omega) hleafy.1
  · have hpgs : ∀ t, (PhysicalMemoryAllocator.Allocation.mk t 1).pages = [t] := fun t => by
      simp [PhysicalMemoryAllocator.Allocation.pages]
    simp only [flatMap_map, hpgs, flatMap_singleton']
    exact nodup_postorder (nodup_finRange 512) mem_finRange h.wellFormed
      (p := []) rfl
  · obtain ⟨x, hx, hfr⟩ := mem_leaf_pages.mp hleaf
    exact h.frame_not_table x hx a hfr (mem_table_pages.mp htab)

lemma inBitmap {a : PhysicalMemoryAllocator.Allocation} (ha : a ∈ pt.dropCalls s) :
    s.pma.InBitmap a := by
  rcases mem_append.mp ha with ha | ha
  · obtain ⟨x, hx, rfl⟩ := mem_map.mp ha
    obtain ⟨-, hlt, hleaf⟩ := mem_leavesFrom.mp hx
    have hend := hleaf.1.end_le hlt
    have hpos := span_pos (pt.view s x).level
    have hlast := hleaf.frame_add hlt (sub_lt hpos one_pos)
    obtain ⟨start, -, hst⟩ := h.frame_inUse x hlt _ hleaf.frame_eq
    refine ⟨start, hst, ?_⟩
    obtain ⟨i, hi, heq⟩ := h.frame_inUse _ (by omega) _ hlast
    have hbou := (List.getElem?_eq_some_iff.mp hi).1
    rw [hst] at heq
    simp only [pageAddress, pageSize] at heq
    change start + span (pt.view s x).level ≤ _
    omega
  · obtain ⟨t, ht, rfl⟩ := mem_map.mp ha
    obtain ⟨q, -, hq⟩ := (mem_postorder mem_finRange).mp ht
    obtain ⟨i, hi, heq⟩ := h.table_inUse t ⟨q, hq⟩
    exact ⟨i, heq, (List.getElem?_eq_some_iff.mp hi).1⟩

end PagesDisjoint

/-! ### Page tables in use -/

lemma Extends.table_inUse {s' : TableMemory} {a : ℕ} (h : pt.Extends s s') (hsup : pt.Supplied s')
    (hs : ∀ a, pt.IsTable s a → s.pma.InUse a) (ha : pt.IsTable s' a) : s'.pma.InUse a := by
  rcases h.isTable a ha with hold | ⟨i, hfree, rfl⟩
  · exact (hs a hold).mono h.memoryStart_eq fun _ _ hi => h.allocated_of_allocated hi
  · rcases h.allocated i with hsame | ⟨-, hall, -⟩
    · obtain ⟨q, hq⟩ := ha
      rw [← h.memoryStart_eq] at hq
      exact absurd hq (hsup.fresh i (hsame.trans hfree) q)
    · exact ⟨i, hall, by rw [pageAddress, h.memoryStart_eq]⟩

lemma Sound.pagesDisjoint {kt : PageTable} {users : List PageTable} (h : Sound kt users s)
    (hpt : pt ∈ users) (hprop : pt.Proper s) (htab : ∀ a, pt.IsTable s a → s.pma.InUse a) :
    pt.PagesDisjoint s where
  proper := hprop
  wellFormed := h.wellFormed pt (.tail _ hpt)
  frame_inUse x hx a hfr := (h.isData pt x a ⟨hpt, hx, hfr⟩).inUse
  table_inUse := htab
  frame_injective x hx y hy a hfr hfr' :=
    (h.injective pt x pt y a ⟨hpt, hx, hfr⟩ ⟨hpt, hy, hfr'⟩).2
  frame_not_table x hx a hfr := (h.isData pt x a ⟨hpt, hx, hfr⟩).not_isTable pt (.tail _ hpt)

end PageTable

end Kernel.Memory

namespace Kernel.Process

open Core Memory

lemma drop_eq (proc : Process) (memory : TableMemory) (vaa : VirtualAddressAllocator) :
    proc.drop memory vaa = (do
      let vaa ← freeQueueAddresses .command (proc.sendQueues.map Prod.fst) vaa
      let vaa ← freeQueueAddresses .completion proc.recvQueues vaa
      let pma ← PageTable.dropWith PhysicalMemoryAllocator.freePages memory.tables
        proc.pageTables memory.pma
      pure ({ memory with pma }, vaa)) := by
  simp only [Process.drop, PageTable.dropWith, PageTable.drop, bind_assoc, pure_bind,
    PageTable.freeRegionsWith_freePages, PageTable.dropTableWith_freePages]

/-- The drop of a process with disjoint pages makes one call for every leaf and every table, so
that it clears the bits of the pages that are mapped and of the tables, every one once, and no
other bit. -/
theorem drop_returns_pages_once (proc : Process) (memory : TableMemory)
    (h : proc.pageTables.PagesDisjoint memory) :
    ∃ (calls : List PhysicalMemoryAllocator.Allocation) (pma' : PhysicalMemoryAllocator),
      (∀ (σ : Type) (free : σ → ℕ → ℕ → Checked σ) (st : σ),
        PageTable.dropWith free memory.tables proc.pageTables st =
          calls.foldlM (fun st a => free st a.base a.pageCount) st) ∧
      (calls.flatMap PhysicalMemoryAllocator.Allocation.pages).Nodup ∧
      (∀ a, a ∈ calls.flatMap PhysicalMemoryAllocator.Allocation.pages ↔
        proc.pageTables.IsTable memory a ∨
          ∃ x < halfPages, proc.pageTables.frame memory x = some a) ∧
      memory.pma.Cleared (calls.flatMap PhysicalMemoryAllocator.Allocation.pages) pma' ∧
      PageTable.dropWith PhysicalMemoryAllocator.freePages memory.tables proc.pageTables
        memory.pma = .ok pma' ∧
      ∀ vaa, proc.drop memory vaa = (do
        let vaa ← freeQueueAddresses .command (proc.sendQueues.map Prod.fst) vaa
        let vaa ← freeQueueAddresses .completion proc.recvQueues vaa
        pure ({ memory with pma := pma' }, vaa)) := by
  obtain ⟨pma', hfree, hclr⟩ :=
    PhysicalMemoryAllocator.freeAll_cleared fun a ha => h.inBitmap ha
  have hpma : PageTable.dropWith PhysicalMemoryAllocator.freePages memory.tables proc.pageTables
      memory.pma = .ok pma' := (PageTable.dropWith_eq h.proper _ _).trans hfree
  refine ⟨proc.pageTables.dropCalls memory, pma', fun σ free st => PageTable.dropWith_eq h.proper
    free st, h.nodup_dropCalls, fun a => PageTable.mem_dropCalls, hclr, hpma, fun vaa => ?_⟩
  rw [drop_eq, hpma]
  rfl

def sampleDropped : Process := ⟨1, ⟨false, 1, 0x10000⟩, .new 0x1000 0x1000, 1, [], []⟩

def sampleUnmapped : TableMemory :=
  ⟨fun _ _ => .invalid, ⟨[true, true, false, false, false], 0x10000⟩⟩

def sampleMapped : TableMemory :=
  (PageTable.mapRange 0x11000 0 1 {} sampleDropped.pageTables true sampleUnmapped).2

lemma sampleMapped_disjoint : sampleDropped.pageTables.PagesDisjoint sampleMapped := by
  have hrun : PageTable.mapRange 0x11000 0 1 {} sampleDropped.pageTables true sampleUnmapped =
      (.ok (), sampleMapped) := Prod.ext (by decide +kernel) rfl
  have hroot : ∀ pt a, PageTable.IsTable pt sampleUnmapped a → a = pt.level0PhyAddr :=
    fun pt a ⟨q, hq⟩ => (PageTable.follow_of_empty (fun _ => rfl) hq).2
  have hemp : PageTable.Sound ⟨true, 0, 0⟩ [] sampleUnmapped :=
    .of_empty (fun _ => rfl) rfl (by decide) fun i hi heq => by
      simp only [sampleUnmapped] at heq
      omega
  have hspa : PageTable.Spare ⟨true, 0, 0⟩ [] sampleUnmapped 0x10000 :=
    ⟨⟨⟨0, rfl, rfl⟩, fun pt hpt htab => by
      cases List.mem_singleton.mp hpt
      cases hroot _ _ htab⟩, fun _ _ hheld => nomatch hheld.1⟩
  obtain ⟨hsnd, hview, -⟩ := hemp.of_spare hspa
    (rfl : sampleDropped.pageTables.level0PhyAddr = _) (Function.update_eq_self _ _).symm rfl
  have hmem : sampleDropped.pageTables ∈ [sampleDropped.pageTables] := List.mem_cons_self
  have hnew : PageTable.Spare ⟨true, 0, 0⟩ [sampleDropped.pageTables] sampleUnmapped 0x11000 := by
    refine ⟨⟨⟨1, rfl, rfl⟩, fun pt hpt htab => ?_⟩, fun pt x ⟨hpt, hx, hfr⟩ => ?_⟩
    · have hne : ∀ pt ∈ [⟨true, 0, 0⟩, sampleDropped.pageTables], 0x11000 ≠ pt.level0PhyAddr := by
        decide
      exact hne pt hpt (hroot pt _ htab)
    · cases List.mem_singleton.mp hpt
      rw [PageTable.frame, hview] at hfr
      cases hfr
  have hrng : PageTable.InRange 0x11000 0 1 := ⟨rfl, by decide, by decide, by decide⟩
  obtain ⟨-, hext, hsnd'⟩ := Action.wp_ok (hsnd.wp_mapRange_user hrng hmem rfl (by decide)
    fun k hk => by rwa [Nat.lt_one_iff.mp hk]) hrun
  refine hsnd'.pagesDisjoint hmem (Action.wp_ok ((PageTable.proper_of_empty fun _ => rfl).mapRange
    (hsnd.wellFormed _ (.tail _ hmem)) (hsnd.supplied _ (.tail _ hmem)) hrng true) hrun) fun a =>
    hext.table_inUse (hsnd'.supplied _ (.tail _ hmem)) fun a ha => ?_
  rw [hroot _ a ha]
  exact ⟨0, rfl, rfl⟩

theorem drop_returns_pages_once_one_page :
    ∃ (calls : List PhysicalMemoryAllocator.Allocation) (pma' : PhysicalMemoryAllocator),
      (calls.flatMap PhysicalMemoryAllocator.Allocation.pages).Nodup ∧
      PageTable.dropWith PhysicalMemoryAllocator.freePages sampleMapped.tables
        sampleDropped.pageTables sampleMapped.pma = .ok pma' ∧
      sampleDropped.drop sampleMapped (.new 0x1000 0x1000) =
        .ok ({ sampleMapped with pma := pma' }, .new 0x1000 0x1000) := by
  obtain ⟨calls, pma', -, hnd, -, -, hrun, hdrop⟩ :=
    drop_returns_pages_once sampleDropped sampleMapped sampleMapped_disjoint
  exact ⟨calls, pma', hnd, hrun, hdrop _⟩

end Kernel.Process
