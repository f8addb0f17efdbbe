import Kernel.Memory.Paging.AddressSpace

/-!
# Several page tables in one memory

All page tables are stored in the same memory and take their pages from the same allocator.
-/

namespace Kernel.Memory

open Core Action RadixTree Function

namespace PageTable

def IsTable (pt : PageTable) (s : TableMemory) (a : ℕ) : Prop :=
  ∃ q, follow tableChild s.tables 0 pt.level0PhyAddr q = some a

structure Extends (pt : PageTable) (s s' : TableMemory) : Prop where
  memoryStart_eq : s'.pma.memoryStart = s.pma.memoryStart
  length_eq : s'.pma.allocatedPages.length = s.pma.allocatedPages.length
  isTable : ∀ a, pt.IsTable s' a → pt.IsTable s a ∨
    ∃ i, s.pma.allocatedPages[i]? = some false ∧ a = s.pma.memoryStart + i * pageSize
  tables_eq : ∀ a, ¬ pt.IsTable s' a → s'.tables a = s.tables a
  mono : ∀ a, pt.IsTable s a → pt.IsTable s' a
  allocated : ∀ i, s'.pma.allocatedPages[i]? = s.pma.allocatedPages[i]? ∨
    s.pma.allocatedPages[i]? = some false ∧ s'.pma.allocatedPages[i]? = some true ∧
      pt.IsTable s' (s.pma.memoryStart + i * pageSize)

variable {pt kt : PageTable} {s s' s₁ : TableMemory} {w lvl table : ℕ} {e : PageTableEntry}

lemma TableAt.isTable (h : pt.TableAt s w lvl table) : pt.IsTable s table := ⟨_, h⟩

lemma isTable_root (pt : PageTable) (s : TableMemory) : pt.IsTable s pt.level0PhyAddr := ⟨[], rfl⟩

lemma Extends.refl (pt : PageTable) (s : TableMemory) : pt.Extends s s where
  memoryStart_eq := rfl
  length_eq := rfl
  isTable _ h := .inl h
  tables_eq _ _ := rfl
  mono _ h := h
  allocated _ := .inl rfl

lemma Extends.trans (h : pt.Extends s s₁) (h' : pt.Extends s₁ s') : pt.Extends s s' where
  memoryStart_eq := h'.memoryStart_eq.trans h.memoryStart_eq
  length_eq := h'.length_eq.trans h.length_eq
  isTable a ha := by
    rcases h'.isTable a ha with ha | ⟨i, hi, rfl⟩
    · exact h.isTable a ha
    · -- A page that is free after the first part was free before it.
      rcases h.allocated i with hsame | ⟨-, htrue, -⟩
      · rw [h.memoryStart_eq]
        exact .inr ⟨i, hsame ▸ hi, rfl⟩
      · rw [htrue] at hi
        cases hi
  tables_eq a ha := by
    rw [h'.tables_eq a ha]
    exact h.tables_eq a fun hs => ha (h'.mono a hs)
  mono a ha := h'.mono a (h.mono a ha)
  allocated i := by
    rcases h.allocated i with hsame | ⟨hfal, htrue, htab⟩
    · rcases h'.allocated i with hsame' | ⟨hfal, htrue, htab⟩
      · exact .inl (hsame'.trans hsame)
      · rw [h.memoryStart_eq] at htab
        exact .inr ⟨hsame ▸ hfal, htrue, htab⟩
    · rcases h'.allocated i with hsame' | ⟨hfal', -, -⟩
      · exact .inr ⟨hfal, hsame'.trans htrue, h'.mono _ htab⟩
      · rw [htrue] at hfal'
        cases hfal'

lemma Extends.allocated_of_allocated (h : pt.Extends s s') {i : ℕ}
    (hi : s.pma.IsAllocated i) : s'.pma.IsAllocated i := by
  rcases h.allocated i with hsame | ⟨hfal, -, -⟩
  · exact hsame.trans hi
  · rw [PhysicalMemoryAllocator.IsAllocated, hfal] at hi
    cases hi

lemma Extends.free_of_free (h : pt.Extends s s') {i : ℕ}
    (hi : s'.pma.allocatedPages[i]? = some false) : s.pma.allocatedPages[i]? = some false := by
  rcases h.allocated i with hsame | ⟨-, htrue, -⟩
  · exact hsame ▸ hi
  · rw [htrue] at hi
    cases hi

/-! ### The two kinds of writes -/

lemma TableAt.not_prefix (ht : pt.TableAt s w lvl table)
    (hold : (s.tables table (digit w lvl)).tableRef lvl = none) {q : List (Fin 512)} {a : ℕ}
    (hq : follow tableChild s.tables 0 pt.level0PhyAddr q = some a) :
    ¬ pathTo w lvl ++ [digit w lvl] <+: q := by
  rintro ⟨r, rfl⟩
  rw [List.append_assoc, follow_append, ht, Option.bind_some, List.singleton_append,
    follow, length_pathTo, zero_add, tableChild, hold] at hq
  cases hq

lemma isTable_putEntry (hwf : pt.WellFormed s) (ht : pt.TableAt s w lvl table)
    (hold : (s.tables table (digit w lvl)).tableRef lvl = none) (he : tableChild lvl e = none)
    (a : ℕ) : pt.IsTable (putEntry s table (digit w lvl) e) a ↔ pt.IsTable s a := by
  constructor
  · rintro ⟨q, hq⟩
    exact ⟨q, follow_of_set_leaf hwf ht (by rwa [length_pathTo]) hq⟩
  · rintro ⟨q, hq⟩
    refine ⟨q, ?_⟩
    rw [putEntry, (follow_lookup_set hwf ht (ht.not_prefix hold hq)).1, hq]

lemma putEntry_tables_of_ne {i : Fin 512} {a : ℕ} (hne : a ≠ table) :
    (putEntry s table i e).tables a = s.tables a :=
  update_of_ne hne _ _

lemma Extends.putEntry (hwf : pt.WellFormed s) (ht : pt.TableAt s w lvl table)
    (hold : (s.tables table (digit w lvl)).tableRef lvl = none) (he : tableChild lvl e = none) :
    pt.Extends s (putEntry s table (digit w lvl) e) := by
  have hiff := isTable_putEntry hwf ht hold he
  refine ⟨rfl, rfl, fun a ha => .inl ((hiff a).mp ha), fun a ha => ?_,
    fun a ha => (hiff a).mpr ha, fun _ => .inl rfl⟩
  refine putEntry_tables_of_ne ?_
  rintro rfl
  exact ha ((hiff _).mpr ht.isTable)

lemma Extends.attachTable {start : ℕ} {pma : PhysicalMemoryAllocator} (hwf : pt.WellFormed s)
    (hsup : pt.Supplied s) (ht : pt.TableAt s w lvl table) (hlvl : lvl < 3)
    (hold : (s.tables table (digit w lvl)).tableRef lvl = none)
    (hfree : s.pma.allocatedPages[start]? = some false) (hpma : s.pma.Filled start 1 true pma) :
    pt.Extends s
      (attachTable s pma table (digit w lvl) (s.pma.memoryStart + start * pageSize)) := by
  have hch := hsup.child_eq (w := w) hlvl hfree
  have hfsh := hsup.fresh start hfree
  have hnew : pt.TableAt (PageTable.attachTable s pma table (digit w lvl)
      (s.pma.memoryStart + start * pageSize)) w (lvl + 1) _ :=
    ht.attachTable hwf hsup hlvl hfree
  have hfor : ∀ a, pt.IsTable s a → pt.IsTable (PageTable.attachTable s pma table
      (digit w lvl) (s.pma.memoryStart + start * pageSize)) a := by
    rintro a ⟨q, hq⟩
    refine ⟨q, ?_⟩
    rw [PageTable.attachTable,
      (RadixTree.follow_lookup_attach hwf ht hfsh (ht.not_prefix hold hq)).1, hq]
  refine ⟨hpma.memoryStart_eq, hpma.length_eq, ?_, fun a ha => ?_, hfor, fun i => ?_⟩
  · rintro a ⟨q, hq⟩
    rcases RadixTree.follow_of_attach hwf ht hfsh hch (fun lvl _ => tableChild_invalid lvl)
      hq with ⟨-, rfl⟩ | hq
    · exact .inr ⟨start, hfree, rfl⟩
    · exact .inl ⟨q, hq⟩
  · have hne : a ≠ table := by
      rintro rfl
      exact ha (hfor _ ht.isTable)
    have hne' : a ≠ s.pma.memoryStart + start * pageSize := by
      rintro rfl
      exact ha hnew.isTable
    dsimp only [PageTable.attachTable, RadixTree.attach, RadixTree.set]
    rw [update_of_ne hne, update_of_ne hne']
  · dsimp only [PageTable.attachTable]
    rw [hpma.getElem?_eq]
    split_ifs with hrng
    · obtain rfl : i = start := by omega
      exact .inr ⟨hfree, rfl, hnew.isTable⟩
    · exact .inl rfl

/-! ### `map_range` -/

section mapRange

variable {phyStart virtStart pageCount pageIndex : ℕ} {m : Remaining}
  {options : PageTableEntryOptions}

section round

variable (hphy : pageAt phyStart pageIndex = .ok (m.phy * pageSize))
  (hcnt : pageCount - pageIndex = m.count) (hw : m.virt < halfPages)
include hphy hcnt hw

lemma wp_descend_extends {levels : List Level} (hlevs : AreLevels m.virt lvl levels)
    (h : pt.Descending s m lvl s₁ table) (hext : pt.Extends s s₁) :
    wp (descend phyStart pageCount options pageIndex levels table)
      (fun _ s' => pt.Extends s s') (fun _ s' => pt.Extends s s') s₁ := by
  induction levels generalizing lvl s₁ table with
  | nil => exact hext
  | cons level rest ih =>
    obtain ⟨hlev, hrest⟩ := hlevs
    have hlvl : lvl < 3 := hrest.le
    rw [descend, wp_bind, wp_readEntry, hlev.index_eq, hlev.lvl_eq]
    cases href : (s₁.tables table (digit m.virt lvl)).tableRef lvl with
    | some next => exact ih hrest (h.next hlvl href) hext
    | none =>
      rw [wp_bind]
      refine wp_checked_assert (fun hval => ?_) fun _ => hext
      rw [wp_bind]
      refine wp_largeBlock hlev hlvl hphy hcnt options (fun hfits e he => ?_)
        fun hfits => ?_
      · dsimp only
        rw [wp_bind, wp_writeEntry, hlev.index_eq, he, wp_pure]
        exact hext.trans (.putEntry h.wellFormed h.tableAt href (tableChild_leafEntry hlvl.le _))
      · dsimp only
        rw [wp_bind]
        refine wp_allocateTable h.supplied.end_le (fun start pma hfree hpma => ?_) hext
        have hch := h.supplied.child_eq (w := m.virt) hlvl hfree
        rw [length_pathTo, tableChild] at hch
        rw [wp_bind, wp_writeEntry, wp_bind, wp_readEntry, hlev.index_eq, putEntry_self, hch]
        exact ih hrest (h.attach hlvl href hw (by simpa using hval) hfits hfree hpma)
          (hext.trans (.attachTable h.wellFormed h.supplied h.tableAt hlvl href hfree hpma))

lemma wp_mapPage_extends {v : ℕ} (hvirt : pageAt virtStart pageIndex = .ok v)
    (hv : pageOf v = m.virt) (hwf : pt.WellFormed s) (hsup : pt.Supplied s) :
    wp (mapPage phyStart virtStart pageCount options pt pageIndex)
      (fun _ s' => pt.Extends s s') (fun _ s' => pt.Extends s s') s := by
  have hlevs := areLevels_levels v
  rw [hv] at hlevs
  rw [mapPage, wp_bind, wp_checked_of_eq hvirt, wp_bind]
  refine wp_mono (wp_and (wp_descend_extends hphy hcnt hw hlevs (.start hwf hsup) (.refl pt s))
    (wp_descend hphy hcnt hw hlevs (.start hwf hsup))) ?_ fun _ _ h => h.1
  rintro (table | size) s₁ ⟨hext, hdes⟩
  · dsimp only
    have h : pt.Descending s m 3 s₁ table := hdes
    rw [wp_bind, wp_checked_of_eq hphy, wp_bind, wp_writeEntry, wp_pure, digit_three, hv]
    exact hext.trans (.putEntry h.wellFormed h.tableAt rfl rfl)
  · exact hext

end round

variable (hrng : InRange phyStart virtStart pageCount)
include hrng

lemma wp_mapPages_extends {rounds : ℕ} (hwf : pt.WellFormed s) (hsup : pt.Supplied s) :
    wp (mapPages phyStart virtStart pageCount options pt rounds pageIndex)
      (fun _ s' => pt.Extends s s') (fun _ s' => pt.Extends s s') s := by
  induction rounds generalizing s pageIndex with
  | zero => exact .refl pt s
  | succ rounds ih =>
    rw [mapPages, wp_ite]
    refine ⟨fun hlt => ?_, fun _ => .refl pt s⟩
    have hw : (remaining phyStart virtStart pageCount pageIndex).virt < halfPages := by
      have := hrng.virt_end
      dsimp only [remaining]
      omega
    obtain ⟨v, hpage, hv⟩ := hrng.pageAt_virt hlt
    rw [wp_bind]
    refine wp_mono (wp_and (wp_mapPage_extends (hrng.pageAt_phy hlt) rfl hw hpage hv hwf hsup)
      (wp_mapPage (hrng.pageAt_phy hlt) rfl hw hpage hv hwf hsup)) ?_ fun _ _ h => h.1
    rintro n s₁ ⟨hext, lvl, rfl, hmap⟩
    exact wp_mono (ih hmap.wellFormed hmap.supplied) (fun _ _ h => hext.trans h)
      fun _ _ h => hext.trans h

lemma wp_mapRange_extends (hwf : pt.WellFormed s) (hsup : pt.Supplied s) (overwrite : Bool) :
    wp (mapRange phyStart virtStart pageCount options pt overwrite)
      (fun _ s' => pt.Extends s s') (fun _ s' => pt.Extends s s') s := by
  rw [mapRange, wp_ite]
  refine ⟨fun _ => .refl pt s, fun _ => ?_⟩
  rw [wp_ite]
  refine ⟨fun _ => .refl pt s, fun _ => ?_⟩
  rw [wp_ite]
  exact ⟨fun _ => .refl pt s, fun _ => wp_mapPages_extends hrng hwf hsup⟩

end mapRange

/-! ### A second tree -/

def Separate (pt kt : PageTable) (s : TableMemory) : Prop :=
  ∀ a, pt.IsTable s a → ¬ kt.IsTable s a

lemma Separate.symm (h : Separate pt kt s) : Separate kt pt s := fun a hk hp => h a hp hk

lemma follow_lookup_of_tables_eq (h : ∀ a, kt.IsTable s a → s'.tables a = s.tables a)
    (q : List (Fin 512)) :
    follow tableChild s'.tables 0 kt.level0PhyAddr q =
        follow tableChild s.tables 0 kt.level0PhyAddr q ∧
      lookup tableChild s'.tables 0 kt.level0PhyAddr q =
        lookup tableChild s.tables 0 kt.level0PhyAddr q :=
  follow_lookup_congr fun q' j _ b _ hb => congrFun (h b ⟨q', hb⟩) j

lemma Supplied.of_isTable_iff (hsup : kt.Supplied s)
    (hiff : ∀ a, kt.IsTable s' a ↔ kt.IsTable s a)
    (hst : s'.pma.memoryStart = s.pma.memoryStart)
    (hlen : s'.pma.allocatedPages.length = s.pma.allocatedPages.length)
    (hfree : ∀ i, s'.pma.allocatedPages[i]? = some false → s.pma.allocatedPages[i]? = some false ∨
        ¬ kt.IsTable s (s.pma.memoryStart + i * pageSize)) : kt.Supplied s' where
  aligned := by
    rw [hst]
    exact hsup.aligned
  end_le := by
    rw [hst, hlen]
    exact hsup.end_le
  fresh i hi q hq := by
    have htab : kt.IsTable s (s.pma.memoryStart + i * pageSize) := by
      rw [hst] at hq
      exact (hiff _).mp ⟨q, hq⟩
    rcases hfree i hi with hfree | hnot
    · obtain ⟨q, hq⟩ := htab
      exact hsup.fresh i hfree q hq
    · exact hnot htab

section unchanged

variable (h : ∀ a, kt.IsTable s a → s'.tables a = s.tables a)
include h

lemma isTable_of_tables_eq (a : ℕ) : kt.IsTable s' a ↔ kt.IsTable s a :=
  exists_congr fun q => by rw [(follow_lookup_of_tables_eq h q).1]

lemma view_of_tables_eq (x : ℕ) : kt.view s' x = kt.view s x := by
  rw [view, view, (follow_lookup_of_tables_eq h _).2]

lemma WellFormed.of_tables_eq (hwf : kt.WellFormed s) : kt.WellFormed s' := by
  intro p q a hp hq
  rw [(follow_lookup_of_tables_eq h _).1] at hp hq
  exact hwf p q a hp hq

lemma Supplied.of_tables_eq (hsup : kt.Supplied s)
    (hst : s'.pma.memoryStart = s.pma.memoryStart)
    (hlen : s'.pma.allocatedPages.length = s.pma.allocatedPages.length)
    (hfree : ∀ i, s'.pma.allocatedPages[i]? = some false → s.pma.allocatedPages[i]? = some false ∨
        ¬ kt.IsTable s (s.pma.memoryStart + i * pageSize)) : kt.Supplied s' :=
  hsup.of_isTable_iff (isTable_of_tables_eq h) hst hlen hfree

end unchanged

section separate

variable (hext : pt.Extends s s') (hsep : Separate pt kt s) (hsup : kt.Supplied s)
include hext hsep hsup

lemma Extends.not_isTable {a : ℕ} (ha : kt.IsTable s a) : ¬ pt.IsTable s' a := by
  intro hp
  rcases hext.isTable a hp with hp | ⟨i, hi, rfl⟩
  · exact hsep a hp ha
  · obtain ⟨q, hq⟩ := ha
    exact hsup.fresh i hi q hq

lemma Extends.tables_eq_of_separate {a : ℕ} (ha : kt.IsTable s a) : s'.tables a = s.tables a :=
  hext.tables_eq a (hext.not_isTable hsep hsup ha)

lemma Extends.separate : Separate pt kt s' := fun _ hp hk =>
  hext.not_isTable hsep hsup
    ((isTable_of_tables_eq (fun _ => hext.tables_eq_of_separate hsep hsup) _).mp hk) hp

lemma Extends.supplied : kt.Supplied s' :=
  hsup.of_tables_eq (fun _ => hext.tables_eq_of_separate hsep hsup) hext.memoryStart_eq
    hext.length_eq fun _ hi => .inl (hext.free_of_free hi)

end separate

end PageTable

end Kernel.Memory
