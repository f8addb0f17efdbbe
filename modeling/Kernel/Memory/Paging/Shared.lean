import Kernel.Memory.Paging.Unmap

/-!
# The page tables of the kernel and of the processes

The table of the kernel and the tables of the processes lie in one memory.
-/

namespace Kernel.Memory

open Core Action PhysicalMemoryAllocator List Option Function Nat

namespace PhysicalMemoryAllocator

variable {pma pma' : PhysicalMemoryAllocator} {a i : ℕ}

def InUse (pma : PhysicalMemoryAllocator) (a : ℕ) : Prop :=
  ∃ i, pma.IsAllocated i ∧ a = pma.pageAddress i

lemma pageAddress_inj {i j : ℕ} (h : pma.pageAddress i = pma.pageAddress j) : i = j := by
  simp only [pageAddress, pageSize] at h
  omega

lemma InUse.isAllocated (h : pma.InUse (pma.pageAddress i)) : pma.IsAllocated i := by
  obtain ⟨j, hj, heq⟩ := h
  rwa [pageAddress_inj heq]

lemma InUse.not_free (h : pma.InUse (pma.pageAddress i)) :
    pma.allocatedPages[i]? ≠ some false := by
  intro hfree
  have hi := h.isAllocated
  rw [IsAllocated, hfree] at hi
  cases hi

lemma InUse.mono (h : pma.InUse a) (hst : pma'.memoryStart = pma.memoryStart)
    (hkept : ∀ i, a = pma.pageAddress i → pma.IsAllocated i → pma'.IsAllocated i) :
    pma'.InUse a := by
  obtain ⟨i, hi, rfl⟩ := h
  refine ⟨i, hkept i rfl hi, ?_⟩
  rw [pageAddress, pageAddress, hst]

lemma InUse.of_freed {start n : ℕ} (h : pma.InUse a) (hfill : pma.Filled start n false pma')
    (hne : ∀ i, start ≤ i ∧ i < start + n → a ≠ pma.pageAddress i) : pma'.InUse a := by
  refine h.mono hfill.memoryStart_eq fun i heq hall => ?_
  rw [IsAllocated, hfill.getElem?_eq, if_neg fun hi => hne i hi heq]
  exact hall

end PhysicalMemoryAllocator

namespace PageTable

def frame (pt : PageTable) (s : TableMemory) (x : ℕ) : Option ℕ :=
  ((pt.view s x).mapping x).map Mapping.address

variable {pt pt' kt : PageTable} {users : List PageTable} {s s' s₁ s₂ : TableMemory} {x a : ℕ}
  {m : Remaining} {options : PageTableEntryOptions}

lemma frame_eq_of_view_eq (h : pt.view s' x = pt.view s x) : pt.frame s' x = pt.frame s x := by
  rw [frame, frame, h]

lemma View.Untouched.frame_eq (h : (pt.view s x).Untouched (pt.view s' x)) :
    pt.frame s' x = pt.frame s x := by
  rw [frame, frame, h.mapping_eq]

lemma valid_of_frame (h : pt.frame s x = some a) :
    (pt.view s x).entry.valid = true ∧ (pt.view s x).level ≠ 0 := by
  have hmap : (pt.view s x).mapping x ≠ none := by
    intro hnone
    rw [frame, hnone] at h
    cases h
  constructor
  · by_contra hval
    exact hmap (View.mapping_of_not_valid (by simpa using hval) x)
  · intro hlev
    exact hmap (by rw [View.mapping, if_pos hlev])

lemma frame_under_entry {w j lvl : ℕ} {e : PageTableEntry} (hview : pt.view s w = ⟨lvl, e⟩)
    (hlvl : lvl ≠ 0) (hw : w % span lvl = 0) (hj : j < span lvl) (hend : w + span lvl ≤ halfPages) :
    pt.frame s (w + j) = (e.baseAddress lvl).map (· + j * pageSize) := by
  have hpos := span_pos lvl
  have hdiv : (w + j) / span lvl = w / span lvl := by
    obtain ⟨c, rfl⟩ := dvd_of_mod_eq_zero hw
    rw [Nat.mul_add_div hpos, Nat.div_eq_of_lt hj, Nat.mul_div_cancel_left _ hpos, add_zero]
  have hsame : pt.view s (w + j) = pt.view s w :=
    view_eq_of_span (by omega) (by omega) (by rw [hview]; exact hdiv)
  have hmod : (w + j) % span lvl = j := by
    rw [add_mod, hw, zero_add, mod_mod, mod_eq_of_lt hj]
  rw [frame, hsame, hview, View.mapping, if_neg hlvl, Option.map_map]
  dsimp only
  rw [hmod]
  rfl

lemma Overwritten.frame_eq (h : pt.Overwritten s m options s') (hphy : m.phy + m.count ≤ 2 ^ 36)
    (hx : m.Contains x) : pt.frame s' x = some ((m.phy + (x - m.virt)) * pageSize) := by
  rw [frame, h.mapping_eq hphy hx, map_some]

lemma Overwritten.frame_of_inRange {phyStart virtStart pageCount i : ℕ}
    (h : pt.Overwritten s (remaining phyStart virtStart pageCount 0) options s')
    (hrng : InRange phyStart virtStart pageCount) (hi : i < pageCount) :
    pt.frame s' (pageOf virtStart + i) = some (phyStart + i * pageSize) := by
  have hal := hrng.phy_aligned
  have hend := hrng.phy_end
  rw [h.frame_eq (by simp only [remaining, pageSize] at *; omega)
    ⟨by dsimp only [remaining]; omega, by dsimp only [remaining]; omega⟩]
  simp only [remaining, pageSize] at *
  congr 1
  omega

/-! ### A mapping that was given up half way -/

def Moved (pt : PageTable) (s : TableMemory) (m : Remaining) (s' : TableMemory) : Prop :=
  ∀ x < halfPages, (pt.view s x).Untouched (pt.view s' x) ∨
    m.Contains x ∧ pt.frame s' x = some ((m.phy + (x - m.virt)) * pageSize)

lemma Mapped.moved {lvl : ℕ} (h : pt.Mapped s m options lvl s₁) (hcnt : 0 < m.count)
    (hphy : m.phy + m.count ≤ 2 ^ 36) : pt.Moved s m s₁ := by
  intro x hx
  by_cases hund : m.virt ≤ x ∧ x < m.virt + span lvl
  · have hspan := h.chosen.span_le hcnt
    refine .inr ⟨⟨hund.1, by omega⟩, ?_⟩
    have hmod : x % span lvl = x - m.virt := by
      obtain ⟨c, hc⟩ := dvd_of_mod_eq_zero h.chosen.virt_mod
      have hx' : x = span lvl * c + (x - m.virt) := by omega
      have hlt : x - m.virt < span lvl := by omega
      rw [hx', mul_add_mod, mod_eq_of_lt hlt]
      omega
    rw [frame, h.view_of_lt hx hund.1 hund.2, View.mapping, if_neg h.chosen.pos.ne',
      baseAddress_leafEntry options h.chosen.le (by omega), map_some, map_some, hmod, add_mul]
  · exact .inl (h.untouched hx hund)

lemma Moved.trans {n : ℕ} (h : pt.Moved s m s₁) (hn : n ≤ m.count)
    (h' : pt.Moved s₁ (m.drop n) s') : pt.Moved s m s' := by
  intro x hx
  rcases h' x hx with hunt | ⟨hin, hfr⟩
  · rcases h x hx with hu | ⟨hin, hfr⟩
    · exact .inl (hu.trans hunt)
    · exact .inr ⟨hin, hunt.frame_eq.trans hfr⟩
  · dsimp only [Remaining.Contains, Remaining.drop] at hin hfr
    refine .inr ⟨⟨by omega, by omega⟩, ?_⟩
    rw [hfr]
    congr 2
    omega

section mapRange

variable {phyStart virtStart pageCount pageIndex : ℕ}
  (hrng : InRange phyStart virtStart pageCount)
include hrng

lemma wp_mapPages_moved {rounds : ℕ} (hwf : pt.WellFormed s) (hsup : pt.Supplied s) :
    wp (mapPages phyStart virtStart pageCount options pt rounds pageIndex)
      (fun _ s' => pt.Moved s (remaining phyStart virtStart pageCount pageIndex) s')
      (fun e s' => ∀ err, e = .memory err →
        pt.Moved s (remaining phyStart virtStart pageCount pageIndex) s') s := by
  have hrefl : ∀ s m, pt.Moved s m s := fun s m x _ => .inl (.inl rfl)
  induction rounds generalizing s pageIndex with
  | zero => exact hrefl s _
  | succ rounds ih =>
    rw [mapPages, wp_ite]
    refine ⟨fun hlt => ?_, fun _ => hrefl s _⟩
    have hw : (remaining phyStart virtStart pageCount pageIndex).virt < halfPages := by
      have := hrng.virt_end
      dsimp only [remaining]
      omega
    have hphy : (remaining phyStart virtStart pageCount pageIndex).phy +
        (remaining phyStart virtStart pageCount pageIndex).count ≤ 2 ^ 36 := by
      have := hrng.phy_end
      simp only [remaining, pageSize] at this ⊢
      omega
    have hcnt : 0 < (remaining phyStart virtStart pageCount pageIndex).count :=
      Nat.sub_pos_of_lt hlt
    obtain ⟨v, hpage, hv⟩ := hrng.pageAt_virt hlt
    rw [wp_bind]
    refine wp_mono (wp_mapPage (hrng.pageAt_phy hlt) rfl hw hpage hv hwf hsup) ?_ ?_
    · rintro n s₁ ⟨lvl, rfl, hmap⟩
      have hfst := hmap.moved hcnt hphy
      have hspan := hmap.chosen.span_le hcnt
      have hdrop : remaining phyStart virtStart pageCount (pageIndex + span lvl) =
          (remaining phyStart virtStart pageCount pageIndex).drop (span lvl) := by
        simp only [remaining, Remaining.drop, add_assoc, Nat.sub_sub]
      refine wp_mono (ih hmap.wellFormed hmap.supplied) (fun _ _ h => ?_)
        fun _ _ h err herr => ?_
      · rw [hdrop] at h
        exact hfst.trans hspan h
      · have hrest := h err herr
        rw [hdrop] at hrest
        exact hfst.trans hspan hrest
    · rintro e s₁ h err rfl
      rcases h with ⟨-, -, -, hope⟩ | ⟨hpan, -⟩
      · exact fun x hx => .inl (hope.untouched hx)
      · cases hpan

lemma wp_mapRange_moved (hwf : pt.WellFormed s) (hsup : pt.Supplied s) (overwrite : Bool) :
    wp (mapRange phyStart virtStart pageCount options pt overwrite)
      (fun _ s' => pt.Moved s (remaining phyStart virtStart pageCount 0) s')
      (fun e s' => ∀ err, e = .memory err →
        pt.Moved s (remaining phyStart virtStart pageCount 0) s') s := by
  have hrefl : pt.Moved s (remaining phyStart virtStart pageCount 0) s := fun _ _ => .inl (.inl rfl)
  rw [mapRange, wp_ite]
  refine ⟨fun _ _ _ => hrefl, fun _ => ?_⟩
  rw [wp_ite]
  refine ⟨fun _ _ _ => hrefl, fun _ => ?_⟩
  rw [wp_ite]
  exact ⟨fun _ _ _ => hrefl, fun _ => wp_mapPages_moved hrng hwf hsup⟩

end mapRange

/-! ### A region that is mapped piece by piece -/

lemma Overwritten.tiled (h : pt.Overwritten s m options s') : pt.Tiled s' m.virt m.count := by
  intro x hge hlt
  have hx : m.Contains x := ⟨hge, hlt⟩
  have hlev := h.inside x hx _ rfl
  rw [hlev]
  refine ⟨(leafLevel_pos pt s m x).1.ne', le_chunk_leafLevel hx, ?_⟩
  rcases leafLevel_cases pt s m x with h3 | ⟨-, hlg⟩
  · rw [h3, chunk_three]
    exact hlt
  · exact hlg.2.2.1

structure Provided (pt : PageTable) (s : TableMemory) (first n : ℕ) (s' : TableMemory) : Prop where
  inside : ∀ x, first ≤ x → x < first + n → (pt.frame s' x).isSome
  tiled : pt.Tiled s' first n
  outside : ∀ x < halfPages, ¬ (first ≤ x ∧ x < first + n) →
    (pt.view s x).Untouched (pt.view s' x)

lemma Provided.refl (pt : PageTable) (s : TableMemory) (first : ℕ) : pt.Provided s first 0 s where
  inside x h₁ h₂ := by omega
  tiled x h₁ h₂ := by omega
  outside _ _ _ := .inl rfl

lemma Provided.congr {first n : ℕ} (h : pt.Provided s first n s₁)
    (hview : ∀ x, pt.view s' x = pt.view s₁ x) : pt.Provided s first n s' where
  inside x h₁ h₂ := by
    rw [frame_eq_of_view_eq (hview x)]
    exact h.inside x h₁ h₂
  tiled x h₁ h₂ := by
    rw [hview]
    exact h.tiled x h₁ h₂
  outside x hx hout := by
    rw [hview]
    exact h.outside x hx hout

section provided

variable {first n : ℕ} (h : pt.Provided s first n s₁) (ho : pt.Overwritten s₁ m options s')
  (hvirt : m.virt = first + n) (hend : first + n ≤ halfPages)
include h ho hvirt hend

lemma Provided.view_eq (hge : first ≤ x) (hlt : x < first + n) :
    pt.view s' x = pt.view s₁ x := by
  obtain ⟨a, ha⟩ := isSome_iff_exists.mp (h.inside x hge hlt)
  refine (ho.outside x (by omega) fun hin => ?_).eq_of_valid (.inl (valid_of_frame ha).1)
  have := hin.1
  omega

lemma Provided.step (hphy : m.phy + m.count ≤ 2 ^ 36) :
    pt.Provided s first (n + m.count) s' where
  inside x h₁ h₂ := by
    by_cases hlt : x < first + n
    · rw [frame_eq_of_view_eq (h.view_eq ho hvirt hend h₁ hlt)]
      exact h.inside x h₁ hlt
    · rw [ho.frame_eq hphy ⟨by omega, by omega⟩]
      rfl
  tiled x h₁ h₂ := by
    by_cases hlt : x < first + n
    · rw [h.view_eq ho hvirt hend h₁ hlt]
      obtain ⟨hne, hle, htop⟩ := h.tiled x h₁ hlt
      exact ⟨hne, hle, by omega⟩
    · obtain ⟨hne, hle, htop⟩ := ho.tiled x (by omega) (by omega)
      exact ⟨hne, by omega, by omega⟩
  outside x hx hout := by
    refine (h.outside x hx (by omega)).trans (ho.outside x hx fun hin => ?_)
    have := hin.1
    have := hin.2
    omega

end provided

/-! ### What belongs to whom -/

def Held (users : List PageTable) (s : TableMemory) (pt : PageTable) (x a : ℕ) : Prop :=
  pt ∈ users ∧ x < halfPages ∧ pt.frame s x = some a

structure IsData (kt : PageTable) (users : List PageTable) (s : TableMemory) (a : ℕ) : Prop where
  inUse : s.pma.InUse a
  not_isTable : ∀ pt ∈ kt :: users, ¬ pt.IsTable s a

structure Spare (kt : PageTable) (users : List PageTable) (s : TableMemory) (a : ℕ) : Prop where
  isData : IsData kt users s a
  not_held : ∀ pt x, ¬ Held users s pt x a

lemma Spare.of_view_eq (h : Spare kt users s a) (hdata : IsData kt users s' a)
    (hview : ∀ pt ∈ users, ∀ x, pt.view s' x = pt.view s x) : Spare kt users s' a where
  isData := hdata
  not_held pt x := by
    rintro ⟨hpt, hx, hfr⟩
    rw [frame_eq_of_view_eq (hview pt hpt x)] at hfr
    exact h.not_held pt x ⟨hpt, hx, hfr⟩

structure Sound (kt : PageTable) (users : List PageTable) (s : TableMemory) : Prop where
  wellFormed : ∀ pt ∈ kt :: users, pt.WellFormed s
  supplied : ∀ pt ∈ kt :: users, pt.Supplied s
  separate : (kt :: users).Pairwise (Separate · · s)
  root_aligned : ∀ pt ∈ users, pt.level0PhyAddr % pageSize = 0
  root_invalid : ∀ pt ∈ users, ∀ x < halfPages, (pt.view s x).level = 0 →
    (pt.view s x).entry.valid = false
  isData : ∀ pt x a, Held users s pt x a → IsData kt users s a
  injective : ∀ pt x pt' x' a, Held users s pt x a → Held users s pt' x' a → pt = pt' ∧ x = x'

namespace Sound

variable (h : Sound kt users s)
include h

lemma separate_of_ne (hpt : pt ∈ kt :: users) (hpt' : pt' ∈ kt :: users) (hne : pt ≠ pt') :
    Separate pt pt' s :=
  haveI : Std.Symm (Separate · · s) := ⟨fun _ _ => Separate.symm⟩
  h.separate.forall hpt hpt' hne

lemma ne_kernel (hpt : pt ∈ users) : pt ≠ kt := by
  rintro rfl
  exact rel_of_pairwise_cons h.separate hpt _ (isTable_root pt s) (isTable_root pt s)

/-! ### A tree grows -/

section grows

variable (hpt : pt ∈ kt :: users) (hext : pt.Extends s s')
include hpt hext

lemma tables_eq (hpt' : pt' ∈ kt :: users) (hne : pt' ≠ pt) (ha : pt'.IsTable s a) :
    s'.tables a = s.tables a :=
  hext.tables_eq_of_separate (h.separate_of_ne hpt hpt' hne.symm) (h.supplied pt' hpt') ha

lemma view_eq (hpt' : pt' ∈ kt :: users) (hne : pt' ≠ pt) (x : ℕ) :
    pt'.view s' x = pt'.view s x :=
  view_of_tables_eq (fun _ => h.tables_eq hpt hext hpt' hne) x

lemma isData_extends (ha : IsData kt users s a) : IsData kt users s' a where
  inUse := ha.inUse.mono hext.memoryStart_eq fun _ _ hi => hext.allocated_of_allocated hi
  not_isTable pt' hpt' htab := by
    by_cases hne : pt' = pt
    · subst hne
      rcases hext.isTable a htab with htab | ⟨i, hi, rfl⟩
      · exact ha.not_isTable pt' hpt' htab
      · exact ha.inUse.not_free hi
    · rw [isTable_of_tables_eq fun _ => h.tables_eq hpt hext hpt' hne] at htab
      exact ha.not_isTable pt' hpt' htab

lemma of_extends (hwf : pt.WellFormed s') (hsup : pt.Supplied s') (place : ℕ → ℕ)
    (hroot : pt ∈ users → ∀ x < halfPages, (pt.view s' x).level = 0 →
      (pt.view s' x).entry.valid = false)
    (hfrs : pt ∈ users → ∀ x < halfPages, ∀ a, pt.frame s' x = some a →
      pt.frame s x = some a ∨ Spare kt users s a ∧ x = place a) : Sound kt users s' := by
  have hview : ∀ pt' ∈ kt :: users, pt' ≠ pt → ∀ x, pt'.view s' x = pt'.view s x :=
    fun pt' hpt' hne => h.view_eq hpt hext hpt' hne
  -- A page that is mapped now was mapped before or is a spare one.
  have hheld : ∀ pt' x a, Held users s' pt' x a → Held users s pt' x a ∨
      pt' = pt ∧ Spare kt users s a ∧ x = place a := by
    rintro pt' x a ⟨hpt', hx, hfr⟩
    by_cases hne : pt' = pt
    · subst hne
      exact (hfrs hpt' x hx a hfr).imp (fun hold => ⟨hpt', hx, hold⟩) fun hnew => ⟨rfl, hnew⟩
    · rw [frame_eq_of_view_eq (hview pt' (.tail _ hpt') hne x)] at hfr
      exact .inl ⟨hpt', hx, hfr⟩
  refine ⟨fun pt' hpt' => ?_, fun pt' hpt' => ?_, ?_, h.root_aligned, fun pt' hpt' x hx => ?_,
    fun pt' x a hpt' => ?_, fun pt₁ x₁ pt₂ x₂ a h₁ h₂ => ?_⟩
  · by_cases hne : pt' = pt
    · exact hne ▸ hwf
    · exact (h.wellFormed pt' hpt').of_tables_eq fun _ => h.tables_eq hpt hext hpt' hne
  · by_cases hne : pt' = pt
    · exact hne ▸ hsup
    · exact hext.supplied (h.separate_of_ne hpt hpt' (Ne.symm hne)) (h.supplied pt' hpt')
  · refine h.separate.imp_of_mem fun {pt₁ pt₂} h₁ h₂ hsep a ha₁ ha₂ => ?_
    by_cases hne₁ : pt₁ = pt
    · subst hne₁
      exact hext.separate hsep (h.supplied pt₂ h₂) a ha₁ ha₂
    · by_cases hne₂ : pt₂ = pt
      · subst hne₂
        exact hext.separate hsep.symm (h.supplied pt₁ h₁) a ha₂ ha₁
      · rw [isTable_of_tables_eq fun _ => h.tables_eq hpt hext h₁ hne₁] at ha₁
        rw [isTable_of_tables_eq fun _ => h.tables_eq hpt hext h₂ hne₂] at ha₂
        exact hsep a ha₁ ha₂
  · by_cases hne : pt' = pt
    · subst hne
      exact hroot hpt' x hx
    · rw [hview pt' (.tail _ hpt') hne]
      exact h.root_invalid pt' hpt' x hx
  · rcases hheld pt' x a hpt' with hold | ⟨-, hspa, -⟩
    · exact h.isData_extends hpt hext (h.isData pt' x a hold)
    · exact h.isData_extends hpt hext hspa.isData
  · rcases hheld pt₁ x₁ a h₁ with hold₁ | ⟨rfl, hspa₁, rfl⟩
    · rcases hheld pt₂ x₂ a h₂ with hold₂ | ⟨-, hspa₂, -⟩
      · exact h.injective _ _ _ _ a hold₁ hold₂
      · exact absurd hold₁ (hspa₂.not_held _ _)
    · rcases hheld pt₂ x₂ a h₂ with hold₂ | ⟨rfl, -, rfl⟩
      · exact absurd hold₂ (hspa₁.not_held _ _)
      · exact ⟨rfl, rfl⟩

end grows

/-! ### Pages change hands -/

lemma of_pma {users' : List PageTable} (hsub : users'.Sublist users)
    {pma : PhysicalMemoryAllocator} (hst : pma.memoryStart = s.pma.memoryStart)
    (hlen : pma.allocatedPages.length = s.pma.allocatedPages.length)
    (hfree : ∀ i, pma.allocatedPages[i]? = some false → s.pma.allocatedPages[i]? = some false ∨
      ∀ pt ∈ kt :: users', ¬ pt.IsTable s (s.pma.pageAddress i))
    (hinUse : ∀ pt x a, Held users' s pt x a → pma.InUse a) :
    Sound kt users' { s with pma } := by
  have hmem : ∀ pt ∈ kt :: users', pt ∈ kt :: users := fun pt hpt => (hsub.cons_cons kt).subset hpt
  have hheld : ∀ pt x a, Held users' s pt x a → Held users s pt x a :=
    fun pt x a ⟨hpt, hx, hfr⟩ => ⟨hsub.subset hpt, hx, hfr⟩
  refine ⟨fun pt hpt => h.wellFormed pt (hmem pt hpt), fun pt hpt => ?_,
    h.separate.sublist (hsub.cons_cons kt), fun pt hpt => h.root_aligned pt (hsub.subset hpt),
    fun pt hpt => h.root_invalid pt (hsub.subset hpt), fun pt x a ha => ⟨hinUse pt x a ha, ?_⟩,
    fun pt₁ x₁ pt₂ x₂ a h₁ h₂ =>
      h.injective pt₁ x₁ pt₂ x₂ a (hheld pt₁ x₁ a h₁) (hheld pt₂ x₂ a h₂)⟩
  · exact (h.supplied pt (hmem pt hpt)).of_isTable_iff (fun _ => Iff.rfl) hst hlen
      fun i hi => (hfree i hi).imp_right fun hnot => hnot pt hpt
  · exact fun pt' hpt' => (h.isData pt x a (hheld pt x a ha)).not_isTable pt' (hmem pt' hpt')

lemma give {start n : ℕ} {pma : PhysicalMemoryAllocator} (hfill : s.pma.Filled start n false pma)
    (hspa : ∀ i, start ≤ i ∧ i < start + n → Spare kt users s (s.pma.pageAddress i)) :
    Sound kt users { s with pma } := by
  refine h.of_pma (List.Sublist.refl _) hfill.memoryStart_eq hfill.length_eq (fun i hi => ?_)
    fun pt x a hheld => ?_
  · rw [hfill.getElem?_eq] at hi
    split_ifs at hi with hin
    · exact .inr (hspa i hin).isData.not_isTable
    · exact .inl hi
  · refine (h.isData pt x a hheld).inUse.of_freed hfill fun i hin heq => ?_
    exact (hspa i hin).not_held pt x (heq ▸ hheld)

section take

variable {start n : ℕ} {pma : PhysicalMemoryAllocator}
  (hfree : FreeRun s.pma.allocatedPages start n) (hpma : s.pma.Filled start n true pma)
include hfree hpma

omit h hfree in
private lemma free_of_filled {i : ℕ} (hi : pma.allocatedPages[i]? = some false) :
    s.pma.allocatedPages[i]? = some false := by
  rw [hpma.getElem?_eq] at hi
  split_ifs at hi
  · cases hi
  · exact hi

omit hfree in
lemma take : Sound kt users { s with pma } := by
  refine h.of_pma (List.Sublist.refl _) hpma.memoryStart_eq hpma.length_eq
    (fun i hi => .inl (free_of_filled hpma hi)) fun pt x a ha => ?_
  refine (h.isData pt x a ha).inUse.mono hpma.memoryStart_eq fun i _ hi => ?_
  rw [IsAllocated, hpma.getElem?_eq]
  split_ifs
  · rfl
  · exact hi

lemma spare_of_take {k : ℕ} (hk : k < n) :
    Spare kt users { s with pma } (s.pma.pageAddress (start + k)) := by
  have hwas := hfree (start + k) (le_add_right _ _) (by omega)
  refine ⟨⟨⟨start + k, ?_, ?_⟩, fun pt hpt => ?_⟩, fun pt x hheld => ?_⟩
  · rw [IsAllocated, hpma.getElem?_eq, if_pos ⟨by omega, by omega⟩]
  · rw [pageAddress, pageAddress, hpma.memoryStart_eq]
  · rintro ⟨q, hq⟩
    exact (h.supplied pt hpt).fresh (start + k) hwas q hq
  · exact (h.isData pt x _ hheld).inUse.not_free hwas

end take

section unmap

variable {first n : ℕ} (hpt : pt ∈ kt :: users) (hun : pt.Unmapped s first n s')
include hpt hun

lemma tables_eq_of_unmapped (hpt' : pt' ∈ kt :: users) (hne : pt' ≠ pt) (ha : pt'.IsTable s a) :
    s'.tables a = s.tables a :=
  hun.tables_eq a (h.separate_of_ne hpt' hpt hne a ha)

lemma view_eq_of_unmapped (hpt' : pt' ∈ kt :: users) (hne : pt' ≠ pt) (x : ℕ) :
    pt'.view s' x = pt'.view s x :=
  view_of_tables_eq (fun _ => h.tables_eq_of_unmapped hpt hun hpt' hne) x

lemma held_of_unmapped (ha : Held users s' pt' x a) :
    Held users s pt' x a ∧ (pt' = pt → ¬ (first ≤ x ∧ x < first + n)) := by
  obtain ⟨hpt', hx, hfr⟩ := ha
  by_cases hne : pt' = pt
  · subst hne
    have hout : ¬ (first ≤ x ∧ x < first + n) := by
      intro hin
      have hval := (valid_of_frame hfr).1
      rw [hun.inside x hin.1 hin.2] at hval
      cases hval
    rw [frame_eq_of_view_eq (hun.outside x hx hout)] at hfr
    exact ⟨⟨hpt', hx, hfr⟩, fun _ => hout⟩
  · rw [frame_eq_of_view_eq (h.view_eq_of_unmapped hpt hun (.tail _ hpt') hne x)] at hfr
    exact ⟨⟨hpt', hx, hfr⟩, fun heq => absurd heq hne⟩

lemma isTable_iff_of_unmapped (hpt' : pt' ∈ kt :: users) (a : ℕ) :
    pt'.IsTable s' a ↔ pt'.IsTable s a := by
  by_cases hne : pt' = pt
  · subst hne
    exact hun.isTable_iff a
  · exact isTable_of_tables_eq (fun _ => h.tables_eq_of_unmapped hpt hun hpt' hne) a

lemma unmap (hpma : s'.pma = s.pma) : Sound kt users s' := by
  have hiff : ∀ pt' ∈ kt :: users, ∀ a, pt'.IsTable s' a ↔ pt'.IsTable s a :=
    fun pt' => h.isTable_iff_of_unmapped hpt hun
  refine ⟨fun pt' hpt' => ?_, fun pt' hpt' => ?_, ?_, h.root_aligned,
    fun pt' hpt' x hx hlev => ?_, fun pt' x a ha => ⟨?_, fun pt'' hpt'' => ?_⟩,
    fun pt₁ x₁ pt₂ x₂ a h₁ h₂ => ?_⟩
  · by_cases hne : pt' = pt
    · exact hne ▸ hun.wellFormed
    · exact (h.wellFormed pt' hpt').of_tables_eq fun _ => h.tables_eq_of_unmapped hpt hun hpt' hne
  · exact (h.supplied pt' hpt').of_isTable_iff (hiff pt' hpt') (by rw [hpma]) (by rw [hpma])
      fun i hi => .inl (hpma ▸ hi)
  · refine h.separate.imp_of_mem fun {pt₁ pt₂} h₁ h₂ hsep a ha₁ ha₂ => ?_
    exact hsep a ((hiff pt₁ h₁ a).mp ha₁) ((hiff pt₂ h₂ a).mp ha₂)
  · by_cases hne : pt' = pt
    · subst hne
      by_cases hin : first ≤ x ∧ x < first + n
      · rw [hun.inside x hin.1 hin.2]
        rfl
      · rw [hun.outside x hx hin] at hlev ⊢
        exact h.root_invalid pt' hpt' x hx hlev
    · rw [h.view_eq_of_unmapped hpt hun (.tail _ hpt') hne] at hlev ⊢
      exact h.root_invalid pt' hpt' x hx hlev
  · rw [hpma]
    exact (h.isData pt' x a (h.held_of_unmapped hpt hun ha).1).inUse
  · rw [hiff pt'' hpt'']
    exact (h.isData pt' x a (h.held_of_unmapped hpt hun ha).1).not_isTable pt'' hpt''
  · exact h.injective pt₁ x₁ pt₂ x₂ a (h.held_of_unmapped hpt hun h₁).1
      (h.held_of_unmapped hpt hun h₂).1

omit hpt in
lemma unmap_free (hpt : pt ∈ users) (hend : first + n ≤ halfPages)
    (hst : s'.pma.memoryStart = s.pma.memoryStart)
    (hlen : s'.pma.allocatedPages.length = s.pma.allocatedPages.length)
    (hbits : ∀ i, s'.pma.allocatedPages[i]? = s.pma.allocatedPages[i]? ∨
      ∃ y, first ≤ y ∧ y < first + n ∧ pt.frame s y = some (s.pma.pageAddress i)) :
    Sound kt users s' := by
  have hrng : ∀ y, first ≤ y → y < first + n → ∀ i, pt.frame s y = some (s.pma.pageAddress i) →
      Held users s pt y (s.pma.pageAddress i) :=
    fun y _ hy i hfr => ⟨hpt, by omega, hfr⟩
  have hclr : Sound kt users { s' with pma := s.pma } :=
    h.unmap (.tail _ hpt) (hun.of_tables_eq rfl) rfl
  refine hclr.of_pma (List.Sublist.refl _) hst hlen (fun i hi => ?_) fun pt' x a ha => ?_
  · rcases hbits i with hsame | ⟨y, hle, hlt, hfr⟩
    · exact .inl (hsame ▸ hi)
    · refine .inr fun pt' hpt' htab => ?_
      exact (h.isData pt y _ (hrng y hle hlt i hfr)).not_isTable pt' hpt'
        ((h.isTable_iff_of_unmapped (.tail _ hpt) hun hpt' _).mp htab)
  · obtain ⟨hold, hout⟩ := h.held_of_unmapped (.tail _ hpt) hun ha
    refine (h.isData pt' x a hold).inUse.mono hst fun i hi hall => ?_
    rcases hbits i with hsame | ⟨y, hle, hlt, hfr⟩
    · exact hsame.trans hall
    · -- The pages that are freed were mapped in the range only.
      subst hi
      obtain ⟨rfl, rfl⟩ := h.injective pt' x pt y _ hold (hrng y hle hlt i hfr)
      exact absurd ⟨hle, hlt⟩ (hout rfl)

end unmap

/-! ### `map_range` -/

section mapRange

variable {phyStart virtStart pageCount : ℕ} (hrng : InRange phyStart virtStart pageCount)
include hrng

lemma wp_mapRange_kernel (hal : virtStart % pageSize = 0)
    (htag : kt.tagMatches (VirtualAddress.toParts virtStart).tag = true) :
    wp (mapRange phyStart virtStart pageCount options kt true)
      (fun _ s' => kt.Overwritten s (remaining phyStart virtStart pageCount 0) options s' ∧
        kt.Extends s s' ∧ Sound kt users s')
      (fun e s' => kt.Aborted s (remaining phyStart virtStart pageCount 0) e s' ∧
        kt.Extends s s' ∧ ∀ err, e = .memory err → Sound kt users s') s := by
  have hkt : kt ∈ kt :: users := mem_cons_self
  have hwf := h.wellFormed kt hkt
  have hsup := h.supplied kt hkt
  have hnot : kt ∉ users := fun hmem => h.ne_kernel hmem rfl
  have hsnd : ∀ s', kt.Extends s s' → kt.WellFormed s' → kt.Supplied s' → Sound kt users s' :=
    fun s' hext hwf' hsup' => h.of_extends hkt hext hwf' hsup' id (fun hmem => absurd hmem hnot)
      fun hmem => absurd hmem hnot
  refine wp_mono (wp_and (wp_mapRange hwf hsup hrng hal htag)
    (wp_mapRange_extends hrng hwf hsup true)) (fun _ s' hs' => ?_) fun e s' hs' => ?_
  · exact ⟨hs'.1, hs'.2, hsnd s' hs'.2 hs'.1.wellFormed hs'.1.supplied⟩
  · refine ⟨hs'.1, hs'.2, fun err herr => ?_⟩
    rcases hs'.1 with ⟨-, hwf', hsup', -⟩ | ⟨hpan, -⟩
    · exact hsnd s' hs'.2 hwf' hsup'
    · cases herr.symm.trans hpan

lemma wp_mapRange_user (hpt : pt ∈ users) (hal : virtStart % pageSize = 0)
    (htag : pt.tagMatches (VirtualAddress.toParts virtStart).tag = true)
    (hspa : ∀ k < pageCount, Spare kt users s (phyStart + k * pageSize)) :
    wp (mapRange phyStart virtStart pageCount options pt true)
      (fun _ s' => pt.Overwritten s (remaining phyStart virtStart pageCount 0) options s' ∧
        pt.Extends s s' ∧ Sound kt users s')
      (fun e s' => pt.Aborted s (remaining phyStart virtStart pageCount 0) e s' ∧
        pt.Extends s s' ∧ ∀ err, e = .memory err → Sound kt users s') s := by
  have hmem : pt ∈ kt :: users := .tail _ hpt
  have hwf := h.wellFormed pt hmem
  have hsup := h.supplied pt hmem
  have hphy : phyStart / pageSize * pageSize = phyStart :=
    Nat.div_mul_cancel (Nat.dvd_of_mod_eq_zero hrng.phy_aligned)
  have hsnd : ∀ s', pt.Moved s (remaining phyStart virtStart pageCount 0) s' →
      pt.Extends s s' → pt.WellFormed s' → pt.Supplied s' → Sound kt users s' := by
    intro s' hmov hext hwf' hsup'
    refine h.of_extends hmem hext hwf' hsup'
      (fun a => pageOf virtStart + (a / pageSize - phyStart / pageSize)) (fun _ x hx hlev => ?_)
      fun _ x hx a ha => ?_
    · rcases hmov x hx with (hsame | ⟨-, hinv⟩) | ⟨-, hfr⟩
      · rw [hsame] at hlev ⊢
        exact h.root_invalid pt hpt x hx hlev
      · exact hinv
      · exact absurd hlev (valid_of_frame hfr).2
    · rcases hmov x hx with hunt | ⟨⟨hle, hlt⟩, hfr⟩
      · exact .inl (hunt.frame_eq ▸ ha)
      · obtain rfl := Option.some.inj (hfr.symm.trans ha)
        dsimp only [remaining] at hle hlt ⊢
        have hnew := hspa (x - pageOf virtStart) (by omega)
        rw [← hphy, ← add_mul] at hnew
        refine .inr ⟨by simpa using hnew, ?_⟩
        rw [Nat.mul_div_cancel _ (by decide)]
        omega
  refine wp_mono (wp_and (wp_mapRange hwf hsup hrng hal htag)
    (wp_and (wp_mapRange_extends hrng hwf hsup true) (wp_mapRange_moved hrng hwf hsup true)))
    (fun _ s' hs' => ?_) fun e s' hs' => ?_
  · exact ⟨hs'.1, hs'.2.1, hsnd s' hs'.2.2 hs'.2.1 hs'.1.wellFormed hs'.1.supplied⟩
  · refine ⟨hs'.1, hs'.2.1, fun err herr => ?_⟩
    rcases hs'.1 with ⟨-, hwf', hsup', -⟩ | ⟨hpan, -⟩
    · exact hsnd s' (hs'.2.2 err herr) hs'.2.1 hwf' hsup'
    · cases herr.symm.trans hpan

end mapRange

/-! ### A new process -/

omit h in
lemma of_empty (hemp : ∀ i, s.tables kt.level0PhyAddr i = .invalid)
    (hal : s.pma.memoryStart % pageSize = 0)
    (hend : s.pma.memoryStart + s.pma.allocatedPages.length * pageSize ≤ 2 ^ 48)
    (hroot : ∀ i, s.pma.allocatedPages[i]? = some false →
      s.pma.memoryStart + i * pageSize ≠ kt.level0PhyAddr) : Sound kt [] s where
  wellFormed pt hpt := by
    obtain rfl := mem_singleton.mp hpt
    exact wellFormed_of_empty hemp
  supplied pt hpt := by
    obtain rfl := mem_singleton.mp hpt
    exact supplied_of_empty hemp hal hend hroot
  separate := pairwise_singleton _ _
  root_aligned := nofun
  root_invalid := nofun
  isData := fun _ _ _ hheld => nomatch hheld.1
  injective := fun _ _ _ _ _ hheld => nomatch hheld.1

lemma of_spare {root : ℕ} (hspa : Spare kt users s root) (hroot : pt.level0PhyAddr = root)
    (htabs : s'.tables = update s.tables root fun _ => .invalid) (hpma : s'.pma = s.pma) :
    Sound kt (pt :: users) s' ∧ (∀ x, pt.view s' x = ⟨0, .invalid⟩) ∧
      ∀ pt' ∈ kt :: users, ∀ x, pt'.view s' x = pt'.view s x := by
  have hemp : ∀ i, s'.tables pt.level0PhyAddr i = .invalid := by
    intro i
    rw [htabs, hroot, update_self]
  have hview := view_of_empty hemp
  have hold : ∀ pt' ∈ kt :: users, ∀ a, pt'.IsTable s a → s'.tables a = s.tables a := by
    intro pt' hpt' a ha
    rw [htabs, update_of_ne]
    rintro rfl
    exact hspa.isData.not_isTable pt' hpt' ha
  have hiff : ∀ pt' ∈ kt :: users, ∀ a, pt'.IsTable s' a ↔ pt'.IsTable s a :=
    fun pt' hpt' => isTable_of_tables_eq (hold pt' hpt')
  have hvs : ∀ pt' ∈ kt :: users, ∀ x, pt'.view s' x = pt'.view s x :=
    fun pt' hpt' => view_of_tables_eq (hold pt' hpt')
  have hnew : ∀ pt' ∈ kt :: users, Separate pt pt' s' := by
    rintro pt' hpt' a ⟨q, hq⟩ ha
    obtain ⟨-, rfl⟩ := follow_of_empty hemp hq
    rw [hroot, hiff pt' hpt'] at ha
    exact hspa.isData.not_isTable pt' hpt' ha
  have hheld : ∀ pt' x a, Held (pt :: users) s' pt' x a → Held users s pt' x a := by
    rintro pt' x a ⟨hpt', hx, hfr⟩
    rcases mem_cons.mp hpt' with rfl | hpt'
    · have hval := (valid_of_frame hfr).2
      rw [hview] at hval
      exact absurd rfl hval
    · rw [frame_eq_of_view_eq (hvs pt' (.tail _ hpt') x)] at hfr
      exact ⟨hpt', hx, hfr⟩
  have hkt := h.supplied kt mem_cons_self
  have hnotFree : ∀ i, s.pma.allocatedPages[i]? = some false →
      s.pma.memoryStart + i * pageSize ≠ root := by
    rintro i hi rfl
    exact hspa.isData.inUse.not_free hi
  have hcas : ∀ pt' ∈ kt :: pt :: users, pt' = pt ∨ pt' ∈ kt :: users := by
    intro pt' hpt'
    simp only [mem_cons] at hpt' ⊢
    tauto
  refine ⟨⟨fun pt' hpt' => ?_, fun pt' hpt' => ?_, ?_, fun pt' hpt' => ?_,
    fun pt' hpt' x hx hlev => ?_, fun pt' x a ha => ⟨?_, fun pt'' hpt'' => ?_⟩,
    fun pt₁ x₁ pt₂ x₂ a h₁ h₂ => ?_⟩, hview, hvs⟩
  · rcases hcas pt' hpt' with rfl | hpt'
    · exact wellFormed_of_empty hemp
    · exact (h.wellFormed pt' hpt').of_tables_eq (hold pt' hpt')
  · rcases hcas pt' hpt' with rfl | hpt'
    · refine supplied_of_empty hemp (hpma ▸ hkt.aligned) (hpma ▸ hkt.end_le) fun i hi => ?_
      rw [hpma] at hi ⊢
      rw [hroot]
      exact hnotFree i hi
    · exact (h.supplied pt' hpt').of_isTable_iff (hiff pt' hpt') (by rw [hpma]) (by rw [hpma])
        fun i hi => .inl (hpma ▸ hi)
  · have hsep : (kt :: users).Pairwise (Separate · · s') :=
      h.separate.imp_of_mem fun {pt₁ pt₂} h₁ h₂ hsep a ha₁ ha₂ =>
        hsep a ((hiff pt₁ h₁ a).mp ha₁) ((hiff pt₂ h₂ a).mp ha₂)
    obtain ⟨hker, huse⟩ := pairwise_cons.mp hsep
    refine .cons (fun pt' hpt' => ?_) (.cons (fun pt' hpt' => hnew pt' (.tail _ hpt')) huse)
    rcases mem_cons.mp hpt' with rfl | hpt'
    · exact (hnew kt mem_cons_self).symm
    · exact hker pt' hpt'
  · rcases mem_cons.mp hpt' with rfl | hpt'
    · obtain ⟨i, -, hi⟩ := hspa.isData.inUse
      rw [hroot, hi, pageAddress, add_mul_mod_self_right, hkt.aligned]
    · exact h.root_aligned pt' hpt'
  · rcases mem_cons.mp hpt' with rfl | hpt'
    · rw [hview]
      rfl
    · rw [hvs pt' (.tail _ hpt')] at hlev ⊢
      exact h.root_invalid pt' hpt' x hx hlev
  · rw [hpma]
    exact (h.isData pt' x a (hheld pt' x a ha)).inUse
  · have hdata := h.isData pt' x a (hheld pt' x a ha)
    rcases hcas pt'' hpt'' with rfl | hpt''
    · rintro ⟨q, hq⟩
      obtain ⟨-, rfl⟩ := follow_of_empty hemp hq
      exact hspa.not_held pt' x (hroot ▸ hheld pt' x _ ha)
    · rw [hiff pt'' hpt'']
      exact hdata.not_isTable pt'' hpt''
  · exact h.injective pt₁ x₁ pt₂ x₂ a (hheld pt₁ x₁ a h₁) (hheld pt₂ x₂ a h₂)

lemma wp_empty {highAddresses : Bool} {asid : BitVec 16} :
    wp (empty highAddresses asid)
      (fun pt s' => pt.highAddresses = highAddresses ∧ Sound kt (pt :: users) s' ∧
        (∀ x, pt.view s' x = ⟨0, .invalid⟩) ∧
        ∀ pt' ∈ kt :: users, ∀ x, pt'.view s' x = pt'.view s x)
      (fun e s' => e = .memory .outOfMemory ∧ s' = s) s := by
  have hsup := h.supplied kt mem_cons_self
  rw [empty, wp_bind]
  refine wp_allocateTable hsup.end_le (fun start pma hfree hpma => ?_) ⟨rfl, rfl⟩
  rw [wp_bind, wp_checked_of_eq (toVirtualCanonical_eq (freePage_lt hsup.end_le hfree)), wp_pure]
  have hrun : FreeRun s.pma.allocatedPages start 1 := by
    intro p hge hlt
    obtain rfl : p = start := by omega
    exact hfree
  exact ⟨rfl, (h.take hpma).of_spare (h.spare_of_take hrun hpma zero_lt_one) rfl rfl rfl⟩

end Sound

end PageTable

end Kernel.Memory
