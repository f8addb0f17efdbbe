import Kernel.Memory.Paging.Round

/-!
# The loop of `map_range`

The loop maps the remaining pages round by round.
-/

namespace Kernel.Memory

open Core Action

lemma div_span_eq_of_le {i j x w : ℕ} (h : j ≤ i) (hspan : x / span i = w / span i) :
    x / span j = w / span j := by
  obtain ⟨c, hc⟩ := span_dvd_span h
  rw [hc, ← Nat.div_div_eq_div_mul, ← Nat.div_div_eq_div_mul, hspan]

def chunk (lvl x : ℕ) : ℕ := x / span lvl * span lvl

lemma chunk_le (lvl x : ℕ) : chunk lvl x ≤ x := Nat.div_mul_le_self x (span lvl)

lemma chunk_three (x : ℕ) : chunk 3 x = x := by simp [chunk, span]

namespace PageTable

/-! ### The level of each page -/

def Remaining.drop (m : Remaining) (n : ℕ) : Remaining := ⟨m.virt + n, m.phy + n, m.count - n⟩

open Remaining

def Remaining.Contains (m : Remaining) (x : ℕ) : Prop := m.virt ≤ x ∧ x < m.virt + m.count

def Large (pt : PageTable) (s : TableMemory) (m : Remaining) (lvl x : ℕ) : Prop :=
  (pt.view s x).level ≤ lvl ∧ m.virt ≤ chunk lvl x ∧ chunk lvl x + span lvl ≤ m.virt + m.count ∧
    (m.phy + (chunk lvl x - m.virt)) % blockAlign lvl = 0

instance (pt : PageTable) (s : TableMemory) (m : Remaining) (lvl x : ℕ) :
    Decidable (pt.Large s m lvl x) := inferInstanceAs (Decidable (_ ∧ _ ∧ _ ∧ _))

def leafLevel (pt : PageTable) (s : TableMemory) (m : Remaining) (x : ℕ) : ℕ :=
  if pt.Large s m 1 x then 1 else if pt.Large s m 2 x then 2 else 3

variable {pt : PageTable} {s s' s₁ : TableMemory} {m : Remaining} {lvl j x : ℕ}
  {options : PageTableEntryOptions}

lemma leafLevel_cases (pt : PageTable) (s : TableMemory) (m : Remaining) (x : ℕ) :
    pt.leafLevel s m x = 3 ∨ (pt.leafLevel s m x = 1 ∨ pt.leafLevel s m x = 2) ∧
      pt.Large s m (pt.leafLevel s m x) x := by
  rw [leafLevel]
  split_ifs with h₁ h₂
  · exact .inr ⟨.inl rfl, h₁⟩
  · exact .inr ⟨.inr rfl, h₂⟩
  · exact .inl rfl

lemma le_chunk_leafLevel (hx : m.Contains x) : m.virt ≤ chunk (pt.leafLevel s m x) x := by
  rcases leafLevel_cases pt s m x with h3 | ⟨-, hlg⟩
  · rw [h3, chunk_three]
    exact hx.1
  · exact hlg.2.1

lemma leafLevel_eq_of_iff {m' : Remaining}
    (h : ∀ lvl, lvl = 1 ∨ lvl = 2 → (pt.Large s m lvl x ↔ pt.Large s' m' lvl x)) :
    pt.leafLevel s m x = pt.leafLevel s' m' x := by
  simp only [leafLevel, h 1 (.inl rfl), h 2 (.inr rfl)]

lemma leafLevel_eq_of_first (hpos : 0 < lvl) (hle : lvl ≤ 3) (hlg : lvl < 3 → pt.Large s m lvl x)
    (hfst : ∀ j, 0 < j → j < lvl → ¬ pt.Large s m j x) : pt.leafLevel s m x = lvl := by
  rw [leafLevel]
  interval_cases lvl
  · rw [if_pos (hlg (by decide))]
  · rw [if_neg (hfst 1 (by decide) (by decide)), if_pos (hlg (by decide))]
  · rw [if_neg (hfst 1 (by decide) (by decide)), if_neg (hfst 2 (by decide) (by decide))]

/-! ### One round -/

section

variable (h : pt.Chosen s m lvl)

include h

lemma Chosen.pos : 0 < lvl := by
  by_contra h0
  obtain rfl : lvl = 0 := by omega
  rcases (h.fits (by decide)).2.1 with h1 | h2 <;> omega

lemma Chosen.virt_mod : m.virt % span lvl = 0 := by
  rcases lt_or_eq_of_le h.le with hlt | rfl
  · exact (h.fits hlt).2.2.1
  · exact Nat.mod_one _

lemma Chosen.span_le (hcnt : 0 < m.count) : span lvl ≤ m.count := by
  rcases lt_or_eq_of_le h.le with hlt | rfl
  · exact (h.fits hlt).2.2.2.1
  · exact hcnt

lemma Chosen.covers_iff :
    x / span lvl = m.virt / span lvl ↔ m.virt ≤ x ∧ x < m.virt + span lvl := by
  have hmod := h.virt_mod
  have hpos := h.pos
  have hle := h.le
  interval_cases lvl <;> simp only [span] at hmod ⊢ <;> omega

lemma Chosen.chunk_cases (hj : j = 1 ∨ j = 2) (hx : m.virt ≤ chunk j x) :
    j < lvl ∧ m.virt = chunk j x ∨ lvl ≤ j ∧ x < m.virt + span lvl ∨
      m.virt + span lvl ≤ chunk j x := by
  have hmod := h.virt_mod
  have hpos := h.pos
  have hle := h.le
  rcases hj with rfl | rfl <;> interval_cases lvl <;> simp only [span, chunk] at hmod hx ⊢ <;> omega

lemma Chosen.not_large (hx : x < halfPages) (hw : m.virt < halfPages)
    (hj : j = 1 ∨ j = 2) (hlt : j < lvl) (hchk : m.virt = chunk j x) : ¬ pt.Large s m j x := by
  rintro ⟨hlev, -, hend, hphy⟩
  rw [← hchk, Nat.sub_self, add_zero] at hphy
  have hspan : m.virt / span j = x / span j := by
    rw [hchk, chunk, Nat.mul_div_cancel _ (by rcases hj with rfl | rfl <;> decide)]
  have hview : pt.view s m.virt = pt.view s x :=
    view_eq_of_span hw hx (div_span_eq_of_le hlev hspan)
  refine h.not_fits j hlt (by rwa [hview]) ⟨hj, ?_, by omega, hphy⟩
  rw [hchk, chunk, Nat.mul_mod_left]

end

section mapped

variable (h : pt.Mapped s m options lvl s₁) (hvirt : m.virt + m.count ≤ halfPages)
  (hcnt : 0 < m.count)
include h

lemma Mapped.view_of_lt (hx : x < halfPages) (hle : m.virt ≤ x) (hlt : x < m.virt + span lvl) :
    pt.view s₁ x = ⟨lvl, leafEntry options m.phy lvl⟩ := by
  obtain ⟨s₀, -, hvs⟩ := h.view_eq
  rw [hvs x hx, if_pos (h.chosen.covers_iff.mpr ⟨hle, hlt⟩)]

lemma Mapped.view_of_not (hx : x < halfPages) (hout : ¬ (m.virt ≤ x ∧ x < m.virt + span lvl)) :
    pt.view s₁ x = pt.view s x ∨ ∃ j < lvl, pt.view s₁ x = ⟨j + 1, .invalid⟩ ∧
      (pt.view s x).level ≤ j ∧ (pt.view s x).entry.valid = false ∧
      x / span j = m.virt / span j := by
  obtain ⟨s₀, hope, hvs⟩ := h.view_eq
  rw [hvs x hx, if_neg (mt h.chosen.covers_iff.mp hout)]
  exact hope x hx

lemma Mapped.level_le_iff (hx : x < halfPages) (hchk : m.virt + span lvl ≤ chunk j x) :
    (pt.view s₁ x).level ≤ j ↔ (pt.view s x).level ≤ j := by
  have hle := chunk_le j x
  rcases h.view_of_not hx (by omega) with heq | ⟨i, -, heq, hlev, -, hspan⟩
  · rw [heq]
  · rw [heq]
    dsimp only
    by_cases hij : j ≤ i
    · have hle : chunk j x ≤ m.virt := by
        rw [chunk, div_span_eq_of_le hij hspan]
        exact chunk_le j m.virt
      have hpos : 0 < span lvl := Nat.pow_pos (by decide)
      omega
    · omega

include hvirt hcnt

lemma Mapped.leafLevel_of_lt (hle : m.virt ≤ x) (hlt : x < m.virt + span lvl) :
    pt.leafLevel s m x = lvl ∧ chunk lvl x = m.virt := by
  have hspan := h.chosen.span_le hcnt
  have hdiv := h.chosen.covers_iff.mpr ⟨hle, hlt⟩
  have hchk : chunk lvl x = m.virt := by
    rw [chunk, hdiv]
    exact Nat.div_mul_cancel (Nat.dvd_of_mod_eq_zero h.chosen.virt_mod)
  refine ⟨leafLevel_eq_of_first h.chosen.pos h.chosen.le (fun hlvl => ?_)
    fun j hpos hj hlg => ?_, hchk⟩
  · obtain ⟨hlev, hfits⟩ := h.chosen.fits hlvl
    have hview : pt.view s x = pt.view s m.virt :=
      view_eq_of_span (by omega) (by omega) (div_span_eq_of_le hlev hdiv)
    rw [Large, hview, hchk, Nat.sub_self]
    exact ⟨hlev, le_refl _, by omega, hfits.2.2.2⟩
  · have hj' : j = 1 ∨ j = 2 := by have := h.chosen.le; omega
    have hle' := chunk_le j x
    have hfst : m.virt = chunk j x := by
      rcases h.chosen.chunk_cases hj' hlg.2.1 with hfst | hund | haft <;> omega
    exact h.chosen.not_large (by omega) (by omega) hj' hj hfst hlg

lemma Mapped.leafLevel_drop (hge : m.virt + span lvl ≤ x) (hlt : x < m.virt + m.count) :
    pt.leafLevel s m x = pt.leafLevel s₁ (m.drop (span lvl)) x := by
  refine leafLevel_eq_of_iff fun j hj => ⟨fun hlg => ?_, ?_⟩
  · have hchk : m.virt + span lvl ≤ chunk j x := by
      rcases h.chosen.chunk_cases hj hlg.2.1 with ⟨hjl, hfst⟩ | ⟨-, hlt'⟩ | hchk
      · exact absurd hlg (h.chosen.not_large (by omega) (by omega) hj hjl hfst)
      · omega
      · exact hchk
    obtain ⟨hlev, -, hend, hphy⟩ := hlg
    refine ⟨(h.level_le_iff (by omega) hchk).mpr hlev, hchk, ?_, ?_⟩
    · dsimp only [drop]
      omega
    · dsimp only [drop]
      rw [← hphy]
      congr 1
      omega
  · rintro ⟨hlev, hchk, hend, hphy⟩
    dsimp only [drop] at hchk hend hphy
    refine ⟨(h.level_le_iff (by omega) hchk).mp hlev, by omega, by omega, ?_⟩
    rw [← hphy]
    congr 1
    omega

end mapped

/-! ### The loop -/

def View.Untouched (v v' : View) : Prop :=
  v' = v ∨ v.entry.valid = false ∧ v'.entry.valid = false

lemma View.Untouched.trans {u v v' : View} (h : u.Untouched v) (h' : v.Untouched v') :
    u.Untouched v' := by
  rcases h with rfl | ⟨hu, hv⟩
  · exact h'
  · rcases h' with rfl | ⟨-, hv'⟩
    · exact .inr ⟨hu, hv⟩
    · exact .inr ⟨hu, hv'⟩

lemma View.Untouched.eq_of_valid {v v' : View} (h : v.Untouched v')
    (hval : v.entry.valid = true ∨ v'.entry.valid = true) : v' = v := by
  refine h.resolve_right fun ⟨hv, hv'⟩ => ?_
  rw [hv, hv'] at hval
  simp at hval

structure Overwritten (pt : PageTable) (s : TableMemory) (m : Remaining)
    (options : PageTableEntryOptions) (s' : TableMemory) : Prop where
  wellFormed : pt.WellFormed s'
  supplied : pt.Supplied s'
  inside : ∀ x, m.Contains x → ∀ lvl, pt.leafLevel s m x = lvl →
    pt.view s' x = ⟨lvl, leafEntry options (m.phy + (chunk lvl x - m.virt)) lvl⟩
  outside : ∀ x < halfPages, ¬ m.Contains x → (pt.view s x).Untouched (pt.view s' x)

def Aborted (pt : PageTable) (s : TableMemory) (m : Remaining) (e : PagingError)
    (s' : TableMemory) : Prop :=
  e = .memory .outOfMemory ∧ pt.WellFormed s' ∧ pt.Supplied s' ∧
      (∀ x < halfPages, ¬ m.Contains x → (pt.view s x).Untouched (pt.view s' x)) ∨
    e = .panic .assertion ∧ ∃ x, m.Contains x ∧ (pt.view s x).level < 3 ∧
      (pt.view s x).entry.valid = true

lemma Opened.untouched {w k : ℕ} (h : pt.Opened s w k s') (hx : x < halfPages) :
    (pt.view s x).Untouched (pt.view s' x) := by
  refine (h x hx).imp_right fun ⟨j, _, heq, _, hinv, _⟩ => ⟨hinv, ?_⟩
  rw [heq]
  rfl

lemma Overwritten.refl (hwf : pt.WellFormed s) (hsup : pt.Supplied s) (hcnt : m.count = 0) :
    pt.Overwritten s m options s where
  wellFormed := hwf
  supplied := hsup
  inside x hx := by
    obtain ⟨hle, hlt⟩ := hx
    omega
  outside _ _ _ := .inl rfl

lemma Failed.aborted {e : PagingError} (h : pt.Failed s m e s') (hcnt : 0 < m.count) :
    pt.Aborted s m e s' := by
  rcases h with ⟨rfl, hwf, hsup, hope⟩ | ⟨rfl, hblk⟩
  · exact .inl ⟨rfl, hwf, hsup, fun x hx _ => hope.untouched hx⟩
  · exact .inr ⟨rfl, m.virt, ⟨le_refl _, by omega⟩, hblk⟩

section step

variable (h : pt.Mapped s m options lvl s₁) (hvirt : m.virt + m.count ≤ halfPages)
  (hcnt : 0 < m.count)
include h

lemma Mapped.untouched (hx : x < halfPages) (hout : ¬ (m.virt ≤ x ∧ x < m.virt + span lvl)) :
    (pt.view s x).Untouched (pt.view s₁ x) := by
  obtain ⟨s₀, hope, hvs⟩ := h.view_eq
  rw [hvs x hx, if_neg (mt h.chosen.covers_iff.mp hout)]
  exact hope.untouched hx

include hcnt

lemma Mapped.contains_iff : m.Contains x ↔
    m.virt ≤ x ∧ x < m.virt + span lvl ∨ (m.drop (span lvl)).Contains x := by
  have hspan := h.chosen.span_le hcnt
  dsimp only [Remaining.Contains, drop]
  omega

include hvirt

lemma Mapped.overwritten (h' : pt.Overwritten s₁ (m.drop (span lvl)) options s') :
    pt.Overwritten s m options s' where
  wellFormed := h'.wellFormed
  supplied := h'.supplied
  inside x hx k hk := by
    have hlt : x < halfPages := by
      have := hx.2
      omega
    by_cases hund : m.virt ≤ x ∧ x < m.virt + span lvl
    · -- The entry of this round is valid, so the later rounds leave it alone.
      obtain ⟨hlev, hchk⟩ := h.leafLevel_of_lt hvirt hcnt hund.1 hund.2
      have hview := h.view_of_lt hlt hund.1 hund.2
      obtain rfl : lvl = k := hlev.symm.trans hk
      have hkept := h'.outside x hlt fun hdrop => by
        have := hdrop.1
        dsimp only [drop] at this
        omega
      rw [hkept.eq_of_valid (.inl (by rw [hview]; rfl)), hview, hchk, Nat.sub_self, add_zero]
    · have hdrop := ((h.contains_iff hcnt).mp hx).resolve_left hund
      have hk' := (h.leafLevel_drop hvirt hcnt hdrop.1 hx.2).symm.trans hk
      have hchk : m.virt + span lvl ≤ chunk k x := by
        rw [← hk']
        exact le_chunk_leafLevel hdrop
      rw [h'.inside x hdrop k hk']
      dsimp only [drop]
      rw [show m.phy + span lvl + (chunk k x - (m.virt + span lvl)) =
        m.phy + (chunk k x - m.virt) by omega]
  outside x hx hout := by
    rw [h.contains_iff hcnt, not_or] at hout
    exact (h.untouched hx hout.1).trans (h'.outside x hx hout.2)

lemma Mapped.aborted {e : PagingError} (h' : pt.Aborted s₁ (m.drop (span lvl)) e s') :
    pt.Aborted s m e s' := by
  rcases h' with ⟨rfl, hwf, hsup, houts⟩ | ⟨rfl, x, hx, hlev, hval⟩
  · refine .inl ⟨rfl, hwf, hsup, fun x hx hout => ?_⟩
    rw [h.contains_iff hcnt, not_or] at hout
    exact (h.untouched hx hout.1).trans (houts x hx hout.2)
  · have hin := (h.contains_iff hcnt).mpr (.inr hx)
    have hnot : ¬ (m.virt ≤ x ∧ x < m.virt + span lvl) := by
      have := hx.1
      dsimp only [drop] at this
      omega
    have hlt : x < halfPages := by
      have := hin.2
      omega
    have heq := (h.untouched hlt hnot).eq_of_valid (.inr hval)
    rw [heq] at hlev hval
    exact .inr ⟨rfl, x, hin, hlev, hval⟩

end step

structure InRange (phyStart virtStart pageCount : ℕ) : Prop where
  phy_aligned : phyStart % pageSize = 0
  virt_lt : virtStart < 2 ^ 64
  virt_end : pageOf virtStart + pageCount ≤ halfPages
  phy_end : phyStart + pageCount * pageSize ≤ 2 ^ 48

def remaining (phyStart virtStart pageCount pageIndex : ℕ) : Remaining :=
  ⟨pageOf virtStart + pageIndex, phyStart / pageSize + pageIndex, pageCount - pageIndex⟩

section loop

variable {phyStart virtStart pageCount pageIndex : ℕ}
  (hrng : InRange phyStart virtStart pageCount)
include hrng

lemma InRange.pageAt_phy (hlt : pageIndex < pageCount) : pageAt phyStart pageIndex =
    .ok ((remaining phyStart virtStart pageCount pageIndex).phy * pageSize) := by
  have hal := hrng.phy_aligned
  have hend := hrng.phy_end
  simp only [pageAt, bind_eq_ok, checkedMul_eq_ok, checkedAdd_eq_ok, remaining, pageSize] at *
  exact ⟨_, ⟨by omega, rfl⟩, by omega, by omega⟩

lemma InRange.pageAt_virt (hlt : pageIndex < pageCount) : ∃ v, pageAt virtStart pageIndex = .ok v ∧
    pageOf v = (remaining phyStart virtStart pageCount pageIndex).virt := by
  have hvirt := hrng.virt_lt
  have hend := hrng.virt_end
  refine ⟨virtStart + pageIndex * pageSize, ?_, ?_⟩
  · simp only [pageAt, bind_eq_ok, checkedMul_eq_ok, checkedAdd_eq_ok, pageOf, halfPages,
      pageSize] at *
    exact ⟨_, ⟨by omega, rfl⟩, by omega, rfl⟩
  · simp only [pageOf, halfPages, remaining, pageSize] at *
    omega

lemma wp_mapPages {rounds : ℕ} (hwf : pt.WellFormed s) (hsup : pt.Supplied s)
    (hrds : pageCount - pageIndex ≤ rounds) :
    wp (mapPages phyStart virtStart pageCount options pt rounds pageIndex)
      (fun _ => pt.Overwritten s (remaining phyStart virtStart pageCount pageIndex) options)
      (pt.Aborted s (remaining phyStart virtStart pageCount pageIndex)) s := by
  induction rounds generalizing s pageIndex with
  | zero => exact .refl hwf hsup (Nat.le_zero.mp hrds)
  | succ rounds ih =>
    rw [mapPages, wp_ite]
    refine ⟨fun hlt => ?_, fun hge => ?_⟩
    · have hvirt : (remaining phyStart virtStart pageCount pageIndex).virt +
          (remaining phyStart virtStart pageCount pageIndex).count ≤ halfPages := by
        have := hrng.virt_end
        dsimp only [remaining]
        omega
      have hcnt : 0 < (remaining phyStart virtStart pageCount pageIndex).count :=
        Nat.sub_pos_of_lt hlt
      obtain ⟨v, hpage, hv⟩ := hrng.pageAt_virt hlt
      rw [wp_bind]
      refine wp_mono (wp_mapPage (hrng.pageAt_phy hlt) rfl (by omega) hpage hv hwf hsup) ?_
        fun e s' hfld => hfld.aborted hcnt
      rintro n s₁ ⟨lvl, rfl, hmap⟩
      have hpos : 0 < span lvl := Nat.pow_pos (by decide)
      have hdrop : remaining phyStart virtStart pageCount (pageIndex + span lvl) =
          (remaining phyStart virtStart pageCount pageIndex).drop (span lvl) := by
        simp only [remaining, drop, add_assoc, Nat.sub_sub]
      have hless : pageCount - (pageIndex + span lvl) ≤ rounds := by omega
      have hih := ih hmap.wellFormed hmap.supplied hless
      rw [hdrop] at hih
      exact wp_mono hih (fun _ s' => hmap.overwritten hvirt hcnt)
        fun e s' => hmap.aborted hvirt hcnt
    · exact .refl hwf hsup (Nat.sub_eq_zero_of_le (Nat.le_of_not_lt hge))

end loop

end PageTable

end Kernel.Memory
