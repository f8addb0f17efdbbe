import Kernel.Fs.Fat.Basic

/-!
# Looking up a path in a volume

`find_entry_for_path` follows the components of a path through the directories of a volume.
-/

namespace Kernel.Fs.Fat

open Core Registry Components

abbrev PathName := { n : List Char // n ≠ [] ∧ pathSep ∉ n }

namespace Handler

variable (h : Handler)

def Walks (target : DirectorySource) : DirectorySource → List PathName → Prop
  | source, [] => target = source
  | source, n :: names => ∃ d, firstNamed n.val (h.dirEntryStream source) = .ok (some d) ∧
      d.isDirectory = true ∧ Walks target (.clusters d.clusterNumLo) names

def Leads (source : DirectorySource) (names : List PathName) (e : DirEntry) : Prop :=
  ∃ dirs n target, names = dirs ++ [n] ∧ h.Walks target source dirs ∧
    firstNamed n.val (h.dirEntryStream target) = .ok (some e) ∧ e.isDirectory = false

def Misleads (source : DirectorySource) (names : List PathName) : Prop :=
  ∃ dirs n rest target e, names = dirs ++ n :: rest ∧ h.Walks target source dirs ∧
    firstNamed n.val (h.dirEntryStream target) = .ok (some e) ∧ (e.isDirectory = true ↔ rest = [])

def pathOf (names : List PathName) : List Char := relative (names.map Subtype.val)

def FindsExactly (source : DirectorySource) (names : List PathName) (comps : Components) : Prop :=
  (∃ result, h.findEntryForPath source comps = .ok result) ∧
    ∀ e, h.findEntryForPath source comps = .ok (.ok (some e)) ↔ h.Leads source names e

variable {h} {source : DirectorySource} {n : PathName} {names : List PathName} {e : DirEntry}

lemma leads_cons :
    h.Leads source (n :: names) e ↔
      ∃ d, firstNamed n.val (h.dirEntryStream source) = .ok (some d) ∧
        if d.isDirectory then h.Leads (.clusters d.clusterNumLo) names e
        else names = [] ∧ e = d := by
  constructor
  · rintro ⟨_ | ⟨m, dirs⟩, k, target, heq, hwlk, hfst, hfile⟩
    · cases heq
      cases hwlk
      exact ⟨e, hfst, by rw [hfile]; exact ⟨rfl, rfl⟩⟩
    · cases heq
      obtain ⟨d, hd, hdir, hwlk⟩ := hwlk
      exact ⟨d, hd, by rw [if_pos hdir]; exact ⟨dirs, k, target, rfl, hwlk, hfst, hfile⟩⟩
  · rintro ⟨d, hd, hrest⟩
    split_ifs at hrest with hdir
    · obtain ⟨dirs, k, target, rfl, hwlk, hfst, hfile⟩ := hrest
      exact ⟨n :: dirs, k, target, rfl, ⟨d, hd, hdir, hwlk⟩, hfst, hfile⟩
    · obtain ⟨rfl, rfl⟩ := hrest
      exact ⟨[], n, source, rfl, rfl, hd, Bool.not_eq_true _ ▸ hdir⟩

lemma misleads_cons :
    h.Misleads source (n :: names) ↔
      ∃ d, firstNamed n.val (h.dirEntryStream source) = .ok (some d) ∧
        if d.isDirectory then names = [] ∨ h.Misleads (.clusters d.clusterNumLo) names
        else names ≠ [] := by
  constructor
  · rintro ⟨_ | ⟨m, dirs⟩, k, rest, target, e, heq, hwlk, hfst, hiff⟩
    · cases heq
      cases hwlk
      refine ⟨e, hfst, ?_⟩
      split_ifs with hdir
      · exact .inl (hiff.mp hdir)
      · exact fun hnil => hdir (hiff.mpr hnil)
    · cases heq
      obtain ⟨d, hd, hdir, hwlk⟩ := hwlk
      refine ⟨d, hd, ?_⟩
      rw [if_pos hdir]
      exact .inr ⟨dirs, k, rest, target, e, rfl, hwlk, hfst, hiff⟩
  · rintro ⟨d, hd, hrest⟩
    split_ifs at hrest with hdir
    · rcases hrest with rfl | ⟨dirs, k, rest, target, e, rfl, hwlk, hfst, hiff⟩
      · exact ⟨[], n, [], source, d, rfl, rfl, hd, iff_of_true hdir rfl⟩
      · exact ⟨n :: dirs, k, rest, target, e, rfl, ⟨d, hd, hdir, hwlk⟩, hfst, hiff⟩
    · exact ⟨[], n, names, source, d, rfl, rfl, hd, iff_of_false hdir hrest⟩

lemma componentName_fromStr (s : List Char) : componentName (.fromStr s) = .ok s := by
  rw [Component.fromStr]
  split_ifs with hcur hpar
  · rw [hcur]
    rfl
  · rw [hpar]
    rfl
  · rfl

variable {comps : Components}

lemma findEntryForPath_nil (h : Handler) (source : DirectorySource) (hok : comps.Ok)
    (hrest : comps.rest = []) :
    h.findEntryForPath source comps = .error .unwrap := by
  have hnext := hok.next_of_nil hrest
  rw [findEntryForPath]
  split <;> simp_all

lemma findEntryForPath_cons (h : Handler) (source : DirectorySource) (hok : comps.Ok)
    (hrest : comps.rest = pathOf (n :: names)) :
    ∃ comps', comps'.Ok ∧ comps'.rest = pathOf names ∧
      h.findEntryForPath source comps =
        match firstNamed n.val (h.dirEntryStream source) with
        | .error e => .ok (.error e)
        | .ok none => .ok (.ok none)
        | .ok (some de) =>
          if de.isDirectory then h.findEntryForPath (.clusters de.clusterNumLo) comps'
          else .ok (.ok (some de)) := by
  obtain ⟨comps', hnext, hok', hrest'⟩ := hok.next_relative n.property.1 n.property.2 hrest
  refine ⟨comps', hok', hrest', ?_⟩
  rw [findEntryForPath]
  split
  · simp_all
  · simp_all
  · next comp rest heq =>
    rw [hnext] at heq
    cases heq
    rw [componentName_fromStr]
    rfl

lemma findsExactly_of_rest (hok : comps.Ok) (hrest : comps.rest = pathOf (n :: names)) :
    h.FindsExactly source (n :: names) comps ↔ ¬ h.Misleads source (n :: names) := by
  induction names generalizing n source comps with
  | nil =>
    obtain ⟨comps', hok', hrest', heq⟩ := h.findEntryForPath_cons source hok hrest
    rw [FindsExactly, heq, misleads_cons]
    simp only [leads_cons]
    cases hfst : firstNamed n.val (h.dirEntryStream source) with
    | error err => simp
    | ok found =>
      cases found with
      | none => simp
      | some d =>
        cases hdir : d.isDirectory with
        | true => simp [hdir, h.findEntryForPath_nil _ hok' hrest']
        | false => simpa [hdir] using fun e => eq_comm
  | cons m names ih =>
    obtain ⟨comps', hok', hrest', heq⟩ := h.findEntryForPath_cons source hok hrest
    rw [FindsExactly, heq, misleads_cons]
    simp only [leads_cons (n := n)]
    cases hfst : firstNamed n.val (h.dirEntryStream source) with
    | error err => simp
    | ok found =>
      cases found with
      | none => simp
      | some d =>
        cases hdir : d.isDirectory with
        | true =>
          have hnext : h.FindsExactly (.clusters d.clusterNumLo) (m :: names) comps' ↔ _ :=
            ih hok' hrest'
          rw [FindsExactly] at hnext
          simpa [hdir] using hnext
        | false => simp [hdir]

/-- A path of one or more names is looked up correctly exactly if it does not mislead. -/
theorem findsExactly_iff (h : Handler) (source : DirectorySource) (n : PathName)
    (names : List PathName) :
    h.FindsExactly source (n :: names) (.new (pathOf (n :: names))) ↔
      ¬ h.Misleads source (n :: names) :=
  findsExactly_of_rest (new_ok _) (new_rest _)

def sampleEntry (letter : BitVec 16) (attributes : BitVec 8) : LongDirEntry :=
  ⟨⟨Vector.replicate 11 0x20, attributes, 5, 0⟩, [letter]⟩

def sampleVolume : Handler where
  params := ⟨1, 65, 65, 4, 512⟩
  dirEntryStream
    | .direct _ => [.ok (sampleEntry 0x41 0x20), .ok (sampleEntry 0x44 0x10)]
    | .clusters _ => []

/-- The lookup of a directory panics, and the lookup of a path below a file finds the file. -/
theorem lookup_misled :
    sampleVolume.findEntryForPath (.direct 65) (.new ['D']) = .error .unwrap ∧
      sampleVolume.findEntryForPath (.direct 65) (.new ['A', '/', 'B']) =
        .ok (.ok (some (sampleEntry 0x41 0x20).entry)) ∧
      ¬ ∃ e, sampleVolume.Leads (.direct 65) [⟨['A'], by decide⟩, ⟨['B'], by decide⟩] e := by
  have hfst : firstNamed ['A'] (sampleVolume.dirEntryStream (.direct 65)) =
      .ok (some (sampleEntry 0x41 0x20).entry) := by rfl
  have hD : (new ['D']).rest = pathOf [⟨['D'], by decide⟩] := new_rest _
  have hAB : (new ['A', '/', 'B']).rest =
      pathOf [⟨['A'], by decide⟩, ⟨['B'], by decide⟩] := new_rest _
  refine ⟨?_, ?_, ?_⟩
  · obtain ⟨comps, hok, hrest, heq⟩ :=
      sampleVolume.findEntryForPath_cons (.direct 65) (new_ok _) hD
    rw [heq]
    exact sampleVolume.findEntryForPath_nil _ hok hrest
  · obtain ⟨comps, -, -, heq⟩ :=
      sampleVolume.findEntryForPath_cons (.direct 65) (new_ok _) hAB
    rw [heq, hfst]
    rfl
  · rintro ⟨e, hlea⟩
    obtain ⟨d, hd, hrest⟩ := leads_cons.mp hlea
    rw [hfst] at hd
    cases hd
    exact absurd hrest.1 (List.cons_ne_nil _ _)

end Handler

end Kernel.Fs.Fat
