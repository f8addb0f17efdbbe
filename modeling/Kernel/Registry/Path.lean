import Kernel.Core.Checked

/-!
# Paths

`Components` keeps the string and the positions between which components are left.
-/

namespace Kernel.Registry

open Core List Nat

def pathSep : Char := '/'

inductive Component where
  | root
  | currentDir
  | parentDir
  | name (s : List Char)
  deriving DecidableEq, Repr

open Component

def Component.fromStr (s : List Char) : Component :=
  if s = ['.'] then .currentDir
  else if s = ['.', '.'] then .parentDir
  else .name s

structure Components where
  s : List Char
  front : ℕ
  back : ℕ
  deriving DecidableEq, Repr

def slice (s : List Char) (start stop : ℕ) : Checked (List Char) :=
  if start ≤ stop ∧ stop ≤ s.length then .ok ((s.take stop).drop start) else .error .outOfBounds

def find (s : List Char) : Option ℕ := s.idxOf? pathSep

def rfind (s : List Char) : Option ℕ := (s.reverse.idxOf? pathSep).map fun i => s.length - 1 - i

namespace Components

def new (s : List Char) : Components := ⟨s, 0, s.length⟩

def asPath (c : Components) : Checked (List Char) := slice c.s c.front c.back

def next (c : Components) : Checked (Option Component × Components) :=
  if c.back ≤ c.front then pure (none, c)
  else do
    let cur ← slice c.s c.front c.back
    match find cur with
    | some nextSep =>
      if nextSep = 0 then pure (some .root, { c with front := c.front + 1 })
      else do
        let name ← slice cur 0 nextSep
        pure (some (.fromStr name), { c with front := c.front + (nextSep + 1) })
    | none => pure (some (.fromStr cur), { c with front := c.back })

def skipSeps (front : ℕ) : (back : ℕ) → (cur : List Char) → Checked (ℕ × Option (List Char))
  | 0, cur => if (rfind cur).isSome then .error .overflow else pure (0, some cur)
  | back + 1, cur =>
    if rfind cur = some back then
      if back ≤ front then pure (back, none)
      else do skipSeps front back (← slice cur front back)
    else pure (back + 1, some cur)

def nextBack (c : Components) : Checked (Option Component × Components) :=
  if c.back ≤ c.front then pure (none, c)
  else do
    let cur ← slice c.s c.front c.back
    if cur = [pathSep] then pure (some .root, { c with back := c.front })
    else
      match ← skipSeps c.front c.back cur with
      | (back, none) => pure (none, { c with back })
      | (back, some cur) =>
        match rfind cur with
        | some lastSep => do
          let name ← slice cur (lastSep + 1) cur.length
          let len ← checkedSub cur.length lastSep
          let len ← checkedSub len 1
          let back ← checkedSub back len
          pure (some (.fromStr name), { c with back })
        | none => pure (some (.fromStr cur), { c with back := c.front })

end Components

/-! ### The components of a string -/

def Component.ofPiece (s : List Char) : Component := if s = [] then .root else .fromStr s

def dropEmpty (pieces : List (List Char)) : List (List Char) :=
  if pieces.getLast? = some [] then pieces.dropLast else pieces

def components (s : List Char) : List Component :=
  (dropEmpty (s.splitOn pathSep)).map .ofPiece

variable {s : List Char}

lemma splitOn_of_notMem (h : pathSep ∉ s) : s.splitOn pathSep = [s] := by
  refine splitOnP_eq_singleton fun x hx => ?_
  rw [beq_eq_false_iff_ne]
  rintro rfl
  exact h hx

variable {a t : List Char}

lemma splitOn_append (h : pathSep ∉ a) :
    (a ++ pathSep :: t).splitOn pathSep = a :: t.splitOn pathSep := by
  refine splitOnP_append_cons_of_forall_mem (p := (· == pathSep)) (fun x hx => ?_) pathSep
    (beq_self_eq_true pathSep) t
  rw [beq_eq_false_iff_ne]
  rintro rfl
  exact h hx

@[simp] lemma components_nil : components [] = [] := by
  rw [components, splitOn_of_notMem not_mem_nil]
  rfl

lemma components_of_notMem (h : pathSep ∉ s) (hne : s ≠ []) :
    components s = [.fromStr s] := by
  rw [components, splitOn_of_notMem h, dropEmpty, if_neg (by simpa using hne), map_singleton,
    ofPiece, if_neg hne]

lemma components_append (h : pathSep ∉ a) :
    components (a ++ pathSep :: t) = .ofPiece a :: components t := by
  rw [components, splitOn_append h, components, dropEmpty, dropEmpty]
  have hne : t.splitOn pathSep ≠ [] := splitOnP_ne_nil _ _
  cases hpie : t.splitOn pathSep with
  | nil => exact absurd hpie hne
  | cons piece pieces =>
    rw [List.getLast?_cons_cons, dropLast_cons_cons]
    split_ifs <;> rfl

lemma notMem_or_eq_append (s : List Char) :
    pathSep ∉ s ∨ ∃ a t, s = a ++ pathSep :: t ∧ pathSep ∉ a := by
  by_cases h : pathSep ∈ s
  · exact .inr (eq_append_cons_of_mem h)
  · exact .inl h

/-! ### The positions of separators -/

lemma find_of_notMem (h : pathSep ∉ s) : find s = none :=
  List.idxOf?_eq_none_iff.mpr h

lemma find_append (h : pathSep ∉ a) :
    find (a ++ pathSep :: t) = some a.length := by
  refine List.idxOf?_eq_some_iff.mpr ⟨by simp, by simp, fun j hj heq => h ?_⟩
  rw [getElem_append_left hj] at heq
  exact heq ▸ getElem_mem hj

def IsDirectory (d : List Char) : Prop := d = [] ∨ ∃ a, d = a ++ [pathSep]

lemma exists_directory (s : List Char) : ∃ d n, s = d ++ n ∧ IsDirectory d ∧ pathSep ∉ n := by
  induction s using List.reverseRecOn with
  | nil => exact ⟨[], [], rfl, .inl rfl, not_mem_nil⟩
  | append_singleton s x ih =>
    obtain ⟨d, n, rfl, hd, hn⟩ := ih
    by_cases hx : x = pathSep
    · exact ⟨d ++ n ++ [x], [], (append_nil _).symm, .inr ⟨d ++ n, by rw [hx]⟩, not_mem_nil⟩
    · exact ⟨d, n ++ [x], append_assoc .., hd, by simp [hn, Ne.symm hx]⟩

variable {n : List Char}

lemma rfind_append {d : List Char} (hd : IsDirectory d) (hn : pathSep ∉ n) :
    rfind (d ++ n) = if d = [] then none else some (d.length - 1) := by
  rcases hd with rfl | ⟨a, rfl⟩
  · rw [nil_append, rfind, List.idxOf?_eq_none_iff.mpr (by simpa using hn)]
    rfl
  · have hrev := find_append (a := n.reverse) (t := a.reverse) (by simpa using hn)
    rw [find, length_reverse] at hrev
    have hfind : (a ++ [pathSep] ++ n).reverse.idxOf? pathSep = some n.length := by simpa using hrev
    rw [rfind, hfind, Option.map_some, if_neg (by simp)]
    simp only [length_append, length_singleton]
    congr 1
    omega

lemma slice_eq_ok {start stop : ℕ} (hle : start ≤ stop) (hlen : stop ≤ s.length) :
    slice s start stop = .ok ((s.take stop).drop start) := if_pos ⟨hle, hlen⟩

namespace Components

structure Ok (c : Components) : Prop where
  front_le : c.front ≤ c.back
  back_le : c.back ≤ c.s.length

def rest (c : Components) : List Char := (c.s.take c.back).drop c.front

lemma new_ok (s : List Char) : (new s).Ok := ⟨zero_le _, le_rfl⟩

@[simp] lemma new_rest (s : List Char) : (new s).rest = s := by
  simp [rest, new]

variable {c : Components}

lemma Ok.slice_eq (h : c.Ok) : slice c.s c.front c.back = .ok c.rest :=
  slice_eq_ok h.front_le h.back_le

lemma Ok.asPath_eq (h : c.Ok) : c.asPath = .ok c.rest := h.slice_eq

lemma Ok.length_rest (h : c.Ok) : c.rest.length = c.back - c.front := by
  rw [rest, length_drop, length_take, min_eq_left h.back_le]

lemma Ok.back_le_iff (h : c.Ok) : c.back ≤ c.front ↔ c.rest = [] := by
  rw [← length_eq_zero_iff, h.length_rest]
  omega

lemma Ok.advance (h : c.Ok) {n : ℕ} (hn : n ≤ c.rest.length) :
    ({ c with front := c.front + n } : Components).Ok ∧
      ({ c with front := c.front + n } : Components).rest = c.rest.drop n := by
  rw [h.length_rest] at hn
  have := h.front_le
  refine ⟨⟨by dsimp only; omega, h.back_le⟩, ?_⟩
  rw [rest, rest, drop_drop]

lemma Ok.next_of_nil (h : c.Ok) (hrest : c.rest = []) : c.next = .ok (none, c) :=
  if_pos (h.back_le_iff.mpr hrest)

lemma Ok.next_of_notMem (h : c.Ok) (hrest : pathSep ∉ c.rest) (hne : c.rest ≠ []) :
    ∃ c', c.next = .ok (some (.fromStr c.rest), c') ∧ c'.Ok ∧ c'.rest = [] := by
  refine ⟨{ c with front := c.back }, ?_, ⟨le_rfl, h.back_le⟩, ?_⟩
  · rw [next, if_neg (h.back_le_iff.not.mpr hne), h.slice_eq]
    change (match find c.rest with | some _ => _ | none => _) = _
    rw [find_of_notMem hrest]
    rfl
  · rw [rest]
    exact drop_of_length_le (length_take_le _ _)

lemma Ok.next_of_append (h : c.Ok) {a t : List Char} (hrest : c.rest = a ++ pathSep :: t)
    (ha : pathSep ∉ a) :
    ∃ c', c.next = .ok (some (.ofPiece a), c') ∧ c'.Ok ∧ c'.rest = t := by
  have hne : c.rest ≠ [] := by simp [hrest]
  obtain ⟨hok, hdrop⟩ := h.advance (n := a.length + 1) (by simp [hrest])
  refine ⟨_, ?_, hok, ?_⟩
  · rw [next, if_neg (h.back_le_iff.not.mpr hne), h.slice_eq, hrest]
    change (match find (a ++ pathSep :: t) with | some _ => _ | none => _) = _
    rw [find_append ha]
    dsimp only
    cases a with
    | nil => rfl
    | cons x a =>
      rw [if_neg (by simp), slice_eq_ok (zero_le _) (by simp), take_left, drop_zero,
        ofPiece, if_neg (cons_ne_nil x a)]
      rfl
  · rw [hdrop, hrest]
    simp

lemma Ok.next_eq (h : c.Ok) :
    ∃ c', c.next = .ok ((components c.rest).head?, c') ∧ c'.Ok ∧
      components c'.rest = (components c.rest).tail ∧ c'.rest <:+ c.rest := by
  rcases notMem_or_eq_append c.rest with hrest | ⟨a, t, hrest, ha⟩
  · by_cases hne : c.rest = []
    · exact ⟨c, by rw [h.next_of_nil hne, hne, components_nil]; rfl, h, by simp [hne],
        suffix_rfl⟩
    · obtain ⟨c', hnext, hok, hrest'⟩ := h.next_of_notMem hrest hne
      exact ⟨c', by rw [hnext, components_of_notMem hrest hne]; rfl, hok,
        by rw [hrest', components_of_notMem hrest hne, components_nil]; rfl,
        hrest' ▸ nil_suffix⟩
  · obtain ⟨c', hnext, hok, hrest'⟩ := h.next_of_append hrest ha
    exact ⟨c', by rw [hnext, hrest, components_append ha]; rfl, hok,
      by rw [hrest', hrest, components_append ha]; rfl,
      ⟨a ++ [pathSep], by rw [hrest', hrest, append_assoc]; rfl⟩⟩

lemma lt_of_next {x : Component} {c' : Components} (h : c.next = .ok (some x, c')) :
    c'.back - c'.front < c.back - c.front := by
  rw [next] at h
  split_ifs at h with hle
  · cases h
  · rw [bind_eq_ok] at h
    obtain ⟨cur, -, h⟩ := h
    split at h
    · split_ifs at h
      · cases h
        dsimp only
        omega
      · rw [bind_eq_ok] at h
        obtain ⟨name, -, h⟩ := h
        cases h
        dsimp only
        omega
    · cases h
      dsimp only
      omega

end Components

/-! ### Paths that consist of names -/

structure IsName (n : List Char) : Prop where
  ne_nil : n ≠ []
  notMem : pathSep ∉ n
  ne_currentDir : n ≠ ['.']
  ne_parentDir : n ≠ ['.', '.']

instance : DecidablePred IsName := fun n =>
  decidable_of_iff (n ≠ [] ∧ pathSep ∉ n ∧ n ≠ ['.'] ∧ n ≠ ['.', '.'])
    ⟨fun ⟨h₁, h₂, h₃, h₄⟩ => ⟨h₁, h₂, h₃, h₄⟩, fun ⟨h₁, h₂, h₃, h₄⟩ => ⟨h₁, h₂, h₃, h₄⟩⟩

lemma IsName.fromStr_eq (h : IsName n) : fromStr n = .name n := by
  rw [fromStr, if_neg h.ne_currentDir, if_neg h.ne_parentDir]

lemma IsName.ofPiece_eq (h : IsName n) : ofPiece n = .name n := by
  rw [ofPiece, if_neg h.ne_nil, h.fromStr_eq]

def relative : List (List Char) → List Char
  | [] => []
  | [n] => n
  | n :: ns => n ++ pathSep :: relative ns

def absolute (names : List (List Char)) : List Char := pathSep :: relative names

def directories (names : List (List Char)) : List Char := names.flatMap (· ++ [pathSep])

lemma relative_append_singleton (ps : List (List Char)) (k : List Char) :
    relative (ps ++ [k]) = directories ps ++ k := by
  induction ps with
  | nil => rfl
  | cons p ps ih =>
    have hne : ps ++ [k] ≠ [] := by simp
    rw [cons_append, relative.eq_3 _ _ hne, ih]
    simp [directories]

namespace Components

variable {c : Components} {n : List Char} {ns : List (List Char)}

lemma Ok.next_relative (h : c.Ok) (hne : n ≠ []) (hsep : pathSep ∉ n)
    (hrest : c.rest = relative (n :: ns)) :
    ∃ c', c.next = .ok (some (.fromStr n), c') ∧ c'.Ok ∧ c'.rest = relative ns := by
  cases ns with
  | nil =>
    have hsgl : c.rest = n := hrest
    obtain ⟨c', hnext, hok, hrest'⟩ := h.next_of_notMem (hsgl ▸ hsep) (hsgl ▸ hne)
    rw [hsgl] at hnext
    exact ⟨c', hnext, hok, hrest'⟩
  | cons m ns =>
    obtain ⟨c', hnext, hok, hrest'⟩ := h.next_of_append hrest hsep
    rw [ofPiece, if_neg hne] at hnext
    exact ⟨c', hnext, hok, hrest'⟩

lemma Ok.next_directories (h : c.Ok) (hn : IsName n) (hrest : c.rest = directories (n :: ns)) :
    ∃ c', c.next = .ok (some (.name n), c') ∧ c'.Ok ∧ c'.rest = directories ns := by
  rw [directories, flatMap_cons, append_assoc, singleton_append] at hrest
  obtain ⟨c', hnext, hok, hrest'⟩ := h.next_of_append hrest hn.notMem
  rw [hn.ofPiece_eq] at hnext
  exact ⟨c', hnext, hok, hrest'⟩

lemma Ok.next_root (h : c.Ok) {t : List Char} (hrest : c.rest = pathSep :: t) :
    ∃ c', c.next = .ok (some .root, c') ∧ c'.Ok ∧ c'.rest = t :=
  h.next_of_append (a := []) hrest not_mem_nil

variable {d : List Char}

lemma skipSeps_of_lt {front back : ℕ} (hd : IsDirectory d) (hn : pathSep ∉ n)
    (hlt : d.length < back) : skipSeps front back (d ++ n) = .ok (back, some (d ++ n)) := by
  obtain ⟨back, rfl⟩ := exists_eq_add_one_of_ne_zero (ne_zero_of_lt hlt)
  refine if_neg ?_
  rw [rfind_append hd hn]
  split_ifs with hnil
  · exact nofun
  · have := length_pos_iff.mpr hnil
    intro heq
    cases heq
    omega

lemma Ok.nextBack_of_skip (h : c.Ok) (hne : c.rest ≠ [])
    (hroot : c.rest ≠ [pathSep]) (hd : IsDirectory d) (hn : pathSep ∉ n)
    (hskip : skipSeps c.front c.back c.rest = .ok (c.front + (d ++ n).length, some (d ++ n))) :
    c.nextBack = .ok (some (.fromStr n), { c with back := c.front + d.length }) := by
  rw [nextBack, if_neg (h.back_le_iff.not.mpr hne), h.slice_eq]
  change (if c.rest = [pathSep] then _ else _) = _
  rw [if_neg hroot, hskip]
  change (match rfind (d ++ n) with | some _ => _ | none => _) = _
  rw [rfind_append hd hn]
  rcases hd with rfl | ⟨a, rfl⟩
  · rfl
  · rw [if_neg (by simp)]
    have hlen : (a ++ [pathSep]).length = a.length + 1 := length_append
    have hname : slice (a ++ [pathSep] ++ n) ((a ++ [pathSep]).length - 1 + 1)
        (a ++ [pathSep] ++ n).length = .ok n := by
      rw [slice_eq_ok (by simp) le_rfl, take_length, Nat.sub_add_cancel (by simp), drop_left]
    dsimp only
    rw [hname]
    change (do
      let len ← checkedSub (a ++ [pathSep] ++ n).length ((a ++ [pathSep]).length - 1)
      let len ← checkedSub len 1
      let back ← checkedSub (c.front + (a ++ [pathSep] ++ n).length) len
      pure (some (fromStr n), { c with back })) = _
    simp only [bind_eq_ok, checkedSub_eq_ok, length_append, length_singleton]
    exact ⟨n.length + 1, ⟨by omega, by omega⟩, n.length, ⟨by omega, by omega⟩, _,
      ⟨by omega, rfl⟩, by congr 4; omega⟩

lemma nextBack_of_name {a : List Char} (hn : IsName n) :
    (new (a ++ pathSep :: n)).nextBack =
      .ok (some (.name n), ⟨a ++ pathSep :: n, 0, a.length + 1⟩) := by
  have hd : IsDirectory (a ++ [pathSep]) := .inr ⟨a, rfl⟩
  have hpos := length_pos_iff.mpr hn.ne_nil
  have hroot : (new (a ++ [pathSep] ++ n)).rest ≠ [pathSep] := by
    intro h
    have := congrArg List.length h
    simp at this
    omega
  rw [append_cons, ← hn.fromStr_eq, (new_ok _).nextBack_of_skip (d := a ++ [pathSep])
    (by simp) hroot hd hn.notMem]
  · simp [new]
  · rw [new_rest, new, zero_add]
    exact skipSeps_of_lt hd hn.notMem (by simpa using hpos)

end Components

end Kernel.Registry
