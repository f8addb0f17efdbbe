import Kernel.Registry.Path

/-!
# Iteration from both ends, and owned paths

`next` and `next_back` may be called in any order.
-/

namespace Kernel.Registry

open Core Components List Nat

/-! ### The components of a longer string -/

lemma components_append_sep (a t : List Char) :
    components (a ++ pathSep :: t) = components (a ++ [pathSep]) ++ components t := by
  induction hlen : a.length using Nat.strong_induction_on generalizing a with
  | _ len ih =>
    rcases notMem_or_eq_append a with ha | ⟨b, a', rfl, hb⟩
    · rw [components_append ha, components_append ha, components_nil]
      rfl
    · rw [append_assoc, cons_append, components_append hb,
        ih a'.length (by rw [← hlen]; simp; omega) a' rfl, append_assoc, cons_append,
        components_append hb]
      rfl

lemma IsDirectory.components_append {d : List Char} (hd : IsDirectory d) (t : List Char) :
    components (d ++ t) = components d ++ components t := by
  rcases hd with rfl | ⟨a, rfl⟩
  · rw [components_nil]
    rfl
  · rw [append_assoc, singleton_append, components_append_sep]

lemma IsDirectory.components_concat_sep {d n : List Char} (hd : IsDirectory d) (hn : pathSep ∉ n)
    (hne : n ≠ []) : components (d ++ n ++ [pathSep]) = components (d ++ n) := by
  rw [append_assoc, hd.components_append, hd.components_append,
    Kernel.Registry.components_append hn, components_nil, components_of_notMem hn hne,
    Component.ofPiece, if_neg hne]

lemma name_nil_notMem_components (s : List Char) : .name [] ∉ components s := by
  rw [components, mem_map]
  rintro ⟨piece, -, h⟩
  rw [Component.ofPiece] at h
  split_ifs at h with hnil
  rw [Component.fromStr] at h
  split_ifs at h
  cases h
  exact hnil rfl

/-! ### Calls at both ends -/

inductive End where
  | front
  | back
  deriving DecidableEq

namespace End

variable {α : Type}

def peek : End → List α → Option α
  | front, xs => xs.head?
  | back, xs => xs.getLast?

def drop : End → List α → List α
  | front, xs => xs.tail
  | back, xs => xs.dropLast

def takes : List End → List α → List (Option α)
  | [], _ => []
  | e :: ends, xs => e.peek xs :: takes ends (e.drop xs)

end End

namespace Components

def call : End → Components → Checked (Option Component × Components)
  | .front => next
  | .back => nextBack

def run : List End → Components → Checked (List (Option Component))
  | [], _ => pure []
  | e :: ends, c => do
    let (x, c) ← c.call e
    pure (x :: (← run ends c))

def Clear (c : Components) : Prop :=
  c.front = 0 ∨ c.rest = [pathSep] ∨ c.rest.getLast? ≠ some pathSep

def Careful : List End → Components → Prop
  | [], _ => True
  | e :: ends, c => (e = .back → c.Clear) ∧ ∀ x c', c.call e = .ok (x, c') → Careful ends c'

variable {c : Components}

lemma Ok.shorten (h : c.Ok) {d t : List Char} (hrest : c.rest = d ++ t) :
    ({ c with back := c.front + d.length } : Components).Ok ∧
      ({ c with back := c.front + d.length } : Components).rest = d := by
  have hlen := h.length_rest
  have hback := h.back_le
  have hfro := h.front_le
  rw [hrest, length_append] at hlen
  refine ⟨⟨by simp, by dsimp only; omega⟩, ?_⟩
  have htake : c.rest.take d.length = d := by rw [hrest, take_left]
  rw [rest, drop_take, take_take, min_eq_left (by omega)] at htake
  rw [rest, drop_take]
  simpa using htake

lemma Ok.back_eq (h : c.Ok) : c.back = c.front + c.rest.length := by
  have := h.front_le
  rw [h.length_rest]
  omega

lemma Ok.nextBack_of_eq (h : c.Ok) {d n e : List Char} (hrest : c.rest = d ++ n ++ e)
    (hd : IsDirectory d) (hn : pathSep ∉ n) (hne : n ≠ [])
    (he : e = [] ∨ e = [pathSep] ∧ c.front = 0) :
    c.nextBack = .ok (some (.fromStr n), { c with back := c.front + d.length }) := by
  have hpos := length_pos_iff.mpr hne
  refine h.nextBack_of_skip (by simp [hrest, hne]) ?_ hd hn ?_
  · intro hroot
    obtain ⟨x, hx⟩ := exists_mem_of_ne_nil n hne
    have hmem : x ∈ c.rest := by simp [hrest, hx]
    rw [hroot, mem_singleton] at hmem
    exact hn (hmem ▸ hx)
  · rw [h.back_eq, hrest]
    rcases he with rfl | ⟨rfl, hfro⟩
    · rw [append_nil]
      exact skipSeps_of_lt hd hn (by rw [length_append]; omega)
    · have hfd : rfind (d ++ n ++ [pathSep]) = some (d ++ n).length := by
        have := rfind_append (d := d ++ n ++ [pathSep]) (n := []) (.inr ⟨_, rfl⟩) not_mem_nil
        simpa using this
      have hleft : slice (d ++ n ++ [pathSep]) 0 (d ++ n).length = .ok (d ++ n) := by
        rw [slice_eq_ok (zero_le _) (by simp), take_left, drop_zero]
      rw [hfro, zero_add, zero_add, length_append, length_singleton, skipSeps,
        if_pos hfd, if_neg (by simp [hne]), hleft]
      exact skipSeps_of_lt hd hn (by rw [length_append]; omega)

lemma Ok.nextBack_of_not_clear (h : c.Ok) (hclr : ¬ c.Clear) :
    c.nextBack = .ok (some (.name []), c) := by
  rw [Clear, not_or, not_or, not_not] at hclr
  obtain ⟨hfro, hroot, hlast⟩ := hclr
  obtain ⟨a, ha⟩ := List.getLast?_eq_some_iff.mp hlast
  have hd : IsDirectory c.rest := .inr ⟨a, ha⟩
  have hback := h.back_eq
  have hskip : skipSeps c.front c.back (c.rest ++ []) = .ok (c.back, some (c.rest ++ [])) :=
    skipSeps_of_lt hd not_mem_nil (by omega)
  rw [append_nil] at hskip
  rw [h.nextBack_of_skip (n := []) (by simp [ha]) hroot hd not_mem_nil
    (by rw [append_nil, ← hback]; exact hskip)]
  rw [← hback]
  rfl

lemma Ok.nextBack_eq (h : c.Ok) (hsgl : ¬ [pathSep, pathSep] <:+: c.rest) (hclr : c.Clear) :
    ∃ c', c.nextBack = .ok ((components c.rest).getLast?, c') ∧ c'.Ok ∧
      components c'.rest = (components c.rest).dropLast ∧ c'.rest <+: c.rest := by
  -- a last component with a separator behind it that is found, or without one
  have hname : ∀ d n e, c.rest = d ++ n ++ e → IsDirectory d → pathSep ∉ n → n ≠ [] →
      (e = [] ∨ e = [pathSep] ∧ c.front = 0) → ∃ c', c.nextBack =
        .ok ((components c.rest).getLast?, c') ∧ c'.Ok ∧
        components c'.rest = (components c.rest).dropLast ∧ c'.rest <+: c.rest := by
    intro d n e hrest hd hn hne he
    have hcom : components c.rest = components d ++ [.fromStr n] := by
      rw [← components_of_notMem hn hne, ← hd.components_append, hrest]
      rcases he with rfl | ⟨rfl, -⟩
      · rw [append_nil]
      · exact hd.components_concat_sep hn hne
    obtain ⟨hok, hleft⟩ := h.shorten (hrest.trans (append_assoc d n e))
    refine ⟨_, h.nextBack_of_eq hrest hd hn hne he |>.trans ?_, hok, ?_, ?_⟩
    · rw [hcom, List.getLast?_concat]
    · rw [hleft, hcom, dropLast_concat]
    · rw [hleft, hrest, append_assoc]
      exact prefix_append _ _
  obtain ⟨d, n, hdn, hd, hn⟩ := exists_directory c.rest
  by_cases hne : n = []
  · rw [hne, append_nil] at hdn
    rcases hd with rfl | ⟨a, rfl⟩
    · refine ⟨c, ?_, h, by simp [hdn], prefix_rfl⟩
      rw [nextBack, if_pos (h.back_le_iff.mpr hdn), hdn, components_nil]
      rfl
    · by_cases ha : a = []
      · subst ha
        obtain ⟨hok, hleft⟩ := h.shorten (d := []) hdn
        refine ⟨_, ?_, hok, ?_, ?_⟩
        · rw [nextBack, if_neg (h.back_le_iff.not.mpr (by simp [hdn])), h.slice_eq, hdn]
          rfl
        · rw [hleft, hdn]
          rfl
        · rw [hleft]
          exact nil_prefix
      · have hfro : c.front = 0 := by
          refine hclr.resolve_right fun hor => hor.elim (fun hroot => ha ?_) fun hlast => hlast ?_
          · simpa [hroot] using hdn
          · simp [hdn]
        obtain ⟨d, n, rfl, hd, hn⟩ := exists_directory a
        have hne : n ≠ [] := by
          rintro rfl
          rcases hd with rfl | ⟨b, rfl⟩
          · exact ha rfl
          · exact hsgl ⟨b, [], by simp [hdn]⟩
        exact hname d n [pathSep] hdn hd hn hne (.inr ⟨rfl, hfro⟩)
  · exact hname d n [] (hdn.trans (append_nil _).symm) hd hn hne (.inl rfl)

lemma Ok.call_eq (h : c.Ok) (hsgl : ¬ [pathSep, pathSep] <:+: c.rest) {e : End}
    (hclr : e = .back → c.Clear) :
    ∃ c', c.call e = .ok (e.peek (components c.rest), c') ∧ c'.Ok ∧
      components c'.rest = e.drop (components c.rest) ∧ ¬ [pathSep, pathSep] <:+: c'.rest := by
  cases e with
  | front =>
    obtain ⟨c', hnext, hok, hrest, hsuf⟩ := h.next_eq
    exact ⟨c', hnext, hok, hrest, fun hd => hsgl (hd.trans hsuf.isInfix)⟩
  | back =>
    obtain ⟨c', hnext, hok, hrest, hpre⟩ := h.nextBack_eq hsgl (hclr rfl)
    exact ⟨c', hnext, hok, hrest, fun hd => hsgl (hd.trans hpre.isInfix)⟩

lemma run_cons {e : End} {ends : List End} {x y : Option Component} {ys : List (Option Component)}
    {c' : Components} (hcall : c.call e = .ok (x, c')) :
    run (e :: ends) c = .ok (y :: ys) ↔ x = y ∧ run ends c' = .ok ys := by
  rw [run, hcall]
  change (run ends c' >>= fun xs => pure (x :: xs) : Checked _) = _ ↔ _
  rw [bind_eq_ok]
  constructor
  · rintro ⟨xs, hrun, hxs⟩
    cases hxs
    exact ⟨rfl, hrun⟩
  · rintro ⟨rfl, hrun⟩
    exact ⟨ys, hrun, rfl⟩

lemma run_eq_iff (ends : List End) (h : c.Ok) (hsgl : ¬ [pathSep, pathSep] <:+: c.rest) :
    run ends c = .ok (End.takes ends (components c.rest)) ↔ Careful ends c := by
  induction ends generalizing c with
  | nil => exact iff_of_true rfl trivial
  | cons e ends ih =>
    by_cases hclr : e = .back → c.Clear
    · obtain ⟨c', hcall, hok, hrest, hsgl'⟩ := h.call_eq hsgl hclr
      rw [End.takes, run_cons hcall, ← hrest, ih hok hsgl', Careful, hcall]
      simpa using fun _ => hclr
    · refine iff_of_false (fun hrun => ?_) fun hcar => hclr hcar.1
      obtain ⟨rfl, hstu⟩ := Classical.not_imp.mp hclr
      have hlast := ((run_cons (e := .back) (h.nextBack_of_not_clear hstu)).mp hrun).1
      exact name_nil_notMem_components _ (mem_of_getLast? hlast.symm)

end Components

/-- The calls return the components from the two ends of the list exactly if no `next_back` comes
upon a separator at the end after something was taken from the front. -/
theorem run_takes_iff {s : List Char} (ends : List End) (hsingle : ¬ [pathSep, pathSep] <:+: s) :
    (new s).run ends = .ok (End.takes ends (components s)) ↔
      (new s).Careful ends := by
  have hiff := run_eq_iff ends (new_ok s) (by simpa using hsingle)
  rwa [new_rest] at hiff

/-- All components from the back, and then one call more. -/
theorem run_takes_iff_backwards : (new ['/', 'a', '/']).run [.back, .back, .back] =
    .ok [some (.name ['a']), some .root, none] :=
  (run_takes_iff [.back, .back, .back] (by decide)).mpr
    ⟨fun _ => .inl rfl, by
      rintro x c' ⟨⟩
      refine ⟨fun _ => .inl rfl, ?_⟩
      rintro x c' ⟨⟩
      refine ⟨fun _ => .inl rfl, fun _ _ _ => trivial⟩⟩

/-- After the root was taken from the front, the last component is not found. -/
theorem run_stuck : (new ['/', 'a', '/']).run [.front, .back, .back] =
    .ok [some .root, some (.name []), some (.name [])] :=
  rfl

/-! ### Owned paths -/

def parent (s : List Char) : Checked (Option (List Char)) := do
  let (last, comps) ← (new s).nextBack
  match last with
  | some .root | none => pure none
  | some _ => pure (some (← comps.asPath))

def fileNameWithin : ℕ → List Char → Checked (Option (List Char))
  | 0, _ => pure none
  | len + 1, s => do
    let (last, comps) ← (new s).nextBack
    match last with
    | some .currentDir => fileNameWithin len (← comps.asPath)
    | some (.name n) => pure (some n)
    | _ => pure none

def fileName (s : List Char) : Checked (Option (List Char)) := fileNameWithin s.length s

def push (s p : List Char) : List Char :=
  (if s.getLast? = some pathSep then s else s ++ [pathSep]) ++ p

def pop (s : List Char) : Checked (Bool × List Char) := do
  match ← parent s with
  | some p => pure (true, s.take p.length)
  | none => pure (false, s)

lemma exists_push_eq {p : List Char} (hp : p ≠ []) :
    ∃ a, (∀ q, push p q = a ++ pathSep :: q) ∧ components (a ++ [pathSep]) = components p := by
  by_cases hlast : p.getLast? = some pathSep
  · obtain ⟨a, rfl⟩ := List.getLast?_eq_some_iff.mp hlast
    exact ⟨a, fun q => by rw [push, if_pos hlast, append_assoc]; rfl, rfl⟩
  · obtain ⟨d, n, rfl, hd, hn⟩ := exists_directory p
    refine ⟨d ++ n, fun q => by rw [push, if_neg hlast, append_assoc]; rfl,
      hd.components_concat_sep hn ?_⟩
    rintro rfl
    rcases hd with rfl | ⟨a, rfl⟩
    · exact hp rfl
    · simp at hlast

/-- Pushing appends the components of what is pushed. A name that was pushed is the file name, and
`pop` removes it. -/
theorem push_pop {p n : List Char} (hp : p ≠ []) (hn : IsName n) :
    components (push p n) = components p ++ [.name n] ∧ fileName (push p n) = .ok (some n) ∧
      (∃ p', pop (push p n) = .ok (true, p') ∧ components p' = components p) ∧
      ∀ q, components (push p q) = components p ++ components q := by
  obtain ⟨a, hpush, ha⟩ := exists_push_eq hp
  have happ : ∀ q, components (push p q) = components p ++ components q := fun q => by
    rw [hpush, components_append_sep, ha]
  refine ⟨?_, ?_, ⟨a ++ [pathSep], ?_, ha⟩, happ⟩
  · rw [happ, components_of_notMem hn.notMem hn.ne_nil, hn.fromStr_eq]
  · have hlen : (a ++ pathSep :: n).length = a.length + n.length + 1 := by simp; omega
    rw [hpush, fileName, hlen, fileNameWithin, nextBack_of_name hn]
    rfl
  · have hpar : parent (a ++ pathSep :: n) = .ok (some (a ++ [pathSep])) := by
      rw [parent, nextBack_of_name hn]
      change (slice _ 0 (a.length + 1) >>= fun s => pure (some s) : Checked _) = _
      rw [slice_eq_ok (zero_le _) (by simp), append_cons, take_left' (by simp)]
      rfl
    rw [hpush, pop, hpar]
    change Except.ok (true, (a ++ pathSep :: n).take (a ++ [pathSep]).length) = _
    rw [append_cons a pathSep n, take_left]

theorem push_pop_root : components (push ['/'] ['a']) = [.root, .name ['a']] :=
  have hname : IsName ['a'] := by decide
  (push_pop (cons_ne_nil _ _) hname).1

end Kernel.Registry
