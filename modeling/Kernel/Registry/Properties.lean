import Kernel.Registry.Basic

/-!
# Registered paths and lookups

No path of a handler is a prefix of another one. A lookup splits a path at the one handler on it.
-/

set_option linter.dupNamespace false

namespace Kernel.Registry

open Core List Components Registry

variable {H : Type}

/-! ### Registrations -/

abbrev Name := { n : List Char // IsName n }

structure Registration (H : Type) where
  directories : List Name
  name : Name
  handler : H

def Registration.names (x : Registration H) : List (List Char) :=
  x.directories.map Subtype.val ++ [x.name.val]

def Registration.path (x : Registration H) : List Char := absolute x.names

lemma Registration.isName (x : Registration H) : ∀ n ∈ x.names, IsName n := by
  intro n hn
  rw [Registration.names, mem_append, mem_map, mem_singleton] at hn
  rcases hn with ⟨m, -, rfl⟩ | rfl
  · exact m.property
  · exact x.name.property

lemma exists_eq_append_sep (ps : List (List Char)) :
    ∃ a, pathSep :: directories ps = a ++ [pathSep] := by
  induction ps with
  | nil => exact ⟨[], rfl⟩
  | cons p ps ih =>
    obtain ⟨a, ha⟩ := ih
    refine ⟨pathSep :: p ++ a, ?_⟩
    rw [append_assoc, ← ha]
    simp [directories]

namespace Registry

lemma addToRoot_eq {r : Registry H} {name : List Char} {h : H} {path : Components}
    {result : Except RegistryError Unit} {root : Node H}
    (hadd : r.root.add name h path = .ok (result, root)) :
    ∃ r', r.addToRoot name h path = .ok (result, r') ∧ r'.root = root := by
  rw [addToRoot]
  split
  · next p heq =>
    rw [hadd] at heq
    cases heq
  · next result' root' heq =>
    rw [hadd] at heq
    cases heq
    exact ⟨_, rfl, rfl⟩

lemma register_eq (x : Registration H) (r : Registry H) :
    ∃ result r', r.register x.path x.handler = .ok (result, r') ∧
      (result = .ok () ∧
        r.root.insert x.name.val x.handler (x.directories.map Subtype.val) = some r'.root ∨
      result = .error (.handlerAlreadyRegistered x.name.val) ∧
        r.root.insert x.name.val x.handler (x.directories.map Subtype.val) = none ∧ r' = r) := by
  obtain ⟨a, ha⟩ := exists_eq_append_sep (x.directories.map Subtype.val)
  have hpath : x.path = a ++ pathSep :: x.name.val := by
    rw [Registration.path, absolute, Registration.names, relative_append_singleton,
      ← cons_append, ha, append_assoc, singleton_append]
  have hok : (Components.mk x.path 0 (a.length + 1)).Ok :=
    ⟨Nat.zero_le _, by simp [hpath]⟩
  have hrest : (Components.mk x.path 0 (a.length + 1)).rest =
      pathSep :: directories (x.directories.map Subtype.val) := by
    rw [ha, Components.rest, hpath, append_cons, drop_zero, take_left' (by simp)]
  obtain ⟨pc, hnext, hok', hrest'⟩ := hok.next_root hrest
  have hadd := Node.add_eq_insert x.name.val x.handler r.root (by simp +contextual) hok' hrest'
  have hreg : r.register x.path x.handler = r.addToRoot x.name.val x.handler pc := by
    rw [register]
    nth_rewrite 1 [hpath]
    rw [Components.nextBack_of_name x.name.property, ← hpath]
    dsimp only [bind, Except.bind]
    rw [hnext]
  rw [hreg]
  cases hins : r.root.insert x.name.val x.handler (x.directories.map Subtype.val) with
  | some root =>
    rw [hins] at hadd
    obtain ⟨r', heq, rfl⟩ := addToRoot_eq hadd
    exact ⟨.ok (), r', heq, .inl ⟨rfl, rfl⟩⟩
  | none =>
    rw [hins] at hadd
    obtain ⟨r', heq, hroot⟩ := addToRoot_eq hadd
    exact ⟨_, r', heq, .inr ⟨rfl, rfl, Registry.ext hroot⟩⟩

def registerCall (x : Registration H) (r : Registry H) :
    Option (Except RegistryError Unit × Registry H) := (r.register x.path x.handler).toOption

abbrev RegisterEvent (H : Type) :=
  Core.Event (Registry H) (Registration H) (Except RegistryError Unit)

def registeredIn (events : List (RegisterEvent H)) : List (Registration H) :=
  events.filterMap fun e => if e.result = .ok () then some e.call else none

def Incomparable (x y : Registration H) : Prop := ¬ x.names <+: y.names ∧ ¬ y.names <+: x.names

structure Registers (events : List (RegisterEvent H)) (r : Registry H) : Prop where
  prefixFree : (registeredIn events).Pairwise Incomparable
  register : ∀ x, ∃ result r', registerCall x r = some (result, r') ∧
    (result ≠ .ok () ↔ ∃ y ∈ registeredIn events, y.names <+: x.names ∨ x.names <+: y.names) ∧
    (result ≠ .ok () → ∀ p, r'.findHandler p = r.findHandler p)
  find : ∀ x ∈ registeredIn events, ∀ rest,
    r.findHandler (absolute (x.names ++ rest)) = .ok (.ok (relative rest, x.handler))

structure Holds (events : List (RegisterEvent H)) (r : Registry H) : Prop where
  full : r.root.Full
  stores_iff : ∀ ks h, r.root.Stores ks h ↔ ∃ x ∈ registeredIn events, x.names = ks ∧ x.handler = h
  prefixFree : (registeredIn events).Pairwise Incomparable

variable {events : List (RegisterEvent H)} {r r' : Registry H} {x : Registration H}

lemma registeredIn_cons (e : RegisterEvent H) :
    registeredIn (e :: events) =
      if e.result = .ok () then e.call :: registeredIn events else registeredIn events := by
  rw [registeredIn, filterMap_cons]
  split_ifs <;> simp [registeredIn]

lemma Holds.obstructed_iff (h : Holds events r) (ks : List (List Char)) :
    r.root.Obstructed ks ↔ ∃ y ∈ registeredIn events, y.names <+: ks ∨ ks <+: y.names := by
  constructor
  · rintro ⟨ls, b, hsto, hcmp⟩
    obtain ⟨y, hy, rfl, -⟩ := (h.stores_iff ls b).mp hsto
    exact ⟨y, hy, hcmp⟩
  · rintro ⟨y, hy, hcmp⟩
    exact ⟨y.names, y.handler, (h.stores_iff _ _).mpr ⟨y, hy, rfl, rfl⟩, hcmp⟩

lemma Holds.new : Holds [] (new : Registry H) := by
  refine ⟨PrefixTree.full_empty, fun ks h => ⟨fun hsto => ?_, nofun⟩, List.Pairwise.nil⟩
  exact absurd ⟨ks, h, hsto, .inl prefix_rfl⟩ (PrefixTree.not_obstructed_empty ks)

lemma Holds.call (h : Holds events r) {result : Except RegistryError Unit}
    (hcall : registerCall x r = some (result, r')) : Holds (⟨x, result, r, r'⟩ :: events) r' := by
  obtain ⟨_, _, hreg, hcas⟩ := register_eq x r
  rw [registerCall, hreg] at hcall
  cases hcall
  rcases hcas with ⟨rfl, hins⟩ | ⟨rfl, -, rfl⟩
  · have hfree : ¬ r.root.Obstructed x.names := by
      have hnone := (h.full.insert_eq_none_iff x.name.val x.handler
        (x.directories.map Subtype.val)).not
      rw [hins] at hnone
      exact hnone.mp (Option.some_ne_none _)
    refine ⟨h.full.insert hins, fun ks k => ?_, ?_⟩
    · rw [PrefixTree.stores_of_insert hins, h.stores_iff, registeredIn_cons, if_pos rfl]
      constructor
      · rintro (⟨y, hy, hyx⟩ | ⟨rfl, rfl⟩)
        · exact ⟨y, mem_cons_of_mem x hy, hyx⟩
        · exact ⟨x, mem_cons_self, rfl, rfl⟩
      · rintro ⟨y, hy, rfl, rfl⟩
        rcases mem_cons.mp hy with rfl | hy
        · exact .inr ⟨rfl, rfl⟩
        · exact .inl ⟨y, hy, rfl, rfl⟩
    · rw [registeredIn_cons, if_pos rfl, pairwise_cons]
      refine ⟨fun y hy => ?_, h.prefixFree⟩
      rw [h.obstructed_iff] at hfree
      exact ⟨fun hxy => hfree ⟨y, hy, .inr hxy⟩, fun hyx => hfree ⟨y, hy, .inl hyx⟩⟩
  · have hsame : registeredIn (⟨x, .error (.handlerAlreadyRegistered x.name.val), r', r'⟩ :: events)
        = registeredIn events := by
      rw [registeredIn_cons, if_neg nofun]
    exact ⟨h.full, by rw [hsame]; exact h.stores_iff, by rw [hsame]; exact h.prefixFree⟩

lemma findHandler_of_stores {q rest : List (List Char)} {h : H} (hq : ∀ n ∈ q, IsName n)
    (hsto : r.root.Stores q h) :
    r.findHandler (absolute (q ++ rest)) = .ok (.ok (relative rest, h)) := by
  obtain ⟨pc, hnext, hok, hrest⟩ :=
    (new_ok (absolute (q ++ rest))).next_root (new_rest _)
  obtain ⟨children, hroot⟩ := r.isDirectory
  rw [findHandler, hnext]
  change r.root.find pc = _
  rw [hroot] at hsto ⊢
  exact Node.find_of_stores hq hok hrest hsto

/-- In every sequence of calls of `register`, the paths that are registered are prefix-free, the
next call fails exactly if its path can be compared with one of them and then changes nothing, and a
lookup splits a path behind the names of the handler on it. -/
theorem registers_of_run (hrun : Core.Run registerCall new events r) :
    Registers events r := by
  have h : Holds events r := by
    induction hrun with
    | nil => exact .new
    | call _ hcall ih => exact ih.call hcall
  refine ⟨h.prefixFree, fun x => ?_, fun x hx rest => ?_⟩
  · obtain ⟨result, r', hreg, hcas⟩ := register_eq x r
    refine ⟨result, r', by rw [registerCall, hreg]; rfl, ?_, ?_⟩
    · have hiff := h.full.insert_eq_none_iff x.name.val x.handler
        (x.directories.map Subtype.val)
      rw [← h.obstructed_iff x.names]
      rcases hcas with ⟨rfl, hins⟩ | ⟨rfl, hins, -⟩
      · rw [hins] at hiff
        exact ⟨fun hne => absurd rfl hne,
          fun hobs => absurd (hiff.mpr hobs) (Option.some_ne_none _)⟩
      · exact ⟨fun _ => hiff.mp hins, fun _ => nofun⟩
    · rcases hcas with ⟨rfl, -⟩ | ⟨-, -, rfl⟩
      · exact fun hne => absurd rfl hne
      · exact fun _ _ => rfl
  · exact findHandler_of_stores x.isName ((h.stores_iff _ _).mpr ⟨x, hx, rfl, rfl⟩)

def sampleDisk : Registration ℕ := ⟨[⟨['d'], by decide⟩], ⟨['a'], by decide⟩, 1⟩

theorem registers_of_run_one :
    ∃ events r, Core.Run registerCall new events r ∧ registeredIn events = [sampleDisk] ∧
      Registers events r := by
  obtain ⟨result, r, hcall, hiff, -⟩ := (registers_of_run .nil).register sampleDisk
  have hok : result = .ok () := by
    by_contra hne
    obtain ⟨y, hy, -⟩ := hiff.mp hne
    exact not_mem_nil hy
  subst hok
  have hrun : Core.Run registerCall new [⟨sampleDisk, .ok (), new, r⟩] r :=
    .call .nil hcall
  exact ⟨_, r, hrun, rfl, registers_of_run hrun⟩

/-! ### Lookups that panic -/

end Registry

def Node.EndsInDirectory (node : Node H) (cs : List Component) : Prop :=
  ∃ names tail, cs = names.map .name ++ tail ∧
    (∃ children, node.get? names = some (Node.directory children)) ∧
    ∀ n, tail.head? ≠ some (.name n)

def Registry.EndsInDirectory (r : Registry H) (p : List Char) : Prop :=
  ∃ cs, components p = .root :: cs ∧ r.root.EndsInDirectory cs

namespace Node

variable {children : List Char → Option (Node H)} {cs : List Component}

lemma endsInDirectory_of_head (hcs : ∀ n, cs.head? ≠ some (.name n)) :
    (directory children).EndsInDirectory cs := ⟨[], cs, rfl, ⟨children, rfl⟩, hcs⟩

lemma endsInDirectory_cons {n : List Char} :
    (directory children).EndsInDirectory (.name n :: cs) ↔
      ∃ node, children n = some node ∧ node.EndsInDirectory cs := by
  constructor
  · rintro ⟨_ | ⟨m, names⟩, tail, heq, ⟨children', hget⟩, htail⟩
    · rw [map_nil, nil_append] at heq
      exact absurd (by rw [← heq]; rfl) (htail n)
    · rw [map_cons, cons_append, List.cons.injEq, Component.name.injEq] at heq
      obtain ⟨rfl, rfl⟩ := heq
      obtain ⟨node, hnode, hget⟩ := Option.bind_eq_some_iff.mp hget
      exact ⟨node, hnode, names, tail, rfl, ⟨children', hget⟩, htail⟩
  · rintro ⟨node, hnode, names, tail, rfl, ⟨children', hget⟩, htail⟩
    exact ⟨n :: names, tail, rfl, ⟨children', by simp [hnode, hget]⟩, htail⟩

lemma not_endsInDirectory_handler {h : H} : ¬ (handler h : Node H).EndsInDirectory cs := by
  rintro ⟨_ | ⟨n, names⟩, tail, -, ⟨children', hget⟩, -⟩
  · cases hget
  · cases hget

lemma find_returns_iff {path : Components} (hok : path.Ok) :
    (∃ x, (directory children).find path = .ok x) ↔
      ¬ (directory children).EndsInDirectory (components path.rest) := by
  obtain ⟨path', hnext, hok', htail, -⟩ := hok.next_eq
  induction hcs : components path.rest generalizing children path path' with
  | nil =>
    rw [hcs] at hnext
    rw [find_none hnext]
    exact ⟨nofun, fun h => absurd (endsInDirectory_of_head (by simp)) h⟩
  | cons c cs ih =>
    rw [hcs] at hnext htail
    by_cases hc : ∃ n, c = .name n
    · obtain ⟨n, rfl⟩ := hc
      rw [find_name hnext, endsInDirectory_cons]
      cases hch : children n with
      | none =>
        dsimp only
        rw [hok'.asPath_eq]
        exact ⟨fun _ => nofun, fun _ => ⟨_, rfl⟩⟩
      | some node =>
        cases node with
        | leaf h =>
          dsimp only
          rw [hok'.asPath_eq]
          refine ⟨fun _ => ?_, fun _ => ⟨_, rfl⟩⟩
          rintro ⟨_, ⟨⟩, hends⟩
          exact not_endsInDirectory_handler hends
        | branch children' =>
          obtain ⟨path'', hnext', hok'', htail', -⟩ := hok'.next_eq
          dsimp only
          rw [ih hok' path'' hnext' hok'' htail' htail]
          simp
    · rw [find_other hnext fun n hn => hc ⟨n, hn⟩]
      refine ⟨nofun, fun h => absurd (endsInDirectory_of_head fun n hn => hc ⟨n, ?_⟩) h⟩
      exact Option.some.inj hn

end Node

namespace Registry

lemma findHandler_returns_iff (r : Registry H) (p : List Char) :
    (∃ x, r.findHandler p = .ok x) ↔ ¬ r.EndsInDirectory p := by
  obtain ⟨children, hroot⟩ := r.isDirectory
  obtain ⟨pc, hnext, hok, htail, -⟩ := (new_ok p).next_eq
  rw [new_rest] at hnext htail
  rw [findHandler, hnext, EndsInDirectory, hroot]
  cases hcs : components p with
  | nil => exact ⟨fun _ => nofun, fun _ => ⟨_, rfl⟩⟩
  | cons c cs =>
    rw [hcs, tail_cons] at htail
    by_cases hc : c = .root
    · subst hc
      change (∃ x, (Node.directory children).find pc = .ok x) ↔ _
      rw [Node.find_returns_iff hok, htail]
      simp
    · have hoth : ∀ cs', ¬ c :: cs = .root :: cs' := fun _ heq => hc (List.cons.inj heq).1
      refine ⟨fun _ => fun ⟨_, heq, _⟩ => hoth _ heq, fun _ => ⟨.error .invalidPath, ?_⟩⟩
      cases c with
      | root => exact absurd rfl hc
      | currentDir | parentDir | name _ => rfl

def ReachesHandler {α : Type} (openAt : H → List Char → Checked (Except Error α)) (r : Registry H)
    (p : List Char) : Prop :=
  (∃ x, r.openResource openAt p = .ok x) ∨
    ∃ subpath h, r.findHandler p = .ok (.ok (subpath, h)) ∧
      r.openResource openAt p = openAt h subpath

lemma reachesHandler_iff {α : Type} (openAt : H → List Char → Checked (Except Error α))
    (r : Registry H) (p : List Char) :
    ReachesHandler openAt r p ↔ ∃ x, r.findHandler p = .ok x := by
  rw [ReachesHandler, openResource]
  rcases r.findHandler p with panic | e | ⟨subpath, h⟩
  · exact ⟨by rintro (⟨_, ⟨⟩⟩ | ⟨_, _, ⟨⟩, _⟩), nofun⟩
  · exact ⟨fun _ => ⟨_, rfl⟩, fun _ => .inl ⟨_, rfl⟩⟩
  · exact ⟨fun _ => ⟨_, rfl⟩, fun _ => .inr ⟨subpath, h, rfl, rfl⟩⟩

/-- `find_handler` returns exactly if the path does not end in a directory, and so do `open_file`
and `open_block_store` up to the call of the handler. -/
theorem lookup_returns_iff {BlockStore File : Type}
    (r : Registry (RegistryHandler BlockStore File)) (p : List Char) :
    ((∃ x, r.findHandler p = .ok x) ↔ ¬ r.EndsInDirectory p) ∧
      (r.ReachesHandler (·.openFile) p ↔ ¬ r.EndsInDirectory p) ∧
      (r.ReachesHandler (·.openBlockStore) p ↔ ¬ r.EndsInDirectory p) := by
  rw [reachesHandler_iff, reachesHandler_iff, findHandler_returns_iff]
  exact ⟨Iff.rfl, Iff.rfl, Iff.rfl⟩

/-- In a registry without handlers, a lookup of `/`, `//` or `/.` panics. -/
theorem lookup_panics :
    (new : Registry (RegistryHandler Unit Unit)).findHandler ['/'] = .error .todo ∧
      (new : Registry (RegistryHandler Unit Unit)).findHandler ['/', '/'] =
        .error .explicit ∧
      (new : Registry (RegistryHandler Unit Unit)).findHandler ['/', '.'] =
        .error .explicit := by
  have hroot : (Components.mk ['/'] 1 1).next = .ok (none, ⟨['/'], 1, 1⟩) := rfl
  have hsep : (Components.mk ['/', '/'] 1 2).next = .ok (some .root, ⟨['/', '/'], 2, 2⟩) := rfl
  have hdot : (Components.mk ['/', '.'] 1 2).next = .ok (some .currentDir, ⟨['/', '.'], 2, 2⟩) :=
    rfl
  exact ⟨Node.find_none hroot, Node.find_other hsep nofun, Node.find_other hdot nofun⟩

end Registry

end Kernel.Registry
