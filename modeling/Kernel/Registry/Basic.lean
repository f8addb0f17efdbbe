import Kernel.Core.PrefixTree
import Kernel.Core.Runs
import Kernel.Error
import Kernel.Registry.Path

/-!
# The registry

The registry is a tree of directories. A handler that is registered for a path is responsible for
everything below it.
-/

set_option linter.dupNamespace false

namespace Kernel.Registry

open Core Function

variable {H : Type}

abbrev Node (H : Type) := PrefixTree (List Char) H

namespace Node

@[match_pattern] abbrev directory (children : List Char → Option (Node H)) : Node H :=
  .branch children

@[match_pattern] abbrev handler (h : H) : Node H := .leaf h

def add (name : List Char) (h : H) (node : Node H) (path : Components) :
    Checked (Except RegistryError Unit × Node H) :=
  match _hnext : path.next with
  | .error p => .error p
  | .ok (some (.name s), rest) =>
    match node with
    | .directory children => do
      let (result, child) ← add name h ((children s).getD .empty) rest
      pure (result, .directory (update children s (some child)))
    | .handler _ => pure (.error (.handlerAlreadyRegistered name), node)
  | .ok (none, _) =>
    match node with
    | .directory children =>
      if (children name).isSome then pure (.error (.handlerAlreadyRegistered name), node)
      else pure (.ok (), .directory (update children name (some (.handler h))))
    | .handler _ => pure (.error (.handlerAlreadyRegistered name), node)
  | .ok (some .root, _) | .ok (some .parentDir, _) | .ok (some .currentDir, _) => .error .explicit
termination_by path.back - path.front
decreasing_by exact Components.lt_of_next _hnext

def find (node : Node H) (path : Components) : Checked (Except RegistryError (List Char × H)) :=
  match _hnext : path.next with
  | .error p => .error p
  | .ok (some (.name n), rest) =>
    match node with
    | .directory children =>
      match children n with
      | some (.handler h) => do pure (.ok (← rest.asPath, h))
      | some (.directory children) => find (.directory children) rest
      | none => do pure (.error (.notFound (← rest.asPath)))
    | .handler _ => .error .todo
  | .ok (some .root, _) | .ok (some .parentDir, _) | .ok (some .currentDir, _) => .error .explicit
  | .ok (none, _) => .error .todo
termination_by path.back - path.front
decreasing_by exact Components.lt_of_next _hnext

variable {name : List Char} {h : H} {path path' : Components}
  {children : List Char → Option (Node H)}

/-! ### What `add` and `find` do with a component -/

lemma add_name {s : List Char} (hnext : path.next = .ok (some (.name s), path')) :
    add name h (.directory children) path = (do
      let (result, child) ← add name h ((children s).getD .empty) path'
      pure (result, .directory (update children s (some child)))) := by
  rw [add]
  split <;> simp_all

lemma add_none (hnext : path.next = .ok (none, path')) :
    add name h (.directory children) path =
      if (children name).isSome then
        pure (.error (.handlerAlreadyRegistered name), .directory children)
      else pure (.ok (), .directory (update children name (some (.handler h)))) := by
  rw [add]
  split <;> simp_all

lemma add_handler {h' : H} {x : Option Component} (hnext : path.next = .ok (x, path'))
    (hx : x = none ∨ ∃ s, x = some (.name s)) :
    add name h (.handler h') path =
      pure (.error (.handlerAlreadyRegistered name), .handler h') := by
  rw [add]
  rcases hx with rfl | ⟨s, rfl⟩
  · split <;> simp_all
  · split <;> simp_all

lemma find_name {n : List Char} (hnext : path.next = .ok (some (.name n), path')) :
    find (.directory children) path =
      match children n with
      | some (.handler h) => (do pure (.ok (← path'.asPath, h)))
      | some (.directory children) => find (.directory children) path'
      | none => (do pure (.error (.notFound (← path'.asPath)))) := by
  rw [find]
  split <;> simp_all

lemma find_none (hnext : path.next = .ok (none, path')) :
    find (.directory children) path = .error .todo := by
  rw [find]
  split <;> simp_all

lemma find_other {x : Component} (hnext : path.next = .ok (some x, path'))
    (hx : ∀ n, x ≠ .name n) : find (.directory children) path = .error .explicit := by
  rw [find]
  cases x with
  | name n => exact absurd rfl (hx n)
  | root | currentDir | parentDir => split <;> simp_all

/-! ### Registering in a tree -/

lemma exists_directory_of_add {result : Except RegistryError Unit} {node node' : Node H}
    (hnode : ∃ children, node = .directory children)
    (hadd : add name h node path = .ok (result, node')) :
    ∃ children, node' = .directory children := by
  obtain ⟨children, rfl⟩ := hnode
  rw [add] at hadd
  split at hadd
  · cases hadd
  · rw [bind_eq_ok] at hadd
    obtain ⟨⟨_, child⟩, -, hret⟩ := hadd
    cases hret
    exact ⟨_, rfl⟩
  · split_ifs at hadd <;>
    · cases hadd
      exact ⟨_, rfl⟩
  all_goals cases hadd

lemma add_eq_insert (name : List Char) (h : H) (node : Node H) {ps : List (List Char)}
    (hps : ∀ p ∈ ps, IsName p) (hok : path.Ok) (hrest : path.rest = directories ps) :
    add name h node path = .ok (match node.insert name h ps with
      | some node' => (.ok (), node')
      | none => (.error (.handlerAlreadyRegistered name), node)) := by
  induction ps generalizing node path with
  | nil =>
    have hnext := hok.next_of_nil hrest
    cases node with
    | leaf h' =>
      rw [add_handler hnext (.inl rfl)]
      rfl
    | branch children =>
      rw [add_none hnext, PrefixTree.insert]
      split_ifs <;> rfl
  | cons p ps ih =>
    obtain ⟨hp, hps⟩ := List.forall_mem_cons.mp hps
    obtain ⟨path', hnext, hok', hrest'⟩ := hok.next_directories hp hrest
    cases node with
    | leaf h' =>
      rw [add_handler hnext (.inr ⟨p, rfl⟩)]
      rfl
    | branch children =>
      rw [add_name hnext, ih ((children p).getD .empty) hps hok' hrest', PrefixTree.insert]
      cases hins : ((children p).getD .empty).insert name h ps with
      | some child => rfl
      | none =>
        -- Nothing is in the way in a new directory, so this one has been there before.
        cases hp' : children p with
        | none =>
          rw [hp', Option.getD_none, PrefixTree.full_empty.insert_eq_none_iff] at hins
          exact absurd hins (PrefixTree.not_obstructed_empty _)
        | some child =>
          have hsame : update children p (some child) = children := by
            rw [← hp', update_eq_self]
          change Except.ok (_, Node.directory (update children p (some child))) = _
          rw [hsame]
          rfl

lemma find_of_stores {q rest : List (List Char)} (hq : ∀ n ∈ q, IsName n) (hok : path.Ok)
    (hrest : path.rest = relative (q ++ rest)) (hsto : (directory children).Stores q h) :
    find (.directory children) path = .ok (.ok (relative rest, h)) := by
  induction q generalizing children path with
  | nil => cases hsto
  | cons n q ih =>
    obtain ⟨hn, hq⟩ := List.forall_mem_cons.mp hq
    obtain ⟨path', hnext, hok', hrest'⟩ := hok.next_relative hn.ne_nil hn.notMem hrest
    rw [hn.fromStr_eq] at hnext
    obtain ⟨_, _, node, heq, hch, hsto⟩ := PrefixTree.stores_branch.mp hsto
    cases heq
    rw [find_name hnext, hch]
    cases node with
    | branch children => exact ih hq hok' hrest' hsto
    | leaf h' =>
      obtain ⟨rfl, rfl⟩ := PrefixTree.stores_leaf.mp hsto
      dsimp only
      rw [hok'.asPath_eq, hrest']
      rfl

end Node

@[ext]
structure Registry (H : Type) where
  root : Node H
  isDirectory : ∃ children, root = .directory children

namespace Registry

def new : Registry H := ⟨.empty, _, rfl⟩

def addToRoot (name : List Char) (h : H) (path : Components) (r : Registry H) :
    Checked (Except RegistryError Unit × Registry H) :=
  match hadd : r.root.add name h path with
  | .error p => .error p
  | .ok (result, root) => .ok (result, ⟨root, Node.exists_directory_of_add r.isDirectory hadd⟩)

def register (path : List Char) (h : H) (r : Registry H) :
    Checked (Except RegistryError Unit × Registry H) := do
  let (name, pc) ← (Components.new path).nextBack
  match name with
  | some (.name s) => do
    let (first, pc) ← pc.next
    match first with
    | some .root => r.addToRoot s h pc
    | _ => pure (.error .invalidPath, r)
  | _ => pure (.error .invalidPath, r)

def findHandler (r : Registry H) (p : List Char) :
    Checked (Except RegistryError (List Char × H)) := do
  let (first, pc) ← (Components.new p).next
  match first with
  | some .root => r.root.find pc
  | _ => pure (.error .invalidPath)

def openResource {α : Type} (openAt : H → List Char → Checked (Except Error α)) (r : Registry H)
    (p : List Char) : Checked (Except Error α) := do
  match ← r.findHandler p with
  | .error e => pure (.error (.registry "find handler for path" e))
  | .ok (subpath, h) => openAt h subpath

end Registry

structure RegistryHandler (BlockStore File : Type) where
  openBlockStore : List Char → Checked (Except Error BlockStore)
  openFile : List Char → Checked (Except Error File)

namespace Registry

variable {BlockStore File : Type}

def openBlockStore (r : Registry (RegistryHandler BlockStore File)) (p : List Char) :
    Checked (Except Error BlockStore) := r.openResource (·.openBlockStore) p

def openFile (r : Registry (RegistryHandler BlockStore File)) (p : List Char) :
    Checked (Except Error File) := r.openResource (·.openFile) p

end Registry

end Kernel.Registry
