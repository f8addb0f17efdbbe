import Kernel.Ds.Dtb

/-!
# The properties of a node

`process_properties_for_node` looks for the first node whose name starts with a given text and
passes its properties on.
-/

namespace Kernel.Ds

open Core DtNode DtToken List Nat

def startsWith (name nodeName : String) : Bool := nodeName.toList.isPrefixOf name.toList

abbrev PropertyCall := String × List UInt8 × Option StandardProperty

namespace DeviceTree

variable (dt : DeviceTree)

end DeviceTree

/-! ### The scan of the items -/

inductive Scan where
  | search
  | within
  | skipping

def scan (nodeName : String) : Scan → List StructureItem → Bool × List PropertyCall
  | .search, [] => (false, [])
  | _, [] => (true, [])
  | .search, .startNode name :: items =>
    scan nodeName (if startsWith name nodeName then .within else .search) items
  | .search, _ :: items => scan nodeName .search items
  | .within, .startNode name :: items =>
    scan nodeName (if startsWith name nodeName then .within else .skipping) items
  | .within, .endNode :: _ => (true, [])
  | .within, .property name data stdInterp :: items =>
    ((scan nodeName .within items).1, (name, data, stdInterp) :: (scan nodeName .within items).2)
  | .skipping, .endNode :: items => scan nodeName .within items
  | .skipping, _ :: items => scan nodeName .skipping items

namespace DeviceTree

variable {dt : DeviceTree} {nodeName : String} {offset rounds : ℕ} {items : List StructureItem}

def Ended (items : List StructureItem) : Prop := items = [] ∨ items.getLast? = some .endNode

lemma Ended.of_cons {a : StructureItem} (h : Ended (a :: items)) : Ended items := by
  cases items with
  | nil => exact .inl rfl
  | cons b items => exact .inr (by simpa [Ended] using h)

end DeviceTree

/-! ### The scan of a tree -/

namespace DtNode

def name : DtNode → String
  | node name _ _ => name.val

def properties : DtNode → List DtProperty
  | node _ properties _ => properties

def children : DtNode → List DtNode
  | node _ _ children => children

mutual

def nodes : DtNode → List DtNode
  | node name properties children => node name properties children :: forestNodes children

def forestNodes : List DtNode → List DtNode
  | [] => []
  | t :: ts => t.nodes ++ forestNodes ts

end

def first (nodeName : String) (t : DtNode) : Option DtNode :=
  t.nodes.find? fun m => startsWith m.name nodeName

end DtNode

def DtProperty.call (p : DtProperty) : PropertyCall := (p.name.val, p.data, p.stdInterp)

section tree

variable {nodeName : String}

lemma scan_props {s : Scan} (hs : s ≠ .within) (ps : List DtProperty) (rest : List StructureItem) :
    scan nodeName s ((ps.map .prop).map item ++ rest) = scan nodeName s rest := by
  induction ps with
  | nil => rfl
  | cons p ps ih =>
    cases s with
    | within => exact absurd rfl hs
    | search | skipping => exact ih

def DtNode.body : DtNode → List DtToken
  | node _ properties children => properties.map .prop ++ forestTokens children ++ [.endNode]

lemma DtNode.tokens_eq (t : DtNode) : ∃ name : DtName, name.val = t.name ∧
    t.tokens = .beginNode name :: t.body := by
  cases t with
  | node name properties children => exact ⟨name, rfl, by rw [tokens]; rfl⟩

lemma scan_skipping_tokens {t : DtNode} (h : ¬ startsWith t.name nodeName)
    (rest : List StructureItem) : scan nodeName .skipping (t.tokens.map item ++ rest) =
      scan nodeName .within (t.tokens.map item ++ rest) := by
  obtain ⟨name, hname, htok⟩ := t.tokens_eq
  rw [htok, map_cons, cons_append, item, scan, scan, hname, if_neg h]
  exact nofun

lemma DtNode.self_mem_nodes (t : DtNode) : t ∈ t.nodes := by
  cases t
  rw [nodes]
  exact mem_cons_self

mutual

lemma scan_within_tokens : ∀ t : DtNode, (∀ m ∈ t.nodes, ¬ startsWith m.name nodeName) →
    ∀ {rest : List StructureItem}, scan nodeName .within rest = (true, []) →
      scan nodeName .within (t.tokens.map item ++ rest) = (true, [])
  | .node name ps children, h, rest, hrest => by
    have hname : ¬ startsWith name.val nodeName :=
      h _ (self_mem_nodes (.node name ps children))
    rw [tokens, map_cons, cons_append, item, scan, if_neg hname,
      map_append, map_append, append_assoc, append_assoc, scan_props (s := .skipping) nofun]
    cases children with
    | nil => exact hrest
    | cons c cs =>
      simp only [nodes, forestNodes, forall_mem_cons, forall_mem_append] at h
      rw [forestTokens, map_append, append_assoc, scan_skipping_tokens (h.2.1 c c.self_mem_nodes)]
      exact scan_within_tokens c h.2.1 (scan_within_forest cs h.2.2 rfl)

lemma scan_within_forest : ∀ ts : List DtNode,
    (∀ m ∈ forestNodes ts, ¬ startsWith m.name nodeName) →
    ∀ {rest : List StructureItem}, scan nodeName .within rest = (true, []) →
      scan nodeName .within ((forestTokens ts).map item ++ rest) = (true, [])
  | [], _, rest, hrest => by
    rw [forestTokens]
    exact hrest
  | t :: ts, h, rest, hrest => by
    rw [forestNodes, forall_mem_append] at h
    rw [forestTokens, map_append, append_assoc]
    exact scan_within_tokens t h.1 (scan_within_forest ts h.2 hrest)

end

def Searched (nodeName : String) (nodes : List DtNode) (tokens : List DtToken) : Prop :=
  ∀ rest, match nodes.find? (startsWith ·.name nodeName) with
    | none => scan nodeName .search (tokens.map item ++ rest) = scan nodeName .search rest
    | some m => ∃ rest', scan nodeName .search (tokens.map item ++ rest) =
        scan nodeName .within (m.body.map item ++ rest')

mutual

lemma searched_tokens : ∀ t : DtNode, Searched nodeName t.nodes t.tokens
  | .node name ps children => by
    intro rest
    rw [nodes, tokens, map_cons, cons_append, item, scan]
    by_cases hname : startsWith (node name ps children).name nodeName
    · rw [List.find?_cons_of_pos (by exact hname), if_pos (by exact hname)]
      exact ⟨rest, rfl⟩
    · rw [List.find?_cons_of_neg (by exact hname), if_neg (by exact hname), map_append,
        map_append, append_assoc, append_assoc, scan_props (s := .search) nofun]
      exact searched_forest children _

lemma searched_forest : ∀ ts : List DtNode,
    Searched nodeName (forestNodes ts) (forestTokens ts)
  | [] => by
    rw [forestNodes, forestTokens]
    exact fun rest => rfl
  | t :: ts => by
    intro rest
    have hfst := searched_tokens t ((forestTokens ts).map item ++ rest)
    rw [forestNodes, forestTokens, List.find?_append, map_append, append_assoc]
    cases hfind : t.nodes.find? (startsWith ·.name nodeName) with
    | none =>
      rw [hfind] at hfst
      rw [Option.none_or, hfst]
      exact searched_forest ts rest
    | some m =>
      rw [hfind] at hfst
      exact hfst

end

end tree

namespace DeviceTree

end DeviceTree

end Kernel.Ds
