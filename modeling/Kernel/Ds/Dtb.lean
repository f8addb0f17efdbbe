import Kernel.Core.Bytes
import Kernel.Core.Iterator

/-!
# The device tree blob

A flattened device tree is a sequence of aligned tokens. The names of properties stand in a second
block.
-/

namespace Kernel.Ds

open Core List Nat

inductive FdtToken where
  | beginNode
  | endNode
  | prop
  | nop
  | endTree
  | unknown (value : ℕ)
  deriving DecidableEq

def FdtToken.ofU32 : ℕ → FdtToken
  | 0x01 => .beginNode
  | 0x02 => .endNode
  | 0x03 => .prop
  | 0x04 => .nop
  | 0x09 => .endTree
  | value => .unknown value

structure DeviceTree where
  strings : List UInt8
  structs : List UInt8

inductive StandardProperty where
  | compatible (data : List UInt8)
  | addressCells (cells : ℕ)
  | sizeCells (cells : ℕ)
  deriving DecidableEq

inductive StructureItem where
  | startNode (name : String)
  | endNode
  | property (name : String) (data : List UInt8) (stdInterp : Option StandardProperty)
  deriving DecidableEq

def padEnd4b (numBytes : ℕ) : ℕ :=
  numBytes + if numBytes % 4 = 0 then 0 else 4 - numBytes % 4

namespace DeviceTree

def readU32 (buf : List UInt8) (offset : ℕ) : Checked ℕ :=
  match readBe32 (buf.drop offset) with
  | some value => .ok value
  | none => .error .outOfBounds

def expectUtf8 (bytes : List UInt8) : Checked String :=
  match fromUtf8 bytes with
  | some s => .ok s
  | none => .error .unwrap

def standardInterp (name : String) (data : List UInt8) : Checked (Option StandardProperty) :=
  if name = "#address-cells" then (readU32 data 0).map fun cells => some (.addressCells cells)
  else if name = "#size-cells" then (readU32 data 0).map fun cells => some (.sizeCells cells)
  else if name = "compatible" then .ok (some (.compatible data))
  else .ok none

variable (dt : DeviceTree)

def nextNode (offset : ℕ) : Checked (StructureItem × ℕ) := do
  let nameEnd := nulEnd dt.structs offset
  let name ← slice dt.structs offset nameEnd
  let name ← expectUtf8 name
  pure (.startNode name, padEnd4b (nameEnd + 1))

def nextProp (offset : ℕ) : Checked (StructureItem × ℕ) := do
  let length ← readU32 dt.structs offset
  let nameOffset ← readU32 dt.structs (offset + 4)
  let name ← slice dt.strings nameOffset (nulEnd dt.strings nameOffset)
  let name ← expectUtf8 name
  let data ← slice dt.structs (offset + 8) (offset + 8 + length)
  let stdInterp ← standardInterp name data
  pure (.property name data stdInterp, offset + 8 + padEnd4b length)

def next (offset : ℕ) : Checked (Option StructureItem × ℕ) :=
  match _hread : readBe32 (dt.structs.drop offset) with
  | none => .error .outOfBounds
  | some value =>
    match FdtToken.ofU32 value with
    | .beginNode => (dt.nextNode (offset + 4)).map fun (item, offset) => (some item, offset)
    | .endNode => .ok (some .endNode, offset + 4)
    | .prop => (dt.nextProp (offset + 4)).map fun (item, offset) => (some item, offset)
    | .nop => next (offset + 4)
    | .endTree => .ok (none, offset + 4)
    | .unknown _ => .error .explicit
termination_by dt.structs.length - offset
decreasing_by
  have := four_le_of_readBe32 _hread
  rw [length_drop] at this
  omega

def iterFrom : (rounds : ℕ) → (offset : ℕ) → Checked (Option (List StructureItem))
  | 0, _ => .ok none
  | rounds + 1, offset => do
    match ← dt.next offset with
    | (none, _) => pure (some [])
    | (some item, offset) => (iterFrom rounds offset).map (Option.map (item :: ·))

def iterStructure (rounds : ℕ) : Checked (Option (List StructureItem)) := dt.iterFrom rounds 0

end DeviceTree

/-! ### Device trees and their encoding -/

abbrev DtName := { name : String // 0 ∉ utf8 name }

structure DtProperty where
  name : DtName
  data : List UInt8
  cells : name.val = "#address-cells" ∨ name.val = "#size-cells" → 4 ≤ data.length

inductive DtNode where
  | node (name : DtName) (properties : List DtProperty) (children : List DtNode)

inductive DtToken where
  | beginNode (name : DtName)
  | prop (property : DtProperty)
  | endNode

mutual

def DtNode.tokens : DtNode → List DtToken
  | .node name properties children =>
    .beginNode name :: (properties.map .prop ++ forestTokens children ++ [.endNode])

def DtNode.forestTokens : List DtNode → List DtToken
  | [] => []
  | t :: ts => t.tokens ++ forestTokens ts

end

def DtProperty.stdInterp (p : DtProperty) : Option StandardProperty :=
  if p.name.val = "#address-cells" then (readBe32 p.data).map .addressCells
  else if p.name.val = "#size-cells" then (readBe32 p.data).map .sizeCells
  else if p.name.val = "compatible" then some (.compatible p.data)
  else none

def DtToken.item : DtToken → StructureItem
  | .beginNode name => .startNode name.val
  | .prop p => .property p.name.val p.data p.stdInterp
  | .endNode => .endNode

def padding (n : ℕ) : List UInt8 := List.replicate ((4 - n % 4) % 4) 0

/-- The bytes encode the tokens, with any number of `Nop` tokens between them, with names of
properties at any offsets in the block of strings, and with anything behind the end of the tree. -/
inductive Flattened (strings : List UInt8) : List DtToken → List UInt8 → Prop where
  | endTree (rest) : Flattened strings [] (be32 0x09 ++ rest)
  | nop {tokens bytes} (h : Flattened strings tokens bytes) :
      Flattened strings tokens (be32 0x04 ++ bytes)
  | beginNode {tokens bytes} (name : DtName) (h : Flattened strings tokens bytes) :
      Flattened strings (.beginNode name :: tokens) (be32 0x01 ++
        (utf8 name.val ++ 0 :: (padding ((utf8 name.val).length + 1) ++ bytes)))
  | endNode {tokens bytes} (h : Flattened strings tokens bytes) :
      Flattened strings (.endNode :: tokens) (be32 0x02 ++ bytes)
  | prop {tokens bytes} (p : DtProperty) (nameOffset : ℕ) (rest : List UInt8)
      (hname : strings.drop nameOffset = utf8 p.name.val ++ 0 :: rest)
      (hoffset : nameOffset < 2 ^ 32) (hlength : p.data.length < 2 ^ 32)
      (h : Flattened strings tokens bytes) :
      Flattened strings (.prop p :: tokens) (be32 0x03 ++ (be32 p.data.length ++
        (be32 nameOffset ++ (p.data ++ (padding p.data.length ++ bytes)))))

/-! ### Decoding -/

lemma length_padding (n : ℕ) : n + (padding n).length = padEnd4b n := by
  rw [padding, length_replicate, padEnd4b]
  split_ifs <;> omega

lemma padEnd4b_mod (n : ℕ) : padEnd4b n % 4 = 0 := by
  rw [padEnd4b]
  split_ifs <;> omega

lemma padEnd4b_add {i : ℕ} (h : i % 4 = 0) (n : ℕ) : padEnd4b (i + n) = i + padEnd4b n := by
  simp only [padEnd4b]
  split_ifs <;> omega

namespace DeviceTree

variable {dt : DeviceTree} {offset : ℕ} {bytes : List UInt8}

structure At (dt : DeviceTree) (offset : ℕ) (bytes : List UInt8) : Prop where
  drop_eq : dt.structs.drop offset = bytes
  le_length : offset ≤ dt.structs.length
  mod_four : offset % 4 = 0

lemma At.append (xs : List UInt8) (h : dt.At offset (xs ++ bytes)) (hmod : xs.length % 4 = 0) :
    dt.At (offset + xs.length) bytes where
  drop_eq := drop_of_drop h.drop_eq
  le_length := add_length_le_of_drop h.drop_eq h.le_length
  mod_four := by
    have := h.mod_four
    omega

lemma At.readBe32 {n : ℕ} (hn : n < 2 ^ 32) (h : dt.At offset (be32 n ++ bytes)) :
    readBe32 (dt.structs.drop offset) = some n ∧ dt.At (offset + 4) bytes := by
  refine ⟨?_, h.append (be32 n) (by rw [length_be32])⟩
  rw [h.drop_eq, readBe32_append hn]

lemma At.readU32 {n : ℕ} (hn : n < 2 ^ 32) (h : dt.At offset (be32 n ++ bytes)) :
    readU32 dt.structs offset = .ok n ∧ dt.At (offset + 4) bytes := by
  obtain ⟨hread, hnext⟩ := h.readBe32 hn
  exact ⟨by rw [DeviceTree.readU32, hread], hnext⟩

lemma At.padded {xs : List UInt8} (h : dt.At offset (xs ++ (padding xs.length ++ bytes))) :
    slice dt.structs offset (offset + xs.length) = .ok xs ∧
      dt.At (offset + padEnd4b xs.length) bytes := by
  refine ⟨slice_of_drop h.drop_eq h.le_length, ?_⟩
  have hlen : (xs ++ padding xs.length).length = padEnd4b xs.length := by
    rw [length_append, length_padding]
  rw [← hlen]
  refine At.append _ ?_ (hlen ▸ padEnd4b_mod _)
  rwa [append_assoc]

lemma standardInterp_eq (p : DtProperty) :
    standardInterp p.name.val p.data = .ok p.stdInterp := by
  rw [standardInterp, DtProperty.stdInterp]
  split_ifs with haddr hsize
  · obtain ⟨n, hn⟩ := exists_readBe32 (p.cells (.inl haddr))
    rw [DeviceTree.readU32, drop_zero, hn]
    rfl
  · obtain ⟨n, hn⟩ := exists_readBe32 (p.cells (.inr hsize))
    rw [DeviceTree.readU32, drop_zero, hn]
    rfl
  · rfl
  · rfl

/-! ### One call of `next` -/

lemma next_of_readBe32 {value : ℕ} (h : readBe32 (dt.structs.drop offset) = some value) :
    dt.next offset = match FdtToken.ofU32 value with
      | .beginNode => (dt.nextNode (offset + 4)).map fun (item, offset) => (some item, offset)
      | .endNode => .ok (some .endNode, offset + 4)
      | .prop => (dt.nextProp (offset + 4)).map fun (item, offset) => (some item, offset)
      | .nop => dt.next (offset + 4)
      | .endTree => .ok (none, offset + 4)
      | .unknown _ => .error .explicit := by
  rw [next]
  split <;> simp_all

lemma At.next_beginNode (name : DtName)
    (h : dt.At offset (be32 0x01 ++
      (utf8 name.val ++ 0 :: (padding ((utf8 name.val).length + 1) ++ bytes)))) :
    ∃ offset', dt.next offset = .ok (some (.startNode name.val), offset') ∧
      dt.At offset' bytes := by
  obtain ⟨hread, hname⟩ := h.readBe32 (by norm_num)
  have hend : nulEnd dt.structs (offset + 4) = offset + 4 + (utf8 name.val).length :=
    nulEnd_of_drop hname.drop_eq name.property
  -- the zero behind the name belongs to the bytes that are padded
  have hpad : dt.At (offset + 4) ((utf8 name.val ++ [0]) ++
      (padding (utf8 name.val ++ [0]).length ++ bytes)) := by
    simpa using hname
  refine ⟨_, ?_, hpad.padded.2⟩
  have hnode : dt.nextNode (offset + 4) =
      .ok (.startNode name.val, offset + 4 + padEnd4b (utf8 name.val ++ [0]).length) := by
    rw [nextNode, hend, slice_of_drop hname.drop_eq hname.le_length, length_append,
      ← padEnd4b_add hname.mod_four]
    change (expectUtf8 (utf8 name.val) >>= _ : Checked _) = _
    rw [expectUtf8, fromUtf8_utf8]
    rfl
  rw [next_of_readBe32 hread]
  change (dt.nextNode (offset + 4)).map _ = _
  rw [hnode]
  rfl

lemma At.next_prop (p : DtProperty) {nameOffset : ℕ} {rest : List UInt8}
    (hname : dt.strings.drop nameOffset = utf8 p.name.val ++ 0 :: rest)
    (hoffs : nameOffset < 2 ^ 32) (hleng : p.data.length < 2 ^ 32)
    (h : dt.At offset (be32 0x03 ++ (be32 p.data.length ++ (be32 nameOffset ++
      (p.data ++ (padding p.data.length ++ bytes)))))) :
    ∃ offset', dt.next offset = .ok (some (DtToken.prop p).item, offset') ∧
      dt.At offset' bytes := by
  obtain ⟨hread, hlen⟩ := h.readBe32 (by norm_num)
  obtain ⟨hreadLen, hoff⟩ := hlen.readU32 hleng
  obtain ⟨hreadOff, hdata⟩ := hoff.readU32 hoffs
  obtain ⟨hsli, hrest⟩ := hdata.padded
  have hle : nameOffset ≤ dt.strings.length := by
    by_contra hgt
    rw [drop_eq_nil_of_le (by omega)] at hname
    simp at hname
  have hend := nulEnd_of_drop hname p.name.property
  have hprop : dt.nextProp (offset + 4) =
      .ok ((DtToken.prop p).item, offset + 4 + 8 + padEnd4b p.data.length) := by
    rw [nextProp, hreadLen]
    change (DeviceTree.readU32 dt.structs (offset + 4 + 4) >>= _ : Checked _) = _
    rw [hreadOff]
    change (slice dt.strings nameOffset (nulEnd dt.strings nameOffset) >>= _ : Checked _) = _
    rw [hend, slice_of_drop hname hle]
    change (expectUtf8 (utf8 p.name.val) >>= _ : Checked _) = _
    rw [expectUtf8, fromUtf8_utf8]
    change (slice dt.structs (offset + 4 + 4 + 4) (offset + 4 + 4 + 4 + p.data.length) >>= _ :
      Checked _) = _
    rw [hsli]
    change (standardInterp p.name.val p.data >>= _ : Checked _) = _
    rw [standardInterp_eq]
    rfl
  refine ⟨_, ?_, hrest⟩
  rw [next_of_readBe32 hread]
  change (dt.nextProp (offset + 4)).map _ = _
  rw [hprop]
  rfl

/-! ### The whole structure -/

def step (dt : DeviceTree) (offset : ℕ) : Checked (Option (StructureItem × ℕ)) :=
  (dt.next offset).map fun (item, offset) => item.map (·, offset)

lemma step_of_next {item : Option StructureItem} {offset' : ℕ}
    (h : dt.next offset = .ok (item, offset')) : dt.step offset = .ok (item.map (·, offset')) := by
  rw [step, h]
  rfl

lemma exists_next_of_step {r : Option (StructureItem × ℕ)} (h : dt.step offset = .ok r) :
    ∃ item offset', dt.next offset = .ok (item, offset') ∧ item.map (·, offset') = r := by
  rw [step] at h
  cases hnext : dt.next offset with
  | error e => cases hnext ▸ h
  | ok x =>
    rw [hnext] at h
    exact ⟨x.1, x.2, rfl, Except.ok.inj h⟩

lemma next_of_step {item : StructureItem} {offset' : ℕ}
    (h : dt.step offset = .ok (some (item, offset'))) :
    dt.next offset = .ok (some item, offset') := by
  obtain ⟨item, o, hnext, heq⟩ := exists_next_of_step h
  cases item <;> cases heq
  exact hnext

lemma yields_of_flattened {tokens : List DtToken} (h : Flattened dt.strings tokens bytes)
    (hat : dt.At offset bytes) : Yields dt.step offset (tokens.map DtToken.item) := by
  induction h generalizing offset with
  | endTree rest =>
    obtain ⟨hread, -⟩ := hat.readBe32 (by norm_num)
    exact .done (step_of_next (next_of_readBe32 hread))
  | nop _ ih =>
    obtain ⟨hread, hrest⟩ := hat.readBe32 (by norm_num)
    have hnext : dt.next offset = dt.next (offset + 4) := next_of_readBe32 hread
    exact (ih hrest).congr (by rw [step, hnext, step])
  | beginNode name _ ih =>
    obtain ⟨offset', hnext, hrest⟩ := hat.next_beginNode name
    exact .more (step_of_next hnext) (ih hrest)
  | endNode _ ih =>
    obtain ⟨hread, hrest⟩ := hat.readBe32 (by norm_num)
    exact .more (step_of_next (next_of_readBe32 hread)) (ih hrest)
  | prop p nameOffset rest hname hoff hlen _ ih =>
    obtain ⟨offset', hnext, hrest⟩ := hat.next_prop p hname hoff hlen
    exact .more (step_of_next hnext) (ih hrest)

lemma iterFrom_of_yields {items : List StructureItem} (h : Yields dt.step offset items)
    {rounds : ℕ} (hrds : items.length ≤ rounds) :
    dt.iterFrom (rounds + 1) offset = .ok (some items) := by
  induction h generalizing rounds with
  | done hstep =>
    obtain ⟨item, offset', hnext, hitem⟩ := exists_next_of_step hstep
    rw [iterFrom, hnext, Option.map_eq_none_iff.mp hitem]
    rfl
  | more hstep _ ih =>
    obtain ⟨rounds, rfl⟩ := Nat.exists_eq_add_of_lt (Nat.zero_lt_of_lt hrds)
    rw [zero_add] at hrds ⊢
    rw [iterFrom, next_of_step hstep]
    change (dt.iterFrom (rounds + 1) _).map _ = _
    rw [ih (le_of_succ_le_succ hrds)]
    rfl

/-- Iterating over the structure of a flattened device tree yields the items of the tree in document
order and ends, as soon as there is one round more than there are items. -/
theorem iterStructure_flattened (dt : DeviceTree) (t : DtNode)
    (h : Flattened dt.strings t.tokens dt.structs) (rounds : ℕ)
    (hrounds : t.tokens.length < rounds) :
    dt.iterStructure rounds = .ok (some (t.tokens.map DtToken.item)) := by
  obtain ⟨rounds, rfl⟩ := exists_eq_succ_of_ne_zero (ne_of_gt (zero_lt_of_lt hrounds))
  refine iterFrom_of_yields (yields_of_flattened h ⟨drop_zero, zero_le _, rfl⟩) ?_
  rw [length_map]
  exact le_of_lt_succ hrounds

def sampleTree : DtNode :=
  .node ⟨"", by decide⟩ [⟨⟨"#size-cells", by decide⟩, [0, 0, 0, 1], by decide⟩]
    [.node ⟨"cpu", by decide⟩ [] []]

/-- The sample tree with a `Nop` in front of its child. -/
theorem iterStructure_flattened_sample :
    ∃ dt : DeviceTree, Flattened dt.strings sampleTree.tokens dt.structs ∧
      dt.iterStructure 6 = .ok (some [.startNode "",
        .property "#size-cells" [0, 0, 0, 1] (some (.sizeCells 1)), .startNode "cpu", .endNode,
        .endNode]) := by
  have h : Flattened (utf8 "#size-cells" ++ [0]) sampleTree.tokens _ :=
    .beginNode _ (.prop _ 0 [] rfl (by decide) (by decide) (.nop (.beginNode _ (.endNode
      (.endNode (.endTree []))))))
  exact ⟨⟨_, _⟩, h, iterStructure_flattened ⟨_, _⟩ sampleTree h 6 (by decide)⟩

end DeviceTree

end Kernel.Ds
