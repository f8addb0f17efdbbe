import Mathlib.Data.List.TakeWhile
import Kernel.Fs.Fat.Basic

/-!
# Directory entries

The parts of a long name stand in front of its entry, the last part first, with 13 units each, and
the units behind the end are all ones. `dir_entry_stream` takes the bytes up to the first `0xff`, so
a name with such a byte loses the rest of its part.
-/

namespace Kernel.Fs.Fat

open Core Memory Storage

abbrev EntryBytes := Vector UInt8 32

def unit (low high : UInt8) : BitVec 16 := high.toBitVec ++ low.toBitVec

def DirEntry.ofBytes (b : EntryBytes) : DirEntry where
  shortName := .ofFn fun i => b[i.val]
  attributes := b[11].toBitVec
  clusterNumLo := unit b[26] b[27]
  fileSize := unit b[30] b[31] ++ unit b[28] b[29]

/-- What `copy_bytes` returns for an entry and for a place in the table. -/
structure DirectoryReader where
  params : VolumeParams
  blockSize : ℕ
  entry : (address offset : ℕ) → Checked (Except StorageError EntryBytes)
  fat : ℕ → Checked (Except StorageError (BitVec 16))

open DirectoryReader

/-- The state of the stream, and what it has yielded. -/
structure DirectoryState where
  source : DirectorySource
  offset : ℕ
  name : List (BitVec 16)
  yielded : List (Except Error LongDirEntry)

def arrayChunks : List UInt8 → List (BitVec 16)
  | low :: high :: rest => unit low high :: arrayChunks rest
  | _ => []

def nameBytes (b : EntryBytes) : List UInt8 :=
  (List.range' 1 10 ++ List.range' 14 12 ++ List.range' 28 4).map fun i => b.toList.getD i 0

def longName (b : EntryBytes) : List (BitVec 16) := arrayChunks ((nameBytes b).takeWhile (· ≠ 0xff))

def popTerminator (name : List (BitVec 16)) : List (BitVec 16) :=
  if name.getLast? = some 0 then name.dropLast else name

namespace DirectoryReader

variable (r : DirectoryReader)

def computeBlockAddr : DirectorySource → ℕ
  | .direct a => a
  | .clusters i => r.params.sectorForCluster i

def sizeOfSegment : DirectorySource → ℕ
  | .direct _ => r.blockSize
  | .clusters _ => r.params.bytesPerCluster

def nextSource : DirectorySource → Checked (Except StorageError DirectorySource)
  | .direct a => do
    let a ← checkedAdd a 1
    pure (.ok (.direct a))
  | .clusters i => do
    if i.toNat * 2 < 2 ^ 16 then
      let next ← r.fat (i.toNat * 2)
      pure (next.map .clusters)
    else .error .overflow

def advance (source : DirectorySource) (offset : ℕ) :
    Checked (Except StorageError (DirectorySource × ℕ)) :=
  if offset + 32 < r.sizeOfSegment source then pure (.ok (source, offset + 32))
  else do
    let next ← r.nextSource source
    pure (next.map (·, 0))

/-- One round of the loop. The stream has ended if the result says so. -/
def step (s : DirectoryState) : Checked (DirectoryState × Bool) := do
  match ← r.entry (r.computeBlockAddr s.source) s.offset with
  | .error e =>
    pure ({ s with
      name := [], yielded := s.yielded ++ [.error (.storage "read directory entry" e)] }, false)
  | .ok b =>
    match ← r.advance s.source s.offset with
    | .error e =>
      pure ({ s with
        offset := 0, name := [],
        yielded := s.yielded ++ [.error (.storage "read next cluster in FAT" e)] }, false)
    | .ok (source, offset) =>
      if b[0] = 0 then pure ({ s with source, offset }, true)
      else if b[11] = 0x0f then
        pure ({ s with source, offset, name := longName b ++ s.name }, false)
      else
        pure (⟨source, offset, [], s.yielded ++ [.ok ⟨.ofBytes b, popTerminator s.name⟩]⟩, false)

end DirectoryReader

/-- The stream after a number of rounds. The answers of the storage may change from round to
round. -/
def runDirectory (readers : ℕ → DirectoryReader) :
    ℕ → DirectoryState → Checked (DirectoryState × Bool)
  | 0, s => pure (s, false)
  | rounds + 1, s => do
    let (s, ended) ← (readers 0).step s
    if ended then pure (s, true) else runDirectory (fun k => readers (k + 1)) rounds s

/-! ### Long names -/

def low (u : BitVec 16) : UInt8 := .ofBitVec (u.setWidth 8)

def high (u : BitVec 16) : UInt8 := .ofBitVec (u.extractLsb' 8 8)

def leBytes (u : BitVec 16) : List UInt8 := [low u, high u]

structure IsLongEntry (b : EntryBytes) (part : List (BitVec 16)) : Prop where
  first_ne : b[0] ≠ 0
  attributes_eq : b[11] = 0x0f
  nameBytes_eq : nameBytes b = part.flatMap leBytes

/-- The last part has a terminator and is filled up, unless the name fills it. -/
def lastPart (rest : List (BitVec 16)) : List (BitVec 16) :=
  if rest.length = 13 then rest else rest ++ 0 :: List.replicate (12 - rest.length) 0xffff

/-- A long name is stored in parts of 13 units, the last one first. -/
def StoresName (name : List (BitVec 16)) (bs : List EntryBytes) : Prop :=
  ∃ (full : List (List (BitVec 16))) (rest : List (BitVec 16)),
    name = full.flatten ++ rest ∧ (∀ part ∈ full, part.length = 13) ∧
    1 ≤ rest.length ∧ rest.length ≤ 13 ∧
    List.Forall₂ IsLongEntry bs (lastPart rest :: full.reverse)

/-- Neither byte of the unit is taken for the end of the name. -/
def Survives (u : BitVec 16) : Prop := low u ≠ 0xff ∧ high u ≠ 0xff

instance : DecidablePred Survives := fun _ => inferInstanceAs (Decidable (_ ∧ _))

namespace DirectoryReader

variable (r : DirectoryReader) (table : BitVec 16 → BitVec 16)

/-- The position behind an entry, if the table leads from the cluster `i` to `table i`. -/
def after (p : DirectorySource × ℕ) : DirectorySource × ℕ :=
  if p.2 + 32 < r.sizeOfSegment p.1 then (p.1, p.2 + 32)
  else (match p.1 with
    | .direct a => .direct (a + 1)
    | .clusters i => .clusters (table i), 0)

/-- The position behind an entry can be computed without an overflow. -/
def Passes (p : DirectorySource × ℕ) : Prop :=
  p.2 + 32 < r.sizeOfSegment p.1 ∨
    match p.1 with
    | .direct a => a + 1 < 2 ^ 64
    | .clusters i => i.toNat * 2 < 2 ^ 16

def Crosses : DirectorySource × ℕ → ℕ → Prop
  | _, 0 => True
  | p, n + 1 => r.Passes p ∧ Crosses (r.after table p) n

def Stores : DirectorySource × ℕ → List EntryBytes → Prop
  | _, [] => True
  | p, b :: bs => r.entry (r.computeBlockAddr p.1) p.2 = .ok (.ok b) ∧ Stores (r.after table p) bs

def HasTable : Prop :=
  ∀ i : BitVec 16, i.toNat * 2 < 2 ^ 16 → r.fat (i.toNat * 2) = .ok (.ok (table i))

end DirectoryReader

/-! ### The parts of a name -/

variable {b : EntryBytes} {bs : List EntryBytes} {part name : List (BitVec 16)}
  {parts : List (List (BitVec 16))}

lemma unit_low_high (u : BitVec 16) : unit (low u) (high u) = u := by
  rw [unit, low, high, UInt8.toBitVec_ofBitVec, UInt8.toBitVec_ofBitVec]
  ext i hi
  rw [BitVec.getElem_append]
  split_ifs with hlt
  · simp [BitVec.getLsbD_eq_getElem hi]
  · have hadd : 8 + (i - 8) = i := by omega
    simp [hadd, BitVec.getLsbD_eq_getElem hi]

lemma arrayChunks_takeWhile (part : List (BitVec 16)) :
    arrayChunks ((part.flatMap leBytes).takeWhile (· ≠ 0xff)) = part.takeWhile Survives := by
  induction part with
  | nil => rfl
  | cons u part ih =>
    rw [List.flatMap_cons, leBytes, List.cons_append, List.cons_append, List.nil_append,
      List.takeWhile_cons, List.takeWhile_cons, List.takeWhile_cons]
    by_cases hlow : low u = 0xff
    · simp [hlow, Survives, arrayChunks]
    · by_cases hhigh : high u = 0xff
      · simp [hlow, hhigh, Survives, arrayChunks]
      · rw [if_pos (decide_eq_true hlow), if_pos (decide_eq_true hhigh), arrayChunks,
          unit_low_high, ih, if_pos (decide_eq_true ⟨hlow, hhigh⟩)]

lemma IsLongEntry.longName_eq (h : IsLongEntry b part) : longName b = part.takeWhile Survives := by
  rw [longName, h.nameBytes_eq, arrayChunks_takeWhile]

lemma survives_unit {a b : UInt8} (ha : a ≠ 0xff) (hb : b ≠ 0xff) : Survives (unit a b) := by
  have hlow : low (unit a b) = a := congrArg UInt8.ofBitVec BitVec.setWidth_append_eq_right
  have hhigh : high (unit a b) = b := congrArg UInt8.ofBitVec BitVec.extractLsb'_append_eq_left
  exact ⟨hlow.symm ▸ ha, hhigh.symm ▸ hb⟩

lemma survives_of_mem_arrayChunks (bytes : List UInt8) (h : ∀ b ∈ bytes, b ≠ 0xff) :
    ∀ u ∈ arrayChunks bytes, Survives u := by
  fun_induction arrayChunks bytes with
  | case1 low high rest ih =>
    intro u hu
    obtain rfl | hu := List.mem_cons.mp hu
    · exact survives_unit (h low (by simp)) (h high (by simp))
    · exact ih (fun b hb => h b (by simp [hb])) u hu
  | case2 => nofun

variable {u : BitVec 16}

lemma survives_of_mem_longName (h : u ∈ longName b) : Survives u := by
  refine survives_of_mem_arrayChunks _ (fun b hb => ?_) u h
  have hne := List.mem_takeWhile_imp hb
  exact of_decide_eq_true hne

def assembled (parts : List (List (BitVec 16))) : List (BitVec 16) :=
  (parts.reverse.map (List.takeWhile Survives)).flatten

lemma survives_of_mem_assembled (h : u ∈ assembled parts) : Survives u := by
  obtain ⟨part, hpart, hu⟩ := List.mem_flatten.mp h
  obtain ⟨part, -, rfl⟩ := List.mem_map.mp hpart
  have hs := List.mem_takeWhile_imp hu
  exact of_decide_eq_true hs

variable {rest : List (BitVec 16)}

lemma takeWhile_lastPart (h : ∀ u ∈ rest, Survives u) :
    (lastPart rest).takeWhile Survives = rest ++ if rest.length = 13 then [] else [0] := by
  rw [lastPart]
  split_ifs with h13
  · rw [List.append_nil, List.takeWhile_eq_self_iff]
    exact fun u hu => decide_eq_true (h u hu)
  · rw [List.takeWhile_append_of_pos fun u hu => decide_eq_true (h u hu)]
    congr 1
    rcases 12 - rest.length with _ | n
    · rfl
    · rw [List.replicate_succ]
      rfl

variable {full : List (List (BitVec 16))}

lemma assembled_eq
    (h : ∀ u ∈ full.flatten ++ rest, Survives u) :
    assembled (lastPart rest :: full.reverse) =
      full.flatten ++ rest ++ if rest.length = 13 then [] else [0] := by
  have hfull : full.map (List.takeWhile Survives) = full.map id := by
    refine List.map_congr_left fun part hpart => List.takeWhile_eq_self_iff.mpr fun u hu => ?_
    exact decide_eq_true (h u (List.mem_append_left _ (List.mem_flatten.mpr ⟨part, hpart, hu⟩)))
  rw [assembled, List.reverse_cons, List.reverse_reverse, List.map_append, hfull, List.map_id,
    List.flatten_append, List.map_singleton, List.flatten_singleton,
    takeWhile_lastPart fun u hu => h u (List.mem_append_right _ hu), List.append_assoc]

lemma mem_of_mem_popTerminator (h : u ∈ popTerminator name) : u ∈ name := by
  rw [popTerminator] at h
  split_ifs at h
  · exact List.mem_of_mem_dropLast h
  · exact h

lemma popTerminator_append {more : List (BitVec 16)} (h : 0 ∉ name) :
    popTerminator (name ++ more) = name ↔ more = [] ∨ more = [0] := by
  rcases List.eq_nil_or_concat' more with rfl | ⟨more, u, rfl⟩
  · rw [List.append_nil, popTerminator, if_neg fun hlast => h (List.mem_of_getLast? hlast)]
    simp
  · rw [← List.append_assoc, popTerminator, List.getLast?_concat]
    by_cases hu : u = 0#16
    · simp [hu]
    · have hne : more ++ [u] ≠ [0#16] := fun h => hu (by simpa using congrArg List.getLast? h)
      simp [hu, hne]

lemma popTerminator_assembled_iff {pending : List (BitVec 16)}
    (hname : name = full.flatten ++ rest) (hfull : ∀ part ∈ full, part.length = 13)
    (hpos : 1 ≤ rest.length) (hlen : rest.length ≤ 13) (h0 : 0 ∉ name)
    (hpend : ∀ u ∈ pending, Survives u) :
    popTerminator (assembled (lastPart rest :: full.reverse) ++ pending) = name ↔
      (∀ u ∈ name, Survives u) ∧ (pending = [] ∨ pending = [0] ∧ 13 ∣ name.length) := by
  have hdvd : 13 ∣ name.length ↔ rest.length = 13 := by
    have hsum : full.flatten.length = 13 * full.length := by
      rw [List.length_flatten, List.map_congr_left hfull, List.map_const', List.sum_replicate,
        smul_eq_mul, mul_comm]
    rw [hname, List.length_append, hsum]
    omega
  constructor
  · intro h
    have hall : ∀ u ∈ name, Survives u := by
      intro u hu
      rw [← h] at hu
      rcases List.mem_append.mp (mem_of_mem_popTerminator hu) with hu | hu
      · exact survives_of_mem_assembled hu
      · exact hpend u hu
    refine ⟨hall, ?_⟩
    rw [assembled_eq (hname ▸ hall), ← hname, List.append_assoc, popTerminator_append h0] at h
    rw [hdvd]
    split_ifs at h with h13 <;> simp_all
  · rintro ⟨hall, h⟩
    rw [assembled_eq (hname ▸ hall), ← hname, List.append_assoc, popTerminator_append h0]
    rw [hdvd] at h
    split_ifs with h13 <;> simp_all

/-! ### The stream -/

variable {r : DirectoryReader} {table : BitVec 16 → BitVec 16} {s s' : DirectoryState}
  {p : DirectorySource × ℕ} {rounds : ℕ} {ended : Bool} {short : EntryBytes}

namespace DirectoryReader

lemma HasTable.advance_of_passes (h : r.HasTable table) (hp : r.Passes p) :
    r.advance p.1 p.2 = .ok (.ok (r.after table p)) := by
  obtain ⟨source, offset⟩ := p
  rw [advance, after]
  split_ifs with hlt
  · rfl
  · have hpass := hp.resolve_left hlt
    cases source with
    | direct a =>
      rw [nextSource, checkedAdd, if_pos hpass]
      rfl
    | clusters i =>
      rw [nextSource, if_pos hpass, h i hpass]
      rfl

lemma advance_of_not_passes (hp : ¬ r.Passes p) : r.advance p.1 p.2 = .error .overflow := by
  obtain ⟨source, offset⟩ := p
  obtain ⟨hlt, hpass⟩ := not_or.mp hp
  rw [advance, if_neg hlt]
  cases source with
  | direct a =>
    rw [nextSource, checkedAdd, if_neg hpass]
    rfl
  | clusters i =>
    rw [nextSource, if_neg hpass]
    rfl

lemma step_of_advance (hent : r.entry (r.computeBlockAddr s.source) s.offset = .ok (.ok b))
    (hadv : r.advance s.source s.offset = .ok (.ok p)) :
    r.step s = .ok (if b[0] = 0 then ({ s with source := p.1, offset := p.2 }, true)
      else if b[11] = 0x0f then
        ({ s with source := p.1, offset := p.2, name := longName b ++ s.name }, false)
      else (⟨p.1, p.2, [], s.yielded ++ [.ok ⟨.ofBytes b, popTerminator s.name⟩]⟩, false)) := by
  rw [step, hent]
  change (r.advance s.source s.offset >>= _) = _
  rw [hadv]
  change (if b[0] = 0 then _ else _) = _
  split_ifs <;> rfl

lemma step_of_panic {e : Panic} (hent : r.entry (r.computeBlockAddr s.source) s.offset =
      .ok (.ok b)) (hadv : r.advance s.source s.offset = .error e) :
    r.step s = .error e := by
  rw [step, hent]
  change (r.advance s.source s.offset >>= _) = _
  rw [hadv]
  rfl

lemma step_of_long (hent : r.entry (r.computeBlockAddr s.source) s.offset = .ok (.ok b))
    (hadv : r.advance s.source s.offset = .ok (.ok p)) (h : IsLongEntry b part) :
    r.step s = .ok ({ s with
      source := p.1, offset := p.2, name := part.takeWhile Survives ++ s.name }, false) := by
  rw [step_of_advance hent hadv, if_neg h.first_ne, if_pos h.attributes_eq, h.longName_eq]

end DirectoryReader

lemma runDirectory_of_step (hstep : r.step s = .ok (s', false)) :
    runDirectory (fun _ => r) (rounds + 1) s = runDirectory (fun _ => r) rounds s' := by
  rw [runDirectory, hstep]
  rfl

lemma runDirectory_of_panic {e : Panic} (hstep : r.step s = .error e) :
    runDirectory (fun _ => r) (rounds + 1) s = .error e := by
  rw [runDirectory, hstep]
  rfl

lemma runDirectory_of_long (htab : r.HasTable table) (hlong : List.Forall₂ IsLongEntry bs parts)
    (hfst : short[0] ≠ 0) (hattr : short[11] ≠ 0x0f)
    (hsto : r.Stores table (s.source, s.offset) (bs ++ [short])) :
    (r.Crosses table (s.source, s.offset) (bs.length + 1) →
      ∃ s', runDirectory (fun _ => r) (bs.length + 1) s = .ok (s', false) ∧
        s'.yielded = s.yielded ++
          [.ok ⟨.ofBytes short, popTerminator (assembled parts ++ s.name)⟩]) ∧
    (¬ r.Crosses table (s.source, s.offset) (bs.length + 1) →
      runDirectory (fun _ => r) (bs.length + 1) s = .error .overflow) := by
  induction hlong generalizing s with
  | nil =>
    obtain ⟨hent, -⟩ := hsto
    constructor
    · rintro ⟨hpass, -⟩
      have hstep := step_of_advance hent (htab.advance_of_passes hpass)
      rw [if_neg hfst, if_neg hattr] at hstep
      exact ⟨_, runDirectory_of_step hstep, rfl⟩
    · intro hcro
      refine runDirectory_of_panic (step_of_panic hent ?_)
      exact advance_of_not_passes fun hpass => hcro ⟨hpass, trivial⟩
  | @cons b part bs parts hb hlong ih =>
    obtain ⟨hent, hsto⟩ := hsto
    by_cases hpass : r.Passes (s.source, s.offset)
    · have hadv := htab.advance_of_passes hpass
      have hstep := step_of_long hent hadv hb
      have hname : assembled (part :: parts) ++ s.name =
          assembled parts ++ (part.takeWhile Survives ++ s.name) := by
        simp [assembled]
      rw [List.length_cons, runDirectory_of_step hstep, hname]
      refine ⟨fun hcro => (ih hsto).1 hcro.2, fun hcro => (ih hsto).2 fun h => ?_⟩
      exact hcro ⟨hpass, h⟩
    · refine ⟨fun hcro => absurd hcro.1 hpass, fun _ => runDirectory_of_panic ?_⟩
      exact step_of_panic hent (advance_of_not_passes hpass)

lemma survives_of_step (hstep : r.step s = .ok (s', ended)) (h : ∀ u ∈ s.name, Survives u) :
    ∀ u ∈ s'.name, Survives u := by
  obtain ⟨entry, -, hstep⟩ := bind_eq_ok.mp hstep
  cases entry with
  | error e =>
    cases hstep
    exact nofun
  | ok b =>
    obtain ⟨next, -, hstep⟩ := bind_eq_ok.mp hstep
    cases next with
    | error e =>
      cases hstep
      exact nofun
    | ok p =>
      change (if b[0] = 0 then _ else _) = _ at hstep
      split_ifs at hstep
      · cases hstep
        exact h
      · cases hstep
        exact fun u hu => (List.mem_append.mp hu).elim survives_of_mem_longName (h u)
      · cases hstep
        exact nofun

lemma survives_of_runDirectory (hrun : runDirectory (fun _ => r) rounds s = .ok (s', ended))
    (h : ∀ u ∈ s.name, Survives u) : ∀ u ∈ s'.name, Survives u := by
  induction rounds generalizing s with
  | zero =>
    cases hrun
    exact h
  | succ rounds ih =>
    obtain ⟨⟨t, stopped⟩, hstep, hrun⟩ := bind_eq_ok.mp hrun
    cases stopped with
    | true =>
      cases hrun
      exact survives_of_step hstep h
    | false => exact ih hrun (survives_of_step hstep h)

/-- The stream yields a short entry with the long name in front of it iff no byte of the name is
`0xff`, no parts of another name are left in front of it, and the table is not read for a cluster
from `0x8000` on. -/
theorem yields_longName_iff {source : DirectorySource}
    (hrun : runDirectory (fun _ => r) rounds ⟨source, 0, [], []⟩ = .ok (s, false))
    (htable : r.HasTable table) (hname : StoresName name bs) (h0 : 0 ∉ name)
    (hfirst : short[0] ≠ 0) (hattr : short[11] ≠ 0x0f)
    (hstores : r.Stores table (s.source, s.offset) (bs ++ [short])) :
    (∃ s', runDirectory (fun _ => r) (bs.length + 1) s = .ok (s', false) ∧
        s'.yielded = s.yielded ++ [.ok ⟨.ofBytes short, name⟩]) ↔
      (∀ u ∈ name, Survives u) ∧ (s.name = [] ∨ s.name = [0] ∧ 13 ∣ name.length) ∧
        r.Crosses table (s.source, s.offset) (bs.length + 1) := by
  obtain ⟨full, rest, hspl, hfull, hpos, hlen, hlong⟩ := hname
  obtain ⟨hyld, hpan⟩ := runDirectory_of_long htable hlong hfirst hattr hstores
  rw [← and_assoc, ← popTerminator_assembled_iff hspl hfull hpos hlen h0
    (survives_of_runDirectory hrun nofun)]
  constructor
  · rintro ⟨s', hs', hyie⟩
    by_cases hcro : r.Crosses table (s.source, s.offset) (bs.length + 1)
    · obtain ⟨t, ht, htail⟩ := hyld hcro
      rw [ht] at hs'
      cases hs'
      rw [htail, List.append_cancel_left_eq] at hyie
      simp only [List.cons.injEq, Except.ok.injEq, LongDirEntry.mk.injEq] at hyie
      exact ⟨hyie.1.2, hcro⟩
    · rw [hpan hcro] at hs'
      cases hs'
  · rintro ⟨hpop, hcro⟩
    obtain ⟨s', hs', hyie⟩ := hyld hcro
    exact ⟨s', hs', hpop ▸ hyie⟩

/-- An entry with the only part of a name of one unit. -/
def oneUnitEntry (u : BitVec 16) : EntryBytes :=
  #v[0x41, low u, high u, 0, 0, 0xff, 0xff, 0xff, 0xff, 0xff, 0xff, 0x0f, 0, 0,
    0xff, 0xff, 0xff, 0xff, 0xff, 0xff, 0xff, 0xff, 0xff, 0xff, 0xff, 0xff, 0, 0,
    0xff, 0xff, 0xff, 0xff]

def shortEntry : EntryBytes := .replicate 32 0x20

def oneUnitDirectory (u : BitVec 16) : DirectoryReader where
  params := ⟨1, 65, 65, 8, 512⟩
  blockSize := 512
  entry _ offset := .ok (.ok (if offset = 0 then oneUnitEntry u else shortEntry))
  fat _ := .ok (.ok 0xffff)

lemma storesName_oneUnit (u : BitVec 16) : StoresName [u] [oneUnitEntry u] :=
  ⟨[], [u], rfl, nofun, le_rfl, Nat.le_of_ble_eq_true rfl,
    .cons ⟨ne_of_beq_false rfl, rfl, rfl⟩ .nil⟩

lemma oneUnitDirectory_stores (u : BitVec 16) :
    (oneUnitDirectory u).Stores (fun _ => 0xffff) (.direct 65, 0) [oneUnitEntry u, shortEntry] :=
  ⟨rfl, rfl, trivial⟩

/-- A file with the long name `A` is listed with this name. -/
theorem yields_longName_letter :
    (∀ u ∈ [0x41#16], Survives u) ∧
      ∃ s', runDirectory (fun _ => oneUnitDirectory 0x41) 2 ⟨.direct 65, 0, [], []⟩ =
          .ok (s', false) ∧
        s'.yielded = [.ok ⟨.ofBytes shortEntry, [0x41]⟩] := by
  have hsur : ∀ u ∈ [0x41#16], Survives u := List.forall_mem_singleton.mpr (by decide)
  have hrun : runDirectory (fun _ => oneUnitDirectory 0x41) 0 ⟨.direct 65, 0, [], []⟩ =
      .ok (⟨.direct 65, 0, [], []⟩, false) := rfl
  have hcro : (oneUnitDirectory 0x41).Crosses (fun _ => 0xffff) (.direct 65, 0) 2 :=
    ⟨.inl (by decide), .inl (by decide), trivial⟩
  have h := yields_longName_iff hrun (fun _ _ => rfl) (storesName_oneUnit 0x41) (by decide)
    (ne_of_beq_false rfl) (ne_of_beq_false rfl) (oneUnitDirectory_stores 0x41)
  exact ⟨hsur, h.mpr ⟨hsur, .inl rfl, hcro⟩⟩

/-- The name `ÿ` has the byte `0xff`, and the file is listed without a long name. -/
theorem longName_lost :
    StoresName [0x00ff] [oneUnitEntry 0x00ff] ∧
      (oneUnitDirectory 0x00ff).Stores (fun _ => 0xffff) (.direct 65, 0)
        [oneUnitEntry 0x00ff, shortEntry] ∧
      (runDirectory (fun _ => oneUnitDirectory 0x00ff) 2 ⟨.direct 65, 0, [], []⟩).map
        (fun x => x.1.yielded) = .ok [.ok ⟨.ofBytes shortEntry, []⟩] :=
  ⟨storesName_oneUnit _, oneUnitDirectory_stores _, rfl⟩

end Kernel.Fs.Fat
