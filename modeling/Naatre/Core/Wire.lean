import Naatre.Core.Object
import Naatre.Lib.Codec
import Mathlib.Data.List.Lex

/-!
The canonical bytes of changesets and trees: `encode`, the strict `decode`,
and `validate` for trees (`naatre-core/src/changeset.rs`, `tree.rs`).

Here a value has the fields of the source: paths and names are strings, ids
are 32 bytes, sizes are 64-bit. `value` is the same changeset or tree as the
rest of the model keeps it.
-/

namespace Naatre

/-- A path string at its slashes. -/
def Path.ofText (s : String) : Path :=
  let parts := (s.toList.splitOn '/').map String.ofList
  ⟨parts.dropLast, parts.getLastD ""⟩

namespace Wire

open Lib

/-- `Id([u8; 32])`. -/
structure ObjectId where
  bytes : Bytes
  length_bytes : bytes.length = 32
  deriving DecidableEq

instance : Inhabited ObjectId := ⟨List.replicate 32 0, rfl⟩

/-- Ids compare by their bytes. -/
instance : LinearOrder ObjectId :=
  LinearOrder.lift' (fun i => i.bytes.map UInt8.toNat) fun i j h => by
    have hbytes := List.map_injective_iff.mpr (fun x y => UInt8.toNat_inj.mp) h
    cases i; cases j; cases hbytes; rfl

structure FileChange where
  path : String
  op : Op
  blob : Option ObjectId
  size : Option UInt64
  exec : Option Bool
  deriving DecidableEq

structure ConflictRep where
  path : String
  base : Option ObjectId
  baseExec : Bool
  sides : List ObjectId
  sidesExec : List Bool
  deleted : Bool
  deriving DecidableEq

structure Changeset where
  repoId : UInt64
  parents : List ObjectId
  author : String
  message : String
  timestampNs : UInt64
  changes : List FileChange
  conflicts : List ConflictRep
  deriving DecidableEq

structure TreeEntry where
  name : String
  kind : EntryKind
  object : ObjectId
  size : UInt64
  exec : Bool
  deriving DecidableEq

structure Tree where
  entries : List TreeEntry
  deriving DecidableEq

def FileChange.value (c : FileChange) : Naatre.FileChange ObjectId :=
  ⟨.ofText c.path, c.op, c.blob, c.size.map UInt64.toNat, c.exec⟩

def ConflictRep.value (rep : ConflictRep) : Naatre.ConflictRep ObjectId :=
  ⟨.ofText rep.path, rep.base, rep.baseExec, rep.sides, rep.sidesExec, rep.deleted⟩

def Changeset.value (cs : Changeset) : Naatre.Changeset ObjectId :=
  ⟨cs.repoId.toNat, cs.parents, cs.author, cs.message, cs.timestampNs.toNat,
    cs.changes.map (·.value), cs.conflicts.map (·.value)⟩

def TreeEntry.value (e : TreeEntry) : Naatre.TreeEntry ObjectId :=
  ⟨e.name, e.kind, e.object, e.size.toNat, e.exec⟩

def Tree.value (t : Tree) : Naatre.Tree ObjectId := ⟨t.entries.map (·.value)⟩

/-! ### Writing -/

def magicV1 : Bytes := utf8 "naatre-changeset" ++ [1]
def magicV2 : Bytes := utf8 "naatre-changeset" ++ [2]
def treeMagic : Bytes := utf8 "naatre-tree" ++ [1]

/-- `write_str`. -/
def writeStr (s : String) : Bytes := leBytes 8 s.utf8ByteSize ++ utf8 s

/-- `u8::from` of a bit. -/
def bit (b : Bool) : UInt8 := if b then 1 else 0

def opTag : Op → UInt8
  | .add => 0
  | .mod => 1
  | .del => 2

def kindTag : EntryKind → UInt8
  | .file => 0
  | .dir => 1

def FileChange.encode (c : FileChange) : Except CoreError Bytes :=
  if c.op ≠ .del then
    match c.blob, c.size, c.exec with
    | some blob, some size, some exec =>
        .ok (writeStr c.path ++ [opTag c.op] ++ blob.bytes ++ leBytes 8 size.toNat ++ [bit exec])
    | _, _, _ => .error .encodeMissingBlob
  else if c.blob.isSome ∨ c.size.isSome ∨ c.exec.isSome then .error .encodeMissingBlob
  else .ok (writeStr c.path ++ [opTag c.op])

/-- `conflict::has_exec`. -/
def ConflictRep.hasExec (rep : ConflictRep) : Bool := rep.baseExec || rep.sidesExec.any id

def ConflictRep.flags (rep : ConflictRep) : UInt8 :=
  bit rep.base.isSome ||| (bit rep.deleted <<< 1) ||| (bit rep.hasExec <<< 2)

/-- An id and, in a rep with exec bits, its own. -/
def writeSide (hasExec : Bool) (side : ObjectId × Bool) : Bytes :=
  side.1.bytes ++ if hasExec then [bit side.2] else []

def ConflictRep.encode (rep : ConflictRep) : Bytes :=
  writeStr rep.path ++ [rep.flags]
    ++ (match rep.base with
      | some base => writeSide rep.hasExec (base, rep.baseExec)
      | none => [])
    ++ leBytes 4 rep.sides.length
    ++ (rep.sides.zip rep.sidesExec).flatMap (writeSide rep.hasExec)

def encodeConflicts (conflicts : List ConflictRep) : Bytes :=
  if conflicts = [] then []
  else leBytes 4 conflicts.length ++ conflicts.flatMap (·.encode)

/-- What stands in front of the changes. -/
def Changeset.encodeHeader (cs : Changeset) : Bytes :=
  (if cs.conflicts = [] then magicV1 else magicV2)
    ++ leBytes 8 cs.repoId.toNat
    ++ [UInt8.ofNat cs.parents.length] ++ cs.parents.flatMap (·.bytes)
    ++ writeStr cs.author ++ writeStr cs.message
    ++ leBytes 8 cs.timestampNs.toNat
    ++ leBytes 4 cs.changes.length

/-- Strictly ascending by their bytes. -/
def BytesAscend (texts : List String) : Prop := texts.IsChain (fun a b => utf8 a < utf8 b)

instance (texts : List String) : Decidable (BytesAscend texts) :=
  inferInstanceAs (Decidable (texts.IsChain _))

/-- `changeset::encode`. -/
def Changeset.encode (nfc : String → String) (cs : Changeset) : Except CoreError Bytes := do
  if maxParents < cs.parents.length then .error .encodeTooManyParents
  else if ¬ BytesAscend (cs.changes.map (·.path)) then .error .encodeUnsorted
  else
    validateConflicts nfc (cs.conflicts.map (·.value))
    let changes ← cs.changes.mapM (·.encode)
    let out := cs.encodeHeader ++ changes.flatten ++ encodeConflicts cs.conflicts
    if maxObjectBytes < out.length then .error .encodeTooLarge else .ok out

def TreeEntry.encode (e : TreeEntry) : Bytes :=
  writeStr e.name ++ [kindTag e.kind] ++ e.object.bytes ++ leBytes 8 e.size.toNat
    ++ [match e.kind with
      | .file => bit e.exec
      | .dir => 0]

/-- `tree::encode`. -/
def Tree.encode (t : Tree) : Except CoreError Bytes :=
  if ¬ BytesAscend (t.entries.map (·.name)) then .error .encodeUnsorted
  else
    let out := treeMagic ++ leBytes 4 t.entries.length ++ t.entries.flatMap (·.encode)
    if maxObjectBytes < out.length then .error .encodeTooLarge else .ok out

/-! ### Reading -/

abbrev Read (α : Type) := Reader CoreError α

def take (n : ℕ) : Read Bytes := Reader.take .decodeUnexpectedEof n

def take32 : Read ObjectId := do
  let bytes ← take 32
  if h : bytes.length = 32 then pure ⟨bytes, h⟩ else Reader.fail .decodeUnexpectedEof

def u8 : Read UInt8 := do
  let bytes ← take 1
  pure (bytes.headD 0)

def u32le : Read ℕ := Reader.leNat .decodeUnexpectedEof 4

def u64le : Read UInt64 := do
  let n ← Reader.leNat .decodeUnexpectedEof 8
  pure (.ofNat n)

/-- `Cursor::str_field`. -/
def strField : Read String := do
  let len ← u64le
  Reader.rejectIf (maxObjectBytes < len.toNat) .decodeLengthOverflow
  let left ← Reader.remaining
  Reader.rejectIf (left < len.toNat) .decodeTooLarge
  let bytes ← take len.toNat
  match String.fromUTF8? ⟨bytes.toArray⟩ with
  | some s => pure s
  | none => Reader.fail .decodeInvalidUtf8

/-- A byte that stands for one of few values. -/
def tagged {α : Type} (ofTag : UInt8 → Option α) : Read α := do
  let tag ← u8
  match ofTag tag with
  | some a => pure a
  | none => Reader.fail (.decodeInvalidTag tag)

def opOfTag (tag : UInt8) : Option Op :=
  if tag = 0 then some .add else if tag = 1 then some .mod
  else if tag = 2 then some .del else none

def kindOfTag (tag : UInt8) : Option EntryKind :=
  if tag = 0 then some .file else if tag = 1 then some .dir else none

def boolOfTag (tag : UInt8) : Option Bool :=
  if tag = 0 then some false else if tag = 1 then some true else none

/-- The exec byte of an entry; a directory entry carries 0. -/
def execOfTag (kind : EntryKind) (tag : UInt8) : Option Bool :=
  if tag = 0 then some false
  else if tag = 1 then if kind = .dir then none else some true
  else none

def FileChange.read : Read FileChange := do
  let path ← strField
  let op ← tagged opOfTag
  if op = .del then pure ⟨path, op, none, none, none⟩
  else
    let blob ← take32
    let size ← u64le
    let exec ← tagged boolOfTag
    pure ⟨path, op, some blob, some size, some exec⟩

/-- `read_exec`: without the exec flag there is no byte. -/
def readExec (hasExec : Bool) : Read Bool :=
  if hasExec then tagged boolOfTag else pure false

def readSide (hasExec : Bool) : Read (ObjectId × Bool) := do
  let side ← take32
  let exec ← readExec hasExec
  pure (side, exec)

def readBase (hasBase hasExec : Bool) : Read (Option (ObjectId × Bool)) :=
  if hasBase then do
    let base ← readSide hasExec
    pure (some base)
  else pure none

def ConflictRep.read : Read ConflictRep := do
  let path ← strField
  let flags ← u8
  Reader.rejectIf (7 < flags) (.decodeInvalidTag flags)
  let hasExec := flags &&& 4 == 4
  let base ← readBase (flags &&& 1 == 1) hasExec
  let deleted := flags &&& 2 == 2
  let sideCount ← u32le
  Reader.rejectIf (sideCount < if deleted then 1 else 2) .decodeConflictSides
  let sides ← Reader.replicate (readSide hasExec) sideCount
  let baseExec := base.any (·.2)
  -- `any_exec`: some exec byte that was read is 1
  Reader.rejectIf (hasExec ∧ ¬ (baseExec ∨ sides.any (·.2))) (.decodeInvalidTag flags)
  pure ⟨path, base.map (·.1), baseExec, sides.map (·.1), sides.map (·.2), deleted⟩

/-- The conflict section; a v2 frame always carries at least one conflict. -/
def readConflicts (isV2 : Bool) : Read (List ConflictRep) :=
  if isV2 then
    Reader.counted (do
      let count ← u32le
      Reader.rejectIf (count = 0) .decodeEmptyConflictSection
      pure count) 45 .decodeTooLarge ConflictRep.read
  else pure []

def readParents : Read (List ObjectId) := do
  let count ← u8
  Reader.rejectIf (maxParents < count.toNat) .decodeTooLarge
  Reader.replicate take32 count.toNat

/-- The version of the frame. -/
def readMagic : Read Bool := do
  let magic ← take 17
  if magic = magicV1 then pure false
  else if magic = magicV2 then pure true
  else Reader.fail .decodeBadMagic

def Changeset.read : Read Changeset := do
  let isV2 ← readMagic
  let repoId ← u64le
  let parents ← readParents
  let author ← strField
  let message ← strField
  let timestampNs ← u64le
  let changes ← Reader.counted u32le 9 .decodeTooLarge FileChange.read
  let conflicts ← readConflicts isV2
  pure ⟨repoId, parents, author, message, timestampNs, changes, conflicts⟩

/-- `changeset::decode`. -/
def Changeset.decode (bytes : Bytes) : Except CoreError Changeset :=
  Changeset.read.whole .decodeTrailingBytes bytes

def TreeEntry.read : Read TreeEntry := do
  let name ← strField
  let kind ← tagged kindOfTag
  let object ← take32
  let size ← u64le
  let exec ← tagged (execOfTag kind)
  pure ⟨name, kind, object, size, exec⟩

def Tree.read : Read Tree := do
  let magic ← take 12
  Reader.rejectIf (magic ≠ treeMagic) .decodeBadMagic
  let entries ← Reader.counted u32le 50 .decodeTooLarge TreeEntry.read
  pure ⟨entries⟩

/-- `tree::decode`. -/
def Tree.decode (bytes : Bytes) : Except CoreError Tree :=
  Tree.read.whole .decodeTrailingBytes bytes

/-! ### The rules beyond the bytes -/

def validateEntries (nfc : String → String) : List TreeEntry → Except CoreError Unit
  | [] => .ok ()
  | e :: es =>
      match validateComponent nfc e.name with
      | .error err => .error (.path err)
      | .ok () =>
          if e.kind = .dir ∧ e.exec = true then .error .encodeExecOnDir
          else validateEntries nfc es

/-- `tree::validate`. -/
def Tree.validate (nfc lower : String → String) (t : Tree) : Except CoreError Unit :=
  match validateEntries nfc t.entries with
  | .error e => .error e
  | .ok () =>
      match checkCaseFoldDuplicates lower (t.entries.map fun e => .ofText e.name) with
      | .error e => .error (.path e)
      | .ok () => if maxEntries < t.entries.length then .error .encodeTooManyEntries else .ok ()

end Wire

end Naatre
