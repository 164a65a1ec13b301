import Naatre.Core.Path

/-!
The values that have an id: changesets with their file changes and conflict
representations, and trees (`naatre-core/src/changeset.rs`, `conflict.rs`,
`tree.rs`), and what the server takes from outside its own source: the hash,
the line diff and the Unicode tables.

A canonical frame is kept as the value it decodes to, together with the fact
that `encode` accepts that value.
-/

namespace Naatre

/-- Canonical encodings of a single object stay at or below this size. -/
def maxObjectBytes : ℕ := 16 * 1024 * 1024
/-- Maximum parents a changeset may record. -/
def maxParents : ℕ := 2
/-- Maximum entries per changeset or tree. -/
def maxEntries : ℕ := 100000
/-- The largest blob the CAS takes. -/
def blobLimit : ℕ := 64 * 1024 * 1024

inductive CoreError
  | encodeTooManyParents
  | encodeUnsorted
  | encodeMissingBlob
  | encodeUnsortedConflicts
  | encodeConflictSides
  | encodeTooLarge
  | encodeTooManyEntries
  | encodeEmptyChangeset
  | encodeExecOnDir
  | decodeConflictSides
  | decodeEmptyConflictSection
  | decodeBadMagic
  | decodeTrailingBytes
  | decodeUnexpectedEof
  | decodeTooLarge
  | decodeInvalidTag (tag : UInt8)
  | decodeInvalidUtf8
  | decodeLengthOverflow
  | path (e : PathError)
  | authorChar (index : ℕ)
  | messageChar (index : ℕ)
  deriving DecidableEq, Repr

/-- `{:#04x}` of a byte. -/
def hexTag (tag : UInt8) : String :=
  "0x" ++ (if tag.toNat < 16 then "0" else "") ++
    String.ofList ((Nat.toDigits 16 tag.toNat).map Char.toLower)

def CoreError.message : CoreError → String
  | .encodeUnsorted => "encode: entries not sorted by strictly ascending path/name bytes"
  | .encodeTooManyParents => "encode: more than 2 parents"
  | .encodeMissingBlob =>
      "encode: Add/Mod entry missing blob, size, or exec; or Del entry carrying blob/size/exec"
  | .encodeEmptyChangeset => "encode: changeset has no entries"
  | .encodeTooLarge => "encode: canonical encoding exceeds the 16 MiB cap"
  | .encodeTooManyEntries => "encode: more than 100000 entries"
  | .encodeUnsortedConflicts => "encode: conflicts not sorted by strictly ascending path bytes"
  | .encodeConflictSides =>
      "encode: a conflict needs >= 2 distinct strictly-ascending sides, " ++
        "its base distinct from every side"
  | .encodeExecOnDir => "encode: directory entry carries an exec bit"
  | .decodeConflictSides => "decode: a conflict carries fewer than 2 sides"
  | .decodeEmptyConflictSection => "decode: a v2 frame with an empty conflict section"
  | .decodeBadMagic => "decode: bad magic bytes"
  | .decodeTrailingBytes => "decode: trailing bytes after the object"
  | .decodeUnexpectedEof => "decode: unexpected end of input"
  | .decodeTooLarge => "decode: declared length exceeds the remaining input"
  | .decodeInvalidTag tag => "decode: invalid tag byte " ++ hexTag tag
  | .decodeInvalidUtf8 => "decode: string field is not valid UTF-8"
  | .decodeLengthOverflow => "decode: length field exceeds the 16 MiB cap"
  | .authorChar index =>
      "author contains a forbidden control/format character (Cc or Cf) at byte index " ++
        toString index
  | .messageChar index =>
      "message contains a forbidden control/format character (Cc or Cf) at byte index " ++
        toString index
  | .path e => "path: " ++ e.message

/-- What happened to a file. -/
inductive Op
  | add
  | mod
  | del
  deriving DecidableEq, Repr

/-- One file-level change; `del` carries none of the three payload fields. -/
structure FileChange (Id : Type) where
  path : Path
  op : Op
  blob : Option Id
  size : Option ℕ
  exec : Option Bool
  deriving DecidableEq

/-- One logical conflict at one path. `sides` and `sidesExec` are parallel. -/
structure ConflictRep (Id : Type) where
  path : Path
  base : Option Id
  baseExec : Bool
  sides : List Id
  sidesExec : List Bool
  deleted : Bool
  deriving DecidableEq

structure Changeset (Id : Type) where
  repoId : ℕ
  parents : List Id
  author : String
  message : String
  timestampNs : ℕ
  changes : List (FileChange Id)
  conflicts : List (ConflictRep Id)
  deriving DecidableEq

inductive EntryKind
  | file
  | dir
  deriving DecidableEq, Repr

structure TreeEntry (Id : Type) where
  name : String
  kind : EntryKind
  object : Id
  size : ℕ
  exec : Bool
  deriving DecidableEq

/-- A directory listing, entries in ascending name order. -/
structure Tree (Id : Type) where
  entries : List (TreeEntry Id)
  deriving DecidableEq

section Conflict

variable {Id : Type} [LinearOrder Id] (nfc : String → String)

/-- True when any exec bit of the rep (base or a blob side) is set. -/
def ConflictRep.hasExec (rep : ConflictRep Id) : Bool :=
  rep.baseExec || rep.sidesExec.any id

/-- The order of `(blob, exec)` pairs. -/
def sideBefore (a b : Id × Bool) : Bool :=
  decide (a.1 < b.1) || (decide (a.1 = b.1) && !a.2 && b.2)

def ConflictRep.keys (rep : ConflictRep Id) : List (Id × Bool) :=
  rep.sides.zip rep.sidesExec

/-- The shape rules of one rep in `conflict::validate`. -/
def ConflictRep.shapeOk (rep : ConflictRep Id) : Bool :=
  !(decide (rep.sides.length < if rep.deleted then 1 else 2)
    || decide (rep.sidesExec.length ≠ rep.sides.length)
    || (rep.base.isNone && rep.baseExec)
    || !decide (rep.keys.IsChain (fun a b => sideBefore a b = true))
    || rep.base.any (fun b => decide ((b, rep.baseExec) ∈ rep.keys)))

def ConflictRep.validate (rep : ConflictRep Id) : Except CoreError Unit :=
  match rep.path.validate nfc with
  | .error e => .error (.path e)
  | .ok () =>
      if maxEntries < rep.sides.length then .error .encodeTooManyEntries
      else if !rep.shapeOk then .error .encodeConflictSides
      else .ok ()

def validateEach : List (ConflictRep Id) → Except CoreError Unit
  | [] => .ok ()
  | rep :: reps =>
      match rep.validate nfc with
      | .error e => .error e
      | .ok () => validateEach reps

/-- Strictly ascending paths. -/
def pathsAscend (l : List Path) : Bool :=
  decide (l.IsChain (fun p q => p.text < q.text))

/-- `conflict::validate`. -/
def validateConflicts (reps : List (ConflictRep Id)) : Except CoreError Unit :=
  if maxEntries < reps.length then .error .encodeTooManyEntries
  else if !pathsAscend (reps.map (·.path)) then .error .encodeUnsortedConflicts
  else validateEach nfc reps

theorem validateEach_ok {nfc : String → String} {reps : List (ConflictRep Id)} :
    validateEach nfc reps = .ok () ↔ ∀ rep ∈ reps, rep.validate nfc = .ok () := by
  induction reps with
  | nil => simp [validateEach]
  | cons rep reps ih =>
      rw [validateEach, List.forall_mem_cons, ← ih]
      cases rep.validate nfc with
      | error e => simp
      | ok u => simp

theorem ConflictRep.validate_ok {nfc : String → String} {rep : ConflictRep Id} :
    rep.validate nfc = .ok () ↔
      rep.path.validate nfc = .ok () ∧ rep.sides.length ≤ maxEntries ∧ rep.shapeOk = true := by
  unfold ConflictRep.validate
  cases rep.path.validate nfc with
  | error e => simp
  | ok u =>
      by_cases hmax : maxEntries < rep.sides.length
      · simp [hmax]
      · cases rep.shapeOk <;> simp [hmax, not_lt.mp hmax]

/-- The rules of `conflict::validate`. -/
theorem validateConflicts_ok {nfc : String → String} {reps : List (ConflictRep Id)} :
    validateConflicts nfc reps = .ok () ↔
      reps.length ≤ maxEntries ∧ pathsAscend (reps.map (·.path)) = true ∧
        ∀ rep ∈ reps, rep.path.validate nfc = .ok () ∧ rep.sides.length ≤ maxEntries ∧
          rep.shapeOk = true := by
  unfold validateConflicts
  by_cases hmax : maxEntries < reps.length
  · simp [hmax]
  · rw [if_neg hmax]
    cases hpaths : pathsAscend (reps.map (·.path)) with
    | false => simp
    | true => simp [validateEach_ok, ConflictRep.validate_ok, not_lt.mp hmax]

end Conflict

section Encode

variable {Id : Type}

def strLen (s : String) : ℕ := 8 + s.utf8ByteSize

def FileChange.encodedLen (c : FileChange Id) : ℕ :=
  strLen c.path.text + 1 + (if c.op = .del then 0 else 32 + 8 + 1)

def ConflictRep.encodedLen (rep : ConflictRep Id) : ℕ :=
  let exec := if rep.hasExec then 1 else 0
  strLen rep.path.text + 1 + (if rep.base.isSome then 32 + exec else 0)
    + 4 + rep.sides.length * (32 + exec)

/-- The byte length of the canonical frame: magic, repo id, parents, author,
message, timestamp, changes and, in a v2 frame, the conflict section. -/
def Changeset.encodedLen (cs : Changeset Id) : ℕ :=
  17 + 8 + 1 + 32 * cs.parents.length + strLen cs.author + strLen cs.message + 8 + 4
    + (cs.changes.map (·.encodedLen)).sum
    + (if cs.conflicts = [] then 0 else 4 + (cs.conflicts.map (·.encodedLen)).sum)

/-- Add and Mod carry all three payload fields, Del none. -/
def FileChange.payloadOk (c : FileChange Id) : Bool :=
  if c.op = .del then c.blob.isNone && c.size.isNone && c.exec.isNone
  else c.blob.isSome && c.size.isSome && c.exec.isSome

/-- The first rule of `changeset::encode` that `cs` breaks. -/
def Changeset.encodeError [LinearOrder Id] (nfc : String → String) (cs : Changeset Id) :
    Option CoreError :=
  if maxParents < cs.parents.length then some .encodeTooManyParents
  else if !pathsAscend (cs.changes.map (·.path)) then some .encodeUnsorted
  else match validateConflicts nfc cs.conflicts with
    | .error e => some e
    | .ok () =>
        if !cs.changes.all (·.payloadOk) then some .encodeMissingBlob
        else if maxObjectBytes < cs.encodedLen then some .encodeTooLarge
        else none

def TreeEntry.encodedLen (e : TreeEntry Id) : ℕ := strLen e.name + 1 + 32 + 8 + 1

def Tree.encodedLen (t : Tree Id) : ℕ := 12 + 4 + (t.entries.map (·.encodedLen)).sum

/-- The first rule of `tree::encode` that `t` breaks. -/
def Tree.encodeError (t : Tree Id) : Option CoreError :=
  if ¬ t.entries.IsChain (fun a b => a.name < b.name) then some .encodeUnsorted
  else if maxObjectBytes < t.encodedLen then some .encodeTooLarge
  else none

/-- A directory entry always writes exec byte 0. -/
def TreeEntry.written (e : TreeEntry Id) : TreeEntry Id :=
  { e with exec := decide (e.kind = .file) && e.exec }

end Encode

/-- The canonical bytes of a changeset, as the value they decode to. -/
structure Frame (Id : Type) [LinearOrder Id] (nfc : String → String) where
  cs : Changeset Id
  encodable : cs.encodeError nfc = none
  deriving DecidableEq

/-- The canonical bytes of a tree, as the value they decode to. The decoder
does not ask for name order; `Tree.encode` does. -/
structure TreeFrame (Id : Type) where
  tree : Tree Id
  written : tree.entries.map (·.written) = tree.entries
  deriving DecidableEq

/-- One edit of a line diff, over line indices of the old and the new side. -/
inductive DiffOp
  | equal (oldIndex newIndex len : ℕ)
  | delete (oldIndex oldLen newIndex : ℕ)
  | insert (oldIndex newIndex newLen : ℕ)
  | replace (oldIndex oldLen newIndex newLen : ℕ)
  deriving DecidableEq, Repr

/-- `similar::TextDiff`: both sides cut into lines, and the edits. -/
structure TextDiff where
  oldSlices : List Bytes
  newSlices : List Bytes
  ops : List DiffOp

/-- What the server takes from outside its source: BLAKE3 under the object
domains, taken to be collision-free on canonical frames, the `similar` line
diff and the Unicode tables. Ids compare by their bytes. -/
class Platform (Id : Type) extends LinearOrder Id where
  nfc : String → String
  lower : String → String
  fromLines : Bytes → Bytes → TextDiff
  toHex : Id → String
  blobId : Bytes → Id
  treeId : TreeFrame Id → Id
  changesetId : Frame Id nfc → Id
  blobId_inj : Function.Injective blobId
  treeId_inj : Function.Injective treeId
  changesetId_inj : Function.Injective changesetId
  blobId_ne_treeId : ∀ b t, blobId b ≠ treeId t
  blobId_ne_changesetId : ∀ b c, blobId b ≠ changesetId c
  treeId_ne_changesetId : ∀ t c, treeId t ≠ changesetId c

instance Platform.lawfulBEq (Id : Type) [Platform Id] : LawfulBEq Id := inferInstance

section Canonical

variable {Id : Type} [Platform Id]

/-- The canonical frames over the server's own Unicode tables. -/
abbrev Canonical (Id : Type) [Platform Id] := Frame Id (Platform.nfc Id)

/-- `changeset::encode`. -/
def Changeset.encode (cs : Changeset Id) : Except CoreError (Canonical Id) :=
  match h : cs.encodeError (Platform.nfc Id) with
  | some e => .error e
  | none => .ok ⟨cs, h⟩

theorem Changeset.encode_ok {cs : Changeset Id} {canonical : Canonical Id}
    (h : cs.encode = .ok canonical) : canonical.cs = cs := by
  unfold Changeset.encode at h
  split at h
  · cases h
  · cases h; rfl

/-- `tree::encode`; the exec bit of a directory entry is not written. -/
def Tree.encode (t : Tree Id) : Except CoreError (TreeFrame Id) :=
  let t' : Tree Id := ⟨t.entries.map (·.written)⟩
  match t'.encodeError with
  | some e => .error e
  | none => .ok ⟨t', by simp [t', TreeEntry.written, Function.comp_def]⟩

/-- The first name of a listing that is no component. -/
def validateNames (nfc : String → String) : List String → Except PathError Unit
  | [] => .ok ()
  | name :: names =>
      match validateComponent nfc name with
      | .error e => .error e
      | .ok () => validateNames nfc names

/-- `tree::validate`; a decoded directory entry carries no exec bit. -/
def Tree.validate (t : Tree Id) : Except CoreError Unit :=
  let names := t.entries.map (fun e => e.name)
  match validateNames (Platform.nfc Id) names with
  | .error e => .error (.path e)
  | .ok () =>
      match checkCaseFoldDuplicates (Platform.lower Id) (names.map (⟨[], ·⟩)) with
      | .error e => .error (.path e)
      | .ok () => if maxEntries < t.entries.length then .error .encodeTooManyEntries else .ok ()

/-- The character rule of author and message in `changeset::validate`. -/
def checkText (s : String) : Except ℕ Unit :=
  match findCharIndex (fun c => (isCc c || isCf c) && c != '\n' && c != '\t') s.toList 0 with
  | some index => .error index
  | none => .ok ()

def validatePaths (nfc : String → String) : List Path → Except PathError Unit
  | [] => .ok ()
  | p :: ps =>
      match p.validate nfc with
      | .error e => .error e
      | .ok () => validatePaths nfc ps

/-- `changeset::validate`. -/
def Changeset.validate (cs : Changeset Id) : Except CoreError Unit :=
  let paths := cs.changes.map (·.path)
  match validatePaths (Platform.nfc Id) paths with
  | .error e => .error (.path e)
  | .ok () =>
    match checkCaseFoldDuplicates (Platform.lower Id) paths with
    | .error e => .error (.path e)
    | .ok () =>
      match checkText cs.author with
      | .error index => .error (.authorChar index)
      | .ok () =>
        match checkText cs.message with
        | .error index => .error (.messageChar index)
        | .ok () =>
          if maxParents < cs.parents.length then .error .encodeTooManyParents
          else if cs.changes = [] ∧ cs.conflicts = [] then .error .encodeEmptyChangeset
          else if maxEntries < cs.changes.length then .error .encodeTooManyEntries
          else validateConflicts (Platform.nfc Id) cs.conflicts

end Canonical

end Naatre
