import Naatre.Server.Land

/-!
The other writers of a repository: changeset create
(`routes/changesets.rs`), ref create and move (`routes/refs.rs`), the upload's
record step (`routes/objects.rs`) and the redaction mark
(`routes/redactions.rs`, `db::redaction_mark`).

A create is two steps: the parent lookup, a read, and the write in the
repository's slot.
-/

namespace Naatre

section

variable {Id : Type} [Platform Id]

/-! ### Changeset create -/

/-- The request body of changeset create, and the caller's token. -/
structure CreateRequest (Id : Type) where
  repoName : String
  principal : String
  scope : Option String
  parents : List Id
  author : String
  message : String
  timestampNs : Option ℕ
  changes : List (FileChange Id)

/-- What the parent lookup read: generation and root tree of each parent. -/
abbrev ParentMetas (Id : Type) := List (ℕ × Id)

/-- The scope check and the parent lookup of `create_inner`. -/
def createLookup (db : RepoTables Id) (req : CreateRequest Id) :
    Except (ApiError Id) (ParentMetas Id) :=
  match (req.changes.map (·.path)).find? (fun p => !scopeAllows req.scope p.text) with
  | some p =>
      .error ((ApiError.new .forbidden "path is outside this token's scope").withDetails
        (.path p))
  | none =>
      if 1 < req.parents.length then
        .error (.new .validation "public changesets take at most one parent")
      else
        let missing := req.parents.filter (fun p => (changesetGet db p).isNone)
        if missing ≠ [] then
          .error ((ApiError.new .unknownParent
            "parent is not a changeset of this repo").withDetails (.missingParents missing))
        else
          .ok (req.parents.filterMap fun p =>
            (changesetGet db p).map fun row => (row.generation, row.rootTreeId))

def Op.text : Op → String
  | .add => "add"
  | .mod => "mod"
  | .del => "del"

/-- The first entry whose fields its operation does not allow. -/
def shapeError (changes : List (FileChange Id)) : Option (ApiError Id) :=
  (changes.find? (fun c => !c.payloadOk)).map fun c =>
    if c.op = .del then
      .new .validation ("del of " ++ quoted c.path.text ++ " must not carry blob/size/exec")
    else
      .new .validation
        (c.op.text ++ " of " ++ quoted c.path.text ++ " requires blob, size, and exec")

/-- The first path that appears a second time. -/
def duplicatePath : List Path → List Path → Option Path
  | [], _ => none
  | p :: ps, seen => if p ∈ seen then some p else duplicatePath ps (p :: seen)

/-- `map_core`. -/
def mapCore : CoreError → ApiError Id
  | .path .notNormalized =>
      .new .pathNotNormalized "path is not in NFC normalization form"
  | .path e => .new .validation e.message
  | .encodeEmptyChangeset => .new .emptyChangeset "changeset has no entries"
  | .authorChar index => .new .validation (CoreError.authorChar index).message
  | .messageChar index => .new .validation (CoreError.messageChar index).message
  | .encodeTooManyEntries => .new .validation CoreError.encodeTooManyEntries.message
  | .encodeTooManyParents => .new .validation CoreError.encodeTooManyParents.message
  | _ => .internal

/-- `max().map_or(0, |g| g + 1)` over the parents' generations. -/
def nextGeneration (gens : List ℕ) : ℕ := (gens.max?.map (· + 1)).getD 0

/-- A create between its lookup and its write. -/
structure PreparedCreate (Id : Type) [Platform Id] where
  repoName : String
  principal : String
  canonical : Canonical Id
  generation : ℕ
  parentRoot : Option Id

def PreparedCreate.csId (p : PreparedCreate Id) : Id := Platform.changesetId p.canonical

/-- The validation of `create_inner`, from the looked-up parents on. -/
def createPrepare (repoId nowNs : ℕ) (req : CreateRequest Id) (metas : ParentMetas Id) :
    Except (ApiError Id) (PreparedCreate Id) :=
  match shapeError req.changes with
  | some e => .error e
  | none =>
  let cs : Changeset Id :=
    { repoId := repoId
      parents := req.parents
      author := req.author
      message := req.message
      timestampNs := req.timestampNs.getD nowNs
      changes := req.changes
      conflicts := [] }
  match duplicatePath (cs.changes.map (·.path)) [] with
  | some p =>
      .error (.new .duplicatePath
        ("path " ++ quoted p.text ++ " appears twice in the request"))
  | none =>
  match cs.validate with
  | .error e => .error (mapCore e)
  | .ok () =>
  if !pathsAscend (cs.changes.map (·.path)) then
    .error (.new .unsortedChanges
      ("changes are not strictly sorted by path bytes; sort them client-side " ++
        "and re-encode — the id covers the order you send"))
  else match cs.encode with
  | .error .encodeTooLarge =>
      .error (.new .tooLarge "canonical encoding exceeds the 16 MiB cap")
  | .error _ => .error .internal
  | .ok canonical =>
      .ok
        { repoName := req.repoName
          principal := req.principal
          canonical := canonical
          generation := nextGeneration (metas.map (·.1))
          parentRoot := metas.head?.map (·.2) }

def dualityError : ApplyError → ApiError Id
  | .tooDeep p => .new .validation (p.text ++ ": exceeds the 256-component path cap")
  | .fileInPath p =>
      .new .duality (p.text ++ ": an intermediate component is a file in the parent tree")
  | .modNotFile p => .new .duality (p.text ++ ": mod target is not a file in the parent tree")
  | .delNotFile p => .new .duality (p.text ++ ": del target is not a file in the parent tree")

def mapDeriveCreate : DeriveError Id → ApiError Id
  | .core .encodeTooLarge => .new .tooLarge "derived tree exceeds the 16 MiB canonical cap"
  | _ => .internal

/-- The blobs without bytes or without an `objects` row. -/
def missingBlobs (cx : RepoCx Id) (blobs : List Id) : List Id :=
  let missing := objectsMissing cx.cat blobs
  missing ++ blobs.filter (fun id => (casGet cx.cas id).isNone && decide (id ∉ missing))

structure ChangesetCreated (Id : Type) where
  id : Id
  rootTreeId : Id
  generation : ℕ
  deriving DecidableEq

/-- `persist`: the write phase. A refused create leaves zero rows. -/
def persist (cx : RepoCx Id) (p : PreparedCreate Id) :
    Except (ApiError Id) (ChangesetCreated Id × RepoCx Id) :=
  let blobs := changeBlobs p.canonical.cs.changes
  if redactionActive cx.db p.csId then
    .error (.new .objectRedacted ("changeset " ++ Platform.toHex p.csId ++
      " is redacted in this repo; recreating it is refused"))
  else
  let redacted := redactionsActiveAmong cx.db blobs
  if redacted ≠ [] then
    .error (.new .objectRedacted
      ("blobs are redacted in this repo; referencing them is refused: " ++
        String.intercalate ", " (redacted.map Platform.toHex)))
  else
  let missing := missingBlobs cx blobs
  if missing ≠ [] then
    .error ((ApiError.new .validation
      "referenced blobs are missing; upload them first").withDetails (.missingBlobs missing))
  else match MemNode.load cx.trees p.parentRoot with
  | .error e => .error (mapDeriveCreate e)
  | .ok parent =>
  match parent.apply p.canonical.cs.changes with
  | .error e => .error (dualityError e)
  | .ok node =>
  match node.collect with
  | .error e => .error (mapDeriveCreate e)
  | .ok (rootTreeId, _, trees) =>
  match changesetInsertRows cx
      { id := p.csId
        canonical := p.canonical
        generation := p.generation
        principal := p.principal
        rootTreeId := rootTreeId
        blobs := blobs
        trees := trees
        gitMapOid := none } with
  | none => .error .internal
  | some cx => .ok (⟨p.csId, rootTreeId, p.generation⟩, cx)

/-! ### Refs -/

/-- A ref create (`expected` absent) or compare-and-swap move. -/
structure RefRequest (Id : Type) where
  principal : String
  name : String
  target : Id
  expected : Option ℕ

/-- The plain two-endpoint merge-base walk: the highest-generation node of the
walk from `b` found in the ancestor set of `a`, the first one of a tie. A node
without a row has no parents. -/
def mergeBaseWalk (db : RepoTables Id) (a b : Id) : Option Id := do
  let succ := fun id => some ((parentsOf db id).getD [])
  let ancestorSet ← Lib.walk succ (walkFuel db 1) [a] []
  let seen ← Lib.walk succ (walkFuel db 1) [b] []
  let best := seen.foldl (fun best id =>
    match changesetGet db id with
    | none => best
    | some row =>
        if id ∈ ancestorSet ∧ best.all (fun b => decide (b.1 < row.generation)) then
          some (row.generation, id)
        else best) none
  best.map (·.2)

/-- `ref_contains`: both endpoints are changesets here and
`merge_base(old, new) == old`. -/
def refContains (db : RepoTables Id) (old new : Id) : Bool :=
  (changesetGet db old).isSome && (changesetGet db new).isSome &&
    decide (mergeBaseWalk db old new = some old)

structure RefResponse (Id : Type) where
  name : String
  target : Id
  version : ℕ
  deriving DecidableEq

/-- The current target a move must contain, when its version matches. -/
def refMoveBase (db : RepoTables Id) (req : RefRequest Id) : Option Id :=
  match req.expected, refGet db req.name with
  | some version, some current => if current.version = version then current.target else none
  | _, _ => none

/-- `cas_ref`, inside the write slot. -/
def casRef (repo : String) (db : RepoTables Id) (req : RefRequest Id) :
    Except (ApiError Id) (RefResponse Id × RepoTables Id) :=
  if req.name = "main" then .error (.new .validation "main moves only via land")
  else if redactionActive db req.target then
    .error (.new .objectRedacted ("ref target " ++ Platform.toHex req.target ++
      " is redacted in this repo; the ref write is refused"))
  else
    match (refMoveBase db req).filter (fun old => !refContains db old req.target) with
    | some old =>
        .error ((ApiError.new .notFastForward
          ("ref move is not a fast-forward: the new target does not " ++
            "contain the current one")).withDetails (.currentTarget old))
    | none =>
        match refCas db req.name req.target req.expected req.principal with
        | (.created, db) => .ok (⟨req.name, req.target, 1⟩, db)
        | (.updated version, db) => .ok (⟨req.name, req.target, version⟩, db)
        | (.conflict version target, _) =>
            .error ((ApiError.new .refConflict
              "ref moved since your read: re-fetch and retry with the current version").withDetails
              (.current version target))
        | (.refMissing, _) =>
            .error (.new .notFound ("no ref named " ++ quoted req.name ++ " in " ++
              quoted repo ++ ": CAS expected an existing ref"))

/-! ### Uploads -/

/-- `gc_candidates_upsert`: the first observation stands. -/
def gcCandidatesUpsert (cat : Catalog Id) (scope : GcScope) (ids : List Id) (nowNs : ℕ) :
    Catalog Id :=
  { cat with
    gcPending := ids.foldl (fun rows id =>
      if rows.any (fun row => decide (row.scope = scope) && decide (row.id = id)) then rows
      else rows ++ [⟨scope, id, nowNs, none⟩]) cat.gcPending }

/-- `object_redacted`. -/
def objectRedacted (cx : RepoCx Id) (id : Id) : ApiError Id :=
  .new .objectRedacted ("object " ++ Platform.toHex id ++ " is redacted in " ++
    quoted cx.name ++ "; re-upload refused")

/-- `too_large`. -/
def tooLarge (len : ℕ) : ApiError Id :=
  .new .tooLarge ("blob exceeds the " ++ toString blobLimit ++ " byte cap (got " ++
    toString len ++ " bytes)")

/-- The CAS step of an upload: the size check, the early tombstone probe, the
put. -/
def putBytes (cx : RepoCx Id) (bytes : Bytes) : Except (ApiError Id) (RepoCx Id) :=
  let id := Platform.blobId bytes
  if blobLimit < bytes.length then .error (tooLarge bytes.length)
  else if redactionActive cx.db id then .error (objectRedacted cx id)
  else match casPut cx.cas bytes with
  | none => .error .internal
  | some cas => .ok { cx with cas := cas }

/-- `record_object`: the tombstone re-check, the presence check and the row,
in the write slot. A refused record still leaves its ledger row. -/
def recordObject (cx : RepoCx Id) (id : Id) (size nowNs : ℕ) :
    Except (ApiError Id) Bool × RepoCx Id :=
  if redactionActive cx.db id then
    (.error (objectRedacted cx id),
      { cx with cat := gcCandidatesUpsert cx.cat .blob [id] nowNs })
  else if (casGet cx.cas id).isNone then
    (.error { ApiError.new .blobSwept
      "the blob's bytes were removed by gc mid-upload; re-upload it" with retryable := true }, cx)
  else
    (.ok (cx.cat.objects.any (fun row => decide (row.objectId = id))),
      { cx with cat := objectRowUpsert cx.cat id size nowNs })

/-! ### Redaction marks -/

/-- The tombstone's path: the object's first `file_changes` path here. -/
def redactionPath (db : RepoTables Id) (id : Id) (kind : RedactionKind) : Option Path :=
  let paths := match kind with
    | .blob => db.changesets.flatMap fun row =>
        (row.changes.filter (fun c => decide (c.blob = some id))).map (·.path)
    | .changeset => (fileChangesList db id).map (·.path)
  (Path.sortPaths paths).head?

inductive MarkOutcome
  | inserted
  | existing
  | rearmed
  | kindMismatch
  deriving DecidableEq, Repr

/-- `redaction_mark` with its classification of a standing row. -/
def redactionMark (db : RepoTables Id) (id : Id) (kind : RedactionKind) (markedNs : ℕ) :
    MarkOutcome × RepoTables Id :=
  match db.redactions.find? (fun row => decide (row.objectId = id)) with
  | none =>
      (.inserted, { db with
        redactions := db.redactions ++ [⟨id, kind, redactionPath db id kind, markedNs, none⟩] })
  | some existing =>
      if existing.kind ≠ kind then (.kindMismatch, db)
      else if existing.purgedNs.isSome then
        let remains := kind = .blob ∨ (changesetGet db id).isSome
        let stamp := if remains then none else some markedNs
        (.rearmed, { db with
          redactions := db.redactions.map (fun row =>
            if row.objectId = id then { row with markedNs := markedNs, purgedNs := stamp }
            else row) })
      else (.existing, db)

/-- The presence probe of the mark route, a read of its own. -/
def redactionTargetPresent (cx : RepoCx Id) (id : Id) (kind : RedactionKind) : Bool :=
  redactionActive cx.db id ||
    match kind with
    | .blob =>
        decide (id ∈ cx.db.repoBlobs)
          || cx.db.changesets.any (fun row => row.changes.any (fun c => decide (c.blob = some id)))
          || cx.trees.any (fun row => row.entries.any (fun e =>
              decide (e.kind = .file) && decide (e.object = id)))
          || cx.cat.objects.any (fun row => decide (row.objectId = id))
    | .changeset => (changesetGet cx.db id).isSome

end

end Naatre
