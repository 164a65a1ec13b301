import Naatre.Core.Conflict
import Naatre.Server.TreeDerive

/-!
The tables and their statements (`naatre-server/src/db.rs`).

A table is the list of its rows in insertion order. The rows of one changeset
(`changesets`, `changeset_parents`, `file_changes`) are written and deleted
together and form one record here, and so are the rows of one tree.
-/

namespace Naatre

abbrev RepoId := ℕ

/-! ### Errors -/

inductive ApiCode
  | idempotencyKeySettled
  | writerBusy
  | redactedBase
  | validation
  | notFound
  | forbidden
  | refConflict
  | objectRedacted
  | tooLarge
  | internal
  | unknownParent
  | duplicatePath
  | pathNotNormalized
  | emptyChangeset
  | unsortedChanges
  | duality
  | notFastForward
  | blobSwept
  | snapshotExpired
  | malformed
  | objectNotFound
  | repoNotFound
  | tokenInvalid
  | tokenRevoked
  | tokenExpired
  | cacheDisabled
  | originUnreachable
  | blameTooLarge
  | derivationPending
  deriving DecidableEq, Repr

/-- One entry of a land-conflict report. -/
structure ConflictEntry (Id : Type) where
  path : Path
  reason : String
  base : Option Id
  ours : Option Id
  theirs : Option Id
  deriving DecidableEq

/-- The structured `details` of an error. -/
inductive ErrorDetails (Id : Type)
  | none
  | settled (head : Id) (landStatusPointer : String)
  | redacted (id : Id)
  | path (path : Path)
  | oversized (path : Path) (size : ℕ)
  | conflicts (list : List (ConflictEntry Id)) (recipe : String)
  | currentTarget (id : Id)
  | current (version : ℕ) (target : Option Id)
  | missingParents (ids : List Id)
  | missingBlobs (ids : List Id)
  | missingBlobsCapped (ids : List Id) (truncated : Bool)
  | missingTrees (ids : List Id)
  | scopePath (path : String)
  | limit (n : ℕ)
  | recordedExpires (ns : ℕ)
  deriving DecidableEq

structure ApiError (Id : Type) where
  code : ApiCode
  message : String
  retryable : Bool
  details : ErrorDetails Id
  deriving DecidableEq

namespace ApiError

variable {Id : Type}

def new (code : ApiCode) (message : String) : ApiError Id := ⟨code, message, false, .none⟩

/-- The 5xx-safe error; its cause is logged and never sent. -/
def internal : ApiError Id := .new .internal "internal error"

def withDetails (e : ApiError Id) (details : ErrorDetails Id) : ApiError Id :=
  { e with details := details }

end ApiError

/-! ### Rows -/

/-- The rows of one changeset. Author, message and timestamp are columns copied
from the frame. -/
structure ChangesetRow (Id : Type) [Platform Id] where
  id : Id
  canonical : Canonical Id
  generation : ℕ
  principal : String
  rootTreeId : Id
  parents : List Id
  changes : List (FileChange Id)

structure RefRow (Id : Type) where
  name : String
  target : Option Id
  version : ℕ
  lastPrincipal : String
  deriving DecidableEq

inductive LandStatus
  | pending
  | done
  | conflicted
  deriving DecidableEq, Repr

/-- The recorded `{landed, rebased, note, conflicts}`. -/
structure LandResult (Id : Type) where
  landed : Id
  rebased : ℕ
  note : Option String
  conflicts : List Path
  deriving DecidableEq

structure LandRow (Id : Type) where
  principal : String
  key : String
  state : LandStatus
  head : Option Id
  base : Option Id
  result : Option (LandResult Id)
  deriving DecidableEq

inductive RedactionKind
  | blob
  | changeset
  deriving DecidableEq, Repr

structure RedactionRow (Id : Type) where
  objectId : Id
  kind : RedactionKind
  path : Option Path
  markedNs : ℕ
  purgedNs : Option ℕ
  deriving DecidableEq

structure SnapshotRow (Id : Type) where
  id : Id
  repoId : RepoId
  treeId : Id
  principal : String
  createdNs : ℕ
  expiresNs : ℕ
  deriving DecidableEq

structure ObjectRow (Id : Type) where
  objectId : Id
  size : ℕ
  touchedNs : ℕ
  deriving DecidableEq

inductive GcScope
  | cs
  | blob
  | tree
  deriving DecidableEq, Repr

/-- One row of the collector's ledger. -/
structure PendingRow (Id : Type) where
  scope : GcScope
  id : Id
  firstNs : ℕ
  condemnedAt : Option ℕ
  deriving DecidableEq

/-- A git object id of an imported source. -/
abbrev GitOid := ℕ

/-- The rows of one repository. -/
structure RepoTables (Id : Type) [Platform Id] where
  changesets : List (ChangesetRow Id)
  refs : List (RefRow Id)
  lands : List (LandRow Id)
  redactions : List (RedactionRow Id)
  repoBlobs : List Id
  repoTrees : List Id
  gitMap : List (GitOid × Id)

/-- The catalog's shared tables. -/
structure Catalog (Id : Type) where
  objects : List (ObjectRow Id)
  gcPending : List (PendingRow Id)

/-- What a closure holding a repository's write slot works on: the blob store,
the catalog, the tree rows of the database file and the repository's rows.
`catIsDb` is single-DB mode, where the catalog is the work connection. -/
structure RepoCx (Id : Type) [Platform Id] where
  id : RepoId
  name : String
  catIsDb : Bool
  cas : List (Id × Bytes)
  cat : Catalog Id
  trees : List (TreeRow Id)
  snapshots : List (SnapshotRow Id)
  db : RepoTables Id

section Statements

variable {Id : Type} [Platform Id]

/-! ### Blobs -/

/-- `cas.get`. -/
def casGet (cas : List (Id × Bytes)) (id : Id) : Option Bytes := cas.lookup id

/-- `cas.put`: a second put of the same content is a no-op; content over the
blob limit is refused. -/
def casPut (cas : List (Id × Bytes)) (bytes : Bytes) : Option (List (Id × Bytes)) :=
  if blobLimit < bytes.length then none
  else if (casGet cas (Platform.blobId bytes)).isSome then some cas
  else some (cas ++ [(Platform.blobId bytes, bytes)])

/-- `object_row_upsert`: stamps the touch and clears a pending condemnation. -/
def objectRowUpsert (cat : Catalog Id) (objectId : Id) (size touchedNs : ℕ) : Catalog Id where
  objects :=
    if cat.objects.any (fun row => decide (row.objectId = objectId)) then
      cat.objects.map (fun row =>
        if row.objectId = objectId then ⟨objectId, size, touchedNs⟩ else row)
    else cat.objects ++ [⟨objectId, size, touchedNs⟩]
  gcPending := cat.gcPending.map (fun row =>
    if row.scope = .blob ∧ row.id = objectId then { row with condemnedAt := none } else row)

/-- `objects_missing`. -/
def objectsMissing (cat : Catalog Id) (ids : List Id) : List Id :=
  ids.filter (fun id => !cat.objects.any (fun row => decide (row.objectId = id)))

/-! ### Changesets -/

/-- `changeset_get` and `changeset_graph`. -/
def changesetGet (db : RepoTables Id) (id : Id) : Option (ChangesetRow Id) :=
  db.changesets.find? (fun row => decide (row.id = id))

/-- `file_changes_list`. -/
def fileChangesList (db : RepoTables Id) (cs : Id) : List (FileChange Id) :=
  ((changesetGet db cs).map (·.changes)).getD []

/-- `INSERT OR IGNORE` of ids into a membership table. -/
def membersInsert (rows ids : List Id) : List Id :=
  ids.foldl (fun rows id => if id ∈ rows then rows else rows ++ [id]) rows

/-- The blobs an Add or a Mod names, each once. -/
def changeBlobs (changes : List (FileChange Id)) : List Id :=
  membersInsert [] (changes.filterMap (fun c => if c.op = .del then none else c.blob))

/-- Everything one changeset insert writes. -/
structure ChangesetInsert (Id : Type) [Platform Id] where
  id : Id
  canonical : Canonical Id
  generation : ℕ
  principal : String
  rootTreeId : Id
  blobs : List Id
  trees : List (TreeRow Id)
  /-- the importer's `git_map` row -/
  gitMapOid : Option GitOid

def ChangesetInsert.row (rec : ChangesetInsert Id) : ChangesetRow Id where
  id := rec.id
  canonical := rec.canonical
  generation := rec.generation
  principal := rec.principal
  rootTreeId := rec.rootTreeId
  parents := rec.canonical.cs.parents
  changes := rec.canonical.cs.changes

/-- `changeset_insert_rows`: `none` where a primary key stands in the way. -/
def changesetInsertRows (cx : RepoCx Id) (rec : ChangesetInsert Id) : Option (RepoCx Id) :=
  if (changesetGet cx.db rec.id).isSome then none
  else if rec.gitMapOid.any (fun oid => (cx.db.gitMap.lookup oid).isSome) then none
  else some
    { cx with
      trees := treesInsert cx.trees rec.trees
      db :=
        { cx.db with
          changesets := cx.db.changesets ++ [rec.row]
          repoBlobs := membersInsert cx.db.repoBlobs rec.blobs
          gitMap := cx.db.gitMap ++ (rec.gitMapOid.map (·, rec.id)).toList
          repoTrees := membersInsert cx.db.repoTrees (rec.trees.map (·.id)) } }

/-! ### Redactions -/

/-- `redaction_active`: a tombstone row stands, purged or not. -/
def redactionActive (db : RepoTables Id) (objectId : Id) : Bool :=
  db.redactions.any (fun row => decide (row.objectId = objectId))

/-- The tombstoned ids, in the order of their marks. -/
def RepoTables.tombstoned (db : RepoTables Id) : List Id :=
  db.redactions.map (fun row => row.objectId)

theorem redactionActive_iff {db : RepoTables Id} {id : Id} :
    redactionActive db id = true ↔ id ∈ db.tombstoned := by
  simp [redactionActive, RepoTables.tombstoned]

/-- `redactions_active_among`, in the primary key's order. -/
def redactionsActiveAmong (db : RepoTables Id) (ids : List Id) : List Id :=
  (ids.dedup.filter (redactionActive db)).insertionSort (· ≤ ·)

/-! ### Refs -/

def refGet (db : RepoTables Id) (name : String) : Option (RefRow Id) :=
  db.refs.find? (fun row => decide (row.name = name))

inductive RefCas (Id : Type)
  | created
  | updated (version : ℕ)
  | conflict (currentVersion : ℕ) (currentTarget : Option Id)
  | refMissing
  deriving DecidableEq

/-- `ref_cas_inner` past its registry probe. -/
def refCas (db : RepoTables Id) (name : String) (target : Id) (expected : Option ℕ)
    (principal : String) : RefCas Id × RepoTables Id :=
  match expected, refGet db name with
  | none, none =>
      (.created, { db with refs := db.refs ++ [⟨name, some target, 1, principal⟩] })
  | none, some current => (.conflict current.version current.target, db)
  | some _, none => (.refMissing, db)
  | some version, some current =>
      if current.version ≠ version then (.conflict current.version current.target, db)
      else
        (.updated (current.version + 1),
          { db with refs := db.refs.map (fun row =>
              if row.name = name then
                { row with
                  target := some target
                  version := current.version + 1
                  lastPrincipal := principal }
              else row) })

/-- `main_cas_move`, with the number of rows it updated. -/
def mainCasMove (db : RepoTables Id) (expectedTarget newTarget : Id) (principal : String) :
    ℕ × RepoTables Id :=
  let hit := fun (row : RefRow Id) =>
    decide (row.name = "main") && decide (row.target = some expectedTarget)
  ((db.refs.filter hit).length,
    { db with refs := db.refs.map (fun row =>
        if hit row then
          { row with
            target := some newTarget
            version := row.version + 1
            lastPrincipal := principal }
        else row) })

/-! ### Lands -/

def LandRow.keyed (principal key : String) (row : LandRow Id) : Bool :=
  decide (row.principal = principal) && decide (row.key = key)

def landGet (db : RepoTables Id) (principal key : String) : Option (LandRow Id) :=
  db.lands.find? (·.keyed principal key)

/-- `land_insert_pending`. -/
def landInsertPending (db : RepoTables Id) (principal key : String) (head : Id) :
    RepoTables Id :=
  { db with lands := db.lands ++ [⟨principal, key, .pending, some head, none, none⟩] }

/-- `land_settle`, the upsert form. -/
def landSettle (db : RepoTables Id) (principal key : String) (head base : Id)
    (state : LandStatus) (result : LandResult Id) : RepoTables Id :=
  let settled : LandRow Id := ⟨principal, key, state, some head, some base, some result⟩
  { db with
    lands :=
      if (landGet db principal key).isSome then
        db.lands.map (fun row => if row.keyed principal key then settled else row)
      else db.lands ++ [settled] }

/-! ### Probes -/

theorem redactionsActiveAmong_eq_nil {db : RepoTables Id} {ids : List Id}
    (h : redactionsActiveAmong db ids = []) : ∀ id ∈ ids, redactionActive db id = false := by
  intro id hid
  by_contra hactive
  rw [Bool.not_eq_false] at hactive
  have hmem : id ∈ redactionsActiveAmong db ids := by
    rw [redactionsActiveAmong, List.mem_insertionSort, List.mem_filter, List.mem_dedup]
    exact ⟨hid, hactive⟩
  rw [h] at hmem
  exact List.not_mem_nil hmem

theorem redactionActive_of_eq {db db' : RepoTables Id} (h : db'.redactions = db.redactions)
    (id : Id) : redactionActive db' id = redactionActive db id := by
  rw [redactionActive, h, redactionActive]

/-! ### Lookups of a growing table -/

theorem changesetGet_some {db : RepoTables Id} {id : Id} {row : ChangesetRow Id}
    (h : changesetGet db id = some row) : row ∈ db.changesets ∧ row.id = id :=
  ⟨List.mem_of_find?_eq_some h, by simpa using List.find?_some h⟩

theorem changesetGet_isSome {db : RepoTables Id} {id : Id} :
    (changesetGet db id).isSome ↔ id ∈ db.changesets.map (fun row => row.id) := by
  simp [changesetGet, List.find?_isSome]

/-- Every changeset found before is found still, with the same row. -/
def RepoTables.Keeps (db db' : RepoTables Id) : Prop :=
  ∀ id row, changesetGet db id = some row → changesetGet db' id = some row

theorem RepoTables.Keeps.refl (db : RepoTables Id) : db.Keeps db := fun _ _ h => h

theorem RepoTables.Keeps.trans {a b c : RepoTables Id} (hab : a.Keeps b) (hbc : b.Keeps c) :
    a.Keeps c :=
  fun id row h => hbc id row (hab id row h)

theorem RepoTables.Keeps.of_eq {db db' : RepoTables Id} (h : db'.changesets = db.changesets) :
    db.Keeps db' := by
  intro id row hrow
  rwa [changesetGet, h]

theorem RepoTables.Keeps.of_append {db db' : RepoTables Id} {rows : List (ChangesetRow Id)}
    (h : db'.changesets = db.changesets ++ rows) : db.Keeps db' := by
  intro id row hrow
  rw [changesetGet] at hrow
  rw [changesetGet, h, List.find?_append, hrow, Option.some_or]

theorem changesetGet_append_new {db db' : RepoTables Id} {row : ChangesetRow Id}
    (h : db'.changesets = db.changesets ++ [row]) (hfresh : changesetGet db row.id = none) :
    changesetGet db' row.id = some row := by
  rw [changesetGet] at hfresh
  rw [changesetGet, h, List.find?_append, hfresh]
  simp

end Statements

end Naatre
