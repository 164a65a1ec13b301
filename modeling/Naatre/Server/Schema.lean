import Mathlib.Logic.Function.Basic
import Naatre.Server.Access
import Naatre.Server.Log

/-!
The schema (`naatre-store/src/migrate.rs`): the tables of a database file with
their rows, the statements that add to them and what a server reads of them.

The columns that hold parts of a frame (the author, the message and the
timestamp of a changeset) are read off the frame.
-/

namespace Naatre

/-! ### Tables -/

/-- The tables of `migrate.rs`. -/
inductive Table
  | repos
  | changesets
  | changesetParents
  | fileChanges
  | repoBlobs
  | refs
  | trees
  | treeEntries
  | repoTrees
  | objects
  | principals
  | tokens
  | lands
  | snapshots
  | auditLog
  | gitMap
  | deriveKinds
  | deriveState
  | deriveReports
  | blameState
  | pathHistory
  | gcPending
  | redactions
  | repoAccess
  | metaRows
  deriving DecidableEq, Repr

def Table.name : Table → String
  | .repos => "repos"
  | .changesets => "changesets"
  | .changesetParents => "changeset_parents"
  | .fileChanges => "file_changes"
  | .repoBlobs => "repo_blobs"
  | .refs => "refs"
  | .trees => "trees"
  | .treeEntries => "tree_entries"
  | .repoTrees => "repo_trees"
  | .objects => "objects"
  | .principals => "principals"
  | .tokens => "tokens"
  | .lands => "lands"
  | .snapshots => "snapshots"
  | .auditLog => "audit_log"
  | .gitMap => "git_map"
  | .deriveKinds => "derive_kinds"
  | .deriveState => "derive_state"
  | .deriveReports => "derive_reports"
  | .blameState => "blame_state"
  | .pathHistory => "path_history"
  | .gcPending => "gc_pending"
  | .redactions => "redactions"
  | .repoAccess => "repo_access"
  | .metaRows => "meta"

/-- A row with a leading `repo_id`. -/
structure InRepo (α : Type) where
  repoId : RepoId
  row : α
  deriving DecidableEq

structure RegistryRow where
  id : RepoId
  name : String
  createdNs : ℕ
  deriving DecidableEq, Repr

/-- The columns of `changesets`; the author, message and timestamp of the frame
are columns too. -/
structure ChangesetColumns (Id : Type) [Platform Id] where
  id : Id
  canonical : Canonical Id
  generation : ℕ
  principal : String
  rootTreeId : Id

structure ParentColumns (Id : Type) where
  cs : Id
  parent : Id
  ord : ℕ
  deriving DecidableEq

structure ChangeColumns (Id : Type) where
  cs : Id
  change : FileChange Id
  deriving DecidableEq

structure TreeColumns (Id : Type) where
  id : Id
  repoId : RepoId
  canonical : TreeFrame Id
  deriving DecidableEq

structure EntryColumns (Id : Type) where
  treeId : Id
  entry : TreeEntry Id
  deriving DecidableEq

structure AuditColumns where
  id : ℕ
  tsNs : ℕ
  principal : String
  action : String
  detailsJson : String
  deriving DecidableEq

structure BlameColumns (Id : Type) where
  cs : Id
  path : Path
  blobId : Option Id
  parentBlobId : Option Id
  deriving DecidableEq

section

variable (Id : Type) [Platform Id]

/-- The rows of a table. -/
def Table.Row : Table → Type
  | .repos => RegistryRow
  | .changesets => InRepo (ChangesetColumns Id)
  | .changesetParents => InRepo (ParentColumns Id)
  | .fileChanges => InRepo (ChangeColumns Id)
  | .repoBlobs => InRepo Id
  | .refs => InRepo (RefRow Id)
  | .trees => TreeColumns Id
  | .treeEntries => EntryColumns Id
  | .repoTrees => InRepo Id
  | .objects => ObjectRow Id
  | .principals => PrincipalRow
  | .tokens => TokenRow
  | .lands => InRepo (LandRow Id)
  | .snapshots => SnapshotRow Id
  | .auditLog => AuditColumns
  | .gitMap => InRepo (GitOid × Id)
  | .deriveKinds => ℕ × String
  | .deriveState => DeriveRow Id
  | .deriveReports => DeriveReport Id
  | .blameState => InRepo (BlameColumns Id)
  | .pathHistory => InRepo (HistoryRow Id)
  | .gcPending => PendingRow Id
  | .redactions => InRepo (RedactionRow Id)
  | .repoAccess => AccessRow
  | .metaRows => String × String

/-- A database file. -/
abbrev Database := (table : Table) → List (table.Row Id)

end

section

variable {Id : Type} [Platform Id]

/-- The `repo_id` column, where `WHERE repo_id = ?1` names one. -/
def Table.repoId : (table : Table) → table.Row Id → Option RepoId
  | .changesets => fun row => some (InRepo.repoId row)
  | .changesetParents => fun row => some (InRepo.repoId row)
  | .fileChanges => fun row => some (InRepo.repoId row)
  | .repoBlobs => fun row => some (InRepo.repoId row)
  | .refs => fun row => some (InRepo.repoId row)
  | .trees => fun row => some (TreeColumns.repoId row)
  | .repoTrees => fun row => some (InRepo.repoId row)
  | .lands => fun row => some (InRepo.repoId row)
  | .snapshots => fun row => some (SnapshotRow.repoId row)
  | .gitMap => fun row => some (InRepo.repoId row)
  | .deriveState => fun row => some (DeriveRow.key row).repoId
  | .deriveReports => fun row => some (DeriveReport.key row).repoId
  | .blameState => fun row => some (InRepo.repoId row)
  | .pathHistory => fun row => some (InRepo.repoId row)
  | .redactions => fun row => some (InRepo.repoId row)
  | .repoAccess => fun row => some (AccessRow.repoId row)
  | _ => fun _ => none

namespace Database

/-- `ADOPTED_MARKER`. -/
def adoptedMarker : String := "adopted"

def schemaVersion : String := "schema_version"

/-- A database its migrations have just run in. -/
def migrated (version : String) : Database Id
  | .metaRows => [(schemaVersion, version)]
  | _ => []

/-- `INSERT INTO` of rows. -/
def insert (db : Database Id) (table : Table) (rows : List (table.Row Id)) : Database Id :=
  Function.update db table (db table ++ rows)

theorem insert_self (db : Database Id) (table : Table) (rows : List (table.Row Id)) :
    db.insert table rows table = db table ++ rows := Function.update_self ..

theorem insert_of_ne (db : Database Id) {table table' : Table} (rows : List (table.Row Id))
    (h : table' ≠ table) : db.insert table rows table' = db table' := Function.update_of_ne h ..

def nextAuditId (db : Database Id) : ℕ :=
  ((db .auditLog : List AuditColumns).map fun row => row.id).foldl max 0 + 1

/-- `audit_append`. -/
def auditAppend (db : Database Id) (tsNs : ℕ) (principal action detailsJson : String) :
    Database Id :=
  db.insert .auditLog [(⟨db.nextAuditId, tsNs, principal, action, detailsJson⟩ : AuditColumns)]

/-- `SELECT * … WHERE repo_id = ?1`. -/
def ofRepo (db : Database Id) (table : Table) (id : RepoId) : List (table.Row Id) :=
  (db table).filter fun row => decide (table.repoId row = some id)

def metaGet (db : Database Id) (key : String) : Option String :=
  (db .metaRows : List (String × String)).lookup key

/-- `store_has_adopted_marker`. -/
def adopted (db : Database Id) : Bool := (db.metaGet adoptedMarker).isSome

/-! ### What a server reads of its files -/

def rowsOf {α : Type} (rows : List (InRepo α)) (id : RepoId) : List α :=
  (rows.filter fun row => decide (row.repoId = id)).map (·.row)

/-- A changeset's row joined with its parents and its changes. -/
def changesetRow (db : Database Id) (id : RepoId) (cs : ChangesetColumns Id) : ChangesetRow Id :=
  { id := cs.id
    canonical := cs.canonical
    generation := cs.generation
    principal := cs.principal
    rootTreeId := cs.rootTreeId
    parents :=
      (((rowsOf (db .changesetParents) id).filter fun p => decide (p.cs = cs.id)).insertionSort
        fun a b => a.ord ≤ b.ord).map (·.parent)
    changes :=
      ((rowsOf (db .fileChanges) id).filter fun c => decide (c.cs = cs.id)).map (·.change) }

/-- The rows the statements of one repository read. -/
def tables (db : Database Id) (id : RepoId) : RepoTables Id :=
  { changesets := (rowsOf (db .changesets) id).map (db.changesetRow id)
    refs := rowsOf (db .refs) id
    lands := rowsOf (db .lands) id
    redactions := rowsOf (db .redactions) id
    repoBlobs := rowsOf (db .repoBlobs) id
    repoTrees := rowsOf (db .repoTrees) id
    gitMap := rowsOf (db .gitMap) id }

/-- The trees of a file. The entries of a tree are those of its frame, so a
tree counts where all of them have their rows. -/
def treeRows (db : Database Id) : List (TreeRow Id) :=
  let entries : List (EntryColumns Id) := db .treeEntries
  ((db .trees : List (TreeColumns Id)).filter fun t => t.canonical.tree.entries.all fun e =>
    decide (EntryColumns.mk t.id e ∈ entries)).map fun t => ⟨t.id, t.canonical⟩

/-- `derive_kind_id`. -/
def deriveKindId (catalog : Database Id) (name : String) : Option ℕ :=
  ((catalog .deriveKinds : List (ℕ × String)).find? fun row => decide (row.2 = name)).map Prod.fst

/-- `derive_backfill_marker_key`. -/
def deriveBackfillMarkerKey (kindName : String) : String := "derive_backfill_done:" ++ kindName

/-- `KIND_PATH_HISTORY`. -/
def kindPathHistory : String := "path_history"

/-- What the history of a path reads: the kind and its completion marker in the
catalog, the queue and the index in the repository's file. -/
def pathIndex (catalog db : Database Id) (id : RepoId) : PathIndex Id :=
  { kind := catalog.deriveKindId kindPathHistory
    backfillDone := (catalog.metaGet (deriveBackfillMarkerKey kindPathHistory)).isSome
    rows := (db .deriveState : List (DeriveRow Id)).filter fun row =>
      decide (row.key.repoId = id)
    history := rowsOf (db .pathHistory) id }

def accounts (catalog : Database Id) : Accounts :=
  { repos := (catalog .repos : List RegistryRow).map fun row => (row.id, row.name)
    principals := catalog .principals
    tokens := catalog .tokens
    access := catalog .repoAccess }

end Database

end

end Naatre
