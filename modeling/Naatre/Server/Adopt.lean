import Naatre.Lib.Session
import Naatre.Server.Reads
import Naatre.Server.Schema

/-!
The offline adoption (`naatre-server/src/adopt.rs`): a single-database store
copied into a catalog and one database for each repository.

The copy moves rows between databases by the three lists of tables. What a
server reads of its files is rebuilt from the rows (`DataDir.store`). The texts
of the driver are left out of the errors.
-/

namespace Naatre

/-! ### The lists -/

/-- `REPO_TABLES`. -/
def repoTables : List Table :=
  [.changesets, .changesetParents, .fileChanges, .repoBlobs, .refs, .lands, .snapshots, .gitMap,
    .deriveState, .deriveReports, .blameState, .pathHistory, .redactions]

/-- `REPO_TABLES_NO_REPO_ID`. -/
def repoTablesNoRepoId : List Table := [.trees, .treeEntries, .repoTrees]

/-- `CATALOG_TABLES`. -/
def catalogTables : List Table :=
  [.objects, .principals, .tokens, .auditLog, .deriveKinds, .gcPending]

section

variable {Id : Type} [Platform Id]

/-! ### The data directory -/

/-- What stands in the data directory beside the configuration. -/
structure DataDir (Id : Type) [Platform Id] where
  /-- another process holds the lock -/
  locked : Bool
  /-- a write-ahead log lies beside the single database -/
  wal : Bool
  cas : List (Id × Bytes)
  ephemeral : List (SnapDir Id)
  naatreDb : Option (Database Id)
  catalogDb : Option (Database Id)
  repos : Option (RepoId → Option (Database Id))

namespace DataDir

/-- A server over these files, with nothing in flight. -/
def server (dir : DataDir Id) (layout : Layout) (nowNs graceNs : ℕ) (catalog : Database Id)
    (file : RepoId → Database Id) : Server Id :=
  { layout
    nowNs
    graceNs
    repos := catalog.accounts.repos
    cas := dir.cas
    cat := ⟨catalog .objects, catalog .gcPending⟩
    ephemeral := dir.ephemeral
    trees := fun f => (file f).treeRows
    snapshots := fun f => file f .snapshots
    dbs := fun r => (file (layout.file r)).tables r
    creates := []
    gc := none
    snapshotGc := [] }

def store (dir : DataDir Id) (layout : Layout) (nowNs graceNs : ℕ) (catalog : Database Id)
    (file : RepoId → Database Id) : Store Id :=
  { server := dir.server layout nowNs graceNs catalog file
    accounts := catalog.accounts
    index := fun r => catalog.pathIndex (file (layout.file r)) r }

/-- The single database, catalog and file of every repository at once. -/
def openSingle (dir : DataDir Id) (nowNs graceNs : ℕ) : Option (Store Id) :=
  dir.naatreDb.map fun db => dir.store .singleDb nowNs graceNs db fun _ => db

/-- The file of a repository, as the split layout opens it: made anew where it
is missing. -/
def repoFile (dir : DataDir Id) (id : RepoId) : Database Id :=
  ((dir.repos.bind fun files => files id).getD (.migrated "13"))

/-- `open_backend_adopt`: no look at the marker. -/
def openUnchecked (dir : DataDir Id) (nowNs graceNs : ℕ) : Option (Store Id) :=
  dir.catalogDb.map fun catalog => dir.store .dbPerRepo nowNs graceNs catalog dir.repoFile

/-- `open_catalog`: a catalog without the marker is refused. -/
def openSplit (dir : DataDir Id) (nowNs graceNs : ℕ) : Option (Store Id) :=
  if dir.catalogDb.any fun catalog => catalog.adopted then dir.openUnchecked nowNs graceNs
  else none

end DataDir

/-! ### The steps of an adoption -/

/-- One step that can fail, in the order the source takes them. -/
inductive AdoptStep
  | catalogOpen
  | catalogMigrate
  | openSource
  | registryRead
  | reposDir
  | repoDbCreate (id : RepoId)
  | attachRepo (id : RepoId)
  | registryWrite (row : RegistryRow)
  | repoCopy (id : RepoId) (table : Table)
  | treeCopy (id : RepoId) (table : Table)
  | repoParity (id : RepoId) (table : Table)
  | treeParity (id : RepoId) (table : Table)
  | detachRepo (row : RegistryRow)
  | catalogCopy (table : Table)
  | metaRead
  | metaCopy (key value : String)
  | catalogParity (table : Table)
  | openSplit
  | fsck
  | adoptedMarker
  deriving DecidableEq

/-- The step an error names; a write-ahead log beside the source has its own. -/
def AdoptStep.text (wal : Bool) : AdoptStep → String
  | .catalogOpen | .catalogMigrate => "catalog create"
  | .openSource => if wal then "source open (hot WAL)" else "open source"
  | .registryRead => if wal then "source open (hot WAL)" else "registry read"
  | .reposDir => "repos dir"
  | .repoDbCreate _ => "repo db create"
  | .attachRepo _ => "attach repo"
  | .registryWrite _ => "registry write"
  | .repoCopy _ _ | .treeCopy _ _ => "repo copy"
  | .repoParity _ _ | .treeParity _ _ => "parity"
  | .detachRepo _ => "detach repo"
  | .catalogCopy _ => "catalog copy"
  | .metaRead => "meta read"
  | .metaCopy _ _ => "meta copy"
  | .catalogParity _ => "parity"
  | .openSplit => "open split store"
  | .fsck => "fsck"
  | .adoptedMarker => "adopted marker"

structure RepoAdopted where
  id : RepoId
  name : String
  rows : List (String × ℕ)
  dbFile : String
  deriving DecidableEq, Repr

structure AdoptReport where
  repos : List RepoAdopted
  catalogRows : List (String × ℕ)
  fsckClean : Bool
  deriving DecidableEq, Repr

/-- The directory and the report so far. -/
structure AdoptState (Id : Type) [Platform Id] where
  dir : DataDir Id
  /-- the rows copied for the repository in work -/
  counts : List (String × ℕ)
  report : AdoptReport

/-- The clock and the grace window of the verifying server, and the marker's
value. -/
structure AdoptClock where
  nowNs : ℕ
  graceNs : ℕ
  nowSecs : ℕ

/-- `repos/<id>.db`. -/
def dbFileOf (id : RepoId) : String := "repos/" ++ toString id ++ ".db"

namespace AdoptState

def mapCatalog (s : AdoptState Id) (f : Database Id → Database Id) : Option (AdoptState Id) :=
  s.dir.catalogDb.map fun catalog => { s with dir := { s.dir with catalogDb := some (f catalog) } }

/-- Rows into a repository's file; a file that was not made has no tables. -/
def copyInto (s : AdoptState Id) (id : RepoId) (table : Table) (rows : List (table.Row Id)) :
    Option (AdoptState Id) := do
  let files ← s.dir.repos
  let db ← files id
  some { s with
    dir := { s.dir with repos := some (Function.update files id (some (db.insert table rows))) }
    counts := s.counts ++ [(table.name, rows.length)] }

def parity (s : AdoptState Id) (id : RepoId) (table : Table) (source : ℕ) :
    Option (AdoptState Id) := do
  let files ← s.dir.repos
  let db ← files id
  if source = (db table).length then some s else none

end AdoptState

/-- What a step does when nothing outside fails it. -/
def AdoptStep.run (clock : AdoptClock) (src : Database Id) (s : AdoptState Id) :
    AdoptStep → Option (AdoptState Id)
  | .catalogOpen => some { s with dir := { s.dir with catalogDb := some fun _ => [] } }
  | .catalogMigrate => s.mapCatalog fun _ => .migrated "2"
  | .openSource | .registryRead | .metaRead => some s
  | .reposDir => some { s with dir := { s.dir with repos := some fun _ => none } }
  | .repoDbCreate id => do
      let files ← s.dir.repos
      some { s with
        dir := { s.dir with repos := some (Function.update files id (some (.migrated "13"))) } }
  | .attachRepo _ => some { s with counts := [] }
  | .registryWrite row => s.mapCatalog fun catalog => catalog.insert .repos [row]
  | .repoCopy id table => s.copyInto id table (src.ofRepo table id)
  | .treeCopy id table => s.copyInto id table (src table)
  | .repoParity id table => s.parity id table (src.ofRepo table id).length
  | .treeParity id table => s.parity id table (src table).length
  | .detachRepo row => some { s with
      report := { s.report with
        repos := s.report.repos ++ [⟨row.id, row.name, s.counts, dbFileOf row.id⟩] } }
  | .catalogCopy table => do
      let s ← s.mapCatalog fun catalog => catalog.insert table (src table)
      some { s with report := { s.report with
        catalogRows := s.report.catalogRows ++ [(table.name, (src table).length)] } }
  | .metaCopy key value => s.mapCatalog fun catalog => catalog.insert .metaRows [(key, value)]
  | .catalogParity table => do
      let catalog ← s.dir.catalogDb
      if (src table).length = (catalog table).length then some s else none
  | .openSplit => (s.dir.openUnchecked clock.nowNs clock.graceNs).map fun _ => s
  | .fsck => do
      let store ← s.dir.openUnchecked clock.nowNs clock.graceNs
      if store.server.fsck.clean then
        some { s with report := { s.report with fsckClean := true } }
      else none
  | .adoptedMarker => s.mapCatalog fun catalog => catalog.insert .metaRows
      [(Database.adoptedMarker, "db-per-repo " ++ toString clock.nowSecs)]

/-- The steps of one repository. -/
def adoptRepo (row : RegistryRow) : List AdoptStep :=
  [AdoptStep.repoDbCreate row.id, .attachRepo row.id, .registryWrite row] ++
    repoTables.map (AdoptStep.repoCopy row.id) ++
    repoTablesNoRepoId.map (AdoptStep.treeCopy row.id) ++
    repoTables.map (AdoptStep.repoParity row.id) ++
    repoTablesNoRepoId.map (AdoptStep.treeParity row.id) ++ [AdoptStep.detachRepo row]

/-- The markers of the source's `meta`. -/
def metaMarkers (src : Database Id) : List (String × String) :=
  (src .metaRows : List (String × String)).filter fun row =>
    decide (row.1 ≠ Database.schemaVersion)

/-- Every step; the marker is the last. -/
def adoptSteps (src : Database Id) : List AdoptStep :=
  [AdoptStep.catalogOpen, .catalogMigrate, .openSource, .registryRead, .reposDir] ++
    ((src .repos : List RegistryRow).insertionSort fun a b => a.id ≤ b.id).flatMap adoptRepo ++
    catalogTables.map AdoptStep.catalogCopy ++
    [AdoptStep.metaRead] ++ (metaMarkers src).map (fun row => AdoptStep.metaCopy row.1 row.2) ++
    catalogTables.map AdoptStep.catalogParity ++
    [AdoptStep.openSplit, .fsck, .adoptedMarker]

/-! ### The adoption -/

/-- Takes the steps in turn; the `i`-th meets `faults i`. An error in making a
repository's file is dropped by the source. -/
def takeSteps (clock : AdoptClock) (src : Database Id) (faults : ℕ → Option Lib.Fault) :
    ℕ → AdoptState Id → List AdoptStep → AdoptState Id × Option (AdoptStep × Lib.Fault)
  | _, s, [] => (s, none)
  | i, s, step :: steps =>
      match faults i, step with
      | some .crash, step => (s, some (step, .crash))
      | some .error, .repoDbCreate _ => takeSteps clock src faults (i + 1) s steps
      | some .error, step => (s, some (step, .error))
      | none, step =>
          match step.run clock src s with
          | none => (s, some (step, .error))
          | some s' => takeSteps clock src faults (i + 1) s' steps

inductive AdoptError
  | live
  | notSingleDb (text : String)
  | postgresUnsupported
  | failed (step cleanup : String)
  deriving DecidableEq, Repr

/-- What the outside does to one adoption. -/
structure AdoptFaults where
  steps : ℕ → Option Lib.Fault
  flock : Bool
  /-- why `catalog.db`, its siblings and `repos/` could not be removed -/
  catalogStays : Option String
  siblingsStay : List String
  reposStay : Option String

/-- How an adoption ends. -/
inductive AdoptEnd
  | adopted (report : AdoptReport)
  | failed (e : AdoptError)
  | crashed
  deriving DecidableEq, Repr

def AdoptFaults.cleanupText (faults : AdoptFaults) : String :=
  let failures := faults.catalogStays.toList ++ faults.siblingsStay ++ faults.reposStay.toList
  if failures.isEmpty then "partial targets removed"
  else "PARTIAL TARGETS REMAIN: " ++ String.intercalate "; " failures ++
    " — remove them by hand before re-running"

/-- `cleanup`. -/
def cleanup (faults : AdoptFaults) (dir : DataDir Id) : DataDir Id :=
  { dir with
    catalogDb := if faults.catalogStays.isSome then dir.catalogDb else none
    repos := if faults.reposStay.isSome then dir.repos else none }

/-- The configured backend and the name of the data directory. -/
structure AdoptConfig where
  postgres : Bool
  data : String

def alreadyAdopted : String :=
  "catalog.db already exists and the adoption COMPLETED (the adopted marker is present) — the " ++
    "split is servable; delete catalog.db and repos/ only if you mean to abandon db-per-repo " ++
    "(post-cutover writes are lost) and start over"

def incompleteMigration : String :=
  "incomplete migration — catalog.db carries no adopted marker: the previous adoption died " ++
    "mid-copy. Delete catalog.db and repos/ and re-run `naatre migrate-db-per-repo`"

def reposExist (data : String) : String :=
  "refusing to adopt: " ++ data ++ "/repos already exists (a previous run's or another store's " ++
    "per-repo files) — remove it first; the adoption writes every repo file itself"

/-- `adopt_db_per_repo`. -/
def adoptDbPerRepo (cfg : AdoptConfig) (clock : AdoptClock) (faults : AdoptFaults)
    (dir : DataDir Id) : AdoptEnd × DataDir Id :=
  if cfg.postgres then (.failed .postgresUnsupported, dir)
  else match dir.naatreDb with
  | none => (.failed (.notSingleDb ("no naatre.db in " ++ cfg.data)), dir)
  | some src =>
  match dir.catalogDb with
  | some catalog =>
      (.failed (.notSingleDb (if catalog.adopted then alreadyAdopted else incompleteMigration)), dir)
  | none =>
  if dir.repos.isSome then (.failed (.notSingleDb (reposExist cfg.data)), dir)
  else if dir.locked then (.failed .live, dir)
  else if faults.flock then (.failed (.failed "flock" "partial targets removed"), dir)
  else match takeSteps clock src faults.steps 0 ⟨dir, [], ⟨[], [], false⟩⟩ (adoptSteps src) with
  | (s, none) => (.adopted s.report, s.dir)
  | (s, some (_, .crash)) => (.crashed, s.dir)
  | (s, some (step, .error)) =>
      (.failed (.failed (step.text dir.wal) faults.cleanupText), cleanup faults s.dir)

end

end Naatre
