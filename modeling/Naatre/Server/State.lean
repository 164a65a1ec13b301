import Naatre.Server.Routes
import Naatre.Server.Snapshots

/-!
The server (`naatre-server/src/state.rs`, `router.rs`): the stores of every
repository, in both database layouts, and the work in flight between two
committed steps.
-/

namespace Naatre

/-- `Layout`: one database for everything, or one for each repository. -/
inductive Layout
  | singleDb
  | dbPerRepo
  deriving DecidableEq, Repr

/-- The database file a repository's rows live in. -/
def Layout.file : Layout → RepoId → RepoId
  | .singleDb, _ => 0
  | .dbPerRepo, r => r

section

variable (Id : Type) [Platform Id]

/-! ### Work in flight -/

/-- The reachable sets of a collector's mark. -/
structure Mark where
  cs : List Id
  blobs : List Id
  trees : List Id

/-- One write of the collector's ledger update. -/
inductive LedgerWrite
  | observe (scope : GcScope) (ids : List Id)
  | repair (scope : GcScope) (ids : List Id)

/-- Where a collector's pass stands: its next step. -/
inductive GcPc
  | objectRows
  | casIds (rows : List Id)
  | changesets (inventory : List Id)
  | trees (inventory cs : List Id)
  | ledger (writes : List (LedgerWrite Id))
  | landed
  | csBatch (landed : List Id)
  | condemn
  | blobBatch
  | treeBatch
  | purgeProbe
  | purgeLanded
  | purgeCs (landed : List Id)
  | purgeBlobs

/-- A reachability pass in flight. -/
structure GcPass where
  nowNs : ℕ
  /-- the end of the grace window; it may lie before the epoch -/
  cutNs : ℤ
  mark : Mark Id
  pc : GcPc Id

/-- Where a snapshot pass stands: its next step. -/
inductive SgcPc
  | rowless (expired : List Id)
  | crossCheck (expired candidates : List Id)
  | deleteDirs (expired rowless todo : List Id)
  | probe (purgable : List Id) (rowlessSwept : ℕ)
  | purge (purgable : List Id)

/-- A snapshot-GC pass in flight. -/
structure SgcPass where
  nowNs : ℕ
  pc : SgcPc Id

/-- The server's stores, and what is in flight. -/
structure Server where
  layout : Layout
  nowNs : ℕ
  graceNs : ℕ
  /-- the registry, `(id, name)` -/
  repos : List (RepoId × String)
  cas : List (Id × Bytes)
  cat : Catalog Id
  ephemeral : List (SnapDir Id)
  /-- tree rows and snapshot rows by database file -/
  trees : RepoId → List (TreeRow Id)
  snapshots : RepoId → List (SnapshotRow Id)
  dbs : RepoId → RepoTables Id
  /-- creates between their parent lookup and their write -/
  creates : List (RepoId × PreparedCreate Id)
  gc : Option (GcPass Id)
  snapshotGc : List (SgcPass Id)

end

section

variable {Id : Type} [Platform Id]

def RepoTables.empty : RepoTables Id := ⟨[], [], [], [], [], [], []⟩

/-- A freshly initialised store with its registered repositories. -/
def Server.boot (layout : Layout) (repos : List (RepoId × String)) (nowNs graceNs : ℕ) :
    Server Id where
  layout := layout
  nowNs := nowNs
  graceNs := graceNs
  repos := repos
  cas := []
  cat := ⟨[], []⟩
  ephemeral := []
  trees := fun _ => []
  snapshots := fun _ => []
  dbs := fun _ => .empty
  creates := []
  gc := none
  snapshotGc := []

namespace Server

/-- `repo_ids`. -/
def repoIds (s : Server Id) : List RepoId := s.repos.map (·.1)

def file (s : Server Id) (r : RepoId) : RepoId := s.layout.file r

/-- The files a whole-store walk visits. -/
def files (s : Server Id) : List RepoId :=
  match s.layout with
  | .singleDb => [0]
  | .dbPerRepo => s.repoIds

/-- The repositories whose rows a file holds. -/
def reposOf (s : Server Id) (f : RepoId) : List RepoId :=
  s.repoIds.filter (fun r => decide (s.file r = f))

/-- `RepoCx`: what a closure on one repository sees. -/
def cx (s : Server Id) (r : RepoId) : RepoCx Id where
  id := r
  name := (s.repos.lookup r).getD ""
  catIsDb := decide (s.layout = .singleDb)
  cas := s.cas
  cat := s.cat
  trees := s.trees (s.file r)
  snapshots := s.snapshots (s.file r)
  db := s.dbs r

/-- What the closure on one repository committed. -/
def put (s : Server Id) (r : RepoId) (cx : RepoCx Id) : Server Id :=
  { s with
    cas := cx.cas
    cat := cx.cat
    trees := fun f => if f = s.file r then cx.trees else s.trees f
    snapshots := fun f => if f = s.file r then cx.snapshots else s.snapshots f
    dbs := fun r' => if r' = r then cx.db else s.dbs r' }

@[simp] theorem put_nowNs (s : Server Id) (r : RepoId) (cx : RepoCx Id) :
    (s.put r cx).nowNs = s.nowNs := rfl

@[simp] theorem put_layout (s : Server Id) (r : RepoId) (cx : RepoCx Id) :
    (s.put r cx).layout = s.layout := rfl

@[simp] theorem put_file (s : Server Id) (r r' : RepoId) (cx : RepoCx Id) :
    (s.put r cx).file r' = s.file r' := rfl

@[simp] theorem put_repoIds (s : Server Id) (r : RepoId) (cx : RepoCx Id) :
    (s.put r cx).repoIds = s.repoIds := rfl

@[simp] theorem put_cas (s : Server Id) (r : RepoId) (cx : RepoCx Id) :
    (s.put r cx).cas = cx.cas := rfl

@[simp] theorem put_cat (s : Server Id) (r : RepoId) (cx : RepoCx Id) :
    (s.put r cx).cat = cx.cat := rfl

@[simp] theorem put_ephemeral (s : Server Id) (r : RepoId) (cx : RepoCx Id) :
    (s.put r cx).ephemeral = s.ephemeral := rfl

@[simp] theorem put_dbs_self (s : Server Id) (r : RepoId) (cx : RepoCx Id) :
    (s.put r cx).dbs r = cx.db := by simp [put]

theorem put_dbs_of_ne (s : Server Id) {r r' : RepoId} (cx : RepoCx Id) (h : r' ≠ r) :
    (s.put r cx).dbs r' = s.dbs r' := by simp [put, h]

@[simp] theorem cx_db (s : Server Id) (r : RepoId) : (s.cx r).db = s.dbs r := rfl

@[simp] theorem cx_id (s : Server Id) (r : RepoId) : (s.cx r).id = r := rfl

/-- Replaces the tables of every repository of the registry. -/
def mapRepos (s : Server Id) (f : RepoId → RepoTables Id → RepoTables Id) : Server Id :=
  { s with dbs := fun r => if r ∈ s.repoIds then f r (s.dbs r) else s.dbs r }

/-- Removes tree rows from every file. -/
def dropTrees (s : Server Id) (dead : RepoId → Id → Bool) : Server Id :=
  { s with trees := fun f =>
      if f ∈ s.files then (s.trees f).filter (fun row => !dead f row.id) else s.trees f }

end Server

end

end Naatre
