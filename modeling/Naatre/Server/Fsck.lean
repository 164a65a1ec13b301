import Naatre.Server.Gc

/-!
The consistency checker (`naatre-server/src/fsck.rs`, `db::fsck_danglings_repo`
and the statements beside it). The derived-data checks are left out with the
derived tables, and the totals of the audit log with the log.
-/

namespace Naatre

section

variable {Id : Type} [Platform Id]

structure FsckReport where
  changesets : ℕ
  changesetsMarked : ℕ
  blobsDb : ℕ
  blobsCas : ℕ
  blobsMarked : ℕ
  trees : ℕ
  treesProtected : ℕ
  candidatesPending : ℕ
  candidatesPastGrace : ℕ
  danglings : List (String × ℕ)
  bytesMissing : ℕ
  casUnrecorded : ℕ
  staleCandidates : ℕ
  advisoryMembershipMissing : ℕ
  advisoryMembershipExtra : ℕ
  redactionsActive : ℕ
  redactionsPurged : ℕ
  redactionPurgeDrift : ℕ
  deriving DecidableEq, Repr

/-- `FsckReport::clean`. -/
def FsckReport.clean (report : FsckReport) : Bool :=
  report.danglings.all (fun entry => decide (entry.2 = 0))
    && decide (report.bytesMissing = 0) && decide (report.redactionPurgeDrift = 0)

/-- `Mark::reachable`. -/
def Mark.reachable (mark : Mark Id) (row : PendingRow Id) : Bool :=
  match row.scope with
  | .cs => decide (row.id ∈ mark.cs)
  | .blob => decide (row.id ∈ mark.blobs)
  | .tree => decide (row.id ∈ mark.trees)

namespace Server

/-- The changeset ids of a file. -/
def fileCs (s : Server Id) (f : RepoId) : List Id :=
  (s.reposOf f).flatMap (fun r => (s.dbs r).changesets.map (fun row => row.id))

/-- The ids a check reads from the tables of one file. -/
def fileRefs (s : Server Id) (f : RepoId) (select : RepoTables Id → List Id) : List Id :=
  (s.reposOf f).flatMap (fun r => select (s.dbs r))

/-- How many of the ids have no row among `rows`. -/
def missingCount (rows ids : List Id) : ℕ := (ids.filter (· ∉ rows)).length

/-- The dangling checks that live in one file, `fsck_danglings_repo`. -/
def fileDanglings (s : Server Id) (f : RepoId) : List (String × ℕ) :=
  let cs := s.fileCs f
  let trees := (s.trees f).map (fun row => row.id)
  let refs := s.fileRefs f
  [("changeset_parent_missing",
      missingCount cs (refs fun db => db.changesets.flatMap (fun row => row.parents))),
    ("tree_child_row_missing", missingCount trees ((s.trees f).flatMap (fun row => row.dirs))),
    ("changeset_root_tree_missing",
      missingCount trees (refs fun db => db.changesets.map (fun row => row.rootTreeId))),
    ("ref_target_missing",
      missingCount cs (refs fun db => db.refs.filterMap (fun row => row.target))),
    ("land_head_missing",
      missingCount cs (refs fun db => db.lands.filterMap (fun row => row.head))),
    ("land_base_missing",
      missingCount cs (refs fun db => db.lands.filterMap (fun row => row.base))),
    ("git_map_cs_missing", missingCount cs (refs fun db => db.gitMap.map (fun row => row.2)))]

/-- The cross-file checks against the catalog's `objects` rows. -/
def blobDanglings (s : Server Id) : List (String × ℕ) :=
  let present := s.cat.objects.map (fun row => row.objectId)
  [("file_change_blob_row_missing",
      missingCount present
        (s.repoIds.flatMap fun r => (s.dbs r).changesets.flatMap (fun row => row.blobs))),
    ("tree_blob_row_missing",
      missingCount present (s.files.flatMap fun f => (s.trees f).flatMap (fun row => row.files))),
    ("membership_row_object_missing",
      missingCount present (s.repoIds.flatMap fun r => (s.dbs r).repoBlobs))]

/-- The order of the report's entries. -/
def danglingNames : List String :=
  ["changeset_parent_missing", "file_change_blob_row_missing", "tree_blob_row_missing",
    "tree_child_row_missing", "changeset_root_tree_missing", "ref_target_missing",
    "land_head_missing", "land_base_missing", "git_map_cs_missing",
    "membership_row_object_missing"]

/-- The counts of one name, summed over the registry; in single-DB mode each
repository reads the whole database again. -/
def danglings (s : Server Id) : List (String × ℕ) :=
  let counts := s.repoIds.flatMap (fun r => s.fileDanglings (s.file r)) ++ s.blobDanglings
  danglingNames.filterMap fun name =>
    let hits := counts.filter (fun entry => decide (entry.1 = name))
    if hits = [] then none else some (name, (hits.map (fun entry => entry.2)).sum)

/-- The purge-drift arm of `fsck_redactions_repo` and its catalog half. -/
def purgeDrift (s : Server Id) (r : RepoId) : ℕ :=
  let cs := s.fileCs (s.file r)
  ((s.dbs r).redactions.filter (fun row =>
    match row.purgedNs, row.kind with
    | none, _ => false
    | some _, .changeset => decide (row.objectId ∈ cs)
    | some stamp, .blob => s.cat.objects.any (fun o =>
        decide (o.objectId = row.objectId) && decide (o.touchedNs < stamp)))).length

/-- `scan`. -/
def fsck (s : Server Id) : FsckReport :=
  let mark := s.mark s.nowNs
  let cut : ℤ := (s.nowNs : ℤ) - s.graceNs
  let blobs := s.cat.objects.map (fun row => row.objectId)
  let cas := (s.cas.map (fun b => b.1)).dedup
  let redactions := s.repoIds.flatMap (fun r => (s.dbs r).redactions)
  let expected := fun r => ((s.dbs r).changesets.flatMap (fun row => row.blobs)).dedup
  { changesets := (s.repoIds.map (fun r => (s.dbs r).changesets.length)).sum
    changesetsMarked := mark.cs.dedup.length
    blobsDb := blobs.length
    blobsCas := cas.length
    blobsMarked := mark.blobs.dedup.length
    trees := (s.repoIds.map (fun r => (s.trees (s.file r)).length)).sum
    treesProtected := mark.trees.dedup.length
    candidatesPending := s.cat.gcPending.length
    candidatesPastGrace :=
      (s.cat.gcPending.filter (fun row => decide ((row.firstNs : ℤ) ≤ cut))).length
    danglings := s.danglings
    bytesMissing := (blobs.filter (fun id => (casGet s.cas id).isNone)).length
    casUnrecorded := (cas.filter (· ∉ blobs)).length
    staleCandidates := (s.cat.gcPending.filter (Mark.reachable mark)).length
    advisoryMembershipMissing :=
      (s.repoIds.map (fun r =>
        ((expected r).filter (· ∉ (s.dbs r).repoBlobs)).length)).sum
    advisoryMembershipExtra :=
      (s.repoIds.map (fun r =>
        ((s.dbs r).repoBlobs.dedup.filter (· ∉ expected r)).length)).sum
    redactionsActive := (redactions.filter (fun row => row.purgedNs.isNone)).length
    redactionsPurged := (redactions.filter (fun row => row.purgedNs.isSome)).length
    redactionPurgeDrift := (s.repoIds.map s.purgeDrift).sum }

end Server

end

end Naatre
