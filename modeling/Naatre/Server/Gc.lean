import Naatre.Server.SnapshotsGc

/-!
Reachability GC (`naatre-server/src/gc.rs`) and its statements (`db.rs`): the
mark, the ledger update, the collection batches and the redaction purge. A
batch holds the coordinated lock, so it is one step; a crash can fall between
any two steps and leaves what was committed. The transactions of one batch,
file after file, are not told apart: a crash between two of them is left out.
-/

namespace Naatre

/-- `GC_BATCH_ROWS`, `GC_BATCH_BLOBS`. -/
def gcBatchRows : ℕ := 10000
def gcBatchBlobs : ℕ := 256

section

variable {Id : Type} [Platform Id]

/-! ### The mark -/

/-- `lands` results of one repository. -/
def landedIds (db : RepoTables Id) : List Id :=
  db.lands.filterMap (fun row => row.result.map (fun result => result.landed))

/-- `gc_seed_changesets` and the landed results. -/
def seedChangesets (db : RepoTables Id) : List Id :=
  db.refs.filterMap (fun row => row.target)
    ++ db.lands.filterMap (fun row => row.head) ++ db.lands.filterMap (fun row => row.base)
    ++ db.gitMap.map (fun row => row.2) ++ landedIds db

/-- The parent closure; an id without a row has no parents. -/
def csClosure (db : RepoTables Id) (seeds : List Id) : List Id :=
  (Lib.walk (fun id => some ((parentsOf db id).getD [])) (walkFuel db seeds.length)
    seeds []).getD []

/-- The blobs the conflict representations of a changeset name. -/
def repBlobs (cs : Changeset Id) : List Id :=
  cs.conflicts.flatMap (fun rep => rep.base.toList ++ rep.sides)

/-- The blob ids of a changeset's `file_changes` rows. -/
def ChangesetRow.blobs (row : ChangesetRow Id) : List Id :=
  row.changes.filterMap (fun c => c.blob)

namespace Server

/-- `mark_repo`. -/
def markRepo (s : Server Id) (nowNs : ℕ) (r : RepoId) : Mark Id :=
  let db := s.dbs r
  let trees := s.trees (s.file r)
  let cs := csClosure db (seedChangesets db)
  let rows := db.changesets.filter (fun row => decide (row.id ∈ cs))
  let snapshots := (s.snapshots (s.file r)).filter
    (fun row => decide (row.repoId = r) && decide (nowNs < row.expiresNs))
  let closure := treeClosure trees
    (rows.map (fun row => row.rootTreeId) ++ snapshots.map (fun row => row.treeId))
  { cs := cs
    blobs := rows.flatMap (fun row => row.blobs)
      ++ rows.flatMap (fun row => repBlobs row.canonical.cs)
      ++ (closure.filterMap (treeGet trees)).flatMap (fun row => row.files)
    trees := closure }

/-- `mark`: the union over the registry. -/
def mark (s : Server Id) (nowNs : ℕ) : Mark Id :=
  let marks := s.repoIds.map (s.markRepo nowNs)
  { cs := marks.flatMap (fun m => m.cs)
    blobs := marks.flatMap (fun m => m.blobs)
    trees := marks.flatMap (fun m => m.trees) }

end Server

/-! ### The ledger -/

/-- `gc_candidates_delete`. -/
def gcCandidatesDelete (cat : Catalog Id) (scope : GcScope) (ids : List Id) : Catalog Id :=
  { cat with
    gcPending := cat.gcPending.filter
      (fun row => !(decide (row.scope = scope) && decide (row.id ∈ ids))) }

/-- The order of `(first_ns, id)`. -/
def pendingBefore (a b : PendingRow Id) : Bool :=
  decide (a.firstNs < b.firstNs) || (decide (a.firstNs = b.firstNs) && decide (a.id ≤ b.id))

/-- A candidate page: the ledger rows `keep` holds of, oldest first. -/
def candidatePage (cat : Catalog Id) (keep : PendingRow Id → Bool) (limit : ℕ) : List Id :=
  (((cat.gcPending.filter keep).insertionSort (fun a b => pendingBefore a b = true)).take
    limit).map (fun row => row.id)

/-- The blob's row was touched after the cut. -/
def touchedAfter (cat : Catalog Id) (cutNs : ℤ) (id : Id) : Bool :=
  cat.objects.any (fun row => decide (row.objectId = id) && decide (cutNs < row.touchedNs))

/-- `gc_cs_candidates`, `gc_tree_candidates`. -/
def agedCandidates (cat : Catalog Id) (scope : GcScope) (cutNs : ℤ) (limit : ℕ) : List Id :=
  candidatePage cat
    (fun row => decide (row.scope = scope) && decide ((row.firstNs : ℤ) ≤ cutNs)) limit

/-- `gc_blob_candidates`. -/
def blobCandidates (cat : Catalog Id) (cutNs : ℤ) (limit : ℕ) : List Id :=
  candidatePage cat
    (fun row => decide (row.scope = .blob) && decide ((row.firstNs : ℤ) ≤ cutNs)
      && row.condemnedAt.isNone && !touchedAfter cat cutNs row.id) limit

/-- `gc_condemned_blob_candidates`. -/
def condemnedCandidates (cat : Catalog Id) (nowNs : ℕ) (cutNs : ℤ) (limit : ℕ) : List Id :=
  candidatePage cat
    (fun row => decide (row.scope = .blob) && decide ((row.firstNs : ℤ) ≤ cutNs)
      && row.condemnedAt.any (fun at' => decide (at' < nowNs))) limit

/-- `gc_condemn_blobs`. -/
def condemnBlobs (cat : Catalog Id) (ids : List Id) (nowNs : ℕ) : Catalog Id :=
  { cat with gcPending := cat.gcPending.map (fun row =>
      if row.scope = .blob ∧ row.id ∈ ids then { row with condemnedAt := some nowNs } else row) }

/-- `gc_collect_blobs_catalog`. -/
def collectBlobsCatalog (cat : Catalog Id) (ids : List Id) : Catalog Id :=
  gcCandidatesDelete
    { cat with objects := cat.objects.filter (fun row => decide (row.objectId ∉ ids)) } .blob ids

/-- The chunks of a ledger update. -/
def ledgerChunks (write : List Id → LedgerWrite Id) (ids : List Id) : List (LedgerWrite Id) :=
  (ids.toChunks gcBatchRows).map write

def ledgerWrite (cat : Catalog Id) (nowNs : ℕ) : LedgerWrite Id → Catalog Id
  | .observe scope ids => gcCandidatesUpsert cat scope ids nowNs
  | .repair scope ids => gcCandidatesDelete cat scope ids

namespace Server

/-! ### Probes -/

/-- No ref, land, git row or child of the file names the changeset. -/
def csUnreferenced (s : Server Id) (f : RepoId) (id : Id) : Bool :=
  (s.reposOf f).all fun r =>
    let db := s.dbs r
    !(db.refs.any (fun row => decide (row.target = some id))
      || db.lands.any (fun row => decide (row.head = some id) || decide (row.base = some id))
      || db.gitMap.any (fun row => decide (row.2 = id))
      || db.changesets.any (fun row => decide (id ∈ row.parents)))

/-- An active, unpurged tombstone of the kind stands in the repository. -/
def tombstoned (db : RepoTables Id) (kind : RedactionKind) (id : Id) : Bool :=
  db.redactions.any (fun row =>
    decide (row.objectId = id) && decide (row.kind = kind) && row.purgedNs.isNone)

/-- `gc_cs_collectible_probe`. -/
def csCollectible (s : Server Id) (candidates : List Id) (r : RepoId) : List (Id × ℕ) :=
  ((s.dbs r).changesets.filter (fun row =>
    decide (row.id ∈ candidates) && s.csUnreferenced (s.file r) row.id
      && !tombstoned (s.dbs r) .changeset row.id)).map (fun row => (row.id, row.generation))

/-- `gc_blob_referenced_among`, over every file. -/
def blobReferenced (s : Server Id) (id : Id) : Bool :=
  s.repoIds.any (fun r => (s.dbs r).changesets.any (fun row => decide (id ∈ row.blobs)))
    || s.files.any (fun f => (s.trees f).any (fun row => decide (id ∈ row.files)))

/-- `subtract_blob_probes`. -/
def subtractBlobProbes (s : Server Id) (ids : List Id) : List Id :=
  ids.filter (fun id => !(s.blobReferenced id
    || s.repoIds.any (fun r => tombstoned (s.dbs r) .blob id)))

/-- `exclusively_unreferenced`. -/
def exclusivelyUnreferenced (s : Server Id) (cutNs : ℤ) (ids : List Id) : List Id :=
  ids.filter (fun id => !touchedAfter s.cat cutNs id && !s.blobReferenced id)

/-- `gc_tree_protected_among`: what a file's changeset roots and unexpired
snapshots reach, of the rows it holds. -/
def treeProtected (s : Server Id) (nowNs : ℕ) (f : RepoId) (id : Id) : Bool :=
  (treeGet (s.trees f) id).isSome &&
    decide (id ∈ treeClosure (s.trees f)
      ((s.reposOf f).flatMap (fun r => (s.dbs r).changesets.map (fun row => row.rootTreeId))
        ++ s.snapshotRoots f nowNs))

/-! ### Deletes -/

/-- `gc_collect_cs_repo`, on the files the batch was partitioned to. -/
def collectCs (s : Server Id) (dead : RepoId → List Id) : Server Id :=
  s.mapRepos fun r db =>
    { db with changesets := db.changesets.filter (fun row => decide (row.id ∉ dead (s.file r))) }

/-- `gc_collect_blobs_repo`, on every file. -/
def collectBlobsRepos (s : Server Id) (ids : List Id) : Server Id :=
  s.mapRepos fun _ db => { db with repoBlobs := db.repoBlobs.filter (· ∉ ids) }

/-- Bytes, membership rows, then the catalog's rows. -/
def collectBlobs (s : Server Id) (ids : List Id) : Server Id :=
  let s := { s with cas := s.cas.filter (fun b => decide (b.1 ∉ ids)) }
  let s := s.collectBlobsRepos ids
  { s with cat := collectBlobsCatalog s.cat ids }

/-- `gc_collect_trees_repo`, on every file. -/
def collectTrees (s : Server Id) (ids : List Id) : Server Id :=
  (s.dropTrees (fun _ id => decide (id ∈ ids))).mapRepos fun _ db =>
    { db with repoTrees := db.repoTrees.filter (· ∉ ids) }

/-- `redaction_stamp_purged`, on the files `keep` holds of. -/
def stampPurged (s : Server Id) (onFile : RepoId → Bool) (kind : RedactionKind) (ids : List Id)
    (nowNs : ℕ) : Server Id :=
  s.mapRepos fun r db =>
    { db with redactions := db.redactions.map (fun row =>
        if onFile (s.file r) = true ∧ row.kind = kind ∧ row.objectId ∈ ids ∧ row.purgedNs = none
        then { row with purgedNs := some nowNs } else row) }

/-! ### Batches -/

/-- The order of `(generation, id)`. -/
def generationBefore (a b : Id × ℕ) : Bool :=
  decide (a.2 < b.2) || (decide (a.2 = b.2) && decide (a.1 ≤ b.1))

/-- The ids a changeset batch collects. -/
def csBatchIds (s : Server Id) (landed : List Id) (cutNs : ℤ) : List Id :=
  let candidates := agedCandidates s.cat .cs cutNs gcBatchRows
  let merged := (s.repoIds.flatMap (s.csCollectible candidates)).insertionSort
    (fun a b => generationBefore a b = true)
  ((merged.map (fun p => p.1)).filter (· ∉ landed)).take gcBatchRows

/-- The batch's ids that came from repositories of a file. -/
def partition (s : Server Id) (select : RepoId → List Id) (batch : List Id) (f : RepoId) :
    List Id :=
  (s.reposOf f).flatMap (fun r => (select r).filter (· ∈ batch))

/-- One changeset batch, with the number of rows it collected and the length of
its candidate page. -/
def csBatch (s : Server Id) (landed : List Id) (cutNs : ℤ) : Server Id × ℕ × ℕ :=
  let candidates := agedCandidates s.cat .cs cutNs gcBatchRows
  let present := s.repoIds.flatMap (fun r => (s.dbs r).changesets.map (fun row => row.id))
  let phantoms := candidates.filter (· ∉ present)
  let batch := s.csBatchIds landed cutNs
  let s' := { s with cat := gcCandidatesDelete s.cat .cs phantoms }
  let dead := s.partition (fun r => (s.csCollectible candidates r).map (fun p => p.1)) batch
  let s' := s'.collectCs dead
  ({ s' with cat := gcCandidatesDelete s'.cat .cs batch }, batch.length, candidates.length)

def condemnIds (s : Server Id) (cutNs : ℤ) : List Id :=
  s.subtractBlobProbes (blobCandidates s.cat cutNs gcBatchBlobs)

def blobBatchIds (s : Server Id) (nowNs : ℕ) (cutNs : ℤ) : List Id :=
  s.subtractBlobProbes (condemnedCandidates s.cat nowNs cutNs gcBatchBlobs)

def treeBatchIds (s : Server Id) (nowNs : ℕ) (cutNs : ℤ) : List Id :=
  (agedCandidates s.cat .tree cutNs gcBatchRows).filter
    (fun id => !s.files.any (fun f => s.treeProtected nowNs f id))

def treeBatch (s : Server Id) (nowNs : ℕ) (cutNs : ℤ) : Server Id :=
  let batch := s.treeBatchIds nowNs cutNs
  let s := s.collectTrees batch
  { s with cat := gcCandidatesDelete s.cat .tree batch }

/-- `redact_purgeable_cs_repo`, past the lands filter. -/
def purgeableCs (s : Server Id) (landed : List Id) (r : RepoId) : List Id :=
  let rows := (s.reposOf (s.file r)).flatMap (fun r' => (s.dbs r').changesets)
  let hits := rows.filter (fun row =>
    tombstoned (s.dbs r) .changeset row.id && s.csUnreferenced (s.file r) row.id)
  (((hits.map (fun row => (row.id, row.generation))).insertionSort
    (fun a b => generationBefore a b = true)).map (fun p => p.1)).take gcBatchRows
    |>.filter (· ∉ landed)

/-- The changesets one purge batch purges. -/
def purgeCsIds (s : Server Id) (landed : List Id) : List Id :=
  s.repoIds.flatMap (s.purgeableCs landed)

/-- The batch's ids that a file holds. -/
def purgeCsDead (s : Server Id) (landed : List Id) : RepoId → List Id :=
  s.partition (s.purgeableCs landed) (s.purgeCsIds landed)

/-- The blobs the purged changesets name. -/
def purgeCsBlobs (s : Server Id) (landed : List Id) : List Id :=
  ((s.files.flatMap fun f => (s.reposOf f).flatMap fun r =>
    ((s.dbs r).changesets.filter (fun row => decide (row.id ∈ s.purgeCsDead landed f))).flatMap
      (fun row => row.blobs)).insertionSort (· ≤ ·)).dedup

/-- The rows of a purge batch: the changesets, their stamps and their ledger
rows. -/
def purgeCsRows (s : Server Id) (landed : List Id) (nowNs : ℕ) : Server Id :=
  let dead := s.purgeCsDead landed
  let purged := s.purgeCsIds landed
  let s := (s.collectCs dead).stampPurged (fun f => dead f ≠ []) .changeset purged nowNs
  { s with cat := gcCandidatesDelete s.cat .cs purged }

/-- One changeset purge batch, with the number of changesets it purged. -/
def purgeCsBatch (s : Server Id) (landed : List Id) (nowNs : ℕ) (cutNs : ℤ) : Server Id × ℕ :=
  if s.purgeCsIds landed = [] then (s, 0)
  else
    let blobs := s.purgeCsBlobs landed
    let s' := s.purgeCsRows landed nowNs
    let exclusive := s'.exclusivelyUnreferenced cutNs blobs
    ((s'.collectBlobs exclusive).stampPurged (fun _ => true) .blob exclusive nowNs,
      (s.purgeCsIds landed).length)

/-- `redact_blob_tombstones_repo`. -/
def blobTombstones (db : RepoTables Id) : List (Id × ℕ) :=
  (((db.redactions.filter (fun row => decide (row.kind = .blob) && row.purgedNs.isNone)).map
    (fun row => (row.objectId, row.markedNs))).insertionSort
      (fun a b => generationBefore a b = true)).take gcBatchBlobs

/-- The blobs one tombstone batch purges. -/
def purgeBlobIds (s : Server Id) (cutNs : ℤ) : List Id :=
  let work := ((s.repoIds.flatMap (fun r => blobTombstones (s.dbs r))).insertionSort
    (fun a b => generationBefore a b = true)).take gcBatchBlobs
  s.exclusivelyUnreferenced cutNs (membersInsert [] (work.map (fun p => p.1)))

def purgeBlobBatch (s : Server Id) (nowNs : ℕ) (cutNs : ℤ) : Server Id :=
  let batch := s.purgeBlobIds cutNs
  (s.collectBlobs batch).stampPurged (fun _ => true) .blob batch nowNs

/-! ### The pass -/

/-- `landed_everywhere`. -/
def landedEverywhere (s : Server Id) : List Id := s.repoIds.flatMap (fun r => landedIds (s.dbs r))

/-- The ledger writes of one pass: what is unreachable is observed, what is
reachable is repaired. -/
def ledgerWrites (mark : Mark Id) (inventory cs trees : List Id) : List (LedgerWrite Id) :=
  ledgerChunks (.observe .cs) (cs.filter (· ∉ mark.cs))
    ++ ledgerChunks (.observe .blob) (inventory.filter (· ∉ mark.blobs))
    ++ ledgerChunks (.observe .tree) (trees.filter (· ∉ mark.trees))
    ++ ledgerChunks (.repair .cs) mark.cs ++ ledgerChunks (.repair .blob) mark.blobs
    ++ ledgerChunks (.repair .tree) mark.trees

/-- Starts a pass: the clock and the mark. -/
def gcStart (s : Server Id) : Server Id :=
  let pass : GcPass Id :=
    { nowNs := s.nowNs
      cutNs := (s.nowNs : ℤ) - s.graceNs
      mark := s.mark s.nowNs
      pc := .objectRows }
  { s with gc := some pass }

/-- The next step of a pass, `none` once it has ended. -/
def gcPassStep (s : Server Id) (pass : GcPass Id) : Server Id × Option (GcPass Id) :=
  let goto := fun pc => some { pass with pc := pc }
  let now := pass.nowNs
  let cut := pass.cutNs
  match pass.pc with
  | .objectRows => (s, goto (.casIds (s.cat.objects.map (fun row => row.objectId))))
  | .casIds rows => (s, goto (.changesets (rows ++ s.cas.map (fun b => b.1)).dedup))
  | .changesets inventory =>
      (s, goto (.trees inventory
        (s.repoIds.flatMap (fun r => (s.dbs r).changesets.map (fun row => row.id)))))
  | .trees inventory cs =>
      (s, goto (.ledger (ledgerWrites pass.mark inventory cs
        (s.repoIds.flatMap (fun r => (s.trees (s.file r)).map (fun row => row.id))))))
  | .ledger (write :: rest) =>
      ({ s with cat := ledgerWrite s.cat now write }, goto (.ledger rest))
  | .ledger [] => (s, goto .landed)
  | .landed => (s, goto (.csBatch s.landedEverywhere))
  | .csBatch landed =>
      let (s', collected, raw) := s.csBatch landed cut
      (s', goto (if collected = 0 ∨ raw < gcBatchRows then .condemn else .csBatch landed))
  | .condemn =>
      let ids := s.condemnIds cut
      ({ s with cat := condemnBlobs s.cat ids now },
        goto (if ids.length < gcBatchBlobs then .blobBatch else .condemn))
  | .blobBatch =>
      let ids := s.blobBatchIds now cut
      (s.collectBlobs ids, goto (if ids.length < gcBatchBlobs then .treeBatch else .blobBatch))
  | .treeBatch =>
      (s.treeBatch now cut,
        goto (if (s.treeBatchIds now cut).length < gcBatchRows then .purgeProbe else .treeBatch))
  | .purgeProbe =>
      if s.repoIds.any (fun r => (s.dbs r).redactions.any (fun row => row.purgedNs.isNone)) then
        (s, goto .purgeLanded)
      else (s, none)
  | .purgeLanded => (s, goto (.purgeCs s.landedEverywhere))
  | .purgeCs landed =>
      let (s', purged) := s.purgeCsBatch landed now cut
      (s', goto (if purged = 0 ∨ purged < gcBatchRows then .purgeBlobs else .purgeCs landed))
  | .purgeBlobs =>
      (s.purgeBlobBatch now cut,
        if (s.purgeBlobIds cut).length < gcBatchBlobs then none else goto .purgeBlobs)

def gcStep (s : Server Id) : Option (Server Id) :=
  s.gc.map fun pass =>
    let (s', next) := s.gcPassStep pass
    { s' with gc := next }

end Server

end

end Naatre
