import Naatre.Server.Closure
import Naatre.Server.Land

/-!
Snapshots: the per-snapshot blob directories (`naatre-store/src/ephemeral.rs`)
and the snapshot routes (`routes/snapshots.rs`).

A directory belongs to a snapshot id alone; the row that names the id belongs
to a repository, and in the split layout each repository has a table of rows of
its own.
-/

namespace Naatre

/-- `MAX_SNAPSHOT_TREES`, `MAX_SNAPSHOT_BLOBS`, `MISSING_BLOBS_LIST_CAP`. -/
def maxSnapshotTrees : ℕ := 10000
def maxSnapshotBlobs : ℕ := 8192
def missingBlobsListCap : ℕ := 256

/-- `SNAPSHOT_DEFAULT_TTL_SECS`, `SNAPSHOT_MIN_TTL_SECS`,
`SNAPSHOT_TTL_MAX_SECS`. -/
def snapshotDefaultTtlSecs : ℕ := 604800
def snapshotMinTtlSecs : ℕ := 60
def snapshotTtlMaxSecs : ℕ := 366 * 24 * 60 * 60

/-- `SNAPSHOT_MAX_TTL_NS`. -/
def snapshotMaxTtlNs : ℕ := snapshotDefaultTtlSecs * 1000000000

section

variable {Id : Type} [Platform Id]

/-! ### The ephemeral store -/

/-- `ephemeral/<snap-id>/`. The directory's own mtime is the time its first
blob made it. -/
structure SnapDir (Id : Type) where
  snap : Id
  mtimeNs : ℕ
  blobs : List (Id × Bytes)
  deriving DecidableEq

/-- The blobs of one snapshot's directory. -/
def snapBlobs (ephemeral : List (SnapDir Id)) (snap : Id) : List (Id × Bytes) :=
  ((ephemeral.find? (fun d => decide (d.snap = snap))).map (fun d => d.blobs)).getD []

/-- `has`, for one id. -/
def ephemeralHas (ephemeral : List (SnapDir Id)) (snap id : Id) : Bool :=
  (snapBlobs ephemeral snap).any (fun b => decide (b.1 = id))

/-- `put_blob` of the ephemeral store. -/
def ephemeralPut (ephemeral : List (SnapDir Id)) (snap : Id) (payload : Bytes) (nowNs : ℕ) :
    List (SnapDir Id) :=
  let id := Platform.blobId payload
  if ephemeral.any (fun d => decide (d.snap = snap)) then
    ephemeral.map (fun d =>
      if d.snap = snap ∧ ¬ d.blobs.any (fun b => decide (b.1 = id)) then
        { d with blobs := d.blobs ++ [(id, payload)] }
      else d)
  else ephemeral ++ [⟨snap, nowNs, [(id, payload)]⟩]

/-- `delete_snapshot`. -/
def ephemeralDelete (ephemeral : List (SnapDir Id)) (snap : Id) : List (SnapDir Id) :=
  ephemeral.filter (fun d => decide (d.snap ≠ snap))

/-- `rowless_dirs`: the directories older than the threshold. -/
def rowlessDirs (ephemeral : List (SnapDir Id)) (olderThanNs : ℕ) : List Id :=
  (ephemeral.filter (fun d => decide (d.mtimeNs < olderThanNs))).map (fun d => d.snap)

/-! ### The posted closure -/

/-- The first file of the subtree at `id`, relative to it
(`closure_first_file`). -/
def closureFirstFile (trees : List (TreeRow Id)) : ℕ → Id → Option String
  | 0, _ => none
  | fuel + 1, id =>
      match treeGet trees id with
      | none => none
      | some row => row.canonical.tree.entries.findSome? fun e =>
          match e.kind with
          | .file => some e.name
          | .dir => (closureFirstFile trees fuel e.object).map (e.name ++ "/" ++ ·)

/-- The scope admits every path below a directory of this text. -/
def scopeCovers (scope dir : String) : Bool := decide (dir ≠ "") && scopeAllows (some scope) dir

/-- The scope path lies below a directory of this text. -/
def scopeStraddles (scope dir : String) : Bool := dir.toList.isPrefixOf scope.toList

/-- What one entry of a straddling directory contributes. -/
def entryViolation (trees : List (TreeRow Id)) (scope dir : String) (e : TreeEntry Id) :
    Option String :=
  let path := dir ++ e.name
  match e.kind with
  | .file => if scopeAllows (some scope) path then none else some path
  | .dir =>
      let child := path ++ "/"
      if scopeCovers scope child || scopeStraddles scope child then none
      else (closureFirstFile trees trees.length e.object).map (child ++ ·)

/-- The walk of `violation_in_closure` below one occurrence. -/
def closureViolation (trees : List (TreeRow Id)) (scope : String) : ℕ → Id → String → Option String
  | 0, _, _ => none
  | fuel + 1, id, dir =>
      match treeGet trees id with
      | none => none
      | some row =>
          if scopeCovers scope dir then none
          else if !scopeStraddles scope dir then
            (closureFirstFile trees trees.length id).map (dir ++ ·)
          else
            let entries := row.canonical.tree.entries
            match entries.findSome? (entryViolation trees scope dir) with
            | some path => some path
            | none => entries.reverse.findSome? fun e =>
                let child := dir ++ e.name ++ "/"
                if e.kind = .dir ∧ ¬ scopeCovers scope child ∧ scopeStraddles scope child then
                  closureViolation trees scope fuel e.object child
                else none

/-- `violation_in_closure`. -/
def violationInClosure (trees : List (TreeRow Id)) (root : Id) (scope : Option String) :
    Option String :=
  scope.bind fun scope => closureViolation trees scope (trees.length + 1) root ""

/-- The distinct blobs of `walk_closure`, past its cap too. -/
def closureBlobs (trees : List (TreeRow Id)) (root : Id) : List Id :=
  (((treeClosure trees [root]).filterMap (treeGet trees)).flatMap (fun row => row.files)).dedup

/-! ### Snapshot create -/

structure SnapshotRequest (Id : Type) where
  repoName : String
  principal : String
  scope : Option String
  snapId : Id
  treeId : Id
  ttlSecs : Option ℕ
  trees : List (TreeFrame Id)

structure SnapshotCreated (Id : Type) where
  id : Id
  expiresNs : ℕ
  deriving DecidableEq

/-- `decode_trees`, from the decoded frames on: the id-keyed map. -/
def decodeTrees (frames : List (TreeFrame Id)) : Except (ApiError Id) (List (TreeRow Id)) :=
  if maxSnapshotTrees < frames.length then
    .error (.new .validation
      ("snapshots take at most " ++ toString maxSnapshotTrees ++ " trees per POST"))
  else if frames.any (fun f => decide (maxObjectBytes < f.tree.encodedLen)) then
    .error (.new .tooLarge "canonical tree exceeds the 16 MiB cap")
  else match frames.findSome? (fun f => match f.tree.validate with
      | .error e => some e
      | .ok () => none) with
    | some e => .error (.new .validation e.message)
    | none => .ok (treesInsert [] (frames.map fun f => ⟨Platform.treeId f, f⟩))

/-- The first directory entry that names no posted tree. -/
def missingSubtree (trees : List (TreeRow Id)) : Option Id :=
  (trees.flatMap (fun row => row.dirs)).find? (fun id => (treeGet trees id).isNone)

/-- The effective TTL, between its floor and its ceiling. -/
def effectiveTtl (req : SnapshotRequest Id) : Except (ApiError Id) ℕ :=
  let ttl := req.ttlSecs.getD snapshotDefaultTtlSecs
  if ttl < snapshotMinTtlSecs then
    .error (.new .validation
      ("ttl_secs must be at least " ++ toString snapshotMinTtlSecs ++ " seconds"))
  else if snapshotTtlMaxSecs < ttl then
    .error (.new .validation
      ("ttl_secs must be at most " ++ toString snapshotTtlMaxSecs ++ " seconds (366 days)"))
  else .ok ttl

/-- A snapshot request that passed the checks made before the write slot. -/
structure PreparedSnapshot (Id : Type) where
  ttlNs : ℕ
  trees : List (TreeRow Id)
  blobs : List Id

/-- The checks of `create` before its write slot. -/
def snapshotPrepare (req : SnapshotRequest Id) : Except (ApiError Id) (PreparedSnapshot Id) := do
  let ttl ← effectiveTtl req
  let trees ← decodeTrees req.trees
  if (treeGet trees req.treeId).isNone then
    .error ((ApiError.new .validation
      "the referenced tree is not among the posted trees").withDetails
      (.missingTrees [req.treeId]))
  else match missingSubtree trees with
  | some id =>
      .error ((ApiError.new .validation ("subtree " ++ Platform.toHex id ++
        " is referenced but not posted; send the full closure")).withDetails
        (.missingTrees [id]))
  | none =>
  match violationInClosure trees req.treeId req.scope with
  | some path =>
      .error ((ApiError.new .forbidden "path is outside this token's scope").withDetails
        (.scopePath path))
  | none =>
      let blobs := closureBlobs trees req.treeId
      if maxSnapshotBlobs < blobs.length then
        .error ((ApiError.new .validation ("snapshots reference at most " ++
          toString maxSnapshotBlobs ++ " distinct blobs per POST")).withDetails
          (.limit maxSnapshotBlobs))
      else .ok ⟨ttl * 1000000000, trees, blobs⟩

/-- `snapshot_get`. -/
def snapshotGet (cx : RepoCx Id) (snap : Id) : Option (SnapshotRow Id) :=
  cx.snapshots.find? (fun row => decide (row.repoId = cx.id) && decide (row.id = snap))

/-- A re-POST of a recorded snapshot: reads only. -/
def snapshotExisting (nowNs ttlNs : ℕ) (req : SnapshotRequest Id) (row : SnapshotRow Id) :
    Except (ApiError Id) (SnapshotCreated Id) :=
  if row.principal ≠ req.principal ∨ row.treeId ≠ req.treeId then
    .error (.new .validation "snapshot id is already used by a different snapshot")
  else if row.expiresNs ≤ nowNs then
    .error (.new .snapshotExpired
      ("snapshot " ++ Platform.toHex req.snapId ++ " is past its TTL"))
  else if row.expiresNs - row.createdNs ≠ ttlNs then
    .error ((ApiError.new .validation
      ("ttl_secs differs from the snapshot's recorded TTL; re-POST the " ++
        "original ttl_secs or let the row expire")).withDetails
      (.recordedExpires row.expiresNs))
  else .ok ⟨req.snapId, row.expiresNs⟩

/-- `snapshot_insert`: `none` where the id is taken in this file. -/
def snapshotInsert (cx : RepoCx Id) (row : SnapshotRow Id) : Option (RepoCx Id) :=
  if cx.snapshots.any (fun r => decide (r.id = row.id)) then none
  else some { cx with snapshots := cx.snapshots ++ [row] }

/-- The write step of `create`: tree rows, presence check and snapshot row in
one transaction. -/
def snapshotWrite (cx : RepoCx Id) (ephemeral : List (SnapDir Id)) (nowNs : ℕ)
    (req : SnapshotRequest Id) (p : PreparedSnapshot Id) :
    Except (ApiError Id) (SnapshotCreated Id × RepoCx Id) :=
  match snapshotGet cx req.snapId with
  | some row => (snapshotExisting nowNs p.ttlNs req row).map (·, cx)
  | none =>
  let redacted := redactionsActiveAmong cx.db p.blobs
  if redacted ≠ [] then
    .error (.new .objectRedacted
      ("blobs are redacted in this repo; snapshots may not reference them: " ++
        String.intercalate ", " (redacted.map Platform.toHex)))
  else
  let cx := { cx with trees := treesInsert cx.trees p.trees }
  let missing := (p.blobs.filter (fun id => !ephemeralHas ephemeral req.snapId id)).insertionSort
    (· ≤ ·)
  if missing ≠ [] then
    .error ((ApiError.new .validation
      ("referenced blobs are missing from the snapshot namespace; " ++
        "upload them first")).withDetails
      (.missingBlobsCapped (missing.take missingBlobsListCap)
        (decide (missingBlobsListCap < missing.length))))
  else match snapshotInsert cx
      { id := req.snapId
        repoId := cx.id
        treeId := req.treeId
        principal := req.principal
        createdNs := nowNs
        expiresNs := nowNs + p.ttlNs } with
  | none => .error .internal
  | some cx => .ok (⟨req.snapId, nowNs + p.ttlNs⟩, cx)

/-- `create`. -/
def snapshotPost (cx : RepoCx Id) (ephemeral : List (SnapDir Id)) (nowNs : ℕ)
    (req : SnapshotRequest Id) : Except (ApiError Id) (SnapshotCreated Id × RepoCx Id) :=
  match snapshotPrepare req with
  | .error e => .error e
  | .ok p => snapshotWrite cx ephemeral nowNs req p

/-- `put_blob`: the size check, the tombstone probe, the write. -/
def snapshotPut (cx : RepoCx Id) (ephemeral : List (SnapDir Id)) (nowNs : ℕ) (snap : Id)
    (payload : Bytes) : Except (ApiError Id) (List (SnapDir Id)) :=
  let oid := Platform.blobId payload
  if blobLimit < payload.length then
    .error (.new .tooLarge ("blob exceeds the " ++ toString blobLimit ++ " byte cap (got " ++
      toString payload.length ++ " bytes)"))
  else if redactionActive cx.db oid then
    .error (.new .objectRedacted ("blob " ++ Platform.toHex oid ++ " is redacted in " ++
      cx.name ++ "; upload refused"))
  else .ok (ephemeralPut ephemeral snap payload nowNs)

end

end Naatre
