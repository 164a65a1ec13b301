import Naatre.Server.State

/-!
Snapshot GC (`naatre-server/src/snapshots_gc.rs`): a pass lists the expired
rows and the aged directories, cross-checks the latter against the rows,
deletes directories, and purges rows together with the tree rows nothing
protects. Each of these is a step of its own.
-/

namespace Naatre

section

variable {Id : Type} [Platform Id]

namespace Server

/-- A `repo_trees` row names the tree in some repository of the file. -/
def junctioned (s : Server Id) (f : RepoId) (id : Id) : Bool :=
  (s.reposOf f).any (fun r => decide (id ∈ (s.dbs r).repoTrees))

/-- Some changeset of the file has the tree as its root. -/
def isRoot (s : Server Id) (f : RepoId) (id : Id) : Bool :=
  (s.reposOf f).any (fun r => (s.dbs r).changesets.any (fun row => decide (row.rootTreeId = id)))

/-- The roots of a file's unexpired snapshots. -/
def snapshotRoots (s : Server Id) (f : RepoId) (nowNs : ℕ) : List Id :=
  ((s.snapshots f).filter (fun row => decide (nowNs < row.expiresNs))).map (fun row => row.treeId)

/-- The zero-junction tree rows of a file. -/
def treeCandidates (s : Server Id) (f : RepoId) : List (TreeRow Id) :=
  (s.trees f).filter (fun row => !s.junctioned f row.id)

/-- What protects a candidate directly: a live snapshot, a changeset root, or a
retained parent. -/
def seedsProtection (s : Server Id) (f : RepoId) (live : List Id) (id : Id) : Bool :=
  decide (id ∈ live) || s.isRoot f id ||
    (s.trees f).any (fun row =>
      decide (id ∈ row.dirs) && (s.junctioned f row.id || s.isRoot f row.id))

/-- `unprotected_trees`. -/
def unprotectedTrees (s : Server Id) (f : RepoId) (nowNs : ℕ) : List Id :=
  let live := treeClosure (s.trees f) (s.snapshotRoots f nowNs)
  let candidates := s.treeCandidates f
  let ids := candidates.map (fun row => row.id)
  let safe := treeClosure candidates (ids.filter (s.seedsProtection f live))
  ids.filter (· ∉ safe)

/-- `snapshots_expired`, over every file. -/
def snapshotsExpired (s : Server Id) (nowNs : ℕ) : List Id :=
  s.files.flatMap fun f =>
    (((s.snapshots f).filter (fun row => decide (row.expiresNs ≤ nowNs))).map
      (fun row => row.id)).insertionSort (· ≤ ·)

/-- `snapshots_exist`, over every file. -/
def snapshotExists (s : Server Id) (snap : Id) : Bool :=
  s.files.any (fun f => (s.snapshots f).any (fun row => decide (row.id = snap)))

/-- `any_junctionless_trees`, over every file. -/
def anyJunctionless (s : Server Id) : Bool :=
  s.files.any (fun f => !(s.treeCandidates f).isEmpty)

/-- The expired-row purge: by id, in every file. -/
def purgeSnapshots (s : Server Id) (purgable : List Id) : Server Id :=
  { s with snapshots := fun f =>
      if f ∈ s.files then (s.snapshots f).filter (fun row => decide (row.id ∉ purgable))
      else s.snapshots f }

/-- The purge and the tree sweep of a pass, one transaction for each file. -/
def sweepSnapshots (s : Server Id) (nowNs : ℕ) (purgable : List Id) : Server Id :=
  let s := s.purgeSnapshots purgable
  s.dropTrees (fun f id => decide (id ∈ s.unprotectedTrees f nowNs))

/-- Starts a pass: the clock and the expired rows. -/
def sgcStart (s : Server Id) : Server Id :=
  { s with snapshotGc := s.snapshotGc ++ [⟨s.nowNs, .rowless (s.snapshotsExpired s.nowNs)⟩] }

/-- The next step of one pass, `none` once it has ended. -/
def sgcPassStep (s : Server Id) (pass : SgcPass Id) : Server Id × Option (SgcPass Id) :=
  let goto := fun pc => some { pass with pc := pc }
  match pass.pc with
  | .rowless expired =>
      (s, goto (.crossCheck expired (rowlessDirs s.ephemeral (pass.nowNs - snapshotMaxTtlNs))))
  | .crossCheck expired candidates =>
      let rowless := candidates.filter (fun id => !s.snapshotExists id)
      (s, goto (.deleteDirs expired rowless (expired ++ rowless)))
  | .deleteDirs expired rowless (id :: todo) =>
      ({ s with ephemeral := ephemeralDelete s.ephemeral id },
        goto (.deleteDirs expired rowless todo))
  | .deleteDirs expired rowless [] => (s, goto (.probe expired rowless.length))
  | .probe purgable rowlessSwept =>
      if purgable ≠ [] ∨ 0 < rowlessSwept ∨ s.anyJunctionless then (s, goto (.purge purgable))
      else (s, none)
  | .purge purgable => (s.sweepSnapshots pass.nowNs purgable, none)

/-- The next step of the `i`-th pass in flight. -/
def sgcStep (s : Server Id) (i : ℕ) : Option (Server Id) :=
  (s.snapshotGc[i]?).map fun pass =>
    let (s', next) := s.sgcPassStep pass
    { s' with snapshotGc :=
        match next with
        | some pass' => s.snapshotGc.set i pass'
        | none => s.snapshotGc.eraseIdx i }

end Server

end

end Naatre
