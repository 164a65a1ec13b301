import Naatre.Lib.Loop
import Naatre.Server.LandSteps
import Naatre.Server.Snapshots
import Naatre.Server.Routes

/-!
What the other writers' steps do: one inversion lemma for each of them.
-/

namespace Naatre

section

variable {Id : Type} [Platform Id]

/-! ### Create -/

/-- The lookup found every parent, at most one. -/
theorem createLookup_ok {db : RepoTables Id} {req : CreateRequest Id} {metas : ParentMetas Id}
    (h : createLookup db req = .ok metas) :
    req.parents.length ≤ 1 ∧ (∀ p ∈ req.parents, (changesetGet db p).isSome) ∧
      metas = req.parents.filterMap fun p =>
        (changesetGet db p).map fun row => (row.generation, row.rootTreeId) := by
  unfold createLookup at h
  split at h
  · cases h
  split_ifs at h with hmany
  simp only at h
  split_ifs at h with hmissing
  simp only [Except.ok.injEq] at h
  refine ⟨by omega, fun p hp => ?_, h.symm⟩
  by_contra hnone
  have hmem : p ∈ req.parents.filter (fun p => (changesetGet db p).isNone) :=
    List.mem_filter.mpr ⟨hp, by simpa using hnone⟩
  rw [not_not.mp hmissing] at hmem
  exact List.not_mem_nil hmem

/-- What a prepared create carries of its request and its lookup. -/
theorem createPrepare_ok {repoId nowNs : ℕ} {req : CreateRequest Id} {metas : ParentMetas Id}
    {p : PreparedCreate Id} (h : createPrepare repoId nowNs req metas = .ok p) :
    p.canonical.cs =
        { repoId := repoId
          parents := req.parents
          author := req.author
          message := req.message
          timestampNs := req.timestampNs.getD nowNs
          changes := req.changes
          conflicts := [] } ∧
      p.generation = nextGeneration (metas.map (·.1)) ∧
      p.parentRoot = metas.head?.map (·.2) := by
  unfold createPrepare at h
  split at h
  · cases h
  simp only at h
  split at h
  · cases h
  split at h
  · cases h
  split_ifs at h
  split at h
  · cases h
  · cases h
  next canonical hencode =>
  cases h
  exact ⟨Changeset.encode_ok hencode, rfl, rfl⟩

/-- What a successful write phase checked and wrote. -/
structure Persisted (cx : RepoCx Id) (p : PreparedCreate Id) (cx' : RepoCx Id) where
  parent : MemNode Id
  node : MemNode Id
  rootTreeId : Id
  size : ℕ
  trees : List (TreeRow Id)
  cs_free : redactionActive cx.db p.csId = false
  blobs_free : redactionsActiveAmong cx.db (changeBlobs p.canonical.cs.changes) = []
  blobs_present : missingBlobs cx (changeBlobs p.canonical.cs.changes) = []
  parent_ok : MemNode.load cx.trees p.parentRoot = .ok parent
  apply_ok : parent.apply p.canonical.cs.changes = .ok node
  collect_ok : node.collect = .ok (rootTreeId, size, trees)
  insert_ok : changesetInsertRows cx
    { id := p.csId
      canonical := p.canonical
      generation := p.generation
      principal := p.principal
      rootTreeId := rootTreeId
      blobs := changeBlobs p.canonical.cs.changes
      trees := trees
      gitMapOid := none } = some cx'

theorem persist_ok {cx cx' : RepoCx Id} {p : PreparedCreate Id} {done : ChangesetCreated Id}
    (h : persist cx p = .ok (done, cx')) : Nonempty (Persisted cx p cx') := by
  unfold persist at h
  simp only at h
  split_ifs at h with hcs hblobs hmissing
  split at h
  · cases h
  next parent hparent =>
  split at h
  · cases h
  next node happly =>
  split at h
  · cases h
  next rootTreeId size trees hcollect =>
  split at h
  · cases h
  next cx' hinsert =>
  cases h
  exact ⟨⟨parent, node, rootTreeId, size, trees, by simpa using hcs, by simpa using hblobs,
    by simpa using hmissing, hparent, happly, hcollect, hinsert⟩⟩

/-- The answer names the changeset it wrote. -/
theorem persist_done {cx cx' : RepoCx Id} {p : PreparedCreate Id} {done : ChangesetCreated Id}
    (h : persist cx p = .ok (done, cx')) : done.id = p.csId ∧ done.generation = p.generation := by
  unfold persist at h
  simp only at h
  split_ifs at h
  split at h
  · cases h
  split at h
  · cases h
  split at h
  · cases h
  split at h
  · cases h
  cases h
  exact ⟨rfl, rfl⟩

/-! ### Refs -/

/-- The two ways a ref write goes through: a create, or a move whose version is
the current one and whose new target contains the current one. -/
inductive RefWritten (db : RepoTables Id) (req : RefRequest Id) :
    RefResponse Id → RepoTables Id → Prop
  | created (hexpected : req.expected = none) (habsent : refGet db req.name = none) :
      RefWritten db req ⟨req.name, req.target, 1⟩
        { db with refs := db.refs ++ [⟨req.name, some req.target, 1, req.principal⟩] }
  | moved (current : RefRow Id) (hexpected : req.expected = some current.version)
      (hcurrent : refGet db req.name = some current)
      (hcontains : ∀ old, current.target = some old → refContains db old req.target) :
      RefWritten db req ⟨req.name, req.target, current.version + 1⟩
        { db with refs := db.refs.map (fun row =>
            if row.name = req.name then
              { row with
                target := some req.target
                version := current.version + 1
                lastPrincipal := req.principal }
            else row) }

theorem casRef_ok {repo : String} {db db' : RepoTables Id} {req : RefRequest Id}
    {done : RefResponse Id} (h : casRef repo db req = .ok (done, db')) :
    req.name ≠ "main" ∧ redactionActive db req.target = false ∧
      RefWritten db req done db' := by
  unfold casRef at h
  split_ifs at h with hmain hredacted
  split at h
  · cases h
  next hff =>
  refine ⟨hmain, by simpa using hredacted, ?_⟩
  unfold refCas at h
  match hexpected : req.expected, hcurrent : refGet db req.name with
  | none, none =>
      simp only [hexpected, hcurrent, Except.ok.injEq, Prod.mk.injEq] at h
      rw [← h.1, ← h.2]
      exact .created hexpected hcurrent
  | none, some current =>
      simp only [hexpected, hcurrent] at h
      cases h
  | some version, none =>
      simp only [hexpected, hcurrent] at h
      cases h
  | some version, some current =>
      by_cases hversion : current.version = version
      · simp only [hexpected, hcurrent, hversion, ne_eq, not_true_eq_false, if_false,
          Except.ok.injEq, Prod.mk.injEq] at h
        rw [← h.1, ← h.2, ← hversion]
        refine .moved current (by rw [hexpected, hversion]) hcurrent fun old hold => ?_
        simp only [refMoveBase, hexpected, hcurrent, hversion, if_true, hold] at hff
        by_contra hnot
        simp [Option.filter, hnot] at hff
      · simp only [hexpected, hcurrent, ne_eq, hversion, not_false_eq_true, if_true] at h
        cases h

/-! ### Snapshots -/

/-- What a snapshot request that passed its checks posts. -/
theorem snapshotPrepare_ok {req : SnapshotRequest Id} {p : PreparedSnapshot Id}
    (h : snapshotPrepare req = .ok p) :
    decodeTrees req.trees = .ok p.trees ∧ (treeGet p.trees req.treeId).isSome ∧
      missingSubtree p.trees = none ∧ p.blobs = closureBlobs p.trees req.treeId := by
  unfold snapshotPrepare at h
  rw [Lib.bind_eq_ok] at h
  obtain ⟨ttl, -, h⟩ := h
  rw [Lib.bind_eq_ok] at h
  obtain ⟨trees, htrees, h⟩ := h
  split_ifs at h with hroot
  split at h
  · cases h
  next hsub =>
  split at h
  · cases h
  simp only at h
  split_ifs at h
  cases h
  exact ⟨htrees, by simpa [Option.isSome_iff_ne_none] using hroot, hsub, rfl⟩

/-- The two ways a snapshot POST succeeds: the row was there, or it was
written with the trees once every blob was in the directory. -/
inductive SnapshotWritten (cx : RepoCx Id) (ephemeral : List (SnapDir Id)) (nowNs : ℕ)
    (req : SnapshotRequest Id) (p : PreparedSnapshot Id) :
    SnapshotCreated Id → RepoCx Id → Prop
  | existing (row : SnapshotRow Id) (hrow : snapshotGet cx req.snapId = some row)
      (htree : row.treeId = req.treeId) (hlive : nowNs < row.expiresNs) :
      SnapshotWritten cx ephemeral nowNs req p ⟨req.snapId, row.expiresNs⟩ cx
  | created (habsent : snapshotGet cx req.snapId = none)
      (hfree : ∀ row ∈ cx.snapshots, row.id ≠ req.snapId)
      (hredacted : redactionsActiveAmong cx.db p.blobs = [])
      (hpresent : ∀ id ∈ p.blobs, ephemeralHas ephemeral req.snapId id) :
      SnapshotWritten cx ephemeral nowNs req p ⟨req.snapId, nowNs + p.ttlNs⟩
        { cx with
          trees := treesInsert cx.trees p.trees
          snapshots := cx.snapshots ++
            [⟨req.snapId, cx.id, req.treeId, req.principal, nowNs, nowNs + p.ttlNs⟩] }

theorem snapshotWrite_ok {cx cx' : RepoCx Id} {ephemeral : List (SnapDir Id)} {nowNs : ℕ}
    {req : SnapshotRequest Id} {p : PreparedSnapshot Id} {done : SnapshotCreated Id}
    (h : snapshotWrite cx ephemeral nowNs req p = .ok (done, cx')) :
    SnapshotWritten cx ephemeral nowNs req p done cx' := by
  unfold snapshotWrite at h
  split at h
  next row hrow =>
    rw [Lib.map_eq_ok] at h
    obtain ⟨done', hexisting, heq⟩ := h
    simp only [Prod.mk.injEq] at heq
    obtain ⟨rfl, rfl⟩ := heq
    unfold snapshotExisting at hexisting
    split_ifs at hexisting with hother hexpired
    cases hexisting
    exact .existing row hrow (by simpa using (not_or.mp hother).2) (by omega)
  next habsent =>
    simp only at h
    split_ifs at h with hredacted hmissing
    split at h
    · cases h
    next cx' hinsert =>
    simp only [Except.ok.injEq, Prod.mk.injEq] at h
    obtain ⟨rfl, rfl⟩ := h
    unfold snapshotInsert at hinsert
    split_ifs at hinsert with htaken
    cases hinsert
    refine .created habsent (by simpa using htaken) (by simpa using hredacted) fun id hid => ?_
    by_contra hnot
    have hmem : id ∈ (p.blobs.filter (fun id => !ephemeralHas ephemeral req.snapId id)) :=
      List.mem_filter.mpr ⟨hid, by simpa using hnot⟩
    rw [← List.mem_insertionSort (· ≤ ·), not_not.mp hmissing] at hmem
    exact List.not_mem_nil hmem

theorem snapshotPost_ok {cx cx' : RepoCx Id} {ephemeral : List (SnapDir Id)} {nowNs : ℕ}
    {req : SnapshotRequest Id} {done : SnapshotCreated Id}
    (h : snapshotPost cx ephemeral nowNs req = .ok (done, cx')) :
    ∃ p, snapshotPrepare req = .ok p ∧ SnapshotWritten cx ephemeral nowNs req p done cx' := by
  unfold snapshotPost at h
  split at h
  · cases h
  next p hp => exact ⟨p, hp, snapshotWrite_ok h⟩

/-! ### Redaction marks -/

/-- What a mark does to the tombstones: none goes away, no kind changes. -/
theorem redactionMark_db (db : RepoTables Id) (id : Id) (kind : RedactionKind) (markedNs : ℕ) :
    ∃ redactions, (redactionMark db id kind markedNs).2 = { db with redactions := redactions } := by
  unfold redactionMark
  split
  · exact ⟨_, rfl⟩
  · split_ifs
    · exact ⟨db.redactions, rfl⟩
    · exact ⟨_, rfl⟩
    · exact ⟨db.redactions, rfl⟩

/-- A tombstone stands forever, whatever is marked. -/
theorem redactionMark_tombstoned (db : RepoTables Id) (id : Id) (kind : RedactionKind)
    (markedNs : ℕ) : db.tombstoned <+: (redactionMark db id kind markedNs).2.tombstoned := by
  unfold redactionMark
  split
  · simp [RepoTables.tombstoned]
  · split_ifs
    · exact List.prefix_rfl
    · rw [RepoTables.tombstoned, RepoTables.tombstoned, List.map_map]
      refine (List.map_congr_left fun row _ => ?_) ▸ List.prefix_rfl
      simp only [Function.comp_apply]
      split_ifs <;> rfl
    · exact List.prefix_rfl

end

end Naatre
