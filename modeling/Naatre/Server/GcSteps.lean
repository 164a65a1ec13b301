import Naatre.Server.Gc

/-!
What the collectors' steps do to the tables of a repository.
-/

namespace Naatre

section

variable {Id : Type} [Platform Id]

/-- Rows went away, and tombstones were stamped; nothing else changed. -/
structure RepoTables.Collected (db db' : RepoTables Id) : Prop where
  changesets : db'.changesets.Sublist db.changesets
  refs : db'.refs = db.refs
  lands : db'.lands = db.lands
  gitMap : db'.gitMap = db.gitMap
  redactions : db'.redactions.map (fun row => (row.objectId, row.kind)) =
    db.redactions.map (fun row => (row.objectId, row.kind))
  repoBlobs : db'.repoBlobs.Sublist db.repoBlobs
  repoTrees : db'.repoTrees.Sublist db.repoTrees

namespace RepoTables.Collected

theorem refl (db : RepoTables Id) : db.Collected db :=
  ⟨.refl _, rfl, rfl, rfl, rfl, .refl _, .refl _⟩

theorem trans {a b c : RepoTables Id} (hab : a.Collected b) (hbc : b.Collected c) :
    a.Collected c where
  changesets := hbc.changesets.trans hab.changesets
  refs := hbc.refs.trans hab.refs
  lands := hbc.lands.trans hab.lands
  gitMap := hbc.gitMap.trans hab.gitMap
  redactions := hbc.redactions.trans hab.redactions
  repoBlobs := hbc.repoBlobs.trans hab.repoBlobs
  repoTrees := hbc.repoTrees.trans hab.repoTrees

end RepoTables.Collected

namespace Server

/-- Every repository's tables were collected from. -/
def Collected (s s' : Server Id) : Prop := ∀ r, (s.dbs r).Collected (s'.dbs r)

theorem Collected.trans {a b c : Server Id} (hab : a.Collected b) (hbc : b.Collected c) :
    a.Collected c := fun r => (hab r).trans (hbc r)

theorem Collected.of_dbs {s s' : Server Id} (h : s'.dbs = s.dbs) : s.Collected s' :=
  fun _ => h ▸ .refl _

theorem mapRepos_collected (s : Server Id) (f : RepoId → RepoTables Id → RepoTables Id)
    (h : ∀ r db, RepoTables.Collected db (f r db)) : s.Collected (s.mapRepos f) := by
  intro r
  simp only [mapRepos]
  split_ifs
  · exact h r _
  · exact .refl _

theorem collectCs_collected (s : Server Id) (dead : RepoId → List Id) :
    s.Collected (s.collectCs dead) :=
  mapRepos_collected s _ fun _ _ => ⟨List.filter_sublist, rfl, rfl, rfl, rfl, .refl _, .refl _⟩

theorem collectBlobs_collected (s : Server Id) (ids : List Id) :
    s.Collected (s.collectBlobs ids) := by
  have hrepos := mapRepos_collected { s with cas := s.cas.filter (fun b => decide (b.1 ∉ ids)) }
    (fun _ db => { db with repoBlobs := db.repoBlobs.filter (· ∉ ids) })
    fun _ _ => ⟨.refl _, rfl, rfl, rfl, rfl, List.filter_sublist, .refl _⟩
  exact (Collected.of_dbs rfl).trans (hrepos.trans (.of_dbs rfl))

theorem collectTrees_collected (s : Server Id) (ids : List Id) :
    s.Collected (s.collectTrees ids) := by
  have hrepos := mapRepos_collected (s.dropTrees (fun _ id => decide (id ∈ ids)))
    (fun _ db => { db with repoTrees := db.repoTrees.filter (· ∉ ids) })
    fun _ _ => ⟨.refl _, rfl, rfl, rfl, rfl, .refl _, List.filter_sublist⟩
  exact (Collected.of_dbs rfl).trans hrepos

theorem stampPurged_collected (s : Server Id) (onFile : RepoId → Bool) (kind : RedactionKind)
    (ids : List Id) (nowNs : ℕ) : s.Collected (s.stampPurged onFile kind ids nowNs) := by
  refine mapRepos_collected _ _ fun r db => ⟨.refl _, rfl, rfl, rfl, ?_, .refl _, .refl _⟩
  rw [List.map_map]
  refine List.map_congr_left fun row _ => ?_
  simp only [Function.comp_apply]
  split_ifs <;> rfl

/-- Blobs collected, their tombstones stamped. -/
theorem purgeBlobs_collected (s : Server Id) (ids : List Id) (nowNs : ℕ) :
    s.Collected ((s.collectBlobs ids).stampPurged (fun _ => true) .blob ids nowNs) :=
  (collectBlobs_collected s ids).trans (stampPurged_collected _ _ _ _ _)

theorem purgeCsRows_collected (s : Server Id) (landed : List Id) (nowNs : ℕ) :
    s.Collected (s.purgeCsRows landed nowNs) := by
  have hstamped := (collectCs_collected s (s.purgeCsDead landed)).trans
    (stampPurged_collected _ (fun f => s.purgeCsDead landed f ≠ []) .changeset
      (s.purgeCsIds landed) nowNs)
  exact hstamped.trans (.of_dbs rfl)

theorem purgeCsBatch_collected (s : Server Id) (landed : List Id) (nowNs : ℕ) (cutNs : ℤ) :
    s.Collected (s.purgeCsBatch landed nowNs cutNs).1 := by
  unfold purgeCsBatch
  simp only
  split_ifs
  · exact .of_dbs rfl
  · exact (purgeCsRows_collected s landed nowNs).trans (purgeBlobs_collected _ _ nowNs)

/-- A step of the collector collects from the tables. -/
theorem gcPassStep_collected (s : Server Id) (pass : GcPass Id) :
    s.Collected (s.gcPassStep pass).1 := by
  unfold gcPassStep
  simp only
  split
  case h_8 =>
    exact (Collected.of_dbs rfl).trans
      ((collectCs_collected _ _).trans (.of_dbs rfl))
  case h_10 => exact collectBlobs_collected s _
  case h_11 => exact (collectTrees_collected s _).trans (.of_dbs rfl)
  case h_12 => split_ifs <;> exact .of_dbs rfl
  case h_14 => exact purgeCsBatch_collected _ _ _ _
  case h_15 => exact purgeBlobs_collected s (s.purgeBlobIds pass.cutNs) pass.nowNs
  all_goals exact .of_dbs rfl

/-- What the collector never touches. -/
structure GcFrame (s s' : Server Id) : Prop where
  layout : s'.layout = s.layout
  nowNs : s'.nowNs = s.nowNs
  graceNs : s'.graceNs = s.graceNs
  repos : s'.repos = s.repos
  ephemeral : s'.ephemeral = s.ephemeral
  snapshots : s'.snapshots = s.snapshots
  creates : s'.creates = s.creates
  snapshotGc : s'.snapshotGc = s.snapshotGc

theorem GcFrame.refl (s : Server Id) : s.GcFrame s := ⟨rfl, rfl, rfl, rfl, rfl, rfl, rfl, rfl⟩

theorem GcFrame.trans {a b c : Server Id} (hab : a.GcFrame b) (hbc : b.GcFrame c) :
    a.GcFrame c :=
  ⟨hbc.layout.trans hab.layout, hbc.nowNs.trans hab.nowNs, hbc.graceNs.trans hab.graceNs,
    hbc.repos.trans hab.repos, hbc.ephemeral.trans hab.ephemeral,
    hbc.snapshots.trans hab.snapshots, hbc.creates.trans hab.creates,
    hbc.snapshotGc.trans hab.snapshotGc⟩

theorem collectCs_frame (s : Server Id) (dead : RepoId → List Id) :
    s.GcFrame (s.collectCs dead) := ⟨rfl, rfl, rfl, rfl, rfl, rfl, rfl, rfl⟩

theorem collectBlobs_frame (s : Server Id) (ids : List Id) : s.GcFrame (s.collectBlobs ids) :=
  ⟨rfl, rfl, rfl, rfl, rfl, rfl, rfl, rfl⟩

theorem collectTrees_frame (s : Server Id) (ids : List Id) : s.GcFrame (s.collectTrees ids) :=
  ⟨rfl, rfl, rfl, rfl, rfl, rfl, rfl, rfl⟩

theorem stampPurged_frame (s : Server Id) (onFile : RepoId → Bool) (kind : RedactionKind)
    (ids : List Id) (nowNs : ℕ) : s.GcFrame (s.stampPurged onFile kind ids nowNs) :=
  ⟨rfl, rfl, rfl, rfl, rfl, rfl, rfl, rfl⟩

theorem cat_frame (s : Server Id) (cat : Catalog Id) : s.GcFrame { s with cat := cat } :=
  ⟨rfl, rfl, rfl, rfl, rfl, rfl, rfl, rfl⟩

theorem purgeBlobs_frame (s : Server Id) (ids : List Id) (nowNs : ℕ) :
    s.GcFrame ((s.collectBlobs ids).stampPurged (fun _ => true) .blob ids nowNs) :=
  (collectBlobs_frame s ids).trans (stampPurged_frame _ _ _ _ _)

theorem purgeCsBatch_frame (s : Server Id) (landed : List Id) (nowNs : ℕ) (cutNs : ℤ) :
    s.GcFrame (s.purgeCsBatch landed nowNs cutNs).1 := by
  unfold purgeCsBatch
  simp only
  split_ifs
  · exact .refl s
  · have hrows : s.GcFrame (s.purgeCsRows landed nowNs) :=
      ((collectCs_frame s _).trans (stampPurged_frame _ _ _ _ _)).trans (cat_frame _ _)
    exact hrows.trans (purgeBlobs_frame _ _ nowNs)

theorem gcPassStep_frame (s : Server Id) (pass : GcPass Id) : s.GcFrame (s.gcPassStep pass).1 := by
  unfold gcPassStep
  simp only
  split
  case h_5 => exact cat_frame s _
  case h_8 => exact ((cat_frame s _).trans (collectCs_frame _ _)).trans (cat_frame _ _)
  case h_9 => exact cat_frame s _
  case h_10 => exact collectBlobs_frame s _
  case h_11 => exact (collectTrees_frame s _).trans (cat_frame _ _)
  case h_12 => split_ifs <;> exact .refl s
  case h_14 => exact purgeCsBatch_frame _ _ _ _
  case h_15 => exact purgeBlobs_frame s (s.purgeBlobIds pass.cutNs) pass.nowNs
  all_goals exact .refl s

end Server

/-- A tombstone outlives every collection. -/
theorem RepoTables.Collected.redactionActive {db db' : RepoTables Id} (h : db.Collected db')
    (id : Id) : Naatre.redactionActive db' id = Naatre.redactionActive db id := by
  have hany : ∀ rows : List (RedactionRow Id),
      rows.any (fun row => decide (row.objectId = id)) =
        (rows.map (fun row => (row.objectId, row.kind))).any (fun p => decide (p.1 = id)) := by
    intro rows
    rw [List.any_map]
    rfl
  rw [Naatre.redactionActive, hany, h.redactions, ← hany]
  rfl

end

end Naatre
