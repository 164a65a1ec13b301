import Naatre.Lib.Table
import Naatre.Server.ServeSteps

/-!
What holds of the tables of every reachable state, whatever the collectors do:
a row is the one its id names, and no key occurs twice.
-/

namespace Naatre

section

variable {Id : Type} [Platform Id]

/-- The columns of a changeset row are those of the frame its id names. -/
structure ChangesetRow.Wf (row : ChangesetRow Id) : Prop where
  id : row.id = Platform.changesetId row.canonical
  parents : row.parents = row.canonical.cs.parents
  changes : row.changes = row.canonical.cs.changes

structure TablesWf (db : RepoTables Id) : Prop where
  rows : ∀ row ∈ db.changesets, row.Wf
  ids : (db.changesets.map (fun row => row.id)).Nodup
  oids : (db.gitMap.map (fun row => row.1)).Nodup

theorem TablesWf.of_eq {db db' : RepoTables Id} (h : TablesWf db)
    (hrows : db'.changesets = db.changesets) (hgit : db'.gitMap = db.gitMap) : TablesWf db' :=
  ⟨hrows ▸ h.rows, hrows ▸ h.ids, hgit ▸ h.oids⟩

theorem TablesWf.collected {db db' : RepoTables Id} (h : TablesWf db)
    (hc : db.Collected db') : TablesWf db' where
  rows := fun row hrow => h.rows row (hc.changesets.subset hrow)
  ids := h.ids.sublist (hc.changesets.map _)
  oids := hc.gitMap ▸ h.oids

/-- The one row of an id. -/
theorem TablesWf.get {db : RepoTables Id} (h : TablesWf db) {row : ChangesetRow Id}
    (hrow : row ∈ db.changesets) : changesetGet db row.id = some row :=
  Lib.find_of_nodup h.ids hrow

/-- Two changesets with one frame are one. -/
theorem TablesWf.get_changesetId {db : RepoTables Id} (h : TablesWf db) {canonical : Canonical Id}
    {row : ChangesetRow Id}
    (hrow : changesetGet db (Platform.changesetId canonical) = some row) :
    row.canonical = canonical := by
  obtain ⟨hmem, hid⟩ := changesetGet_some hrow
  exact Platform.changesetId_inj ((h.rows row hmem).id ▸ hid)

theorem TablesWf.insert {cx cx' : RepoCx Id} {rec : ChangesetInsert Id}
    (h : changesetInsertRows cx rec = some cx') (hid : rec.id = Platform.changesetId rec.canonical)
    (hwf : TablesWf cx.db) : TablesWf cx'.db := by
  unfold changesetInsertRows at h
  split_ifs at h with hfresh hgit
  cases h
  have hfresh' : rec.id ∉ cx.db.changesets.map (fun row => row.id) := fun hmem =>
    hfresh (changesetGet_isSome.mpr hmem)
  refine ⟨fun row hrow => ?_, ?_, ?_⟩
  · rcases List.mem_append.mp hrow with hrow | hrow
    · exact hwf.rows row hrow
    · rw [List.mem_singleton.mp hrow]
      exact ⟨hid, rfl, rfl⟩
  · exact Lib.nodup_insert hwf.ids hfresh'
  · cases hoid : rec.gitMapOid with
    | none => simpa [hoid] using hwf.oids
    | some oid =>
        have hnew : oid ∉ cx.db.gitMap.map (fun row => row.1) := by
          intro hmem
          obtain ⟨row, hrow, rfl⟩ := List.mem_map.mp hmem
          refine hgit ?_
          simp [hoid, Lib.lookup_of_nodup hwf.oids hrow]
        exact Lib.nodup_insert hwf.oids hnew

theorem NodeStep.tablesWf {cmd : LandCommand Id} {st st' : LandState Id} {node : Id}
    {o : NodeOutcome} (h : NodeStep cmd st node o st') (hwf : TablesWf st.cx.db) :
    TablesWf st'.cx.db := by
  cases h with
  | dropped => exact hwf
  | adopted m canonical hencode hgate hid stored hput =>
      obtain ⟨cas, cat, written, rfl⟩ := putBlobs_ok hput
      exact hwf
  | inserted m canonical hencode hgate hid stored st' hput hinsert =>
      obtain ⟨cas, cat, written, rfl⟩ := putBlobs_ok hput
      obtain ⟨rootTreeId, size, trees, cx, -, hrow, rfl⟩ := landInsert_ok hinsert
      exact TablesWf.insert hrow rfl hwf

theorem LandTrace.tablesWf {cmd : LandCommand Id} {st st' : LandState Id} {chain : List Id}
    {os : List NodeOutcome} (h : LandTrace cmd st chain os st') (hwf : TablesWf st.cx.db) :
    TablesWf st'.cx.db := by
  induction h with
  | nil => exact hwf
  | cons hnode _ ih => exact ih (hnode.tablesWf hwf)

theorem LandSuccess.tablesWf {cx cx' : RepoCx Id} {cmd : LandCommand Id} {done : LandDone Id}
    (h : LandSuccess cx cmd done cx') (hwf : TablesWf cx.db) : TablesWf cx'.db := by
  cases h with
  | replay => exact hwf
  | contained => exact hwf.of_eq rfl rfl
  | rebased f hout b =>
      obtain ⟨os, hos⟩ := landTrace_exists b.loop
      have hstart : TablesWf b.start.cx.db := hwf.of_eq rfl rfl
      exact (hos.tablesWf hstart).of_eq rfl rfl

theorem Imported.tablesWf {nowNs : ℕ} {cx cx' : RepoCx Id} {ps : List (PreparedCommit Id)}
    (h : Imported nowNs cx ps cx') (hwf : TablesWf cx.db) : TablesWf cx'.db := by
  induction h with
  | nil => exact hwf
  | cons hcommit _ ih =>
      obtain ⟨c⟩ := hcommit
      obtain ⟨cas, cat, hstored⟩ := c.puts.frame
      exact ih (TablesWf.insert c.insert_ok rfl (by rw [hstored]; exact hwf))

theorem RunBackend.tablesWf {nowNs : ℕ} {cx cx' : RepoCx Id} {git : GitRepo}
    {opts : ImportOptions} {head : GitOid} (h : RunBackend nowNs cx git opts head cx')
    (hwf : TablesWf cx.db) : TablesWf cx'.db := by
  cases h with
  | untouched => exact hwf
  | commits sc k mid cx' himported hputs =>
      obtain ⟨cas, cat, rfl⟩ := hputs.frame
      exact himported.tablesWf hwf
  | grafted sc last main db himported hgraft =>
      obtain ⟨refs, rfl⟩ := (graftMain_cases hgraft).refs_only
      exact (himported.tablesWf hwf).of_eq rfl rfl

namespace Server

theorem DbStep.tablesWf {s : Server Id} {r : RepoId} {e : Event Id} {db : RepoTables Id}
    (h : DbStep s r e db) (hwf : TablesWf (s.dbs r)) : TablesWf db := by
  cases h with
  | unchanged => exact hwf
  | createWrite i p cx hpending hpersist =>
      obtain ⟨w⟩ := hpersist
      exact TablesWf.insert w.insert_ok rfl hwf
  | land cmd done cx hland => exact hland.tablesWf hwf
  | importGit git opts head stop cx hquiescent hrun => exact hrun.tablesWf hwf
  | casRef req done db hmain hredacted hwritten => cases hwritten <;> exact hwf.of_eq rfl rfl
  | mark id kind =>
      obtain ⟨redactions, hmark⟩ := redactionMark_db (s.dbs r) id kind s.nowNs
      rw [hmark]
      exact hwf.of_eq rfl rfl
  | gcStep db hcollected => exact hwf.collected hcollected

/-- The tables of every repository are well formed in every run. -/
theorem tablesWf_of_reach {ok : Server Id → Event Id → Prop} {s : Server Id} (h : Reach ok s)
    (r : RepoId) : TablesWf (s.dbs r) := by
  suffices hall : ∀ r, TablesWf (s.dbs r) from hall r
  refine Lib.Reach.invariant ?_ (fun s e s' _ hwf _ he r => (step_db he r).tablesWf (hwf r)) h
  rintro s ⟨layout, repos, nowNs, graceNs, -, rfl⟩ r
  exact ⟨fun _ hrow => absurd hrow List.not_mem_nil, List.nodup_nil, List.nodup_nil⟩

end Server

end

end Naatre
