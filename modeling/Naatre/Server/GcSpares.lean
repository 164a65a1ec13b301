import Naatre.Server.GcSteps

/-!
What the collector spares. Each delete probes again in the batch that makes it:
a changeset goes when no row of its file names it, a tree when nothing protects
it, a blob when no stored change and no stored tree names it.
-/

namespace Naatre

section

variable {Id : Type} [Platform Id]

/-! ### Changesets -/

/-- A ref, a land, a git row or a child of the repository names the changeset. -/
inductive RepoTables.Names (db : RepoTables Id) (id : Id) : Prop
  | ref (row : RefRow Id) (hrow : row ∈ db.refs) (htarget : row.target = some id)
  | land (row : LandRow Id) (hrow : row ∈ db.lands)
      (hends : row.head = some id ∨ row.base = some id)
  | git (row : GitOid × Id) (hrow : row ∈ db.gitMap) (hcs : row.2 = id)
  | child (row : ChangesetRow Id) (hrow : row ∈ db.changesets) (hparent : id ∈ row.parents)

namespace Server

theorem mem_reposOf {s : Server Id} {r f : RepoId} :
    r ∈ s.reposOf f ↔ r ∈ s.repoIds ∧ s.file r = f := by
  simp [reposOf]

/-- The probe sees the rows of every repository of the file. -/
theorem csUnreferenced_of_names {s : Server Id} {r : RepoId} (hr : r ∈ s.repoIds) {id : Id}
    (h : (s.dbs r).Names id) : s.csUnreferenced (s.file r) id = false := by
  refine List.all_eq_false.mpr ⟨r, mem_reposOf.mpr ⟨hr, rfl⟩, ?_⟩
  simp only [Bool.not_eq_true', Bool.not_eq_false, Bool.or_eq_true]
  cases h with
  | ref row hrow htarget =>
      exact .inl (.inl (.inl (List.any_eq_true.mpr ⟨row, hrow, decide_eq_true htarget⟩)))
  | land row hrow hends =>
      refine .inl (.inl (.inr (List.any_eq_true.mpr ⟨row, hrow, ?_⟩)))
      simpa using hends
  | git row hrow hcs => exact .inl (.inr (List.any_eq_true.mpr ⟨row, hrow, decide_eq_true hcs⟩))
  | child row hrow hparent =>
      exact .inr (List.any_eq_true.mpr ⟨row, hrow, decide_eq_true hparent⟩)

/-- The changesets a row of their file names stay. -/
def SparesCs (s s' : Server Id) : Prop :=
  ∀ r, ∀ row ∈ (s.dbs r).changesets,
    (r ∈ s.repoIds → s.csUnreferenced (s.file r) row.id = false) → row ∈ (s'.dbs r).changesets

theorem SparesCs.of_changesets {s s' : Server Id}
    (h : ∀ r, (s'.dbs r).changesets = (s.dbs r).changesets) : s.SparesCs s' :=
  fun r _ hrow _ => h r ▸ hrow

/-- The changesets of one repository after a delete. -/
theorem collectCs_changesets (s : Server Id) (dead : RepoId → List Id) (r : RepoId) :
    ((s.collectCs dead).dbs r).changesets =
      if r ∈ s.repoIds then
        (s.dbs r).changesets.filter (fun row => decide (row.id ∉ dead (s.file r)))
      else (s.dbs r).changesets := by
  simp only [collectCs, mapRepos]
  split_ifs <;> rfl

theorem collectCs_sparesCs {s : Server Id} {dead : RepoId → List Id}
    (hdead : ∀ f, ∀ id ∈ dead f, s.csUnreferenced f id = true) : s.SparesCs (s.collectCs dead) := by
  intro r row hrow hnamed
  rw [collectCs_changesets]
  split_ifs with hr
  · refine List.mem_filter.mpr ⟨hrow, decide_eq_true fun hmem => ?_⟩
    have hfree := hdead _ _ hmem
    rw [hnamed hr] at hfree
    cases hfree
  · exact hrow

/-- A batch is split over the files its ids were probed in. -/
theorem mem_partition {s : Server Id} {select : RepoId → List Id} {batch : List Id} {f : RepoId}
    {id : Id} (h : id ∈ s.partition select batch f) :
    ∃ r, s.file r = f ∧ id ∈ select r := by
  obtain ⟨r, hr, hid⟩ := List.mem_flatMap.mp h
  exact ⟨r, (mem_reposOf.mp hr).2, (List.mem_filter.mp hid).1⟩

theorem csCollectible_unreferenced {s : Server Id} {candidates : List Id} {r : RepoId} {id : Id}
    (h : id ∈ (s.csCollectible candidates r).map (fun p => p.1)) :
    s.csUnreferenced (s.file r) id = true := by
  obtain ⟨p, hp, rfl⟩ := List.mem_map.mp h
  obtain ⟨row, hrow, rfl⟩ := List.mem_map.mp hp
  have hprobed := (List.mem_filter.mp hrow).2
  simp only [Bool.and_eq_true] at hprobed
  exact hprobed.1.2

theorem purgeableCs_unreferenced {s : Server Id} {landed : List Id} {r : RepoId} {id : Id}
    (h : id ∈ s.purgeableCs landed r) : s.csUnreferenced (s.file r) id = true := by
  have htaken := List.mem_of_mem_take (List.mem_filter.mp h).1
  obtain ⟨p, hp, rfl⟩ := List.mem_map.mp htaken
  obtain ⟨row, hrow, rfl⟩ := List.mem_map.mp ((List.mem_insertionSort _).mp hp)
  have hprobed := (List.mem_filter.mp hrow).2
  simp only [Bool.and_eq_true] at hprobed
  exact hprobed.2

/-- The changesets of a purge batch are those of its deletes. -/
theorem changesets_purgeCsBatch (s : Server Id) (landed : List Id) (nowNs : ℕ) (cutNs : ℤ)
    (r : RepoId) : ((s.purgeCsBatch landed nowNs cutNs).1.dbs r).changesets =
      if s.purgeCsIds landed = [] then (s.dbs r).changesets
      else ((s.collectCs (s.purgeCsDead landed)).dbs r).changesets := by
  unfold purgeCsBatch
  split_ifs
  · rfl
  · simp only [purgeCsRows, stampPurged, collectBlobs, collectBlobsRepos, mapRepos]
    split_ifs <;> rfl

theorem gcPassStep_sparesCs (s : Server Id) (pass : GcPass Id) :
    s.SparesCs (s.gcPassStep pass).1 := by
  unfold gcPassStep
  simp only
  split
  case h_8 landed hpc =>
    refine fun r row hrow hnamed => ?_
    have hdead : ∀ f, ∀ id ∈ s.partition (fun r =>
        (s.csCollectible (agedCandidates s.cat .cs pass.cutNs gcBatchRows) r).map (fun p => p.1))
        (s.csBatchIds landed pass.cutNs) f, s.csUnreferenced f id = true := by
      intro f id hid
      obtain ⟨r, rfl, hselected⟩ := mem_partition hid
      exact csCollectible_unreferenced hselected
    exact collectCs_sparesCs hdead r row hrow hnamed
  case h_10 =>
    refine .of_changesets fun r => ?_
    simp only [collectBlobs, collectBlobsRepos, mapRepos]
    split_ifs <;> rfl
  case h_11 =>
    refine .of_changesets fun r => ?_
    simp only [treeBatch, collectTrees, mapRepos]
    split_ifs <;> rfl
  case h_12 => split_ifs <;> exact .of_changesets fun r => rfl
  case h_14 landed hpc =>
    intro r row hrow hnamed
    rw [changesets_purgeCsBatch]
    split_ifs
    · exact hrow
    · refine collectCs_sparesCs (fun f id hid => ?_) r row hrow hnamed
      obtain ⟨r, rfl, hselected⟩ := mem_partition hid
      exact purgeableCs_unreferenced hselected
  case h_15 =>
    refine .of_changesets fun r => ?_
    simp only [purgeBlobBatch, stampPurged, collectBlobs, collectBlobsRepos, mapRepos]
    split_ifs <;> rfl
  all_goals exact .of_changesets fun r => rfl

/-! ### Trees -/

/-- The trees of a file that something protects stay. -/
def SparesTrees (nowNs : ℕ) (s s' : Server Id) : Prop :=
  ∀ f, ∀ row ∈ s.trees f, (f ∈ s.files → s.treeProtected nowNs f row.id = true) →
    row ∈ s'.trees f

theorem treeBatch_spares (s : Server Id) (nowNs : ℕ) (cutNs : ℤ) :
    s.SparesTrees nowNs (s.treeBatch nowNs cutNs) := by
  intro f row hrow hprotected
  show row ∈ (s.dropTrees (fun _ id => decide (id ∈ s.treeBatchIds nowNs cutNs))).trees f
  simp only [dropTrees]
  split_ifs with hf
  · refine List.mem_filter.mpr ⟨hrow, ?_⟩
    rw [Bool.not_eq_true', decide_eq_false_iff_not]
    intro hmem
    have hfree := (List.mem_filter.mp hmem).2
    rw [Bool.not_eq_true', List.any_eq_false] at hfree
    exact hfree f hf (hprotected hf)
  · exact hrow

theorem purgeCsBatch_trees (s : Server Id) (landed : List Id) (nowNs : ℕ) (cutNs : ℤ) :
    (s.purgeCsBatch landed nowNs cutNs).1.trees = s.trees := by
  unfold purgeCsBatch
  split_ifs
  · rfl
  · simp only [purgeCsRows, stampPurged, collectBlobs, collectBlobsRepos, collectCs, mapRepos]

theorem gcPassStep_sparesTrees (s : Server Id) (pass : GcPass Id) :
    s.SparesTrees pass.nowNs (s.gcPassStep pass).1 := by
  unfold gcPassStep
  simp only
  split
  case h_11 => exact treeBatch_spares s pass.nowNs pass.cutNs
  case h_12 => split_ifs <;> exact fun f row hrow _ => hrow
  case h_14 => exact fun f row hrow _ => by rw [purgeCsBatch_trees]; exact hrow
  all_goals exact fun f row hrow _ => hrow

end Server

end

end Naatre
