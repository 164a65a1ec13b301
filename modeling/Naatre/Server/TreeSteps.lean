import Naatre.Server.ServeSteps
import Naatre.Server.Trees

/-!
What one step of the system does to the tree rows and the snapshot rows of a
file: they stay, a closed set of trees or one snapshot goes in, or a collector
takes some away. A store of tree rows is well formed in every run.
-/

namespace Naatre

section

variable {Id : Type} [Platform Id]

/-- A closed set of rows went in. -/
def TreesGrow (a b : List (TreeRow Id)) : Prop :=
  ∃ rows, (∀ row ∈ rows, TreeRow.Wf row) ∧ TreesClosed rows ∧ b = treesInsert a rows

namespace TreesGrow

theorem refl (a : List (TreeRow Id)) : TreesGrow a a :=
  ⟨[], fun _ hrow => absurd hrow List.not_mem_nil, fun _ hrow => absurd hrow List.not_mem_nil, rfl⟩

theorem trans {a b c : List (TreeRow Id)} (hab : TreesGrow a b) (hbc : TreesGrow b c) :
    TreesGrow a c := by
  obtain ⟨rows, hwf, hclosed, rfl⟩ := hab
  obtain ⟨rows', hwf', hclosed', rfl⟩ := hbc
  refine ⟨rows ++ rows', fun row hrow => ?_, fun row hrow d hd => ?_,
    (treesInsert_append a rows rows').symm⟩
  · rcases List.mem_append.mp hrow with hrow | hrow
    · exact hwf row hrow
    · exact hwf' row hrow
  · rw [treeGet_isSome, List.map_append, List.mem_append, ← treeGet_isSome, ← treeGet_isSome]
    rcases List.mem_append.mp hrow with hrow | hrow
    · exact .inl (hclosed row hrow d hd)
    · exact .inr (hclosed' row hrow d hd)

theorem wf {a b : List (TreeRow Id)} (h : TreesGrow a b) (hwf : TreesWf a) : TreesWf b := by
  obtain ⟨rows, hrows, -, rfl⟩ := h
  exact hwf.insert hrows

/-- What was found is found still. -/
theorem get {a b : List (TreeRow Id)} (h : TreesGrow a b) {id : Id} {row : TreeRow Id}
    (hrow : treeGet a id = some row) : treeGet b id = some row := by
  obtain ⟨rows, -, -, rfl⟩ := h
  rw [treeGet_treesInsert, hrow, Option.some_or]

/-- A closed store stays closed. -/
theorem closed {a b : List (TreeRow Id)} (h : TreesGrow a b) (hclosed : TreesClosed a) :
    TreesClosed b := by
  obtain ⟨rows, -, hrows, rfl⟩ := h
  intro row hrow d hd
  rw [treeGet_treesInsert, Option.isSome_or, Bool.or_eq_true]
  rcases mem_treesInsert hrow with hrow | hrow
  · exact .inl (hclosed row hrow d hd)
  · exact .inr (hrows row hrow d hd)

theorem of_collect {node : MemNode Id} {root : Id} {size : ℕ} {rows : List (TreeRow Id)}
    (h : node.collect = .ok (root, size, rows)) (a : List (TreeRow Id)) :
    TreesGrow a (treesInsert a rows) := by
  obtain ⟨hrows, -⟩ := collect_rows h
  exact ⟨rows, hrows.wf, hrows.treesClosed, rfl⟩

end TreesGrow

/-! ### The writers -/

theorem Persisted.treesGrow {cx cx' : RepoCx Id} {p : PreparedCreate Id}
    (w : Persisted cx p cx') : TreesGrow cx.trees cx'.trees := by
  obtain ⟨-, hcx⟩ := changesetInsertRows_some w.insert_ok
  rw [hcx]
  exact .of_collect w.collect_ok _

theorem NodeStep.treesGrow {cmd : LandCommand Id} {st st' : LandState Id} {node : Id}
    {o : NodeOutcome} (h : NodeStep cmd st node o st') : TreesGrow st.cx.trees st'.cx.trees := by
  cases h with
  | dropped => exact .refl _
  | adopted m canonical hencode hgate hid stored hput =>
      obtain ⟨cas, cat, written, rfl⟩ := putBlobs_ok hput
      exact .refl _
  | inserted m canonical hencode hgate hid stored st' hput hinsert =>
      obtain ⟨cas, cat, written, rfl⟩ := putBlobs_ok hput
      obtain ⟨rootTreeId, size, trees, cx, hcollect, hrow, rfl⟩ := landInsert_ok hinsert
      obtain ⟨-, rfl⟩ := changesetInsertRows_some hrow
      exact .of_collect hcollect _

theorem LandTrace.treesGrow {cmd : LandCommand Id} {st st' : LandState Id} {chain : List Id}
    {os : List NodeOutcome} (h : LandTrace cmd st chain os st') :
    TreesGrow st.cx.trees st'.cx.trees := by
  induction h with
  | nil => exact .refl _
  | cons hnode _ ih => exact hnode.treesGrow.trans ih

theorem LandSuccess.treesGrow {cx cx' : RepoCx Id} {cmd : LandCommand Id} {done : LandDone Id}
    (h : LandSuccess cx cmd done cx') : TreesGrow cx.trees cx'.trees := by
  cases h with
  | replay => exact .refl _
  | contained => exact .refl _
  | rebased f hout b =>
      obtain ⟨os, hos⟩ := landTrace_exists b.loop
      exact hos.treesGrow

theorem Imported.treesGrow {nowNs : ℕ} {cx cx' : RepoCx Id} {ps : List (PreparedCommit Id)}
    (h : Imported nowNs cx ps cx') : TreesGrow cx.trees cx'.trees := by
  induction h with
  | nil => exact .refl _
  | cons hcommit _ ih =>
      obtain ⟨c⟩ := hcommit
      obtain ⟨cas, cat, hstored⟩ := c.puts.frame
      obtain ⟨-, hcx⟩ := changesetInsertRows_some c.insert_ok
      rw [hcx, hstored] at ih
      exact (TreesGrow.of_collect c.collect_ok _).trans ih

theorem RunBackend.treesGrow {nowNs : ℕ} {cx cx' : RepoCx Id} {git : GitRepo}
    {opts : ImportOptions} {head : GitOid} (h : RunBackend nowNs cx git opts head cx') :
    TreesGrow cx.trees cx'.trees := by
  cases h with
  | untouched => exact .refl _
  | commits sc k mid cx' himported hputs =>
      obtain ⟨cas, cat, rfl⟩ := hputs.frame
      exact himported.treesGrow
  | grafted sc last main db himported hgraft => exact himported.treesGrow

/-- The posted frames, each of which validates. -/
theorem decodeTrees_ok {frames : List (TreeFrame Id)} {trees : List (TreeRow Id)}
    (h : decodeTrees frames = .ok trees) : ∃ rows, trees = treesInsert [] rows ∧
      ∀ row ∈ rows, row.id = Platform.treeId row.canonical ∧ row.canonical.tree.validate = .ok () := by
  unfold decodeTrees at h
  split_ifs at h
  split at h
  · cases h
  next hvalid =>
    refine ⟨_, (Except.ok.inj h).symm, fun row hrow => ?_⟩
    obtain ⟨frame, hframe, rfl⟩ := List.mem_map.mp hrow
    have hframe' := List.findSome?_eq_none_iff.mp hvalid frame hframe
    split at hframe'
    · cases hframe'
    next hok => exact ⟨rfl, hok⟩

/-- The posted trees: named by their frames, each once, none without its
sub-directories. -/
theorem snapshotPrepare_trees {req : SnapshotRequest Id} {p : PreparedSnapshot Id}
    (h : snapshotPrepare req = .ok p) : TreesWf p.trees ∧ TreesClosed p.trees := by
  obtain ⟨hdecode, -, hsub, -⟩ := snapshotPrepare_ok h
  constructor
  · obtain ⟨rows, hrows, hvalid⟩ := decodeTrees_ok hdecode
    rw [hrows]
    refine TreesWf.nil.insert fun row hrow => ?_
    obtain ⟨hid, hok⟩ := hvalid row hrow
    refine ⟨hid, ?_⟩
    rw [List.Nodup, List.pairwise_map]
    exact (Tree.validate_ok hok).imp fun hab heq => hab (by rw [heq])
  · intro row hrow d hd
    unfold missingSubtree at hsub
    rw [List.find?_eq_none] at hsub
    have hd' := hsub d (List.mem_flatMap.mpr ⟨row, hrow, hd⟩)
    simpa [Option.isSome_iff_ne_none] using hd'

theorem SnapshotWritten.treesGrow {cx cx' : RepoCx Id} {ephemeral : List (SnapDir Id)} {nowNs : ℕ}
    {req : SnapshotRequest Id} {p : PreparedSnapshot Id} {done : SnapshotCreated Id}
    (hprepare : snapshotPrepare req = .ok p)
    (h : SnapshotWritten cx ephemeral nowNs req p done cx') : TreesGrow cx.trees cx'.trees := by
  cases h with
  | existing => exact .refl _
  | created =>
      obtain ⟨hwf, hclosed⟩ := snapshotPrepare_trees hprepare
      exact ⟨p.trees, hwf.rows, hclosed, rfl⟩

/-! ### The system -/

namespace Server

/-- The tree rows of a file after a step. -/
theorem trees_put {s : Server Id} {r f : RepoId} {cx : RepoCx Id} :
    (s.put r cx).trees f = if f = s.file r then cx.trees else s.trees f := rfl

theorem trees_put_grow {s : Server Id} {r f : RepoId} {cx : RepoCx Id}
    (h : TreesGrow (s.cx r).trees cx.trees) : TreesGrow (s.trees f) ((s.put r cx).trees f) := by
  rw [trees_put]
  split_ifs with hf
  · rw [hf]
    exact h
  · exact .refl _

theorem dropTrees_sublist (s : Server Id) (dead : RepoId → Id → Bool) (f : RepoId) :
    ((s.dropTrees dead).trees f).Sublist (s.trees f) := by
  simp only [dropTrees]
  split_ifs
  · exact List.filter_sublist
  · exact .refl _

theorem sweepSnapshots_trees (s : Server Id) (nowNs : ℕ) (purgable : List Id) (f : RepoId) :
    ((s.sweepSnapshots nowNs purgable).trees f).Sublist (s.trees f) := by
  unfold sweepSnapshots
  exact dropTrees_sublist (s.purgeSnapshots purgable) _ f

theorem sgcPassStep_trees (s : Server Id) (pass : SgcPass Id) (f : RepoId) :
    ((s.sgcPassStep pass).1.trees f).Sublist (s.trees f) := by
  unfold sgcPassStep
  simp only
  split
  · exact .refl _
  · exact .refl _
  · exact .refl _
  · exact .refl _
  · split_ifs <;> exact .refl _
  · exact sweepSnapshots_trees s _ _ f

theorem gcPassStep_trees (s : Server Id) (pass : GcPass Id) (f : RepoId) :
    ((s.gcPassStep pass).1.trees f).Sublist (s.trees f) := by
  unfold gcPassStep
  simp only
  split
  case h_11 => exact dropTrees_sublist s (fun _ id => decide (id ∈ s.treeBatchIds _ _)) f
  case h_12 => split_ifs <;> exact .refl _
  case h_14 =>
    unfold purgeCsBatch
    simp only
    split_ifs <;> exact .refl _
  all_goals exact .refl _

/-- Outside the collectors tree rows go in closed. -/
theorem step_treesGrow {s s' : Server Id} {e : Event Id} (h : s.step e = some s')
    (hgc : e ≠ .gcStep) (hsgc : ∀ i, e ≠ .sgcStep i) (f : RepoId) :
    TreesGrow (s.trees f) (s'.trees f) := by
  cases step_cases h with
  | createWrite i r p cx hpending hpersist =>
      obtain ⟨w⟩ := hpersist
      exact trees_put_grow (s := { s with creates := s.creates.eraseIdx i }) w.treesGrow
  | land r cmd done cx hland => exact trees_put_grow hland.treesGrow
  | landAborted r cmd cas cat => exact trees_put_grow (.refl _)
  | importGit r git opts head stop cx hquiescent hrun => exact trees_put_grow hrun.treesGrow
  | casRef r req done db => exact trees_put_grow (.refl _)
  | putBytes r bytes cas => exact trees_put_grow (.refl _)
  | recorded r bytes => exact trees_put_grow (.refl _)
  | recordTombstoned r bytes => exact trees_put_grow (.refl _)
  | mark r id kind => exact trees_put_grow (.refl _)
  | snapshotPost r req p done cx hprepare hwritten =>
      exact trees_put_grow (hwritten.treesGrow hprepare)
  | sgcStep i pass => exact absurd rfl (hsgc i)
  | gcStep pass => exact absurd rfl hgc
  | _ => exact .refl _

/-- Tree rows go in closed, or go away. -/
theorem step_trees {s s' : Server Id} {e : Event Id} (h : s.step e = some s') (f : RepoId) :
    TreesGrow (s.trees f) (s'.trees f) ∨ (s'.trees f).Sublist (s.trees f) := by
  by_cases hgc : e = .gcStep
  · subst hgc
    cases step_cases h with
    | refused => exact .inl (.refl _)
    | gcStep pass => exact .inr (gcPassStep_trees s pass f)
  · by_cases hsgc : ∃ i, e = .sgcStep i
    · obtain ⟨i, rfl⟩ := hsgc
      cases step_cases h with
      | refused => exact .inl (.refl _)
      | sgcStep i pass => exact .inr (sgcPassStep_trees s pass f)
    · exact .inl (step_treesGrow h hgc (fun i hi => hsgc ⟨i, hi⟩) f)

/-- The tree rows of every file are well formed in every run. -/
theorem treesWf_of_reach {ok : Server Id → Event Id → Prop} {s : Server Id} (h : Reach ok s)
    (f : RepoId) : TreesWf (s.trees f) := by
  suffices hall : ∀ f, TreesWf (s.trees f) from hall f
  refine Lib.Reach.invariant (I := fun s => ∀ f, TreesWf (s.trees f)) ?_ ?_ h
  · rintro s ⟨layout, repos, nowNs, graceNs, -, rfl⟩ f
    exact .nil
  · intro s e s' _ hwf _ hstep f
    rcases step_trees hstep f with hgrow | hsub
    · exact hgrow.wf (hwf f)
    · exact (hwf f).sublist hsub

end Server

/-! ### Snapshot rows -/

theorem NodeStep.snapshots_eq {cmd : LandCommand Id} {st st' : LandState Id} {node : Id}
    {o : NodeOutcome} (h : NodeStep cmd st node o st') : st'.cx.snapshots = st.cx.snapshots := by
  cases h with
  | dropped => rfl
  | adopted m canonical hencode hgate hid stored hput =>
      obtain ⟨cas, cat, written, rfl⟩ := putBlobs_ok hput
      rfl
  | inserted m canonical hencode hgate hid stored st' hput hinsert =>
      obtain ⟨cas, cat, written, rfl⟩ := putBlobs_ok hput
      obtain ⟨rootTreeId, size, trees, cx, -, hrow, rfl⟩ := landInsert_ok hinsert
      obtain ⟨-, rfl⟩ := changesetInsertRows_some hrow
      rfl

theorem LandTrace.snapshots_eq {cmd : LandCommand Id} {st st' : LandState Id} {chain : List Id}
    {os : List NodeOutcome} (h : LandTrace cmd st chain os st') :
    st'.cx.snapshots = st.cx.snapshots := by
  induction h with
  | nil => rfl
  | cons hnode _ ih => exact ih.trans hnode.snapshots_eq

theorem LandSuccess.snapshots_eq {cx cx' : RepoCx Id} {cmd : LandCommand Id} {done : LandDone Id}
    (h : LandSuccess cx cmd done cx') : cx'.snapshots = cx.snapshots := by
  cases h with
  | replay => rfl
  | contained => rfl
  | rebased f hout b =>
      obtain ⟨os, hos⟩ := landTrace_exists b.loop
      exact hos.snapshots_eq

theorem Imported.snapshots_eq {nowNs : ℕ} {cx cx' : RepoCx Id} {ps : List (PreparedCommit Id)}
    (h : Imported nowNs cx ps cx') : cx'.snapshots = cx.snapshots := by
  induction h with
  | nil => rfl
  | cons hcommit _ ih =>
      obtain ⟨c⟩ := hcommit
      obtain ⟨cas, cat, hstored⟩ := c.puts.frame
      obtain ⟨-, hcx⟩ := changesetInsertRows_some c.insert_ok
      rw [ih, hcx, hstored]

theorem RunBackend.snapshots_eq {nowNs : ℕ} {cx cx' : RepoCx Id} {git : GitRepo}
    {opts : ImportOptions} {head : GitOid} (h : RunBackend nowNs cx git opts head cx') :
    cx'.snapshots = cx.snapshots := by
  cases h with
  | untouched => rfl
  | commits sc k mid cx' himported hputs =>
      obtain ⟨cas, cat, rfl⟩ := hputs.frame
      exact himported.snapshots_eq
  | grafted sc last main db himported hgraft => exact himported.snapshots_eq

namespace Server

theorem snapshots_put {s : Server Id} {r f : RepoId} {cx : RepoCx Id} :
    (s.put r cx).snapshots f = if f = s.file r then cx.snapshots else s.snapshots f := rfl

theorem sgcPassStep_snapshots (s : Server Id) (pass : SgcPass Id) (f : RepoId) :
    ((s.sgcPassStep pass).1.snapshots f).Sublist (s.snapshots f) := by
  unfold sgcPassStep
  simp only
  split
  · exact .refl _
  · exact .refl _
  · exact .refl _
  · exact .refl _
  · split_ifs <;> exact .refl _
  · simp only [sweepSnapshots, dropTrees, purgeSnapshots]
    split_ifs
    · exact List.filter_sublist
    · exact .refl _

/-- The snapshot rows of a file after a step, by the event. -/
inductive SnapshotStep (s : Server Id) (f : RepoId) : Event Id → List (SnapshotRow Id) → Prop
  | unchanged (e : Event Id) : SnapshotStep s f e (s.snapshots f)
  | posted (r : RepoId) (req : SnapshotRequest Id) (p : PreparedSnapshot Id)
      (done : SnapshotCreated Id) (cx : RepoCx Id) (hfile : f = s.file r)
      (hprepare : snapshotPrepare req = .ok p)
      (hwritten : SnapshotWritten (s.cx r) s.ephemeral s.nowNs req p done cx) :
      SnapshotStep s f (.snapshotPost r req) cx.snapshots
  | swept (i : ℕ) (snapshots : List (SnapshotRow Id))
      (hsub : snapshots.Sublist (s.snapshots f)) : SnapshotStep s f (.sgcStep i) snapshots

/-- A put of unchanged snapshot rows. -/
theorem SnapshotStep.of_put {s : Server Id} {r f : RepoId} {e : Event Id} {cx : RepoCx Id}
    (h : cx.snapshots = s.snapshots (s.file r)) :
    SnapshotStep s f e ((s.put r cx).snapshots f) := by
  have hsame : (s.put r cx).snapshots f = s.snapshots f := by
    rw [snapshots_put]
    split_ifs with hf
    · rw [h, hf]
    · rfl
  rw [hsame]
  exact .unchanged e

theorem step_snapshots {s s' : Server Id} {e : Event Id} (h : s.step e = some s') (f : RepoId) :
    SnapshotStep s f e (s'.snapshots f) := by
  cases step_cases h with
  | createWrite i r p cx hpending hpersist =>
      obtain ⟨w⟩ := hpersist
      obtain ⟨-, hcx⟩ := changesetInsertRows_some w.insert_ok
      have hsame : cx.snapshots = s.snapshots (s.file r) := by
        rw [hcx]
        rfl
      exact SnapshotStep.of_put hsame
  | land r cmd done cx hland => exact .of_put hland.snapshots_eq
  | landAborted r cmd cas cat => exact .of_put rfl
  | importGit r git opts head stop cx hquiescent hrun => exact .of_put hrun.snapshots_eq
  | casRef r req done db => exact .of_put rfl
  | putBytes r bytes cas => exact .of_put rfl
  | recorded r bytes => exact .of_put rfl
  | recordTombstoned r bytes => exact .of_put rfl
  | mark r id kind => exact .of_put rfl
  | snapshotPost r req p done cx hprepare hwritten =>
      rw [snapshots_put]
      split_ifs with hf
      · exact .posted r req p done cx hf hprepare hwritten
      · exact .unchanged _
  | sgcStep i pass => exact .swept i _ (sgcPassStep_snapshots s pass f)
  | gcStep pass =>
      have hsame := (gcPassStep_frame s pass).snapshots
      simp only [hsame]
      exact .unchanged _
  | _ => exact .unchanged _

/-- A step that is no POST adds no snapshot. -/
theorem step_snapshots_sublist {s s' : Server Id} {e : Event Id} (h : s.step e = some s')
    (hpost : ∀ r req, e ≠ .snapshotPost r req) (f : RepoId) :
    (s'.snapshots f).Sublist (s.snapshots f) := by
  have hstep := step_snapshots h f
  generalize s'.snapshots f = snapshots at hstep
  cases hstep with
  | unchanged => exact .refl _
  | posted r req => exact absurd rfl (hpost r req)
  | swept i snapshots hsub => exact hsub

end Server

end

end Naatre
