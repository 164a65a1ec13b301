import Naatre.Server.Ancestry
import Naatre.Server.CaseFold
import Naatre.Server.TreeNames

/-!
Properties of derived trees. What an empty tree has, and every writer of a tree
keeps, holds of the tree of every changeset: a changeset's row names its tree by
the id it was collected under, and the id loads as nothing else.
-/

namespace Naatre

section

variable {Id : Type} [Platform Id] {P : MemNode Id → Prop}

/-- The id is the one a tree with the property is collected under. -/
def TreeOf (P : MemNode Id → Prop) (root : Id) : Prop :=
  ∃ node size rows, P node ∧ node.collect = .ok (root, size, rows)

/-- Such an id loads as nothing else. -/
theorem TreeOf.load {root : Id} (h : TreeOf P root) {trees : List (TreeRow Id)}
    (hwf : TreesWf trees) {node : MemNode Id} (hload : MemNode.load trees (some root) = .ok node) :
    P node := by
  obtain ⟨derived, size, rows, hP, hcollect⟩ := h
  have hgrown := (TreesGrow.of_collect hcollect trees).load hload
  rw [load_collect hcollect hwf, Except.ok.injEq] at hgrown
  exact hgrown ▸ hP

/-- A property every writer keeps: a create whose changes are as `changes` says,
an import of trees that are as `git` says, and a land. -/
structure TreeProperty (P : MemNode Id → Prop) (changes : List (FileChange Id) → Prop)
    (git : GitTree → Prop) : Prop where
  empty : P .empty
  apply : ∀ {node node' : MemNode Id} {cs : List (FileChange Id)}, P node → changes cs →
    node.apply cs = .ok node' → P node'
  build : ∀ {nowNs : ℕ} {tree : GitTree} {cx cx' : RepoCx Id} {built : MemNode Id}, git tree →
    buildTreeInto nowNs cx .empty tree = .ok (built, cx') → P built
  merge : ∀ {cmd : LandCommand Id} {st : LandState Id} {node : Id} (m : NodeMerge cmd st node),
    P m.input.tree → P m.input.parentTree → P st.tipTree → P m.merged.node

/-- Every changeset's tree has the property. -/
def RootsOf (P : MemNode Id → Prop) (db : RepoTables Id) : Prop :=
  ∀ row ∈ db.changesets, TreeOf P row.rootTreeId

theorem RootsOf.insert {cx cx' : RepoCx Id} {rec : ChangesetInsert Id}
    (h : changesetInsertRows cx rec = some cx') (hroots : RootsOf P cx.db)
    (hroot : TreeOf P rec.rootTreeId) : RootsOf P cx'.db := by
  obtain ⟨-, rfl⟩ := changesetInsertRows_some h
  intro row hrow
  rcases List.mem_append.mp hrow with hrow | hrow
  · exact hroots row hrow
  · rw [List.mem_singleton.mp hrow]
    exact hroot

/-- The tree of a stored changeset. -/
theorem RootsOf.loadTree {cx : RepoCx Id} (hroots : RootsOf P cx.db) (hwf : TreesWf cx.trees)
    {id : Id} {row : ChangesetRow Id} (hrow : changesetGet cx.db id = some row)
    {node : MemNode Id} (hload : loadTree cx row.rootTreeId = .ok node) : P node :=
  (hroots row (List.mem_of_find?_eq_some hrow)).load hwf (loadTree_ok.mp hload)

section

variable {changes : List (FileChange Id) → Prop} {git : GitTree → Prop}

/-- What a create in flight brings: the tree of its parent has the property, and
its changes are fit. -/
structure CreateFit (P : MemNode Id → Prop) (changes : List (FileChange Id) → Prop)
    (p : PreparedCreate Id) : Prop where
  parent : ∀ root, p.parentRoot = some root → TreeOf P root
  changes : changes p.canonical.cs.changes

theorem Persisted.rootsOf {cx cx' : RepoCx Id} {p : PreparedCreate Id} (w : Persisted cx p cx')
    (hP : TreeProperty P changes git) (hp : CreateFit P changes p) (hwf : TreesWf cx.trees)
    (hroots : RootsOf P cx.db) : RootsOf P cx'.db := by
  have hnode : P w.parent := by
    have hload := w.parent_ok
    generalize w.parent = parent at hload
    cases hroot : p.parentRoot with
    | none =>
        rw [hroot] at hload
        cases hload
        exact hP.empty
    | some root =>
        rw [hroot] at hload
        exact (hp.parent root hroot).load hwf hload
  exact hroots.insert w.insert_ok ⟨_, _, _, hP.apply hnode hp.changes w.apply_ok, w.collect_ok⟩

/-- The trees a round merges, and the one it makes. -/
theorem NodeMerge.treeProperty {cmd : LandCommand Id} {st : LandState Id} {node : Id}
    (m : NodeMerge cmd st node) (hP : TreeProperty P changes git) (hwf : TreesWf st.cx.trees)
    (hroots : RootsOf P st.cx.db) (htip : P st.tipTree) : P m.input.tree ∧ P m.merged.node := by
  obtain ⟨hrow, htree, hparent⟩ := landInput_ok m.input_ok
  have hnode : P m.input.tree := hroots.loadTree hwf hrow htree
  have hbase : P m.input.parentTree := by
    rcases hparent with ⟨-, hempty⟩ | ⟨p, pRow, -, hpRow, hload⟩
    · rw [hempty]
      exact hP.empty
    · exact hroots.loadTree hwf hpRow hload
  exact ⟨hnode, hP.merge m hnode hbase htip⟩

theorem NodeStep.rootsOf {cmd : LandCommand Id} {st st' : LandState Id} {node : Id}
    {o : NodeOutcome} (h : NodeStep cmd st node o st') (hP : TreeProperty P changes git)
    (hwf : TreesWf st.cx.trees) (hroots : RootsOf P st.cx.db) (htip : P st.tipTree) :
    RootsOf P st'.cx.db ∧ P st'.tipTree := by
  cases h with
  | dropped => exact ⟨hroots, htip⟩
  | adopted m canonical hencode hgate hid stored hput =>
      obtain ⟨cas, cat, written, rfl⟩ := putBlobs_ok hput
      exact ⟨hroots, (m.treeProperty hP hwf hroots htip).1⟩
  | inserted m canonical hencode hgate hid stored st' hput hinsert =>
      obtain ⟨cas, cat, written, rfl⟩ := putBlobs_ok hput
      obtain ⟨rootTreeId, size, trees, cx, hcollect, hrow, rfl⟩ := landInsert_ok hinsert
      have hmerged := (m.treeProperty hP hwf hroots htip).2
      exact ⟨RootsOf.insert hrow hroots ⟨_, _, _, hmerged, hcollect⟩, hmerged⟩

theorem LandTrace.rootsOf {cmd : LandCommand Id} {st st' : LandState Id} {chain : List Id}
    {os : List NodeOutcome} (h : LandTrace cmd st chain os st') (hP : TreeProperty P changes git)
    (hwf : TreesWf st.cx.trees) (hroots : RootsOf P st.cx.db) (htip : P st.tipTree) :
    RootsOf P st'.cx.db := by
  induction h with
  | nil => exact hroots
  | cons hnode _ ih =>
      obtain ⟨hroots', htip'⟩ := hnode.rootsOf hP hwf hroots htip
      exact ih (hnode.treesGrow.wf hwf) hroots' htip'

theorem LandSuccess.rootsOf {cx cx' : RepoCx Id} {cmd : LandCommand Id} {done : LandDone Id}
    (h : LandSuccess cx cmd done cx') (hP : TreeProperty P changes git) (hwf : TreesWf cx.trees)
    (hroots : RootsOf P cx.db) : RootsOf P cx'.db := by
  cases h with
  | replay => exact hroots
  | contained => exact hroots
  | rebased f hout b =>
      obtain ⟨os, hos⟩ := landTrace_exists b.loop
      have hroots' : RootsOf P f.pending.db := hroots
      have htip : P b.tipTree := hroots'.loadTree hwf b.main_ok b.tree_ok
      exact hos.rootsOf hP hwf hroots htip

theorem Imported.rootsOf {nowNs : ℕ} {cx cx' : RepoCx Id} {ps : List (PreparedCommit Id)}
    (h : Imported nowNs cx ps cx') (hP : TreeProperty P changes git)
    (hps : ∀ p ∈ ps, git p.gitTree) (hroots : RootsOf P cx.db) : RootsOf P cx'.db := by
  induction h with
  | nil => exact hroots
  | cons hcommit _ ih =>
      obtain ⟨c⟩ := hcommit
      refine ih (fun p hp => hps p (List.mem_cons_of_mem _ hp)) ?_
      obtain ⟨cas, cat, hstored⟩ := c.puts.frame
      have hnode := hP.build (hps _ List.mem_cons_self) c.build_ok
      exact RootsOf.insert c.insert_ok (by rw [hstored]; exact hroots)
        ⟨_, _, _, hnode, c.collect_ok⟩

theorem RunBackend.rootsOf {nowNs : ℕ} {cx cx' : RepoCx Id} {repo : GitRepo}
    {opts : ImportOptions} {head : GitOid} (h : RunBackend nowNs cx repo opts head cx')
    (hP : TreeProperty P changes git) (hrepo : ∀ c ∈ repo, git c.tree) (hroots : RootsOf P cx.db) :
    RootsOf P cx'.db := by
  have hscan : ∀ sc : Scanned cx repo opts head, ∀ p ∈ sc.scan.importable, git p.gitTree := by
    intro sc p hp
    obtain ⟨c, hc, htree⟩ := sc.commit p hp
    exact htree ▸ hrepo c hc
  cases h with
  | untouched => exact hroots
  | commits sc k mid cx' himported hputs =>
      obtain ⟨cas, cat, rfl⟩ := hputs.frame
      exact himported.rootsOf hP (fun p hp => hscan sc p (List.mem_of_mem_take hp)) hroots
  | grafted sc last main db himported hgraft =>
      obtain ⟨refs, rfl⟩ := (graftMain_cases hgraft).refs_only
      exact himported.rootsOf hP (hscan sc) hroots

/-! ### The system -/

namespace Server

/-- What the requests bring: fit changes, and fit git trees. -/
def Brings (changes : List (FileChange Id) → Prop) (git : GitTree → Prop) : Event Id → Prop
  | .createLookup _ req => changes req.changes
  | .importGit _ repo _ _ _ => ∀ c ∈ repo, git c.tree
  | _ => True

/-- The trees of the changesets have the property, and the creates in flight are
fit. -/
structure RootsInv (P : MemNode Id → Prop) (changes : List (FileChange Id) → Prop)
    (s : Server Id) : Prop where
  roots : ∀ r, RootsOf P (s.dbs r)
  creates : ∀ r p, (r, p) ∈ s.creates → CreateFit P changes p

theorem RootsInv.step (hP : TreeProperty P changes git) {s s' : Server Id} {e : Event Id}
    (hinv : RootsInv P changes s) (hwf : ∀ f, TreesWf (s.trees f)) (he : Brings changes git e)
    (h : s.step e = some s') : RootsInv P changes s' := by
  refine ⟨fun r => ?_, fun r p hp => ?_⟩
  · have hroots := hinv.roots r
    have hdb := step_db h r
    generalize s'.dbs r = db at hdb ⊢
    cases hdb with
    | unchanged => exact hroots
    | createWrite i p cx hpending hpersist =>
        obtain ⟨w⟩ := hpersist
        exact w.rootsOf hP (hinv.creates r p (List.mem_of_getElem? hpending)) (hwf _) hroots
    | land cmd done cx hland => exact hland.rootsOf hP (hwf _) hroots
    | importGit repo opts head stop cx hquiescent hrun => exact hrun.rootsOf hP he hroots
    | casRef req done db hmain hredacted hwritten => cases hwritten <;> exact hroots
    | mark id kind =>
        obtain ⟨redactions, hmark⟩ := redactionMark_db (s.dbs r) id kind s.nowNs
        rw [hmark]
        exact hroots
    | gcStep db hcollected => exact fun row hrow => hroots row (hcollected.changesets.subset hrow)
  · rcases step_creates h hp with hold | ⟨req, metas, rfl, hlookup, hprepare⟩
    · exact hinv.creates r p hold
    · obtain ⟨-, -, rfl⟩ := createLookup_ok hlookup
      obtain ⟨hcs, -, hparent⟩ := createPrepare_ok hprepare
      refine ⟨fun root hroot => ?_, by rw [hcs]; exact he⟩
      rw [hparent] at hroot
      obtain ⟨found, hfound, rfl⟩ := Option.map_eq_some_iff.mp hroot
      obtain ⟨parent, -, hrow⟩ := List.mem_filterMap.mp (List.mem_of_mem_head? hfound)
      obtain ⟨row, hget, rfl⟩ := Option.map_eq_some_iff.mp hrow
      exact hinv.roots r row (List.mem_of_find?_eq_some hget)

/-- In every run whose requests are fit, every changeset's tree has the property. -/
theorem rootsInv_of_reach (hP : TreeProperty P changes git) {ok : Server Id → Event Id → Prop}
    (hok : ∀ s e, ok s e → Brings changes git e) {s : Server Id} (h : Reach ok s) :
    RootsInv P changes s := by
  refine Lib.Reach.invariant ?_ (fun s e s' hs hinv hse he =>
    hinv.step hP (treesWf_of_reach hs) (hok s e hse) he) h
  rintro s ⟨layout, repos, nowNs, graceNs, -, rfl⟩
  exact ⟨fun r row hrow => absurd hrow List.not_mem_nil,
    fun r p hp => absurd hp List.not_mem_nil⟩

/-- The tree of no changeset, or of a stored one. -/
def RootOf (s : Server Id) (r : RepoId) (root : Option Id) : Prop :=
  ∀ id, root = some id → ∃ row ∈ (s.dbs r).changesets, row.rootTreeId = id

theorem RootOf.load {s : Server Id} {r : RepoId} {root : Option Id} (h : s.RootOf r root)
    (hP : TreeProperty P changes git) (hinv : RootsInv P changes s)
    (hwf : ∀ f, TreesWf (s.trees f)) {node : MemNode Id}
    (hload : MemNode.load (s.cx r).trees root = .ok node) : P node := by
  cases root with
  | none =>
      cases hload
      exact hP.empty
  | some id =>
      obtain ⟨row, hrow, rfl⟩ := h id rfl
      exact (hinv.roots r row hrow).load (hwf _) hload

end Server

end

end

end Naatre
