import Naatre.Server.AuditTrail
import Naatre.Server.HistoryKept
import Naatre.Server.TreeLoad

/-!
Stored trees are whole. Whatever the two collectors take between the writes,
the tree of every stored changeset loads to its last directory, and so is every
directory below an unexpired snapshot there.
-/

namespace Naatre

section

variable {Id : Type} [Platform Id]

/-! ### Below a root -/

/-- Every directory below the root has its row. -/
def Complete (trees : List (TreeRow Id)) (root : Id) : Prop :=
  ∀ id ∈ treeClosure trees [root], (treeGet trees id).isSome

/-- The tree loads. -/
def Loads (trees : List (TreeRow Id)) (root : Id) : Prop :=
  ∃ node, MemNode.load trees (some root) = .ok node

/-- Below the root the second store finds what the first does. -/
def SameBelow (a b : List (TreeRow Id)) (root : Id) : Prop :=
  ∀ id ∈ treeClosure a [root], treeGet b id = treeGet a id

theorem treeClosure_seed {trees : List (TreeRow Id)} {seeds : List Id} {root id : Id}
    (hroot : root ∈ seeds) (hid : id ∈ treeClosure trees [root]) : id ∈ treeClosure trees seeds := by
  obtain ⟨s, hs, hpath⟩ := mem_treeClosure.mp hid
  rw [List.mem_singleton] at hs
  exact mem_treeClosure.mpr ⟨root, hroot, hs ▸ hpath⟩

theorem mem_treeClosure_self {trees : List (TreeRow Id)} {root : Id} :
    root ∈ treeClosure trees [root] := subset_treeClosure List.mem_cons_self

/-- A closure below a tree of the closure lies in it. -/
theorem treeClosure_trans {trees : List (TreeRow Id)} {root child id : Id}
    (hchild : child ∈ treeClosure trees [root]) (hid : id ∈ treeClosure trees [child]) :
    id ∈ treeClosure trees [root] := by
  obtain ⟨s, hs, hpath⟩ := mem_treeClosure.mp hchild
  obtain ⟨c, hc, hbelow⟩ := mem_treeClosure.mp hid
  rw [List.mem_singleton] at hc
  exact mem_treeClosure.mpr ⟨s, hs, hpath.trans (hc ▸ hbelow)⟩

theorem Complete.same {a b : List (TreeRow Id)} {root : Id} (h : Complete a root)
    (hsame : SameBelow a b root) : Complete b root := by
  intro id hid
  have hid' := (mem_treeClosure_of_agree fun x hx => ⟨h x hx, hsame x hx⟩).mp hid
  rw [hsame id hid']
  exact h id hid'

omit [Platform Id] in
/-- A loader that agrees on the sub-directories loads the same. -/
theorem loadEntries_agree {load load' : Id → Except (DeriveError Id) (MemNode Id)}
    {es : List (TreeEntry Id)} {node : MemNode Id}
    (hload : ∀ e ∈ es, e.kind = .dir → ∀ n, load e.object = .ok n → load' e.object = .ok n)
    (h : loadEntries load es = .ok node) : loadEntries load' es = .ok node := by
  induction es generalizing node with
  | nil => exact h
  | cons e es ih =>
      obtain ⟨entry, rest, hentry, hrest, rfl⟩ := loadEntries_cons.mp h
      refine loadEntries_cons.mpr ⟨entry, rest, ?_,
        ih (fun e he => hload e (List.mem_cons_of_mem _ he)) hrest, rfl⟩
      cases hentry with
      | file hkind => exact .file hkind
      | dir child hkind hchild =>
          exact .dir child hkind (hload e List.mem_cons_self hkind child hchild)

omit [Platform Id] in
theorem TreeRow.mem_dirs_of_entry {row : TreeRow Id} {e : TreeEntry Id} (he : e ∈ row.entries)
    (hkind : e.kind = .dir) : e.object ∈ row.dirs :=
  List.mem_map.mpr ⟨e, List.mem_filter.mpr ⟨he, decide_eq_true hkind⟩, rfl⟩

theorem treeClosure_entry {trees : List (TreeRow Id)} {root id : Id} {row : TreeRow Id}
    (hid : id ∈ treeClosure trees [root]) (hrow : treeGet trees id = some row) {e : TreeEntry Id}
    (he : e ∈ row.entries) (hkind : e.kind = .dir) : e.object ∈ treeClosure trees [root] := by
  refine treeClosure_child hid ?_
  rw [TreeChild, childTrees, hrow, Option.map_some, Option.getD_some]
  exact TreeRow.mem_dirs_of_entry he hkind

theorem loadNode_same {a b : List (TreeRow Id)} {root : Id} (hsame : SameBelow a b root) {k : ℕ}
    {id : Id} (hid : id ∈ treeClosure a [root]) {node : MemNode Id}
    (h : loadNode a k id = .ok node) : loadNode b k id = .ok node := by
  induction k generalizing id node with
  | zero => simp [loadNode] at h
  | succ k ih =>
      obtain ⟨row, hrow, hentries⟩ := loadNode_succ.mp h
      refine loadNode_succ.mpr ⟨row, by rw [hsame id hid, hrow], ?_⟩
      exact loadEntries_agree
        (fun e he hkind n hn => ih (treeClosure_entry hid hrow he hkind) hn) hentries

theorem Loads.same {a b : List (TreeRow Id)} {root : Id} (h : Loads a root)
    (hsame : SameBelow a b root) : Loads b root := by
  obtain ⟨node, hnode⟩ := h
  exact ⟨node, loadNode_fuel (loadNode_same hsame mem_treeClosure_self hnode)⟩

/-- What a tree loads, lies in stored rows. -/
theorem loadNode_complete {trees : List (TreeRow Id)} {k : ℕ} {id : Id} {node : MemNode Id}
    (h : loadNode trees k id = .ok node) : Complete trees id := by
  induction k generalizing id node with
  | zero => simp [loadNode] at h
  | succ k ih =>
      obtain ⟨row, hrow, hentries⟩ := loadNode_succ.mp h
      have hchild : ∀ es node, loadEntries (loadNode trees k) es = .ok node →
          ∀ e ∈ es, e.kind = .dir → Complete trees e.object := by
        intro es
        induction es with
        | nil => exact fun _ _ e he => absurd he List.not_mem_nil
        | cons e es ihes =>
            intro node hnode x hx hkind
            obtain ⟨entry, rest, hentry, hrest, -⟩ := loadEntries_cons.mp hnode
            rcases List.mem_cons.mp hx with rfl | hx
            · cases hentry with
              | file hfile => rw [hfile] at hkind; cases hkind
              | dir child _ hload => exact ih hload
            · exact ihes rest hrest x hx hkind
      intro x hx
      obtain ⟨s, hs, hpath⟩ := mem_treeClosure.mp hx
      rw [List.mem_singleton] at hs
      subst hs
      rcases Relation.ReflTransGen.cases_head hpath with rfl | ⟨c, hstep, hbelow⟩
      · rw [hrow]
        rfl
      · rw [TreeChild, childTrees, hrow, Option.map_some, Option.getD_some] at hstep
        obtain ⟨e, he, rfl⟩ := List.mem_map.mp hstep
        obtain ⟨he, hkind⟩ := List.mem_filter.mp he
        exact hchild _ _ hentries e he (of_decide_eq_true hkind) x
          (mem_treeClosure.mpr ⟨e.object, List.mem_cons_self, hbelow⟩)

theorem Loads.complete {trees : List (TreeRow Id)} {root : Id} (h : Loads trees root) :
    Complete trees root := by
  obtain ⟨node, hnode⟩ := h
  exact loadNode_complete hnode

theorem Complete.sameBelow_grow {a b : List (TreeRow Id)} (h : TreesGrow a b) {root : Id}
    (hcomplete : Complete a root) : SameBelow a b root := by
  intro id hid
  obtain ⟨row, hrow⟩ := Option.isSome_iff_exists.mp (hcomplete id hid)
  rw [h.get hrow, hrow]

theorem Loads.grow {a b : List (TreeRow Id)} (h : TreesGrow a b) {root : Id} (hload : Loads a root) :
    Loads b root := by
  obtain ⟨node, hnode⟩ := hload
  exact ⟨node, h.load hnode⟩

/-- A store that lost rows, none of them below the root. -/
theorem sameBelow_of_kept {a b : List (TreeRow Id)} (hwf : TreesWf b) {root : Id}
    (hcomplete : Complete a root)
    (hkept : ∀ row ∈ a, row.id ∈ treeClosure a [root] → row ∈ b) : SameBelow a b root := by
  intro id hid
  obtain ⟨row, hrow⟩ := Option.isSome_iff_exists.mp (hcomplete id hid)
  obtain ⟨hmem, rfl⟩ := treeGet_some hrow
  rw [hrow, hwf.get (hkept row hmem hid)]

/-! ### The writers -/

/-- Every changeset's tree loads. -/
def RootsLoad (cx : RepoCx Id) : Prop :=
  ∀ row ∈ cx.db.changesets, Loads cx.trees row.rootTreeId

theorem RootsLoad.insert {cx cx' : RepoCx Id} {rec : ChangesetInsert Id}
    (h : changesetInsertRows cx rec = some cx') {node : MemNode Id} {size : ℕ}
    (hcollect : node.collect = .ok (rec.rootTreeId, size, rec.trees)) (hwf : TreesWf cx.trees)
    (hloads : RootsLoad cx) : RootsLoad cx' := by
  obtain ⟨-, rfl⟩ := changesetInsertRows_some h
  intro row hrow
  rcases List.mem_append.mp hrow with hrow | hrow
  · exact (hloads row hrow).grow (.of_collect hcollect cx.trees)
  · rw [List.mem_singleton.mp hrow]
    exact ⟨node, load_collect hcollect hwf⟩

theorem NodeStep.rootsLoad {cmd : LandCommand Id} {st st' : LandState Id} {node : Id}
    {o : NodeOutcome} (h : NodeStep cmd st node o st') (hwf : TreesWf st.cx.trees)
    (hloads : RootsLoad st.cx) : RootsLoad st'.cx := by
  cases h with
  | dropped => exact hloads
  | adopted m canonical hencode hgate hid stored hput =>
      obtain ⟨cas, cat, written, rfl⟩ := putBlobs_ok hput
      exact hloads
  | inserted m canonical hencode hgate hid stored st' hput hinsert =>
      obtain ⟨cas, cat, written, rfl⟩ := putBlobs_ok hput
      obtain ⟨rootTreeId, size, trees, cx, hcollect, hrow, rfl⟩ := landInsert_ok hinsert
      exact RootsLoad.insert hrow hcollect hwf hloads

theorem LandTrace.rootsLoad {cmd : LandCommand Id} {st st' : LandState Id} {chain : List Id}
    {os : List NodeOutcome} (h : LandTrace cmd st chain os st') (hwf : TreesWf st.cx.trees)
    (hloads : RootsLoad st.cx) : RootsLoad st'.cx := by
  induction h with
  | nil => exact hloads
  | cons hnode _ ih => exact ih (hnode.treesGrow.wf hwf) (hnode.rootsLoad hwf hloads)

theorem LandSuccess.rootsLoad {cx cx' : RepoCx Id} {cmd : LandCommand Id} {done : LandDone Id}
    (h : LandSuccess cx cmd done cx') (hwf : TreesWf cx.trees) (hloads : RootsLoad cx) :
    RootsLoad cx' := by
  cases h with
  | replay => exact hloads
  | contained => exact hloads
  | rebased f hout b =>
      obtain ⟨os, hos⟩ := landTrace_exists b.loop
      exact hos.rootsLoad hwf hloads

theorem Imported.rootsLoad {nowNs : ℕ} {cx cx' : RepoCx Id} {ps : List (PreparedCommit Id)}
    (h : Imported nowNs cx ps cx') (hwf : TreesWf cx.trees) (hloads : RootsLoad cx) :
    RootsLoad cx' := by
  induction h with
  | nil => exact hloads
  | cons hcommit _ ih =>
      obtain ⟨c⟩ := hcommit
      obtain ⟨cas, cat, hstored⟩ := c.puts.frame
      have hwf' : TreesWf c.stored.trees := by rw [hstored]; exact hwf
      have hloads' : RootsLoad c.stored := by rw [hstored]; exact hloads
      refine ih ?_ (RootsLoad.insert c.insert_ok c.collect_ok hwf' hloads')
      obtain ⟨-, hcx⟩ := changesetInsertRows_some c.insert_ok
      rw [hcx]
      exact (TreesGrow.of_collect c.collect_ok c.stored.trees).wf hwf'

theorem RunBackend.rootsLoad {nowNs : ℕ} {cx cx' : RepoCx Id} {git : GitRepo}
    {opts : ImportOptions} {head : GitOid} (h : RunBackend nowNs cx git opts head cx')
    (hwf : TreesWf cx.trees) (hloads : RootsLoad cx) : RootsLoad cx' := by
  cases h with
  | untouched => exact hloads
  | commits sc k mid cx' himported hputs =>
      obtain ⟨cas, cat, rfl⟩ := hputs.frame
      exact himported.rootsLoad hwf hloads
  | grafted sc last main db himported hgraft =>
      obtain ⟨refs, rfl⟩ := (graftMain_cases hgraft).refs_only
      exact himported.rootsLoad hwf hloads

/-! ### The collectors -/

namespace Server

/-- A tree lies below a changeset of the file or below a snapshot of it that has
not expired. -/
inductive BelowRoot (s : Server Id) (f : RepoId) (nowNs : ℕ)
    (snapshots : List (SnapshotRow Id)) (id : Id) : Prop
  | changeset (r : RepoId) (hr : r ∈ s.reposOf f) (row : ChangesetRow Id)
      (hrow : row ∈ (s.dbs r).changesets) (hid : id ∈ treeClosure (s.trees f) [row.rootTreeId])
  | snapshot (row : SnapshotRow Id) (hrow : row ∈ snapshots) (hlive : nowNs < row.expiresNs)
      (hid : id ∈ treeClosure (s.trees f) [row.treeId])

/-- The collector's probe protects it. -/
theorem BelowRoot.protected {s : Server Id} {f : RepoId} {nowNs : ℕ} {id : Id}
    (h : s.BelowRoot f nowNs (s.snapshots f) id) (hstored : (treeGet (s.trees f) id).isSome) :
    s.treeProtected nowNs f id = true := by
  rw [treeProtected, hstored, Bool.true_and, decide_eq_true_eq]
  cases h with
  | changeset r hr row hrow hid =>
      refine treeClosure_seed (List.mem_append_left _ ?_) hid
      exact List.mem_flatMap.mpr ⟨r, hr, List.mem_map_of_mem hrow⟩
  | snapshot row hrow hlive hid =>
      refine treeClosure_seed (List.mem_append_right _ ?_) hid
      exact List.mem_map.mpr ⟨row, List.mem_filter.mpr ⟨hrow, decide_eq_true hlive⟩, rfl⟩

/-- A candidate of the sweep is a row without a junction. -/
theorem mem_treeCandidates {s : Server Id} {f : RepoId} {row : TreeRow Id} :
    row ∈ s.treeCandidates f ↔ row ∈ s.trees f ∧ s.junctioned f row.id = false := by
  rw [treeCandidates, List.mem_filter, Bool.not_eq_true']

/-- A candidate that something protects directly is safe. -/
theorem seeded_safe {s : Server Id} {f : RepoId} {live : List Id} {row : TreeRow Id}
    (hrow : row ∈ s.treeCandidates f) (hseed : s.seedsProtection f live row.id = true) :
    row.id ∈ treeClosure (s.treeCandidates f)
      (((s.treeCandidates f).map (fun row => row.id)).filter (s.seedsProtection f live)) :=
  subset_treeClosure (List.mem_filter.mpr ⟨List.mem_map_of_mem hrow, hseed⟩)

/-- Down from a changeset's root the sweep's walk meets every candidate: below a
row it keeps anyway the walk starts, below a safe candidate it goes on. -/
theorem candidate_safe {s : Server Id} {f : RepoId} (hwf : TreesWf (s.trees f)) {live : List Id}
    {r : RepoId} (hr : r ∈ s.reposOf f) {cs : ChangesetRow Id}
    (hcs : cs ∈ (s.dbs r).changesets) {id : Id}
    (hpath : Relation.ReflTransGen (TreeChild (s.trees f)) cs.rootTreeId id)
    {row : TreeRow Id} (hrow : row ∈ s.treeCandidates f) (hid : row.id = id) :
    row.id ∈ treeClosure (s.treeCandidates f)
      (((s.treeCandidates f).map (fun row => row.id)).filter (s.seedsProtection f live)) := by
  have hisRoot : s.isRoot f cs.rootTreeId = true :=
    List.any_eq_true.mpr ⟨r, hr, List.any_eq_true.mpr ⟨cs, hcs, decide_eq_true rfl⟩⟩
  induction hpath generalizing row with
  | refl =>
      refine seeded_safe hrow ?_
      rw [seedsProtection, hid, hisRoot, Bool.or_true, Bool.true_or]
  | @tail above child _ hstep ih =>
      rw [TreeChild, childTrees] at hstep
      cases hget : treeGet (s.trees f) above with
      | none =>
          rw [hget] at hstep
          exact absurd hstep List.not_mem_nil
      | some aboveRow =>
          rw [hget, Option.map_some, Option.getD_some] at hstep
          obtain ⟨hmem, haboveId⟩ := treeGet_some hget
          by_cases hkept : s.junctioned f aboveRow.id || s.isRoot f aboveRow.id
          · refine seeded_safe hrow ?_
            rw [seedsProtection, Bool.or_eq_true]
            refine .inr (List.any_eq_true.mpr ⟨aboveRow, hmem, ?_⟩)
            rw [hid, decide_eq_true hstep, Bool.true_and]
            exact hkept
          · rw [Bool.not_eq_true, Bool.or_eq_false_iff] at hkept
            have hcandidate : aboveRow ∈ s.treeCandidates f :=
              mem_treeCandidates.mpr ⟨hmem, hkept.1⟩
            have hsafe := ih hcandidate haboveId
            rw [hid]
            refine treeClosure_child hsafe ?_
            have hfound := (hwf.sublist (List.filter_sublist (p := fun row =>
              !s.junctioned f row.id))).get hcandidate
            rw [TreeChild, childTrees, treeCandidates, hfound, Option.map_some, Option.getD_some]
            exact hstep

/-- The sweep of expired snapshots leaves what lies below a changeset or a live
snapshot. -/
theorem BelowRoot.unswept {s : Server Id} {f : RepoId} {nowNs : ℕ} (hwf : TreesWf (s.trees f))
    {id : Id} (h : s.BelowRoot f nowNs (s.snapshots f) id) : id ∉ s.unprotectedTrees f nowNs := by
  intro hmem
  obtain ⟨hcandidate, hunsafe⟩ := List.mem_filter.mp hmem
  obtain ⟨candidate, hcandidate, hid⟩ := List.mem_map.mp hcandidate
  refine of_decide_eq_true hunsafe ?_
  rw [← hid]
  cases h with
  | changeset r hr cs hcs hbelow =>
      obtain ⟨root, hroot, hpath⟩ := mem_treeClosure.mp hbelow
      rw [List.mem_singleton] at hroot
      subst hroot
      exact candidate_safe hwf hr hcs hpath hcandidate hid
  | snapshot snap hsnap hlive hbelow =>
      refine seeded_safe hcandidate ?_
      have hmem : candidate.id ∈ treeClosure (s.trees f) (s.snapshotRoots f nowNs) := by
        rw [hid]
        refine treeClosure_seed ?_ hbelow
        exact List.mem_map.mpr ⟨snap, List.mem_filter.mpr ⟨hsnap, decide_eq_true hlive⟩, rfl⟩
      rw [seedsProtection, decide_eq_true hmem, Bool.true_or, Bool.true_or]

/-- The step of a snapshot pass that takes trees. -/
theorem sgcPassStep_sparesTrees {s : Server Id} {pass : SgcPass Id} {f : RepoId}
    (hwf : TreesWf (s.trees f)) {row : TreeRow Id} (hrow : row ∈ s.trees f)
    (h : f ∈ s.files → s.BelowRoot f pass.nowNs ((s.sgcPassStep pass).1.snapshots f) row.id) :
    row ∈ (s.sgcPassStep pass).1.trees f := by
  unfold sgcPassStep at h ⊢
  simp only at h ⊢
  split at h
  · exact hrow
  · exact hrow
  · exact hrow
  · exact hrow
  · split_ifs <;> exact hrow
  next purgable hpc =>
    simp only [sweepSnapshots, dropTrees] at h ⊢
    split_ifs with hf
    · refine List.mem_filter.mpr ⟨hrow, ?_⟩
      rw [Bool.not_eq_true', decide_eq_false_iff_not]
      refine BelowRoot.unswept (s := s.purgeSnapshots purgable) hwf ?_
      cases h hf with
      | changeset r hr cs hcs hbelow => exact .changeset r hr cs hcs hbelow
      | snapshot snap hsnap hlive hbelow => exact .snapshot snap hsnap hlive hbelow
    · exact hrow

/-! ### Runs -/

/-- The trees of the stored changesets load, those of the snapshots that have
not expired are complete, and no pass in flight reads a later clock. -/
structure TreesHeld (s : Server Id) : Prop where
  roots : ∀ r ∈ s.repoIds, RootsLoad (s.cx r)
  snapshots : ∀ f, ∀ row ∈ s.snapshots f, s.nowNs < row.expiresNs →
    Complete (s.trees f) row.treeId
  gcPast : ∀ pass, s.gc = some pass → pass.nowNs ≤ s.nowNs
  sgcPast : ∀ pass ∈ s.snapshotGc, pass.nowNs ≤ s.nowNs

theorem put_rootsLoad {s : Server Id} {r : RepoId} {cx : RepoCx Id}
    (h : ∀ r ∈ s.repoIds, RootsLoad (s.cx r)) (hcx : RootsLoad cx)
    (hgrow : TreesGrow (s.trees (s.file r)) cx.trees) :
    ∀ r' ∈ s.repoIds, RootsLoad ((s.put r cx).cx r') := by
  intro r' hr' row hrow
  have htrees : ((s.put r cx).cx r').trees =
      if s.file r' = s.file r then cx.trees else s.trees (s.file r') := trees_put
  have hrows : ((s.put r cx).cx r').db = if r' = r then cx.db else s.dbs r' := dbs_put
  rw [hrows] at hrow
  rw [htrees]
  split_ifs at hrow with hr
  · rw [if_pos (by rw [hr])]
    exact hcx row hrow
  · split_ifs with hf
    · have hload : Loads (s.trees (s.file r')) row.rootTreeId := h r' hr' row hrow
      rw [hf] at hload
      exact hload.grow hgrow
    · exact h r' hr' row hrow

/-- A write of one repository that keeps its changesets and its trees. -/
theorem put_rootsLoad_of_eq {s : Server Id} {r : RepoId} {cx : RepoCx Id} (hr : r ∈ s.repoIds)
    (h : ∀ r ∈ s.repoIds, RootsLoad (s.cx r)) (hrows : cx.db.changesets = (s.dbs r).changesets)
    (hgrow : TreesGrow (s.trees (s.file r)) cx.trees) :
    ∀ r' ∈ s.repoIds, RootsLoad ((s.put r cx).cx r') := by
  refine put_rootsLoad h (fun row hrow => ?_) hgrow
  rw [hrows] at hrow
  exact (h r hr row hrow).grow hgrow

theorem gcPassStep_rootsLoad {s : Server Id} {pass : GcPass Id}
    (hwf : ∀ f, TreesWf (s.trees f)) (h : ∀ r ∈ s.repoIds, RootsLoad (s.cx r)) :
    ∀ r ∈ s.repoIds, ∀ row ∈ ((s.gcPassStep pass).1.dbs r).changesets,
      Loads ((s.gcPassStep pass).1.trees (s.file r)) row.rootTreeId := by
  intro r hr row hrow
  have hrow' := (gcPassStep_collected s pass r).changesets.subset hrow
  have hloads := h r hr row hrow'
  refine hloads.same (sameBelow_of_kept ((hwf _).sublist (gcPassStep_trees s pass _))
    hloads.complete fun tree htree hbelow => ?_)
  refine gcPassStep_sparesTrees s pass _ tree htree fun _ => ?_
  exact BelowRoot.protected (.changeset r (mem_reposOf.mpr ⟨hr, rfl⟩) row hrow' hbelow)
    (by rw [(hwf _).get htree]; rfl)

theorem sgcPassStep_rootsLoad {s : Server Id} {pass : SgcPass Id}
    (hwf : ∀ f, TreesWf (s.trees f)) (h : ∀ r ∈ s.repoIds, RootsLoad (s.cx r)) :
    ∀ r ∈ s.repoIds, ∀ row ∈ (s.dbs r).changesets,
      Loads ((s.sgcPassStep pass).1.trees (s.file r)) row.rootTreeId := by
  intro r hr row hrow
  have hloads := h r hr row hrow
  refine hloads.same (sameBelow_of_kept ((hwf _).sublist (sgcPassStep_trees s pass _))
    hloads.complete fun tree htree hbelow => ?_)
  exact sgcPassStep_sparesTrees (hwf _) htree fun _ =>
    .changeset r (mem_reposOf.mpr ⟨hr, rfl⟩) row hrow hbelow

theorem TreesHeld.roots_step {s s' : Server Id} {e : Event Id} (hinv : TreesHeld s)
    (hwf : ∀ f, TreesWf (s.trees f)) (hcreates : ∀ pending ∈ s.creates, pending.1 ∈ s.repoIds)
    (h : s.step e = some s') : ∀ r ∈ s'.repoIds, RootsLoad (s'.cx r) := by
  have hknown := (step_serve h).1
  have hroots := hinv.roots
  cases step_cases h with
  | createWrite i r p cx hpending hpersist =>
      obtain ⟨w⟩ := hpersist
      have hr : r ∈ s.repoIds := hcreates _ (List.mem_of_getElem? hpending)
      exact put_rootsLoad (s := { s with creates := s.creates.eraseIdx i }) hroots
        (.insert w.insert_ok w.collect_ok (hwf _) (hroots r hr)) w.treesGrow
  | land r cmd done cx hland =>
      have hr : r ∈ s.repoIds := of_decide_eq_true hknown
      exact put_rootsLoad hroots (hland.rootsLoad (hwf _) (hroots r hr)) hland.treesGrow
  | landAborted r cmd cas cat =>
      exact put_rootsLoad_of_eq (of_decide_eq_true hknown) hroots rfl (.refl _)
  | importGit r git opts head stop cx hquiescent hrun =>
      have hr : r ∈ s.repoIds := of_decide_eq_true hknown
      exact put_rootsLoad hroots (hrun.rootsLoad (hwf _) (hroots r hr)) hrun.treesGrow
  | casRef r req done db hmain hredacted hwritten =>
      refine put_rootsLoad_of_eq (of_decide_eq_true hknown) hroots ?_ (.refl _)
      cases hwritten <;> rfl
  | putBytes r bytes cas =>
      exact put_rootsLoad_of_eq (of_decide_eq_true hknown) hroots rfl (.refl _)
  | recorded r bytes =>
      exact put_rootsLoad_of_eq (of_decide_eq_true hknown) hroots rfl (.refl _)
  | recordTombstoned r bytes =>
      exact put_rootsLoad_of_eq (of_decide_eq_true hknown) hroots rfl (.refl _)
  | mark r id kind =>
      refine put_rootsLoad_of_eq (of_decide_eq_true hknown) hroots ?_ (.refl _)
      obtain ⟨redactions, hmark⟩ := redactionMark_db (s.dbs r) id kind s.nowNs
      rw [hmark]
  | snapshotPost r req p done cx hprepare hwritten =>
      exact put_rootsLoad_of_eq (of_decide_eq_true hknown) hroots
        (by rw [snapshotWritten_db hwritten]; rfl) (hwritten.treesGrow hprepare)
  | sgcStep i pass =>
      intro r hr row hrow
      have hframe := sgcPassStep_frame s pass
      have hfile : (s.sgcPassStep pass).1.file r = s.file r := by rw [file, hframe.layout, file]
      have hrepos : (s.sgcPassStep pass).1.repoIds = s.repoIds :=
        congrArg (List.map Prod.fst) hframe.repos
      have hloads := @sgcPassStep_rootsLoad _ _ s pass hwf hroots r (hrepos ▸ hr) row
        (hframe.dbs ▸ hrow)
      rw [← hfile] at hloads
      exact hloads
  | gcStep pass =>
      intro r hr row hrow
      have hframe := gcPassStep_frame s pass
      have hfile : (s.gcPassStep pass).1.file r = s.file r := by rw [file, hframe.layout, file]
      have hrepos : (s.gcPassStep pass).1.repoIds = s.repoIds :=
        congrArg (List.map Prod.fst) hframe.repos
      have hloads := @gcPassStep_rootsLoad _ _ s pass hwf hroots r (hrepos ▸ hr) row hrow
      rw [← hfile] at hloads
      exact hloads
  | _ => exact hroots

/-- The clock never falls. -/
theorem step_nowNs {s s' : Server Id} {e : Event Id} (h : s.step e = some s') :
    s.nowNs ≤ s'.nowNs := by
  cases step_cases h with
  | tick ns => exact Nat.le_add_right _ _
  | sgcStep i pass => exact (sgcPassStep_frame s pass).nowNs.ge
  | gcStep pass => exact (gcPassStep_frame s pass).nowNs.ge
  | _ => exact le_rfl

/-- A posted closure is complete in the store it went into. -/
theorem posted_complete {trees : List (TreeRow Id)} (hwf : TreesWf trees)
    {req : SnapshotRequest Id} {p : PreparedSnapshot Id} (h : snapshotPrepare req = .ok p) :
    Complete (treesInsert trees p.trees) req.treeId := by
  obtain ⟨hrows, hclosed⟩ := snapshotPrepare_trees h
  have hroot : ∀ id ∈ [req.treeId], (treeGet p.trees id).isSome := by
    intro id hid
    rw [List.mem_singleton.mp hid]
    exact (snapshotPrepare_ok h).2.1
  intro id hid
  have hstored := hclosed.closure hroot ((hwf.closure_inserted hrows hclosed hroot).mp hid)
  rw [treeGet_treesInsert, Option.isSome_or, hstored, Bool.or_true]

theorem TreesHeld.snapshots_step {s s' : Server Id} {e : Event Id} (hinv : TreesHeld s)
    (hwf : ∀ f, TreesWf (s.trees f)) (h : s.step e = some s') (f : RepoId) :
    ∀ row ∈ s'.snapshots f, s'.nowNs < row.expiresNs → Complete (s'.trees f) row.treeId := by
  have hclock := step_nowNs h
  intro row hrow hlive
  have hlive' : s.nowNs < row.expiresNs := by omega
  cases step_cases h with
  | refused => exact hinv.snapshots f row hrow hlive'
  | sgcStep i pass hpass =>
      have hold := (sgcPassStep_snapshots s pass f).subset hrow
      have hcomplete := hinv.snapshots f row hold hlive'
      have hpast := hinv.sgcPast pass (List.mem_of_getElem? hpass)
      refine hcomplete.same (sameBelow_of_kept ((hwf f).sublist (sgcPassStep_trees s pass f))
        hcomplete fun tree htree hbelow => ?_)
      exact sgcPassStep_sparesTrees (hwf f) htree fun _ => .snapshot row hrow (by omega) hbelow
  | gcStep pass hpass =>
      have hold : row ∈ s.snapshots f := (gcPassStep_frame s pass).snapshots ▸ hrow
      have hcomplete := hinv.snapshots f row hold hlive'
      have hpast := hinv.gcPast pass hpass
      refine hcomplete.same (sameBelow_of_kept ((hwf f).sublist (gcPassStep_trees s pass f))
        hcomplete fun tree htree hbelow => ?_)
      refine gcPassStep_sparesTrees s pass f tree htree fun _ => ?_
      exact BelowRoot.protected (.snapshot row hold (by omega) hbelow)
        (by rw [(hwf f).get htree]; rfl)
  | snapshotPost r req p done cx hprepare hwritten =>
      have hgrow := hwritten.treesGrow hprepare
      rw [snapshots_put] at hrow
      rw [trees_put]
      split_ifs at hrow ⊢ with hf
      · have hold : row ∈ s.snapshots f → Complete cx.trees row.treeId := fun hold => by
          have hcomplete := hinv.snapshots f row hold hlive'
          rw [hf] at hcomplete
          exact hcomplete.same (hcomplete.sameBelow_grow hgrow)
        cases hwritten with
        | existing => exact hold (by rw [hf]; exact hrow)
        | created =>
            rcases List.mem_append.mp hrow with hrow | hrow
            · exact hold (by rw [hf]; exact hrow)
            · rw [List.mem_singleton.mp hrow]
              exact posted_complete (hwf _) hprepare
      · exact hinv.snapshots f row hrow hlive'
  | _ =>
      have hold := (step_snapshots_sublist h (by simp) f).subset hrow
      have hcomplete := hinv.snapshots f row hold hlive'
      exact hcomplete.same (hcomplete.sameBelow_grow (step_treesGrow h (by simp) (by simp) f))

/-- A pass keeps the clock it started with. -/
theorem gcPassStep_nowNs {s : Server Id} {pass next : GcPass Id}
    (h : (s.gcPassStep pass).2 = some next) : next.nowNs = pass.nowNs := by
  unfold gcPassStep at h
  simp only at h
  split at h
  case h_12 =>
    split_ifs at h
    cases h
    rfl
  case h_15 =>
    split_ifs at h
    cases h
    rfl
  all_goals
    cases h
    rfl

theorem sgcPassStep_nowNs {s : Server Id} {pass next : SgcPass Id}
    (h : (s.sgcPassStep pass).2 = some next) : next.nowNs = pass.nowNs := by
  unfold sgcPassStep at h
  simp only at h
  split at h
  case h_5 =>
    split_ifs at h
    cases h
    rfl
  case h_6 => cases h
  all_goals
    cases h
    rfl

theorem TreesHeld.gcPast_step {s s' : Server Id} {e : Event Id} (hinv : TreesHeld s)
    (h : s.step e = some s') : ∀ pass, s'.gc = some pass → pass.nowNs ≤ s'.nowNs := by
  have hclock := step_nowNs h
  intro pass hpass
  cases step_cases h with
  | gcStart =>
      cases hpass
      exact le_rfl
  | gcStep current hcurrent =>
      have hpast := hinv.gcPast current hcurrent
      rw [gcPassStep_nowNs hpass]
      omega
  | sgcStep i current =>
      have hgc : (s.sgcPassStep current).1.gc = s.gc := by
        unfold sgcPassStep
        simp only
        split
        case h_5 => split_ifs <;> rfl
        all_goals rfl
      exact (hinv.gcPast pass (hgc ▸ hpass)).trans hclock
  | crash => cases hpass
  | _ => exact (hinv.gcPast pass hpass).trans hclock

theorem TreesHeld.sgcPast_step {s s' : Server Id} {e : Event Id} (hinv : TreesHeld s)
    (h : s.step e = some s') : ∀ pass ∈ s'.snapshotGc, pass.nowNs ≤ s'.nowNs := by
  have hclock := step_nowNs h
  intro pass hpass
  cases step_cases h with
  | sgcStart =>
      rcases List.mem_append.mp hpass with hpass | hpass
      · exact hinv.sgcPast pass hpass
      · rw [List.mem_singleton.mp hpass]
        exact le_rfl
  | sgcStep i current hcurrent =>
      have hpast := hinv.sgcPast current (List.mem_of_getElem? hcurrent)
      have hframe := (sgcPassStep_frame s current).nowNs
      simp only at hpass hclock ⊢
      split at hpass
      next next' hnext =>
        rcases List.mem_or_eq_of_mem_set hpass with hpass | rfl
        · exact (hinv.sgcPast pass hpass).trans hclock
        · rw [sgcPassStep_nowNs hnext]
          omega
      · exact (hinv.sgcPast pass ((List.eraseIdx_sublist _ _).subset hpass)).trans hclock
  | gcStep current =>
      exact (hinv.sgcPast pass ((gcPassStep_frame s current).snapshotGc ▸ hpass)).trans hclock
  | crash => exact absurd hpass List.not_mem_nil
  | _ => exact (hinv.sgcPast pass hpass).trans hclock

/-- In every run, with any number of passes of both collectors in it, at any
points between the writes, the tree of every stored changeset loads, and every
directory below a snapshot that has not expired is stored. -/
theorem trees_held_of_reach {ok : Server Id → Event Id → Prop} {s : Server Id} (h : Reach ok s) :
    TreesHeld s := by
  refine Lib.Reach.invariant ?_ (fun s e s' hs hinv _ he => ?_) h
  · rintro s ⟨layout, repos, nowNs, graceNs, -, rfl⟩
    exact ⟨fun _ _ row hrow => absurd hrow List.not_mem_nil,
      fun _ row hrow => absurd hrow List.not_mem_nil, by simp [boot], by simp [boot]⟩
  · have hwf := treesWf_of_reach hs
    exact ⟨hinv.roots_step hwf (creates_known_of_reach hs) he, hinv.snapshots_step hwf he,
      hinv.gcPast_step he, hinv.sgcPast_step he⟩

/-- The load of a stored changeset's tree and the walk of an unexpired
snapshot's never miss a row. -/
theorem trees_whole_of_reach {ok : Server Id → Event Id → Prop} {s : Server Id} (h : Reach ok s) :
    (∀ r ∈ s.repoIds, ∀ row ∈ (s.dbs r).changesets,
      ∃ node, MemNode.load (s.trees (s.file r)) (some row.rootTreeId) = .ok node) ∧
    ∀ f, ∀ row ∈ s.snapshots f, s.nowNs < row.expiresNs →
      ∀ id ∈ treeClosure (s.trees f) [row.treeId], (treeGet (s.trees f) id).isSome :=
  ⟨(trees_held_of_reach h).roots, (trees_held_of_reach h).snapshots⟩

end Server

end

/-! ### Passes around two snapshots -/

namespace Server.TreesHeld

/-- A directory of one file. -/
def frame (name : String) : TreeFrame PlainId :=
  ⟨⟨[⟨name, .file, Platform.blobId [97, 10], 2, false⟩]⟩, rfl⟩

def snapshot (snapId : PlainId) (name : String) (ttlSecs : Option ℕ) : List (Event PlainId) :=
  [.snapshotPut 1 snapId [97, 10],
    .snapshotPost 1
      { repoName := "r"
        principal := "ann"
        scope := none
        snapId := snapId
        treeId := Platform.treeId (frame name)
        ttlSecs := ttlSecs
        trees := [frame name] }]

/-- A create that is never landed, a snapshot, another one that has expired when
its collector passes, and two passes of the other collector. -/
def collected : List (Event PlainId) :=
  HistoryKept.edited ++ snapshot [5] "f" none ++ snapshot [6] "g" (some 3600) ++
    .tick 3600000000000 :: .sgcStart :: List.replicate 6 (.sgcStep 0) ++ HistoryKept.passes

end Server.TreesHeld

namespace Server

open TreesHeld in
/-- The passes took two trees of four and the expired snapshot, and left those of
the import and the other snapshot whole. -/
theorem trees_whole_of_reach_collected : ∃ s, Lib.exec step StaleTip.start collected = some s ∧
    (s.trees 1).length = 2 ∧ (s.dbs 1).changesets.length = 1 ∧ (s.snapshots 1).length = 1 ∧
      (∀ row ∈ (s.dbs 1).changesets,
        ∃ node, MemNode.load (s.trees (s.file 1)) (some row.rootTreeId) = .ok node) ∧
      ∀ row ∈ s.snapshots 1, s.nowNs < row.expiresNs ∧
        ∀ id ∈ treeClosure (s.trees 1) [row.treeId], (treeGet (s.trees 1) id).isSome := by
  have hrun : (Lib.exec step StaleTip.start collected).any (fun s =>
      decide ((s.trees 1).length = 2) && decide ((s.dbs 1).changesets.length = 1) &&
        decide ((s.snapshots 1).length = 1) && decide (1 ∈ s.repoIds) &&
        (s.snapshots 1).all fun row => decide (s.nowNs < row.expiresNs)) = true := by
    decide +kernel
  obtain ⟨s, hs, hholds⟩ := (Option.any_eq_true _ _).mp hrun
  simp only [Bool.and_eq_true, List.all_eq_true, decide_eq_true_eq] at hholds
  obtain ⟨⟨⟨⟨htrees, hrows⟩, hsnapshots⟩, hrepo⟩, hlive⟩ := hholds
  have hstart : Init StaleTip.start := ⟨.dbPerRepo, [(1, "r")], 100, 10, by decide, rfl⟩
  have hreach : Reach (fun _ _ => True) s := Lib.Reach.exec (.start hstart) (by simp) hs
  obtain ⟨hroots, hclosures⟩ := trees_whole_of_reach hreach
  exact ⟨s, hs, htrees, hrows, hsnapshots, hroots 1 hrepo, fun row hrow =>
    ⟨hlive row hrow, hclosures 1 row hrow (hlive row hrow)⟩⟩

end Server

end Naatre
