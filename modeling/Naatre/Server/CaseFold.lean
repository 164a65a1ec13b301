import Naatre.Core.Plain
import Naatre.Server.CasSteps
import Naatre.Server.TreeLeaves

/-!
Names that fold alike. No writer of the trees checks a change list against the
siblings it does not name: the siblings of every stored tree fold apart in the
runs whose creates, lands and imports leave no two paths that clash.
-/

namespace Naatre

section

variable {Id : Type} [Platform Id]

/-! ### Rows -/

/-- No two names of the directory fold alike. -/
def TreeRow.FoldDistinct (row : TreeRow Id) : Prop :=
  row.canonical.tree.entries.Pairwise fun a b =>
    Platform.lower Id a.name ≠ Platform.lower Id b.name

instance (row : TreeRow Id) : Decidable row.FoldDistinct :=
  inferInstanceAs (Decidable (List.Pairwise _ _))

theorem treeRowOf_foldDistinct {entries : List (TreeEntry Id)} {row : TreeRow Id}
    (h : treeRowOf entries = .ok row) {node : MemNode Id}
    (hnode : node.FoldDistinct (Platform.lower Id))
    (hnames : entries.map (fun e => e.name) = node.names) : row.FoldDistinct := by
  obtain ⟨-, hentries, -⟩ := treeRowOf_ok h
  have hpairwise := node.names_pairwise hnode
  rw [← hnames, List.pairwise_map] at hpairwise
  rw [TreeRow.FoldDistinct, hentries, List.pairwise_map]
  exact hpairwise

mutual

/-- The entries of a node have its names, and the rows below fold apart. -/
theorem collectEntries_foldDistinct : (node : MemNode Id) →
    ∀ entries size rows, node.collectEntries = .ok (entries, size, rows) →
      node.FoldDistinct (Platform.lower Id) →
      entries.map (fun e => e.name) = node.names ∧ ∀ row ∈ rows, row.FoldDistinct
  | .empty => by
      intro entries size rows h _
      simp only [MemNode.collectEntries, Except.ok.injEq, Prod.mk.injEq] at h
      obtain ⟨rfl, -, rfl⟩ := h
      exact ⟨rfl, by simp⟩
  | .entry name e rest => by
      intro entries size rows h hnode
      rw [MemNode.collectEntries, Lib.bind_eq_ok] at h
      obtain ⟨⟨first, firstSize, firstRows⟩, hfirst, h⟩ := h
      rw [Lib.bind_eq_ok] at h
      obtain ⟨⟨others, total, otherRows⟩, hothers, h⟩ := h
      simp only [pure, Except.pure, Except.ok.injEq, Prod.mk.injEq] at h
      obtain ⟨rfl, -, rfl⟩ := h
      obtain ⟨hname, hrows⟩ := collectEntry_foldDistinct e _ _ _ _ hfirst hnode.2.1
      obtain ⟨hnames, hrows'⟩ := collectEntries_foldDistinct rest _ _ _ hothers hnode.2.2
      refine ⟨by rw [List.map_cons, hname, hnames]; rfl, fun row hrow => ?_⟩
      rcases List.mem_append.mp hrow with hrow | hrow
      · exact hrows row hrow
      · exact hrows' row hrow

theorem collectEntry_foldDistinct : (e : MemEntry Id) →
    ∀ name entry size rows, e.collectEntry name = .ok (entry, size, rows) →
      e.FoldDistinct (Platform.lower Id) → entry.name = name ∧ ∀ row ∈ rows, row.FoldDistinct
  | .file blob fileSize exec => by
      intro name entry size rows h _
      simp only [MemEntry.collectEntry, Except.ok.injEq, Prod.mk.injEq] at h
      obtain ⟨rfl, -, rfl⟩ := h
      exact ⟨rfl, by simp⟩
  | .dir child => by
      intro name entry size rows h hchild
      rw [MemEntry.collectEntry, Lib.bind_eq_ok] at h
      obtain ⟨⟨entries, total, childRows⟩, hentries, h⟩ := h
      rw [Lib.bind_eq_ok] at h
      obtain ⟨row, hrow, h⟩ := h
      simp only [pure, Except.pure, Except.ok.injEq, Prod.mk.injEq] at h
      obtain ⟨rfl, -, rfl⟩ := h
      obtain ⟨hnames, hrows⟩ := collectEntries_foldDistinct child _ _ _ hentries hchild
      refine ⟨rfl, fun r hr => ?_⟩
      rcases List.mem_append.mp hr with hr | hr
      · exact hrows r hr
      · rw [List.mem_singleton.mp hr]
        exact treeRowOf_foldDistinct hrow hchild hnames

end

theorem collect_foldDistinct {node : MemNode Id} {root : Id} {size : ℕ} {rows : List (TreeRow Id)}
    (h : node.collect = .ok (root, size, rows)) (hnode : node.FoldDistinct (Platform.lower Id)) :
    ∀ row ∈ rows, row.FoldDistinct := by
  rw [MemNode.collect, Lib.bind_eq_ok] at h
  obtain ⟨⟨entries, total, below⟩, hentries, h⟩ := h
  rw [Lib.bind_eq_ok] at h
  obtain ⟨row, hrow, h⟩ := h
  simp only [pure, Except.pure, Except.ok.injEq, Prod.mk.injEq] at h
  obtain ⟨rfl, -, rfl⟩ := h
  obtain ⟨hnames, hrows⟩ := collectEntries_foldDistinct node _ _ _ hentries hnode
  intro r hr
  rcases List.mem_append.mp hr with hr | hr
  · exact hrows r hr
  · rw [List.mem_singleton.mp hr]
    exact treeRowOf_foldDistinct hrow hnode hnames

/-- A store of rows that fold apart. -/
def TreesFold (trees : List (TreeRow Id)) : Prop := ∀ row ∈ trees, row.FoldDistinct

theorem TreesFold.insert {trees rows : List (TreeRow Id)} (h : TreesFold trees)
    (hrows : ∀ row ∈ rows, row.FoldDistinct) : TreesFold (treesInsert trees rows) := by
  intro row hrow
  rcases mem_treesInsert hrow with hrow | hrow
  · exact h row hrow
  · exact hrows row hrow

/-! ### Creates -/

/-- No two of the paths clash. -/
def PathsApart (lower : String → String) (paths : List Path) : Prop :=
  ∀ p ∈ paths, ∀ q ∈ paths, clash lower p.components q.components = false

instance (lower : String → String) (paths : List Path) : Decidable (PathsApart lower paths) :=
  inferInstanceAs (Decidable (∀ p ∈ paths, ∀ q ∈ paths, _))

/-- The paths the change list leaves of its parent tree are apart. -/
def CreateApart (cx : RepoCx Id) (p : PreparedCreate Id) : Prop :=
  ∀ parent, MemNode.load cx.trees p.parentRoot = .ok parent →
    PathsApart (Platform.lower Id) (changedLeaves parent p.canonical.cs.changes)

theorem Persisted.treesFold {cx cx' : RepoCx Id} {p : PreparedCreate Id} (w : Persisted cx p cx')
    (hapart : CreateApart cx p) (hwf : TreesWf cx.trees) (hfold : TreesFold cx.trees) :
    TreesFold cx'.trees := by
  obtain ⟨hsorted, hleaves⟩ := apply_leaves (load_sorted hwf w.parent_ok) w.apply_ok
  have hnode : w.node.FoldDistinct (Platform.lower Id) := by
    refine MemNode.foldDistinct_of_leaves w.node hsorted fun ds l es m hl hm => ?_
    have hp : (⟨ds, l⟩ : Path) ∈ changedLeaves w.parent p.canonical.cs.changes := (hleaves _).mpr hl
    have hq : (⟨es, m⟩ : Path) ∈ changedLeaves w.parent p.canonical.cs.changes := (hleaves _).mpr hm
    exact hapart w.parent w.parent_ok _ hp _ hq
  obtain ⟨-, hcx⟩ := changesetInsertRows_some w.insert_ok
  rw [hcx]
  exact hfold.insert (collect_foldDistinct w.collect_ok hnode)

/-! ### Imports -/

def GitTree.names : GitTree → List String
  | .empty => []
  | .entry name _ rest => name.text :: rest.names

mutual

/-- No directory of the commit has two names that fold alike. -/
def GitTree.FoldDistinct (lower : String → String) : GitTree → Prop
  | .empty => True
  | .entry name e rest =>
      (∀ n ∈ rest.names, lower name.text ≠ lower n) ∧ e.FoldDistinct lower ∧
        rest.FoldDistinct lower

def GitEntry.FoldDistinct (lower : String → String) : GitEntry → Prop
  | .dir _ tree => tree.FoldDistinct lower
  | .blob _ _ _ => True

end

mutual

def GitTree.decideFoldDistinct (lower : String → String) :
    (tree : GitTree) → Decidable (tree.FoldDistinct lower)
  | .empty => .isTrue trivial
  | .entry name e rest =>
      haveI := GitEntry.decideFoldDistinct lower e
      haveI := GitTree.decideFoldDistinct lower rest
      inferInstanceAs (Decidable ((∀ n ∈ rest.names, lower name.text ≠ lower n) ∧
        e.FoldDistinct lower ∧ rest.FoldDistinct lower))

def GitEntry.decideFoldDistinct (lower : String → String) :
    (e : GitEntry) → Decidable (e.FoldDistinct lower)
  | .dir _ tree => GitTree.decideFoldDistinct lower tree
  | .blob _ _ _ => .isTrue trivial

end

instance (lower : String → String) (tree : GitTree) : Decidable (tree.FoldDistinct lower) :=
  tree.decideFoldDistinct lower

mutual

theorem buildTreeInto_foldDistinct {lower : String → String} {nowNs : ℕ} : (tree : GitTree) →
    ∀ (cx : RepoCx Id) node built cx', buildTreeInto nowNs cx node tree = .ok (built, cx') →
      tree.FoldDistinct lower → node.FoldDistinct lower →
      (∀ m ∈ node.names, ∀ n ∈ tree.names, lower m ≠ lower n) → built.FoldDistinct lower
  | .empty => by
      intro cx node built cx' h _ hnode _
      simp only [buildTreeInto, Except.ok.injEq, Prod.mk.injEq] at h
      rw [← h.1]
      exact hnode
  | .entry name e rest => by
      intro cx node built cx' h htree hnode hapart
      rw [buildTreeInto, Lib.bind_eq_ok] at h
      obtain ⟨⟨entry, mid⟩, hentry, h⟩ := h
      have hfirst := buildTreeEntry_foldDistinct e _ _ _ hentry htree.2.1
      have hinserted := MemNode.insert_foldDistinct hfirst node hnode fun n hn heq =>
        hapart n hn _ List.mem_cons_self heq.symm
      refine buildTreeInto_foldDistinct rest _ _ _ _ h htree.2.2 hinserted fun m hm n hn => ?_
      rcases MemNode.mem_names_insert node hm with rfl | hm
      · exact htree.1 n hn
      · exact hapart m hm n (List.mem_cons_of_mem _ hn)

theorem buildTreeEntry_foldDistinct {lower : String → String} {nowNs : ℕ} : (e : GitEntry) →
    ∀ (cx : RepoCx Id) built cx', buildTreeEntry nowNs cx e = .ok (built, cx') →
      e.FoldDistinct lower → built.FoldDistinct lower
  | .dir _ tree => by
      intro cx built cx' h he
      rw [buildTreeEntry, Lib.bind_eq_ok] at h
      obtain ⟨⟨node, mid⟩, hnode, h⟩ := h
      simp only [pure, Except.pure, Except.ok.injEq, Prod.mk.injEq] at h
      rw [← h.1]
      exact buildTreeInto_foldDistinct tree _ _ _ _ hnode he trivial fun m hm =>
        absurd hm List.not_mem_nil
  | .blob mode oid content => by
      intro cx built cx' h _
      rw [buildTreeEntry] at h
      split_ifs at h with hmode
      rw [Lib.bind_eq_ok] at h
      obtain ⟨mid, -, h⟩ := h
      simp only [pure, Except.pure, Except.ok.injEq, Prod.mk.injEq] at h
      rw [← h.1]
      trivial

end

theorem Imported.treesFold {nowNs : ℕ} {cx cx' : RepoCx Id} {ps : List (PreparedCommit Id)}
    (h : Imported nowNs cx ps cx')
    (hapart : ∀ p ∈ ps, p.gitTree.FoldDistinct (Platform.lower Id)) (hfold : TreesFold cx.trees) :
    TreesFold cx'.trees := by
  induction h with
  | nil => exact hfold
  | cons hcommit _ ih =>
      obtain ⟨c⟩ := hcommit
      refine ih (fun p hp => hapart p (List.mem_cons_of_mem _ hp)) ?_
      have hnode := buildTreeInto_foldDistinct _ _ _ _ _ c.build_ok (hapart _ List.mem_cons_self)
        trivial fun m hm => absurd hm List.not_mem_nil
      obtain ⟨cas, cat, hstored⟩ := c.puts.frame
      obtain ⟨-, hcx⟩ := changesetInsertRows_some c.insert_ok
      rw [hcx, hstored]
      exact hfold.insert (collect_foldDistinct c.collect_ok hnode)

/-- The trees of the commits the run imports fold apart. -/
def ImportApart (cx : RepoCx Id) (git : GitRepo) (opts : ImportOptions) (head : GitOid) : Prop :=
  ∀ sc : Scanned cx git opts head, ∀ p ∈ sc.scan.importable,
    p.gitTree.FoldDistinct (Platform.lower Id)

theorem RunBackend.treesFold {nowNs : ℕ} {cx cx' : RepoCx Id} {git : GitRepo}
    {opts : ImportOptions} {head : GitOid} (h : RunBackend nowNs cx git opts head cx')
    (hapart : ImportApart cx git opts head) (hfold : TreesFold cx.trees) : TreesFold cx'.trees := by
  cases h with
  | untouched => exact hfold
  | commits sc k mid cx' himported hputs =>
      obtain ⟨cas, cat, rfl⟩ := hputs.frame
      exact himported.treesFold (fun p hp => hapart sc p (List.mem_of_mem_take hp)) hfold
  | grafted sc last main db himported hgraft => exact himported.treesFold (hapart sc) hfold

/-! ### Lands -/

/-- No two files of the tree clash. -/
def FilesApart (lower : String → String) (files : FileMap Id) : Prop :=
  ∀ p q, (files p).isSome → (files q).isSome → clash lower p.components q.components = false

omit [Platform Id] in
theorem MemNode.foldDistinct_of_files {lower : String → String} {node : MemNode Id}
    (hsorted : node.Sorted) (hfull : node.Full) (h : FilesApart lower (filesAt node)) :
    node.FoldDistinct lower := by
  have hfile : ∀ ds l, MemEntry.isLeaf (node.lookupIn ds l) = true →
      (filesAt node ⟨ds, l⟩).isSome := by
    intro ds l hleaf
    rw [filesAt_eq_lookup hsorted]
    show (MemEntry.toFile (node.lookupIn ds l)).isSome
    match hfound : node.lookupIn ds l with
    | none => rw [hfound] at hleaf; cases hleaf
    | some (.file _ _ _) => rfl
    | some (.dir .empty) =>
        have hdir : (MemEntry.dir (MemNode.empty : MemNode Id)).Full := lookupIn_full ds l _ hfull hfound
        exact absurd rfl hdir.1
    | some (.dir (.entry _ _ _)) => rw [hfound] at hleaf; cases hleaf
  refine foldDistinct_of_leaves node hsorted fun ds l es m hl hm => ?_
  exact h ⟨ds, l⟩ ⟨es, m⟩ (hfile ds l hl) (hfile es m hm)

theorem MergeFold.append {cx : RepoCx Id} {on : OnConflict} {tip mid result : FileMap Id}
    {before after : List Id} (h : MergeFold cx on tip before mid)
    (hafter : MergeFold cx on mid after result) : MergeFold cx on tip (before ++ after) result := by
  induction h with
  | nil => exact hafter
  | merged input hinput hmerge hadds _ ih => exact .merged input hinput hmerge hadds (ih hafter)
  | leftOut input hinput hmerge hnothing _ ih =>
      exact .leftOut input hinput hmerge hnothing (ih hafter)

/-- A merged tree holds its files and nothing else. -/
theorem NodeMerge.merged_full {cmd : LandCommand Id} {st : LandState Id} {node : Id}
    (m : NodeMerge cmd st node) : m.merged.node.Sorted ∧ m.merged.node.Full := by
  obtain ⟨rec, ⟨merge⟩, hmerged, -, -⟩ := landMerge_ok m.merge_ok
  rw [hmerged]
  exact ⟨(apply_leaves (show MemNode.Sorted .empty from trivial) merge.apply_ok).1,
    apply_full (show MemNode.Full .empty from trivial) merge.apply_ok⟩

/-- A round stores the trees of the tree it takes over. -/
theorem NodeStep.treesFold {cmd : LandCommand Id} {st st' : LandState Id} {node : Id}
    {o : NodeOutcome} (h : NodeStep cmd st node o st')
    (hapart : FilesApart (Platform.lower Id) (filesAt st'.tipTree)) (hfold : TreesFold st.cx.trees) :
    TreesFold st'.cx.trees := by
  cases h with
  | dropped => exact hfold
  | adopted m canonical hencode hgate hid stored hput =>
      obtain ⟨cas, cat, written, rfl⟩ := putBlobs_ok hput
      exact hfold
  | inserted m canonical hencode hgate hid stored st' hput hinsert =>
      obtain ⟨cas, cat, written, rfl⟩ := putBlobs_ok hput
      obtain ⟨rootTreeId, size, trees, cx, hcollect, hrow, rfl⟩ := landInsert_ok hinsert
      obtain ⟨-, rfl⟩ := changesetInsertRows_some hrow
      obtain ⟨hsorted, hfull⟩ := m.merged_full
      have hnode := MemNode.foldDistinct_of_files hsorted hfull hapart
      exact hfold.insert (collect_foldDistinct hcollect hnode)

/-- A run of the loop stores only trees that fold apart, where no fold of a part
of its chain has files that clash. -/
theorem LandTrace.treesFold {cmd : LandCommand Id} {st st' : LandState Id} {chain : List Id}
    {os : List NodeOutcome} (h : LandTrace cmd st chain os st') (hwf : TablesWf st.cx.db)
    (htrees : TreesWf st.cx.trees) (htip : TipStored st) {cx' : RepoCx Id}
    (hext : st'.cx.Extends cx')
    (hapart : ∀ nodes, nodes <+: chain → ∀ files,
      MergeFold cx' cmd.mode (filesAt st.tipTree) nodes files → FilesApart (Platform.lower Id) files)
    (hfold : TreesFold st.cx.trees) : TreesFold st'.cx.trees := by
  induction h with
  | nil => exact hfold
  | @cons st mid st' node nodes o os hnode hrest ih =>
      -- the round is the fold of a one-node chain
      have hround : MergeFold cx' cmd.mode (filesAt st.tipTree) [node] (filesAt mid.tipTree) := by
        have hone : LandTrace cmd st [node] [o] mid := .cons hnode (.nil _)
        exact (hone.fold hwf htrees htip (hrest.extends.trans hext)).1
      have hmid : FilesApart (Platform.lower Id) (filesAt mid.tipTree) := by
        refine hapart [node] ?_ _ hround
        exact ⟨nodes, rfl⟩
      refine ih (hnode.tablesWf hwf) (hnode.treesGrow.wf htrees) (hnode.tipStored htrees htip) hext
        (fun below hbelow files hfiles => ?_) (hnode.treesFold hmid hfold)
      refine hapart (node :: below) ?_ files (hround.append hfiles)
      exact List.prefix_cons_inj node |>.mpr hbelow

/-- Along the chain of the head, no fold of the merge has two files that
clash. -/
def LandApart (cx : RepoCx Id) (cmd : LandCommand Id) : Prop :=
  ∀ oldMain mainRow tip chain, (refGet cx.db "main").bind (fun row => row.target) = some oldMain →
    changesetGet cx.db oldMain = some mainRow → loadTree cx mainRow.rootTreeId = .ok tip →
    HeadChain cx.db oldMain cmd.head chain →
    ∀ cx', cx.Extends cx' → CasNamed cx'.cas → ∀ nodes, nodes <+: chain.reverse →
      ∀ files, MergeFold cx' cmd.mode (filesAt tip) nodes files →
        FilesApart (Platform.lower Id) files

/-- The land of one node on top of `main` brings together the paths of that
node's tree. -/
theorem landApart_one {cx : RepoCx Id} {cmd : LandCommand Id} {main : Id}
    {mainRow : ChangesetRow Id} {tip : MemNode Id} {input : NodeInput Id}
    (hmain : (refGet cx.db "main").bind (fun row => row.target) = some main)
    (hrow : changesetGet cx.db main = some mainRow)
    (htip : loadTree cx mainRow.rootTreeId = .ok tip) (hinput : landInput cx cmd.head = .ok input)
    (hparent : input.row.parents.head? = some main)
    (hsame : filesAt input.parentTree = filesAt tip)
    (hapart : FilesApart (Platform.lower Id) (filesAt tip))
    (hlanded : FilesApart (Platform.lower Id) (filesAt input.tree)) : LandApart cx cmd := by
  intro oldMain mainRow' tip' chain hmain' hrow' htip' hchain cx' hext _ nodes hnodes files hfold
  obtain rfl := Option.some.inj (hmain.symm.trans hmain')
  obtain rfl := Option.some.inj (hrow.symm.trans hrow')
  obtain rfl := Except.ok.inj (htip.symm.trans htip')
  have hchain' : chain.reverse = [] ∨ chain.reverse = [cmd.head] := by
    cases hchain with
    | stop => exact .inl rfl
    | @node _ parent rest hout hfirst hrest =>
        obtain ⟨row, hget, hhead⟩ := hfirst
        obtain rfl := Option.some.inj ((landInput_ok hinput).1.symm.trans hget)
        obtain rfl := Option.some.inj (hparent.symm.trans hhead)
        cases hrest with
        | stop => exact .inr rfl
        | node hout' => exact absurd .refl hout'
  have hnodes' : nodes = [] ∨ nodes = [cmd.head] := by
    rcases hchain' with hnil | hone
    · rw [hnil] at hnodes
      exact .inl (List.prefix_nil.mp hnodes)
    · rw [hone, List.prefix_cons_iff] at hnodes
      refine hnodes.imp_right ?_
      rintro ⟨rest, rfl, hrest⟩
      rw [List.prefix_nil.mp hrest]
  rcases hnodes' with rfl | rfl
  · cases hfold with
    | nil => exact hapart
  · cases hfold with
    | merged input' hinput' hmerge hadds hrest =>
        obtain rfl := Except.ok.inj ((hext.landInput hinput).symm.trans hinput')
        rw [hsame] at hmerge
        cases hrest
        rw [hmerge.unique (ThreeWay.theirs _ _ _ _)]
        exact hlanded
    | leftOut input' hinput' hmerge hnothing hrest =>
        cases hrest
        exact hapart

theorem LandSuccess.treesFold {cx cx' : RepoCx Id} {cmd : LandCommand Id} {done : LandDone Id}
    (h : LandSuccess cx cmd done cx') (hwf : TablesWf cx.db) (htrees : TreesWf cx.trees)
    (hnamed : CasNamed cx.cas) (hapart : LandApart cx cmd) (hfold : TreesFold cx.trees) :
    TreesFold cx'.trees := by
  have hgrows := h.casGrows
  cases h with
  | replay => exact hfold
  | contained => exact hfold
  | rebased f hout b =>
      have hstart : TablesWf b.start.cx.db := show TablesWf f.pending.db from hwf.of_eq rfl rfl
      obtain ⟨os, hos⟩ := landTrace_exists b.loop
      have hmain : (refGet cx.db "main").bind (fun row => row.target) = some f.oldMain := by
        rw [f.main_ref, Option.bind_some, f.main_target]
      have hin : inMain f.pending.db f.oldMain = some f.contained := f.contained_ok
      have hchain : HeadChain cx.db f.oldMain cmd.head b.newestFirst :=
        (chainWalk_ok hin b.chain_ok).of_eq (show cx.db.changesets = f.pending.db.changesets from rfl)
      have hext : cx.Extends b.final.cx := by
        have hpending : cx.Extends f.pending := ⟨.of_eq rfl, .refl _, fun _ _ h => h⟩
        exact hpending.trans hos.extends
      have hkept : TreesFold b.final.cx.trees := by
        refine hos.treesFold hstart htrees ⟨b.mainRow, b.main_ok, b.tree_ok⟩ (.refl _) ?_ hfold
        exact hapart f.oldMain b.mainRow b.tipTree b.newestFirst hmain b.main_ok b.tree_ok hchain
          b.final.cx hext (hgrows.named hnamed)
      exact hkept

/-! ### Snapshots -/

theorem snapshotPrepare_treesFold {req : SnapshotRequest Id} {p : PreparedSnapshot Id}
    (h : snapshotPrepare req = .ok p) : TreesFold p.trees := by
  obtain ⟨hdecode, -⟩ := snapshotPrepare_ok h
  obtain ⟨rows, hrows, hvalid⟩ := decodeTrees_ok hdecode
  rw [hrows]
  have hnil : TreesFold ([] : List (TreeRow Id)) := fun _ hrow => absurd hrow List.not_mem_nil
  exact hnil.insert fun row hrow => Tree.validate_ok (hvalid row hrow).2

/-! ### The system -/

namespace Server

/-- What a create, a land or an import brings together is apart. -/
def FoldsApart (s : Server Id) : Event Id → Prop
  | .createWrite i => ∀ r p, s.creates[i]? = some (r, p) → CreateApart (s.cx r) p
  | .land r cmd => LandApart (s.cx r) cmd
  | .importGit r git opts head _ => ImportApart (s.cx r) git opts head
  | _ => True

theorem treesFold_put {s : Server Id} {r : RepoId} {cx : RepoCx Id} (hcx : TreesFold cx.trees)
    (hfold : ∀ f, TreesFold (s.trees f)) (f : RepoId) : TreesFold ((s.put r cx).trees f) := by
  rw [trees_put]
  split_ifs with hf
  · exact hcx
  · exact hfold f

/-- One step keeps the siblings apart. -/
theorem step_treesFold {s s' : Server Id} {e : Event Id} (h : s.step e = some s')
    (hapart : FoldsApart s e) (hwf : ∀ r, TablesWf (s.dbs r)) (htrees : ∀ f, TreesWf (s.trees f))
    (hnamed : CasNamed s.cas) (hfold : ∀ f, TreesFold (s.trees f)) (f : RepoId) :
    TreesFold (s'.trees f) := by
  have hcx : ∀ r, TreesFold (s.cx r).trees := fun r => hfold (s.file r)
  cases step_cases h with
  | createWrite i r p cx hpending hpersist =>
      obtain ⟨w⟩ := hpersist
      have hwritten := w.treesFold (hapart r p hpending) (htrees _) (hcx r)
      exact treesFold_put (s := { s with creates := s.creates.eraseIdx i }) hwritten hfold f
  | land r cmd done cx hland =>
      exact treesFold_put (hland.treesFold (hwf r) (htrees _) hnamed hapart (hcx r)) hfold f
  | landAborted r cmd cas cat => exact treesFold_put (hcx r) hfold f
  | importGit r git opts head stop cx hquiescent hrun =>
      exact treesFold_put (hrun.treesFold hapart (hcx r)) hfold f
  | casRef r req done db => exact treesFold_put (hcx r) hfold f
  | putBytes r bytes cas => exact treesFold_put (hcx r) hfold f
  | recorded r bytes => exact treesFold_put (hcx r) hfold f
  | recordTombstoned r bytes => exact treesFold_put (hcx r) hfold f
  | mark r id kind => exact treesFold_put (hcx r) hfold f
  | snapshotPost r req p done cx hprepare hwritten =>
      refine treesFold_put ?_ hfold f
      cases hwritten with
      | existing => exact hcx r
      | created => exact (hcx r).insert (snapshotPrepare_treesFold hprepare)
  | sgcStep i pass => exact fun row hrow => hfold f row ((sgcPassStep_trees s pass f).subset hrow)
  | gcStep pass => exact fun row hrow => hfold f row ((gcPassStep_trees s pass f).subset hrow)
  | _ => exact hfold f

/-- The siblings of every stored tree fold apart, and a create or a land that is
refused stores nothing. -/
structure FoldHeld (s : Server Id) : Prop where
  trees : ∀ f, ∀ row ∈ s.trees f, row.FoldDistinct
  create_refused : ∀ i r p e, s.creates[i]? = some (r, p) → persist (s.cx r) p = .error e →
    s.step (.createWrite i) = some { s with creates := s.creates.eraseIdx i }
  land_refused : ∀ r cmd e cx, execute (s.cx r) cmd = (.error e, cx) →
    cx.db = s.dbs r ∧ cx.trees = (s.cx r).trees

/-- The invariant holds in every run whose creates, lands and imports bring
together only paths that are apart. -/
theorem foldHeld_of_reach {s : Server Id} (h : Reach FoldsApart s) : FoldHeld s := by
  refine ⟨fun f => ?_, fun i r p e hpending hpersist => ?_, fun r cmd e cx hland => ?_⟩
  · suffices hall : ∀ f, TreesFold (s.trees f) from hall f
    refine Lib.Reach.invariant (I := fun s => ∀ f, TreesFold (s.trees f)) ?_ ?_ h
    · rintro s ⟨layout, repos, nowNs, graceNs, -, rfl⟩ f row hrow
      cases hrow
    · intro s e s' hs hfold hok he
      exact step_treesFold he hok (tablesWf_of_reach hs) (treesWf_of_reach hs) (casNamed_of_reach hs)
        hfold
  · have hrefused : persist (Server.cx { s with creates := s.creates.eraseIdx i } r) p = .error e :=
      hpersist
    simp [step, serve, Event.known, createWriteStep, hpending, hrefused]
  · rcases execute_cases (s.cx r) cmd with ⟨done, hdone, -⟩ | ⟨e', cas, cat, -, -, hcx⟩
    · rw [hland] at hdone
      cases hdone
    · rw [hland] at hcx
      simp only at hcx
      rw [hcx]
      exact ⟨rfl, rfl⟩

end Server

end

/-! ### Two siblings that fold alike -/

namespace Server.FoldTwins

def start : Server PlainId := boot .singleDb [(1, "r")] 100 10

/-- A create that adds one file, looked up and written. -/
def adding (parents : List PlainId) (name : String) : List (Event PlainId) :=
  [.createLookup 1
      { repoName := "r"
        principal := "ann"
        scope := none
        parents := parents
        author := "ann"
        message := "add"
        timestampNs := some 7
        changes := [⟨⟨[], name⟩, .add, some (Platform.blobId [98, 10]), some 2, some false⟩] },
    .createWrite 0]

/-- A first changeset with the file `a`. -/
def first : List (Event PlainId) := [.putBytes 1 [98, 10], .record 1 [98, 10]] ++ adding [] "a"

def base : PlainId :=
  ((Lib.exec step start first).bind fun s =>
    (s.dbs 1).changesets.head?.map (fun row => row.id)).getD []

/-- No two files of the tree clash. -/
def apart (node : MemNode PlainId) : Bool :=
  (flattenFiles node).all fun f => (flattenFiles node).all fun g =>
    !clash (Platform.lower PlainId) f.1.components g.1.components

theorem filesApart_of_apart {node : MemNode PlainId} (h : apart node = true) :
    FilesApart (Platform.lower PlainId) (filesAt node) := by
  intro p q hp hq
  obtain ⟨f, hf⟩ := Option.isSome_iff_exists.mp hp
  obtain ⟨g, hg⟩ := Option.isSome_iff_exists.mp hq
  have hall := List.all_eq_true.mp h _ (Lib.mem_of_lookup hf)
  simpa using List.all_eq_true.mp hall _ (Lib.mem_of_lookup hg)

/-- The head is one node on top of `main`, and its files are apart. -/
def landChecked (cx : RepoCx PlainId) (cmd : LandCommand PlainId) : Bool :=
  ((refGet cx.db "main").bind fun row => row.target).any fun main =>
    (changesetGet cx.db main).any fun mainRow =>
      match loadTree cx mainRow.rootTreeId, landInput cx cmd.head with
      | .ok tip, .ok input =>
          decide (input.row.parents.head? = some main) &&
            decide (flattenFiles input.parentTree = flattenFiles tip) && apart tip &&
              apart input.tree
      | _, _ => false

theorem landApart_of_checked {cx : RepoCx PlainId} {cmd : LandCommand PlainId}
    (h : landChecked cx cmd = true) : LandApart cx cmd := by
  obtain ⟨main, hmain, h⟩ := (Option.any_eq_true _ _).mp h
  obtain ⟨mainRow, hrow, h⟩ := (Option.any_eq_true _ _).mp h
  split at h
  next tip input htip hinput =>
    simp only [Bool.and_eq_true, decide_eq_true_eq] at h
    obtain ⟨⟨⟨hparent, hsame⟩, hapart⟩, hlanded⟩ := h
    refine landApart_one hmain hrow htip hinput hparent ?_ (filesApart_of_apart hapart)
      (filesApart_of_apart hlanded)
    exact funext fun p => by rw [filesAt, filesAt, hsame]
  next => cases h

/-- The trees of the commits fold apart. -/
def importChecked (cx : RepoCx PlainId) (git : GitRepo) (opts : ImportOptions) (head : GitOid) :
    Bool :=
  (collectAncestors git (fun oid => (cx.db.gitMap.lookup oid).isSome) head).all fun batch =>
    match batch.foldlM (scanCommit git opts cx.id cx.db) .start with
    | .error _ => true
    | .ok st => st.importable.all fun p =>
        decide (p.gitTree.FoldDistinct (Platform.lower PlainId))

theorem importApart_of_checked {cx : RepoCx PlainId} {git : GitRepo} {opts : ImportOptions}
    {head : GitOid} (h : importChecked cx git opts head = true) : ImportApart cx git opts head := by
  intro sc p hp
  rw [importChecked, sc.batch_ok, Option.all_some] at h
  simp only [sc.scan_ok] at h
  exact of_decide_eq_true (List.all_eq_true.mp h p hp)

/-- Steps whose paths are apart. -/
def checked (s : Server PlainId) : Event PlainId → Bool
  | .createWrite i =>
      match s.creates[i]? with
      | none => true
      | some (r, p) =>
          match MemNode.load (s.cx r).trees p.parentRoot with
          | .error _ => true
          | .ok parent =>
              decide (PathsApart (Platform.lower PlainId)
                (changedLeaves parent p.canonical.cs.changes))
  | .land r cmd => landChecked (s.cx r) cmd
  | .importGit r git opts head _ => importChecked (s.cx r) git opts head
  | _ => true

theorem foldsApart_of_checked {s : Server PlainId} {e : Event PlainId} (h : checked s e = true) :
    FoldsApart s e := by
  unfold checked at h
  split at h
  next i =>
    intro r p hpending parent hparent
    rw [hpending] at h
    simp only at h
    rw [hparent] at h
    exact of_decide_eq_true h
  next r cmd => exact landApart_of_checked h
  next r git opts head stop => exact importApart_of_checked h
  next hcreate hland himport =>
    cases e with
    | createWrite i => exact absurd rfl (hcreate i)
    | land r cmd => exact absurd rfl (hland r cmd)
    | importGit r git opts head stop => exact absurd rfl (himport r git opts head stop)
    | _ => trivial

/-- An imported commit with a file `a` and a directory `d`, and an upload. -/
def imported : List (Event PlainId) :=
  [.importGit 1 [⟨1, [], "ann", "first", 5,
      .entry "a" (.blob .regular 11 [97, 10])
        (.entry "d" (.dir 21 (.entry "a" (.blob .regular 11 [97, 10]) .empty)) .empty)⟩]
      ⟨false, false⟩ 1 1, .putBytes 1 [98, 10], .record 1 [98, 10]]

/-- The changeset a run inserted last. -/
def lastOf (events : List (Event PlainId)) : PlainId :=
  ((Lib.exec step start events).bind fun s =>
    (s.dbs 1).changesets.getLast?.map (fun row => row.id)).getD []

/-- A file `b` beside `a`, landed, and a file `c` on top of it. -/
def siblings : List (Event PlainId) :=
  let sibling := imported ++ adding [lastOf imported] "b"
  sibling ++ [.land 1 ⟨"r", "ann", none, lastOf sibling, "k", none, false, 0⟩] ++
    adding [lastOf sibling] "c"

end Server.FoldTwins

namespace Server

open FoldTwins in
/-- An import, two creates and a land, through the checks. -/
theorem foldHeld_of_reach_sibling : ∃ s,
    Lib.execIf step (fun s e => checked s e = true) start siblings = some s ∧
      (s.dbs 1).changesets.length = 3 ∧ (landGet (s.dbs 1) "ann" "k").isSome ∧ FoldHeld s := by
  have hrun : (Lib.execIf step (fun s e => checked s e = true) start siblings).any (fun s =>
      decide ((s.dbs 1).changesets.length = 3) && (landGet (s.dbs 1) "ann" "k").isSome) = true := by
    decide +kernel
  obtain ⟨s, hs, hholds⟩ := (Option.any_eq_true _ _).mp hrun
  obtain ⟨hlength, hlanded⟩ := Bool.and_eq_true_iff.mp hholds
  have hstart : Init start := ⟨.singleDb, [(1, "r")], 100, 10, by decide, rfl⟩
  have hreach : Reach (fun s e => checked s e = true) s := Lib.Reach.execIf (.start hstart) hs
  have hapart : Reach FoldsApart s := Lib.Reach.mono (fun _ _ => foldsApart_of_checked) hreach
  exact ⟨s, hs, of_decide_eq_true hlength, hlanded, foldHeld_of_reach hapart⟩

open FoldTwins in
/-- A create of `A` over a tree with a file `a` is accepted. -/
theorem fold_twins : ∃ s : Server PlainId, Reach (fun _ _ => True) s ∧ ¬ FoldHeld s := by
  have hrun : (Lib.exec step start (first ++ adding [base] "A")).any (fun s =>
      (s.trees (s.file 1)).any (fun row => decide (¬ row.FoldDistinct))) = true := by
    decide +kernel
  obtain ⟨s, hs, htwins⟩ := (Option.any_eq_true _ _).mp hrun
  have hstart : Init start := ⟨.singleDb, [(1, "r")], 100, 10, by decide, rfl⟩
  obtain ⟨row, hrow, hfold⟩ := List.any_eq_true.mp htwins
  refine ⟨s, Lib.Reach.exec (.start hstart) (by simp) hs, fun hheld => ?_⟩
  exact of_decide_eq_true hfold (hheld.trees _ row hrow)

end Server

end Naatre
