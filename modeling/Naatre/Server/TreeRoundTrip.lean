import Naatre.Core.Plain
import Naatre.Server.DerivedTrees

/-!
Derived trees and the store: a tree that is collected loads back as itself, its
rows stand behind the rows of their sub-directories, and the trees of the
changesets have no empty directory unless an imported git tree had one.
-/

namespace Naatre

section

variable {Id : Type} [Platform Id]

/-! ### The order of the rows -/

/-- Every row stands behind the rows of its sub-directories. -/
def ChildrenFirst (rows : List (TreeRow Id)) : Prop :=
  Lib.EachBehind (fun before row => ∀ d ∈ row.dirs, d ∈ before.map (fun row => row.id)) rows

omit [Platform Id] in
theorem ChildrenFirst.join {a b : List (TreeRow Id)} (ha : ChildrenFirst a)
    (hb : ChildrenFirst b) : ChildrenFirst (a ++ b) :=
  Lib.EachBehind.join ha (hb.mono fun before row hrow d hd => by
    rw [List.map_append]
    exact List.mem_append_right _ (hrow d hd))

theorem ChildrenFirst.directory {blobs : List Id} {rows : List (TreeRow Id)}
    {entries : List (TreeEntry Id)} {row : TreeRow Id} (h : ChildrenFirst rows)
    (hentries : EntriesOf blobs rows entries) (hrow : treeRowOf entries = .ok row) :
    ChildrenFirst (rows ++ [row]) := by
  obtain ⟨-, hcanonical, -⟩ := treeRowOf_ok hrow
  refine Lib.EachBehind.append h fun d hd => ?_
  rw [TreeRow.mem_dirs, hcanonical] at hd
  obtain ⟨written, hwritten, hkind, rfl⟩ := hd
  obtain ⟨e, he, rfl⟩ := List.mem_map.mp hwritten
  exact hentries.dirs e he hkind

mutual

theorem collectEntries_childrenFirst : (node : MemNode Id) →
    ∀ entries size rows, node.collectEntries = .ok (entries, size, rows) → ChildrenFirst rows
  | .empty => by
      intro entries size rows h
      simp only [MemNode.collectEntries, Except.ok.injEq, Prod.mk.injEq] at h
      obtain ⟨-, -, rfl⟩ := h
      exact .nil
  | .entry name e rest => by
      intro entries size rows h
      rw [MemNode.collectEntries, Lib.bind_eq_ok] at h
      obtain ⟨⟨first, firstSize, firstRows⟩, hfirst, h⟩ := h
      rw [Lib.bind_eq_ok] at h
      obtain ⟨⟨others, total, otherRows⟩, hothers, h⟩ := h
      simp only [pure, Except.pure, Except.ok.injEq, Prod.mk.injEq] at h
      obtain ⟨-, -, rfl⟩ := h
      exact (collectEntry_childrenFirst e _ _ _ _ hfirst).join
        (collectEntries_childrenFirst rest _ _ _ hothers)

theorem collectEntry_childrenFirst : (e : MemEntry Id) →
    ∀ name entry size rows, e.collectEntry name = .ok (entry, size, rows) → ChildrenFirst rows
  | .file blob fileSize exec => by
      intro name entry size rows h
      simp only [MemEntry.collectEntry, Except.ok.injEq, Prod.mk.injEq] at h
      obtain ⟨-, -, rfl⟩ := h
      exact .nil
  | .dir child => by
      intro name entry size rows h
      rw [MemEntry.collectEntry, Lib.bind_eq_ok] at h
      obtain ⟨⟨entries, total, childRows⟩, hchild, h⟩ := h
      rw [Lib.bind_eq_ok] at h
      obtain ⟨row, hrow, h⟩ := h
      simp only [pure, Except.pure, Except.ok.injEq, Prod.mk.injEq] at h
      obtain ⟨-, -, rfl⟩ := h
      exact (collectEntries_childrenFirst child _ _ _ hchild).directory
        (collectEntries_rows child _ _ _ hchild).2 hrow

end

theorem collect_childrenFirst {node : MemNode Id} {root : Id} {size : ℕ} {rows : List (TreeRow Id)}
    (h : node.collect = .ok (root, size, rows)) : ChildrenFirst rows := by
  rw [MemNode.collect, Lib.bind_eq_ok] at h
  obtain ⟨⟨entries, total, below⟩, hentries, h⟩ := h
  rw [Lib.bind_eq_ok] at h
  obtain ⟨row, hrow, h⟩ := h
  simp only [pure, Except.pure, Except.ok.injEq, Prod.mk.injEq] at h
  obtain ⟨-, -, rfl⟩ := h
  exact (collectEntries_childrenFirst node _ _ _ hentries).directory
    (collectEntries_rows node _ _ _ hentries).2 hrow

/-! ### Full trees -/

mutual

/-- No subtree is empty. -/
def GitTree.Full : GitTree → Prop
  | .empty => True
  | .entry _ e rest => e.Full ∧ rest.Full

def GitEntry.Full : GitEntry → Prop
  | .blob _ _ _ => True
  | .dir _ tree => tree ≠ .empty ∧ tree.Full

end

mutual

theorem buildTreeInto_full {nowNs : ℕ} : (tree : GitTree) → tree.Full →
    ∀ (cx : RepoCx Id) node built cx', buildTreeInto nowNs cx node tree = .ok (built, cx') →
      node.Full → built.Full ∧ (tree ≠ .empty ∨ node ≠ .empty → built ≠ .empty)
  | .empty => by
      intro _ cx node built cx' h hnode
      simp only [buildTreeInto, Except.ok.injEq, Prod.mk.injEq] at h
      rw [← h.1]
      exact ⟨hnode, fun hne => hne.resolve_left (by simp)⟩
  | .entry name e rest => by
      intro htree cx node built cx' h hnode
      rw [buildTreeInto, Lib.bind_eq_ok] at h
      obtain ⟨⟨entry, mid⟩, hentry, h⟩ := h
      have hfirst := buildTreeEntry_full e htree.1 _ _ _ hentry
      obtain ⟨hbuilt, hsome⟩ := buildTreeInto_full rest htree.2 _ _ _ _ h
        (MemNode.insert_full node name.text entry hnode hfirst)
      exact ⟨hbuilt, fun _ => hsome (.inr (MemNode.insert_ne_empty _ _ _))⟩

theorem buildTreeEntry_full {nowNs : ℕ} : (e : GitEntry) → e.Full →
    ∀ (cx : RepoCx Id) built cx', buildTreeEntry nowNs cx e = .ok (built, cx') → built.Full
  | .dir _ tree => by
      intro he cx built cx' h
      rw [buildTreeEntry, Lib.bind_eq_ok] at h
      obtain ⟨⟨node, mid⟩, hnode, h⟩ := h
      simp only [pure, Except.pure, Except.ok.injEq, Prod.mk.injEq] at h
      rw [← h.1]
      obtain ⟨hfull, hsome⟩ := buildTreeInto_full tree he.2 _ _ _ _ hnode trivial
      exact ⟨hsome (.inl he.1), hfull⟩
  | .blob mode oid content => by
      intro _ cx built cx' h
      rw [buildTreeEntry] at h
      split_ifs at h with hmode
      rw [Lib.bind_eq_ok] at h
      obtain ⟨mid, -, h⟩ := h
      simp only [pure, Except.pure, Except.ok.injEq, Prod.mk.injEq] at h
      rw [← h.1]
      exact trivial

end

/-- Every writer keeps a tree free of empty directories, where none is imported. -/
theorem fullProperty :
    TreeProperty (@MemNode.Full Id) (fun _ => True) GitTree.Full where
  empty := trivial
  apply := fun hfull _ happly => apply_full hfull happly
  build := fun htree hbuild => (buildTreeInto_full _ htree _ _ _ _ hbuild trivial).1
  merge := fun m _ _ _ => m.merged_full.2

/-! ### Trees derived and collected -/

/-- A tree that changes made of a stored one. -/
def DerivedFrom (trees : List (TreeRow Id)) (root : Option Id) (node : MemNode Id) : Prop :=
  ∃ parent changes, MemNode.load trees root = .ok parent ∧ parent.apply changes = .ok node

theorem DerivedFrom.sorted {trees : List (TreeRow Id)} {root : Option Id} {node : MemNode Id}
    (h : DerivedFrom trees root node) (hwf : TreesWf trees) : node.Sorted := by
  obtain ⟨parent, changes, hload, happly⟩ := h
  exact (apply_leaves (load_sorted hwf hload) happly).1

/-- What a collect stored: the tree it was made of, and rows in order. -/
structure CollectedAs (trees : List (TreeRow Id)) (node : MemNode Id) (root : Id)
    (rows : List (TreeRow Id)) : Prop where
  loads : MemNode.load (treesInsert trees rows) (some root) = .ok node
  childrenFirst : ChildrenFirst rows
  hashed : ∀ row ∈ rows, row.id = Platform.treeId row.canonical
  rootLast : rows.getLast?.map (fun row => row.id) = some root

theorem collect_collectedAs {trees : List (TreeRow Id)} (hwf : TreesWf trees) {node : MemNode Id}
    {root : Id} {size : ℕ} {rows : List (TreeRow Id)}
    (h : node.collect = .ok (root, size, rows)) : CollectedAs trees node root rows where
  loads := load_collect h hwf
  childrenFirst := collect_childrenFirst h
  hashed := fun row hrow => ((collect_rows h).1.wf row hrow).named
  rootLast := by
    rw [MemNode.collect, Lib.bind_eq_ok] at h
    obtain ⟨⟨entries, total, below⟩, -, h⟩ := h
    rw [Lib.bind_eq_ok] at h
    obtain ⟨row, -, h⟩ := h
    simp only [pure, Except.pure, Except.ok.injEq, Prod.mk.injEq] at h
    obtain ⟨rfl, -, rfl⟩ := h
    simp

/-! ### The system -/

namespace Server

/-- The git trees an import brings have no empty subtree. -/
def FullImports : Event Id → Prop
  | .importGit _ git _ _ _ => ∀ c ∈ git, c.tree.Full
  | _ => True

/-- A tree that changes made of a changeset's tree. -/
def Derived (s : Server Id) (r : RepoId) (node : MemNode Id) : Prop :=
  ∃ root, s.RootOf r root ∧ DerivedFrom (s.cx r).trees root node

omit [Platform Id] in
theorem FullImports.brings {e : Event Id} (h : FullImports e) :
    Brings (fun _ => True) GitTree.Full e := by
  cases e with
  | importGit r git opts head stop => exact h
  | _ => trivial

theorem Derived.full {s : Server Id} {r : RepoId} {node : MemNode Id} (h : s.Derived r node)
    (hinv : RootsInv MemNode.Full (fun _ => True) s) (hwf : ∀ f, TreesWf (s.trees f)) :
    node.Full := by
  obtain ⟨root, hroot, parent, changes, hload, happly⟩ := h
  exact apply_full (hroot.load fullProperty hinv hwf hload) happly

/-- A tree derived from any stored one is collected into rows that hash to their
ids, children first, and loads back as itself. Where no imported git tree had an
empty subtree, no tree derived from a changeset's has an empty directory, and
two of them with the same files are one. -/
theorem derived_roundTrip {ok : Server Id → Event Id → Prop} {s : Server Id} (h : Reach ok s) :
    (∀ f root node, DerivedFrom (s.trees f) root node → ∀ id size rows,
        node.collect = .ok (id, size, rows) → CollectedAs (s.trees f) node id rows) ∧
      ((∀ s e, ok s e → FullImports e) → ∀ r node, s.Derived r node → node.Full ∧
        ∀ r' node', s.Derived r' node' → filesAt node = filesAt node' → node = node') := by
  have hwf := treesWf_of_reach h
  refine ⟨fun f root node _ id size rows hcollect => collect_collectedAs (hwf f) hcollect,
    fun hok r node hnode => ?_⟩
  have hinv := rootsInv_of_reach fullProperty (fun s e he => (hok s e he).brings) h
  refine ⟨hnode.full hinv hwf, fun r' node' hnode' hfiles => ?_⟩
  have hsorted : ∀ {r node}, s.Derived r node → node.Sorted := by
    rintro r node ⟨root, -, hderived⟩
    exact hderived.sorted (hwf _)
  refine MemNode.eq_of_files node node' (hsorted hnode) (hnode.full hinv hwf) (hsorted hnode')
    (hnode'.full hinv hwf) fun ds leaf => ?_
  have hsame := congrFun hfiles ⟨ds, leaf⟩
  rwa [filesAt_eq_lookup (hsorted hnode), filesAt_eq_lookup (hsorted hnode')] at hsame

end Server

end

/-! ### An imported empty directory -/

namespace TreeRoundTrip

def start : Server PlainId := .boot .singleDb [(1, "r")] 100 10

def file : GitEntry := .blob .regular 11 [97, 10]

/-- A commit whose tree has an empty subtree, and one on top without it. -/
def history : GitRepo :=
  [⟨1, [], "ann", "first", 5, .entry "a" file (.entry "d" (.dir 20 .empty) .empty)⟩,
    ⟨2, [1], "ann", "second", 6, .entry "a" file .empty⟩]

def imported : List (Event PlainId) := [.importGit 1 history ⟨false, false⟩ 2 9]

/-- The second commit alone. -/
def fullImported : List (Event PlainId) :=
  [.importGit 1 [⟨2, [], "ann", "second", 6, .entry "a" file .empty⟩] ⟨false, false⟩ 2 9]

/-- A file in a directory on top of it. -/
def edited : List (Event PlainId) :=
  fullImported ++ [.putBytes 1 [98, 10], .record 1 [98, 10],
    .createLookup 1
      { repoName := "r"
        principal := "ann"
        scope := none
        parents := ((Lib.exec Server.step start fullImported).map fun s =>
          (s.dbs 1).changesets.map fun row => row.id).getD []
        author := "ann"
        message := "add"
        timestampNs := some 7
        changes := [⟨⟨["d"], "b"⟩, .add, some (Platform.blobId [98, 10]), some 2, some false⟩] },
    .createWrite 0]

/-- The tree of a state's changesets, by their order. -/
def treeOf (s : Server PlainId) (n : ℕ) : Option (MemNode PlainId) :=
  (s.dbs 1).changesets[n]?.bind fun row =>
    (MemNode.load (s.cx 1).trees (some row.rootTreeId)).toOption

theorem load_of_treeOf {s : Server PlainId} {n : ℕ} {node : MemNode PlainId}
    (h : treeOf s n = some node) :
    ∃ root, s.RootOf 1 root ∧ MemNode.load (s.cx 1).trees root = .ok node := by
  obtain ⟨row, hrow, hload⟩ := Option.bind_eq_some_iff.mp h
  refine ⟨some row.rootTreeId, fun id hid => ⟨row, List.mem_of_getElem? hrow, ?_⟩, ?_⟩
  · exact Option.some.inj hid
  · cases hresult : MemNode.load (s.cx 1).trees (some row.rootTreeId) with
    | error e => simp [hresult, Except.toOption] at hload
    | ok found =>
        rw [hresult, Except.toOption, Option.some.injEq] at hload
        rw [hload]

theorem derived_of_treeOf {s : Server PlainId} {n : ℕ} {node : MemNode PlainId}
    (h : treeOf s n = some node) : s.Derived 1 node := by
  obtain ⟨root, hroot, hload⟩ := load_of_treeOf h
  exact ⟨root, hroot, node, [], hload, rfl⟩

end TreeRoundTrip

namespace Server

open TreeRoundTrip in
/-- The tree on top of an imported commit is full, and collected into a row for
the directory and one for the root. -/
theorem derived_roundTrip_imported : ∃ s node id size rows, Lib.exec step start edited = some s ∧
    treeOf s 1 = some node ∧ node.Full ∧ node.collect = .ok (id, size, rows) ∧
      rows.length = 2 ∧ CollectedAs (s.trees (s.file 1)) node id rows := by
  have hrun : (Lib.exec step start edited).any (fun s => (treeOf s 1).any fun node =>
      node.collect.toOption.any fun c => decide (c.2.2.length = 2)) = true := by
    decide +kernel
  obtain ⟨s, hs, hsome⟩ := (Option.any_eq_true _ _).mp hrun
  obtain ⟨node, hnode, hsome⟩ := (Option.any_eq_true _ _).mp hsome
  obtain ⟨⟨id, size, rows⟩, hcollect, hlength⟩ := (Option.any_eq_true _ _).mp hsome
  have hok : node.collect = .ok (id, size, rows) := by
    cases hresult : node.collect with
    | error e => rw [hresult] at hcollect; cases hcollect
    | ok c => rw [hresult] at hcollect; exact congrArg Except.ok (Option.some.inj hcollect)
  have hstart : Init start := ⟨.singleDb, [(1, "r")], 100, 10, by decide, rfl⟩
  have hreach : Reach (fun _ e => FullImports e) s := by
    refine Lib.Reach.exec (.start hstart) (fun _ e he => ?_) hs
    simp only [edited, fullImported, List.cons_append, List.nil_append, List.mem_cons,
      List.not_mem_nil, or_false] at he
    rcases he with rfl | rfl | rfl | rfl | rfl
    · intro c hc
      rw [List.mem_singleton.mp hc]
      exact ⟨trivial, trivial⟩
    all_goals trivial
  obtain ⟨hcollects, hfull⟩ := derived_roundTrip hreach
  obtain ⟨root, hroot, hderived⟩ := derived_of_treeOf hnode
  exact ⟨s, node, id, size, rows, hs, hnode,
    (hfull (fun _ _ he => he) 1 node ⟨root, hroot, hderived⟩).1, hok, of_decide_eq_true hlength,
    hcollects (s.file 1) root node hderived id size rows hok⟩

open TreeRoundTrip in
/-- An imported commit leaves an empty directory in its tree, and two trees of
the same files. -/
theorem empty_directory_imported : ∃ s a b, Lib.exec step start imported = some s ∧
    s.Derived 1 a ∧ s.Derived 1 b ∧ ¬ a.Full ∧ flattenFiles a = flattenFiles b ∧ a ≠ b := by
  have hrun : (Lib.exec step start imported).any (fun s =>
      (treeOf s 0).any (fun a => (treeOf s 1).any fun b =>
        decide (flattenFiles a = flattenFiles b) && (a.get "d").any (fun e =>
          match e with
          | .dir child => child.isEmpty
          | .file _ _ _ => false) && (b.get "d").isNone)) = true := by
    decide +kernel
  obtain ⟨s, hs, hsome⟩ := (Option.any_eq_true _ _).mp hrun
  obtain ⟨a, ha, hsome⟩ := (Option.any_eq_true _ _).mp hsome
  obtain ⟨b, hb, hsome⟩ := (Option.any_eq_true _ _).mp hsome
  simp only [Bool.and_eq_true, decide_eq_true_eq, Option.isNone_iff_eq_none] at hsome
  obtain ⟨⟨hfiles, hdir⟩, hnone⟩ := hsome
  obtain ⟨e, he, hempty⟩ := (Option.any_eq_true _ _).mp hdir
  refine ⟨s, a, b, hs, derived_of_treeOf ha, derived_of_treeOf hb, fun hfull => ?_, hfiles,
    fun hsame => ?_⟩
  · have hentry := MemNode.get_full a "d" e hfull he
    cases e with
    | file blob size exec => cases hempty
    | dir child => exact hentry.1 (MemNode.eq_empty_of_isEmpty hempty)
  · rw [hsame, hnone] at he
    cases he

end Server

end Naatre
