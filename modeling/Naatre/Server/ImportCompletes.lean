import Naatre.Core.Plain
import Naatre.Server.ImportSteps
import Naatre.Server.LandFits

/-!
When the import of a scanned batch goes through. The scan looks at one commit
after the other; the rows are keyed by the changeset, and two commits can have
one.
-/

namespace Naatre

/-! ### Git trees -/

mutual

/-- The modes and contents of the files below. -/
def GitTree.files : GitTree → List (GitMode × Bytes)
  | .empty => []
  | .entry _ e rest => e.files ++ rest.files

def GitEntry.files : GitEntry → List (GitMode × Bytes)
  | .blob mode _ content => [(mode, content)]
  | .dir _ tree => tree.files

end

namespace GitTree

mutual

theorem emitEntry_sides : (e : GitEntry) → ∀ dirs name, ∀ d ∈ emitEntry dirs name e,
    ∀ side, d.side = some side → (side.1, side.2.2) ∈ e.files
  | .blob mode oid content => by
      intro dirs name d hd side hside
      rw [emitEntry, List.mem_singleton] at hd
      subst hd
      cases hside
      exact List.mem_singleton_self _
  | .dir _ tree => fun dirs name => emitTree_sides tree (dirs ++ [name.text])

theorem emitTree_sides : (tree : GitTree) → ∀ dirs, ∀ d ∈ emitTree dirs tree,
    ∀ side, d.side = some side → (side.1, side.2.2) ∈ tree.files
  | .empty => fun _ d hd => absurd hd List.not_mem_nil
  | .entry name e rest => by
      intro dirs d hd side hside
      rw [emitTree] at hd
      rcases List.mem_append.mp hd with hd | hd
      · exact List.mem_append_left _ (emitEntry_sides e dirs name d hd side hside)
      · exact List.mem_append_right _ (emitTree_sides rest dirs d hd side hside)

end

mutual

theorem deleteEntry_sides : (e : GitEntry) → ∀ dirs name, ∀ d ∈ deleteEntry dirs name e,
    d.side = none
  | .blob mode oid content => by
      intro dirs name d hd
      rw [deleteEntry, List.mem_singleton] at hd
      rw [hd]
  | .dir _ tree => fun dirs name => deleteTree_sides tree (dirs ++ [name.text])

theorem deleteTree_sides : (tree : GitTree) → ∀ dirs, ∀ d ∈ deleteTree dirs tree, d.side = none
  | .empty => fun _ d hd => absurd hd List.not_mem_nil
  | .entry name e rest => by
      intro dirs d hd
      rw [deleteTree] at hd
      rcases List.mem_append.mp hd with hd | hd
      · exact deleteEntry_sides e dirs name d hd
      · exact deleteTree_sides rest dirs d hd

end

theorem deleteMissing_sides (new : GitTree) : (old : GitTree) → ∀ dirs,
    ∀ d ∈ deleteMissing dirs new old, d.side = none
  | .empty => fun _ d hd => absurd hd List.not_mem_nil
  | .entry name e rest => by
      intro dirs d hd
      rw [deleteMissing] at hd
      rcases List.mem_append.mp hd with hd | hd
      · split_ifs at hd
        · exact deleteEntry_sides e dirs name d hd
        · exact absurd hd List.not_mem_nil
      · exact deleteMissing_sides new rest dirs d hd

mutual

theorem diffEntry_sides : (e : GitEntry) → ∀ dirs name old, ∀ d ∈ diffEntry dirs name old e,
    ∀ side, d.side = some side → (side.1, side.2.2) ∈ e.files
  | .blob mode oid content => by
      intro dirs name old d hd side hside
      have hemit := emitEntry_sides (.blob mode oid content) dirs name d
      unfold diffEntry at hd
      split at hd
      · exact hemit hd side hside
      next o tree =>
        rcases List.mem_append.mp hd with hd | hd
        · rw [deleteEntry_sides _ dirs name d hd] at hside
          cases hside
        · exact hemit hd side hside
      next oldMode oldOid oldContent =>
        split_ifs at hd
        · rw [List.mem_singleton] at hd
          subst hd
          cases hside
          exact List.mem_singleton_self _
        · exact absurd hd List.not_mem_nil
  | .dir oid tree => by
      intro dirs name old d hd side hside
      have hemit := emitEntry_sides (.dir oid tree) dirs name d
      unfold diffEntry at hd
      split at hd
      · exact hemit hd side hside
      next m o c =>
        rcases List.mem_append.mp hd with hd | hd
        · rw [deleteEntry_sides _ dirs name d hd] at hside
          cases hside
        · exact hemit hd side hside
      next oldOid oldTree =>
        split_ifs at hd
        · exact absurd hd List.not_mem_nil
        · rcases List.mem_append.mp hd with hd | hd
          · rw [deleteMissing_sides tree oldTree _ d hd] at hside
            cases hside
          · exact diffTree_sides tree _ oldTree d hd side hside

theorem diffTree_sides : (tree : GitTree) → ∀ dirs old, ∀ d ∈ diffTree dirs old tree,
    ∀ side, d.side = some side → (side.1, side.2.2) ∈ tree.files
  | .empty => fun _ _ d hd => absurd hd List.not_mem_nil
  | .entry name e rest => by
      intro dirs old d hd side hside
      rw [diffTree] at hd
      rcases List.mem_append.mp hd with hd | hd
      · exact List.mem_append_left _ (diffEntry_sides e dirs name _ d hd side hside)
      · exact List.mem_append_right _ (diffTree_sides rest dirs old d hd side hside)

end

/-- What a diff carries is in the new tree. -/
theorem diff_sides {old : Option GitTree} {new : GitTree} {d : DiffEntry} (hd : d ∈ diff old new)
    {side : GitMode × GitOid × Bytes} (hside : d.side = some side) :
    (side.1, side.2.2) ∈ new.files := by
  rw [diff, List.mem_insertionSort] at hd
  rcases List.mem_append.mp hd with hd | hd
  · rw [deleteMissing_sides _ _ _ d hd] at hside
    cases hside
  · exact diffTree_sides new _ _ d hd side hside

end GitTree

/-- The commit a frame emits. -/
def GitFrame.pending : GitFrame → Option GitOid
  | .enter _ => none
  | .emit c => some c.oid

/-- The walk emits a commit once. -/
theorem collectLoop_nodup {git : GitRepo} {mapped : GitOid → Bool} {fuel : ℕ}
    {stack : List GitFrame} {visited : List GitOid} {out batch : List GitCommit}
    (h : collectLoop git mapped fuel stack visited out = some batch)
    (hpending : (stack.filterMap (fun f => f.pending) ++ out.map (fun c => c.oid)).Nodup)
    (hvisited : ∀ c, .emit c ∈ stack ∨ c ∈ out → c.oid ∈ visited) :
    (batch.map fun c => c.oid).Nodup := by
  induction fuel, stack, visited, out using collectLoop.induct git mapped with
  | case1 => simp [collectLoop] at h
  | case2 =>
      simp only [collectLoop, Option.some.injEq] at h
      subst h
      simpa using hpending
  | case3 fuel c stack visited out ih =>
      simp only [collectLoop] at h
      refine ih h ?_ fun c' hc' => hvisited c' ?_
      · rw [List.filterMap_cons] at hpending
        rw [List.map_append, List.map_singleton, ← List.append_assoc]
        exact (List.perm_append_singleton _ _).nodup_iff.mpr hpending
      · rcases hc' with hc' | hc'
        · exact .inl (List.mem_cons_of_mem _ hc')
        · rcases List.mem_append.mp hc' with hc' | hc'
          · exact .inr hc'
          · exact .inl (List.mem_singleton.mp hc' ▸ List.mem_cons_self)
  | case4 fuel oid stack visited out hskip ih =>
      simp only [collectLoop, hskip, if_true] at h
      refine ih h hpending fun c' hc' => hvisited c' ?_
      exact hc'.imp_left (List.mem_cons_of_mem _)
  | case5 fuel oid stack visited out hskip hnone =>
      simp [collectLoop, hskip, hnone] at h
  | case6 fuel oid stack visited out hskip c hfind ih =>
      simp only [collectLoop, hskip, if_false, hfind] at h
      have hoid : c.oid = oid := by simpa using List.find?_some hfind
      have hnew : c.oid ∉ visited := hoid ▸ (not_or.mp hskip).1
      refine ih h ?_ fun c' hc' => ?_
      · have henters :
            (c.parents.map GitFrame.enter).reverse.filterMap (fun f => f.pending) = [] := by
          refine List.filterMap_eq_nil_iff.mpr fun f hf => ?_
          obtain ⟨p, -, rfl⟩ := List.mem_map.mp (List.mem_reverse.mp hf)
          rfl
        rw [List.filterMap_append, henters, List.nil_append, List.filterMap_cons]
        refine List.nodup_cons.mpr ⟨fun hmem => hnew ?_, hpending⟩
        rcases List.mem_append.mp hmem with hmem | hmem
        · obtain ⟨f, hf, heq⟩ := List.mem_filterMap.mp hmem
          cases f with
          | enter oid => cases heq
          | emit c' =>
              rw [← Option.some.inj heq]
              exact hvisited c' (.inl (List.mem_cons_of_mem _ hf))
        · obtain ⟨c', hc', heq⟩ := List.mem_map.mp hmem
          exact heq ▸ hvisited c' (.inr hc')
      · rcases hc' with hc' | hc'
        · rcases List.mem_append.mp hc' with hc' | hc'
          · simp at hc'
          · rcases List.mem_cons.mp hc' with hc' | hc'
            · cases hc'
              exact hoid ▸ List.mem_cons_self
            · exact List.mem_cons_of_mem _ (hvisited c' (.inl (List.mem_cons_of_mem _ hc')))
        · exact List.mem_cons_of_mem _ (hvisited c' (.inr hc'))

section

variable {Id : Type} [Platform Id]

/-! ### The node of a git tree -/

mutual

/-- The directory a git tree makes of one, entry by entry. -/
def GitTree.nodeInto (node : MemNode Id) : GitTree → MemNode Id
  | .empty => node
  | .entry name e rest => rest.nodeInto (node.insert name.text e.memEntry)

def GitEntry.memEntry : GitEntry → MemEntry Id
  | .blob mode _ content =>
      .file (Platform.blobId content) content.length (decide (mode = .exec))
  | .dir _ tree => .dir (tree.nodeInto .empty)

end

/-- The directory of a git tree. -/
def GitTree.node (tree : GitTree) : MemNode Id := tree.nodeInto .empty

mutual

theorem GitTree.nodeInto_sorted : (tree : GitTree) → ∀ {node : MemNode Id}, node.Sorted →
    (tree.nodeInto node).Sorted
  | .empty => fun hnode => hnode
  | .entry name e rest => fun hnode =>
      rest.nodeInto_sorted (MemNode.insert_sorted _ name.text _ hnode e.memEntry_sorted)

theorem GitEntry.memEntry_sorted : (e : GitEntry) → (e.memEntry : MemEntry Id).Sorted
  | .blob _ _ _ => trivial
  | .dir _ tree => tree.nodeInto_sorted (show (MemNode.empty : MemNode Id).Sorted from trivial)

end

theorem GitTree.node_sorted (tree : GitTree) : (tree.node : MemNode Id).Sorted :=
  tree.nodeInto_sorted (show (MemNode.empty : MemNode Id).Sorted from trivial)

/-- The file can be put: its mode is a file's, its content is within the cap and
has no tombstone. -/
structure Storable (db : RepoTables Id) (file : GitMode × Bytes) : Prop where
  mode : file.1 = .regular ∨ file.1 = .exec
  cap : file.2.length ≤ blobLimit
  free : redactionActive db (Platform.blobId file.2) = false

theorem putRecorded_iff (nowNs : ℕ) {cx : RepoCx Id} {content : Bytes} :
    (∃ cx', putRecorded nowNs cx content = .ok cx') ↔
      content.length ≤ blobLimit ∧ redactionActive cx.db (Platform.blobId content) = false := by
  constructor
  · rintro ⟨cx', h⟩
    obtain ⟨hfree, cas, hcas, -⟩ := putRecorded_ok h
    refine ⟨not_lt.mp fun hlarge => ?_, hfree⟩
    rw [casPut, if_pos hlarge] at hcas
    cases hcas
  · rintro ⟨hcap, hfree⟩
    rw [putRecorded]
    simp only [hfree, Bool.false_eq_true, if_false, casPut, if_neg (not_lt.mpr hcap)]
    split_ifs <;> exact ⟨_, rfl⟩

theorem putRecorded_db {nowNs : ℕ} {cx cx' : RepoCx Id} {content : Bytes}
    (h : putRecorded nowNs cx content = .ok cx') : cx'.db = cx.db := by
  obtain ⟨-, cas, -, rfl⟩ := putRecorded_ok h
  rfl

theorem putAll_iff (nowNs : ℕ) {cx : RepoCx Id} {contents : List Bytes} :
    (∃ cx', contents.foldlM (putRecorded nowNs) cx = .ok cx') ↔
      ∀ content ∈ contents, content.length ≤ blobLimit ∧
        redactionActive cx.db (Platform.blobId content) = false := by
  induction contents generalizing cx with
  | nil => exact iff_of_true ⟨cx, rfl⟩ fun _ h => absurd h List.not_mem_nil
  | cons content contents ih =>
      rw [List.forall_mem_cons, ← putRecorded_iff nowNs]
      constructor
      · rintro ⟨cx', h⟩
        rw [List.foldlM_cons, Lib.bind_eq_ok] at h
        obtain ⟨mid, hmid, h⟩ := h
        exact ⟨⟨mid, hmid⟩, putRecorded_db hmid ▸ ih.mp ⟨cx', h⟩⟩
      · rintro ⟨⟨mid, hmid⟩, hrest⟩
        rw [← putRecorded_db hmid] at hrest
        obtain ⟨cx', h⟩ := ih.mpr hrest
        exact ⟨cx', by rw [List.foldlM_cons, Lib.bind_eq_ok]; exact ⟨mid, hmid, h⟩⟩

mutual

/-- Building the tree puts every file, and makes the tree's node. -/
theorem buildTreeInto_iff (nowNs : ℕ) : (tree : GitTree) → ∀ (cx : RepoCx Id) node built,
    (∃ cx', buildTreeInto nowNs cx node tree = .ok (built, cx')) ↔
      (∀ file ∈ tree.files, Storable cx.db file) ∧ built = tree.nodeInto node
  | .empty => by
      intro cx node built
      rw [buildTreeInto, GitTree.files, GitTree.nodeInto]
      constructor
      · rintro ⟨cx', h⟩
        cases h
        exact ⟨fun _ h => absurd h List.not_mem_nil, rfl⟩
      · rintro ⟨-, rfl⟩
        exact ⟨cx, rfl⟩
  | .entry name e rest => by
      intro cx node built
      rw [GitTree.files, List.forall_mem_append, GitTree.nodeInto, and_assoc]
      constructor
      · rintro ⟨cx', h⟩
        rw [buildTreeInto, Lib.bind_eq_ok] at h
        obtain ⟨⟨entry, mid⟩, hentry, h⟩ := h
        obtain ⟨hfiles, rfl⟩ := (buildTreeEntry_iff nowNs e cx entry).mp ⟨mid, hentry⟩
        obtain ⟨cas, cat, rfl⟩ := ((buildTreeEntry_puts e cx).1 _ _ hentry).frame
        exact ⟨hfiles, (buildTreeInto_iff nowNs rest { cx with cas := cas, cat := cat } _ _).mp ⟨cx', h⟩⟩
      · rintro ⟨hfiles, hrest⟩
        obtain ⟨mid, hentry⟩ := (buildTreeEntry_iff nowNs e cx _).mpr ⟨hfiles, rfl⟩
        obtain ⟨cas, cat, rfl⟩ := ((buildTreeEntry_puts e cx).1 _ _ hentry).frame
        obtain ⟨cx', h⟩ := (buildTreeInto_iff nowNs rest { cx with cas := cas, cat := cat } _ _).mpr hrest
        exact ⟨cx', by rw [buildTreeInto, Lib.bind_eq_ok]; exact ⟨_, hentry, h⟩⟩

theorem buildTreeEntry_iff (nowNs : ℕ) : (e : GitEntry) → ∀ (cx : RepoCx Id) built,
    (∃ cx', buildTreeEntry nowNs cx e = .ok (built, cx')) ↔
      (∀ file ∈ e.files, Storable cx.db file) ∧ built = e.memEntry
  | .blob mode oid content => by
      intro cx built
      rw [GitEntry.files, List.forall_mem_singleton, GitEntry.memEntry, buildTreeEntry]
      by_cases hmode : mode ≠ .regular ∧ mode ≠ .exec
      · rw [if_pos hmode]
        refine iff_of_false (fun ⟨_, h⟩ => by cases h) fun h => ?_
        exact not_or.mpr hmode h.1.mode
      · rw [if_neg hmode]
        have hfile : mode = .regular ∨ mode = .exec := by
          by_contra hnot
          exact hmode (not_or.mp hnot)
        constructor
        · rintro ⟨cx', h⟩
          rw [Lib.bind_eq_ok] at h
          obtain ⟨mid, hput, h⟩ := h
          cases h
          obtain ⟨hcap, hfree⟩ := (putRecorded_iff nowNs).mp ⟨_, hput⟩
          exact ⟨⟨hfile, hcap, hfree⟩, rfl⟩
        · rintro ⟨hstorable, rfl⟩
          obtain ⟨mid, hput⟩ := (putRecorded_iff nowNs).mpr ⟨hstorable.cap, hstorable.free⟩
          exact ⟨mid, by rw [Lib.bind_eq_ok]; exact ⟨mid, hput, rfl⟩⟩
  | .dir _ tree => by
      intro cx built
      rw [GitEntry.files, GitEntry.memEntry, buildTreeEntry]
      constructor
      · rintro ⟨cx', h⟩
        rw [Lib.bind_eq_ok] at h
        obtain ⟨⟨node, mid⟩, hnode, h⟩ := h
        cases h
        obtain ⟨hfiles, rfl⟩ := (buildTreeInto_iff nowNs tree cx .empty node).mp ⟨_, hnode⟩
        exact ⟨hfiles, rfl⟩
      · rintro ⟨hfiles, rfl⟩
        obtain ⟨mid, hnode⟩ := (buildTreeInto_iff nowNs tree cx .empty _).mpr ⟨hfiles, rfl⟩
        exact ⟨mid, by rw [Lib.bind_eq_ok]; exact ⟨_, hnode, rfl⟩⟩

end

/-! ### The rows of the node -/

/-- The length of the canonical listing of one directory. -/
def MemNode.listingLen (node : MemNode Id) : ℕ :=
  16 + (node.names.map fun name => strLen name + 42).sum

mutual

/-- The listing of every directory below is within the object cap. -/
def MemNode.SubFits : MemNode Id → Prop
  | .empty => True
  | .entry _ e rest => e.Fits ∧ rest.SubFits

def MemEntry.Fits : MemEntry Id → Prop
  | .file _ _ _ => True
  | .dir child => child.SubFits ∧ child.listingLen ≤ maxObjectBytes

end

/-- The listing of the directory and of every directory below is within the
object cap. -/
def MemNode.Fits (node : MemNode Id) : Prop :=
  node.SubFits ∧ node.listingLen ≤ maxObjectBytes

theorem treeRowOf_iff {node : MemNode Id} (hsorted : node.Sorted) {entries : List (TreeEntry Id)}
    (hnames : entries.map (fun e => e.name) = node.names) :
    (∃ row, treeRowOf entries = .ok row) ↔ node.listingLen ≤ maxObjectBytes := by
  have hchain : (entries.map (fun e => e.written)).IsChain fun a b => a.name < b.name := by
    rw [List.isChain_map]
    exact entries_chain hsorted hnames
  have hlen : (Tree.mk (entries.map fun e => e.written)).encodedLen = node.listingLen := by
    rw [Tree.encodedLen, MemNode.listingLen, ← hnames, List.map_map, List.map_map]
    rfl
  have herror : (Tree.mk (entries.map fun e => e.written)).encodeError =
      if maxObjectBytes < node.listingLen then some .encodeTooLarge else none := by
    rw [Tree.encodeError, if_neg (not_not.mpr hchain), hlen]
  rw [treeRowOf, Tree.encode]
  simp only
  constructor
  · rintro ⟨row, h⟩
    by_contra hlarge
    rw [if_pos (not_le.mp hlarge)] at herror
    split at h
    · cases h
    next canonical hok =>
      split at hok
      · cases hok
      next hnone =>
        rw [herror] at hnone
        cases hnone
  · intro hfits
    rw [if_neg (not_lt.mpr hfits)] at herror
    split
    next e hbad =>
      split at hbad
      next e' hsome =>
        rw [herror] at hsome
        cases hsome
      · cases hbad
    next canonical _ => exact ⟨_, rfl⟩

/-- The entries of a node have its names. -/
theorem collectEntries_listed {node : MemNode Id} (hsorted : node.Sorted)
    {entries : List (TreeEntry Id)} {size : ℕ} {rows : List (TreeRow Id)}
    (h : node.collectEntries = .ok (entries, size, rows)) :
    entries.map (fun e => e.name) = node.names := by
  rcases collectEntries_cases node hsorted with ⟨_, _, _, hok, hnames⟩ | hlarge
  · rw [h] at hok
    cases hok
    exact hnames
  · rw [h] at hlarge
    cases hlarge

mutual

theorem collectEntries_iff : (node : MemNode Id) → node.Sorted →
    ((∃ out, node.collectEntries = .ok out) ↔ node.SubFits)
  | .empty => fun _ => iff_of_true ⟨_, rfl⟩ trivial
  | .entry name e rest => by
      intro hsorted
      rw [MemNode.SubFits, ← collectEntry_iff e hsorted.2.1 name,
        ← collectEntries_iff rest hsorted.2.2, MemNode.collectEntries]
      constructor
      · rintro ⟨out, h⟩
        rw [Lib.bind_eq_ok] at h
        obtain ⟨first, hfirst, h⟩ := h
        rw [Lib.bind_eq_ok] at h
        obtain ⟨others, hothers, -⟩ := h
        exact ⟨⟨first, hfirst⟩, ⟨others, hothers⟩⟩
      · rintro ⟨⟨first, hfirst⟩, ⟨others, hothers⟩⟩
        rw [hfirst, hothers]
        exact ⟨_, rfl⟩

theorem collectEntry_iff : (e : MemEntry Id) → e.Sorted → ∀ name,
    ((∃ out, e.collectEntry name = .ok out) ↔ e.Fits)
  | .file _ _ _ => fun _ _ => iff_of_true ⟨_, rfl⟩ trivial
  | .dir child => by
      intro hsorted name
      rw [MemEntry.Fits, ← collectEntries_iff child hsorted, MemEntry.collectEntry]
      constructor
      · rintro ⟨out, h⟩
        rw [Lib.bind_eq_ok] at h
        obtain ⟨⟨entries, total, rows⟩, hchild, h⟩ := h
        rw [Lib.bind_eq_ok] at h
        obtain ⟨row, hrow, -⟩ := h
        exact ⟨⟨_, hchild⟩,
          (treeRowOf_iff hsorted (collectEntries_listed hsorted hchild)).mp ⟨row, hrow⟩⟩
      · rintro ⟨⟨⟨entries, total, rows⟩, hchild⟩, hlen⟩
        obtain ⟨row, hrow⟩ :=
          (treeRowOf_iff hsorted (collectEntries_listed hsorted hchild)).mpr hlen
        refine ⟨(⟨name, .dir, row.id, total, false⟩, total, rows ++ [row]), ?_⟩
        rw [hchild]
        show (treeRowOf entries >>= fun row => _) = _
        rw [hrow]
        rfl

end

theorem collect_iff {node : MemNode Id} (hsorted : node.Sorted) :
    (∃ out, node.collect = .ok out) ↔ node.Fits := by
  rw [MemNode.Fits, ← collectEntries_iff node hsorted, MemNode.collect]
  constructor
  · rintro ⟨out, h⟩
    rw [Lib.bind_eq_ok] at h
    obtain ⟨⟨entries, total, rows⟩, hnode, h⟩ := h
    rw [Lib.bind_eq_ok] at h
    obtain ⟨row, hrow, -⟩ := h
    exact ⟨⟨_, hnode⟩, (treeRowOf_iff hsorted (collectEntries_listed hsorted hnode)).mp ⟨row, hrow⟩⟩
  · rintro ⟨⟨⟨entries, total, rows⟩, hnode⟩, hlen⟩
    obtain ⟨row, hrow⟩ := (treeRowOf_iff hsorted (collectEntries_listed hsorted hnode)).mpr hlen
    refine ⟨(row.id, total, rows ++ [row]), ?_⟩
    rw [hnode]
    show (treeRowOf entries >>= fun row => _) = _
    rw [hrow]
    rfl

/-! ### The rows of a batch -/

/-- Nothing about the commit itself stands in the way: its files can be put, no
tombstone names it, and its directories fit. -/
structure PreparedCommit.Importable (db : RepoTables Id) (p : PreparedCommit Id) : Prop where
  free : redactionActive db p.csId = false
  files : ∀ file ∈ p.gitTree.files, Storable db file
  fits : (p.gitTree.node : MemNode Id).Fits

theorem changesetInsertRows_iff (cx : RepoCx Id) {rec : ChangesetInsert Id} {oid : GitOid}
    (hoid : rec.gitMapOid = some oid) : (∃ cx', changesetInsertRows cx rec = some cx') ↔
      changesetGet cx.db rec.id = none ∧ cx.db.gitMap.lookup oid = none := by
  rw [changesetInsertRows, hoid, Option.any_some]
  constructor
  · rintro ⟨cx', h⟩
    split_ifs at h with hstored hmapped
    exact ⟨Option.not_isSome_iff_eq_none.mp hstored, Option.not_isSome_iff_eq_none.mp hmapped⟩
  · rintro ⟨hstored, hmapped⟩
    rw [hstored, hmapped]
    exact ⟨_, rfl⟩

/-- One commit goes in: it is importable, and neither its id nor its oid is
there. -/
theorem importCommit_iff (nowNs : ℕ) (cx : RepoCx Id) {p : PreparedCommit Id}
    (hcontents : ∀ content ∈ p.contents, ∃ mode, (mode, content) ∈ p.gitTree.files) :
    (∃ cx', importCommit nowNs cx p = .ok cx') ↔
      p.Importable cx.db ∧ changesetGet cx.db p.csId = none ∧
        cx.db.gitMap.lookup p.gitOid = none := by
  have hnode : (p.gitTree.node : MemNode Id).Sorted := p.gitTree.node_sorted
  constructor
  · rintro ⟨cx', h⟩
    obtain ⟨c⟩ := importCommit_ok h
    obtain ⟨cas, cat, hdiffed⟩ := (putAll_cases.1 _ c.diff_ok).frame
    obtain ⟨cas', cat', hstored⟩ := c.puts.frame
    obtain ⟨hfiles, hbuilt⟩ := (buildTreeInto_iff nowNs p.gitTree c.diffed .empty c.node).mp
      ⟨c.stored, c.build_ok⟩
    have hcollect := c.collect_ok
    rw [hbuilt] at hcollect
    have hkeys := (changesetInsertRows_iff c.stored rfl).mp ⟨cx', c.insert_ok⟩
    rw [hdiffed] at hfiles
    rw [hstored] at hkeys
    exact ⟨⟨c.cs_free, hfiles, (collect_iff hnode).mp ⟨_, hcollect⟩⟩, hkeys⟩
  · rintro ⟨himportable, hkeys⟩
    obtain ⟨diffed, hdiff⟩ := (putAll_iff nowNs).mpr
      fun content hcontent => by
        obtain ⟨mode, hfile⟩ := hcontents content hcontent
        exact ⟨(himportable.files _ hfile).cap, (himportable.files _ hfile).free⟩
    obtain ⟨cas, cat, rfl⟩ := (putAll_cases.1 _ hdiff).frame
    obtain ⟨stored, hbuild⟩ := (buildTreeInto_iff nowNs p.gitTree
      { cx with cas := cas, cat := cat } .empty p.gitTree.node).mpr ⟨himportable.files, rfl⟩
    obtain ⟨cas', cat', rfl⟩ := ((buildTreeInto_puts p.gitTree _ _).1 _ _ hbuild).frame
    obtain ⟨⟨root, size, rows⟩, hcollect⟩ := (collect_iff hnode).mpr himportable.fits
    obtain ⟨cx', hinsert⟩ := (changesetInsertRows_iff
      { cx with cas := cas', cat := cat' }
      (show
        ({ id := p.csId
           canonical := p.canonical
           generation := p.generation
           principal := importPrincipal
           rootTreeId := root
           blobs := changeBlobs p.canonical.cs.changes
           trees := rows
           gitMapOid := some p.gitOid } : ChangesetInsert Id).gitMapOid = some p.gitOid
        from rfl)).mpr hkeys
    refine ⟨cx', ?_⟩
    rw [importCommit, himportable.free, if_neg Bool.false_ne_true, hdiff]
    simp only [buildTreeNode, hbuild, hcollect]
    rw [hinsert]

/-- What the tables say after one commit went in. -/
theorem CommitImported.keys {nowNs : ℕ} {cx cx' : RepoCx Id} {p : PreparedCommit Id}
    (c : CommitImported nowNs cx p cx') :
    (∀ id, changesetGet cx'.db id = none ↔ changesetGet cx.db id = none ∧ p.csId ≠ id) ∧
      (∀ oid, cx'.db.gitMap.lookup oid = none ↔
        cx.db.gitMap.lookup oid = none ∧ p.gitOid ≠ oid) ∧
      cx'.db.redactions = cx.db.redactions := by
  obtain ⟨cas, cat, hstored⟩ := c.puts.frame
  obtain ⟨-, hcx⟩ := changesetInsertRows_some c.insert_ok
  rw [hcx, hstored]
  refine ⟨fun id => ?_, fun oid => ?_, rfl⟩
  · rw [changesetGet, List.find?_append, Option.or_eq_none_iff]
    refine and_congr_right fun _ => ?_
    rw [List.find?_singleton]
    by_cases hid : p.csId = id
    · simp [ChangesetInsert.row, hid]
    · simp [ChangesetInsert.row, hid]
  · rw [List.lookup_append, Option.or_eq_none_iff]
    refine and_congr_right fun _ => ?_
    by_cases hoid : oid = p.gitOid
    · simp [hoid]
    · simp [hoid, Ne.symm hoid]

theorem PreparedCommit.Importable.congr {db db' : RepoTables Id} {p : PreparedCommit Id}
    (hredactions : db'.redactions = db.redactions) : p.Importable db' ↔ p.Importable db := by
  have hactive := redactionActive_of_eq hredactions
  constructor
  · exact fun h => ⟨hactive _ ▸ h.free, fun file hfile =>
      ⟨(h.files file hfile).mode, (h.files file hfile).cap, hactive _ ▸ (h.files file hfile).free⟩,
      h.fits⟩
  · exact fun h => ⟨(hactive _).trans h.free, fun file hfile =>
      ⟨(h.files file hfile).mode, (h.files file hfile).cap,
        (hactive _).trans (h.files file hfile).free⟩, h.fits⟩

/-- A batch of unmapped commits goes in: each is importable, and their ids are
different and none is there. -/
theorem importCommits_iff {nowNs : ℕ} {cx : RepoCx Id} {ps : List (PreparedCommit Id)}
    (hcontents : ∀ p ∈ ps, ∀ content ∈ p.contents, ∃ mode, (mode, content) ∈ p.gitTree.files)
    (hoids : (ps.map fun p => p.gitOid).Nodup)
    (hunmapped : ∀ p ∈ ps, cx.db.gitMap.lookup p.gitOid = none) :
    (∃ cx', importCommits nowNs cx ps = .ok cx') ↔
      (∀ p ∈ ps, p.Importable cx.db) ∧ (ps.map fun p => p.csId).Nodup ∧
        ∀ p ∈ ps, changesetGet cx.db p.csId = none := by
  induction ps generalizing cx with
  | nil => exact iff_of_true ⟨cx, rfl⟩ ⟨fun _ h => absurd h List.not_mem_nil, .nil,
      fun _ h => absurd h List.not_mem_nil⟩
  | cons p ps ih =>
      obtain ⟨hoid, hoids⟩ := List.nodup_cons.mp hoids
      have hfirst := importCommit_iff nowNs cx (hcontents p List.mem_cons_self)
      have hnext : ∀ mid, importCommit nowNs cx p = .ok mid →
          ((∃ cx', importCommits nowNs mid ps = .ok cx') ↔
            (∀ q ∈ ps, q.Importable cx.db) ∧ (ps.map fun q => q.csId).Nodup ∧
              ∀ q ∈ ps, changesetGet cx.db q.csId = none ∧ p.csId ≠ q.csId) := by
        intro mid hmid
        obtain ⟨c⟩ := importCommit_ok hmid
        obtain ⟨hids, hmap, hredactions⟩ := c.keys
        rw [ih (fun q hq => hcontents q (List.mem_cons_of_mem _ hq)) hoids fun q hq => ?_]
        · simp only [hids, PreparedCommit.Importable.congr hredactions]
        · refine (hmap _).mpr ⟨hunmapped q (List.mem_cons_of_mem _ hq), fun heq => hoid ?_⟩
          exact List.mem_map.mpr ⟨q, hq, heq.symm⟩
      constructor
      · rintro ⟨cx', h⟩
        rw [importCommits] at h
        split at h
        · cases h
        next mid hmid =>
        obtain ⟨himportable, hfree, -⟩ := hfirst.mp ⟨mid, hmid⟩
        obtain ⟨hrest, hnodup, hids⟩ := (hnext mid hmid).mp ⟨cx', h⟩
        refine ⟨List.forall_mem_cons.mpr ⟨himportable, hrest⟩, List.nodup_cons.mpr ⟨?_, hnodup⟩,
          List.forall_mem_cons.mpr ⟨hfree, fun q hq => (hids q hq).1⟩⟩
        intro hmem
        obtain ⟨q, hq, heq⟩ := List.mem_map.mp hmem
        exact (hids q hq).2 heq.symm
      · rintro ⟨himportable, hnodup, hids⟩
        obtain ⟨himportable, hrest⟩ := List.forall_mem_cons.mp himportable
        obtain ⟨hfresh, hnodup⟩ := List.nodup_cons.mp hnodup
        obtain ⟨hfree, hids⟩ := List.forall_mem_cons.mp hids
        obtain ⟨mid, hmid⟩ := hfirst.mpr ⟨himportable, hfree, hunmapped p List.mem_cons_self⟩
        obtain ⟨cx', h⟩ := (hnext mid hmid).mpr ⟨hrest, hnodup, fun q hq =>
          ⟨hids q hq, fun heq => hfresh (List.mem_map.mpr ⟨q, hq, heq.symm⟩)⟩⟩
        exact ⟨cx', by rw [importCommits, hmid]; exact h⟩

/-! ### The batch of a scan -/

/-- What a ready commit takes from its diff. -/
theorem prepareCommit_contents {git : GitRepo} {opts : ImportOptions} {repoId : RepoId}
    {db : RepoTables Id} {batch : List (GitOid × Id × ℕ)} {c : GitCommit} {p : PreparedCommit Id}
    (h : prepareCommit git opts repoId db db.gitMap batch c = .ok (.ready p)) :
    p.gitOid = c.oid ∧
      ∀ content ∈ p.contents, ∃ mode, (mode, content) ∈ p.gitTree.files := by
  unfold prepareCommit at h
  split at h
  · cases h
  next entries reasons hscan =>
  split at h
  · cases h
  split at h
  · cases h
  simp only at h
  split at h
  · cases h
  split at h
  · cases h
  cases h
  refine ⟨rfl, fun content hcontent => ?_⟩
  obtain ⟨d, hd, hside⟩ := List.mem_filterMap.mp hcontent
  obtain ⟨side, hnew, rfl⟩ := Option.map_eq_some_iff.mp hside
  rw [scanReasons] at hscan
  simp only at hscan
  split at hscan
  · cases hscan
  next parentTree _ =>
    simp only [Except.ok.injEq, Prod.mk.injEq] at hscan
    rw [← hscan.1] at hd
    exact ⟨side.1, GitTree.diff_sides (List.mem_filter.mp hd).1 hnew⟩

theorem prepareCommit_unsupported {git : GitRepo} {opts : ImportOptions} {repoId : RepoId}
    {db : RepoTables Id} {batch : List (GitOid × Id × ℕ)} {c : GitCommit} {reasons : List String}
    (h : prepareCommit git opts repoId db db.gitMap batch c = .ok (.unsupported reasons)) :
    reasons ≠ [] := by
  unfold prepareCommit at h
  split at h
  · cases h
  split at h
  next hreasons =>
    cases h
    exact hreasons
  split at h
  · cases h
  simp only at h
  split at h
  · cases h
  split at h
  · cases h
  · cases h

/-- The scan prepares the commits of its batch, in order; it leaves one out only
with a report. -/
structure BatchScanned (done : List GitCommit) (st : ScanState Id) : Prop where
  oids : (st.importable.map fun p => p.gitOid).Sublist (done.map fun c => c.oid)
  contents : ∀ p ∈ st.importable, ∀ content ∈ p.contents,
    ∃ mode, (mode, content) ∈ p.gitTree.files
  all : st.offending = [] → st.parentMissing = [] →
    (st.importable.map fun p => p.gitOid) = done.map fun c => c.oid

theorem BatchScanned.step {git : GitRepo} {opts : ImportOptions} {repoId : RepoId}
    {db : RepoTables Id} {done : List GitCommit} {st st' : ScanState Id} {c : GitCommit}
    (hst : BatchScanned done st) (h : scanCommit git opts repoId db st c = .ok st') :
    BatchScanned (done ++ [c]) st' := by
  unfold scanCommit at h
  split at h
  · cases h
  next p hready =>
    cases h
    obtain ⟨hoid, hcontents⟩ := prepareCommit_contents hready
    refine ⟨?_, fun q hq => ?_, fun hoffending hmissing => ?_⟩
    · rw [List.map_append, List.map_append, List.map_singleton, List.map_singleton, hoid]
      exact hst.oids.append (.refl _)
    · rcases List.mem_append.mp hq with hq | hq
      · exact hst.contents q hq
      · exact List.mem_singleton.mp hq ▸ hcontents
    · rw [List.map_append, List.map_append, List.map_singleton, List.map_singleton, hoid,
        hst.all hoffending hmissing]
  next reasons hunsupported =>
    cases h
    refine ⟨?_, hst.contents, fun hoffending _ => ?_⟩
    · rw [List.map_append]
      exact hst.oids.trans (List.sublist_append_left _ _)
    · have hnone := (List.append_eq_nil_iff.mp hoffending).2
      exact absurd (List.map_eq_nil_iff.mp hnone) (prepareCommit_unsupported hunsupported)
  · cases h
    refine ⟨?_, hst.contents, fun _ hmissing => absurd hmissing (by simp)⟩
    rw [List.map_append]
    exact hst.oids.trans (List.sublist_append_left _ _)

theorem Scanned.batch_scanned {cx : RepoCx Id} {git : GitRepo} {opts : ImportOptions}
    {head : GitOid} (sc : Scanned cx git opts head) : BatchScanned sc.batch sc.scan := by
  refine Lib.foldlM_induct (P := BatchScanned) sc.scan_ok ?_ ?_
  · exact ⟨.slnil, fun p hp => absurd hp List.not_mem_nil, fun _ _ => rfl⟩
  · exact fun done c rest st st' _ hst hstep => hst.step hstep

/-- A batch whose commits all scan as ready is prepared as a whole. It goes in
exactly when each of its commits is importable, no two of them have one
changeset, and none has a changeset that is stored. -/
theorem import_completes_iff {nowNs : ℕ} {cx : RepoCx Id} {git : GitRepo} {opts : ImportOptions}
    {head : GitOid} (sc : Scanned cx git opts head) (hoffending : sc.scan.offending = [])
    (hmissing : sc.scan.parentMissing = []) :
    sc.scan.importable.map (fun p => p.gitOid) = sc.batch.map (fun c => c.oid) ∧
      ((∃ cx', importCommits nowNs cx sc.scan.importable = .ok cx') ↔
        (∀ p ∈ sc.scan.importable, p.Importable cx.db) ∧
          (sc.scan.importable.map fun p => p.csId).Nodup ∧
            ∀ p ∈ sc.scan.importable, changesetGet cx.db p.csId = none) := by
  have hscanned := sc.batch_scanned
  have hall := hscanned.all hoffending hmissing
  have hoids : (sc.batch.map fun c => c.oid).Nodup :=
    collectLoop_nodup sc.batch_ok (by simp [GitFrame.pending]) (by simp)
  refine ⟨hall, importCommits_iff hscanned.contents (hall ▸ hoids) fun p hp => ?_⟩
  obtain ⟨c, hc, hoid⟩ := List.mem_map.mp (hall ▸ List.mem_map_of_mem hp)
  have hunmapped := collectLoop_unmapped sc.batch_ok (by simp) (by simp) c hc
  rw [← hoid]
  exact Option.not_isSome_iff_eq_none.mp (by rw [hunmapped]; exact Bool.false_ne_true)

end

/-! ### Two commits of one image -/

namespace Twins

/-- A file. -/
def tree : GitTree := .entry "a" (.blob .regular 11 [97, 10]) .empty

/-- Another file beside it. -/
def more : GitTree :=
  .entry "a" (.blob .regular 11 [97, 10]) (.entry "b" (.blob .regular 12 [98, 10]) .empty)

/-- Two root commits with one author, message, time and tree; a commit on top of
the second; a merge of it into the first. -/
def source : GitRepo :=
  [⟨1, [], "ann", "first", 5, tree⟩, ⟨2, [], "ann", "first", 5, tree⟩,
    ⟨3, [2], "ann", "more", 6, more⟩, ⟨4, [1, 3], "ann", "merge", 7, more⟩]

def empty : RepoCx PlainId := (Server.boot .dbPerRepo [(1, "r")] 100 10).cx 1

/-- The scan of an import of everything below a commit. -/
def scanOf (head : GitOid) : Option (ScanState PlainId) :=
  match collectAncestors source (fun oid => (empty.db.gitMap.lookup oid).isSome) head with
  | none => none
  | some batch => (batch.foldlM (scanCommit source ⟨false, false⟩ 1 empty.db) .start).toOption

theorem scanOf_some {head : GitOid} {st : ScanState PlainId} (h : scanOf head = some st) :
    ∃ sc : Scanned empty source ⟨false, false⟩ head, sc.scan = st := by
  unfold scanOf at h
  split at h
  · cases h
  next batch hbatch =>
  match hscan : batch.foldlM (scanCommit source ⟨false, false⟩ 1 empty.db) .start with
  | .ok scan =>
      rw [hscan] at h
      exact ⟨⟨batch, scan, hbatch, hscan⟩, Option.some.inj h⟩
  | .error e =>
      rw [hscan] at h
      cases h

/-- The batch stops with an internal error, two landings stored. -/
def stopsAtTwo (st : ScanState PlainId) : Bool :=
  match importCommits 1 empty st.importable with
  | .error (.internal, cx') => decide (cx'.db.changesets.length = 2)
  | _ => false

/-- The batch lands whole. -/
def imports (st : ScanState PlainId) : Bool :=
  match importCommits 1 empty st.importable with
  | .ok _ => true
  | .error _ => false

end Twins

open Twins in
/-- The import of the second root and the commit on top of it. -/
theorem import_completes_iff_root : ∃ sc : Scanned empty source ⟨false, false⟩ 3,
    sc.scan.importable.map (fun p => p.gitOid) = sc.batch.map (fun c => c.oid) ∧
      sc.scan.importable.length = 2 ∧
      (∃ cx', importCommits 1 empty sc.scan.importable = .ok cx') ∧
      (∀ p ∈ sc.scan.importable, p.Importable empty.db) ∧
      (sc.scan.importable.map fun p => p.csId).Nodup := by
  have h : (scanOf 3).any (fun st => st.offending.isEmpty && st.parentMissing.isEmpty &&
      decide (st.importable.length = 2) && imports st) = true := by
    decide +kernel
  obtain ⟨st, hst, hready⟩ := (Option.any_eq_true _ _).mp h
  obtain ⟨sc, rfl⟩ := scanOf_some hst
  simp only [Bool.and_eq_true, List.isEmpty_iff, decide_eq_true_eq] at hready
  obtain ⟨⟨⟨hoffending, hmissing⟩, hlen⟩, himports⟩ := hready
  have hlands : ∃ cx', importCommits 1 empty sc.scan.importable = .ok cx' := by
    unfold imports at himports
    split at himports
    next cx' hok => exact ⟨cx', hok⟩
    · cases himports
  obtain ⟨hall, hiff⟩ := import_completes_iff sc hoffending hmissing
  obtain ⟨himportable, hnodup, -⟩ := hiff.mp hlands
  exact ⟨sc, hall, hlen, hlands, himportable, hnodup⟩

open Twins in
/-- All four commits scan as ready; the import stops at the first root, with the
second and the commit on top of it stored. -/
theorem twins_stop : ∃ sc : Scanned empty source ⟨false, false⟩ 4,
    sc.scan.offending = [] ∧ sc.scan.parentMissing = [] ∧ sc.scan.importable.length = 4 ∧
      ∃ cx', importCommits 1 empty sc.scan.importable = .error (.internal, cx') ∧
        cx'.db.changesets.length = 2 := by
  have h : (scanOf 4).any (fun st => st.offending.isEmpty && st.parentMissing.isEmpty &&
      decide (st.importable.length = 4) && stopsAtTwo st) = true := by
    decide +kernel
  obtain ⟨st, hst, hready⟩ := (Option.any_eq_true _ _).mp h
  obtain ⟨sc, rfl⟩ := scanOf_some hst
  simp only [Bool.and_eq_true, List.isEmpty_iff, decide_eq_true_eq] at hready
  obtain ⟨⟨⟨hoffending, hmissing⟩, hlen⟩, hstop⟩ := hready
  refine ⟨sc, hoffending, hmissing, hlen, ?_⟩
  unfold stopsAtTwo at hstop
  split at hstop
  next cx' himport => exact ⟨cx', himport, of_decide_eq_true hstop⟩
  · cases hstop

end Naatre
