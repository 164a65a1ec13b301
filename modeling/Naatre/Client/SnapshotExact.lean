import Naatre.Client.CommitExact
import Naatre.Client.Snapshot

/-!
What a snapshot holds. The client builds the trees of a snapshot itself and
sends their frames; the server names a tree by its frame. So the tree the client
computed the id of is the one every store loads under that id, and its files are
those the disk had in the cone.
-/

namespace Naatre.Client

section

variable {Id : Type}

/-! ### The files of a built node -/

mutual

/-- The files of a node that stands at `pre`. -/
def SnapNode.flatten (pre : List String) : SnapNode Id → Files Id
  | .mk files dirs => files.map (fun f => (⟨pre, f.1⟩, f.2)) ++ dirs.flatten pre

def SnapDirs.flatten (pre : List String) : SnapDirs Id → Files Id
  | .nil => []
  | .cons name child rest => child.flatten (pre ++ [name]) ++ rest.flatten pre

end

theorem mem_flatten_single {leaf : String} {m : FileMeta Id} {x : Path × FileMeta Id}
    (ds pre : List String) :
    x ∈ (SnapNode.single leaf m ds).flatten pre ↔ x = (⟨pre ++ ds, leaf⟩, m) := by
  induction ds generalizing pre with
  | nil => simp [SnapNode.single, SnapNode.flatten, SnapDirs.flatten]
  | cons d ds ih => simp [SnapNode.single, SnapNode.flatten, SnapDirs.flatten, ih]

mutual

/-- An insert adds its file and nothing else. -/
theorem mem_flatten_insert {leaf : String} {m : FileMeta Id} {x : Path × FileMeta Id} :
    (node : SnapNode Id) → ∀ ds pre, x ∈ (node.insert leaf m ds).flatten pre ↔
      x = (⟨pre ++ ds, leaf⟩, m) ∨ x ∈ node.flatten pre
  | .mk files dirs => by
      intro ds pre
      cases ds with
      | nil =>
          simp only [SnapNode.insert, SnapNode.flatten, List.map_append, List.mem_append,
            List.map_cons, List.map_nil, List.mem_singleton, List.append_nil]
          tauto
      | cons d ds =>
          rw [SnapNode.insert, SnapNode.flatten, SnapNode.flatten, List.mem_append,
            List.mem_append, mem_flatten_insertDirs dirs d ds pre]
          tauto

theorem mem_flatten_insertDirs {leaf : String} {m : FileMeta Id} {x : Path × FileMeta Id} :
    (dirs : SnapDirs Id) → ∀ d ds pre, x ∈ (dirs.insert leaf m d ds).flatten pre ↔
      x = (⟨pre ++ d :: ds, leaf⟩, m) ∨ x ∈ dirs.flatten pre
  | .nil => by
      intro d ds pre
      simp [SnapDirs.insert, SnapDirs.flatten, mem_flatten_single]
  | .cons name child rest => by
      intro d ds pre
      rw [SnapDirs.insert]
      split_ifs with hlt heq
      · rw [SnapDirs.flatten, List.mem_append, mem_flatten_single, List.append_assoc,
          List.singleton_append]
      · subst heq
        rw [SnapDirs.flatten, SnapDirs.flatten, List.mem_append, List.mem_append,
          mem_flatten_insert child ds, List.append_assoc, List.singleton_append, or_assoc]
      · rw [SnapDirs.flatten, SnapDirs.flatten, List.mem_append, List.mem_append,
          mem_flatten_insertDirs rest d ds pre]
        tauto

end

/-- The files of the tree are those it was built of. -/
theorem mem_flatten_buildNode {files : List (SnapFile Id)} {x : Path × FileMeta Id} :
    x ∈ (buildNode files).flatten [] ↔ ∃ f ∈ files, x = (f.path, f.fileMeta) := by
  have hfold : ∀ (files : List (SnapFile Id)) (node : SnapNode Id),
      x ∈ (files.foldl (fun node f =>
        node.insert f.path.leaf f.fileMeta f.path.dirs) node).flatten [] ↔
        x ∈ node.flatten [] ∨ ∃ f ∈ files, x = (f.path, f.fileMeta) := by
    intro files
    induction files with
    | nil => simp
    | cons f files ih =>
        intro node
        rw [List.foldl_cons, ih, mem_flatten_insert]
        simp only [List.nil_append, List.mem_cons, exists_eq_or_imp]
        tauto
  rw [buildNode, hfold]
  simp [SnapNode.flatten, SnapDirs.flatten]

end

section

variable {Id : Type} [Platform Id]

/-! ### What a store loads under the id -/

omit [Platform Id] in
theorem entryLoaded_inj {load : Id → Except (DeriveError Id) (MemNode Id)} {e : TreeEntry Id}
    {entry entry' : MemEntry Id} (h : EntryLoaded load e entry) (h' : EntryLoaded load e entry') :
    entry = entry' :=
  entryLoaded_unique (fun _ _ _ hn hn' => Except.ok.inj (hn.symm.trans hn')) h h'

/-- A file below the entries of one directory. -/
def FileBelow (load : Id → Except (DeriveError Id) (MemNode Id)) (entries : List (TreeEntry Id))
    (pre : List String) (x : Path × FileMeta Id) : Prop :=
  ∃ e ∈ entries, ∃ entry, EntryLoaded load e entry ∧ x ∈ entry.flattenEntry pre e.name

omit [Platform Id] in
/-- Entries that each load, load as one node of their files. -/
theorem loadEntries_all {load : Id → Except (DeriveError Id) (MemNode Id)}
    {entries : List (TreeEntry Id)} (h : ∀ e ∈ entries, ∃ entry, EntryLoaded load e entry) :
    ∃ node, loadEntries load entries = .ok node ∧
      ∀ pre x, x ∈ node.flattenInto pre ↔ FileBelow load entries pre x := by
  induction entries with
  | nil =>
      refine ⟨.empty, rfl, fun pre x => ?_⟩
      simp [MemNode.flattenInto, FileBelow]
  | cons e entries ih =>
      obtain ⟨entry, hentry⟩ := h e List.mem_cons_self
      obtain ⟨rest, hrest, hfiles⟩ := ih fun e he => h e (List.mem_cons_of_mem _ he)
      refine ⟨.entry e.name entry rest,
        loadEntries_cons.mpr ⟨entry, rest, hentry, hrest, rfl⟩, fun pre x => ?_⟩
      rw [MemNode.flattenInto, List.mem_append, hfiles]
      constructor
      · rintro (hx | ⟨e', he', hbelow⟩)
        · exact ⟨e, List.mem_cons_self, entry, hentry, hx⟩
        · exact ⟨e', List.mem_cons_of_mem _ he', hbelow⟩
      · rintro ⟨e', he', entry', hentry', hx⟩
        rcases List.mem_cons.mp he' with rfl | he'
        · exact .inl (entryLoaded_inj hentry hentry' ▸ hx)
        · exact .inr ⟨e', he', entry', hentry', hx⟩

/-- The row a store holds under the id of a frame lists the frame's entries. -/
theorem mem_row_entries {trees : List (TreeRow Id)} (hwf : TreesWf trees) {frame : TreeFrame Id}
    {row : TreeRow Id} (hrow : treeGet trees (Platform.treeId frame) = some row)
    {e : TreeEntry Id} : e ∈ row.entries ↔ e ∈ frame.tree.entries := by
  obtain ⟨hmem, hid⟩ := treeGet_some hrow
  have hframe : row.canonical = frame := by
    apply Platform.treeId_inj
    rw [← (hwf.rows row hmem).named, hid]
  rw [TreeRow.entries, List.mem_insertionSort, hframe]

omit [Platform Id] in
/-- The encoder writes the entries in another order only. -/
theorem encode_entries {entries : List (TreeEntry Id)} {frame : TreeFrame Id}
    (hwritten : ∀ e ∈ entries, e.written = e)
    (h : Tree.encode ⟨entries.insertionSort fun a b => a.name ≤ b.name⟩ = .ok frame)
    {e : TreeEntry Id} : e ∈ frame.tree.entries ↔ e ∈ entries := by
  rw [Tree.encode] at h
  split at h
  · cases h
  cases h
  rw [List.mem_map]
  constructor
  · rintro ⟨e', he', rfl⟩
    rw [List.mem_insertionSort] at he'
    rwa [hwritten e' he']
  · intro he
    exact ⟨e, (List.mem_insertionSort _).mpr he, hwritten e he⟩

/-! ### What the encoder did -/

theorem SnapNode.encode_ok {files : List (String × FileMeta Id)} {dirs : SnapDirs Id}
    {out out' : List (TreeFrame Id)} {id : Id}
    (h : (SnapNode.mk files dirs).encode out = .ok (id, out')) :
    ∃ entries mid frame, dirs.encode out = .ok (entries, mid) ∧
      Tree.encode ⟨(files.map fileEntry ++ entries).insertionSort
        fun a b => a.name ≤ b.name⟩ = .ok frame ∧ id = Platform.treeId frame := by
  rw [SnapNode.encode] at h
  cases hdirs : dirs.encode out with
  | error e =>
      rw [hdirs] at h
      cases h
  | ok answer =>
      obtain ⟨entries, mid⟩ := answer
      rw [hdirs] at h
      dsimp only at h
      cases hframe : Tree.encode ⟨(files.map fileEntry ++ entries).insertionSort
          fun a b => a.name ≤ b.name⟩ with
      | error e =>
          rw [hframe] at h
          cases h
      | ok frame =>
          rw [hframe] at h
          cases h
          exact ⟨entries, mid, frame, rfl, hframe, rfl⟩

theorem SnapDirs.encode_cons {name : String} {child : SnapNode Id} {rest : SnapDirs Id}
    {out out' : List (TreeFrame Id)} {entries : List (TreeEntry Id)}
    (h : (SnapDirs.cons name child rest).encode out = .ok (entries, out')) :
    ∃ id mid others, child.encode out = .ok (id, mid) ∧ rest.encode mid = .ok (others, out') ∧
      entries = ⟨name, .dir, id, child.size, false⟩ :: others := by
  rw [SnapDirs.encode] at h
  cases hchild : child.encode out with
  | error e =>
      rw [hchild] at h
      cases h
  | ok answer =>
      obtain ⟨id, mid⟩ := answer
      rw [hchild] at h
      dsimp only at h
      cases hrest : rest.encode mid with
      | error e =>
          rw [hrest] at h
          cases h
      | ok answer =>
          obtain ⟨others, mid'⟩ := answer
          rw [hrest] at h
          cases h
          exact ⟨id, mid, others, rfl, hrest, rfl⟩

section

variable {trees : List (TreeRow Id)}

mutual

/-- A store with a row for everything below the id of a built node loads the id
as the node's files. -/
theorem SnapNode.loads (hwf : TreesWf trees) : (node : SnapNode Id) →
    ∀ out id out', node.encode out = .ok (id, out') → Complete trees id →
      ∃ mem, MemNode.load trees (some id) = .ok mem ∧
        ∀ pre x, x ∈ mem.flattenInto pre ↔ x ∈ node.flatten pre
  | .mk files dirs => by
      intro out id out' h hcomplete
      obtain ⟨entries, mid, frame, hdirs, hframe, rfl⟩ := SnapNode.encode_ok h
      obtain ⟨row, hrow⟩ := Option.isSome_iff_exists.mp
        (hcomplete _ mem_treeClosure_self)
      have hshape := SnapDirs.shape dirs _ _ _ hdirs
      have hwritten : ∀ e ∈ files.map fileEntry ++ entries, e.written = e := by
        intro e he
        rcases List.mem_append.mp he with he | he
        · obtain ⟨f, -, rfl⟩ := List.mem_map.mp he
          rfl
        · exact (hshape e he).2
      have hentries : ∀ e, e ∈ row.entries ↔ e ∈ files.map fileEntry ++ entries :=
        fun e => (mem_row_entries hwf hrow).trans (encode_entries hwritten hframe)
      -- a directory's closure is part of the node's, so its rows are there too
      have hbelow : ∀ e ∈ entries, Complete trees e.object := by
        intro e he c hc
        refine hcomplete c (treeClosure_trans ?_ hc)
        exact treeClosure_entry mem_treeClosure_self hrow
          ((hentries e).mpr (List.mem_append_right _ he)) (hshape e he).1
      obtain ⟨hloaded, hfiles⟩ := SnapDirs.loads hwf dirs _ _ _ hdirs hbelow
      have hall : ∀ e ∈ row.entries,
          ∃ entry, EntryLoaded (loadNode trees trees.length) e entry := by
        intro e he
        rcases List.mem_append.mp ((hentries e).mp he) with he | he
        · obtain ⟨f, -, rfl⟩ := List.mem_map.mp he
          exact ⟨_, .file rfl⟩
        · exact hloaded e he
      obtain ⟨mem, hmem, hflat⟩ := loadEntries_all hall
      refine ⟨mem, loadNode_fuel (loadNode_succ.mpr ⟨row, hrow, hmem⟩), fun pre x => ?_⟩
      rw [hflat, SnapNode.flatten, List.mem_append, hfiles]
      constructor
      · rintro ⟨e, he, entry, hentry, hx⟩
        rcases List.mem_append.mp ((hentries e).mp he) with he | he
        · obtain ⟨f, hf, rfl⟩ := List.mem_map.mp he
          cases hentry with
          | file =>
              rw [MemEntry.flattenEntry, List.mem_singleton] at hx
              exact .inl (List.mem_map.mpr ⟨f, hf, hx.symm⟩)
          | dir child hkind => cases hkind
        · exact .inr ⟨e, he, entry, hentry, hx⟩
      · rintro (hx | ⟨e, he, entry, hentry, hx⟩)
        · obtain ⟨f, hf, rfl⟩ := List.mem_map.mp hx
          refine ⟨fileEntry f, (hentries _).mpr
            (List.mem_append_left _ (List.mem_map_of_mem hf)), _, .file rfl, ?_⟩
          exact List.mem_singleton.mpr rfl
        · exact ⟨e, (hentries e).mpr (List.mem_append_right _ he), entry, hentry, hx⟩

theorem SnapDirs.loads (hwf : TreesWf trees) : (dirs : SnapDirs Id) →
    ∀ out entries out', dirs.encode out = .ok (entries, out') →
      (∀ e ∈ entries, Complete trees e.object) →
      (∀ e ∈ entries, ∃ entry, EntryLoaded (loadNode trees trees.length) e entry) ∧
        ∀ pre x, x ∈ dirs.flatten pre ↔
          FileBelow (loadNode trees trees.length) entries pre x
  | .nil => by
      intro out entries out' h _
      cases h
      refine ⟨fun e he => absurd he List.not_mem_nil, fun pre x => ?_⟩
      simp [SnapDirs.flatten, FileBelow]
  | .cons name child rest => by
      intro out entries out' h hcomplete
      obtain ⟨id, mid, others, hchild, hrest, rfl⟩ := SnapDirs.encode_cons h
      obtain ⟨mem, hmem, hflat⟩ :=
        SnapNode.loads hwf child _ _ _ hchild (hcomplete _ List.mem_cons_self)
      obtain ⟨hloaded, hfiles⟩ := SnapDirs.loads hwf rest _ _ _ hrest
        fun e he => hcomplete e (List.mem_cons_of_mem _ he)
      have hentry : EntryLoaded (loadNode trees trees.length)
          (⟨name, .dir, id, child.size, false⟩ : TreeEntry Id) (.dir mem) :=
        .dir mem rfl hmem
      refine ⟨fun e he => ?_, fun pre x => ?_⟩
      · rcases List.mem_cons.mp he with rfl | he
        · exact ⟨_, hentry⟩
        · exact hloaded e he
      · rw [SnapDirs.flatten, List.mem_append, hfiles, ← hflat]
        constructor
        · rintro (hx | ⟨e, he, hbelow⟩)
          · exact ⟨_, List.mem_cons_self, _, hentry, hx⟩
          · exact ⟨e, List.mem_cons_of_mem _ he, hbelow⟩
        · rintro ⟨e, he, entry, hloads, hx⟩
          rcases List.mem_cons.mp he with rfl | he
          · rw [entryLoaded_inj hloads hentry] at hx
            exact .inl hx
          · exact .inr ⟨e, he, entry, hloads, hx⟩

/-- The entries of a node's directories are directories. -/
theorem SnapDirs.shape : (dirs : SnapDirs Id) →
    ∀ out entries out', dirs.encode out = .ok (entries, out') →
      ∀ e ∈ entries, e.kind = .dir ∧ e.written = e
  | .nil => by
      intro out entries out' h e he
      cases h
      cases he
  | .cons name child rest => by
      intro out entries out' h e he
      obtain ⟨id, mid, others, hchild, hrest, rfl⟩ := SnapDirs.encode_cons h
      rcases List.mem_cons.mp he with rfl | he
      · exact ⟨rfl, rfl⟩
      · exact SnapDirs.shape rest _ _ _ hrest e he

end

end

/-! ### What the files say of the disk -/

section

variable {sparse : List Path} {disk : Disk} {index : Index Id}

/-- A file the disk has in the cone. -/
structure SnapFile.OnDisk (sparse : List Path) (disk : Disk) (index : Index Id)
    (f : SnapFile Id) : Prop where
  cone : underSparse sparse f.path = true
  file : ∃ raw stat content, disk.Onto (Platform.nfc Id) f.path raw stat content ∧
    f.fileMeta.key = (Platform.blobId content, committedExec index f.path stat content)

theorem readSnapFile_ok {p : Path} {f : SnapFile Id}
    (h : readSnapFile disk (classify disk index) p = .ok f)
    (hpresent : ∃ raw stat content, disk.Onto (Platform.nfc Id) p raw stat content) :
    f.path = p ∧ ∃ raw stat content, disk.Onto (Platform.nfc Id) p raw stat content ∧
      f.fileMeta.key = (Platform.blobId content, execBit stat) := by
  obtain ⟨raw, stat, content, hraw, honto⟩ := @rawOf_lookup_onto _ _ disk index p hpresent
  rw [readSnapFile, hraw, Option.some_or] at h
  dsimp only at h
  rw [honto.1.1.read disk.wellNamed] at h
  cases h
  exact ⟨rfl, raw, stat, content, honto, rfl⟩

omit [Platform Id] in
theorem mem_cleanSnapFiles {report : Report} {f : SnapFile Id} :
    f ∈ cleanSnapFiles sparse index report ↔ ∃ p row, index.get p = some row ∧
      underSparse sparse p = true ∧ p ∉ report.modified ∧ p ∉ report.deleted ∧
      f = ⟨p, rawOf report p, row.blob, row.size, row.exec⟩ := by
  rw [cleanSnapFiles, List.mem_map]
  constructor
  · rintro ⟨e, he, rfl⟩
    obtain ⟨hmem, hkeep⟩ := List.mem_filter.mp he
    simp only [Bool.and_eq_true, Bool.not_eq_true', decide_eq_false_iff_not] at hkeep
    exact ⟨e.1, e.2, Index.get_iff.mpr hmem, hkeep.1.1, hkeep.1.2, hkeep.2, rfl⟩
  · rintro ⟨p, row, hrow, hcone, hmod, hdel, rfl⟩
    exact ⟨(p, row), List.mem_filter.mpr ⟨Index.get_iff.mp hrow, by simp [hcone, hmod, hdel]⟩,
      rfl⟩

/-- The files a snapshot takes are those of the disk in the cone. -/
theorem snapshotFiles_ok (hvisible : ¬ HiddenEdit disk index)
    (hfolds : ∀ p, ¬ disk.Folds (Platform.nfc Id) p) {files : List (SnapFile Id)}
    (h : snapshotFiles sparse disk index (classify disk index) = .ok files) :
    (∀ f ∈ files, f.OnDisk sparse disk index) ∧
      ∀ p raw stat content, underSparse sparse p = true →
        disk.Onto (Platform.nfc Id) p raw stat content → ∃ f ∈ files, f.path = p := by
  have hsound := (classify_sound_iff disk index).mpr hvisible
  rw [snapshotFiles] at h
  split at h
  · cases h
  next read hread =>
  cases h
  obtain ⟨hof, hall⟩ := Lib.mapM_ok hread
  constructor
  · intro f hf
    rcases List.mem_append.mp ((List.mem_insertionSort _).mp hf) with hf | hf
    · -- a clean file is the row's, and the status would list any other content
      obtain ⟨p, row, hrow, hcone, hmod, hdel, rfl⟩ := mem_cleanSnapFiles.mp hf
      obtain ⟨raw, stat, content, honto⟩ :
          ∃ raw stat content, disk.Onto (Platform.nfc Id) p raw stat content := by
        by_contra hgone
        exact hdel ((hsound.deleted p).mpr ⟨⟨row, hrow⟩, hgone⟩)
      have hblob : Platform.blobId content = row.blob := by
        by_contra hedit
        exact hmod ((hsound.modified p).mpr ⟨row, hrow, .inl ⟨raw, stat, content, honto, hedit⟩⟩)
      refine ⟨hcone, raw, stat, content, honto, ?_⟩
      rw [committedExec_clean hrow hblob, hblob]
      rfl
    · obtain ⟨p, hp, hok⟩ := hof f hf
      obtain ⟨hp, hcone⟩ := List.mem_filter.mp hp
      rcases List.mem_append.mp hp with hp | hp
      · obtain ⟨row, hrow, hedit⟩ := (hsound.modified p).mp hp
        obtain ⟨raw, stat, content, honto, hblob⟩ := hedit.resolve_right (hfolds p)
        obtain ⟨rfl, raw', stat', content', honto', hkey⟩ :=
          readSnapFile_ok hok ⟨raw, stat, content, honto⟩
        obtain ⟨-, rfl, rfl⟩ := honto.same (hfolds _) honto'
        refine ⟨hcone, raw', stat, content, honto', hkey.trans ?_⟩
        rw [committedExec_edited hrow hblob]
      · obtain ⟨hfree, hpresent⟩ := (hsound.untracked p).mp hp
        obtain ⟨rfl, raw, stat, content, honto, hkey⟩ := readSnapFile_ok hok hpresent
        refine ⟨hcone, raw, stat, content, honto, hkey.trans ?_⟩
        rw [committedExec_new hfree]
  · intro p raw stat content hcone honto
    by_cases hlisted : p ∈ (classify disk index).modified ++ (classify disk index).untracked
    · obtain ⟨f, hf, hok⟩ := hall p (List.mem_filter.mpr ⟨hlisted, hcone⟩)
      exact ⟨f, (List.mem_insertionSort _).mpr (List.mem_append_right _ hf),
        (readSnapFile_ok hok ⟨raw, stat, content, honto⟩).1⟩
    · rw [List.mem_append, not_or] at hlisted
      cases hrow : index.get p with
      | none =>
          exact absurd ((hsound.untracked p).mpr ⟨hrow, raw, stat, content, honto⟩) hlisted.2
      | some row =>
          have hdel : p ∉ (classify disk index).deleted :=
            fun hdel => ((hsound.deleted p).mp hdel).2 ⟨raw, stat, content, honto⟩
          exact ⟨_, (List.mem_insertionSort _).mpr (List.mem_append_left _
            (mem_cleanSnapFiles.mpr ⟨p, row, hrow, hcone, hlisted.1, hdel, rfl⟩)), rfl⟩

/-- The files of a snapshot: the disk on the cone, and nothing else. -/
structure SnapshotOf (sparse : List Path) (disk : Disk) (index : Index Id)
    (files : FileMap Id) : Prop where
  present : ∀ p raw stat content, underSparse sparse p = true →
    disk.Onto (Platform.nfc Id) p raw stat content →
    ∃ m, files p = some m ∧
      m.key = (Platform.blobId content, committedExec index p stat content)
  absent : ∀ p, (underSparse sparse p = true →
      ¬ ∃ raw stat content, disk.Onto (Platform.nfc Id) p raw stat content) → files p = none

open Server in
/-- A snapshot under the root the client computed, for as long as it has not
expired: whatever creates, lands and passes came in between, its tree loads, and
its files are those the disk had in the cone. -/
theorem snapshot_exact_of_reach {ok : Server Id → Event Id → Prop} {s : Server Id}
    (h : Reach ok s) {f : RepoId} {row : SnapshotRow Id} (hrow : row ∈ s.snapshots f)
    (hlive : s.nowNs < row.expiresNs) {files : List (SnapFile Id)}
    (hfiles : snapshotFiles sparse disk index (classify disk index) = .ok files)
    {frames : List (TreeFrame Id)} (htrees : buildTrees files = .ok (row.treeId, frames))
    (hvisible : ¬ HiddenEdit disk index) (hfolds : ∀ q, ¬ disk.Folds (Platform.nfc Id) q) :
    ∃ node, MemNode.load (s.trees f) (some row.treeId) = .ok node ∧
      SnapshotOf sparse disk index (filesAt node) := by
  have hwf := treesWf_of_reach h f
  have hcomplete := (trees_held_of_reach h).snapshots f row hrow hlive
  obtain ⟨node, hnode, hflat⟩ := SnapNode.loads hwf (buildNode files) _ _ _ htrees hcomplete
  have hheld : ∀ p m, filesAt node p = some m ↔
      ∃ file ∈ files, (p, m) = (file.path, file.fileMeta) := by
    intro p m
    rw [← mem_flattenFiles_iff (load_sorted hwf hnode) (f := (p, m)), flattenFiles, hflat]
    exact mem_flatten_buildNode
  obtain ⟨hof, hall⟩ := snapshotFiles_ok hvisible hfolds hfiles
  refine ⟨node, hnode, fun p raw stat content hcone honto => ?_, fun p habsent => ?_⟩
  · obtain ⟨file, hfile, rfl⟩ := hall p raw stat content hcone honto
    obtain ⟨raw', stat', content', honto', hkey⟩ := (hof file hfile).file
    obtain ⟨-, rfl, rfl⟩ := honto.same (hfolds _) honto'
    exact ⟨file.fileMeta, (hheld _ _).mpr ⟨file, hfile, rfl⟩, hkey⟩
  · refine Option.eq_none_iff_forall_ne_some.mpr fun m hm => ?_
    obtain ⟨file, hfile, heq⟩ := (hheld p m).mp hm
    cases heq
    obtain ⟨raw, stat, content, honto, -⟩ := (hof file hfile).file
    exact habsent (hof file hfile).cone ⟨raw, stat, content, honto⟩

end

end

/-! ### A snapshot of an edit and a new file -/

namespace SnapshotTaken

open Server.StaleTip EditCommitted

/-- The tree of the two files of the disk. -/
def frame : TreeFrame PlainId :=
  ⟨⟨[⟨"a", .file, Platform.blobId [98, 10], 2, false⟩,
    ⟨"n", .file, Platform.blobId [99, 10], 2, false⟩]⟩, by decide⟩

def posted : List (Event PlainId) :=
  imported ++
    [.snapshotPut 1 [5] [98, 10], .snapshotPut 1 [5] [99, 10],
    .snapshotPost 1
      { repoName := "r"
        principal := "ann"
        scope := none
        snapId := [5]
        treeId := Platform.treeId frame
        ttlSecs := none
        trees := [frame] }]

/-- What the client built of its disk. -/
structure Built where
  files : List (SnapFile PlainId)
  frames : List (TreeFrame PlainId)
  gathered : snapshotFiles [] disk index (classify disk index) = .ok files
  trees : buildTrees files = .ok (Platform.treeId frame, frames)

def built : Option Built :=
  match hfiles : snapshotFiles [] disk index (classify disk index) with
  | .error _ => none
  | .ok files =>
  match htrees : buildTrees files with
  | .error _ => none
  | .ok (id, frames) =>
  if h : id = Platform.treeId frame then some ⟨files, frames, hfiles, h ▸ htrees⟩ else none

end SnapshotTaken

open Server.StaleTip EditCommitted SnapshotTaken in
/-- The snapshot of an edited file and a new one. -/
theorem snapshot_exact_of_reach_taken : ∃ s,
    Lib.exec Server.step start posted = some s ∧
      ∃ node, MemNode.load (s.trees 1) (some (Platform.treeId frame)) = .ok node ∧
        SnapshotOf [] disk index (filesAt node) := by
  have hrun : (Lib.exec Server.step start posted).any (fun s => (s.snapshots 1).any fun row =>
      decide (row.treeId = Platform.treeId frame) && decide (s.nowNs < row.expiresNs)) = true := by
    decide +kernel
  have hbuilt : built.isSome = true := by decide +kernel
  obtain ⟨s, hs, hany⟩ := (Option.any_eq_true _ _).mp hrun
  obtain ⟨row, hrow, hboth⟩ := List.any_eq_true.mp hany
  simp only [Bool.and_eq_true, decide_eq_true_eq] at hboth
  obtain ⟨b, -⟩ := Option.isSome_iff_exists.mp hbuilt
  have hstart : Server.Init start := ⟨.dbPerRepo, [(1, "r")], 100, 10, by decide, rfl⟩
  have hreach : Server.Reach (fun _ _ => True) s := Lib.Reach.exec (.start hstart) (by simp) hs
  have htrees : buildTrees b.files = .ok (row.treeId, b.frames) := by rw [hboth.1, b.trees]
  have hexact := snapshot_exact_of_reach hreach hrow hboth.2 b.gathered htrees not_hidden no_folds
  rw [hboth.1] at hexact
  exact ⟨s, hs, hexact⟩

end Naatre.Client
