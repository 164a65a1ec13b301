import Mathlib.Algebra.BigOperators.Group.List.Basic
import Naatre.Server.TreeRoundTrip

/-!
Recorded sizes. A create stores the sizes its request posts, a land and an import
record lengths of contents they have. Where the posted sizes are the
lengths of the blobs, every file of every changeset's tree records its blob's
length, and the totals of the trees are the bytes they hold.
-/

namespace Naatre

section

variable {Id : Type}

/-! ### The files a writer leaves -/

namespace MemNode

theorem get_flattenInto (node : MemNode Id) : ∀ name e dirs, node.get name = some e →
    e.flattenEntry dirs name ⊆ node.flattenInto dirs := by
  induction node with
  | empty => exact fun _ _ _ h => by simp [get] at h
  | entry n e rest _ ih =>
      intro name found dirs h
      rw [get] at h
      split_ifs at h with hname
      · obtain rfl := Option.some.inj h
        subst hname
        exact List.subset_append_left _ _
      · exact List.subset_append_of_subset_right _ (ih name found dirs h)

theorem mem_flattenInto_insert {name : String} {new : MemEntry Id} {dirs : List String}
    {f : Path × FileMeta Id} (node : MemNode Id) : f ∈ (node.insert name new).flattenInto dirs →
    f ∈ node.flattenInto dirs ∨ f ∈ new.flattenEntry dirs name := by
  induction node with
  | empty => exact fun h => (List.mem_append.mp h).symm
  | entry n e rest _ ih =>
      intro h
      rw [insert] at h
      split_ifs at h
      · exact (List.mem_append.mp h).symm.imp_left (List.mem_append_right _)
      · exact (List.mem_append.mp h).symm
      · rcases List.mem_append.mp h with h | h
        · exact .inl (List.mem_append_left _ h)
        · exact (ih h).imp_left (List.mem_append_right _)

theorem erase_flattenInto {name : String} {dirs : List String} (node : MemNode Id) :
    (node.erase name).flattenInto dirs ⊆ node.flattenInto dirs := by
  induction node with
  | empty => exact fun _ h => h
  | entry n e rest _ ih =>
      rw [erase]
      split_ifs
      · exact List.subset_append_right _ _
      · exact List.append_subset.mpr ⟨List.subset_append_left _ _,
          List.subset_append_of_subset_right _ ih⟩

theorem mem_flattenInto_insertIn {leaf : String} {m : FileMeta Id} {ds : List String}
    {f : Path × FileMeta Id} {node node' : MemNode Id} {dirs : List String}
    (h : node.insertIn leaf m.entry ds = some node') (hf : f ∈ node'.flattenInto dirs) :
    f ∈ node.flattenInto dirs ∨ f.2 = m := by
  induction ds generalizing node node' dirs with
  | nil =>
      obtain rfl := Option.some.inj h
      refine (mem_flattenInto_insert node hf).imp_right fun hnew => ?_
      rw [List.mem_singleton.mp hnew]
  | cons d ds ih =>
      obtain ⟨child, child', hget, hchild, rfl⟩ := insertIn_cons h
      rcases mem_flattenInto_insert node hf with hold | hnew
      · exact .inl hold
      · refine (ih hchild hnew).imp_left fun hbelow => ?_
        rcases hget with hget | ⟨-, rfl⟩
        · exact get_flattenInto node d _ dirs hget hbelow
        · exact absurd hbelow List.not_mem_nil

theorem removeIn_flattenInto {leaf : String} {m : FileMeta Id} {ds : List String}
    {node : MemNode Id} {dirs : List String}
    (h : MemEntry.toFile (node.lookupIn ds leaf) = some m) :
    (node.removeIn leaf ds).1.flattenInto dirs ⊆ node.flattenInto dirs := by
  induction ds generalizing node dirs with
  | nil => exact erase_flattenInto node
  | cons d ds ih =>
      obtain ⟨child, hget, hchild⟩ := toFile_lookupIn_cons h
      rw [removeIn_cons hget (removeIn_removed hchild)]
      simp only
      split_ifs
      · exact erase_flattenInto node
      · intro f hf
        rcases mem_flattenInto_insert node hf with hold | hnew
        · exact hold
        · exact get_flattenInto node d _ dirs hget (ih hchild hnew)

end MemNode

/-- A file of a changed tree was there before, or is the change's. -/
theorem ChangeApplied.mem_flattenFiles {node node' : MemNode Id} {c : FileChange Id}
    (h : ChangeApplied node c node') {f : Path × FileMeta Id} (hf : f ∈ flattenFiles node') :
    f ∈ flattenFiles node ∨ c.file = some f.2 := by
  cases h with
  | removed m hop hfile => exact .inl (MemNode.removeIn_flattenInto hfile hf)
  | written m hop hfile hmod node' hinsert =>
      refine (MemNode.mem_flattenInto_insertIn hinsert hf).imp_right fun hm => ?_
      rw [hfile, hm]

theorem mem_flattenFiles_apply {node node' : MemNode Id} {changes : List (FileChange Id)}
    (h : node.apply changes = .ok node') {f : Path × FileMeta Id} (hf : f ∈ flattenFiles node') :
    f ∈ flattenFiles node ∨ ∃ c ∈ changes, c.file = some f.2 := by
  induction changes generalizing node with
  | nil =>
      cases h
      exact .inl hf
  | cons c changes ih =>
      rw [MemNode.apply, List.foldlM_cons, Lib.bind_eq_ok] at h
      obtain ⟨mid, hmid, h⟩ := h
      rcases ih h with hold | ⟨d, hd, hfile⟩
      · refine ((applyChange_ok.mp hmid).2.mem_flattenFiles hold).imp_right fun hfile => ?_
        exact ⟨c, List.mem_cons_self, hfile⟩
      · exact .inr ⟨d, List.mem_cons_of_mem _ hd, hfile⟩

mutual

/-- A flattened file is the one a lookup of its path finds. -/
theorem lookup_of_mem_flattenInto : (node : MemNode Id) → node.Sorted → ∀ dirs,
    ∀ f ∈ node.flattenInto dirs, ∃ ds leaf, f.1 = ⟨dirs ++ ds, leaf⟩ ∧
      MemEntry.toFile (node.lookupIn ds leaf) = some f.2
  | .empty => fun _ _ _ hf => absurd hf List.not_mem_nil
  | .entry name e rest => by
      intro hsorted dirs f hf
      have hrest : rest.get name = none := MemNode.get_of_after rest name hsorted.2.2 hsorted.1
      rcases List.mem_append.mp hf with hf | hf
      · obtain ⟨ds, leaf, hpath, hfile⟩ := lookup_of_mem_flattenEntry e hsorted.2.1 dirs name f hf
        refine ⟨ds, leaf, hpath, ?_⟩
        rw [MemNode.toFile_lookupIn_entry hrest, hfile, Option.some_or]
      · obtain ⟨ds, leaf, hpath, hfile⟩ := lookup_of_mem_flattenInto rest hsorted.2.2 dirs f hf
        refine ⟨ds, leaf, hpath, ?_⟩
        -- the name of the first entry is not one of the rest
        have hne : name ≠ firstOf ds leaf := by
          intro hname
          rw [hname] at hrest
          cases ds with
          | nil =>
              have hnone : rest.get leaf = none := hrest
              rw [MemNode.lookupIn, hnone] at hfile
              cases hfile
          | cons d ds =>
              have hnone : rest.get d = none := hrest
              obtain ⟨child, hchild, -⟩ := MemNode.toFile_lookupIn_cons hfile
              rw [hnone] at hchild
              cases hchild
        rw [MemNode.lookupIn_rest hne, hfile]

theorem lookup_of_mem_flattenEntry : (e : MemEntry Id) → e.Sorted → ∀ dirs name,
    ∀ f ∈ e.flattenEntry dirs name, ∃ ds leaf, f.1 = ⟨dirs ++ ds, leaf⟩ ∧
      MemEntry.toFile ((MemNode.entry name e .empty).lookupIn ds leaf) = some f.2
  | .file blob size exec => by
      intro _ dirs name f hf
      rw [List.mem_singleton.mp hf]
      exact ⟨[], name, by simp, by simp [MemNode.lookupIn, MemNode.get, MemEntry.toFile]⟩
  | .dir child => by
      intro hchild dirs name f hf
      obtain ⟨ds, leaf, hpath, hfile⟩ :=
        lookup_of_mem_flattenInto child hchild (dirs ++ [name]) f hf
      refine ⟨name :: ds, leaf, by simpa using hpath, ?_⟩
      rw [MemNode.lookupIn_cons, MemNode.get, if_pos rfl]
      exact hfile

end

theorem filesAt_of_mem_flattenFiles {node : MemNode Id} (hsorted : node.Sorted)
    {f : Path × FileMeta Id} (hf : f ∈ flattenFiles node) : filesAt node f.1 = some f.2 := by
  obtain ⟨ds, leaf, hpath, hfile⟩ := lookup_of_mem_flattenInto node hsorted [] f hf
  rw [filesAt_eq_lookup hsorted, hpath]
  exact hfile

/-! ### Sized trees -/

variable [Platform Id]

/-- The recorded size is the byte length of the blob. -/
def FileMeta.Sized (m : FileMeta Id) : Prop :=
  ∃ content : Bytes, m.blob = Platform.blobId content ∧ m.size = content.length

/-- A blob has one size. -/
theorem FileMeta.Sized.eq_of_blob {m n : FileMeta Id} (hm : m.Sized) (hn : n.Sized)
    (hblob : m.blob = n.blob) (hexec : m.exec = n.exec) : m = n := by
  obtain ⟨content, hmBlob, hmSize⟩ := hm
  obtain ⟨content', hnBlob, hnSize⟩ := hn
  obtain rfl : content = content' :=
    Platform.blobId_inj (hmBlob.symm.trans (hblob.trans hnBlob))
  cases m
  cases n
  simp_all

/-- Every file of the tree records its blob's length. -/
def MemNode.Sized (node : MemNode Id) : Prop := ∀ f ∈ flattenFiles node, f.2.Sized

/-- Every file the changes write is posted with its blob's length. -/
def SizedChanges (changes : List (FileChange Id)) : Prop :=
  ∀ c ∈ changes, ∀ m, c.file = some m → m.Sized

theorem MemNode.Sized.apply {node node' : MemNode Id} {changes : List (FileChange Id)}
    (hnode : node.Sized) (hchanges : SizedChanges changes)
    (h : node.apply changes = .ok node') : node'.Sized := by
  intro f hf
  rcases mem_flattenFiles_apply h hf with hold | ⟨c, hc, hfile⟩
  · exact hnode f hold
  · exact hchanges c hc _ hfile

theorem MemNode.Sized.filesAt {node : MemNode Id} (hnode : node.Sized) {p : Path} {m : FileMeta Id}
    (h : filesAt node p = some m) : m.Sized :=
  hnode (p, m) (Lib.mem_of_lookup h)

/-- A merge takes its files over, or measures them. -/
theorem NodeMerge.sized {cmd : LandCommand Id} {st : LandState Id} {node : Id}
    (m : NodeMerge cmd st node) (htree : m.input.tree.Sized) (htip : st.tipTree.Sized) :
    m.merged.node.Sized := by
  intro f hf
  have hfile := filesAt_of_mem_flattenFiles m.merged_full.1 hf
  have hmerge := (m.threeWay fun _ _ h => h).1 f.1
  rw [hfile] at hmerge
  generalize hmeta : some f.2 = found at hmerge
  cases hmerge with
  | agreed => exact htip.filesAt hmeta.symm
  | theirs => exact htree.filesAt hmeta.symm
  | ours => exact htip.filesAt hmeta.symm
  | computed bytes inputs hc =>
      rw [Option.some.inj hmeta]
      exact ⟨bytes, rfl, rfl⟩

mutual

theorem buildTreeInto_sized {nowNs : ℕ} : (tree : GitTree) → ∀ (cx : RepoCx Id) node built cx',
    buildTreeInto nowNs cx node tree = .ok (built, cx') → ∀ dirs, ∀ f ∈ built.flattenInto dirs,
      f ∈ node.flattenInto dirs ∨ f.2.Sized
  | .empty => by
      intro cx node built cx' h dirs f hf
      simp only [buildTreeInto, Except.ok.injEq, Prod.mk.injEq] at h
      exact .inl (h.1 ▸ hf)
  | .entry name e rest => by
      intro cx node built cx' h dirs f hf
      rw [buildTreeInto, Lib.bind_eq_ok] at h
      obtain ⟨⟨entry, mid⟩, hentry, h⟩ := h
      rcases buildTreeInto_sized rest _ _ _ _ h dirs f hf with hmem | hsized
      · exact (MemNode.mem_flattenInto_insert node hmem).imp_right
          (buildTreeEntry_sized e _ _ _ hentry dirs name.text f)
      · exact .inr hsized

theorem buildTreeEntry_sized {nowNs : ℕ} : (e : GitEntry) → ∀ (cx : RepoCx Id) built cx',
    buildTreeEntry nowNs cx e = .ok (built, cx') → ∀ dirs name, ∀ f ∈ built.flattenEntry dirs name,
      f.2.Sized
  | .dir _ tree => by
      intro cx built cx' h dirs name f hf
      rw [buildTreeEntry, Lib.bind_eq_ok] at h
      obtain ⟨⟨node, mid⟩, hnode, h⟩ := h
      simp only [pure, Except.pure, Except.ok.injEq, Prod.mk.injEq] at h
      rw [← h.1] at hf
      exact (buildTreeInto_sized tree _ _ _ _ hnode (dirs ++ [name]) f hf).resolve_left
        List.not_mem_nil
  | .blob mode oid content => by
      intro cx built cx' h dirs name f hf
      rw [buildTreeEntry] at h
      split_ifs at h with hmode
      rw [Lib.bind_eq_ok] at h
      obtain ⟨mid, -, h⟩ := h
      simp only [pure, Except.pure, Except.ok.injEq, Prod.mk.injEq] at h
      rw [← h.1] at hf
      rw [List.mem_singleton.mp hf]
      exact ⟨content, rfl, rfl⟩

end

/-- Every writer keeps a tree sized, where creates post true sizes. -/
theorem sizedProperty : TreeProperty (@MemNode.Sized Id _) SizedChanges (fun _ => True) where
  empty := fun _ hf => absurd hf List.not_mem_nil
  apply := fun hnode hchanges happly => hnode.apply hchanges happly
  build := fun _ hbuild f hf =>
    (buildTreeInto_sized _ _ _ _ _ hbuild [] f hf).resolve_left List.not_mem_nil
  merge := fun m htree _ htip => m.sized htree htip

/-! ### Totals -/

mutual

/-- `collect` with sums that do not wrap: the tree entries of a node, its
recursive size and the rows of the directories below it. -/
def MemNode.exactEntries :
    MemNode Id → Except (DeriveError Id) (List (TreeEntry Id) × ℕ × List (TreeRow Id))
  | .empty => .ok ([], 0, [])
  | .entry name e rest => do
      let (entry, size, rows) ← e.exactEntry name
      let (entries, total, rows') ← rest.exactEntries
      pure (entry :: entries, size + total, rows ++ rows')

def MemEntry.exactEntry (name : String) :
    MemEntry Id → Except (DeriveError Id) (TreeEntry Id × ℕ × List (TreeRow Id))
  | .file blob size exec => .ok (⟨name, .file, blob, size, exec⟩, size, [])
  | .dir child => do
      let (entries, total, rows) ← child.exactEntries
      let row ← treeRowOf entries
      pure (⟨name, .dir, row.id, total, false⟩, total, rows ++ [row])

end

def MemNode.collectExact (node : MemNode Id) :
    Except (DeriveError Id) (Id × ℕ × List (TreeRow Id)) := do
  let (entries, total, rows) ← node.exactEntries
  let row ← treeRowOf entries
  pure (row.id, total, rows ++ [row])

omit [Platform Id] in
/-- The recorded sizes of the files together. -/
def sizeSum (files : Files Id) : ℕ := (files.map fun f => f.2.size).sum

omit [Platform Id] in
theorem sizeSum_append (a b : Files Id) : sizeSum (a ++ b) = sizeSum a + sizeSum b := by
  rw [sizeSum, List.map_append, List.sum_append]
  rfl

mutual

theorem exactEntries_total : (node : MemNode Id) → ∀ dirs entries total rows,
    node.exactEntries = .ok (entries, total, rows) → total = sizeSum (node.flattenInto dirs)
  | .empty => by
      intro dirs entries total rows h
      simp only [MemNode.exactEntries, Except.ok.injEq, Prod.mk.injEq] at h
      exact h.2.1.symm
  | .entry name e rest => by
      intro dirs entries total rows h
      rw [MemNode.exactEntries, Lib.bind_eq_ok] at h
      obtain ⟨⟨first, firstSize, firstRows⟩, hfirst, h⟩ := h
      rw [Lib.bind_eq_ok] at h
      obtain ⟨⟨others, otherSize, otherRows⟩, hothers, h⟩ := h
      simp only [pure, Except.pure, Except.ok.injEq, Prod.mk.injEq] at h
      rw [MemNode.flattenInto, sizeSum_append, ← exactEntry_total e dirs name _ _ _ hfirst,
        ← exactEntries_total rest dirs _ _ _ hothers]
      exact h.2.1.symm

theorem exactEntry_total : (e : MemEntry Id) → ∀ dirs name entry size rows,
    e.exactEntry name = .ok (entry, size, rows) → size = sizeSum (e.flattenEntry dirs name)
  | .file blob fileSize exec => by
      intro dirs name entry size rows h
      simp only [MemEntry.exactEntry, Except.ok.injEq, Prod.mk.injEq] at h
      simp [MemEntry.flattenEntry, sizeSum, h.2.1]
  | .dir child => by
      intro dirs name entry size rows h
      rw [MemEntry.exactEntry, Lib.bind_eq_ok] at h
      obtain ⟨⟨entries, total, childRows⟩, hchild, h⟩ := h
      rw [Lib.bind_eq_ok] at h
      obtain ⟨row, -, h⟩ := h
      simp only [pure, Except.pure, Except.ok.injEq, Prod.mk.injEq] at h
      rw [MemEntry.flattenEntry, ← exactEntries_total child (dirs ++ [name]) _ _ _ hchild]
      exact h.2.1.symm

end

mutual

/-- No sum of a node wraps whose files stay below the limit together. -/
theorem collectEntries_exact : (node : MemNode Id) → ∀ dirs,
    sizeSum (node.flattenInto dirs) < 2 ^ 64 → node.collectEntries = node.exactEntries
  | .empty => fun _ _ => rfl
  | .entry name e rest => by
      intro dirs hsum
      rw [MemNode.flattenInto, sizeSum_append] at hsum
      rw [MemNode.collectEntries, MemNode.exactEntries,
        collectEntry_exact e dirs name (by omega), collectEntries_exact rest dirs (by omega)]
      cases hfirst : e.exactEntry name with
      | error err => rfl
      | ok first =>
          cases hothers : rest.exactEntries with
          | error err => rfl
          | ok others =>
              have hsize := exactEntry_total e dirs name _ _ _ hfirst
              have htotal := exactEntries_total rest dirs _ _ _ hothers
              simp only [bind, Except.bind]
              rw [Nat.mod_eq_of_lt (by omega)]

theorem collectEntry_exact : (e : MemEntry Id) → ∀ dirs name,
    sizeSum (e.flattenEntry dirs name) < 2 ^ 64 → e.collectEntry name = e.exactEntry name
  | .file _ _ _ => fun _ _ _ => rfl
  | .dir child => by
      intro dirs name hsum
      rw [MemEntry.collectEntry, MemEntry.exactEntry,
        collectEntries_exact child (dirs ++ [name]) hsum]

end

theorem collect_exact {node : MemNode Id} (hsum : sizeSum (flattenFiles node) < 2 ^ 64) :
    node.collect = node.collectExact := by
  rw [MemNode.collect, MemNode.collectExact, collectEntries_exact node [] hsum]

/-- The bytes the files of a tree hold together, each blob read from `contents`. -/
def byteSum (contents : Id → Bytes) (files : Files Id) : ℕ :=
  (files.map fun f => (contents f.2.blob).length).sum

/-- The recorded sizes of a sized tree are its bytes. -/
theorem MemNode.Sized.sum_eq {node : MemNode Id} (hnode : node.Sized) {contents : Id → Bytes}
    (hcontents : ∀ bytes, contents (Platform.blobId bytes) = bytes) :
    sizeSum (flattenFiles node) = byteSum contents (flattenFiles node) := by
  rw [sizeSum, byteSum]
  congr 1
  refine List.map_congr_left fun f hf => ?_
  obtain ⟨content, hblob, hsize⟩ := hnode f hf
  rw [hsize, hblob, hcontents]

/-! ### The system -/

namespace Server

/-- The creates post true sizes. -/
def SizedCreates : Event Id → Prop
  | .createLookup _ req => SizedChanges req.changes
  | _ => True

theorem SizedCreates.brings {e : Event Id} (h : SizedCreates e) :
    Brings SizedChanges (fun _ => True) e := by
  cases e with
  | createLookup r req => exact h
  | importGit r git opts head stop => exact fun _ _ => trivial
  | _ => trivial

/-- A tree that changes with true sizes made of a changeset's tree. -/
def DerivedSized (s : Server Id) (r : RepoId) (node : MemNode Id) : Prop :=
  ∃ root parent changes, s.RootOf r root ∧ MemNode.load (s.cx r).trees root = .ok parent ∧
    SizedChanges changes ∧ parent.apply changes = .ok node

/-- In every run whose creates post the lengths of their blobs, the trees of the
changesets, and those that such creates make of them, record each file's length:
files of one blob and exec bit are equal, and no sum wraps in a tree that holds
less than 2^64 bytes. -/
theorem sizes_of_reach {ok : Server Id → Event Id → Prop}
    (hok : ∀ s e, ok s e → SizedCreates e) {s : Server Id} (h : Reach ok s) {r : RepoId}
    {node : MemNode Id} (hnode : s.DerivedSized r node) :
    node.Sized ∧
      (∀ r' node', s.DerivedSized r' node' → ∀ f ∈ flattenFiles node, ∀ g ∈ flattenFiles node',
        f.2.blob = g.2.blob → f.2.exec = g.2.exec → f.2 = g.2) ∧
      ∀ contents : Id → Bytes, (∀ bytes, contents (Platform.blobId bytes) = bytes) →
        byteSum contents (flattenFiles node) < 2 ^ 64 → node.collect = node.collectExact := by
  have hinv := rootsInv_of_reach sizedProperty (fun s e he => (hok s e he).brings) h
  have hsized : ∀ {r node}, s.DerivedSized r node → node.Sized := by
    rintro r node ⟨root, parent, changes, hroot, hload, hchanges, happly⟩
    exact (hroot.load sizedProperty hinv (treesWf_of_reach h) hload).apply hchanges happly
  refine ⟨hsized hnode, fun r' node' hnode' f hf g hg hblob hexec => ?_,
    fun contents hcontents hbytes => ?_⟩
  · exact (hsized hnode f hf).eq_of_blob (hsized hnode' g hg) hblob hexec
  · rw [← (hsized hnode).sum_eq hcontents] at hbytes
    exact collect_exact hbytes

end Server

end

/-! ### Sizes as posted -/

namespace SizeIntegrity

open TreeRoundTrip

/-- Two files of one text, their sizes as given. -/
def changes (m n : ℕ) : List (FileChange PlainId) :=
  [⟨⟨[], "a"⟩, .add, some (Platform.blobId [97, 10]), some m, some false⟩,
    ⟨⟨[], "b"⟩, .add, some (Platform.blobId [97, 10]), some n, some false⟩]

/-- The text's upload, and the create of both. -/
def created (m n : ℕ) : List (Event PlainId) :=
  [.putBytes 1 [97, 10], .record 1 [97, 10],
    .createLookup 1
      { repoName := "r"
        principal := "ann"
        scope := none
        parents := []
        author := "ann"
        message := "two"
        timestampNs := some 7
        changes := changes m n },
    .createWrite 0]

theorem sizedChanges : SizedChanges (changes 2 2) := by
  intro c hc m hm
  simp only [changes, List.mem_cons, List.not_mem_nil, or_false] at hc
  rcases hc with rfl | rfl <;> exact ⟨[97, 10], by cases hm; rfl, by cases hm; rfl⟩

theorem derivedSized_of_treeOf {s : Server PlainId} {n : ℕ} {node : MemNode PlainId}
    (h : treeOf s n = some node) : s.DerivedSized 1 node := by
  obtain ⟨root, hroot, hload⟩ := load_of_treeOf h
  exact ⟨root, node, [], hroot, hload, fun c hc => absurd hc List.not_mem_nil, rfl⟩

end SizeIntegrity

namespace Server

open SizeIntegrity TreeRoundTrip in
/-- A create with true sizes: its tree records them, and its total is its bytes. -/
theorem sizes_of_reach_created : ∃ s node, Lib.exec step start (created 2 2) = some s ∧
    treeOf s 0 = some node ∧ flattenFiles node ≠ [] ∧ node.Sized ∧
    node.collect = node.collectExact := by
  have hrun : (Lib.exec step start (created 2 2)).any (fun s => (treeOf s 0).any fun node =>
      decide (flattenFiles node ≠ []) && decide (sizeSum (flattenFiles node) < 2 ^ 64)) = true := by
    decide +kernel
  obtain ⟨s, hs, hsome⟩ := (Option.any_eq_true _ _).mp hrun
  obtain ⟨node, hnode, hfiles⟩ := (Option.any_eq_true _ _).mp hsome
  simp only [Bool.and_eq_true, decide_eq_true_eq] at hfiles
  have hstart : Init start := ⟨.singleDb, [(1, "r")], 100, 10, by decide, rfl⟩
  have hreach : Reach (fun _ e => SizedCreates e) s := by
    refine Lib.Reach.exec (.start hstart) (fun _ e he => ?_) hs
    simp only [created, List.mem_cons, List.not_mem_nil, or_false] at he
    rcases he with rfl | rfl | rfl | rfl
    · trivial
    · trivial
    · exact sizedChanges
    · trivial
  obtain ⟨hsized, -, htotal⟩ :=
    sizes_of_reach (fun _ _ he => he) hreach (derivedSized_of_treeOf hnode)
  have hcontents : ∀ bytes : Bytes,
      Function.invFun Platform.blobId (Platform.blobId bytes : PlainId) = bytes :=
    Function.leftInverse_invFun Platform.blobId_inj
  exact ⟨s, node, hs, hnode, hfiles.1, hsized,
    htotal _ hcontents (by rw [← hsized.sum_eq hcontents]; exact hfiles.2)⟩

open SizeIntegrity TreeRoundTrip in
/-- Posted sizes are stored as they come: a text of two bytes is recorded under
two other sizes, its files differ, and their sum wraps. -/
theorem posted_sizes_stored : ∃ s node, Lib.exec step start (created 5 (2 ^ 64 - 1)) = some s ∧
    treeOf s 0 = some node ∧ ¬ node.Sized ∧
    (∃ f ∈ flattenFiles node, ∃ g ∈ flattenFiles node,
      f.2.blob = g.2.blob ∧ f.2.exec = g.2.exec ∧ f.2 ≠ g.2) ∧
    node.collect ≠ node.collectExact := by
  have hrun : (Lib.exec step start (created 5 (2 ^ 64 - 1))).any (fun s =>
      (treeOf s 0).any fun node =>
        decide (flattenFiles node =
          [(⟨[], "a"⟩, ⟨Platform.blobId [97, 10], 5, false⟩),
            (⟨[], "b"⟩, ⟨Platform.blobId [97, 10], 2 ^ 64 - 1, false⟩)]) &&
        decide (node.collect.toOption.map (fun c => c.2.1) ≠
          node.collectExact.toOption.map (fun c => c.2.1))) = true := by
    decide +kernel
  obtain ⟨s, hs, hsome⟩ := (Option.any_eq_true _ _).mp hrun
  obtain ⟨node, hnode, hfiles⟩ := (Option.any_eq_true _ _).mp hsome
  simp only [Bool.and_eq_true, decide_eq_true_eq] at hfiles
  obtain ⟨hfiles, hsum⟩ := hfiles
  refine ⟨s, node, hs, hnode, fun hsized => ?_, ?_, fun hsame => hsum (by rw [hsame])⟩
  · obtain ⟨content, hblob, hsize⟩ := hsized (⟨[], "a"⟩, ⟨Platform.blobId [97, 10], 5, false⟩)
      (by rw [hfiles]; exact List.mem_cons_self)
    obtain rfl := Platform.blobId_inj hblob
    cases hsize
  · rw [hfiles]
    exact ⟨_, List.mem_cons_self, _, List.mem_cons_of_mem _ List.mem_cons_self, rfl, rfl, by decide⟩

end Server

end Naatre
