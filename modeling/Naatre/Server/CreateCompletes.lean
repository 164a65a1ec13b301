import Naatre.Server.ImportCompletes
import Naatre.Server.TreeApply

/-!
When a create goes through: its checks on a list of valid paths in order, its
write where no tombstone and no missing blob stands in the way, and the change
list that only writes files into directories that are there.
-/

namespace Naatre

section

variable {Id : Type} [Platform Id]

/-! ### The checks -/

/-- The changeset of a request. -/
def CreateRequest.changeset (req : CreateRequest Id) (repoId nowNs : ℕ) : Changeset Id where
  repoId := repoId
  parents := req.parents
  author := req.author
  message := req.message
  timestampNs := req.timestampNs.getD nowNs
  changes := req.changes
  conflicts := []

/-- No two paths of one directory have names that fold alike. -/
def FoldsApart (lower : String → String) (paths : List Path) : Prop :=
  paths.Pairwise fun p q => (p.dirs, lower p.leaf) ≠ (q.dirs, lower q.leaf)

theorem checkCaseFold_of_apart {lower : String → String} {paths : List Path}
    {seen : List ((List String × String) × Path)}
    (hseen : ∀ p ∈ paths, seen.lookup (p.dirs, lower p.leaf) = none)
    (hapart : FoldsApart lower paths) : checkCaseFold lower paths seen = .ok () := by
  induction paths generalizing seen with
  | nil => rfl
  | cons p ps ih =>
      obtain ⟨hfirst, hrest⟩ := List.pairwise_cons.mp hapart
      rw [checkCaseFold, hseen p List.mem_cons_self]
      refine ih (fun q hq => ?_) hrest
      rw [List.lookup_cons, beq_false_of_ne (hfirst q hq).symm]
      exact hseen q (List.mem_cons_of_mem _ hq)

theorem checkCaseFoldDuplicates_iff {lower : String → String} {paths : List Path} :
    checkCaseFoldDuplicates lower paths = .ok () ↔ FoldsApart lower paths :=
  ⟨checkCaseFoldDuplicates_ok, checkCaseFold_of_apart fun _ _ => rfl⟩

theorem duplicatePath_none {paths seen : List Path} (hnodup : paths.Nodup)
    (hseen : ∀ p ∈ paths, p ∉ seen) : duplicatePath paths seen = none := by
  induction paths generalizing seen with
  | nil => rfl
  | cons p ps ih =>
      obtain ⟨hfresh, hnodup⟩ := List.nodup_cons.mp hnodup
      rw [duplicatePath, if_neg (hseen p List.mem_cons_self)]
      refine ih hnodup fun q hq hmem => ?_
      rcases List.mem_cons.mp hmem with rfl | hmem
      · exact hfresh hq
      · exact hseen q (List.mem_cons_of_mem _ hq) hmem

theorem validatePaths_ok {nfc : String → String} {paths : List Path}
    (h : ∀ p ∈ paths, p.validate nfc = .ok ()) : validatePaths nfc paths = .ok () := by
  induction paths with
  | nil => rfl
  | cons p ps ih =>
      rw [validatePaths, h p List.mem_cons_self]
      exact ih fun q hq => h q (List.mem_cons_of_mem _ hq)

/-- What the caller of a create keeps to, whatever the files are. -/
structure CreateRequest.Formed (req : CreateRequest Id) : Prop where
  payload : ∀ c ∈ req.changes, c.payloadOk = true
  ascend : pathsAscend (req.changes.map fun c => c.path) = true
  valid : ∀ c ∈ req.changes, c.path.validate (Platform.nfc Id) = .ok ()
  author : checkText req.author = .ok ()
  message : checkText req.message = .ok ()
  parents : req.parents.length ≤ maxParents
  nonempty : req.changes ≠ []

theorem pathsAscend_pairwise {paths : List Path} (h : pathsAscend paths = true) :
    paths.Pairwise fun p q => p.text < q.text := by
  have htrans : IsTrans Path fun p q => p.text < q.text := ⟨fun _ _ _ hab hbc => lt_trans hab hbc⟩
  exact List.isChain_iff_pairwise.mp (of_decide_eq_true h)

theorem CreateRequest.Formed.encodeError {req : CreateRequest Id} (h : req.Formed)
    (repoId nowNs : ℕ) : (req.changeset repoId nowNs).encodeError (Platform.nfc Id) =
      if maxObjectBytes < (req.changeset repoId nowNs).encodedLen then some .encodeTooLarge
      else none := by
  have hascend : pathsAscend ((req.changeset repoId nowNs).changes.map fun c => c.path) = true :=
    h.ascend
  have hpayload : (req.changeset repoId nowNs).changes.all (fun c => c.payloadOk) = true :=
    List.all_eq_true.mpr h.payload
  have hconflicts : validateConflicts (Platform.nfc Id)
      (req.changeset repoId nowNs).conflicts = .ok () := rfl
  have hparents : ¬maxParents < (req.changeset repoId nowNs).parents.length :=
    not_lt.mpr h.parents
  rw [Changeset.encodeError, if_neg hparents, hascend, hconflicts, hpayload]
  simp only [Bool.not_true, Bool.false_eq_true, if_false]

/-- A formed request is prepared exactly when its paths fold apart and the caps
are kept. -/
theorem createPrepare_iff {req : CreateRequest Id} (h : req.Formed) (repoId nowNs : ℕ)
    (metas : ParentMetas Id) :
    (∃ p, createPrepare repoId nowNs req metas = .ok p) ↔
      FoldsApart (Platform.lower Id) (req.changes.map fun c => c.path) ∧
        req.changes.length ≤ maxEntries ∧
          (req.changeset repoId nowNs).encodedLen ≤ maxObjectBytes := by
  have hshape : shapeError req.changes = none := by
    have hnone : req.changes.find? (fun c => !c.payloadOk) = none := by
      rw [List.find?_eq_none]
      intro c hc
      rw [h.payload c hc]
      exact Bool.false_ne_true
    rw [shapeError, hnone]
    rfl
  have hduplicate : duplicatePath (req.changes.map fun c => c.path) [] = none := by
    refine duplicatePath_none ?_ fun p _ => List.not_mem_nil
    refine (pathsAscend_pairwise h.ascend).imp fun hlt heq => ?_
    rw [heq] at hlt
    exact lt_irrefl _ hlt
  have hpaths : validatePaths (Platform.nfc Id) (req.changes.map fun c => c.path) = .ok () := by
    refine validatePaths_ok fun p hp => ?_
    obtain ⟨c, hc, rfl⟩ := List.mem_map.mp hp
    exact h.valid c hc
  have hvalidate : (req.changeset repoId nowNs).validate = .ok () ↔
      FoldsApart (Platform.lower Id) (req.changes.map fun c => c.path) ∧
        req.changes.length ≤ maxEntries := by
    rw [← checkCaseFoldDuplicates_iff]
    unfold Changeset.validate
    simp only [CreateRequest.changeset, hpaths, h.author, h.message, if_neg (not_lt.mpr h.parents),
      h.nonempty, false_and, if_false]
    cases checkCaseFoldDuplicates (Platform.lower Id) (req.changes.map fun c => c.path) with
    | error e => simp
    | ok u =>
        by_cases hcount : maxEntries < req.changes.length
        · simp [hcount]
        · have hnone : validateConflicts (Platform.nfc Id) ([] : List (ConflictRep Id)) = .ok () := rfl
          simp [hcount, not_lt.mp hcount, hnone]
  have hencode : (∃ canonical, (req.changeset repoId nowNs).encode = .ok canonical) ↔
      (req.changeset repoId nowNs).encodedLen ≤ maxObjectBytes := by
    have herror := h.encodeError repoId nowNs
    unfold Changeset.encode
    split
    next e he =>
      rw [herror] at he
      split_ifs at he with hlarge
      simp [hlarge]
    next hnone =>
      rw [herror] at hnone
      split_ifs at hnone with hlarge
      simp [not_lt.mp hlarge]
  have hprepare : (∃ p, createPrepare repoId nowNs req metas = .ok p) ↔
      (req.changeset repoId nowNs).validate = .ok () ∧
        ∃ canonical, (req.changeset repoId nowNs).encode = .ok canonical := by
    unfold createPrepare
    simp only [hshape, hduplicate, h.ascend, Bool.not_true, Bool.false_eq_true, if_false,
      CreateRequest.changeset]
    split
    next e he => simp [he]
    next hok =>
      split
      next he => simp [he]
      next e _ he => simp [he]
      next canonical he => exact ⟨fun _ => ⟨hok, canonical, he⟩, fun _ => ⟨_, rfl⟩⟩
  rw [hprepare, hvalidate, hencode, and_assoc]

/-! ### The write -/

omit [Platform Id] in
theorem apply_sorted {node node' : MemNode Id} {changes : List (FileChange Id)}
    (hsorted : node.Sorted) (h : node.apply changes = .ok node') : node'.Sorted := by
  refine Lib.foldlM_induct (P := fun _ node => MemNode.Sorted node) h hsorted ?_
  intro done c rest mid mid' _ ih hc
  cases (applyChange_ok.mp hc).2 with
  | removed m hop hfile => exact MemNode.removeIn_sorted ih hfile
  | written m hop hfile hmod node' hinsert =>
      exact MemNode.insertIn_sorted (show m.entry.Sorted from trivial) ih hinsert

/-- Nothing but the tree itself stands in the way of a write. -/
structure PreparedCreate.Clear (cx : RepoCx Id) (p : PreparedCreate Id) : Prop where
  cs : redactionActive cx.db p.csId = false
  blobs : redactionsActiveAmong cx.db (changeBlobs p.canonical.cs.changes) = []
  present : missingBlobs cx (changeBlobs p.canonical.cs.changes) = []

theorem Persisted.answer {cx cx' : RepoCx Id} {p : PreparedCreate Id} (w : Persisted cx p cx') :
    persist cx p = .ok (⟨p.csId, w.rootTreeId, p.generation⟩, cx') := by
  unfold persist
  simp only [w.cs_free, w.blobs_free, w.blobs_present, w.parent_ok, w.apply_ok, w.collect_ok,
    w.insert_ok, Bool.false_eq_true, ne_eq, not_true_eq_false, if_false]

theorem persist_iff {cx : RepoCx Id} {p : PreparedCreate Id} (hclear : p.Clear cx)
    {parent : MemNode Id} (hload : MemNode.load cx.trees p.parentRoot = .ok parent)
    (hsorted : parent.Sorted) :
    (∃ done cx', persist cx p = .ok (done, cx')) ↔
      changesetGet cx.db p.csId = none ∧
        ∃ node, parent.apply p.canonical.cs.changes = .ok node ∧ node.Fits := by
  constructor
  · rintro ⟨done, cx', h⟩
    obtain ⟨w⟩ := persist_ok h
    have hparent := w.parent_ok
    rw [hload] at hparent
    cases hparent
    have hnode := apply_sorted hsorted w.apply_ok
    exact ⟨(changesetInsertRows_some w.insert_ok).1, w.node, w.apply_ok,
      (collect_iff hnode).mp ⟨_, w.collect_ok⟩⟩
  · rintro ⟨hfresh, node, happly, hfits⟩
    obtain ⟨⟨root, size, rows⟩, hcollect⟩ := (collect_iff (apply_sorted hsorted happly)).mpr hfits
    obtain ⟨cx', hinsert⟩ : ∃ cx', changesetInsertRows cx
        { id := p.csId
          canonical := p.canonical
          generation := p.generation
          principal := p.principal
          rootTreeId := root
          blobs := changeBlobs p.canonical.cs.changes
          trees := rows
          gitMapOid := none } = some cx' := by
      rw [changesetInsertRows, hfresh]
      exact ⟨_, rfl⟩
    let w : Persisted cx p cx' := ⟨parent, node, root, size, rows, hclear.cs, hclear.blobs,
      hclear.present, hload, happly, hcollect, hinsert⟩
    exact ⟨_, cx', w.answer⟩

end

/-! ### Files into directories that are there -/

section

variable {Id : Type}

/-- A file put at a path, where no file stands above it. -/
def MemNode.put (node : MemNode Id) (p : Path) (m : FileMeta Id) : MemNode Id :=
  (node.insertIn p.leaf m.entry p.dirs).getD node

/-- The tree with files put in it one after the other. -/
def MemNode.overlaid (node : MemNode Id) (files : List (Path × FileMeta Id)) : MemNode Id :=
  files.foldl (fun node f => node.put f.1 f.2) node

/-- A change that writes a file: over one, or where nothing stands, in a
directory that is there. -/
structure FileChange.Writes (orig : MemNode Id) (c : FileChange Id) (m : FileMeta Id) : Prop where
  depth : c.path.components.length ≤ maxPathComponents
  file : c.file = some m
  op : c.op ≠ .del
  placed : c.op = .mod → (MemEntry.toFile (orig.lookup c.path)).isSome
  free : c.op = .add → orig.lookup c.path = none
  above : ∀ ds d, ds ++ [d] <+: c.path.dirs → MemEntry.IsDir (orig.lookupIn ds d)

theorem FileChange.Writes.not_dir {orig : MemNode Id} {c : FileChange Id} {m : FileMeta Id}
    (h : c.Writes orig m) : ¬MemEntry.IsDir (orig.lookup c.path) := by
  intro hdir
  cases hop : c.op with
  | del => exact h.op hop
  | mod =>
      have hfile := h.placed hop
      rw [MemEntry.toFile_of_isDir hdir] at hfile
      cases hfile
  | add =>
      obtain ⟨child, hchild⟩ := hdir
      rw [h.free hop] at hchild
      cases hchild

theorem applyChange_put {node node' : MemNode Id} {c : FileChange Id} {m : FileMeta Id}
    (hfile : c.file = some m) (hop : c.op ≠ .del) (h : node.applyChange c = .ok node') :
    node' = node.put c.path m := by
  cases (applyChange_ok.mp h).2 with
  | removed _ hdel _ => exact absurd hdel hop
  | written m' _ hfile' _ node' hinsert =>
      rw [hfile] at hfile'
      cases hfile'
      rw [MemNode.put, hinsert, Option.getD_some]

/-- Changes that write files are applied, and put them. -/
theorem apply_writes {orig : MemNode Id} {changes : List (FileChange Id)}
    {file : Path → FileMeta Id} (hsorted : orig.Sorted)
    (horder : changes.Pairwise FileChange.Ordered)
    (hwrites : ∀ c ∈ changes, c.Writes orig (file c.path)) :
    orig.apply changes = .ok (orig.overlaid (changes.map fun c => (c.path, file c.path))) := by
  suffices hall : ∀ done rest : List (FileChange Id), changes = done ++ rest →
      ∀ mid, Applied orig done mid →
        mid.apply rest = .ok (mid.overlaid (rest.map fun c => (c.path, file c.path))) from
    hall [] changes rfl orig (.start hsorted)
  intro done rest
  induction rest generalizing done with
  | nil => exact fun _ mid _ => rfl
  | cons c rest ih =>
      intro hsplit mid hmid
      have hc : c ∈ changes := hsplit ▸ List.mem_append_right _ List.mem_cons_self
      have hw := hwrites c hc
      have hdone : ∀ d ∈ done, d ∈ changes := fun d hd => hsplit ▸ List.mem_append_left _ hd
      rw [hsplit, List.pairwise_append] at horder
      have hbefore : ∀ d ∈ done, d.Ordered c := fun d hd => horder.2.2 d hd c List.mem_cons_self
      -- no file stands above: a directory of the tree is never written over
      have habove : ∀ ds d, ds ++ [d] <+: c.path.dirs →
          MemEntry.toFile (mid.lookupIn ds d) = none := by
        intro ds d hprefix
        have hdir := hw.above ds d hprefix
        have hfile := hmid.files ⟨ds, d⟩
        rw [changed_of_fresh] at hfile
        · exact hfile.trans (MemEntry.toFile_of_isDir hdir)
        · intro e he heq
          refine (hwrites e (hdone e he)).not_dir ?_
          rw [heq]
          exact hdir
      obtain ⟨node', hinsert⟩ :=
        @MemNode.insertIn_exists _ c.path.leaf (file c.path).entry c.path.dirs mid habove
      have hmod : c.op = .mod → (MemEntry.toFile (mid.lookup c.path)).isSome := by
        intro hop
        rw [hmid.files, changed_of_fresh fun d hd => (hbefore d hd).1]
        exact hw.placed hop
      have happlied : ChangeApplied mid c node' := .written _ hw.op hw.file hmod node' hinsert
      have hstep : mid.applyChange c = .ok node' := applyChange_ok.mpr ⟨hw.depth, happlied⟩
      have hnext : Applied orig (done ++ [c]) node' := by
        refine hmid.next happlied hbefore fun hop hdir => ?_
        obtain ⟨child, hchild⟩ := hdir
        rw [hw.free hop] at hchild
        cases hchild
      rw [MemNode.apply, List.foldlM_cons, hstep]
      show node'.apply rest = _
      rw [ih (done ++ [c]) (by rw [hsplit, List.append_assoc, List.singleton_append]) node' hnext,
        List.map_cons, MemNode.overlaid, MemNode.overlaid, List.foldl_cons,
        ← applyChange_put hw.file hw.op hstep]

end

end Naatre
