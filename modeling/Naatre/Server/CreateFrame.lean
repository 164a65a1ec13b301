import Naatre.Core.Plain
import Naatre.Server.TreeApply
import Naatre.Server.TreeLoad

/-!
The files of a created changeset. A create leaves every file its change list
does not name, and makes each listed path hold what the list says, exactly when
no Add of the list names a path where the parent tree has a file or a
directory.
-/

namespace Naatre

section

variable {Id : Type} [Platform Id]

/-- A frame lists its changes in path order. -/
theorem Frame.ordered (canonical : Canonical Id) :
    canonical.cs.changes.Pairwise FileChange.Ordered := by
  have hencodable := canonical.encodable
  have hascend : pathsAscend (canonical.cs.changes.map (fun c => c.path)) = true := by
    by_contra hnot
    rw [Changeset.encodeError] at hencodable
    by_cases hparents : maxParents < canonical.cs.parents.length
    · simp [hparents] at hencodable
    · simp [hparents, hnot] at hencodable
  have hchain : (canonical.cs.changes.map (fun c => c.path)).IsChain fun p q => p.text < q.text := by
    simpa [pathsAscend] using hascend
  have htrans : IsTrans Path fun p q => p.text < q.text := ⟨fun _ _ _ hab hbc => lt_trans hab hbc⟩
  have hpairwise := List.isChain_iff_pairwise.mp hchain
  rw [List.pairwise_map] at hpairwise
  exact hpairwise.imp FileChange.ordered_of_lt

/-! ### The frame -/

/-- What a create may do to the files of its parent tree. -/
structure CreateFramed (parent node : MemNode Id) (changes : List (FileChange Id)) : Prop where
  /-- every path the list does not name holds what it held -/
  kept : ∀ p, (∀ c ∈ changes, c.path ≠ p) → filesAt node p = filesAt parent p
  /-- a deleted path holds nothing -/
  deleted : ∀ c ∈ changes, c.op = .del → filesAt node c.path = none
  /-- any other listed path holds the listed content and mode -/
  written : ∀ c ∈ changes, c.op ≠ .del →
    ∃ m, filesAt node c.path = some m ∧ c.blob = some m.blob ∧ c.exec = some m.exec
  /-- an Add went where nothing stood -/
  added : ∀ c ∈ changes, c.op = .add → parent.lookup c.path = none
  /-- a Mod or a Del went where a file stood -/
  changed : ∀ c ∈ changes, c.op ≠ .add → ∃ m, filesAt parent c.path = some m

omit [Platform Id] in
theorem FileChange.file_some {c : FileChange Id} {m : FileMeta Id} (h : c.file = some m) :
    c.blob = some m.blob ∧ c.exec = some m.exec := by
  obtain ⟨path, op, blob, size, exec⟩ := c
  cases op <;> cases blob <;> cases size <;> cases exec <;> simp_all [FileChange.file]
  all_goals simp [← h]

omit [Platform Id] in
/-- A change of an applied list was itself applied, to the tree the changes
before it left. -/
theorem apply_change {node node' : MemNode Id} {changes : List (FileChange Id)}
    (h : node.apply changes = .ok node') {c : FileChange Id} (hc : c ∈ changes) :
    ∃ done rest mid mid', changes = done ++ c :: rest ∧ node.apply done = .ok mid ∧
      ChangeApplied mid c mid' := by
  obtain ⟨done, rest, rfl⟩ := List.append_of_mem hc
  rw [MemNode.apply, List.foldlM_append, Lib.bind_eq_ok] at h
  obtain ⟨mid, hmid, h⟩ := h
  rw [List.foldlM_cons, Lib.bind_eq_ok] at h
  obtain ⟨mid', hmid', -⟩ := h
  exact ⟨done, rest, mid, mid', rfl, hmid, (applyChange_ok.mp hmid').2⟩

omit [Platform Id] in
/-- A list that adds no file where something stands frames its tree. -/
theorem apply_framed {parent node : MemNode Id} {changes : List (FileChange Id)}
    (hsorted : parent.Sorted) (horder : changes.Pairwise FileChange.Ordered)
    (h : parent.apply changes = .ok node)
    (hadd : ∀ c ∈ changes, c.op = .add → parent.lookup c.path = none) :
    CreateFramed parent node changes := by
  have hnoDir : ∀ c ∈ changes, c.op = .add → ¬ MemEntry.IsDir (parent.lookup c.path) := by
    rintro c hc hop ⟨child, hchild⟩
    rw [hadd c hc hop] at hchild
    cases hchild
  have happlied := apply_applied hsorted horder hnoDir h
  have hfiles : ∀ p, filesAt node p = Naatre.changed changes (filesAt parent) p := by
    intro p
    have hparent : (fun q => MemEntry.toFile (parent.lookup q)) = filesAt parent :=
      funext fun q => (filesAt_eq_lookup hsorted q).symm
    rw [filesAt_eq_lookup happlied.sorted, happlied.files, hparent]
  have hchange : ∀ c ∈ changes, (c.op = .del → c.file = none) ∧
      (c.op ≠ .del → ∃ m, c.file = some m) ∧
      (c.op ≠ .add → ∃ m, filesAt parent c.path = some m) := by
    intro c hc
    obtain ⟨done, rest, mid, mid', rfl, hdone, hmid⟩ := apply_change h hc
    rw [List.pairwise_append] at horder
    have hfresh : ∀ d ∈ done, d.path ≠ c.path := fun d hd =>
      (horder.2.2 d hd c List.mem_cons_self).1
    have hmidApplied := apply_applied hsorted horder.1
      (fun d hd => hnoDir d (List.mem_append_left _ hd)) hdone
    have hold : MemEntry.toFile (mid.lookup c.path) = filesAt parent c.path := by
      rw [hmidApplied.files, changed_of_fresh hfresh, filesAt_eq_lookup hsorted]
    cases hmid with
    | removed m hop hfile =>
        refine ⟨fun _ => by rw [FileChange.file, hop], fun hne => absurd hop hne, fun _ => ?_⟩
        exact ⟨m, by rw [← hold, hfile]⟩
    | written m hop hfile hmod =>
        refine ⟨fun hdel => absurd hdel hop, fun _ => ⟨m, hfile⟩, fun hne => ?_⟩
        have hisMod : c.op = .mod := by
          cases hcop : c.op with
          | add => exact absurd hcop hne
          | mod => rfl
          | del => exact absurd hcop hop
        obtain ⟨old, hfound⟩ := Option.isSome_iff_exists.mp (hmod hisMod)
        exact ⟨old, by rw [← hold, hfound]⟩
  refine ⟨fun p hp => ?_, fun c hc hop => ?_, fun c hc hop => ?_, hadd, fun c hc hop => ?_⟩
  · rw [hfiles, changed_of_fresh hp]
  · rw [hfiles, changed_of_mem horder hc]
    exact (hchange c hc).1 hop
  · obtain ⟨m, hm⟩ := (hchange c hc).2.1 hop
    refine ⟨m, ?_, FileChange.file_some hm⟩
    rw [hfiles, changed_of_mem horder hc, hm]
  · exact (hchange c hc).2.2 hop

/-- The answer of a write names the root it stored. -/
theorem persist_root {cx cx' : RepoCx Id} {p : PreparedCreate Id} {done : ChangesetCreated Id}
    (h : persist cx p = .ok (done, cx')) : ∃ w : Persisted cx p cx', done.rootTreeId = w.rootTreeId := by
  obtain ⟨w⟩ := persist_ok h
  refine ⟨w, ?_⟩
  have hcs : ¬ redactionActive cx.db p.csId = true := by simp [w.cs_free]
  unfold persist at h
  simp only [hcs, w.blobs_free, w.blobs_present, w.parent_ok, w.apply_ok, w.collect_ok] at h
  rw [w.insert_ok] at h
  simp only [ne_eq, not_true_eq_false, if_false, Bool.false_eq_true, Except.ok.injEq,
    Prod.mk.injEq] at h
  rw [← h.1]

namespace Server

/-- Every create the route accepts, in every run: the new root tree is framed by
the change list over the parent tree exactly when every Add names a path where
the parent tree has nothing. -/
theorem create_framed_of_reach {ok : Server Id → Event Id → Prop} {s : Server Id}
    (h : Reach ok s) {r : RepoId} {p : PreparedCreate Id} {done : ChangesetCreated Id}
    {cx' : RepoCx Id} (hpersist : persist (s.cx r) p = .ok (done, cx')) :
    ∃ parent node, MemNode.load (s.cx r).trees p.parentRoot = .ok parent ∧
      MemNode.load cx'.trees (some done.rootTreeId) = .ok node ∧
      (CreateFramed parent node p.canonical.cs.changes ↔
        ∀ c ∈ p.canonical.cs.changes, c.op = .add → parent.lookup c.path = none) := by
  have hwf : TreesWf (s.cx r).trees := treesWf_of_reach h _
  obtain ⟨w, hroot⟩ := persist_root hpersist
  have hsorted := load_sorted hwf w.parent_ok
  obtain ⟨-, hcx⟩ := changesetInsertRows_some w.insert_ok
  have hload : MemNode.load cx'.trees (some done.rootTreeId) = .ok w.node := by
    have htrees : cx'.trees = treesInsert (s.cx r).trees w.trees :=
      congrArg (fun cx => cx.trees) hcx
    rw [hroot, htrees]
    exact load_collect w.collect_ok hwf
  refine ⟨w.parent, w.node, w.parent_ok, hload, fun hframed => hframed.added, fun hadd => ?_⟩
  exact apply_framed hsorted p.canonical.ordered w.apply_ok hadd

end Server

end

/-! ### A file over a directory -/

namespace Server.AddOverDir

def start : Server PlainId := boot .singleDb [(1, "r")] 100 10

/-- One imported commit with a file `d/x`, and an upload. -/
def imported : List (Event PlainId) :=
  [.importGit 1 [⟨1, [], "ann", "first", 5,
      .entry "d" (.dir 12 (.entry "x" (.blob .regular 11 [97, 10]) .empty)) .empty⟩] ⟨false, false⟩ 1 1,
    .putBytes 1 [98, 10], .record 1 [98, 10]]

/-- The imported changeset. -/
def base : PlainId :=
  ((Lib.exec step start imported).bind fun s =>
    (s.dbs 1).changesets.head?.map (fun row => row.id)).getD []

/-- A create of one Add at `p`, looked up. -/
def adding (p : Path) : List (Event PlainId) :=
  imported ++
    [.createLookup 1
      { repoName := "r"
        principal := "ann"
        scope := none
        parents := [base]
        author := "ann"
        message := "add"
        timestampNs := some 7
        changes := [⟨p, .add, some (Platform.blobId [98, 10]), some 2, some false⟩] }]

/-- The create lost the file at `q`, which its list does not name. -/
def lost (s : Server PlainId) (p : PreparedCreate PlainId) (done : ChangesetCreated PlainId)
    (cx : RepoCx PlainId) (q : Path) : Bool :=
  p.canonical.cs.changes.all (fun c => decide (c.path ≠ q)) &&
    match MemNode.load (s.cx 1).trees p.parentRoot, MemNode.load cx.trees (some done.rootTreeId) with
    | .ok parent, .ok node => (filesAt parent q).isSome && (filesAt node q).isNone
    | _, _ => false

end Server.AddOverDir

namespace Server

open AddOverDir in
/-- A create that adds a file `e` beside `d` is framed. -/
theorem create_framed_of_reach_added : ∃ s p done cx' parent node,
    Lib.exec step start (adding ⟨[], "e"⟩) = some s ∧ persist (s.cx 1) p = .ok (done, cx') ∧
    MemNode.load (s.cx 1).trees p.parentRoot = .ok parent ∧
    MemNode.load cx'.trees (some done.rootTreeId) = .ok node ∧
    (CreateFramed parent node p.canonical.cs.changes ↔
      ∀ c ∈ p.canonical.cs.changes, c.op = .add → parent.lookup c.path = none) := by
  have hrun : (Lib.exec step start (adding ⟨[], "e"⟩)).any (fun s =>
      match s.creates with
      | [] => false
      | (_, p) :: _ =>
          match persist (s.cx 1) p with
          | .error _ => false
          | .ok _ => true) = true := by
    decide +kernel
  obtain ⟨s, hs, hok⟩ := (Option.any_eq_true _ _).mp hrun
  split at hok
  next => cases hok
  next r p rest hcreates =>
    split at hok
    next => cases hok
    next answer hpersist =>
      obtain ⟨done, cx'⟩ := answer
      have hstart : Init start := ⟨.singleDb, [(1, "r")], 100, 10, by decide, rfl⟩
      have hreach : Reach (fun _ _ => True) s := Lib.Reach.exec (.start hstart) (by simp) hs
      obtain ⟨parent, node, hparent, hnode, hframed⟩ := create_framed_of_reach hreach hpersist
      exact ⟨s, p, done, cx', parent, node, hs, hpersist, hparent, hnode, hframed⟩

open AddOverDir in
/-- An Add of `d` is accepted over the directory `d`, and `d/x` is gone. -/
theorem add_over_dir : ∃ s p done cx' parent node,
    Lib.exec step start (adding ⟨[], "d"⟩) = some s ∧ persist (s.cx 1) p = .ok (done, cx') ∧
    MemNode.load (s.cx 1).trees p.parentRoot = .ok parent ∧
    MemNode.load cx'.trees (some done.rootTreeId) = .ok node ∧
    ¬ CreateFramed parent node p.canonical.cs.changes := by
  have hrun : (Lib.exec step start (adding ⟨[], "d"⟩)).any (fun s =>
      match s.creates with
      | [] => false
      | (_, p) :: _ =>
          match persist (s.cx 1) p with
          | .error _ => false
          | .ok (done, cx) => lost s p done cx ⟨["d"], "x"⟩) = true := by
    decide +kernel
  obtain ⟨s, hs, hok⟩ := (Option.any_eq_true _ _).mp hrun
  split at hok
  next => cases hok
  next r p rest hcreates =>
    split at hok
    next => cases hok
    next done cx hpersist =>
      obtain ⟨hunnamed, hlost⟩ := Bool.and_eq_true_iff.mp hok
      split at hlost
      next parent node hparent hnode =>
        refine ⟨s, p, done, cx, parent, node, hs, hpersist, hparent, hnode, fun hframed => ?_⟩
        have hkept := hframed.kept ⟨["d"], "x"⟩ (by simpa using hunnamed)
        obtain ⟨hsome, hnone⟩ := Bool.and_eq_true_iff.mp hlost
        rw [hkept, Option.isNone_iff_eq_none] at hnone
        rw [hnone] at hsome
        cases hsome
      next => cases hlost

end Server

end Naatre
