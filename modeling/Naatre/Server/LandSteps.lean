import Naatre.Lib.Loop
import Naatre.Server.Land
import Naatre.Server.MergeSteps

/-!
What the land's steps do: one inversion lemma for each function of the
transaction, from the blob writes of a node to the whole of `execute`. The
invariants of the later modules are derived from these and unfold nothing.
-/

namespace Naatre

section

variable {Id : Type} [Platform Id]

/-! ### Insertion -/

/-- What a successful `changeset_insert_rows` wrote. -/
theorem changesetInsertRows_some {cx cx' : RepoCx Id} {rec : ChangesetInsert Id}
    (h : changesetInsertRows cx rec = some cx') :
    changesetGet cx.db rec.id = none ∧
      cx' =
        { cx with
          trees := treesInsert cx.trees rec.trees
          db :=
            { cx.db with
              changesets := cx.db.changesets ++ [rec.row]
              repoBlobs := membersInsert cx.db.repoBlobs rec.blobs
              gitMap := cx.db.gitMap ++ (rec.gitMapOid.map (·, rec.id)).toList
              repoTrees := membersInsert cx.db.repoTrees (rec.trees.map (·.id)) } } := by
  unfold changesetInsertRows at h
  split_ifs at h with hfresh hgit
  exact ⟨by simpa using hfresh, by simpa using h.symm⟩

theorem changesetInsertRows_keeps {cx cx' : RepoCx Id} {rec : ChangesetInsert Id}
    (h : changesetInsertRows cx rec = some cx') : cx.db.Keeps cx'.db := by
  obtain ⟨-, rfl⟩ := changesetInsertRows_some h
  exact .of_append rfl

theorem changesetInsertRows_rows {cx cx' : RepoCx Id} {rec : ChangesetInsert Id}
    (h : changesetInsertRows cx rec = some cx') :
    cx'.db.changesets = cx.db.changesets ++ [rec.row] :=
  congrArg (fun cx => cx.db.changesets) (changesetInsertRows_some h).2

/-- An insert leaves refs, lands and tombstones. -/
theorem changesetInsertRows_tables {cx cx' : RepoCx Id} {rec : ChangesetInsert Id}
    (h : changesetInsertRows cx rec = some cx') :
    cx'.db.refs = cx.db.refs ∧ cx'.db.lands = cx.db.lands ∧
      cx'.db.redactions = cx.db.redactions ∧ cx.db.gitMap ⊆ cx'.db.gitMap := by
  obtain ⟨-, rfl⟩ := changesetInsertRows_some h
  exact ⟨rfl, rfl, rfl, List.subset_append_left _ _⟩

/-! ### Blob writes -/

/-- One blob goes in: its bytes, then its row. -/
def BlobWrite (nowNs : ℕ) (free : Id → Prop) (a b : List (Id × Bytes) × Catalog Id) : Prop :=
  ∃ bytes cas, free (Platform.blobId bytes) ∧ casPut a.1 bytes = some cas ∧
    b = (cas, objectRowUpsert a.2 (Platform.blobId bytes) bytes.length nowNs)

/-- Blobs go in one after the other. -/
abbrev BlobWrites (nowNs : ℕ) (free : Id → Prop) :
    List (Id × Bytes) × Catalog Id → List (Id × Bytes) × Catalog Id → Prop :=
  Relation.ReflTransGen (BlobWrite nowNs free)

/-- The blob store and the catalog of a closure's stores. -/
def RepoCx.blobs (cx : RepoCx Id) : List (Id × Bytes) × Catalog Id := (cx.cas, cx.cat)

/-- The blobs of a merge go in, up to the one that failed. -/
theorem putBlobs_writes {nowNs : ℕ} {free : Id → Prop} {st : LandState Id}
    {blobs : List (Id × Bytes)} (hnamed : BlobsNamed blobs) (hfree : ∀ b ∈ blobs, free b.1) :
    (∀ st', putBlobs nowNs st blobs = .ok st' → BlobWrites nowNs free st.cx.blobs st'.cx.blobs) ∧
      ∀ a, putBlobs nowNs st blobs = .error a →
        BlobWrites nowNs free st.cx.blobs a.cx.blobs := by
  induction blobs generalizing st with
  | nil =>
      refine ⟨fun st' h => ?_, fun a h => ?_⟩
      · simp only [putBlobs, Except.ok.injEq] at h
        exact h ▸ .refl
      · simp [putBlobs] at h
  | cons b rest ih =>
      obtain ⟨blob, bytes⟩ := b
      have hname : blob = Platform.blobId bytes := hnamed _ List.mem_cons_self
      have hblob : free blob := hfree _ List.mem_cons_self
      have ih := fun st => @ih st (fun b hb => hnamed b (List.mem_cons_of_mem _ hb))
        (fun b hb => hfree b (List.mem_cons_of_mem _ hb))
      by_cases hwritten : blob ∈ st.writtenBlobs
      · simp only [putBlobs, hwritten, if_true]
        exact ih st
      · cases hcas : casPut st.cx.cas bytes with
        | none =>
            simp only [putBlobs, hwritten, if_false, hcas]
            refine ⟨fun st' h => absurd h (by simp), fun a h => ?_⟩
            simp only [Except.error.injEq] at h
            exact h ▸ .refl
        | some cas =>
            simp only [putBlobs, hwritten, if_false, hcas]
            have hwrite : BlobWrite nowNs free st.cx.blobs
                (cas, objectRowUpsert st.cx.cat blob bytes.length nowNs) :=
              ⟨bytes, cas, hname ▸ hblob, hcas, by rw [hname]; rfl⟩
            exact ⟨fun st' h => .head hwrite ((ih _).1 st' h),
              fun a h => .head hwrite ((ih _).2 a h)⟩

/-- What the gate lets through is not tombstoned. -/
theorem gateError_none {db : RepoTables Id} {repoName : String} {merged : MergedTree Id}
    {cs : Changeset Id} {newId : Id} (h : gateError db repoName merged cs newId = none) :
    ∀ id ∈ gateIds (changeBlobs cs.changes) merged cs newId, redactionActive db id = false := by
  unfold gateError at h
  simp only at h
  split_ifs at h
  split at h
  next hnil => exact redactionsActiveAmong_eq_nil hnil
  · cases h

/-- The merge of a round, as the tree merge it runs. -/
theorem landMerge_ok {cmd : LandCommand Id} {cx : RepoCx Id} {tipTree : MemNode Id}
    {input : NodeInput Id} {merged : MergedTree Id} {reconflicted : List (PathConflict Id)}
    (h : landMerge cmd cx tipTree input = .ok (merged, reconflicted)) :
    ∃ rec, Nonempty (Merged (casGet cx.cas) (if cmd.recordConflict then .record else .refuse)
        input.parentTree tipTree input.tree rec) ∧ merged = rec.tree ∧
      (reconflicted = if cmd.recordConflict then rec.conflicts else []) ∧
      (cmd.recordConflict = true → rec.oversized = []) := by
  unfold landMerge at h
  simp only at h
  split_ifs at h with hrecord
  · split at h
    · cases h
    next rec hrec =>
    split at h
    · cases h
    next hoversized =>
      cases h
      exact ⟨rec, by simpa [hrecord] using mergeTreesMode_ok hrec, rfl, by simp [hrecord],
        fun _ => hoversized⟩
  · split at h
    · cases h
    next merged' hmerged =>
      cases h
      rw [mergeTrees, Lib.map_eq_ok] at hmerged
      obtain ⟨rec, hrec, rfl⟩ := hmerged
      exact ⟨rec, by simpa [hrecord] using mergeTreesMode_ok hrec, rfl, by simp [hrecord],
        fun hrecord' => absurd hrecord' hrecord⟩

theorem landMerge_named {cmd : LandCommand Id} {cx : RepoCx Id} {tipTree : MemNode Id}
    {input : NodeInput Id} {merged : MergedTree Id} {reconflicted : List (PathConflict Id)}
    (h : landMerge cmd cx tipTree input = .ok (merged, reconflicted)) :
    BlobsNamed merged.newBlobs := by
  obtain ⟨rec, ⟨m⟩, rfl, -⟩ := landMerge_ok h
  exact m.named

/-! ### One node -/

/-- The blob writes of a node touch the blob store, the catalog and the list of
blobs written. -/
theorem putBlobs_ok {nowNs : ℕ} {st st' : LandState Id} {blobs : List (Id × Bytes)}
    (h : putBlobs nowNs st blobs = .ok st') :
    ∃ cas cat written, st' =
      { st with cx := { st.cx with cas := cas, cat := cat }, writtenBlobs := written } := by
  induction blobs generalizing st with
  | nil =>
      simp only [putBlobs, Except.ok.injEq] at h
      exact ⟨st.cx.cas, st.cx.cat, st.writtenBlobs, h.symm⟩
  | cons b rest ih =>
      obtain ⟨blob, bytes⟩ := b
      simp only [putBlobs] at h
      split_ifs at h with hwritten
      · exact ih h
      · split at h
        · cases h
        · obtain ⟨cas, cat, written, hst⟩ := ih h
          exact ⟨cas, cat, written, hst⟩

/-- What a round reads for its node: its row, its tree, and the tree of its own
first parent. -/
theorem landInput_ok {cx : RepoCx Id} {node : Id} {input : NodeInput Id}
    (h : landInput cx node = .ok input) :
    changesetGet cx.db node = some input.row ∧
      loadTree cx input.row.rootTreeId = .ok input.tree ∧
      ((input.row.parents = [] ∧ input.parentTree = .empty) ∨
        ∃ p pRow, input.row.parents.head? = some p ∧ changesetGet cx.db p = some pRow ∧
          loadTree cx pRow.rootTreeId = .ok input.parentTree) := by
  unfold landInput at h
  split at h
  · cases h
  next row hrow =>
  rw [Lib.bind_eq_ok] at h
  obtain ⟨tree, htree, h⟩ := h
  simp only at h
  split at h
  next hparents =>
    cases h
    exact ⟨hrow, htree, .inl ⟨hparents, rfl⟩⟩
  next p rest hparents =>
    split at h
    · cases h
    next pRow hpRow =>
    rw [Lib.bind_eq_ok] at h
    obtain ⟨parentTree, hparentTree, h⟩ := h
    cases h
    exact ⟨hrow, htree, .inr ⟨p, pRow, by rw [hparents]; rfl, hpRow, hparentTree⟩⟩

/-- What one round of the rebase loop did with its node. -/
inductive NodeOutcome
  | dropped
  | adopted
  | inserted
  deriving DecidableEq, Repr

/-- The merge every round starts with, and what it computes. -/
structure NodeMerge (cmd : LandCommand Id) (st : LandState Id) (node : Id) where
  input : NodeInput Id
  merged : MergedTree Id
  reconflicted : List (PathConflict Id)
  input_ok : landInput st.cx node = .ok input
  merge_ok : landMerge cmd st.cx st.tipTree input = .ok (merged, reconflicted)

namespace NodeMerge

variable {cmd : LandCommand Id} {st : LandState Id} {node : Id}

def reps (m : NodeMerge cmd st node) : List (ConflictRep Id) :=
  carry m.input.row.canonical.cs.conflicts (m.reconflicted.filterMap contentRep)

def delta (m : NodeMerge cmd st node) : List (FileChange Id) :=
  deltaBetween st.tipTree m.merged.node

/-- The changeset the node becomes on top of the tip. -/
def rebased (m : NodeMerge cmd st node) : Changeset Id :=
  rebasedChangeset st.cx st.tipId m.input.row.canonical.cs m.delta m.reps

/-- The merge of a round is determined by it. -/
theorem subsingleton (m m' : NodeMerge cmd st node) : m = m' := by
  obtain ⟨input, merged, reconflicted, hinput, hmerge⟩ := m
  obtain ⟨input', merged', reconflicted', hinput', hmerge'⟩ := m'
  obtain rfl : input = input' := Except.ok.inj (hinput.symm.trans hinput')
  obtain ⟨rfl, rfl⟩ := Prod.mk.inj (Except.ok.inj (hmerge.symm.trans hmerge'))
  rfl

end NodeMerge

/-- A round of the loop, by its outcome. -/
inductive NodeStep (cmd : LandCommand Id) (st : LandState Id) (node : Id) :
    NodeOutcome → LandState Id → Prop
  | dropped (m : NodeMerge cmd st node) (hdelta : m.delta = []) (hreps : m.reps = []) :
      NodeStep cmd st node .dropped st
  | adopted (m : NodeMerge cmd st node) (canonical : Canonical Id)
      (hencode : m.rebased.encode = .ok canonical)
      (hgate : gateError st.cx.db cmd.repoName m.merged canonical.cs
        (Platform.changesetId canonical) = none)
      (hid : Platform.changesetId canonical = node) (stored : LandState Id)
      (hput : putBlobs cmd.nowNs st m.merged.newBlobs = .ok stored)
      (hkept : ¬ (m.delta = [] ∧ m.reps = [])) :
      NodeStep cmd st node .adopted { stored with tipId := node, tipTree := m.input.tree }
  | inserted (m : NodeMerge cmd st node) (canonical : Canonical Id)
      (hencode : m.rebased.encode = .ok canonical)
      (hgate : gateError st.cx.db cmd.repoName m.merged canonical.cs
        (Platform.changesetId canonical) = none)
      (hid : Platform.changesetId canonical ≠ node) (stored st' : LandState Id)
      (hput : putBlobs cmd.nowNs st m.merged.newBlobs = .ok stored)
      (hinsert : landInsert cmd stored canonical m.merged = .ok st')
      (hkept : ¬ (m.delta = [] ∧ m.reps = [])) : NodeStep cmd st node .inserted st'

/-- Every round that does not abort drops, adopts or inserts its node. -/
theorem landNode_step {cmd : LandCommand Id} {st st' : LandState Id} {node : Id}
    (h : landNode cmd st node = .ok st') : ∃ o, NodeStep cmd st node o st' := by
  unfold landNode at h
  split at h
  · cases h
  next input hinput =>
  split at h
  · cases h
  next merged reconflicted hmerge =>
  let m : NodeMerge cmd st node := ⟨input, merged, reconflicted, hinput, hmerge⟩
  simp only at h
  split_ifs at h with hempty
  · cases h
    exact ⟨.dropped, .dropped m hempty.1 hempty.2⟩
  split at h
  · cases h
  · cases h
  next canonical hencode =>
  split at h
  · cases h
  next hgate =>
  split at h
  · cases h
  next stored hput =>
  split_ifs at h with hid
  · cases h
    exact ⟨.adopted, .adopted m canonical hencode hgate hid stored hput hempty⟩
  · exact ⟨.inserted, .inserted m canonical hencode hgate hid stored st' hput h hempty⟩

/-- What the insertion of a rebased node wrote. -/
theorem landInsert_ok {cmd : LandCommand Id} {st st' : LandState Id} {canonical : Canonical Id}
    {merged : MergedTree Id} (h : landInsert cmd st canonical merged = .ok st') :
    ∃ rootTreeId size trees cx,
      merged.node.collect = .ok (rootTreeId, size, trees) ∧
      changesetInsertRows st.cx
        { id := Platform.changesetId canonical
          canonical := canonical
          generation := st.tipGen + 1
          principal := cmd.principal
          rootTreeId := rootTreeId
          blobs := changeBlobs canonical.cs.changes
          trees := trees
          gitMapOid := none } = some cx ∧
      st' =
        { st with
          cx := cx
          tipId := Platform.changesetId canonical
          tipGen := st.tipGen + 1
          tipTree := merged.node
          rebased := st.rebased + 1 } := by
  unfold landInsert at h
  simp only at h
  split at h
  · cases h
  next rootTreeId size trees hcollect =>
  split at h
  · cases h
  next cx hinsert =>
  cases h
  exact ⟨rootTreeId, size, trees, cx, hcollect, hinsert, rfl⟩

/-- The gate of a round covers the blobs it writes. -/
theorem gate_newBlobs {db : RepoTables Id} {repoName : String} {merged : MergedTree Id}
    {cs : Changeset Id} {newId : Id} (h : gateError db repoName merged cs newId = none) :
    ∀ b ∈ merged.newBlobs, redactionActive db b.1 = false := by
  intro b hb
  refine gateError_none h b.1 ?_
  have hmem : b.1 ∈ merged.newBlobs.map (·.1) := List.mem_map_of_mem hb
  simp only [gateIds, List.mem_append]
  exact .inl (.inl (.inl (.inr hmem)))

/-- The blob writes of one round. -/
theorem roundBlobs_writes {cmd : LandCommand Id} {st : LandState Id} {input : NodeInput Id}
    {merged : MergedTree Id} {reconflicted : List (PathConflict Id)} {cs : Changeset Id}
    {newId : Id} (hmerge : landMerge cmd st.cx st.tipTree input = .ok (merged, reconflicted))
    (hgate : gateError st.cx.db cmd.repoName merged cs newId = none) :
    (∀ st', putBlobs cmd.nowNs st merged.newBlobs = .ok st' →
        BlobWrites cmd.nowNs (fun id => redactionActive st.cx.db id = false)
          st.cx.blobs st'.cx.blobs) ∧
      ∀ a, putBlobs cmd.nowNs st merged.newBlobs = .error a →
        BlobWrites cmd.nowNs (fun id => redactionActive st.cx.db id = false)
          st.cx.blobs a.cx.blobs := by
  refine putBlobs_writes (landMerge_named hmerge) ?_
  exact gate_newBlobs hgate

/-- A round writes blobs that are not tombstoned. -/
theorem NodeStep.writes {cmd : LandCommand Id} {st st' : LandState Id} {node : Id}
    {o : NodeOutcome} (h : NodeStep cmd st node o st') :
    BlobWrites cmd.nowNs (fun id => redactionActive st.cx.db id = false)
      st.cx.blobs st'.cx.blobs := by
  cases h with
  | dropped => exact .refl
  | adopted m canonical hencode hgate hid stored hput =>
      exact (roundBlobs_writes m.merge_ok hgate).1 stored hput
  | inserted m canonical hencode hgate hid stored st' hput hinsert =>
      have hwrites := (roundBlobs_writes m.merge_ok hgate).1 stored hput
      obtain ⟨rootTreeId, size, trees, cx, -, hrow, rfl⟩ := landInsert_ok hinsert
      obtain ⟨-, rfl⟩ := changesetInsertRows_some hrow
      exact hwrites

/-- A round that aborts has written some of its blobs. -/
theorem landNode_error {cmd : LandCommand Id} {st : LandState Id} {node : Id} {a : LandAbort Id}
    (h : landNode cmd st node = .error a) :
    BlobWrites cmd.nowNs (fun id => redactionActive st.cx.db id = false)
      st.cx.blobs a.cx.blobs := by
  unfold landNode at h
  split at h
  · cases h; exact .refl
  next input hinput =>
  split at h
  · cases h; exact .refl
  next merged reconflicted hmerge =>
  simp only at h
  split_ifs at h with hempty
  split at h
  · cases h; exact .refl
  · cases h; exact .refl
  next canonical hencode =>
  split at h
  · cases h; exact .refl
  next hgate =>
  have hwrites := roundBlobs_writes hmerge hgate
  split at h
  next a' hput =>
    cases h
    exact hwrites.2 _ hput
  next stored hput =>
  split_ifs at h with hid
  unfold landInsert at h
  simp only at h
  split at h
  · cases h; exact hwrites.1 stored hput
  split at h
  · cases h; exact hwrites.1 stored hput
  · cases h

/-! ### The loop -/

/-- A run of the rebase loop, with what became of each node. -/
inductive LandTrace (cmd : LandCommand Id) :
    LandState Id → List Id → List NodeOutcome → LandState Id → Prop
  | nil (st : LandState Id) : LandTrace cmd st [] [] st
  | cons {st mid st' : LandState Id} {node : Id} {nodes : List Id} {o : NodeOutcome}
      {os : List NodeOutcome} (hnode : NodeStep cmd st node o mid)
      (hrest : LandTrace cmd mid nodes os st') : LandTrace cmd st (node :: nodes) (o :: os) st'

theorem landTrace_exists {cmd : LandCommand Id} {st st' : LandState Id} {chain : List Id}
    (h : chain.foldlM (landNode cmd) st = .ok st') : ∃ os, LandTrace cmd st chain os st' := by
  induction chain generalizing st with
  | nil =>
      simp only [List.foldlM_nil, pure, Except.pure, Except.ok.injEq] at h
      exact ⟨[], h ▸ .nil st⟩
  | cons node chain ih =>
      rw [List.foldlM_cons, Lib.bind_eq_ok] at h
      obtain ⟨mid, hmid, hrest⟩ := h
      obtain ⟨o, ho⟩ := landNode_step hmid
      obtain ⟨os, hos⟩ := ih hrest
      exact ⟨o :: os, .cons ho hos⟩

/-- A round keeps every changeset. -/
theorem NodeStep.keeps {cmd : LandCommand Id} {st st' : LandState Id} {node : Id}
    {o : NodeOutcome} (h : NodeStep cmd st node o st') : st.cx.db.Keeps st'.cx.db := by
  cases h with
  | dropped => exact .refl _
  | adopted m canonical hencode hgate hid stored hput =>
      obtain ⟨cas, cat, written, rfl⟩ := putBlobs_ok hput
      exact .refl _
  | inserted m canonical hencode hgate hid stored st' hput hinsert =>
      obtain ⟨cas, cat, written, rfl⟩ := putBlobs_ok hput
      obtain ⟨rootTreeId, size, trees, cx, -, hrow, rfl⟩ := landInsert_ok hinsert
      have hkeeps := changesetInsertRows_keeps hrow
      exact hkeeps

/-- A round writes changesets and memberships only. -/
theorem NodeStep.tables {cmd : LandCommand Id} {st st' : LandState Id} {node : Id}
    {o : NodeOutcome} (h : NodeStep cmd st node o st') :
    st'.cx.db.refs = st.cx.db.refs ∧ st'.cx.db.lands = st.cx.db.lands ∧
      st'.cx.db.redactions = st.cx.db.redactions ∧ st'.cx.db.gitMap = st.cx.db.gitMap := by
  cases h with
  | dropped => exact ⟨rfl, rfl, rfl, rfl⟩
  | adopted m canonical hencode hgate hid stored hput =>
      obtain ⟨cas, cat, written, rfl⟩ := putBlobs_ok hput
      exact ⟨rfl, rfl, rfl, rfl⟩
  | inserted m canonical hencode hgate hid stored st' hput hinsert =>
      obtain ⟨cas, cat, written, rfl⟩ := putBlobs_ok hput
      obtain ⟨rootTreeId, size, trees, cx, -, hrow, rfl⟩ := landInsert_ok hinsert
      obtain ⟨-, rfl⟩ := changesetInsertRows_some hrow
      exact ⟨rfl, rfl, rfl, by simp⟩

theorem LandTrace.tables {cmd : LandCommand Id} {st st' : LandState Id} {chain : List Id}
    {os : List NodeOutcome} (h : LandTrace cmd st chain os st') :
    st'.cx.db.refs = st.cx.db.refs ∧ st'.cx.db.lands = st.cx.db.lands ∧
      st'.cx.db.redactions = st.cx.db.redactions ∧ st'.cx.db.gitMap = st.cx.db.gitMap := by
  induction h with
  | nil => exact ⟨rfl, rfl, rfl, rfl⟩
  | cons hnode _ ih =>
      obtain ⟨hrefs, hlands, hredactions, hgit⟩ := hnode.tables
      obtain ⟨hrefs', hlands', hredactions', hgit'⟩ := ih
      exact ⟨hrefs'.trans hrefs, hlands'.trans hlands, hredactions'.trans hredactions,
        hgit'.trans hgit⟩

theorem LandTrace.keeps {cmd : LandCommand Id} {st st' : LandState Id} {chain : List Id}
    {os : List NodeOutcome} (h : LandTrace cmd st chain os st') :
    st.cx.db.Keeps st'.cx.db := by
  induction h with
  | nil => exact .refl _
  | cons hnode _ ih => exact hnode.keeps.trans ih

/-- The blobs a run of the loop wrote. -/
theorem LandTrace.writes {cmd : LandCommand Id} {st st' : LandState Id} {chain : List Id}
    {os : List NodeOutcome} (h : LandTrace cmd st chain os st') :
    BlobWrites cmd.nowNs (fun id => redactionActive st.cx.db id = false)
      st.cx.blobs st'.cx.blobs := by
  induction h with
  | nil => exact .refl
  | cons hnode _ ih =>
      simp only [redactionActive_of_eq hnode.tables.2.2.1] at ih
      exact hnode.writes.trans ih

theorem landLoop_error {cmd : LandCommand Id} {st : LandState Id} {chain : List Id}
    {a : LandAbort Id} (h : chain.foldlM (landNode cmd) st = .error a) :
    BlobWrites cmd.nowNs (fun id => redactionActive st.cx.db id = false)
      st.cx.blobs a.cx.blobs := by
  induction chain generalizing st with
  | nil => simp [List.foldlM_nil, pure, Except.pure] at h
  | cons node chain ih =>
      rw [List.foldlM_cons] at h
      match hnode : landNode cmd st node with
      | .error a' =>
          rw [hnode] at h
          simp only [bind, Except.bind, Except.error.injEq] at h
          exact h ▸ landNode_error hnode
      | .ok mid =>
          rw [hnode] at h
          obtain ⟨o, ho⟩ := landNode_step hnode
          have hrest := ih h
          simp only [redactionActive_of_eq ho.tables.2.2.1] at hrest
          exact ho.writes.trans hrest

/-! ### The transaction -/

/-- A rebase that went through, with everything it read on the way. -/
structure Rebase (cx : RepoCx Id) (cmd : LandCommand Id) (oldMain : Id) (contained : List Id) where
  newestFirst : List Id
  exit : Id
  mainRow : ChangesetRow Id
  tipTree : MemNode Id
  final : LandState Id
  chain_ok : chainWalk cx.db contained (cx.db.changesets.length + 1) cmd.head =
    .ok (newestFirst, exit)
  exit_ok : redactionActive cx.db exit = false
  main_ok : changesetGet cx.db oldMain = some mainRow
  tree_ok : loadTree cx mainRow.rootTreeId = .ok tipTree
  loop_ok : newestFirst.reverse.foldlM (landNode cmd)
    ⟨cx, oldMain, mainRow.generation, tipTree, 0, []⟩ = .ok final
  moved : (mainCasMove final.cx.db oldMain final.tipId cmd.principal).1 ≠ 0

namespace Rebase

variable {cx : RepoCx Id} {cmd : LandCommand Id} {oldMain : Id} {contained : List Id}

/-- The loop's initial state. -/
def start (b : Rebase cx cmd oldMain contained) : LandState Id :=
  ⟨cx, oldMain, b.mainRow.generation, b.tipTree, 0, []⟩

def chain (b : Rebase cx cmd oldMain contained) : List Id := b.newestFirst.reverse

/-- The tables with `main` moved. -/
def movedDb (b : Rebase cx cmd oldMain contained) : RepoTables Id :=
  (mainCasMove b.final.cx.db oldMain b.final.tipId cmd.principal).2

theorem loop (b : Rebase cx cmd oldMain contained) :
    b.chain.foldlM (landNode cmd) b.start = .ok b.final := b.loop_ok

/-- A rebase is determined by what it starts from. -/
theorem subsingleton (b b' : Rebase cx cmd oldMain contained) : b = b' := by
  obtain ⟨newestFirst, exit, mainRow, tipTree, final, hchain, hexit, hmain, htree, hloop, hmoved⟩ := b
  obtain ⟨newestFirst', exit', mainRow', tipTree', final', hchain', hexit', hmain', htree', hloop',
    hmoved'⟩ := b'
  obtain ⟨rfl, rfl⟩ := Prod.mk.inj (Except.ok.inj (hchain.symm.trans hchain'))
  obtain rfl := Option.some.inj (hmain.symm.trans hmain')
  obtain rfl := Except.ok.inj (htree.symm.trans htree')
  obtain rfl := Except.ok.inj (hloop.symm.trans hloop')
  rfl

end Rebase

/-- What the loop left of the tables other than changesets. -/
theorem Rebase.tables {cx : RepoCx Id} {cmd : LandCommand Id} {oldMain : Id}
    {contained : List Id} (b : Rebase cx cmd oldMain contained) :
    b.final.cx.db.refs = cx.db.refs ∧ b.final.cx.db.lands = cx.db.lands ∧
      b.final.cx.db.redactions = cx.db.redactions ∧ b.final.cx.db.gitMap = cx.db.gitMap := by
  obtain ⟨os, hos⟩ := landTrace_exists b.loop
  exact hos.tables

theorem Rebase.keeps {cx : RepoCx Id} {cmd : LandCommand Id} {oldMain : Id}
    {contained : List Id} (b : Rebase cx cmd oldMain contained) :
    cx.db.Keeps b.final.cx.db := by
  obtain ⟨os, hos⟩ := landTrace_exists b.loop
  exact hos.keeps

theorem landRebase_ok {cx cx' : RepoCx Id} {cmd : LandCommand Id} {oldMain : Id}
    {contained : List Id} {done : LandDone Id}
    (h : landRebase cx cmd oldMain contained = .ok (done, cx')) :
    ∃ b : Rebase cx cmd oldMain contained,
      (done, cx') = settle { b.final.cx with db := b.movedDb } cmd oldMain b.final.tipId
        b.final.rebased (landNote cx.db cmd) (repPathsOf b.movedDb b.final.tipId) := by
  unfold landRebase at h
  simp only at h
  split at h
  · cases h
  next newestFirst exit hchain =>
  split_ifs at h with hexit
  split at h
  · cases h
  split at h
  · cases h
  next mainRow hmain =>
  split at h
  · cases h
  next tipTree htree =>
  split at h
  · cases h
  next final hloop =>
  split_ifs at h with hmoved
  cases h
  exact ⟨⟨newestFirst, exit, mainRow, tipTree, final, hchain, by simpa using hexit, hmain, htree,
    hloop, hmoved⟩, rfl⟩

/-- A land that is no replay: the probe of its key found nothing. -/
structure FreshLand (cx : RepoCx Id) (cmd : LandCommand Id) where
  oldMain : Id
  mainRow : RefRow Id
  contained : List Id
  key_free : landGet cx.db cmd.principal cmd.key = none
  head_ok : redactionActive cx.db cmd.head = false
  main_ref : refGet cx.db "main" = some mainRow
  main_target : mainRow.target = some oldMain
  main_ok : redactionActive cx.db oldMain = false
  contained_ok : inMain cx.db oldMain = some contained

theorem FreshLand.subsingleton {cx : RepoCx Id} {cmd : LandCommand Id} (f f' : FreshLand cx cmd) :
    f = f' := by
  obtain ⟨oldMain, mainRow, contained, hkey, hhead, href, htarget, hmain, hcontained⟩ := f
  obtain ⟨oldMain', mainRow', contained', hkey', hhead', href', htarget', hmain', hcontained'⟩ := f'
  obtain rfl := Option.some.inj (href.symm.trans href')
  obtain rfl := Option.some.inj (htarget.symm.trans htarget')
  obtain rfl := Option.some.inj (hcontained.symm.trans hcontained')
  rfl

/-- The stores the loop starts from: the pending row of the key is in. -/
def FreshLand.pending {cx : RepoCx Id} {cmd : LandCommand Id} (_ : FreshLand cx cmd) : RepoCx Id :=
  { cx with db := landInsertPending cx.db cmd.principal cmd.key cmd.head }

/-- The three ways a land succeeds. -/
inductive LandSuccess (cx : RepoCx Id) (cmd : LandCommand Id) :
    LandDone Id → RepoCx Id → Prop
  | replay (row : LandRow Id) (result : LandResult Id)
      (hrow : landGet cx.db cmd.principal cmd.key = some row) (hstate : row.state ≠ .pending)
      (hhead : row.head = some cmd.head) (hresult : row.result = some result) :
      LandSuccess cx cmd (Naatre.replay result) cx
  | contained (f : FreshLand cx cmd) (hin : cmd.head = f.oldMain ∨ cmd.head ∈ f.contained) :
      LandSuccess cx cmd
        (settle f.pending cmd f.oldMain f.oldMain 0 none (repPathsOf f.pending.db f.oldMain)).1
        (settle f.pending cmd f.oldMain f.oldMain 0 none (repPathsOf f.pending.db f.oldMain)).2
  | rebased (f : FreshLand cx cmd) (hout : ¬ (cmd.head = f.oldMain ∨ cmd.head ∈ f.contained))
      (b : Rebase f.pending cmd f.oldMain f.contained) :
      LandSuccess cx cmd
        (settle { b.final.cx with db := b.movedDb } cmd f.oldMain b.final.tipId b.final.rebased
          (landNote f.pending.db cmd) (repPathsOf b.movedDb b.final.tipId)).1
        (settle { b.final.cx with db := b.movedDb } cmd f.oldMain b.final.tipId b.final.rebased
          (landNote f.pending.db cmd) (repPathsOf b.movedDb b.final.tipId)).2

theorem landInTxn_ok {cx cx' : RepoCx Id} {cmd : LandCommand Id} {done : LandDone Id}
    (h : landInTxn cx cmd = .ok (done, cx')) : LandSuccess cx cmd done cx' := by
  unfold landInTxn at h
  split at h
  next row hrow =>
    split at h
    next => cases h
    all_goals
      next hstate =>
      split at h
      · cases h
      next settled hhead =>
      split_ifs at h with hsettled
      split at h
      · cases h
      next result hresult =>
      cases h
      exact .replay row result hrow (by simp [hstate]) (by simpa [hhead] using hsettled) hresult
  next hkey =>
    split_ifs at h with hredacted
    unfold landPending at h
    split at h
    · cases h
    next mainRow hmain =>
    split at h
    · cases h
    next oldMain htarget =>
    split_ifs at h with hmainRedacted
    split at h
    · cases h
    next contained hcontained =>
    have hmainOk : redactionActive (landInsertPending cx.db cmd.principal cmd.key cmd.head)
        oldMain = false := by simpa using hmainRedacted
    let f : FreshLand cx cmd :=
      ⟨oldMain, mainRow, contained, hkey, by simpa using hredacted, hmain, htarget, hmainOk,
        hcontained⟩
    split_ifs at h with hin
    · cases h
      exact .contained f hin
    · obtain ⟨b, hb⟩ := landRebase_ok h
      have hsuccess := LandSuccess.rebased f hin b
      rw [Prod.ext_iff] at hb
      simp only at hb
      rw [hb.1, hb.2]
      exact hsuccess

/-- A land keeps every changeset. -/
theorem LandSuccess.keeps {cx cx' : RepoCx Id} {cmd : LandCommand Id} {done : LandDone Id}
    (h : LandSuccess cx cmd done cx') : cx.db.Keeps cx'.db := by
  cases h with
  | replay => exact .refl _
  | contained => exact .of_eq rfl
  | rebased f hout b =>
      have hloop : cx.db.Keeps b.final.cx.db := (RepoTables.Keeps.of_eq rfl).trans b.keeps
      exact hloop.trans (.of_eq rfl)

theorem landRebase_error {cx : RepoCx Id} {cmd : LandCommand Id} {oldMain : Id}
    {contained : List Id} {a : LandAbort Id}
    (h : landRebase cx cmd oldMain contained = .error a) :
    BlobWrites cmd.nowNs (fun id => redactionActive cx.db id = false) cx.blobs a.cx.blobs := by
  unfold landRebase at h
  simp only at h
  split at h
  · cases h; exact .refl
  split_ifs at h with hexit
  · cases h; exact .refl
  split at h
  · cases h; exact .refl
  split at h
  · cases h; exact .refl
  split at h
  · cases h; exact .refl
  split at h
  next a' hloop =>
    cases h
    exact landLoop_error hloop
  next final hloop =>
    obtain ⟨os, hos⟩ := landTrace_exists hloop
    split_ifs at h
    cases h
    exact hos.writes

/-- A transaction that aborts has written some of its blobs. -/
theorem landInTxn_error {cx : RepoCx Id} {cmd : LandCommand Id} {a : LandAbort Id}
    (h : landInTxn cx cmd = .error a) :
    BlobWrites cmd.nowNs (fun id => redactionActive cx.db id = false) cx.blobs a.cx.blobs := by
  unfold landInTxn at h
  split at h
  · split at h
    · cases h; exact .refl
    all_goals
      split at h
      · cases h; exact .refl
      split_ifs at h
      · cases h; exact .refl
      split at h
      · cases h; exact .refl
      · cases h
  · split_ifs at h
    · cases h; exact .refl
    unfold landPending at h
    split at h
    · cases h; exact .refl
    split at h
    · cases h; exact .refl
    split_ifs at h
    · cases h; exact .refl
    split at h
    · cases h; exact .refl
    split_ifs at h
    have hwrites := landRebase_error h
    exact hwrites

/-- `execute`: a success committed what the transaction did, an error left the
rows as they were; blobs it wrote stay, with their rows on the split. -/
theorem execute_cases (cx : RepoCx Id) (cmd : LandCommand Id) :
    (∃ done, (execute cx cmd).1 = .ok done ∧ LandSuccess cx cmd done (execute cx cmd).2) ∨
      ∃ e cas cat, (execute cx cmd).1 = .error e ∧
        BlobWrites cmd.nowNs (fun id => redactionActive cx.db id = false) cx.blobs (cas, cat) ∧
        (execute cx cmd).2 =
          { cx with cas := cas, cat := if cx.catIsDb then cx.cat else cat } := by
  unfold execute
  split
  next done cx' h => exact .inl ⟨done, rfl, landInTxn_ok h⟩
  next a h => exact .inr ⟨a.error, _, _, rfl, landInTxn_error h, rfl⟩

end

end Naatre
