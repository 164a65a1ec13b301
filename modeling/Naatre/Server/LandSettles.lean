import Naatre.Core.Plain
import Naatre.Server.Ancestry
import Naatre.Server.LandFits
import Naatre.Server.LandReport

/-!
Lands whose merges are clean. Where every node of the chain merges without a
conflict and no tombstone, scope or size cap is in the way, the one thing that
can still stop the land is its own insert: a rewritten changeset whose id some
row of the repository already has, or merged content over the blob limit.
-/

namespace Naatre

section

variable {Id : Type} [Platform Id]

/-! ### A rebase without its inserts -/

/-- The loop variables after a node was rewritten, the rows left as they are. -/
def LandState.rewritten {cmd : LandCommand Id} {node : Id} (st : LandState Id)
    (m : NodeMerge cmd st node) (canonical : Canonical Id) : LandState Id :=
  { st with
    cx := { st.cx with cas := st.cx.cas ++ m.merged.newBlobs }
    tipId := Platform.changesetId canonical
    tipTree := if Platform.changesetId canonical = node then m.input.tree else m.merged.node }

/-- The node adds nothing to the tip and carries no conflict. -/
def NodeMerge.Contained {cmd : LandCommand Id} {st : LandState Id} {node : Id}
    (m : NodeMerge cmd st node) : Prop := m.delta = [] ∧ m.reps = []

/-- Every node of the chain merges without a conflict onto what the nodes
before it leave, and no size cap and no tombstone refuses what it becomes. -/
def MergesCleanly (cmd : LandCommand Id) : LandState Id → List Id → Prop
  | _, [] => True
  | st, node :: nodes => ∃ m : NodeMerge cmd st node, m.reconflicted = [] ∧
      (m.Contained → MergesCleanly cmd st nodes) ∧
      (¬ m.Contained → m.rebased.encode ≠ .error .encodeTooLarge ∧
        m.merged.node.collect ≠ .error (.core .encodeTooLarge) ∧
        ∀ canonical, m.rebased.encode = .ok canonical →
          gateError st.cx.db cmd.repoName m.merged canonical.cs (Platform.changesetId canonical)
            = none ∧
          MergesCleanly cmd (st.rewritten m canonical) nodes)

/-- Every merged content fits a blob, and every rewritten changeset is the node
it came from or has an id no row has. -/
def RoomFor (cmd : LandCommand Id) : LandState Id → List Id → Prop
  | _, [] => True
  | st, node :: nodes => ∀ m : NodeMerge cmd st node,
      (m.Contained → RoomFor cmd st nodes) ∧
      (¬ m.Contained → (∀ b ∈ m.merged.newBlobs, b.2.length ≤ blobLimit) ∧
        ∀ canonical, m.rebased.encode = .ok canonical →
          (Platform.changesetId canonical = node ∨
            changesetGet st.cx.db (Platform.changesetId canonical) = none) ∧
          RoomFor cmd (st.rewritten m canonical) nodes)

/-! ### What the rounds read -/

/-- A merge reads blobs only. -/
theorem landMerge_congr {cmd : LandCommand Id} {cx cx' : RepoCx Id}
    (hcas : casGet cx'.cas = casGet cx.cas) {tipTree : MemNode Id} {input : NodeInput Id}
    {result : MergedTree Id × List (PathConflict Id)}
    (h : landMerge cmd cx tipTree input = .ok result) : landMerge cmd cx' tipTree input = .ok result := by
  unfold landMerge at h ⊢
  simp only [hcas] at h ⊢
  split_ifs at h ⊢
  · cases hmerge : mergeTreesRecording (casGet cx.cas) input.parentTree tipTree input.tree with
    | error e =>
        simp only [hmerge] at h
        cases h
    | ok rec =>
        simp only [hmerge] at h ⊢
        cases hover : rec.oversized with
        | nil =>
            simp only [hover] at h ⊢
            exact h
        | cons first others =>
            simp only [hover] at h
            cases h
  · cases hmerge : mergeTrees (casGet cx.cas) input.parentTree tipTree input.tree with
    | error e =>
        simp only [hmerge] at h
        cases h
    | ok merged =>
        simp only [hmerge] at h ⊢
        exact h

theorem gateError_congr {db db' : RepoTables Id} (h : db'.redactions = db.redactions)
    (repoName : String) (merged : MergedTree Id) (cs : Changeset Id) (newId : Id) :
    gateError db' repoName merged cs newId = gateError db repoName merged cs newId := by
  have hactive : redactionActive db' = redactionActive db := by
    funext id
    rw [redactionActive, h, redactionActive]
  have hamong : redactionsActiveAmong db' = redactionsActiveAmong db := by
    funext ids
    rw [redactionsActiveAmong, hactive, redactionsActiveAmong]
  rw [gateError, hamong, gateError]

theorem casGet_append (cas blobs : List (Id × Bytes)) (id : Id) :
    casGet (cas ++ blobs) id = (casGet cas id).or (blobs.lookup id) := by
  rw [casGet, List.lookup_append]
  rfl

/-- Content that is there already hides a later copy of itself. -/
theorem casGet_append_cons {cas rest : List (Id × Bytes)} {blob : Id} {bytes : Bytes}
    (h : (casGet cas blob).isSome) : casGet (cas ++ (blob, bytes) :: rest) = casGet (cas ++ rest) := by
  funext id
  rw [casGet_append, casGet_append, List.lookup_cons]
  by_cases hid : id = blob
  · obtain ⟨found, hfound⟩ := Option.isSome_iff_exists.mp h
    rw [hid, hfound, Option.some_or, Option.some_or]
  · rw [beq_eq_false_iff_ne.mpr hid]

/-- Ids of blobs the loop wrote: they are there, and only content within the
limit has them. -/
def WrittenFit (cas : List (Id × Bytes)) (written : List Id) : Prop :=
  ∀ id ∈ written, (casGet cas id).isSome ∧
    ∀ bytes, id = Platform.blobId bytes → bytes.length ≤ blobLimit

theorem casPut_fits (bytes : Bytes) (cas : List (Id × Bytes)) (h : ¬ blobLimit < bytes.length)
    (rest : List (Id × Bytes)) : ∃ cas', casPut cas bytes = some cas' ∧
      (casGet cas' (Platform.blobId bytes)).isSome ∧
      casGet (cas' ++ rest) = casGet (cas ++ (Platform.blobId bytes, bytes) :: rest) := by
  by_cases hthere : (casGet cas (Platform.blobId bytes)).isSome
  · refine ⟨cas, ?_, hthere, (casGet_append_cons hthere).symm⟩
    rw [casPut, if_neg h, if_pos hthere]
  · refine ⟨cas ++ [(Platform.blobId bytes, bytes)], ?_, ?_, ?_⟩
    · rw [casPut, if_neg h, if_neg hthere]
    · rw [casGet_append, List.lookup_cons_self]
      cases casGet cas (Platform.blobId bytes) <;> rfl
    · rw [List.append_assoc]
      rfl

/-- The blobs of a merge go in together, or one of them is over the limit. -/
theorem putBlobs_fits {nowNs : ℕ} {blobs : List (Id × Bytes)} (hnamed : BlobsNamed blobs)
    {st : LandState Id} (hwritten : WrittenFit st.cx.cas st.writtenBlobs) :
    ((∀ b ∈ blobs, b.2.length ≤ blobLimit) → ∃ st', putBlobs nowNs st blobs = .ok st' ∧
      casGet st'.cx.cas = casGet (st.cx.cas ++ blobs) ∧
      WrittenFit st'.cx.cas st'.writtenBlobs) ∧
    (¬ (∀ b ∈ blobs, b.2.length ≤ blobLimit) →
      ∃ a, putBlobs nowNs st blobs = .error a ∧ a.error = .internal) := by
  induction blobs generalizing st with
  | nil =>
      refine ⟨fun _ => ⟨st, rfl, by rw [List.append_nil], hwritten⟩, fun h => ?_⟩
      exact absurd (fun b hb => absurd hb List.not_mem_nil) h
  | cons b rest ih =>
      obtain ⟨blob, bytes⟩ := b
      have hname : blob = Platform.blobId bytes := hnamed _ List.mem_cons_self
      have ih := fun {st} => @ih (fun b hb => hnamed b (List.mem_cons_of_mem _ hb)) st
      by_cases hmem : blob ∈ st.writtenBlobs
      · -- written before: skipped, and its content is within the limit
        obtain ⟨hthere, hfit⟩ := hwritten blob hmem
        have hput : putBlobs nowNs st ((blob, bytes) :: rest) = putBlobs nowNs st rest := by
          rw [putBlobs, if_pos hmem]
        rw [hput, casGet_append_cons hthere, List.forall_mem_cons]
        obtain ⟨hok, herror⟩ := ih hwritten
        exact ⟨fun h => hok h.2, fun h => herror fun hrest => h ⟨hfit bytes hname, hrest⟩⟩
      · by_cases hlarge : blobLimit < bytes.length
        · have hput : putBlobs nowNs st ((blob, bytes) :: rest) = .error ⟨.internal, st.cx⟩ := by
            rw [putBlobs, if_neg hmem, casPut, if_pos hlarge]
          rw [hput, List.forall_mem_cons]
          exact ⟨fun h => absurd hlarge (not_lt.mpr h.1), fun _ => ⟨_, rfl, rfl⟩⟩
        · obtain ⟨cas, hcas, hthere, hsame⟩ := casPut_fits bytes st.cx.cas hlarge rest
          let mid : LandState Id :=
            { st with
              cx := { st.cx with cas := cas, cat := objectRowUpsert st.cx.cat blob bytes.length nowNs }
              writtenBlobs := st.writtenBlobs ++ [blob] }
          have hput : putBlobs nowNs st ((blob, bytes) :: rest) = putBlobs nowNs mid rest := by
            rw [putBlobs, if_neg hmem, hcas]
          have hmid : WrittenFit mid.cx.cas mid.writtenBlobs := by
            intro id hid
            rcases List.mem_append.mp hid with hid | hid
            · obtain ⟨hbefore, hfit⟩ := hwritten id hid
              obtain ⟨found, hfound⟩ := Option.isSome_iff_exists.mp hbefore
              exact ⟨Option.isSome_iff_exists.mpr ⟨found, casPut_findsMore hcas id found hfound⟩, hfit⟩
            · rw [List.mem_singleton.mp hid, hname]
              refine ⟨hthere, fun bytes' heq => ?_⟩
              rw [← Platform.blobId_inj heq]
              exact not_lt.mp hlarge
          rw [hput, hname, ← hsame, List.forall_mem_cons]
          obtain ⟨hok, herror⟩ := ih hmid
          exact ⟨fun h => hok h.2, fun h => herror fun hrest => h ⟨not_lt.mp hlarge, hrest⟩⟩

/-! ### The loop beside it -/

/-- The real loop beside the one without inserts: the same tip, every row and
every tree of the other, the same blobs, and new rows only on the tip's chain. -/
structure Beside (st st' : LandState Id) : Prop where
  tipId : st'.tipId = st.tipId
  tipTree : st'.tipTree = st.tipTree
  repo : st'.cx.id = st.cx.id
  rows : st.cx.db.Keeps st'.cx.db
  trees : TreesGrow st.cx.trees st'.cx.trees
  blobs : casGet st'.cx.cas = casGet st.cx.cas
  redactions : st'.cx.db.redactions = st.cx.db.redactions
  written : WrittenFit st'.cx.cas st'.writtenBlobs
  added : ∀ id, (changesetGet st'.cx.db id).isSome →
    (changesetGet st.cx.db id).isSome ∨ OnChain st'.cx.db id st'.tipId

/-- What the loop holds on either side. -/
structure LoopHeld (st st' : LandState Id) : Prop where
  named : TreesNamed NoSlash st.cx.trees
  tip : st.tipTree.Names NoSlash
  wf : TablesWf st'.cx.db
  trees : TreesWf st'.cx.trees
  stored : (changesetGet st'.cx.db st'.tipId).isSome
  grounded : ∃ past, Grounded past ∧ WrittenIn past st'.cx.db

/-- The merge of a round is the same beside. -/
def Beside.merge {cmd : LandCommand Id} {st st' : LandState Id} {node : Id} (h : Beside st st')
    (m : NodeMerge cmd st node) : NodeMerge cmd st' node where
  input := m.input
  merged := m.merged
  reconflicted := m.reconflicted
  input_ok := RepoCx.Extends.landInput
    ⟨h.rows, h.trees, fun id bytes hget => by rw [h.blobs, hget]⟩ m.input_ok
  merge_ok := by
    rw [h.tipTree]
    exact landMerge_congr h.blobs m.merge_ok

theorem Beside.rebased {cmd : LandCommand Id} {st st' : LandState Id} {node : Id} (h : Beside st st')
    (m : NodeMerge cmd st node) : (h.merge m).rebased = m.rebased := by
  show rebasedChangeset st'.cx st'.tipId _ (deltaBetween st'.tipTree m.merged.node) _ =
    rebasedChangeset st.cx st.tipId _ (deltaBetween st.tipTree m.merged.node) _
  rw [h.tipTree, h.tipId, rebasedChangeset, h.repo]
  rfl

/-- No changeset the loop inserted is the next one: it would be its own
ancestor. -/
theorem Beside.fresh {st st' : LandState Id} (h : Beside st st') (hheld : LoopHeld st st')
    {canonical : Canonical Id} (hparents : canonical.cs.parents = [st.tipId])
    (hget : changesetGet st.cx.db (Platform.changesetId canonical) = none) :
    changesetGet st'.cx.db (Platform.changesetId canonical) = none := by
  by_contra hne
  obtain ⟨row, hrow⟩ := Option.ne_none_iff_exists'.mp hne
  rcases h.added _ (Option.isSome_iff_exists.mpr ⟨row, hrow⟩) with hold | hchain
  · rw [hget] at hold
    cases hold
  obtain ⟨past, hpast, hwritten⟩ := hheld.grounded
  obtain ⟨rank, hranked⟩ := hpast.ranked hwritten hheld.wf
  -- down the tip's chain the rank falls, up to the new row it would have to rise
  have hdown : ∀ {old new : Id}, OnChain st'.cx.db old new → rank old ≤ rank new := by
    intro old new hon
    induction hon with
    | refl => exact le_rfl
    | tail _ hstep ih =>
        obtain ⟨child, hchild, hhead⟩ := hstep
        obtain ⟨hmem, hid⟩ := changesetGet_some hchild
        have hlt := hranked child hmem _ (List.mem_of_head? hhead)
        rw [hid] at hlt
        exact hlt.le.trans ih
  have hframe := hheld.wf.get_changesetId hrow
  obtain ⟨hmem, hid⟩ := changesetGet_some hrow
  have hup : rank st'.tipId < rank row.id := by
    refine hranked row hmem _ ?_
    rw [(hheld.wf.rows row hmem).parents, hframe, hparents, h.tipId, List.mem_singleton]
  have hle := hdown hchain
  rw [hid] at hup
  omega

/-! ### One round -/

theorem NodeMerge.landNode_contained {cmd : LandCommand Id} {st : LandState Id} {node : Id}
    (m : NodeMerge cmd st node) (h : m.Contained) : landNode cmd st node = .ok st := by
  have h' : deltaBetween st.tipTree m.merged.node = [] ∧
      carry m.input.row.canonical.cs.conflicts (m.reconflicted.filterMap contentRep) = [] := h
  rw [landNode, m.input_ok]
  simp only [m.merge_ok]
  rw [if_pos h']

theorem NodeMerge.landNode_kept {cmd : LandCommand Id} {st : LandState Id} {node : Id}
    (m : NodeMerge cmd st node) (h : ¬ m.Contained) {canonical : Canonical Id}
    (hencode : m.rebased.encode = .ok canonical)
    (hgate : gateError st.cx.db cmd.repoName m.merged canonical.cs
      (Platform.changesetId canonical) = none) :
    landNode cmd st node = match putBlobs cmd.nowNs st m.merged.newBlobs with
      | .error a => .error a
      | .ok stored =>
          if Platform.changesetId canonical = node then
            .ok { stored with tipId := node, tipTree := m.input.tree }
          else landInsert cmd stored canonical m.merged := by
  have h' : ¬ (deltaBetween st.tipTree m.merged.node = [] ∧
      carry m.input.row.canonical.cs.conflicts (m.reconflicted.filterMap contentRep) = []) := h
  have hencode' : (rebasedChangeset st.cx st.tipId m.input.row.canonical.cs
      (deltaBetween st.tipTree m.merged.node)
      (carry m.input.row.canonical.cs.conflicts (m.reconflicted.filterMap contentRep))).encode =
      .ok canonical := hencode
  rw [landNode, m.input_ok]
  simp only [m.merge_ok]
  cases putBlobs cmd.nowNs st m.merged.newBlobs with
  | error a =>
      rw [if_neg h', hencode']
      simp only [hgate]
  | ok stored =>
      rw [if_neg h', hencode']
      simp only [hgate]

/-- An insert fails exactly where a row has the id. -/
theorem landInsert_cases {cmd : LandCommand Id} {st : LandState Id} {canonical : Canonical Id}
    {merged : MergedTree Id} (hcollect : ∃ root size rows, merged.node.collect = .ok (root, size, rows)) :
    (changesetGet st.cx.db (Platform.changesetId canonical) = none →
      ∃ st', landInsert cmd st canonical merged = .ok st') ∧
    (changesetGet st.cx.db (Platform.changesetId canonical) ≠ none →
      landInsert cmd st canonical merged = .error ⟨.internal, st.cx⟩) := by
  obtain ⟨root, size, rows, hrows⟩ := hcollect
  refine ⟨fun hfresh => ?_, fun hthere => ?_⟩
  · simp only [landInsert, hrows, changesetInsertRows, hfresh]
    exact ⟨_, rfl⟩
  · have hsome : (changesetGet st.cx.db (Platform.changesetId canonical)).isSome = true :=
      Option.isSome_iff_ne_none.mpr hthere
    simp only [landInsert, hrows, changesetInsertRows, hsome, if_true]

/-- What a round on the real side leaves held. -/
theorem LoopHeld.next {cmd : LandCommand Id} {st next st' next' : LandState Id} {node : Id}
    {o : NodeOutcome} (h : LoopHeld st st') (hstep : NodeStep cmd st' node o next')
    (hnamed : TreesNamed NoSlash next.cx.trees) (htip : next.tipTree.Names NoSlash) :
    LoopHeld next next' where
  named := hnamed
  tip := htip
  wf := hstep.tablesWf h.wf
  trees := hstep.treesGrow.wf h.trees
  stored := (hstep.tipAbove h.wf ⟨h.stored, .refl⟩).stored
  grounded := by
    obtain ⟨past, hpast, hwritten⟩ := h.grounded
    have hone : LandTrace cmd st' [node] [o] next' := .cons hstep (.nil _)
    obtain ⟨past', -, hpast', hwritten'⟩ := hone.grown h.wf h.stored hpast hwritten
    exact ⟨past', hpast', hwritten'⟩

/-- A round adds no row but its own tip. -/
theorem NodeStep.added {cmd : LandCommand Id} {st st' : LandState Id} {node : Id}
    {o : NodeOutcome} (h : NodeStep cmd st node o st') {id : Id}
    (hid : (changesetGet st'.cx.db id).isSome) : (changesetGet st.cx.db id).isSome ∨ id = st'.tipId := by
  cases h with
  | dropped => exact .inl hid
  | adopted m canonical hencode hgate heq stored hput =>
      obtain ⟨cas, cat, written, rfl⟩ := putBlobs_ok hput
      exact .inl hid
  | inserted m canonical hencode hgate heq stored st' hput hinsert =>
      obtain ⟨cas, cat, written, rfl⟩ := putBlobs_ok hput
      obtain ⟨rootTreeId, size, trees, cx, -, hrow, rfl⟩ := landInsert_ok hinsert
      have hrows := changesetInsertRows_rows hrow
      rw [changesetGet_isSome] at hid ⊢
      show id ∈ st.cx.db.changesets.map (fun row => row.id) ∨ _
      rw [show cx.db.changesets = st.cx.db.changesets ++ [_] from hrows, List.map_append] at hid
      rcases List.mem_append.mp hid with hold | hnew
      · exact .inl hold
      · exact .inr (List.mem_singleton.mp hnew)

/-- The tip's chain takes in what a round adds. -/
theorem Beside.added_next {cmd : LandCommand Id} {st st' next' : LandState Id} {node : Id}
    {o : NodeOutcome} (h : Beside st st') (hwf : TablesWf st'.cx.db)
    (hstored : (changesetGet st'.cx.db st'.tipId).isSome) (hstep : NodeStep cmd st' node o next')
    {id : Id} (hid : (changesetGet next'.cx.db id).isSome) :
    (changesetGet st.cx.db id).isSome ∨ OnChain next'.cx.db id next'.tipId := by
  rcases hstep.added hid with hold | rfl
  · rcases h.added id hold with horiginal | hchain
    · exact .inl horiginal
    · have habove : TipAbove id st' := ⟨hstored, hchain⟩
      exact .inr (hstep.tipAbove hwf habove).chain
  · exact .inr .refl

/-- A round beside a clean one goes through beside it where there is room. -/
theorem Beside.round {cmd : LandCommand Id} {st st' : LandState Id} {node : Id} (h : Beside st st')
    (hheld : LoopHeld st st') (m : NodeMerge cmd st node) (hkept : ¬ m.Contained)
    {canonical : Canonical Id} (hencode : m.rebased.encode = .ok canonical)
    (hgate : gateError st.cx.db cmd.repoName m.merged canonical.cs
      (Platform.changesetId canonical) = none)
    (hcollect : m.merged.node.collect ≠ .error (.core .encodeTooLarge)) :
    ((∀ b ∈ m.merged.newBlobs, b.2.length ≤ blobLimit) ∧
        (Platform.changesetId canonical = node ∨
          changesetGet st.cx.db (Platform.changesetId canonical) = none) →
      ∃ next', landNode cmd st' node = .ok next' ∧ Beside (st.rewritten m canonical) next' ∧
        LoopHeld (st.rewritten m canonical) next') ∧
    (¬ ((∀ b ∈ m.merged.newBlobs, b.2.length ≤ blobLimit) ∧
        (Platform.changesetId canonical = node ∨
          changesetGet st.cx.db (Platform.changesetId canonical) = none)) →
      ∃ a, landNode cmd st' node = .error a ∧ a.error = .internal) := by
  have hencode' : (h.merge m).rebased.encode = .ok canonical := by rw [h.rebased m, hencode]
  have hkept' : ¬ (h.merge m).Contained := by
    show ¬ (deltaBetween st'.tipTree m.merged.node = [] ∧ _)
    rw [h.tipTree]
    exact hkept
  have hgate' : gateError st'.cx.db cmd.repoName m.merged canonical.cs
      (Platform.changesetId canonical) = none := by
    rw [gateError_congr h.redactions, hgate]
  have hparents : canonical.cs.parents = [st.tipId] :=
    congrArg Changeset.parents (Changeset.encode_ok hencode)
  have hrows : ∃ root size rows, m.merged.node.collect = .ok (root, size, rows) :=
    (collect_cases m.merged_full.1).resolve_right hcollect
  have hround := (h.merge m).landNode_kept hkept' hencode' hgate'
  obtain ⟨hfits, hlarge⟩ :=
    @putBlobs_fits Id _ cmd.nowNs _ (landMerge_named m.merge_ok) st' h.written
  by_cases hfit : ∀ b ∈ m.merged.newBlobs, b.2.length ≤ blobLimit
  swap
  · obtain ⟨a, ha, herror⟩ := hlarge hfit
    refine ⟨fun hroom => absurd hroom.1 hfit, fun _ => ⟨a, ?_, herror⟩⟩
    rw [hround]
    show (match putBlobs cmd.nowNs st' m.merged.newBlobs with
      | .error a => _
      | .ok stored => _) = _
    rw [ha]
  obtain ⟨stored, hput, hcas, hwritten⟩ := hfits hfit
  have hround' : landNode cmd st' node = if Platform.changesetId canonical = node then
      .ok { stored with tipId := node, tipTree := m.input.tree }
      else landInsert cmd stored canonical m.merged := by
    rw [hround]
    show (match putBlobs cmd.nowNs st' m.merged.newBlobs with
      | .error a => _
      | .ok stored => _) = _
    rw [hput]
    rfl
  have hblobs : casGet stored.cx.cas = casGet (st.cx.cas ++ m.merged.newBlobs) := by
    rw [hcas]
    funext id
    rw [casGet_append, casGet_append, h.blobs]
  have hnames := m.names hheld.named hheld.tip
  have htipNames : (st.rewritten m canonical).tipTree.Names NoSlash := by
    show (if Platform.changesetId canonical = node then m.input.tree else m.merged.node).Names _
    split_ifs
    · exact hnames.1
    · exact hnames.2
  obtain ⟨cas, cat, written, rfl⟩ := putBlobs_ok hput
  by_cases hid : Platform.changesetId canonical = node
  · have hstep : NodeStep cmd st' node .adopted _ := .adopted (h.merge m) canonical hencode' hgate'
      hid _ hput hkept'
    refine ⟨fun _ => ⟨_, hround'.trans (if_pos hid), ?_, hheld.next hstep hheld.named htipNames⟩,
      fun hno => absurd ⟨hfit, .inl hid⟩ hno⟩
    exact
      { tipId := hid.symm
        tipTree := (if_pos hid).symm
        repo := h.repo
        rows := h.rows
        trees := h.trees
        blobs := hblobs
        redactions := h.redactions
        written := hwritten
        added := fun id hsome => h.added_next hheld.wf hheld.stored hstep hsome }
  · obtain ⟨hinserts, hfails⟩ := @landInsert_cases Id _ cmd
      { st' with cx := { st'.cx with cas := cas, cat := cat }, writtenBlobs := written }
      canonical m.merged hrows
    refine ⟨fun hroom => ?_, fun hno => ?_⟩
    · have hfree := h.fresh hheld hparents (hroom.2.resolve_left hid)
      obtain ⟨next', hinsert⟩ := hinserts hfree
      have hstep : NodeStep cmd st' node .inserted next' := .inserted (h.merge m) canonical hencode'
        hgate' hid _ next' hput hinsert hkept'
      refine ⟨next', by rw [hround', if_neg hid, hinsert], ?_,
        hheld.next hstep hheld.named htipNames⟩
      have hkeeps := hstep.keeps
      have hgrow := hstep.treesGrow
      have htables := hstep.tables
      have hadded : ∀ id, (changesetGet next'.cx.db id).isSome →
          (changesetGet st.cx.db id).isSome ∨ OnChain next'.cx.db id next'.tipId :=
        fun id hsome => h.added_next hheld.wf hheld.stored hstep hsome
      obtain ⟨rootTreeId, size, trees, cx, -, hrow, rfl⟩ := landInsert_ok hinsert
      obtain ⟨-, hcx⟩ := changesetInsertRows_some hrow
      have hcxCas : cx.cas = cas := by rw [hcx]
      exact
        { tipId := rfl
          tipTree := (if_neg hid).symm
          repo := by rw [show cx.id = st'.cx.id by rw [hcx]]; exact h.repo
          rows := h.rows.trans hkeeps
          trees := h.trees.trans hgrow
          blobs := by rw [show cx.cas = cas from hcxCas]; exact hblobs
          redactions := htables.2.2.1.trans h.redactions
          written := by rw [show cx.cas = cas from hcxCas]; exact hwritten
          added := hadded }
    · refine ⟨_, hround'.trans ((if_neg hid).trans (hfails fun hnone => hno ⟨hfit, .inr ?_⟩)), rfl⟩
      by_contra hthere
      obtain ⟨row, hrow⟩ := Option.ne_none_iff_exists'.mp hthere
      have hkept := h.rows _ row hrow
      rw [show changesetGet st'.cx.db _ = none from hnone] at hkept
      cases hkept

/-- Beside a clean run the loop goes through exactly where there is room, and
where there is none it dies of an internal error. -/
theorem Beside.run {cmd : LandCommand Id} {chain : List Id} {st st' : LandState Id}
    (h : Beside st st') (hheld : LoopHeld st st') (hclean : MergesCleanly cmd st chain) :
    (RoomFor cmd st chain → ∃ final, chain.foldlM (landNode cmd) st' = .ok final) ∧
    (¬ RoomFor cmd st chain →
      ∃ a, chain.foldlM (landNode cmd) st' = .error a ∧ a.error = .internal) := by
  induction chain generalizing st st' with
  | nil => exact ⟨fun _ => ⟨st', rfl⟩, fun hno => absurd trivial hno⟩
  | cons node nodes ih =>
      obtain ⟨m, hquiet, hskip, hkeep⟩ := hclean
      have hroom : RoomFor cmd st (node :: nodes) ↔ (m.Contained → RoomFor cmd st nodes) ∧
          (¬ m.Contained → (∀ b ∈ m.merged.newBlobs, b.2.length ≤ blobLimit) ∧
            ∀ canonical, m.rebased.encode = .ok canonical →
              (Platform.changesetId canonical = node ∨
                changesetGet st.cx.db (Platform.changesetId canonical) = none) ∧
              RoomFor cmd (st.rewritten m canonical) nodes) := by
        refine ⟨fun hall => hall m, fun hone m' => ?_⟩
        rw [m'.subsingleton m]
        exact hone
      rw [hroom, List.foldlM_cons]
      by_cases hkept : m.Contained
      · -- the node is dropped on both sides
        have hkept' : (h.merge m).Contained := by
          show deltaBetween st'.tipTree m.merged.node = [] ∧ _
          rw [h.tipTree]
          exact hkept
        obtain ⟨hok, herror⟩ := ih h hheld (hskip hkept)
        rw [(h.merge m).landNode_contained hkept']
        exact ⟨fun hr => hok (hr.1 hkept),
          fun hno => herror fun hr => hno ⟨fun _ => hr, fun hnot => absurd hkept hnot⟩⟩
      obtain ⟨hencodes, hcollect, hnext⟩ := hkeep hkept
      obtain ⟨canonical, hencode⟩ := (m.encode_cases hquiet hheld.named hheld.tip).resolve_right hencodes
      obtain ⟨hgate, hclean'⟩ := hnext canonical hencode
      obtain ⟨hgoes, hdies⟩ := h.round hheld m hkept hencode hgate hcollect
      by_cases hhere : (∀ b ∈ m.merged.newBlobs, b.2.length ≤ blobLimit) ∧
          (Platform.changesetId canonical = node ∨
            changesetGet st.cx.db (Platform.changesetId canonical) = none)
      · obtain ⟨next', hround, hbeside, hheld'⟩ := hgoes hhere
        obtain ⟨hok, herror⟩ := ih hbeside hheld' hclean'
        rw [hround]
        refine ⟨fun hr => hok ((hr.2 hkept).2 canonical hencode).2, fun hno => herror fun hr => ?_⟩
        refine hno ⟨fun hyes => absurd hyes hkept, fun _ => ⟨hhere.1, fun canonical' hencode' => ?_⟩⟩
        obtain rfl := Except.ok.inj (hencode.symm.trans hencode')
        exact ⟨hhere.2, hr⟩
      · obtain ⟨a, hround, herror⟩ := hdies hhere
        rw [hround]
        refine ⟨fun hr => absurd ⟨(hr.2 hkept).1, ((hr.2 hkept).2 canonical hencode).1⟩ hhere,
          fun _ => ⟨a, rfl, herror⟩⟩

/-! ### The chain -/

/-- Every ancestor of `main` has its row. -/
def HistoryStored (db : RepoTables Id) (main : Id) : Prop :=
  ∀ id, Ancestor db id main → (changesetGet db id).isSome

/-- The walk over the ancestors of `main` finishes exactly where none of them
is missing. -/
theorem inMain_isSome {db : RepoTables Id} {main : Id} :
    (inMain db main).isSome ↔ HistoryStored db main := by
  constructor
  · intro h id hid
    obtain ⟨out, hout⟩ := Option.isSome_iff_exists.mp h
    obtain ⟨next, hnext, -⟩ := Lib.walk_closed hout (fun z hz => absurd hz List.not_mem_nil) id
      ((mem_inMain hout).mpr hid)
    obtain ⟨row, hrow, -⟩ := Option.map_eq_some_iff.mp hnext
    rw [hrow]
    rfl
  · intro h
    have hrow : ∀ x next', parentsOf db x = some next' → next' ≠ [] →
        Lib.rowNext (fun row : ChangesetRow Id => row.id) (fun row => row.parents) db.changesets x =
          some next' := by
      intro x next' hx _
      rw [← hx, parentsOf, changesetGet, Lib.rowNext]
    have hsome : ∀ x ∈ [main], ∀ y, Relation.ReflTransGen (Lib.Edge (parentsOf db)) x y →
        (parentsOf db y).isSome := by
      intro x hx y hy
      rw [List.mem_singleton.mp hx] at hy
      obtain ⟨row, hrow⟩ := Option.isSome_iff_exists.mp (h y hy)
      rw [parentsOf, hrow]
      rfl
    exact Lib.walk_table_isSome (fun row : ChangesetRow Id => row.id) (fun row => row.parents) hrow hsome

/-- No changeset of a chain, and no first parent of one, is tombstoned. -/
def ChainUnmarked (db : RepoTables Id) (head : Id) (chain : List Id) : Prop :=
  redactionActive db head = false ∧
    ∀ node ∈ chain, redactionActive db node = false ∧
      ∀ parent, FirstParent db node parent → redactionActive db parent = false

/-- The walk down a chain that nothing refuses finds it, given a step for each
of its nodes and one for its end. -/
theorem HeadChain.walk {db : RepoTables Id} {main head : Id} {contained chain : List Id}
    (h : HeadChain db main head chain) (hin : inMain db main = some contained)
    (hfree : ChainUnmarked db head chain) {fuel : ℕ} (hfuel : chain.length < fuel) :
    ∃ exit, chainWalk db contained fuel head = .ok (chain, exit) ∧ redactionActive db exit = false := by
  induction h generalizing fuel with
  | @stop exit hanc =>
      obtain ⟨fuel, rfl⟩ := Nat.exists_eq_succ_of_ne_zero (by omega : fuel ≠ 0)
      refine ⟨exit, ?_, hfree.1⟩
      rw [chainWalk, if_pos ((mem_inMain hin).mpr hanc)]
  | @node node parent rest hout hparent _ ih =>
      obtain ⟨fuel, rfl⟩ := Nat.exists_eq_succ_of_ne_zero (by omega : fuel ≠ 0)
      obtain ⟨hhead, hchain⟩ := hfree
      obtain ⟨-, habove⟩ := hchain node List.mem_cons_self
      have hbelow : ChainUnmarked db parent rest :=
        ⟨habove parent hparent, fun n hn => hchain n (List.mem_cons_of_mem _ hn)⟩
      have hlength : rest.length < fuel := by
        rw [List.length_cons] at hfuel
        omega
      obtain ⟨exit, hwalk, hexit⟩ := ih hbelow hlength
      obtain ⟨row, hrow, hfirst⟩ := hparent
      obtain ⟨others, hparents⟩ : ∃ others, row.parents = parent :: others := by
        cases hps : row.parents with
        | nil =>
            rw [hps] at hfirst
            cases hfirst
        | cons p others =>
            rw [hps] at hfirst
            exact ⟨others, by rw [Option.some.inj hfirst]⟩
      refine ⟨exit, ?_, hexit⟩
      have houtside : node ∉ contained := fun hmem => hout ((mem_inMain hin).mp hmem)
      rw [chainWalk, if_neg houtside, if_neg (by rw [hhead]; decide), hrow]
      simp only [hparents, hwalk]
      rfl

/-- Parents come before their children, so a chain meets no row twice. -/
theorem HeadChain.length_le {db : RepoTables Id} {main head : Id} {chain : List Id}
    (h : HeadChain db main head chain) {rank : Id → ℕ} (hrank : RankedBy db rank) :
    chain.length ≤ db.changesets.length := by
  have hfalls : chain.Pairwise (fun a b => rank b < rank a) ∧ ∀ n ∈ chain, rank n ≤ rank head := by
    induction h with
    | stop => exact ⟨.nil, fun n hn => absurd hn List.not_mem_nil⟩
    | @node node parent rest _ hparent _ ih =>
        obtain ⟨hpairs, hbelow⟩ := ih
        obtain ⟨row, hrow, hfirst⟩ := hparent
        obtain ⟨hmem, hid⟩ := changesetGet_some hrow
        have hlt : rank parent < rank node := by
          have hlt := hrank row hmem parent (List.mem_of_head? hfirst)
          rwa [hid] at hlt
        refine ⟨.cons (fun n hn => (hbelow n hn).trans_lt hlt) hpairs, fun n hn => ?_⟩
        rcases List.mem_cons.mp hn with rfl | hn
        · exact le_rfl
        · exact (hbelow n hn).trans hlt.le
  have hnodup : chain.Nodup := hfalls.1.imp fun hlt heq => by
    rw [heq] at hlt
    exact lt_irrefl _ hlt
  have hsub : chain ⊆ db.changesets.map (fun row => row.id) := by
    intro node hnode
    obtain ⟨-, row, hrow⟩ := h.stored hnode
    obtain ⟨hmem, rfl⟩ := changesetGet_some hrow
    exact List.mem_map_of_mem hmem
  have hle := (List.subperm_of_subset hnodup hsub).length_le
  rwa [List.length_map] at hle

/-! ### The land -/

/-- A land nothing refuses: its key is free, neither `main` nor the chain of its
head is tombstoned, the chain changes paths of its scope only, and each node of
it merges cleanly onto `main`. -/
structure CleanLand (cx : RepoCx Id) (cmd : LandCommand Id) where
  oldMain : Id
  chain : List Id
  start : LandState Id
  key_free : landGet cx.db cmd.principal cmd.key = none
  main_at : (refGet cx.db "main").bind (fun row => row.target) = some oldMain
  main_unmarked : redactionActive cx.db oldMain = false
  chain_ok : HeadChain cx.db oldMain cmd.head chain
  unmarked : ChainUnmarked cx.db cmd.head chain
  in_scope : scopeOffender cx.db cmd.scope chain.reverse = none
  start_ok : chain ≠ [] → ∃ mainRow tipTree, changesetGet cx.db oldMain = some mainRow ∧
    loadTree cx mainRow.rootTreeId = .ok tipTree ∧
    start = ⟨cx, oldMain, mainRow.generation, tipTree, 0, []⟩
  merges : MergesCleanly cmd start chain.reverse

/-- Every ancestor of `main` is there, every merged content fits a blob, and no
other row has the id of a changeset the land makes. -/
def CleanLand.Room {cx : RepoCx Id} {cmd : LandCommand Id} (l : CleanLand cx cmd) : Prop :=
  HistoryStored cx.db l.oldMain ∧ RoomFor cmd l.start l.chain.reverse

/-- Past its checks a rebase does what its loop does, `main` being where it
was. -/
theorem landRebase_loop {cx : RepoCx Id} {cmd : LandCommand Id} {oldMain exit : Id}
    {contained chain : List Id} {mainRow : ChangesetRow Id} {tipTree : MemNode Id}
    (hchain : chainWalk cx.db contained (cx.db.changesets.length + 1) cmd.head = .ok (chain, exit))
    (hexit : redactionActive cx.db exit = false)
    (hscope : scopeOffender cx.db cmd.scope chain.reverse = none)
    (hmain : changesetGet cx.db oldMain = some mainRow)
    (htree : loadTree cx mainRow.rootTreeId = .ok tipTree)
    (href : (refGet cx.db "main").bind (fun row => row.target) = some oldMain) :
    (∀ final, chain.reverse.foldlM (landNode cmd) ⟨cx, oldMain, mainRow.generation, tipTree, 0, []⟩ =
      .ok final → ∃ done cx', landRebase cx cmd oldMain contained = .ok (done, cx')) ∧
    (∀ a, chain.reverse.foldlM (landNode cmd) ⟨cx, oldMain, mainRow.generation, tipTree, 0, []⟩ =
      .error a → landRebase cx cmd oldMain contained = .error a) := by
  constructor
  · intro final hloop
    have hmoved : (mainCasMove final.cx.db oldMain final.tipId cmd.principal).1 ≠ 0 := by
      obtain ⟨os, hos⟩ := landTrace_exists hloop
      obtain ⟨row, hrow, htarget⟩ := Option.bind_eq_some_iff.mp href
      have hmem : row ∈ final.cx.db.refs := by
        rw [hos.tables.1]
        exact List.mem_of_find?_eq_some hrow
      have hname : row.name = "main" := by simpa using List.find?_some hrow
      refine Nat.ne_of_gt (List.length_pos_of_mem (List.mem_filter.mpr ⟨hmem, ?_⟩))
      simp [hname, htarget]
    unfold landRebase
    simp only [hchain, hexit, hscope, hmain, htree, hloop, Bool.false_eq_true, if_false]
    rw [if_neg hmoved]
    exact ⟨_, _, rfl⟩
  · intro a hloop
    unfold landRebase
    simp only [hchain, hexit, hscope, hmain, htree, hloop, Bool.false_eq_true, if_false]

/-- The stores with the pending row of a land's key in. -/
def RepoCx.pending (cx : RepoCx Id) (cmd : LandCommand Id) : RepoCx Id :=
  { cx with db := landInsertPending cx.db cmd.principal cmd.key cmd.head }

namespace CleanLand

variable {cx : RepoCx Id} {cmd : LandCommand Id}

/-- A land nothing refuses gets as far as the walk over `main`'s ancestors. -/
theorem landInTxn_eq (l : CleanLand cx cmd) :
    landInTxn cx cmd = match inMain cx.db l.oldMain with
      | none => .error ⟨.internal, cx.pending cmd⟩
      | some contained =>
          if cmd.head = l.oldMain ∨ cmd.head ∈ contained then
            .ok (settle (cx.pending cmd) cmd l.oldMain l.oldMain 0 none
              (repPathsOf (cx.pending cmd).db l.oldMain))
          else landRebase (cx.pending cmd) cmd l.oldMain contained := by
  obtain ⟨row, hrow, htarget⟩ := Option.bind_eq_some_iff.mp l.main_at
  have hpendingRow : refGet (cx.pending cmd).db "main" = some row := hrow
  have hpendingMain : redactionActive (cx.pending cmd).db l.oldMain = false := l.main_unmarked
  have hwalk : inMain (cx.pending cmd).db l.oldMain = inMain cx.db l.oldMain := rfl
  have hpending : landInTxn cx cmd = landPending (cx.pending cmd) cmd := by
    simp only [landInTxn, l.key_free, l.unmarked.1, Bool.false_eq_true, if_false]
    rfl
  rw [hpending, landPending]
  cases hin : inMain cx.db l.oldMain with
  | none => simp only [hpendingRow, htarget, hpendingMain, Bool.false_eq_true, if_false, hwalk, hin]
  | some contained =>
      simp only [hpendingRow, htarget, hpendingMain, Bool.false_eq_true, if_false, hwalk, hin]

/-- What the loop is beside from its start. -/
theorem beside (l : CleanLand cx cmd) {mainRow : ChangesetRow Id}
    {tipTree : MemNode Id}
    (hstart : l.start = ⟨cx, l.oldMain, mainRow.generation, tipTree, 0, []⟩) :
    Beside l.start ⟨cx.pending cmd, l.oldMain, mainRow.generation, tipTree, 0, []⟩ := by
  rw [hstart]
  exact
    { tipId := rfl
      tipTree := rfl
      repo := rfl
      rows := .of_eq rfl
      trees := .refl _
      blobs := rfl
      redactions := rfl
      written := fun id hid => absurd hid List.not_mem_nil
      added := fun id hid => .inl hid }

theorem execute_of_ok {done : LandDone Id} {cx' : RepoCx Id}
    (h : landInTxn cx cmd = .ok (done, cx')) : (execute cx cmd).1 = .ok done := by
  rw [execute, h]

theorem execute_of_error {a : LandAbort Id} (h : landInTxn cx cmd = .error a) :
    (execute cx cmd).1 = .error a.error := by
  rw [execute, h]

/-- A land nothing refuses settles exactly where there is room for it, and dies
of an internal error elsewhere. -/
theorem settles (l : CleanLand cx cmd) (hnamed : TreesNamed NoSlash cx.trees)
    (hwf : TablesWf cx.db) (htrees : TreesWf cx.trees)
    (hgrounded : ∃ past, Grounded past ∧ WrittenIn past cx.db) :
    (l.Room → ∃ done, (execute cx cmd).1 = .ok done) ∧
      (¬ l.Room → (execute cx cmd).1 = .error .internal) := by
  have htxn := l.landInTxn_eq
  cases hin : inMain cx.db l.oldMain with
  | none =>
      have hmissing : ¬ HistoryStored cx.db l.oldMain := by
        rw [← inMain_isSome, hin]
        exact Bool.false_ne_true
      refine ⟨fun hroom => absurd hroom.1 hmissing, fun _ => ?_⟩
      rw [hin] at htxn
      exact execute_of_error htxn
  | some contained =>
      have hstored : HistoryStored cx.db l.oldMain := by
        rw [← inMain_isSome, hin]
        rfl
      rw [hin] at htxn
      simp only at htxn
      by_cases hhead : cmd.head = l.oldMain ∨ cmd.head ∈ contained
      · -- the head is in `main` already: there is no chain
        have hancestor : Ancestor cx.db cmd.head l.oldMain := by
          rcases hhead with hhead | hhead
          · rw [hhead]
            exact .refl
          · exact (mem_inMain hin).mp hhead
        have hempty : l.chain = [] := by
          cases hchain : l.chain with
          | nil => rfl
          | cons node rest =>
              have hchainOk := l.chain_ok
              rw [hchain] at hchainOk
              cases hchainOk with
              | node hout => exact absurd hancestor hout
        rw [if_pos hhead] at htxn
        refine ⟨fun _ => ⟨_, execute_of_ok htxn⟩, fun hno => absurd ⟨hstored, ?_⟩ hno⟩
        rw [hempty]
        trivial
      · rw [if_neg hhead] at htxn
        have hchain : l.chain ≠ [] := by
          intro hempty
          have hchainOk := l.chain_ok
          rw [hempty] at hchainOk
          cases hchainOk with
          | stop hin' => exact hhead (.inr ((mem_inMain hin).mpr hin'))
        obtain ⟨mainRow, tipTree, hmain, htree, hstart⟩ := l.start_ok hchain
        obtain ⟨past, hpast, hwritten⟩ := hgrounded
        obtain ⟨rank, hrank⟩ := hpast.ranked hwritten hwf
        have hfuel : l.chain.length < (cx.pending cmd).db.changesets.length + 1 := by
          have hle := l.chain_ok.length_le hrank
          show l.chain.length < cx.db.changesets.length + 1
          omega
        have hchainOk : HeadChain (cx.pending cmd).db l.oldMain cmd.head l.chain :=
          .of_eq (show (cx.pending cmd).db.changesets = cx.db.changesets from rfl) l.chain_ok
        obtain ⟨exit, hwalk, hexit⟩ := hchainOk.walk hin l.unmarked hfuel
        obtain ⟨hgoes, hdies⟩ := landRebase_loop hwalk hexit l.in_scope hmain htree l.main_at
        have hbeside := l.beside hstart
        have hheld : LoopHeld l.start
            ⟨cx.pending cmd, l.oldMain, mainRow.generation, tipTree, 0, []⟩ := by
          rw [hstart]
          exact
            { named := hnamed
              tip := hnamed.load (loadTree_ok.mp htree)
              wf := hwf.of_eq rfl rfl
              trees := htrees
              stored := Option.isSome_iff_exists.mpr ⟨mainRow, hmain⟩
              grounded := ⟨past, hpast, hwritten.of_eq rfl⟩ }
        obtain ⟨hok, herror⟩ := hbeside.run hheld l.merges
        refine ⟨fun hroom => ?_, fun hno => ?_⟩
        · obtain ⟨final, hloop⟩ := hok hroom.2
          obtain ⟨done, cx', hland⟩ := hgoes final hloop
          exact ⟨done, execute_of_ok (htxn.trans hland)⟩
        · obtain ⟨a, hloop, hinternal⟩ := herror fun hroom => hno ⟨hstored, hroom⟩
          rw [execute_of_error (htxn.trans (hdies a hloop)), hinternal]

end CleanLand

/-! ### Deciding it -/

/-- The merge of a round, where it has one. -/
def NodeMerge.find (cmd : LandCommand Id) (st : LandState Id) (node : Id) :
    Option (NodeMerge cmd st node) :=
  match hinput : landInput st.cx node with
  | .error _ => none
  | .ok input =>
      match hmerge : landMerge cmd st.cx st.tipTree input with
      | .error _ => none
      | .ok (merged, reconflicted) => some ⟨input, merged, reconflicted, hinput, hmerge⟩

theorem NodeMerge.find_none {cmd : LandCommand Id} {st : LandState Id} {node : Id}
    (h : NodeMerge.find cmd st node = none) (m : NodeMerge cmd st node) : False := by
  unfold NodeMerge.find at h
  split at h
  next e hinput =>
    rw [m.input_ok] at hinput
    cases hinput
  next input hinput =>
    obtain rfl := Except.ok.inj (m.input_ok.symm.trans hinput)
    split at h
    next e hmerge =>
      rw [m.merge_ok] at hmerge
      cases hmerge
    next => cases h

instance (cmd : LandCommand Id) (st : LandState Id) (node : Id) (m : NodeMerge cmd st node) :
    Decidable m.Contained := inferInstanceAs (Decidable (_ ∧ _))

instance decidableEqError {ε α : Type} [DecidableEq ε] (x : Except ε α) (e : ε) :
    Decidable (x = .error e) :=
  match x with
  | .ok _ => isFalse fun h => nomatch h
  | .error _ => decidable_of_iff (_ = e) ⟨fun h => congrArg _ h, Except.error.inj⟩

instance decidableForOk {ε α : Type} (x : Except ε α) (P : α → Prop) [∀ a, Decidable (P a)] :
    Decidable (∀ a, x = .ok a → P a) :=
  match x with
  | .error _ => isTrue fun _ ha => nomatch ha
  | .ok a => decidable_of_iff (P a) ⟨fun h _ hb => Except.ok.inj hb ▸ h, fun h => h a rfl⟩

instance decidableMergesCleanly (cmd : LandCommand Id) :
    (st : LandState Id) → (chain : List Id) → Decidable (MergesCleanly cmd st chain)
  | _, [] => isTrue trivial
  | st, node :: nodes =>
      match hfind : NodeMerge.find cmd st node with
      | none => isFalse fun ⟨m, _⟩ => NodeMerge.find_none hfind m
      | some m =>
          have := decidableMergesCleanly cmd st nodes
          have := fun canonical => decidableMergesCleanly cmd (st.rewritten m canonical) nodes
          decidable_of_iff
            (m.reconflicted = [] ∧ (m.Contained → MergesCleanly cmd st nodes) ∧
              (¬ m.Contained → m.rebased.encode ≠ .error .encodeTooLarge ∧
                m.merged.node.collect ≠ .error (.core .encodeTooLarge) ∧
                ∀ canonical, m.rebased.encode = .ok canonical →
                  gateError st.cx.db cmd.repoName m.merged canonical.cs
                    (Platform.changesetId canonical) = none ∧
                  MergesCleanly cmd (st.rewritten m canonical) nodes))
            ⟨fun h => ⟨m, h⟩, fun ⟨m', h⟩ => m'.subsingleton m ▸ h⟩

instance decidableRoomFor (cmd : LandCommand Id) :
    (st : LandState Id) → (chain : List Id) → Decidable (RoomFor cmd st chain)
  | _, [] => isTrue trivial
  | st, node :: nodes =>
      match hfind : NodeMerge.find cmd st node with
      | none => isTrue fun m => (NodeMerge.find_none hfind m).elim
      | some m =>
          have := decidableRoomFor cmd st nodes
          have := fun canonical => decidableRoomFor cmd (st.rewritten m canonical) nodes
          decidable_of_iff
            ((m.Contained → RoomFor cmd st nodes) ∧
              (¬ m.Contained → (∀ b ∈ m.merged.newBlobs, b.2.length ≤ blobLimit) ∧
                ∀ canonical, m.rebased.encode = .ok canonical →
                  (Platform.changesetId canonical = node ∨
                    changesetGet st.cx.db (Platform.changesetId canonical) = none) ∧
                  RoomFor cmd (st.rewritten m canonical) nodes))
            ⟨fun h m' => m'.subsingleton m ▸ h, fun h => h m⟩

instance (db : RepoTables Id) (main : Id) : Decidable (HistoryStored db main) :=
  decidable_of_iff _ inMain_isSome

instance {cx : RepoCx Id} {cmd : LandCommand Id} (l : CleanLand cx cmd) : Decidable l.Room :=
  inferInstanceAs (Decidable (_ ∧ _))

/-- The walk of a chain met no tombstone. -/
theorem chainWalk_unmarked {db : RepoTables Id} {contained chain : List Id} {head exit : Id}
    {fuel : ℕ} (h : chainWalk db contained fuel head = .ok (chain, exit))
    (hexit : redactionActive db exit = false) : ChainUnmarked db head chain := by
  induction fuel generalizing head chain with
  | zero => simp [chainWalk] at h
  | succ fuel ih =>
      rw [chainWalk] at h
      by_cases hin : head ∈ contained
      · rw [if_pos hin] at h
        obtain ⟨rfl, rfl⟩ := Prod.mk.inj (Except.ok.inj h)
        exact ⟨hexit, fun node hnode => absurd hnode List.not_mem_nil⟩
      rw [if_neg hin] at h
      by_cases hactive : redactionActive db head = true
      · rw [if_pos hactive] at h
        cases h
      rw [if_neg hactive] at h
      have hfree : redactionActive db head = false := by simpa using hactive
      split at h
      · cases h
      next row hrow =>
      split at h
      · cases h
      next next rest hparents =>
      rw [Lib.bind_eq_ok] at h
      obtain ⟨⟨below, exit'⟩, hbelow, h⟩ := h
      simp only [pure, Except.pure, Except.ok.injEq, Prod.mk.injEq] at h
      obtain ⟨rfl, rfl⟩ := h
      obtain ⟨hnext, hchain⟩ := ih hbelow
      refine ⟨hfree, fun node hnode => ?_⟩
      rcases List.mem_cons.mp hnode with rfl | hnode
      · refine ⟨hfree, fun parent hparent => ?_⟩
        obtain ⟨row', hrow', hfirst⟩ := hparent
        obtain rfl := Option.some.inj (hrow.symm.trans hrow')
        rw [hparents] at hfirst
        obtain rfl := Option.some.inj hfirst
        exact hnext
      · exact hchain node hnode

/-- A land whose checks pass is clean where its merges are. -/
def CleanLand.ofChecks {cx : RepoCx Id} {cmd : LandCommand Id} {oldMain exit : Id}
    {contained chain : List Id} {mainRow : ChangesetRow Id} {tipTree : MemNode Id}
    (hkey : landGet cx.db cmd.principal cmd.key = none)
    (hmainAt : (refGet cx.db "main").bind (fun row => row.target) = some oldMain)
    (hunmarked : redactionActive cx.db oldMain = false)
    (hin : inMain cx.db oldMain = some contained)
    (hwalk : chainWalk cx.db contained (cx.db.changesets.length + 1) cmd.head = .ok (chain, exit))
    (hexit : redactionActive cx.db exit = false)
    (hscope : scopeOffender cx.db cmd.scope chain.reverse = none)
    (hmain : changesetGet cx.db oldMain = some mainRow)
    (htree : loadTree cx mainRow.rootTreeId = .ok tipTree)
    (hmerges : MergesCleanly cmd ⟨cx, oldMain, mainRow.generation, tipTree, 0, []⟩ chain.reverse) :
    CleanLand cx cmd where
  oldMain := oldMain
  chain := chain
  start := ⟨cx, oldMain, mainRow.generation, tipTree, 0, []⟩
  key_free := hkey
  main_at := hmainAt
  main_unmarked := hunmarked
  chain_ok := chainWalk_ok hin hwalk
  unmarked := chainWalk_unmarked hwalk hexit
  in_scope := hscope
  start_ok := fun _ => ⟨mainRow, tipTree, hmain, htree, rfl⟩
  merges := hmerges

/-- The checks of a land, run: its clean land where they pass. -/
def CleanLand.find (cx : RepoCx Id) (cmd : LandCommand Id) : Option (CleanLand cx cmd) :=
  if hkey : landGet cx.db cmd.principal cmd.key = none then
    match hmainAt : (refGet cx.db "main").bind (fun row => row.target) with
    | none => none
    | some oldMain =>
        match hin : inMain cx.db oldMain with
        | none => none
        | some contained =>
            match hwalk : chainWalk cx.db contained (cx.db.changesets.length + 1) cmd.head with
            | .error _ => none
            | .ok (chain, exit) =>
                match hmain : changesetGet cx.db oldMain with
                | none => none
                | some mainRow =>
                    match htree : loadTree cx mainRow.rootTreeId with
                    | .error _ => none
                    | .ok tipTree =>
                        if h : redactionActive cx.db oldMain = false ∧
                            redactionActive cx.db exit = false ∧
                            scopeOffender cx.db cmd.scope chain.reverse = none ∧
                            MergesCleanly cmd ⟨cx, oldMain, mainRow.generation, tipTree, 0, []⟩
                              chain.reverse then
                          some (.ofChecks hkey hmainAt h.1 hin hwalk h.2.1 h.2.2.1 hmain htree h.2.2.2)
                        else none
  else none

/-- A settled key answers its head again. -/
theorem execute_replay {cx : RepoCx Id} {cmd : LandCommand Id} {row : LandRow Id}
    (hrow : landGet cx.db cmd.principal cmd.key = some row) (hsettled : row.OfLand)
    (hhead : row.head = some cmd.head) : ∃ done, (execute cx cmd).1 = .ok done := by
  obtain ⟨head, base, result, hhead', -, hresult, hstate⟩ := hsettled
  obtain rfl := Option.some.inj (hhead.symm.trans hhead')
  refine ⟨replay result, ?_⟩
  have htxn : landInTxn cx cmd = .ok (replay result, cx) := by
    unfold landInTxn
    by_cases hnil : result.conflicts = []
    · rw [if_pos hnil] at hstate
      simp only [hrow, hstate, hhead, hresult, ne_eq, not_true_eq_false, if_false]
    · rw [if_neg hnil] at hstate
      simp only [hrow, hstate, hhead, hresult, ne_eq, not_true_eq_false, if_false]
  rw [execute, htxn]

namespace Server

/-- Every land nothing refuses, in every run: the replay of a settled key
answers; a land that merges cleanly settles exactly where the ancestors of
`main` are all there, every merged content fits a blob and every rewritten
changeset is its own node or has an id no row has. Elsewhere it answers with an
internal error. -/
theorem land_settles_of_reach {s : Server Id} (h : Reach (fun _ e => SplitPaths e) s)
    (r : RepoId) (cmd : LandCommand Id) :
    (∀ row, landGet (s.dbs r) cmd.principal cmd.key = some row → row.head = some cmd.head →
      ∃ done, (execute (s.cx r) cmd).1 = .ok done) ∧
    ∀ l : CleanLand (s.cx r) cmd,
      ((∃ done, (execute (s.cx r) cmd).1 = .ok done) ↔ l.Room) ∧
      (¬ l.Room → (execute (s.cx r) cmd).1 = .error .internal) := by
  refine ⟨fun row hrow hhead => ?_, fun l => ?_⟩
  · exact execute_replay hrow (ofLand_of_reach h r row (List.mem_of_find?_eq_some hrow)) hhead
  have hnamed : Named NoSlash s :=
    named_of_reach (fun name hname => Wire.no_slash_of_component hname) (fun _ _ he => he.names) h
  obtain ⟨past, hpast, hwritten, -⟩ := ancestryInv_of_reach h r
  obtain ⟨hok, herror⟩ := l.settles (hnamed.trees (s.file r)) (tablesWf_of_reach h r)
    (treesWf_of_reach h _) ⟨past, hpast, hwritten⟩
  refine ⟨⟨fun ⟨done, hdone⟩ => ?_, hok⟩, herror⟩
  by_contra hno
  rw [herror hno] at hdone
  cases hdone

end Server

end

/-! ### A changeset made by hand -/

namespace Server.Handmade

def start : Server PlainId := boot .dbPerRepo [(1, "r")] 100 10

def upload (bytes : Bytes) : List (Event PlainId) := [.putBytes 1 bytes, .record 1 bytes]

/-- The changeset a run inserted last. -/
def lastOf (events : List (Event PlainId)) : PlainId :=
  ((Lib.exec step start events).bind fun s =>
    (s.dbs 1).changesets.getLast?.map (fun row => row.id)).getD []

/-- A create on top of `parent` that adds one file. -/
def create (events : List (Event PlainId)) (parent : PlainId) (name : String) (bytes : Bytes) :
    List (Event PlainId) :=
  events ++
    [.createLookup 1
      { repoName := "r"
        principal := "ann"
        scope := none
        parents := [parent]
        author := "ann"
        message := "edit"
        timestampNs := some 7
        changes := [⟨⟨[], name⟩, .add, some (Platform.blobId bytes), some 2, some false⟩] },
    .createWrite 0]

def command (head : PlainId) (key : String) : LandCommand PlainId :=
  ⟨"r", "ann", none, head, key, none, false, 0⟩

def imported : List (Event PlainId) :=
  .importGit 1 [⟨1, [], "ann", "first", 5, .entry "a" (.blob .regular 11 [97, 10]) .empty⟩]
      ⟨false, false⟩ 1 1
    :: upload [98, 10] ++ upload [99, 10]

/-- The head: a file `b` on the import. -/
def head : List (Event PlainId) := create imported (lastOf imported) "b" [98, 10]

def sibling : List (Event PlainId) := create head (lastOf imported) "c" [99, 10]

/-- A sibling of the head is on `main`. -/
def moved : List (Event PlainId) := sibling ++ [.land 1 (command (lastOf sibling) "first")]

/-- By hand, on top of `main`, what the land of the head will make of it. -/
def handmade : List (Event PlainId) := create moved (lastOf sibling) "b" [98, 10]

/-- The clean land of the head after a run. -/
def landOf (s : Server PlainId) : Option (CleanLand (s.cx 1) (command (lastOf head) "second")) :=
  CleanLand.find (s.cx 1) (command (lastOf head) "second")

end Server.Handmade

namespace Server

open Handmade in
/-- The head lands over its sibling. -/
theorem land_settles_of_reach_sibling : ∃ s, Lib.exec step start moved = some s ∧
    ∃ l : CleanLand (s.cx 1) (command (lastOf head) "second"), l.Room ∧
      ∃ done, (execute (s.cx 1) (command (lastOf head) "second")).1 = .ok done := by
  have h : (Lib.exec step start moved).any (fun s => (landOf s).any fun l => decide l.Room) = true := by
    decide +kernel
  obtain ⟨s, hs, hfound⟩ := (Option.any_eq_true _ _).mp h
  obtain ⟨l, hl, hroom⟩ := (Option.any_eq_true _ _).mp hfound
  have hroom : l.Room := by simpa using hroom
  have hreach : Reach (fun _ e => SplitPaths e) s := by
    refine Lib.Reach.exec (.start ⟨.dbPerRepo, [(1, "r")], 100, 10, by decide, rfl⟩) ?_ hs
    intro s
    simp [moved, sibling, head, create, imported, upload, SplitPaths, Path.components, NoSlash]
  exact ⟨s, hs, l, hroom, (((land_settles_of_reach hreach 1 _).2 l).1.mpr hroom)⟩

open Handmade in
/-- With the changeset it would make already there, the same land dies of an
internal error. -/
theorem land_handmade : ∃ s, Lib.exec step start handmade = some s ∧
    Nonempty (CleanLand (s.cx 1) (command (lastOf head) "second")) ∧
      (execute (s.cx 1) (command (lastOf head) "second")).1 = .error .internal := by
  have h : (Lib.exec step start handmade).any (fun s => (landOf s).isSome &&
      decide ((execute (s.cx 1) (command (lastOf head) "second")).1 = .error .internal)) = true := by
    decide +kernel
  obtain ⟨s, hs, hfound⟩ := (Option.any_eq_true _ _).mp h
  rw [Bool.and_eq_true] at hfound
  obtain ⟨l, -⟩ := Option.isSome_iff_exists.mp hfound.1
  exact ⟨s, hs, ⟨l⟩, by simpa using hfound.2⟩

end Server

end Naatre
