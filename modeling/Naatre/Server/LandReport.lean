import Naatre.Core.Plain
import Naatre.Server.LandChain

/-!
The conflict report of a land. The list is that of the settlement node, the
last node of the chain that was not dropped; what an earlier node recorded
stays in the history below it.
-/

namespace Naatre

section

variable {Id : Type} [Platform Id]

/-! ### Recorded conflicts -/

theorem contentRep_some {c : PathConflict Id} {rep : ConflictRep Id}
    (h : contentRep c = some rep) : rep.path = c.path := by
  unfold contentRep at h
  split at h
  · cases h
    rfl
  · cases h

/-- A conflict the merge recorded: its rendering stands at its path. -/
def Recorded (fetchBlob : Id → Option Bytes) (st : MergeState Id) (c : PathConflict Id) : Prop :=
  ∃ rep bytes, contentRep c = some rep ∧ markerBytes rep fetchBlob = .ok bytes ∧
    (c.path, ⟨Platform.blobId bytes, bytes.length, c.exec⟩) ∈ st.mergedFiles ∧
    Platform.blobId bytes ∈ st.newBlobs.map (fun b => b.1)

theorem Recorded.grow {fetchBlob : Id → Option Bytes} {st st' : MergeState Id}
    {c : PathConflict Id} (h : Recorded fetchBlob st c) (hgrows : st.Grows st') :
    Recorded fetchBlob st' c := by
  obtain ⟨rep, bytes, hrep, hbytes, hfile, hblob⟩ := h
  obtain ⟨b, hb, hid⟩ := List.mem_map.mp hblob
  exact ⟨rep, bytes, hrep, hbytes, hgrows.files hfile,
    List.mem_map.mpr ⟨b, hgrows.newBlobs hb, hid⟩⟩

theorem MergeState.mem_write {st : MergeState Id} {p : Path} {bytes : Bytes} {exec : Bool} :
    (p, ⟨Platform.blobId bytes, bytes.length, exec⟩) ∈ (st.write p bytes exec).mergedFiles ∧
      Platform.blobId bytes ∈ (st.write p bytes exec).newBlobs.map (fun b => b.1) := by
  refine ⟨List.mem_append_right _ List.mem_cons_self, ?_⟩
  simp only [MergeState.write]
  split_ifs with hmem
  · obtain ⟨b, hb, hid⟩ := List.any_eq_true.mp hmem
    exact List.mem_map.mpr ⟨b, hb, of_decide_eq_true hid⟩
  · simp

theorem PathMerged.recorded {fetchBlob : Id → Option Bytes} {on : OnConflict} {p : Path}
    {b o t : Option (FileMeta Id)} {st st' : MergeState Id}
    (h : PathMerged fetchBlob on p b o t st st')
    (hrecorded : ∀ c ∈ st.recorded, Recorded fetchBlob st c) :
    ∀ c ∈ st'.recorded, Recorded fetchBlob st' c := by
  have hold : ∀ c ∈ st.recorded, Recorded fetchBlob st' c :=
    fun c hc => (hrecorded c hc).grow h.grows
  have htaken : ∀ (c : PathConflict Id) (mid : MergeState Id), mid.recorded = st.recorded →
      ConflictTaken fetchBlob on c mid st' → ∀ c ∈ st'.recorded, Recorded fetchBlob st' c := by
    intro c mid hmid htaken c' hc'
    cases htaken with
    | refused => exact hold c' (hmid ▸ hc')
    | oversized => exact hold c' (hmid ▸ hc')
    | recorded rep bytes hon hrep hbytes =>
        rcases List.mem_append.mp hc' with hc' | hc'
        · exact hold c' (hmid ▸ hc')
        · rw [List.mem_singleton.mp hc']
          exact ⟨rep, bytes, hrep, hbytes, MergeState.mem_write⟩
  cases h with
  | agreed => exact hold
  | theirs => exact hold
  | ours => exact hold
  | lines => exact hold
  | linesConflict hd sides hconflict reason _ hstep =>
      exact htaken _ { st with inputIds := st.inputIds ++ sides.ids } rfl hstep
  | absent hd habsent reason _ hstep => exact htaken _ st rfl hstep

/-- A recorded conflict has its representation. -/
theorem Merged.recorded {fetchBlob : Id → Option Bytes} {on : OnConflict}
    {base ours theirs : MemNode Id} {rec : RecordedMerge Id}
    (m : Merged fetchBlob on base ours theirs rec) :
    ∀ c ∈ rec.conflicts, Recorded fetchBlob m.final c := by
  rw [m.conflicts]
  refine Lib.foldlM_invariant (I := fun st => ∀ c ∈ st.recorded, Recorded fetchBlob st c)
    m.loop_ok ?_ ?_
  · exact fun c hc => absurd hc List.not_mem_nil
  · exact fun st p _ st' hrecorded hp => (mergePath_ok hp).recorded hrecorded

/-- The node a round makes carries a representation wherever the round
recorded a conflict. -/
theorem NodeMerge.mem_reps {cmd : LandCommand Id} {st : LandState Id} {node : Id}
    (m : NodeMerge cmd st node) {c : PathConflict Id} (hc : c ∈ m.reconflicted) :
    c.path ∈ m.reps.map (fun rep => rep.path) := by
  obtain ⟨rec, ⟨merge⟩, -, hreconflicted, -⟩ := landMerge_ok m.merge_ok
  have hmem : c ∈ rec.conflicts := by
    rw [hreconflicted] at hc
    split_ifs at hc
    · exact hc
    · exact absurd hc List.not_mem_nil
  obtain ⟨rep, -, hrep, -⟩ := merge.recorded c hmem
  rw [NodeMerge.reps, mem_carry_paths, List.map_append, List.mem_append, ← contentRep_some hrep]
  exact .inr (List.mem_map_of_mem (List.mem_filterMap.mpr ⟨c, hc, hrep⟩))

/-! ### The settlement node -/

/-- The round that made a rebase's settlement node: the last one that kept its
node. -/
structure SettlementRound {cx : RepoCx Id} {cmd : LandCommand Id} {oldMain : Id}
    {contained : List Id} (b : Rebase cx cmd oldMain contained) where
  before : List Id
  node : Id
  after : List Id
  st : LandState Id
  st' : LandState Id
  chain_eq : b.chain = before ++ node :: after
  before_ok : before.foldlM (landNode cmd) b.start = .ok st
  round_ok : landNode cmd st node = .ok st'
  merge : NodeMerge cmd st node
  kept : ¬ (merge.delta = [] ∧ merge.reps = [])
  outcomes : List NodeOutcome
  later : LandTrace cmd st' after outcomes b.final
  dropped : ∀ o ∈ outcomes, o = .dropped

/-- Rounds that drop their nodes change nothing. -/
theorem LandTrace.dropped_eq {cmd : LandCommand Id} {st st' : LandState Id} {chain : List Id}
    {os : List NodeOutcome} (h : LandTrace cmd st chain os st') (hos : ∀ o ∈ os, o = .dropped) :
    st' = st := by
  induction h with
  | nil => rfl
  | cons hnode _ ih =>
      obtain rfl := hos _ List.mem_cons_self
      cases hnode with
      | dropped => exact ih fun o ho => hos o (List.mem_cons_of_mem _ ho)

/-- The changeset a kept round leaves at the tip carries the round's
representations. -/
theorem NodeMerge.repPaths_tip {cmd : LandCommand Id} {st st' : LandState Id} {node : Id}
    (m : NodeMerge cmd st node) (hround : landNode cmd st node = .ok st')
    (hkept : ¬ (m.delta = [] ∧ m.reps = [])) (hwf : TablesWf st.cx.db) :
    repPathsOf st'.cx.db st'.tipId = m.reps.map (fun rep => rep.path) := by
  obtain ⟨o, hstep⟩ := landNode_step hround
  cases hstep with
  | dropped m' hdelta hreps =>
      rw [m'.subsingleton m] at hdelta hreps
      exact absurd ⟨hdelta, hreps⟩ hkept
  | adopted m' canonical hencode hgate hid stored hput =>
      obtain ⟨cas, cat, written, rfl⟩ := putBlobs_ok hput
      obtain ⟨hcanonical, -⟩ := m'.adopted_parent hwf hencode hid
      rw [m'.subsingleton m] at hencode hcanonical
      have hrow : changesetGet st.cx.db node = some m.input.row := (landInput_ok m.input_ok).1
      simp only [repPathsOf, hrow]
      rw [hcanonical, Changeset.encode_ok hencode]
      rfl
  | inserted m' canonical hencode hgate hid stored st' hput hinsert =>
      obtain ⟨cas, cat, written, rfl⟩ := putBlobs_ok hput
      obtain ⟨rootTreeId, size, trees, cx, -, hrow, rfl⟩ := landInsert_ok hinsert
      rw [m'.subsingleton m] at hencode
      obtain ⟨hfresh, hcx⟩ := changesetInsertRows_some hrow
      have hget := changesetGet_append_new (congrArg (fun c => c.db.changesets) hcx) hfresh
      simp only [ChangesetInsert.row] at hget
      simp only [repPathsOf, hget]
      rw [Changeset.encode_ok hencode]
      rfl

namespace SettlementRound

variable {cx : RepoCx Id} {cmd : LandCommand Id} {oldMain : Id} {contained : List Id}
  {b : Rebase cx cmd oldMain contained}

/-- The tip of the rebase is the settlement node. -/
theorem repPaths (round : SettlementRound b) (hwf : TablesWf cx.db) :
    repPathsOf b.movedDb b.final.tipId = round.merge.reps.map (fun rep => rep.path) := by
  obtain ⟨os, hos⟩ := landTrace_exists round.before_ok
  have hst : TablesWf round.st.cx.db := hos.tablesWf hwf
  have htip := round.merge.repPaths_tip round.round_ok round.kept hst
  have hmoved : repPathsOf b.movedDb b.final.tipId = repPathsOf b.final.cx.db b.final.tipId := rfl
  rw [hmoved, round.later.dropped_eq round.dropped, htip]

end SettlementRound

/-! ### The settled row -/

/-- A row that is settled is `done` exactly when it reports no conflict. -/
def LandRow.Honest (row : LandRow Id) : Prop :=
  ∀ result, row.result = some result →
    row.state ≠ .pending ∧ (row.state = .done ↔ result.conflicts = [])

/-- The settled row of a key is found under it. -/
theorem landGet_landSettle (db : RepoTables Id) (principal key : String) (head base : Id)
    (state : LandStatus) (result : LandResult Id) :
    landGet (landSettle db principal key head base state result) principal key =
      some ⟨principal, key, state, some head, some base, some result⟩ := by
  have hkeyed : LandRow.keyed principal key
      (⟨principal, key, state, some head, some base, some result⟩ : LandRow Id) = true := by
    simp [LandRow.keyed]
  unfold landSettle
  simp only
  split_ifs with hsome
  · rw [landGet] at hsome ⊢
    simp only
    generalize db.lands = rows at hsome
    induction rows with
    | nil => simp at hsome
    | cons row rows ih =>
        rw [List.map_cons]
        by_cases hrow : row.keyed principal key = true
        · rw [if_pos hrow, List.find?_cons_of_pos hkeyed]
        · rw [if_neg hrow, List.find?_cons_of_neg hrow]
          rw [List.find?_cons_of_neg hrow] at hsome
          exact ih hsome
  · have hnone : landGet db principal key = none := by simpa using hsome
    rw [landGet] at hnone ⊢
    rw [List.find?_append, hnone, Option.none_or, List.find?_singleton, if_pos hkeyed]

/-- A row as a land settles it. -/
def LandRow.OfLand (row : LandRow Id) : Prop :=
  ∃ head base result, row.head = some head ∧ row.base = some base ∧ row.result = some result ∧
    row.state = if result.conflicts = [] then .done else .conflicted

omit [Platform Id] in
theorem LandRow.OfLand.honest {row : LandRow Id} (h : row.OfLand) : row.Honest := by
  obtain ⟨head, base, settled, -, -, hsettled, hstate⟩ := h
  intro result hresult
  obtain rfl := Option.some.inj (hsettled.symm.trans hresult)
  rw [hstate]
  by_cases hnil : settled.conflicts = [] <;> simp [hnil]

omit [Platform Id] in
theorem settled_ofLand (principal key : String) (head base landed : Id) (rebased : ℕ)
    (note : Option String) (conflicts : List Path) :
    LandRow.OfLand ⟨principal, key, if conflicts = [] then .done else .conflicted, some head,
      some base, some ⟨landed, rebased, note, conflicts⟩⟩ :=
  ⟨head, base, ⟨landed, rebased, note, conflicts⟩, rfl, rfl, rfl, rfl⟩

/-- Settling a key replaces its row. -/
theorem mem_landSettle {db : RepoTables Id} {principal key : String} {head base : Id}
    {state : LandStatus} {result : LandResult Id} {row : LandRow Id}
    (h : row ∈ (landSettle db principal key head base state result).lands) :
    row ∈ db.lands ∧ row.keyed principal key = false ∨
      row = ⟨principal, key, state, some head, some base, some result⟩ := by
  unfold landSettle at h
  simp only at h
  split_ifs at h with hsome
  · obtain ⟨old, hold, rfl⟩ := List.mem_map.mp h
    by_cases hkeyed : old.keyed principal key = true
    · rw [if_pos hkeyed]
      exact .inr rfl
    · rw [if_neg hkeyed]
      exact .inl ⟨hold, by simpa using hkeyed⟩
  · rcases List.mem_append.mp h with h | h
    · refine .inl ⟨h, ?_⟩
      have hnone : db.lands.find? (fun row => row.keyed principal key) = none := by
        simpa [landGet] using hsome
      have hnot := List.find?_eq_none.mp hnone row h
      simpa using hnot
    · exact .inr (List.mem_singleton.mp h)

theorem LandSuccess.ofLand {cx cx' : RepoCx Id} {cmd : LandCommand Id} {done : LandDone Id}
    (h : LandSuccess cx cmd done cx') (hlands : ∀ row ∈ cx.db.lands, row.OfLand) :
    ∀ row ∈ cx'.db.lands, row.OfLand := by
  -- the pending row of the key is the one that is settled
  have hpending : ∀ row ∈ (landInsertPending cx.db cmd.principal cmd.key cmd.head).lands,
      row.keyed cmd.principal cmd.key = false → row.OfLand := by
    intro row hrow hother
    rcases List.mem_append.mp hrow with hrow | hrow
    · exact hlands row hrow
    · rw [List.mem_singleton.mp hrow] at hother
      simp [LandRow.keyed] at hother
  cases h with
  | replay => exact hlands
  | contained f hin =>
      intro row hrow
      rcases mem_landSettle hrow with ⟨hrow, hother⟩ | rfl
      · exact hpending row hrow hother
      · exact settled_ofLand _ _ _ _ _ _ _ _
  | rebased f hout b =>
      intro row hrow
      rcases mem_landSettle hrow with ⟨hrow, hother⟩ | rfl
      · have hmoved : b.movedDb.lands = b.final.cx.db.lands := rfl
        rw [hmoved, b.tables.2.1] at hrow
        exact hpending row hrow hother
      · exact settled_ofLand _ _ _ _ _ _ _ _

namespace Server

theorem DbStep.ofLand {s : Server Id} {r : RepoId} {e : Event Id} {db : RepoTables Id}
    (h : DbStep s r e db) (hlands : ∀ row ∈ (s.dbs r).lands, row.OfLand) :
    ∀ row ∈ db.lands, row.OfLand := by
  cases h with
  | unchanged => exact hlands
  | createWrite i p cx hpending hpersist =>
      obtain ⟨w⟩ := hpersist
      rw [(changesetInsertRows_tables w.insert_ok).2.1]
      exact hlands
  | land cmd done cx hland => exact hland.ofLand hlands
  | importGit git opts head stop cx hquiescent hrun =>
      cases hrun with
      | untouched => exact hlands
      | commits sc k mid cx' himported hputs =>
          obtain ⟨cas, cat, rfl⟩ := hputs.frame
          simp only [himported.tables.2.1]
          exact hlands
      | grafted sc last main db himported hgraft =>
          obtain ⟨refs, rfl⟩ := (graftMain_cases hgraft).refs_only
          simp only [himported.tables.2.1]
          exact hlands
  | casRef req done db hmain hredacted hwritten => cases hwritten <;> exact hlands
  | mark id kind =>
      obtain ⟨redactions, hmark⟩ := redactionMark_db (s.dbs r) id kind s.nowNs
      rw [hmark]
      exact hlands
  | gcStep db hcollected =>
      rw [hcollected.lands]
      exact hlands

/-- Between the requests every row is settled: a pending one lives within its
transaction. -/
theorem ofLand_of_reach {ok : Server Id → Event Id → Prop} {s : Server Id} (h : Reach ok s)
    (r : RepoId) : ∀ row ∈ (s.dbs r).lands, row.OfLand := by
  refine Lib.Reach.invariant (I := fun s => ∀ row ∈ (s.dbs r).lands, row.OfLand) ?_
    (fun s e s' _ hlands _ he => (step_db he r).ofLand hlands) h
  rintro s ⟨layout, repos, nowNs, graceNs, -, rfl⟩
  exact fun _ hrow => absurd hrow List.not_mem_nil

end Server

/-! ### The report -/

/-- What the answer of a land and its settled row report. -/
structure LandReported (cx : RepoCx Id) (cmd : LandCommand Id) (done : LandDone Id)
    (cx' : RepoCx Id) : Prop where
  /-- the recorded result, `done` exactly when it lists no conflict -/
  settled : ∃ row, landGet cx'.db cmd.principal cmd.key = some row ∧
    row.result = some ⟨done.landed, done.rebased, done.note, done.conflicts⟩ ∧
    row.state ≠ .pending ∧ (row.state = .done ↔ done.conflicts = [])
  /-- a land that is no replay lists the conflicts of the changeset it left
  main on -/
  listed : landGet cx.db cmd.principal cmd.key = none →
    done.conflicts = repPathsOf cx'.db done.landed
  /-- the list is what the settlement node carries, all it recorded among it -/
  recorded : landGet cx.db cmd.principal cmd.key = none →
    ∀ (f : FreshLand cx cmd), ¬ (cmd.head = f.oldMain ∨ cmd.head ∈ f.contained) →
    ∀ (b : Rebase f.pending cmd f.oldMain f.contained) (round : SettlementRound b),
      done.conflicts = round.merge.reps.map (fun rep => rep.path) ∧
        ∀ c ∈ round.merge.reconflicted, c.path ∈ done.conflicts

theorem LandSuccess.reported {cx cx' : RepoCx Id} {cmd : LandCommand Id} {done : LandDone Id}
    (h : LandSuccess cx cmd done cx') (hwf : TablesWf cx.db)
    (hlands : ∀ row ∈ cx.db.lands, row.Honest) : LandReported cx cmd done cx' := by
  have hsettled : ∀ (db : RepoTables Id) (base landed : Id) (rebased : ℕ) (note : Option String)
      (conflicts : List Path), ∃ row, landGet (landSettle db cmd.principal cmd.key cmd.head base
        (if conflicts = [] then .done else .conflicted) ⟨landed, rebased, note, conflicts⟩)
          cmd.principal cmd.key = some row ∧
        row.result = some ⟨landed, rebased, note, conflicts⟩ ∧
        row.state ≠ .pending ∧ (row.state = .done ↔ conflicts = []) := by
    intro db base landed rebased note conflicts
    refine ⟨_, landGet_landSettle _ _ _ _ _ _ _, rfl, ?_⟩
    have hrow := settled_ofLand cmd.principal cmd.key cmd.head base landed rebased note conflicts
    exact hrow.honest _ rfl
  cases h with
  | replay row result hrow hstate hhead hresult =>
      have hmem : row ∈ cx.db.lands := List.mem_of_find?_eq_some hrow
      refine ⟨⟨row, hrow, hresult, hlands row hmem result hresult⟩, fun hfree => ?_,
        fun hfree => ?_⟩
      · simp [hrow] at hfree
      · simp [hrow] at hfree
  | contained f hin =>
      refine ⟨hsettled _ _ _ _ _ _, fun _ => rfl, fun _ f' hout' => ?_⟩
      rw [f'.subsingleton f] at hout'
      exact absurd hin hout'
  | rebased f hout b =>
      refine ⟨hsettled _ _ _ _ _ _, fun _ => rfl, fun _ f' _ b' round => ?_⟩
      obtain rfl := f'.subsingleton f
      obtain rfl := b'.subsingleton b
      have hpaths := round.repPaths (show TablesWf f'.pending.db from hwf.of_eq rfl rfl)
      refine ⟨hpaths, fun c hc => ?_⟩
      have hmem := round.merge.mem_reps hc
      rw [← hpaths] at hmem
      exact hmem

namespace Server

/-- Every land that succeeds, in every run: its result is settled, `done`
exactly when the list is empty; a land that is no replay lists exactly what the
changeset it left main on carries, and with it every path at which the last
node it kept recorded a conflict. -/
theorem land_reported_of_reach {ok : Server Id → Event Id → Prop} {s : Server Id}
    (h : Reach ok s) {r : RepoId} {cmd : LandCommand Id} {done : LandDone Id} {cx' : RepoCx Id}
    (hland : execute (s.cx r) cmd = (.ok done, cx')) : LandReported (s.cx r) cmd done cx' := by
  rcases execute_cases (s.cx r) cmd with ⟨done', hdone, hsuccess⟩ | ⟨e, cas, cat, herror, -, -⟩
  · rw [hland] at hdone hsuccess
    obtain rfl := Except.ok.inj hdone
    exact hsuccess.reported (tablesWf_of_reach h r) fun row hrow =>
      (ofLand_of_reach h r row hrow).honest
  · rw [hland] at herror
    cases herror

end Server

end

/-! ### A conflict below the tip -/

namespace Server.BuriedConflict

def start : Server PlainId := boot .dbPerRepo [(1, "r")] 100 10

def upload (bytes : Bytes) : List (Event PlainId) := [.putBytes 1 bytes, .record 1 bytes]

/-- One imported commit with a file `a`, and three uploads. -/
def imported : List (Event PlainId) :=
  .importGit 1 [⟨1, [], "ann", "first", 5, .entry "a" (.blob .regular 11 [97, 10]) .empty⟩]
      ⟨false, false⟩ 1 1
    :: upload [98, 10] ++ upload [99, 10] ++ upload [100, 10]

/-- The changeset a run inserted last. -/
def lastOf (events : List (Event PlainId)) : PlainId :=
  ((Lib.exec step start events).bind fun s =>
    (s.dbs 1).changesets.getLast?.map (fun row => row.id)).getD []

/-- A create on top of `parent`. -/
def create (events : List (Event PlainId)) (parent : PlainId) (name : String) (op : Op)
    (bytes : Bytes) : List (Event PlainId) :=
  events ++
    [.createLookup 1
      { repoName := "r"
        principal := "ann"
        scope := none
        parents := [parent]
        author := "ann"
        message := "edit"
        timestampNs := some 7
        changes := [⟨⟨[], name⟩, op, some (Platform.blobId bytes), some 2, some false⟩] },
    .createWrite 0]

def command (head : PlainId) (key : String) : LandCommand PlainId :=
  ⟨"r", "ann", none, head, key, none, true, 0⟩

def edited : List (Event PlainId) := create imported (lastOf imported) "a" .mod [98, 10]

/-- One edit of `a` landed. -/
def landed : List (Event PlainId) := edited ++ [.land 1 (command (lastOf edited) "first")]

def competing : List (Event PlainId) := create landed (lastOf imported) "a" .mod [99, 10]

/-- The land of the other edit lists the file. -/
def listed (s : Server PlainId) : Bool :=
  match execute (s.cx 1) (command (lastOf competing) "second") with
  | (.ok done, _) => decide (done.conflicts = [⟨[], "a"⟩])
  | (.error _, _) => false

/-- Another edit of `a`, and a file `b` on top of it. -/
def stacked : List (Event PlainId) := create competing (lastOf competing) "b" .add [100, 10]

/-- The land of the two. -/
def second : LandCommand PlainId := command (lastOf stacked) "second"

/-- The file at a path of a changeset's tree. -/
def fileAt (cx : RepoCx PlainId) (id : PlainId) (p : Path) : Option (FileMeta PlainId) :=
  match changesetGet cx.db id with
  | none => none
  | some row =>
      match MemNode.load cx.trees (some row.rootTreeId) with
      | .error _ => none
      | .ok node => (flattenFiles node).lookup p

/-- A changeset the land inserted carries a conflict at `p`, the landed tree
holds its rendering there, and the answer lists no conflict under a key settled
`done`. -/
def buried (cx cx' : RepoCx PlainId) (cmd : LandCommand PlainId) (done : LandDone PlainId)
    (p : Path) : Bool :=
  cx'.db.changesets.any (fun row =>
      (changesetGet cx.db row.id).isNone && row.canonical.cs.conflicts.any (fun rep =>
        decide (rep.path = p) &&
          match markerBytes rep (casGet cx'.cas) with
          | .error _ => false
          | .ok bytes =>
              (fileAt cx' done.landed p).any (fun file =>
                decide (file.blob = Platform.blobId bytes))))
    && decide (p ∉ done.conflicts)
    && (landGet cx'.db cmd.principal cmd.key).any (fun row => decide (row.state = .done))

end Server.BuriedConflict

namespace Server

open BuriedConflict in
/-- The other edit's land reports the conflict its changeset carries. -/
theorem land_reported_of_reach_landed : ∃ s done cx', Lib.exec step start competing = some s ∧
    execute (s.cx 1) (command (lastOf competing) "second") = (.ok done, cx') ∧
    done.conflicts = [⟨[], "a"⟩] ∧
    LandReported (s.cx 1) (command (lastOf competing) "second") done cx' := by
  have hrun : (Lib.exec step start competing).any listed = true := by decide +kernel
  obtain ⟨s, hs, hlisted⟩ := (Option.any_eq_true _ _).mp hrun
  unfold listed at hlisted
  split at hlisted
  next done cx' hland =>
    have hstart : Init start := ⟨.dbPerRepo, [(1, "r")], 100, 10, by decide, rfl⟩
    have hreach : Reach (fun _ _ => True) s := Lib.Reach.exec (.start hstart) (by simp) hs
    exact ⟨s, done, cx', hs, hland, of_decide_eq_true hlisted,
      land_reported_of_reach hreach hland⟩
  next => cases hlisted

open BuriedConflict in
/-- The first of two nodes records a conflict, the second takes its rendering
over, and the land answers that there is none. -/
theorem buried_conflict : ∃ s done cx', Lib.exec step start stacked = some s ∧
    execute (s.cx 1) second = (.ok done, cx') ∧
    buried (s.cx 1) cx' second done ⟨[], "a"⟩ = true := by
  have hrun : (Lib.exec step start stacked).any (fun s =>
      match execute (s.cx 1) second with
      | (.ok done, cx') => buried (s.cx 1) cx' second done ⟨[], "a"⟩
      | (.error _, _) => false) = true := by
    decide +kernel
  obtain ⟨s, hs, hbad⟩ := (Option.any_eq_true _ _).mp hrun
  split at hbad
  next done cx' hland => exact ⟨s, done, cx', hs, hland, hbad⟩
  next => cases hbad

end Server

end Naatre
