import Naatre.Server.LandReport
import Naatre.Server.TicketRoutes

/-!
The rows of the lands. No step takes a settled row or changes it; a land of a
settled key writes nothing; and a land answers that its key is settled only
where the key's row has another head.
-/

namespace Naatre

section

variable {Id : Type} [Platform Id]

/-! ### The settled row stays -/

omit [Platform Id] in
theorem LandRow.keyed_iff {row : LandRow Id} {principal key : String} :
    row.keyed principal key = true ↔ row.principal = principal ∧ row.key = key := by
  simp [keyed]

omit [Platform Id] in
theorem LandRow.keyed_other {row : LandRow Id} {principal key principal' key' : String}
    (hother : ¬ (principal' = principal ∧ key' = key)) (h : row.keyed principal key = true) :
    row.keyed principal' key' = false := by
  rw [Bool.eq_false_iff]
  intro h'
  obtain ⟨rfl, rfl⟩ := keyed_iff.mp h
  obtain ⟨rfl, rfl⟩ := keyed_iff.mp h'
  exact hother ⟨rfl, rfl⟩

/-- Settling one key leaves the rows of the others. -/
theorem landGet_landSettle_of_ne {db : RepoTables Id} {principal key principal' key' : String}
    (hother : ¬ (principal' = principal ∧ key' = key)) (head base : Id) (state : LandStatus)
    (result : LandResult Id) :
    landGet (landSettle db principal key head base state result) principal' key' =
      landGet db principal' key' := by
  have hsettled : LandRow.keyed principal' key'
      (⟨principal, key, state, some head, some base, some result⟩ : LandRow Id) = false :=
    LandRow.keyed_other hother (LandRow.keyed_iff.mpr ⟨rfl, rfl⟩)
  unfold landSettle
  simp only
  split_ifs
  · rw [landGet, landGet]
    simp only
    induction db.lands with
    | nil => rfl
    | cons row rows ih =>
        rw [List.map_cons, List.find?_cons, List.find?_cons, ih]
        by_cases hrow : row.keyed principal key = true
        · rw [if_pos hrow, hsettled, LandRow.keyed_other hother hrow]
        · rw [if_neg hrow]
  · rw [landGet, landGet, List.find?_append, List.find?_singleton, hsettled]
    exact Option.or_none

theorem landGet_landInsertPending {db : RepoTables Id} {principal key principal' key' : String}
    {row : LandRow Id} (head : Id) (h : landGet db principal' key' = some row) :
    landGet (landInsertPending db principal key head) principal' key' = some row := by
  rw [landGet] at h
  rw [landGet, landInsertPending, List.find?_append, h, Option.some_or]

/-- A land leaves every row that it finds. -/
theorem LandSuccess.rowsKept {cx cx' : RepoCx Id} {cmd : LandCommand Id} {done : LandDone Id}
    (h : LandSuccess cx cmd done cx') {principal key : String} {row : LandRow Id}
    (hrow : landGet cx.db principal key = some row) :
    landGet cx'.db principal key = some row := by
  have hother : FreshLand cx cmd → ¬ (principal = cmd.principal ∧ key = cmd.key) := by
    rintro f ⟨rfl, rfl⟩
    rw [f.key_free] at hrow
    cases hrow
  cases h with
  | replay => exact hrow
  | contained f hin =>
      exact (landGet_landSettle_of_ne (hother f) _ _ _ _).trans
        (landGet_landInsertPending cmd.head hrow)
  | rebased f hout b =>
      have hmoved : landGet b.movedDb principal key =
          landGet (landInsertPending cx.db cmd.principal cmd.key cmd.head) principal key := by
        have hlands : b.movedDb.lands =
            (landInsertPending cx.db cmd.principal cmd.key cmd.head).lands := b.tables.2.1
        rw [landGet, hlands, landGet]
      exact (landGet_landSettle_of_ne (hother f) _ _ _ _).trans
        (hmoved.trans (landGet_landInsertPending cmd.head hrow))

theorem landGet_of_lands {db db' : RepoTables Id} (h : db'.lands = db.lands)
    (principal key : String) : landGet db' principal key = landGet db principal key := by
  rw [landGet, h, landGet]

namespace Server

/-- No step takes or changes a row of the lands. -/
theorem step_landGet {s s' : Server Id} {e : Event Id} (h : s.step e = some s') {r : RepoId}
    {principal key : String} {row : LandRow Id}
    (hrow : landGet (s.dbs r) principal key = some row) :
    landGet (s'.dbs r) principal key = some row := by
  have hdb := step_db h r
  generalize s'.dbs r = db at hdb ⊢
  cases hdb with
  | unchanged => exact hrow
  | createWrite i p cx hpending hpersist =>
      obtain ⟨w⟩ := hpersist
      exact (landGet_of_lands (changesetInsertRows_tables w.insert_ok).2.1 _ _).trans hrow
  | land cmd done cx hland => exact hland.rowsKept hrow
  | importGit git opts head stop cx hquiescent hrun =>
      refine (landGet_of_lands ?_ _ _).trans hrow
      cases hrun with
      | untouched => rfl
      | commits sc k mid cx' himported hputs =>
          obtain ⟨cas, cat, rfl⟩ := hputs.frame
          exact himported.tables.2.1
      | grafted sc last main db himported hgraft =>
          obtain ⟨refs, rfl⟩ := (graftMain_cases hgraft).refs_only
          exact himported.tables.2.1
  | casRef req done db hmain hredacted hwritten =>
      refine (landGet_of_lands ?_ _ _).trans hrow
      cases hwritten <;> rfl
  | mark id kind =>
      obtain ⟨redactions, hmark⟩ := redactionMark_db (s.dbs r) id kind s.nowNs
      rw [hmark]
      exact hrow
  | gcStep db hcollected => exact (landGet_of_lands hcollected.lands _ _).trans hrow

end Server

/-! ### The refusal of another head -/

/-- The code only a settled key answers. -/
def ApiError.Settled (e : ApiError Id) : Prop := e.code = .idempotencyKeySettled

omit [Platform Id] in
@[simp] theorem ApiError.not_settled_internal : ¬ (ApiError.internal : ApiError Id).Settled := by
  simp [Settled, internal, new]

omit [Platform Id] in
theorem mapDerive_code (e : DeriveError Id) : ¬ (mapDerive e).Settled := by
  unfold mapDerive
  split
  · simp [ApiError.Settled, ApiError.new]
  · simp

theorem loadTree_code {cx : RepoCx Id} {root : Id} {e : ApiError Id}
    (h : loadTree cx root = .error e) : ¬ e.Settled := by
  unfold loadTree at h
  cases hload : MemNode.load cx.trees (some root) with
  | ok node =>
      rw [hload] at h
      cases h
  | error d =>
      rw [hload] at h
      cases h
      exact mapDerive_code d

theorem redactedBlobError_code (repo : String) (blob : Id) (more : ℕ) (conflicted : Bool) :
    ¬ (redactedBlobError repo blob more conflicted).Settled := by
  intro h
  have hcode : (ApiCode.objectRedacted) = .idempotencyKeySettled := h
  cases hcode

theorem mergeError_code (db : RepoTables Id) (repo recipe : String) (e : MergeError Id) :
    ¬ (mergeError db repo recipe e).Settled := by
  unfold mergeError
  split
  · simp [conflictError, ApiError.Settled, ApiError.new, ApiError.withDetails]
  · split_ifs
    · exact redactedBlobError_code _ _ _ _
    · simp

theorem landMerge_code {cmd : LandCommand Id} {cx : RepoCx Id} {tipTree : MemNode Id}
    {input : NodeInput Id} {e : ApiError Id} (h : landMerge cmd cx tipTree input = .error e) :
    ¬ e.Settled := by
  unfold landMerge at h
  simp only at h
  split_ifs at h
  · split at h
    · cases h
      exact mergeError_code _ _ _ _
    · split at h
      · cases h
        simp [ApiError.Settled, ApiError.new, ApiError.withDetails]
      · cases h
  · split at h
    · cases h
      exact mergeError_code _ _ _ _
    · cases h

theorem landInput_code {cx : RepoCx Id} {node : Id} {e : ApiError Id}
    (h : landInput cx node = .error e) : ¬ e.Settled := by
  have hinternal := @ApiError.not_settled_internal Id
  unfold landInput at h
  split at h
  · cases h
    exact hinternal
  next row hrow =>
  cases htree : loadTree cx row.rootTreeId with
  | error d =>
      rw [htree] at h
      cases h
      exact loadTree_code htree
  | ok tree =>
      rw [htree] at h
      simp only [bind, Except.bind] at h
      cases hparents : row.parents with
      | nil =>
          simp only [hparents] at h
          cases h
      | cons p others =>
          simp only [hparents] at h
          cases hget : changesetGet cx.db p with
          | none =>
              simp only [hget] at h
              cases h
              exact hinternal
          | some pRow =>
              simp only [hget] at h
              cases hload : loadTree cx pRow.rootTreeId with
              | error d =>
                  simp only [hload] at h
                  cases h
                  exact loadTree_code hload
              | ok parentTree =>
                  simp only [hload] at h
                  cases h

theorem gateError_code {db : RepoTables Id} {repo : String} {merged : MergedTree Id}
    {cs : Changeset Id} {newId : Id} {e : ApiError Id}
    (h : gateError db repo merged cs newId = some e) : ¬ e.Settled := by
  unfold gateError at h
  simp only at h
  split_ifs at h
  · cases h
    simp [ApiError.Settled, ApiError.new]
  · split at h
    · cases h
    · cases h
      exact redactedBlobError_code _ _ _ _

theorem putBlobs_code {nowNs : ℕ} {st : LandState Id} {blobs : List (Id × Bytes)} {a : LandAbort Id}
    (h : putBlobs nowNs st blobs = .error a) : ¬ a.error.Settled := by
  induction blobs generalizing st with
  | nil => cases h
  | cons b rest ih =>
      rw [putBlobs] at h
      split_ifs at h
      · exact ih h
      · split at h
        · cases h
          simp
        · exact ih h

theorem landNode_code {cmd : LandCommand Id} {st : LandState Id} {node : Id} {a : LandAbort Id}
    (h : landNode cmd st node = .error a) : ¬ a.error.Settled := by
  unfold landNode at h
  split at h
  next e hinput =>
    cases h
    exact landInput_code hinput
  split at h
  next e hmerge =>
    cases h
    exact landMerge_code hmerge
  simp only at h
  split_ifs at h
  split at h
  · cases h
    simp [ApiError.Settled, ApiError.new]
  · cases h
    simp
  split at h
  next e hgate =>
    cases h
    exact gateError_code hgate
  split at h
  next a' hput =>
    cases h
    exact putBlobs_code hput
  split_ifs at h
  unfold landInsert at h
  simp only at h
  split at h
  · cases h
    exact mapDerive_code _
  split at h
  · cases h
    simp
  · cases h

theorem chainWalk_code {db : RepoTables Id} {contained : List Id} {fuel : ℕ} {cursor : Id}
    {e : ApiError Id} (h : chainWalk db contained fuel cursor = .error e) : ¬ e.Settled := by
  induction fuel generalizing cursor with
  | zero =>
      cases h
      simp
  | succ fuel ih =>
      rw [chainWalk] at h
      split_ifs at h
      · cases h
        simp [redactedConflict, ApiError.Settled, ApiError.new, ApiError.withDetails]
      · split at h
        · cases h
          simp [ApiError.Settled, ApiError.new]
        · split at h
          · cases h
            simp [ApiError.Settled, ApiError.new]
          next above others hparents =>
            cases hrest : chainWalk db contained fuel above with
            | error d =>
                rw [hrest] at h
                cases h
                exact ih hrest
            | ok found =>
                rw [hrest] at h
                cases h

theorem landRebase_code {cx : RepoCx Id} {cmd : LandCommand Id} {oldMain : Id}
    {contained : List Id} {a : LandAbort Id}
    (h : landRebase cx cmd oldMain contained = .error a) : ¬ a.error.Settled := by
  unfold landRebase at h
  simp only at h
  split at h
  next e hwalk =>
    cases h
    exact chainWalk_code hwalk
  split_ifs at h
  · cases h
    simp [redactedConflict, ApiError.Settled, ApiError.new, ApiError.withDetails]
  split at h
  · cases h
    simp [ApiError.Settled, ApiError.new, ApiError.withDetails]
  split at h
  · cases h
    simp
  split at h
  next e hload =>
    cases h
    exact loadTree_code hload
  split at h
  next a' hloop =>
    cases h
    obtain ⟨-, node, -, st, -, -, hnode⟩ := Lib.foldlM_error hloop
    exact landNode_code hnode
  · split_ifs at h
    cases h
    simp [ApiError.Settled, ApiError.new]

/-- Why a land answers that its key is settled: the key has a row, of another
head. -/
theorem landInTxn_settled {cx : RepoCx Id} {cmd : LandCommand Id} {a : LandAbort Id}
    (h : landInTxn cx cmd = .error a) (hcode : a.error.Settled) :
    ∃ row settled, landGet cx.db cmd.principal cmd.key = some row ∧ row.state ≠ .pending ∧
      row.head = some settled ∧ settled ≠ cmd.head ∧
      a = ⟨Origin.settledWithOtherHead cmd.repoName cmd.key settled, cx⟩ := by
  have hinternal := @ApiError.not_settled_internal Id
  unfold landInTxn at h
  split at h
  next row hrow =>
    split at h
    · cases h
      simp [ApiError.Settled, ApiError.new] at hcode
    all_goals
      next hstate =>
      split at h
      · cases h
        exact absurd hcode hinternal
      next settled hhead =>
      split_ifs at h with hother
      · cases h
        exact ⟨row, settled, hrow, by simp [hstate], hhead, hother, rfl⟩
      · split at h
        · cases h
          exact absurd hcode hinternal
        · cases h
  · split_ifs at h
    · cases h
      simp [redactedConflict, ApiError.Settled, ApiError.new, ApiError.withDetails] at hcode
    unfold landPending at h
    split at h
    · cases h
      simp [ApiError.Settled, ApiError.new] at hcode
    split at h
    · cases h
      exact absurd hcode hinternal
    split_ifs at h
    · cases h
      simp [redactedConflict, ApiError.Settled, ApiError.new, ApiError.withDetails] at hcode
    split at h
    · cases h
      exact absurd hcode hinternal
    split_ifs at h
    exact absurd hcode (landRebase_code h)

/-! ### A settled key -/

/-- A land that succeeds leaves its key settled with its answer. -/
theorem LandSuccess.settledRow {cx cx' : RepoCx Id} {cmd : LandCommand Id} {done : LandDone Id}
    (h : LandSuccess cx cmd done cx') : ∃ row result,
      landGet cx'.db cmd.principal cmd.key = some row ∧ row.state ≠ .pending ∧
      row.head = some cmd.head ∧ row.result = some result ∧ done = Naatre.replay result := by
  cases h with
  | replay row result hrow hstate hhead hresult =>
      exact ⟨row, result, hrow, hstate, hhead, hresult, rfl⟩
  | contained f hin =>
      refine ⟨_, _, landGet_landSettle _ _ _ _ _ _ _, ?_, rfl, rfl, rfl⟩
      simp only
      split_ifs <;> simp
  | rebased f hout b =>
      refine ⟨_, _, landGet_landSettle _ _ _ _ _ _ _, ?_, rfl, rfl, rfl⟩
      simp only
      split_ifs <;> simp

end

end Naatre
