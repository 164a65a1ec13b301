import Naatre.Lib.Table
import Naatre.Server.DeriveQueue

/-!
What one step of the derive queue does. Each statement is followed by the
lookup of one key, and from the statements comes `RowStep`: the ways a step can
change the row of a key. The leases in the hands of workers are a list of
their own.
-/

namespace Naatre

section

variable {Id : Type} [DecidableEq Id]

/-! ### Lookups -/

theorem deriveGet_key {rows : List (DeriveRow Id)} {key : DeriveKey Id} {row : DeriveRow Id}
    (h : deriveGet rows key = some row) : row.key = key := by
  simpa using List.find?_some h

theorem deriveGet_mem {rows : List (DeriveRow Id)} {key : DeriveKey Id} {row : DeriveRow Id}
    (h : deriveGet rows key = some row) : row ∈ rows := List.mem_of_find?_eq_some h

theorem deriveGet_map {rows : List (DeriveRow Id)} {g : DeriveRow Id → DeriveRow Id}
    (hg : ∀ row, (g row).key = row.key) (key : DeriveKey Id) :
    deriveGet (rows.map g) key = (deriveGet rows key).map g := by
  rw [deriveGet, deriveGet, List.find?_map]
  congr 2
  funext row
  simp [hg]

theorem deriveGet_append {rows : List (DeriveRow Id)} {row : DeriveRow Id}
    (hfresh : deriveGet rows row.key = none) (key : DeriveKey Id) :
    deriveGet (rows ++ [row]) key = if key = row.key then some row else deriveGet rows key := by
  rw [deriveGet, List.find?_append]
  split_ifs with hkey
  · subst hkey
    have hnone : rows.find? (fun r => decide (r.key = row.key)) = none := hfresh
    rw [hnone, Option.none_or, List.find?_singleton, if_pos (decide_eq_true rfl)]
  · have hne : row.key ≠ key := fun h => hkey h.symm
    simp [deriveGet, hne]

theorem deriveGet_update (rows : List (DeriveRow Id)) (key : DeriveKey Id)
    (guard : DeriveRow Id → Bool) (set : DeriveRow Id → DeriveRow Id) (k : DeriveKey Id) :
    deriveGet (deriveUpdate rows key guard set).1 k =
      if k = key then
        (deriveGet rows k).map fun row => if guard row then { set row with key } else row
      else deriveGet rows k := by
  have hkeys : ∀ row : DeriveRow Id,
      (if row.key = key ∧ guard row then { set row with key } else row).key = row.key := by
    intro row
    split_ifs with h
    · exact h.1.symm
    · rfl
  rw [deriveUpdate, deriveGet_map hkeys]
  cases hrow : deriveGet rows k with
  | none => simp
  | some row =>
      have hkey := deriveGet_key hrow
      by_cases h : k = key
      · simp [h, hkey]
      · simp [h, hkey]

theorem deriveGet_insertIgnore (rows : List (DeriveRow Id)) (row : DeriveRow Id)
    (k : DeriveKey Id) :
    deriveGet (deriveInsertIgnore rows row) k =
      if k = row.key then some ((deriveGet rows k).getD row) else deriveGet rows k := by
  unfold deriveInsertIgnore
  cases hrow : deriveGet rows row.key with
  | none =>
      rw [if_neg (by simp), deriveGet_append hrow]
      split_ifs with h
      · rw [h, hrow, Option.getD_none]
      · rfl
  | some old =>
      rw [if_pos (Option.isSome_some)]
      split_ifs with h
      · rw [h, hrow, Option.getD_some]
      · rfl

theorem deriveGet_upsert (rows : List (DeriveRow Id)) (row : DeriveRow Id)
    (set : DeriveRow Id → DeriveRow Id) (k : DeriveKey Id) :
    deriveGet (deriveUpsert rows row set) k =
      if k = row.key then
        some (((deriveGet rows k).map fun old => { set old with key := row.key }).getD row)
      else deriveGet rows k := by
  unfold deriveUpsert
  cases hrow : deriveGet rows row.key with
  | none =>
      rw [if_neg (by simp), deriveGet_append hrow]
      split_ifs with h
      · rw [h, hrow, Option.map_none, Option.getD_none]
      · rfl
  | some old =>
      rw [if_pos (Option.isSome_some), deriveGet_update]
      by_cases h : k = row.key
      · rw [if_pos h, if_pos h, h, hrow]
        simp
      · rw [if_neg h, if_neg h]

theorem deriveGet_invalidate (rows : List (DeriveRow Id)) (repoId : RepoId) (cs : Id)
    (k : DeriveKey Id) :
    deriveGet (redactionInvalidateDerived rows repoId cs) k =
      (deriveGet rows k).map fun row =>
        if row.key.repoId = repoId ∧ row.key.cs = cs ∧ row.state ≠ .poison then
          { row with state := .poison, leaseExpiresNs := none }
        else row := by
  refine deriveGet_map (fun row => ?_) k
  split_ifs <;> rfl

/-- A row after one more failed attempt. -/
def failedRow (row : DeriveRow Id) : DeriveRow Id :=
  { row with
    state := if deriveMaxAttempts ≤ row.attempts + 1 then .poison else .pending
    leaseExpiresNs := none
    attempts := row.attempts + 1 }

/-- A row after its quarantine. -/
def poisonedRow (row : DeriveRow Id) : DeriveRow Id :=
  { row with state := .poison, leaseExpiresNs := none }

/-- The row of a key that has none yet. -/
def blankRow (key : DeriveKey Id) : DeriveRow Id := { key, state := .pending }

theorem deriveGet_failAttempt (t : DeriveTables Id) (key : DeriveKey Id) (reason : String)
    (nowNs : ℕ) (k : DeriveKey Id) :
    deriveGet (deriveFailAttempt t key reason nowNs).1.rows k =
      if k = key ∧ changesetExists t key.cs then
        some (failedRow ((deriveGet t.rows k).getD (blankRow key)))
      else deriveGet t.rows k := by
  unfold deriveFailAttempt
  by_cases hexists : changesetExists t key.cs
  · rw [if_pos hexists]
    by_cases hk : k = key
    · subst hk
      have hcond : k = k ∧ changesetExists t k.cs = true := ⟨rfl, hexists⟩
      rw [if_pos hcond]
      cases hrow : deriveGet t.rows k with
      | none =>
          simp only [Option.map_none, Option.getD_none]
          have hfirst : ¬ deriveMaxAttempts ≤ 0 + 1 := by decide
          rw [if_neg hfirst, deriveGet_upsert, if_pos rfl, hrow]
          rfl
      | some row =>
          have hkey := deriveGet_key hrow
          simp only [Option.map_some, Option.getD_some]
          by_cases hcap : deriveMaxAttempts ≤ row.attempts + 1
          · rw [if_pos hcap, deriveReport, deriveGet_upsert, if_pos rfl, hrow]
            simp [failedRow, hcap, hkey]
          · rw [if_neg hcap, deriveGet_upsert, if_pos rfl, hrow]
            simp [failedRow, hcap, hkey]
    · have hcond : ¬ (k = key ∧ changesetExists t key.cs = true) := fun h => hk h.1
      rw [if_neg hcond]
      simp only
      split_ifs with hcap
      · rw [deriveReport, deriveGet_upsert, if_neg hk]
      · rw [deriveGet_upsert, if_neg hk]
  · have hcond : ¬ (k = key ∧ changesetExists t key.cs = true) := fun h => hexists h.2
    rw [if_neg hexists, if_neg hcond]

theorem deriveGet_poisonNow (t : DeriveTables Id) (key : DeriveKey Id) (reason : String)
    (nowNs : ℕ) (k : DeriveKey Id) :
    deriveGet (derivePoisonNow t key reason nowNs).rows k =
      if k = key then some (poisonedRow ((deriveGet t.rows k).getD (blankRow key)))
      else deriveGet t.rows k := by
  rw [derivePoisonNow, deriveReport, deriveGet_upsert]
  by_cases hk : k = key
  · rw [if_pos hk, if_pos hk]
    cases hrow : deriveGet t.rows k with
    | none => rfl
    | some row =>
        have hkey := deriveGet_key hrow
        simp [poisonedRow, hkey, hk]
  · rw [if_neg hk, if_neg hk]

theorem deriveGet_recordDone (t : DeriveTables Id) (key : DeriveKey Id) (output : Bytes)
    (taint : Bool × Option Id) (k : DeriveKey Id) :
    deriveGet (deriveRecordDone t key output taint).1.rows k = deriveGet t.rows k ∨
      k = key ∧ ∃ row row', deriveGet t.rows k = some row ∧ row.state = .deriving ∧
        deriveGet (deriveRecordDone t key output taint).1.rows k = some row' ∧
        row'.state = .done ∧ row'.attempts = row.attempts := by
  unfold deriveRecordDone
  split_ifs with hexists
  · simp only [deriveGet_update]
    by_cases hk : k = key
    · rw [if_pos hk]
      cases hrow : deriveGet t.rows k with
      | none => exact .inl rfl
      | some row =>
          by_cases hstate : row.state = .deriving
          · refine .inr ⟨hk, row, ⟨key, .done, none, row.attempts, some output, taint.1, taint.2⟩,
              rfl, hstate, ?_, rfl, rfl⟩
            simp only [Option.map_some, hstate, decide_true, if_true]
          · simp [hstate]
    · rw [if_neg hk]
      exact .inl rfl
  · exact .inl rfl

/-! ### Keys -/

/-- The primary key of the table. -/
def KeysDistinct (rows : List (DeriveRow Id)) : Prop := (rows.map (·.key)).Nodup

omit [DecidableEq Id] in
theorem KeysDistinct.map {rows : List (DeriveRow Id)} (h : KeysDistinct rows)
    {g : DeriveRow Id → DeriveRow Id} (hg : ∀ row, (g row).key = row.key) :
    KeysDistinct (rows.map g) := by
  have hkeys : (rows.map g).map (·.key) = rows.map (·.key) := by
    rw [List.map_map]
    exact List.map_congr_left fun row _ => hg row
  rw [KeysDistinct, hkeys]
  exact h

theorem KeysDistinct.append {rows : List (DeriveRow Id)} (h : KeysDistinct rows)
    {row : DeriveRow Id} (hfresh : deriveGet rows row.key = none) :
    KeysDistinct (rows ++ [row]) := by
  refine Lib.nodup_insert h fun hmem => ?_
  obtain ⟨old, hold, hkey⟩ := List.mem_map.mp hmem
  have hnone := List.find?_eq_none.mp hfresh old hold
  exact hnone (decide_eq_true hkey)

theorem KeysDistinct.update {rows : List (DeriveRow Id)} (h : KeysDistinct rows)
    (key : DeriveKey Id) (guard : DeriveRow Id → Bool) (set : DeriveRow Id → DeriveRow Id) :
    KeysDistinct (deriveUpdate rows key guard set).1 := by
  refine h.map fun row => ?_
  split_ifs with hrow
  · exact hrow.1.symm
  · rfl

theorem KeysDistinct.insertIgnore {rows : List (DeriveRow Id)} (h : KeysDistinct rows)
    (row : DeriveRow Id) : KeysDistinct (deriveInsertIgnore rows row) := by
  unfold deriveInsertIgnore
  split_ifs with hrow
  · exact h
  · exact h.append (by simpa using hrow)

theorem KeysDistinct.upsert {rows : List (DeriveRow Id)} (h : KeysDistinct rows)
    (row : DeriveRow Id) (set : DeriveRow Id → DeriveRow Id) :
    KeysDistinct (deriveUpsert rows row set) := by
  unfold deriveUpsert
  split_ifs with hrow
  · exact h.update _ _ _
  · exact h.append (by simpa using hrow)

theorem KeysDistinct.failAttempt {t : DeriveTables Id} (h : KeysDistinct t.rows)
    (key : DeriveKey Id) (reason : String) (nowNs : ℕ) :
    KeysDistinct (deriveFailAttempt t key reason nowNs).1.rows := by
  unfold deriveFailAttempt
  split_ifs with hexists
  · simp only
    split_ifs with hcap
    · exact h.upsert _ _
    · exact h.upsert _ _
  · exact h

theorem KeysDistinct.recordOutcome {t : DeriveTables Id} (h : KeysDistinct t.rows)
    (key : DeriveKey Id) (outcome : DeriveOutcome) (taint : Bool × Option Id) (nowNs : ℕ) :
    KeysDistinct (recordOutcome t key outcome taint nowNs).rows := by
  unfold Naatre.recordOutcome
  cases outcome with
  | ok output =>
      simp only
      split_ifs with hsize
      · exact h.upsert _ _
      · unfold deriveRecordDone
        split_ifs with hexists
        · exact h.update _ _ _
        · exact h
  | walkBudget budget => exact h.upsert _ _
  | walkDeadline reason =>
      simp only
      split_ifs with hpoisoned
      · exact h.failAttempt key reason nowNs
      · exact h.failAttempt key reason nowNs
  | fail reason => exact h.failAttempt key reason nowNs

theorem KeysDistinct.sweep {t : DeriveTables Id} (h : KeysDistinct t.rows)
    (keys : List (DeriveKey Id)) (reason : String) (nowNs : ℕ) :
    KeysDistinct (keys.foldl (fun t key => (deriveFailAttempt t key reason nowNs).1) t).rows := by
  induction keys generalizing t with
  | nil => exact h
  | cons key keys ih => exact ih (h.failAttempt key reason nowNs)

/-! ### One outcome -/

/-- The answers that are recorded as a failed attempt. -/
def DeriveOutcome.fails : DeriveOutcome → Bool
  | .walkDeadline _ | .fail _ => true
  | _ => false

/-- The worker is about to record a failed attempt. -/
def Worker.fails (w : Worker Id) : Bool :=
  match w.phase with
  | .derived _ outcome _ => outcome.fails
  | _ => false

/-- What recording an outcome can do to the row of its key. -/
theorem recordOutcome_get (t : DeriveTables Id) (key : DeriveKey Id) (outcome : DeriveOutcome)
    (taint : Bool × Option Id) (nowNs : ℕ) (k : DeriveKey Id) :
    let old := deriveGet t.rows k
    let new := deriveGet (recordOutcome t key outcome taint nowNs).rows k
    new = old ∨ k = key ∧
      ((outcome.fails = true ∧ new = some (failedRow (old.getD (blankRow key)))) ∨
        new = some (poisonedRow (old.getD (blankRow key))) ∨
        ∃ row row', old = some row ∧ row.state = .deriving ∧ new = some row' ∧
          row'.state = .done ∧ row'.attempts = row.attempts) := by
  have hfail : ∀ reason, outcome.fails = true →
      deriveGet (deriveFailAttempt t key reason nowNs).1.rows k = deriveGet t.rows k ∨
        k = key ∧ outcome.fails = true ∧
          deriveGet (deriveFailAttempt t key reason nowNs).1.rows k =
            some (failedRow ((deriveGet t.rows k).getD (blankRow key))) := by
    intro reason hfails
    rw [deriveGet_failAttempt]
    split_ifs with hcond
    · exact .inr ⟨hcond.1, hfails, rfl⟩
    · exact .inl rfl
  have hpoison : ∀ reason,
      deriveGet (derivePoisonNow t key reason nowNs).rows k = deriveGet t.rows k ∨
        k = key ∧ deriveGet (derivePoisonNow t key reason nowNs).rows k =
          some (poisonedRow ((deriveGet t.rows k).getD (blankRow key))) := by
    intro reason
    rw [deriveGet_poisonNow]
    split_ifs with hk
    · exact .inr ⟨hk, rfl⟩
    · exact .inl rfl
  unfold recordOutcome
  cases outcome with
  | ok output =>
      simp only
      split_ifs with hsize
      · exact (hpoison _).imp_right fun h => ⟨h.1, .inr (.inl h.2)⟩
      · exact (deriveGet_recordDone t key output taint k).imp_right fun h => ⟨h.1, .inr (.inr h.2)⟩
  | walkBudget budget => exact (hpoison _).imp_right fun h => ⟨h.1, .inr (.inl h.2)⟩
  | walkDeadline reason =>
      simp only
      split_ifs with hpoisoned
      · exact (hfail reason rfl).imp_right fun h => ⟨h.1, .inl h.2⟩
      · exact (hfail reason rfl).imp_right fun h => ⟨h.1, .inl h.2⟩
  | fail reason => exact (hfail reason rfl).imp_right fun h => ⟨h.1, .inl h.2⟩

/-! ### New rows -/

/-- A row as the eager path, an enqueue and the backfill write it. -/
structure FreshRow (row : DeriveRow Id) : Prop where
  state : row.state ≠ .deriving
  attempts : row.attempts ≤ 1

omit [DecidableEq Id] in
theorem FreshRow.blank (key : DeriveKey Id) : FreshRow (blankRow key) :=
  ⟨DeriveState.noConfusion, Nat.zero_le _⟩

omit [DecidableEq Id] in
theorem FreshRow.failed (key : DeriveKey Id) : FreshRow (failedRow (blankRow key)) :=
  ⟨DeriveState.noConfusion, le_rfl⟩

omit [DecidableEq Id] in
theorem FreshRow.poisoned (key : DeriveKey Id) : FreshRow (poisonedRow (blankRow key)) :=
  ⟨DeriveState.noConfusion, Nat.zero_le _⟩

/-- A step that leaves the rows there are and adds fresh ones, at keys that
`new` holds of. -/
def AddsFresh (new : DeriveKey Id → Prop) (rows rows' : List (DeriveRow Id)) : Prop :=
  ∀ k, deriveGet rows' k = deriveGet rows k ∨
    new k ∧ deriveGet rows k = none ∧ ∃ row, deriveGet rows' k = some row ∧ FreshRow row

theorem AddsFresh.insertIgnore (rows : List (DeriveRow Id)) (key : DeriveKey Id) :
    AddsFresh (· = key) rows (deriveInsertIgnore rows (blankRow key)) := by
  intro k
  rw [deriveGet_insertIgnore]
  split_ifs with hk
  · cases hrow : deriveGet rows k with
    | some row => exact .inl rfl
    | none => exact .inr ⟨hk, rfl, _, rfl, .blank key⟩
  · exact .inl rfl

theorem failAttempt_nodes (t : DeriveTables Id) (key : DeriveKey Id) (reason : String)
    (nowNs : ℕ) : (deriveFailAttempt t key reason nowNs).1.nodes = t.nodes := by
  unfold deriveFailAttempt
  split_ifs with hexists
  · simp only
    split_ifs with hcap <;> rfl
  · rfl

theorem recordOutcome_nodes (t : DeriveTables Id) (key : DeriveKey Id) (outcome : DeriveOutcome)
    (taint : Bool × Option Id) (nowNs : ℕ) :
    (recordOutcome t key outcome taint nowNs).nodes = t.nodes := by
  unfold recordOutcome
  cases outcome with
  | ok output =>
      simp only
      split_ifs with hsize
      · rfl
      · unfold deriveRecordDone
        split_ifs with hexists <;> rfl
  | walkBudget budget => rfl
  | walkDeadline reason =>
      simp only
      split_ifs with hpoisoned
      · exact failAttempt_nodes t key reason nowNs
      · exact failAttempt_nodes t key reason nowNs
  | fail reason => exact failAttempt_nodes t key reason nowNs

theorem AddsFresh.recordOutcome {t : DeriveTables Id} {key : DeriveKey Id}
    (hnone : deriveGet t.rows key = none) (outcome : DeriveOutcome) (taint : Bool × Option Id)
    (nowNs : ℕ) : AddsFresh (· = key) t.rows (recordOutcome t key outcome taint nowNs).rows := by
  intro k
  rcases recordOutcome_get t key outcome taint nowNs k with
    heq | ⟨rfl, ⟨-, hnew⟩ | hnew | ⟨row, -, hrow, -⟩⟩
  · exact .inl heq
  · rw [hnone, Option.getD_none] at hnew
    exact .inr ⟨rfl, hnone, _, hnew, .failed k⟩
  · rw [hnone, Option.getD_none] at hnew
    exact .inr ⟨rfl, hnone, _, hnew, .poisoned k⟩
  · rw [hnone] at hrow
    cases hrow

theorem AddsFresh.append {rows : List (DeriveRow Id)} {row : DeriveRow Id}
    (hnone : deriveGet rows row.key = none) (hrow : FreshRow row) :
    AddsFresh (· = row.key) rows (rows ++ [row]) := by
  intro k
  rw [deriveGet_append hnone]
  split_ifs with hk
  · exact .inr ⟨hk, hk ▸ hnone, row, rfl, hrow⟩
  · exact .inl rfl

/-- One kind of a create, at a key without a row. -/
theorem enqueueKind_fresh {t t' : DeriveTables Id} {node : QueueNode Id} {nowNs : ℕ}
    {kind : ℕ × Option DeriveOutcome} (h : enqueueKind t node nowNs kind = some t')
    (hkeys : KeysDistinct t.rows)
    (hnone : deriveGet t.rows ⟨kind.1, node.repoId, node.id⟩ = none) :
    t'.nodes = t.nodes ∧ KeysDistinct t'.rows ∧
      AddsFresh (· = ⟨kind.1, node.repoId, node.id⟩) t.rows t'.rows := by
  have houtcome (outcome : DeriveOutcome) :
      (recordOutcome t ⟨kind.1, node.repoId, node.id⟩ outcome (false, none) nowNs).nodes =
          t.nodes ∧
        KeysDistinct
          (recordOutcome t ⟨kind.1, node.repoId, node.id⟩ outcome (false, none) nowNs).rows ∧
        AddsFresh (· = ⟨kind.1, node.repoId, node.id⟩) t.rows
          (recordOutcome t ⟨kind.1, node.repoId, node.id⟩ outcome (false, none) nowNs).rows :=
    ⟨recordOutcome_nodes _ _ _ _ _, hkeys.recordOutcome _ _ _ _, .recordOutcome hnone _ _ _⟩
  unfold enqueueKind at h
  obtain ⟨kind, eager⟩ := kind
  cases eager with
  | none =>
      cases h
      exact ⟨rfl, hkeys.insertIgnore _, .insertIgnore _ _⟩
  | some outcome =>
      cases outcome with
      | ok output =>
          simp only at h
          split_ifs at h with hsize
          · cases h
            have hbig := houtcome (.ok output)
            simpa only [recordOutcome, if_pos hsize] using hbig
          · obtain ⟨rows, hrows, rfl⟩ := Option.map_eq_some_iff.mp h
            unfold deriveStateInsertDone at hrows
            rw [hnone, if_neg (by simp)] at hrows
            cases hrows
            exact ⟨rfl, hkeys.append hnone,
              .append hnone ⟨DeriveState.noConfusion, Nat.zero_le _⟩⟩
      | walkBudget budget => cases h; exact houtcome _
      | walkDeadline reason => cases h; exact houtcome _
      | fail reason => cases h; exact houtcome _

/-- The create of a changeset that has no rows: each registered kind is one
key. -/
theorem enqueue_fresh {node : QueueNode Id} {nowNs : ℕ} {kinds : List (ℕ × Option DeriveOutcome)}
    {t t' : DeriveTables Id}
    (h : kinds.foldlM (fun t kind => enqueueKind t node nowNs kind) t = some t')
    (hkinds : (kinds.map Prod.fst).Nodup) (hkeys : KeysDistinct t.rows)
    (hnone : ∀ kind ∈ kinds, deriveGet t.rows ⟨kind.1, node.repoId, node.id⟩ = none) :
    t'.nodes = t.nodes ∧ KeysDistinct t'.rows ∧
      AddsFresh (fun k => k.kind ∈ kinds.map Prod.fst ∧ k.repoId = node.repoId ∧ k.cs = node.id)
        t.rows t'.rows := by
  induction kinds generalizing t with
  | nil =>
      cases h
      exact ⟨rfl, hkeys, fun k => .inl rfl⟩
  | cons kind kinds ih =>
      rw [List.foldlM_cons] at h
      obtain ⟨mid, hmid, hrest⟩ := Option.bind_eq_some_iff.mp h
      rw [List.map_cons, List.nodup_cons] at hkinds
      obtain ⟨hnodes, hkeys', hadd⟩ := enqueueKind_fresh hmid hkeys (hnone kind List.mem_cons_self)
      have hother : ∀ kind' ∈ kinds,
          deriveGet mid.rows ⟨kind'.1, node.repoId, node.id⟩ = none := by
        intro kind' hkind'
        rcases hadd ⟨kind'.1, node.repoId, node.id⟩ with heq | ⟨hkey, -⟩
        · rw [heq]
          exact hnone kind' (List.mem_cons_of_mem _ hkind')
        · have hmem : kind'.1 ∈ kinds.map Prod.fst := List.mem_map_of_mem hkind'
          rw [(DeriveKey.mk.inj hkey).1] at hmem
          exact absurd hmem hkinds.1
      obtain ⟨hnodes', hkeys'', hadd'⟩ := ih hrest hkinds.2 hkeys' hother
      refine ⟨hnodes'.trans hnodes, hkeys'', fun k => ?_⟩
      rcases hadd' k with heq | ⟨hnew, hgone, row, hrow, hfresh⟩
      · rw [heq]
        exact (hadd k).imp_right fun hnew =>
          ⟨by rw [hnew.1]; exact ⟨List.mem_cons_self, rfl, rfl⟩, hnew.2⟩
      · refine .inr ⟨⟨List.mem_cons_of_mem _ hnew.1, hnew.2⟩, ?_, row, hrow, hfresh⟩
        rcases hadd k with heq | ⟨-, hold, -⟩
        · rw [← heq]
          exact hgone
        · exact hold

/-- A batch of the backfill. -/
theorem backfill_fresh (kind : ℕ) (scan : List (QueueNode Id × ℕ)) {rows : List (DeriveRow Id)}
    (hkeys : KeysDistinct rows) :
    let rows' := scan.foldl
      (fun rows e => deriveInsertIgnore rows (blankRow ⟨kind, e.1.repoId, e.1.id⟩)) rows
    KeysDistinct rows' ∧
      AddsFresh (fun k => ∃ e ∈ scan, k.repoId = e.1.repoId ∧ k.cs = e.1.id) rows rows' := by
  induction scan generalizing rows with
  | nil => exact ⟨hkeys, fun k => .inl rfl⟩
  | cons e scan ih =>
      have hadd := AddsFresh.insertIgnore rows ⟨kind, e.1.repoId, e.1.id⟩
      obtain ⟨hkeys', hadd'⟩ := ih (hkeys.insertIgnore (blankRow ⟨kind, e.1.repoId, e.1.id⟩))
      refine ⟨hkeys', fun k => ?_⟩
      rcases hadd' k with heq | ⟨⟨e', he', hnew⟩, hgone, row, hrow, hfresh⟩
      · rw [List.foldl_cons, heq]
        exact (hadd k).imp_right fun hnew =>
          ⟨⟨e, List.mem_cons_self, by rw [hnew.1]; exact ⟨rfl, rfl⟩⟩, hnew.2⟩
      · refine .inr ⟨⟨e', List.mem_cons_of_mem _ he', hnew⟩, ?_, row, hrow, hfresh⟩
        rcases hadd k with heq | ⟨-, hold, -⟩
        · rw [← heq]
          exact hgone
        · exact hold

/-- The sweep fails each of its keys once. -/
theorem sweep_get (reason : String) (nowNs : ℕ) {keys : List (DeriveKey Id)} (hnodup : keys.Nodup)
    (t : DeriveTables Id) (k : DeriveKey Id) :
    let t' := keys.foldl (fun t key => (deriveFailAttempt t key reason nowNs).1) t
    t'.nodes = t.nodes ∧
      (deriveGet t'.rows k = deriveGet t.rows k ∨ k ∈ keys ∧
        deriveGet t'.rows k = some (failedRow ((deriveGet t.rows k).getD (blankRow k)))) := by
  induction keys generalizing t with
  | nil => exact ⟨rfl, .inl rfl⟩
  | cons key keys ih =>
      rw [List.nodup_cons] at hnodup
      obtain ⟨hnodes, hget⟩ := ih hnodup.2 (deriveFailAttempt t key reason nowNs).1
      refine ⟨hnodes.trans (failAttempt_nodes _ _ _ _), ?_⟩
      have hone := deriveGet_failAttempt t key reason nowNs k
      by_cases hk : k = key
      · subst hk
        have hlater := hget.resolve_right fun h => hnodup.1 h.1
        rw [List.foldl_cons, hlater, hone]
        split_ifs with hcond
        · exact .inr ⟨List.mem_cons_self, rfl⟩
        · exact .inl rfl
      · rw [if_neg fun h => hk h.1] at hone
        rw [hone] at hget
        exact hget.imp_right fun h => ⟨List.mem_cons_of_mem _ h.1, h.2⟩

namespace DeriveQueue

/-! ### One step -/

/-- What a step can do to the row of a key. -/
inductive RowStep (q : DeriveQueue Id) (key : DeriveKey Id) :
    QueueEvent Id → Option (DeriveRow Id) → Option (DeriveRow Id) → Prop
  | kept (e : QueueEvent Id) (row : Option (DeriveRow Id)) : RowStep q key e row row
  | fresh (e : QueueEvent Id) (row : DeriveRow Id) (hrow : FreshRow row) :
      RowStep q key e none (some row)
  | leased (i : ℕ) (row : DeriveRow Id) (hworker : q.workers[i]? = some ⟨key, .picked⟩)
      (hpending : row.state = .pending) :
      RowStep q key (.lease i) (some row)
        (some { row with state := .deriving, leaseExpiresNs := some (q.nowNs + q.leaseNs) })
  | released (i expires : ℕ) (row : DeriveRow Id)
      (hworker : q.workers[i]? = some ⟨key, .releasing expires⟩) (hstate : row.state = .deriving)
      (hlease : row.leaseExpiresNs = some expires) :
      RowStep q key (.release i) (some row)
        (some { row with state := .pending, leaseExpiresNs := none })
  | done (e : QueueEvent Id) (row row' : DeriveRow Id) (hstate : row.state = .deriving)
      (hdone : row'.state = .done) (hattempts : row'.attempts = row.attempts) :
      RowStep q key e (some row) (some row')
  | poisoned (e : QueueEvent Id) (row : DeriveRow Id) :
      RowStep q key e (some row) (some (poisonedRow row))
  | failed (i expires : ℕ) (outcome : DeriveOutcome)
      (taint : Bool × Option Id) (row : DeriveRow Id)
      (hworker : q.workers[i]? = some ⟨key, .derived expires outcome taint⟩)
      (hfails : outcome.fails = true) :
      RowStep q key (.record i) (some row) (some (failedRow row))
  | swept (kind expires : ℕ) (row : DeriveRow Id) (hstate : row.state = .deriving)
      (hlease : row.leaseExpiresNs = some expires) (hexpired : expires < q.nowNs) :
      RowStep q key (.sweep kind) (some row) (some (failedRow row))

omit [DecidableEq Id] in
/-- Rows stay. -/
theorem RowStep.stays {q : DeriveQueue Id} {key : DeriveKey Id} {e : QueueEvent Id}
    {row : DeriveRow Id} {new : Option (DeriveRow Id)} (h : RowStep q key e (some row) new) :
    ∃ row', new = some row' := by
  cases h <;> exact ⟨_, rfl⟩

/-- The rows and their keys, in every state. -/
structure RowsWf (t : DeriveTables Id) : Prop where
  keys : KeysDistinct t.rows
  /-- a row is of a stored changeset -/
  stored : ∀ key row, deriveGet t.rows key = some row →
    ∃ n ∈ t.nodes, n.repoId = key.repoId ∧ n.id = key.cs

/-- A changeset that is not stored has no row of any kind. -/
theorem RowsWf.create_none {t : DeriveTables Id} (hwf : RowsWf t) {node : QueueNode Id}
    (hnew : ¬ (t.nodes.any fun n => decide (n.repoId = node.repoId ∧ n.id = node.id)) = true)
    (kinds : List (ℕ × Option DeriveOutcome)) :
    ∀ kind ∈ kinds, deriveGet t.rows ⟨kind.1, node.repoId, node.id⟩ = none := by
  intro kind _
  by_contra hsome
  obtain ⟨row, hrow⟩ := Option.ne_none_iff_exists'.mp hsome
  obtain ⟨n, hn, hrepo, hid⟩ := hwf.stored _ row hrow
  exact hnew (List.any_eq_true.mpr ⟨n, hn, by simp [hrepo, hid]⟩)

theorem AddsFresh.rowStep {q : DeriveQueue Id} {e : QueueEvent Id} {new : DeriveKey Id → Prop}
    {rows rows' : List (DeriveRow Id)} (h : AddsFresh new rows rows') (key : DeriveKey Id) :
    RowStep q key e (deriveGet rows key) (deriveGet rows' key) := by
  rcases h key with heq | ⟨-, hnone, row, hrow, hfresh⟩
  · rw [heq]
    exact .kept e _
  · rw [hnone, hrow]
    exact .fresh e row hfresh

/-- An event of a worker, by the phase the worker is in. -/
inductive WorkerStep (q : DeriveQueue Id) : QueueEvent Id → DeriveQueue Id → Prop
  | leased (i : ℕ) (key : DeriveKey Id) (hworker : q.workers[i]? = some ⟨key, .picked⟩)
      (hpending : ∃ row, deriveGet q.tables.rows key = some row ∧ row.state = .pending) :
      WorkerStep q (.lease i)
        ({ q with tables.rows := (deriveLease q.tables.rows key (q.nowNs + q.leaseNs)).1 }.advance
          i ⟨key, .picked⟩ (.leased (q.nowNs + q.leaseNs)))
  | stale (i : ℕ) (key : DeriveKey Id) (hworker : q.workers[i]? = some ⟨key, .picked⟩) :
      WorkerStep q (.lease i) { q with workers := q.workers.eraseIdx i }
  | derived (i : ℕ) (key : DeriveKey Id) (expires : ℕ) (outcome : DeriveOutcome)
      (taint : Bool × Option Id) (hworker : q.workers[i]? = some ⟨key, .leased expires⟩) :
      WorkerStep q (.derive i outcome)
        (q.advance i ⟨key, .leased expires⟩ (.derived expires outcome taint))
  | recorded (i : ℕ) (key : DeriveKey Id) (expires : ℕ) (outcome : DeriveOutcome)
      (taint : Bool × Option Id)
      (hworker : q.workers[i]? = some ⟨key, .derived expires outcome taint⟩) :
      WorkerStep q (.record i)
        { q with
          tables := recordOutcome q.tables key outcome taint q.nowNs
          workers := q.workers.eraseIdx i }
  | busy (i : ℕ) (w : Worker Id) (expires : ℕ) (hworker : q.workers[i]? = some w)
      (hlease : w.lease = some expires) :
      WorkerStep q (.busy i) (q.advance i w (.releasing expires))
  | released (i : ℕ) (key : DeriveKey Id) (expires : ℕ)
      (hworker : q.workers[i]? = some ⟨key, .releasing expires⟩) :
      WorkerStep q (.release i)
        { q with
          tables.rows := (deriveReleaseLease q.tables.rows key expires).1
          workers := q.workers.eraseIdx i }

/-- The events that belong to a worker in hand. -/
def ofWorker : QueueEvent Id → Bool
  | .lease _ | .derive _ _ | .record _ | .busy _ | .release _ => true
  | _ => false

theorem step_worker {q q' : DeriveQueue Id} {e : QueueEvent Id} (he : ofWorker e = true)
    (h : q.step e = some q') : WorkerStep q e q' := by
  cases e with
  | lease i =>
      rw [step] at h
      split at h
      next key hworker =>
        simp only at h
        split_ifs at h with hleased
        · cases h
          refine .leased i key hworker ?_
          obtain ⟨row, hrow, hpending⟩ := (Option.any_eq_true _ _).mp hleased
          exact ⟨row, hrow, by simpa using hpending⟩
        · cases h
          exact .stale i key hworker
      · cases h
  | derive i outcome =>
      rw [step] at h
      split at h
      next key expires hworker =>
        cases h
        exact .derived i key expires outcome _ hworker
      · cases h
  | record i =>
      rw [step] at h
      split at h
      next key expires outcome taint hworker =>
        cases h
        exact .recorded i key expires outcome taint hworker
      · cases h
  | busy i =>
      rw [step] at h
      split at h
      next key expires hworker =>
        cases h
        exact .busy i _ expires hworker rfl
      next key expires outcome taint hworker =>
        cases h
        exact .busy i _ expires hworker rfl
      · cases h
  | release i =>
      rw [step] at h
      split at h
      next key expires hworker =>
        cases h
        exact .released i key expires hworker
      · cases h
  | _ => cases he

/-- A worker's event, as to the row of a key. -/
theorem WorkerStep.row {q q' : DeriveQueue Id} {e : QueueEvent Id} (h : WorkerStep q e q')
    (key : DeriveKey Id) :
    RowStep q key e (deriveGet q.tables.rows key) (deriveGet q'.tables.rows key) := by
  cases h with
  | leased i wkey hworker hpending =>
      simp only [advance, deriveLease, deriveGet_update]
      split_ifs with hk
      · subst hk
        obtain ⟨row, hrow, hstate⟩ := hpending
        have hkey := deriveGet_key hrow
        rw [hrow]
        simp only [Option.map_some, hstate, decide_true, if_true, ← hkey]
        exact .leased i row (hkey ▸ hworker) hstate
      · exact .kept _ _
  | stale i wkey hworker => exact .kept _ _
  | derived i wkey expires outcome taint hworker => exact .kept _ _
  | recorded i wkey expires outcome taint hworker =>
      simp only
      rcases recordOutcome_get q.tables wkey outcome taint q.nowNs key with
        heq | ⟨rfl, ⟨hfails, hnew⟩ | hnew | ⟨row, row', hrow, hstate, hnew, hdone, hattempts⟩⟩
      · rw [heq]
        exact .kept _ _
      · rw [hnew]
        cases hrow : deriveGet q.tables.rows key with
        | none => exact .fresh _ _ (.failed key)
        | some row => exact .failed i expires outcome taint row hworker hfails
      · rw [hnew]
        cases hrow : deriveGet q.tables.rows key with
        | none => exact .fresh _ _ (.poisoned key)
        | some row => exact .poisoned _ row
      · rw [hrow, hnew]
        exact .done _ row row' hstate hdone hattempts
  | busy i w expires hworker hlease => exact .kept _ _
  | released i wkey expires hworker =>
      simp only [deriveReleaseLease, deriveGet_update]
      split_ifs with hk
      · subst hk
        cases hrow : deriveGet q.tables.rows key with
        | none => exact .kept _ _
        | some row =>
            have hkey := deriveGet_key hrow
            simp only [Option.map_some]
            split_ifs with hguard
            · simp only [Bool.and_eq_true, decide_eq_true_eq] at hguard
              simp only [← hkey]
              exact .released i expires row (hkey ▸ hworker) hguard.1 hguard.2
            · exact .kept _ _
      · exact .kept _ _

/-- One case for each thing an event can do to a row. -/
theorem step_row {q q' : DeriveQueue Id} {e : QueueEvent Id} (hwf : RowsWf q.tables)
    (h : q.step e = some q') (key : DeriveKey Id) :
    RowStep q key e (deriveGet q.tables.rows key) (deriveGet q'.tables.rows key) := by
  cases e with
  | tick ns => cases h; exact .kept _ _
  | create node kinds =>
      rw [step] at h
      split_ifs at h with hguard
      obtain ⟨t, ht, rfl⟩ := Option.map_eq_some_iff.mp h
      push Not at hguard
      have hnone := hwf.create_none hguard.1 kinds
      exact AddsFresh.rowStep (enqueue_fresh ht hguard.2 hwf.keys hnone).2.2 key
  | backfill kind cursor limit =>
      cases h
      exact AddsFresh.rowStep (backfill_fresh kind _ hwf.keys).2 key
  | mark repoId cs =>
      cases h
      simp only [deriveGet_invalidate]
      cases hrow : deriveGet q.tables.rows key with
      | none => exact .kept _ _
      | some row =>
          simp only [Option.map_some]
          split_ifs with hcond
          · exact .poisoned _ row
          · exact .kept _ _
  | sweep kind =>
      cases h
      have hnodup : (deriveExpiredLeases q.tables.rows kind q.nowNs).Nodup :=
        hwf.keys.sublist (List.filter_sublist.map _)
      rcases (sweep_get "lease expired" q.nowNs hnodup q.tables key).2 with
        heq | ⟨hmem, hnew⟩
      · rw [heq]
        exact .kept _ _
      · obtain ⟨row, hrow, rfl⟩ := List.mem_map.mp hmem
        rw [List.mem_filter] at hrow
        have hget : deriveGet q.tables.rows row.key = some row :=
          Lib.find_of_nodup hwf.keys hrow.1
        simp only [Bool.and_eq_true, decide_eq_true_eq, Option.any_eq_true] at hrow
        obtain ⟨-, ⟨-, hstate⟩, expires, hlease, hexpired⟩ := hrow
        rw [hnew, hget, Option.getD_some]
        exact .swept kind expires row hstate hlease hexpired
  | pick repoId kind =>
      obtain ⟨next, -, rfl⟩ := Option.map_eq_some_iff.mp h
      exact .kept _ _
  | drop i => cases h; exact .kept _ _
  | crash => cases h; exact .kept _ _
  | lease i => exact (step_worker rfl h).row key
  | derive i outcome => exact (step_worker rfl h).row key
  | record i => exact (step_worker rfl h).row key
  | busy i => exact (step_worker rfl h).row key
  | release i => exact (step_worker rfl h).row key

/-! ### Leases -/

/-- The leases in the hands of workers. -/
def held (workers : List (Worker Id)) : List (DeriveKey Id × ℕ) :=
  workers.filterMap fun w => w.lease.map fun expires => (w.key, expires)

omit [DecidableEq Id] in
theorem held_split {workers : List (Worker Id)} {i : ℕ} {w : Worker Id}
    (h : workers[i]? = some w) :
    workers = workers.take i ++ w :: workers.drop (i + 1) ∧
      workers.eraseIdx i = workers.take i ++ workers.drop (i + 1) ∧
      ∀ w', workers.set i w' = workers.take i ++ w' :: workers.drop (i + 1) := by
  have hi : i < workers.length := (List.getElem?_eq_some_iff.mp h).1
  have hget : workers[i] = w := (List.getElem?_eq_some_iff.mp h).2
  refine ⟨?_, List.eraseIdx_eq_take_drop_succ _ _, fun w' => List.set_eq_take_cons_drop w' hi⟩
  rw [← hget, List.getElem_cons_drop hi, List.take_append_drop]

omit [DecidableEq Id] in
theorem held_erase (workers : List (Worker Id)) (i : ℕ) :
    (held (workers.eraseIdx i)).Sublist (held workers) :=
  (List.eraseIdx_sublist workers i).filterMap _

omit [DecidableEq Id] in
/-- A worker that keeps its lease. -/
theorem held_set {workers : List (Worker Id)} {i : ℕ} {w w' : Worker Id}
    (h : workers[i]? = some w) (hkey : w'.key = w.key) (hlease : w'.lease = w.lease) :
    held (workers.set i w') = held workers := by
  obtain ⟨hsplit, -, hset⟩ := held_split h
  rw [hset]
  conv_rhs => rw [hsplit]
  simp only [held, List.filterMap_append, List.filterMap_cons, hkey, hlease]

/-- The leases after a step: some go, and a lease event brings one. -/
theorem step_held {q q' : DeriveQueue Id} {e : QueueEvent Id} (h : q.step e = some q') :
    (held q'.workers).Sublist (held q.workers) ∨
      ∃ i key, e = .lease i ∧ q.workers[i]? = some ⟨key, .picked⟩ ∧ q'.nowNs = q.nowNs ∧
        (∃ row, deriveGet q.tables.rows key = some row ∧ row.state = .pending) ∧
        (∃ row, deriveGet q'.tables.rows key = some row ∧ row.state = .deriving ∧
          row.leaseExpiresNs = some (q.nowNs + q.leaseNs)) ∧
        (held q'.workers).Perm ((key, q.nowNs + q.leaseNs) :: held q.workers) := by
  have hworker (he : ofWorker e = true) := step_worker he h
  cases e with
  | lease i =>
      cases hworker rfl with
      | leased i key hpicked hpending =>
          have htaken : ∃ row, deriveGet
              (deriveLease q.tables.rows key (q.nowNs + q.leaseNs)).1 key = some row ∧
              row.state = .deriving ∧ row.leaseExpiresNs = some (q.nowNs + q.leaseNs) := by
            obtain ⟨row, hrow, hstate⟩ := hpending
            rw [deriveLease, deriveGet_update, if_pos rfl, hrow, Option.map_some,
              if_pos (decide_eq_true hstate)]
            exact ⟨_, rfl, rfl, rfl⟩
          refine .inr ⟨i, key, rfl, hpicked, rfl, hpending, htaken, ?_⟩
          obtain ⟨hsplit, -, hset⟩ := held_split hpicked
          have hold : held q.workers =
              held (q.workers.take i) ++ held (q.workers.drop (i + 1)) := by
            conv_lhs => rw [hsplit]
            simp [held, Worker.lease]
          have hnew : held (q.workers.set i ⟨key, .leased (q.nowNs + q.leaseNs)⟩) =
              held (q.workers.take i) ++
                (key, q.nowNs + q.leaseNs) :: held (q.workers.drop (i + 1)) := by
            rw [hset]
            simp [held, Worker.lease]
          show (held (q.workers.set i ⟨key, .leased (q.nowNs + q.leaseNs)⟩)).Perm _
          rw [hnew, hold]
          exact List.perm_middle
      | stale i key hpicked => exact .inl (held_erase q.workers i)
  | derive i outcome =>
      cases hworker rfl with
      | derived i key expires outcome taint hleased =>
          have heq : held (q.workers.set i ⟨key, .derived expires outcome taint⟩) =
              held q.workers := held_set hleased rfl rfl
          left
          show (held (q.workers.set i _)).Sublist _
          rw [heq]
  | record i =>
      cases hworker rfl with
      | recorded => exact .inl (held_erase q.workers i)
  | busy i =>
      cases hworker rfl with
      | busy i w expires hw hlease =>
          have heq : held (q.workers.set i { w with phase := .releasing expires }) =
              held q.workers := held_set hw rfl hlease.symm
          left
          show (held (q.workers.set i _)).Sublist _
          rw [heq]
  | release i =>
      cases hworker rfl with
      | released => exact .inl (held_erase q.workers i)
  | pick repoId kind =>
      obtain ⟨next, -, rfl⟩ := Option.map_eq_some_iff.mp h
      left
      simp [held, Worker.lease]
  | create node kinds =>
      rw [step] at h
      split_ifs at h with hguard
      obtain ⟨t, -, rfl⟩ := Option.map_eq_some_iff.mp h
      exact .inl (.refl _)
  | drop i => cases h; exact .inl (held_erase q.workers i)
  | crash => cases h; exact .inl (List.nil_sublist _)
  | tick ns => cases h; exact .inl (.refl _)
  | backfill kind cursor limit => cases h; exact .inl (.refl _)
  | mark repoId cs => cases h; exact .inl (.refl _)
  | sweep kind => cases h; exact .inl (.refl _)

omit [DecidableEq Id] in
theorem mem_held {workers : List (Worker Id)} {key : DeriveKey Id} {expires : ℕ} :
    (key, expires) ∈ held workers ↔ ∃ w ∈ workers, w.key = key ∧ w.lease = some expires := by
  rw [held, List.mem_filterMap]
  refine exists_congr fun w => and_congr_right fun _ => ?_
  rw [Option.map_eq_some_iff]
  constructor
  · rintro ⟨e, he, heq⟩
    cases heq
    exact ⟨rfl, he⟩
  · rintro ⟨rfl, he⟩
    exact ⟨expires, he, rfl⟩

/-- The tables after a step: only a create stores a changeset. -/
theorem step_wf {q q' : DeriveQueue Id} {e : QueueEvent Id} (hwf : RowsWf q.tables)
    (hheld : ∀ key expires, (key, expires) ∈ held q.workers →
      ∃ row, deriveGet q.tables.rows key = some row)
    (h : q.step e = some q') : RowsWf q'.tables := by
  -- a row of before keeps its changeset
  have hold : ∀ {rows : List (DeriveRow Id)} {key : DeriveKey Id} {row : DeriveRow Id},
      (deriveGet q.tables.rows key = none → deriveGet rows key = none) →
      deriveGet rows key = some row →
      ∃ n ∈ q.tables.nodes, n.repoId = key.repoId ∧ n.id = key.cs := by
    intro rows key row hnone hrow
    cases hget : deriveGet q.tables.rows key with
    | some old => exact hwf.stored key old hget
    | none =>
        rw [hnone hget] at hrow
        cases hrow
  have hupdate : ∀ (key : DeriveKey Id) (guard : DeriveRow Id → Bool)
      (set : DeriveRow Id → DeriveRow Id),
      RowsWf { q.tables with rows := (deriveUpdate q.tables.rows key guard set).1 } := by
    intro key guard set
    refine ⟨hwf.keys.update _ _ _, fun k row => hold fun hnone => ?_⟩
    rw [deriveGet_update, hnone]
    simp
  cases e with
  | create node kinds =>
      rw [step] at h
      split_ifs at h with hguard
      obtain ⟨t, ht, rfl⟩ := Option.map_eq_some_iff.mp h
      push Not at hguard
      have hnone := hwf.create_none hguard.1 kinds
      obtain ⟨hnodes, hkeys, hadd⟩ := enqueue_fresh ht hguard.2 hwf.keys hnone
      refine ⟨hkeys, fun key row hrow => ?_⟩
      simp only [hnodes]
      rcases hadd key with heq | ⟨hnew, -⟩
      · obtain ⟨n, hn, hof⟩ := hwf.stored key row (heq ▸ hrow)
        exact ⟨n, List.mem_append_left _ hn, hof⟩
      · exact ⟨node, List.mem_append_right _ List.mem_cons_self, hnew.2.1.symm, hnew.2.2.symm⟩
  | backfill kind cursor limit =>
      cases h
      obtain ⟨hkeys, hadd⟩ := backfill_fresh kind (backfillScan q.tables kind cursor limit) hwf.keys
      refine ⟨hkeys, fun key row hrow => ?_⟩
      rcases hadd key with heq | ⟨⟨e, he, hnew⟩, -⟩
      · exact hwf.stored key row (heq ▸ hrow)
      · have hscan : e ∈ q.tables.nodes.zipIdx 1 := by
          have htaken := List.mem_of_mem_take he
          rw [List.mem_insertionSort] at htaken
          exact (List.mem_filter.mp htaken).1
        exact ⟨e.1, List.fst_mem_of_mem_zipIdx hscan, hnew.1.symm, hnew.2.symm⟩
  | mark repoId cs =>
      cases h
      refine ⟨hwf.keys.map fun row => by split_ifs <;> rfl, fun key row => hold fun hnone => ?_⟩
      rw [deriveGet_invalidate, hnone, Option.map_none]
  | sweep kind =>
      cases h
      have hnodup : (deriveExpiredLeases q.tables.rows kind q.nowNs).Nodup :=
        hwf.keys.sublist (List.filter_sublist.map _)
      have hget (key : DeriveKey Id) :=
        sweep_get "lease expired" q.nowNs hnodup q.tables key
      refine ⟨hwf.keys.sweep _ _ _, fun key row hrow => ?_⟩
      simp only [(hget key).1]
      refine hold (fun hnone => ?_) hrow
      rcases (hget key).2 with heq | ⟨hmem, -⟩
      · rw [heq, hnone]
      · obtain ⟨old, hmem', hkey⟩ := List.mem_map.mp hmem
        have hsome := Lib.find_of_nodup hwf.keys (List.mem_filter.mp hmem').1
        rw [hkey] at hsome
        have habsurd : deriveGet q.tables.rows key = some old := hsome
        rw [hnone] at habsurd
        cases habsurd
  | lease i =>
      cases step_worker rfl h with
      | leased i key hpicked hpending => exact hupdate _ _ _
      | stale i key hpicked => exact hwf
  | record i =>
      cases step_worker rfl h with
      | recorded i key expires outcome taint hderived =>
          refine ⟨hwf.keys.recordOutcome _ _ _ _, fun k row hrow => ?_⟩
          simp only [recordOutcome_nodes]
          refine hold (fun hnone => ?_) hrow
          rcases recordOutcome_get q.tables key outcome taint q.nowNs k with heq | ⟨rfl, -⟩
          · rw [heq, hnone]
          · obtain ⟨old, hsome⟩ :=
              hheld k expires (mem_held.mpr ⟨_, List.mem_of_getElem? hderived, rfl, rfl⟩)
            rw [hnone] at hsome
            cases hsome
  | release i =>
      cases step_worker rfl h with
      | released i key expires hreleasing => exact hupdate _ _ _
  | derive i outcome =>
      cases step_worker rfl h with
      | derived => exact hwf
  | busy i =>
      cases step_worker rfl h with
      | busy => exact hwf
  | pick repoId kind =>
      obtain ⟨next, -, rfl⟩ := Option.map_eq_some_iff.mp h
      exact hwf
  | tick ns => cases h; exact hwf
  | drop i => cases h; exact hwf
  | crash => cases h; exact hwf

/-- Only a create stores a changeset. -/
theorem step_nodes {q q' : DeriveQueue Id} {e : QueueEvent Id}
    (h : q.step e = some q') (hcreate : ∀ node kinds, e ≠ .create node kinds) :
    q'.tables.nodes = q.tables.nodes := by
  have hsweep : ∀ (keys : List (DeriveKey Id)) reason nowNs (t : DeriveTables Id),
      (keys.foldl (fun t key => (deriveFailAttempt t key reason nowNs).1) t).nodes = t.nodes := by
    intro keys reason nowNs
    induction keys with
    | nil => exact fun t => rfl
    | cons key keys ih => exact fun t => (ih _).trans (failAttempt_nodes t key reason nowNs)
  cases e with
  | create node kinds => exact absurd rfl (hcreate node kinds)
  | sweep kind => cases h; exact hsweep _ _ _ _
  | lease i => cases step_worker rfl h <;> rfl
  | record i =>
      cases step_worker rfl h with
      | recorded => exact recordOutcome_nodes _ _ _ _ _
  | release i => cases step_worker rfl h; rfl
  | derive i outcome => cases step_worker rfl h; rfl
  | busy i => cases step_worker rfl h; rfl
  | pick repoId kind =>
      obtain ⟨next, -, rfl⟩ := Option.map_eq_some_iff.mp h
      rfl
  | backfill kind cursor limit => cases h; rfl
  | mark repoId cs => cases h; rfl
  | tick ns => cases h; rfl
  | drop i => cases h; rfl
  | crash => cases h; rfl

/-- The changesets stay and new ones come behind them. -/
theorem step_nodes_append {q q' : DeriveQueue Id} {e : QueueEvent Id} (hwf : RowsWf q.tables)
    (h : q.step e = some q') : ∃ new, q'.tables.nodes = q.tables.nodes ++ new := by
  by_cases hcreate : ∃ node kinds, e = .create node kinds
  · obtain ⟨node, kinds, rfl⟩ := hcreate
    rw [step] at h
    split_ifs at h with hguard
    obtain ⟨t, ht, rfl⟩ := Option.map_eq_some_iff.mp h
    push Not at hguard
    exact ⟨[node], (enqueue_fresh ht hguard.2 hwf.keys (hwf.create_none hguard.1 kinds)).1⟩
  · push Not at hcreate
    exact ⟨[], by rw [step_nodes h hcreate, List.append_nil]⟩

/-- A worker that stands with a result has just derived it, or stood with it
before the step. -/
theorem step_result {q q' : DeriveQueue Id} {e : QueueEvent Id} (h : q.step e = some q')
    {w : Worker Id} (hw : w ∈ q'.workers) {expires : ℕ} {outcome : DeriveOutcome}
    {taint : Bool × Option Id} (hphase : w.phase = .derived expires outcome taint) :
    w ∈ q.workers ∨
      ∃ i, e = .derive i outcome ∧ q.workers[i]? = some ⟨w.key, .leased expires⟩ := by
  have hset : ∀ {i : ℕ} {w' : Worker Id}, (w' = w → False) → w ∈ q.workers.set i w' →
      w ∈ q.workers := by
    intro i w' hne hmem
    rcases List.mem_or_eq_of_mem_set hmem with hold | heq
    · exact hold
    · exact (hne heq.symm).elim
  cases e with
  | derive i outcome' =>
      cases step_worker rfl h with
      | derived _ key expires' _ taint' hworker =>
          rcases List.mem_or_eq_of_mem_set hw with hold | rfl
          · exact .inl hold
          · cases hphase
            exact .inr ⟨i, rfl, hworker⟩
  | lease i =>
      cases step_worker rfl h with
      | leased => exact .inl (hset (by rintro rfl; cases hphase) hw)
      | stale => exact .inl (List.mem_of_mem_eraseIdx hw)
  | busy i =>
      cases step_worker rfl h with
      | busy => exact .inl (hset (by rintro rfl; cases hphase) hw)
  | record i => cases step_worker rfl h; exact .inl (List.mem_of_mem_eraseIdx hw)
  | release i => cases step_worker rfl h; exact .inl (List.mem_of_mem_eraseIdx hw)
  | drop i => cases h; exact .inl (List.mem_of_mem_eraseIdx hw)
  | pick repoId kind =>
      obtain ⟨next, -, rfl⟩ := Option.map_eq_some_iff.mp h
      rcases List.mem_append.mp hw with hold | hnew
      · exact .inl hold
      · rw [List.mem_singleton.mp hnew] at hphase
        cases hphase
  | create node kinds =>
      rw [step] at h
      split_ifs at h
      obtain ⟨_, -, rfl⟩ := Option.map_eq_some_iff.mp h
      exact .inl hw
  | crash => cases h; exact absurd hw List.not_mem_nil
  | backfill kind cursor limit => cases h; exact .inl hw
  | mark repoId cs => cases h; exact .inl hw
  | sweep kind => cases h; exact .inl hw
  | tick ns => cases h; exact .inl hw

end DeriveQueue

end

end Naatre
