import Mathlib.Data.List.Find
import Naatre.Server.DeriveProgress

/-!
Taint in the derive queue. Beside each done row stand the tables its derivation
read.

`collapse_taint` names what the first tainted parent names. Its comment says the
nearest poisoned ancestor, which that is only where the first tainted parent is
no farther from one than the others and what it names is still its nearest.
-/

namespace Naatre

section

variable {Id : Type} [DecidableEq Id]

/-! ### Rows that become done -/

/-- A row as `derive_record_done` leaves it. -/
def doneRow (row : DeriveRow Id) (output : Bytes) (taint : Bool × Option Id) : DeriveRow Id :=
  { row with
    state := .done
    output := some output
    leaseExpiresNs := none
    tainted := taint.1
    poisonCs := taint.2 }

omit [DecidableEq Id] in
theorem failedRow_ne_done (row : DeriveRow Id) : (failedRow row).state ≠ .done := by
  unfold failedRow
  simp only
  split_ifs <;> exact DeriveState.noConfusion

/-- A record makes a leased row done. -/
theorem recordOutcome_done {t : DeriveTables Id} {key k : DeriveKey Id} {outcome : DeriveOutcome}
    {taint : Bool × Option Id} {nowNs : ℕ} {row' : DeriveRow Id}
    (h : deriveGet (recordOutcome t key outcome taint nowNs).rows k = some row')
    (hdone : row'.state = .done) :
    deriveGet t.rows k = some row' ∨ k = key ∧ ∃ row output, outcome = .ok output ∧
      deriveGet t.rows k = some row ∧ row.state = .deriving ∧ row' = doneRow row output taint := by
  rcases recordOutcome_get t key outcome taint nowNs k with
    heq | ⟨rfl, ⟨-, hnew⟩ | hnew | ⟨row, -, hrow, hstate, -⟩⟩
  · exact .inl (heq ▸ h)
  · rw [hnew, Option.some.injEq] at h
    exact absurd hdone (h ▸ failedRow_ne_done _)
  · rw [hnew, Option.some.injEq] at h
    rw [← h] at hdone
    cases hdone
  · cases outcome with
    | ok output =>
        rw [recordOutcome] at h
        split_ifs at h
        · rw [deriveGet_poisonNow, if_pos rfl, Option.some.injEq] at h
          rw [← h] at hdone
          cases hdone
        · unfold deriveRecordDone at h
          split_ifs at h
          · simp only [deriveGet_update, if_pos, hrow, Option.map_some, hstate, decide_true,
              Option.some.injEq] at h
            have hkey := deriveGet_key hrow
            refine .inr ⟨rfl, row, output, rfl, hrow, hstate, ?_⟩
            rw [← h, doneRow, hkey]
          · exact .inl h
    | walkBudget budget =>
        rw [recordOutcome, deriveGet_poisonNow, if_pos rfl, Option.some.injEq] at h
        rw [← h] at hdone
        cases hdone
    | walkDeadline reason =>
        have hget := deriveGet_failAttempt t k reason nowNs k
        simp only [recordOutcome] at h
        split_ifs at h hget with hcap hexists
        · rw [hget, Option.some.injEq] at h
          exact absurd hdone (h ▸ failedRow_ne_done _)
        · exact .inl (hget ▸ h)
        · simp only [deriveReport, hget, Option.some.injEq] at h
          exact absurd hdone (h ▸ failedRow_ne_done _)
        · simp only [deriveReport, hget] at h
          exact .inl h
    | fail reason =>
        have hget := deriveGet_failAttempt t k reason nowNs k
        simp only [recordOutcome] at h
        split_ifs at hget
        · rw [hget, Option.some.injEq] at h
          exact absurd hdone (h ▸ failedRow_ne_done _)
        · exact .inl (hget ▸ h)

/-- The one key a kind of a create derives at once. -/
theorem enqueueKind_done {t t' : DeriveTables Id} {node : QueueNode Id} {nowNs : ℕ}
    {kind : ℕ × Option DeriveOutcome} (h : enqueueKind t node nowNs kind = some t')
    (hnone : deriveGet t.rows ⟨kind.1, node.repoId, node.id⟩ = none) {k : DeriveKey Id}
    {row : DeriveRow Id} (hrow : deriveGet t'.rows k = some row) (hdone : row.state = .done) :
    deriveGet t.rows k = some row ∨ k = ⟨kind.1, node.repoId, node.id⟩ ∧
      ∃ output, kind.2 = some (.ok output) ∧ row = doneRow (blankRow k) output
        (collapseTaint (deriveParentOutputs t.rows kind.1 node.repoId node.parents)) := by
  have houtcome : ∀ outcome, deriveGet (recordOutcome t ⟨kind.1, node.repoId, node.id⟩ outcome
      (false, none) nowNs).rows k = some row → deriveGet t.rows k = some row := by
    intro outcome hget
    rcases recordOutcome_done hget hdone with hold | ⟨rfl, old, -, -, hold, -⟩
    · exact hold
    · rw [hnone] at hold
      cases hold
  unfold enqueueKind at h
  obtain ⟨kind, eager⟩ := kind
  cases eager with
  | none =>
      cases h
      simp only [deriveEnqueuePending] at hrow
      rw [deriveGet_insertIgnore] at hrow
      split_ifs at hrow with hk
      · rw [hk, hnone, Option.getD_none, Option.some.injEq] at hrow
        rw [← hrow] at hdone
        cases hdone
      · exact .inl hrow
  | some outcome =>
      cases outcome with
      | ok output =>
          simp only at h
          split_ifs at h with hsize
          · cases h
            exact .inl (houtcome (.ok output) (by rw [recordOutcome, if_pos hsize]; exact hrow))
          · obtain ⟨rows, hrows, rfl⟩ := Option.map_eq_some_iff.mp h
            unfold deriveStateInsertDone at hrows
            rw [hnone, if_neg (by simp)] at hrows
            cases hrows
            simp only at hrow
            rw [deriveGet_append hnone] at hrow
            split_ifs at hrow with hk
            · exact .inr ⟨hk, output, rfl, by rw [← Option.some.inj hrow, hk]; rfl⟩
            · exact .inl hrow
      | walkBudget budget => cases h; exact .inl (houtcome _ hrow)
      | walkDeadline reason => cases h; exact .inl (houtcome _ hrow)
      | fail reason => cases h; exact .inl (houtcome _ hrow)

/-- The parents' rows of one kind stay as they are while other kinds of a create
are queued. -/
theorem deriveParentOutputs_congr {rows rows' : List (DeriveRow Id)} {kind : ℕ} {repoId : RepoId}
    (h : ∀ p, deriveGet rows' ⟨kind, repoId, p⟩ = deriveGet rows ⟨kind, repoId, p⟩)
    (parents : List Id) :
    deriveParentOutputs rows' kind repoId parents = deriveParentOutputs rows kind repoId parents := by
  refine List.map_congr_left fun p _ => ?_
  rw [h]

theorem enqueue_done {node : QueueNode Id} {nowNs : ℕ} {kinds : List (ℕ × Option DeriveOutcome)}
    {t t' : DeriveTables Id}
    (h : kinds.foldlM (fun t kind => enqueueKind t node nowNs kind) t = some t')
    (hkinds : (kinds.map Prod.fst).Nodup) (hkeys : KeysDistinct t.rows)
    (hnone : ∀ kind ∈ kinds, deriveGet t.rows ⟨kind.1, node.repoId, node.id⟩ = none)
    {k : DeriveKey Id} {row : DeriveRow Id} (hrow : deriveGet t'.rows k = some row)
    (hdone : row.state = .done) :
    deriveGet t.rows k = some row ∨ k.repoId = node.repoId ∧ k.cs = node.id ∧
      ∃ output, (k.kind, some (.ok output)) ∈ kinds ∧ row = doneRow (blankRow k) output
        (collapseTaint (deriveParentOutputs t.rows k.kind node.repoId node.parents)) := by
  induction kinds generalizing t with
  | nil => cases h; exact .inl hrow
  | cons kind kinds ih =>
      rw [List.foldlM_cons] at h
      obtain ⟨mid, hmid, hrest⟩ := Option.bind_eq_some_iff.mp h
      rw [List.map_cons, List.nodup_cons] at hkinds
      have hfirst := hnone kind List.mem_cons_self
      obtain ⟨-, hkeys', hadd⟩ := enqueueKind_fresh hmid hkeys hfirst
      have hother : ∀ kind' ∈ kinds, ∀ p,
          deriveGet mid.rows ⟨kind'.1, node.repoId, p⟩ =
            deriveGet t.rows ⟨kind'.1, node.repoId, p⟩ := by
        intro kind' hkind' p
        rcases hadd ⟨kind'.1, node.repoId, p⟩ with heq | ⟨hkey, -⟩
        · exact heq
        · have hmem : kind'.1 ∈ kinds.map Prod.fst := List.mem_map_of_mem hkind'
          rw [(DeriveKey.mk.inj hkey).1] at hmem
          exact absurd hmem hkinds.1
      have hnone' : ∀ kind' ∈ kinds,
          deriveGet mid.rows ⟨kind'.1, node.repoId, node.id⟩ = none := fun kind' hkind' => by
        rw [hother kind' hkind']
        exact hnone kind' (List.mem_cons_of_mem _ hkind')
      rcases ih hrest hkinds.2 hkeys' hnone' with hmidRow | ⟨hrepo, hcs, output, hin, heq⟩
      · rcases enqueueKind_done hmid hfirst hmidRow hdone with hold | ⟨rfl, output, hout, heq⟩
        · exact .inl hold
        · refine .inr ⟨rfl, rfl, output, ?_, heq⟩
          rw [← hout]
          exact List.mem_cons_self
      · refine .inr ⟨hrepo, hcs, output, List.mem_cons_of_mem _ hin, ?_⟩
        rw [heq, deriveParentOutputs_congr (hother _ hin)]

namespace DeriveQueue

/-- What makes a row done: a worker's record, or the eager path of a create. -/
inductive DoneBy (q : DeriveQueue Id) (key : DeriveKey Id) : QueueEvent Id → DeriveRow Id → Prop
  | record (i expires : ℕ) (output : Bytes) (taint : Bool × Option Id) (row : DeriveRow Id)
      (hworker : q.workers[i]? = some ⟨key, .derived expires (.ok output) taint⟩)
      (hrow : deriveGet q.tables.rows key = some row) (hstate : row.state = .deriving) :
      DoneBy q key (.record i) (doneRow row output taint)
  | create (node : QueueNode Id) (kinds : List (ℕ × Option DeriveOutcome)) (output : Bytes)
      (hrepo : key.repoId = node.repoId) (hcs : key.cs = node.id)
      (hkind : (key.kind, some (.ok output)) ∈ kinds)
      (hnone : deriveGet q.tables.rows key = none) :
      DoneBy q key (.create node kinds) (doneRow (blankRow key) output
        (collapseTaint (deriveParentOutputs q.tables.rows key.kind node.repoId node.parents)))

theorem step_done {q q' : DeriveQueue Id} {e : QueueEvent Id} (hwf : RowsWf q.tables)
    (h : q.step e = some q') {key : DeriveKey Id} {row : DeriveRow Id}
    (hrow : deriveGet q'.tables.rows key = some row) (hdone : row.state = .done) :
    deriveGet q.tables.rows key = some row ∨ DoneBy q key e row := by
  -- an update that leaves no row done
  have hupdate : ∀ k guard set, (∀ row : DeriveRow Id, (set row).state ≠ .done) →
      deriveGet (deriveUpdate q.tables.rows k guard set).1 key = some row →
        deriveGet q.tables.rows key = some row := by
    intro k guard set hset hget
    rw [deriveGet_update] at hget
    split_ifs at hget with hk
    · obtain ⟨old, hold, heq⟩ := Option.map_eq_some_iff.mp hget
      split_ifs at heq
      · rw [← heq] at hdone
        exact absurd hdone (hset old)
      · rw [← heq]
        exact hold
    · exact hget
  cases e with
  | create node kinds =>
      rw [step] at h
      split_ifs at h with hguard
      obtain ⟨t, ht, rfl⟩ := Option.map_eq_some_iff.mp h
      push Not at hguard
      have hnone := hwf.create_none hguard.1 kinds
      rcases enqueue_done ht hguard.2 hwf.keys hnone hrow hdone with
        hold | ⟨hrepo, hcs, output, hkind, rfl⟩
      · exact .inl hold
      · refine .inr (.create node kinds output hrepo hcs hkind ?_)
        have hkey : key = ⟨key.kind, node.repoId, node.id⟩ := by rw [← hrepo, ← hcs]
        rw [hkey]
        exact hnone _ hkind
  | backfill kind cursor limit =>
      cases h
      rcases (backfill_fresh kind (backfillScan q.tables kind cursor limit) hwf.keys).2 key with
        heq | ⟨-, hnone, -⟩
      · exact .inl (heq ▸ hrow)
      · -- what the fold adds is pending
        have hpending : ∀ (scan : List (QueueNode Id × ℕ)) (rows : List (DeriveRow Id)),
            deriveGet (scan.foldl (fun rows e =>
              deriveInsertIgnore rows (blankRow ⟨kind, e.1.repoId, e.1.id⟩)) rows) key = some row →
            deriveGet rows key = some row := by
          intro scan
          induction scan with
          | nil => exact fun rows h => h
          | cons e scan ih =>
              intro rows hget
              have hmid := ih _ hget
              rw [deriveGet_insertIgnore] at hmid
              split_ifs at hmid with hk
              · cases hold : deriveGet rows key with
                | none =>
                    rw [hold, Option.getD_none, Option.some.injEq] at hmid
                    rw [← hmid] at hdone
                    cases hdone
                | some old =>
                    rw [hold, Option.getD_some] at hmid
                    exact hmid
              · exact hmid
        exact .inl (hpending _ _ hrow)
  | mark repoId cs =>
      cases h
      simp only [deriveGet_invalidate] at hrow
      obtain ⟨old, hold, heq⟩ := Option.map_eq_some_iff.mp hrow
      split_ifs at heq
      · rw [← heq] at hdone
        cases hdone
      · exact .inl (heq ▸ hold)
  | sweep kind =>
      cases h
      have hnodup : (deriveExpiredLeases q.tables.rows kind q.nowNs).Nodup :=
        hwf.keys.sublist (List.filter_sublist.map _)
      rcases (sweep_get "lease expired" q.nowNs hnodup q.tables key).2 with heq | ⟨-, hnew⟩
      · exact .inl (heq ▸ hrow)
      · rw [hnew, Option.some.injEq] at hrow
        exact absurd hdone (hrow ▸ failedRow_ne_done _)
  | record i =>
      cases step_worker rfl h with
      | recorded i k expires outcome taint hworker =>
          rcases recordOutcome_done hrow hdone with
            hold | ⟨rfl, old, output, rfl, hold, hstate, rfl⟩
          · exact .inl hold
          · exact .inr (.record i expires output taint old hworker hold hstate)
  | lease i =>
      cases step_worker rfl h with
      | leased => exact .inl (hupdate _ _ _ (fun _ => DeriveState.noConfusion) hrow)
      | stale => exact .inl hrow
  | release i =>
      cases step_worker rfl h with
      | released => exact .inl (hupdate _ _ _ (fun _ => DeriveState.noConfusion) hrow)
  | derive i outcome => cases step_worker rfl h; exact .inl hrow
  | busy i => cases step_worker rfl h; exact .inl hrow
  | pick repoId kind =>
      obtain ⟨next, -, rfl⟩ := Option.map_eq_some_iff.mp h
      exact .inl hrow
  | tick ns => cases h; exact .inl hrow
  | drop i => cases h; exact .inl hrow
  | crash => cases h; exact .inl hrow

end DeriveQueue

/-! ### What a derivation reads -/

def poisonedAt (t : DeriveTables Id) (key : DeriveKey Id) : Bool :=
  (deriveGet t.rows key).any fun row => decide (row.state = .poison)

/-- Taint is a column of done rows. -/
def taintedAt (t : DeriveTables Id) (key : DeriveKey Id) : Bool :=
  (deriveGet t.rows key).any fun row => decide (row.state = .done) && row.tainted

/-- The changesets a derivation of `key` reads the rows of. -/
def keyParents (t : DeriveTables Id) (key : DeriveKey Id) : List Id :=
  queueParents t.nodes key.repoId key.cs

/-- What the framework derives the taint of `key` from the rows as. -/
def derivedTaint (t : DeriveTables Id) (key : DeriveKey Id) : Bool × Option Id :=
  collapseTaint (deriveParentOutputs t.rows key.kind key.repoId (keyParents t key))

/-- Some parent's row is poisoned or tainted. -/
def Clouded (t : DeriveTables Id) (key : DeriveKey Id) : Prop :=
  ∃ p ∈ keyParents t key,
    poisonedAt t { key with cs := p } = true ∨ taintedAt t { key with cs := p } = true

/-- `x` is poisoned and `n` steps above `key`, through tainted changesets. -/
inductive TaintPath (t : DeriveTables Id) : DeriveKey Id → Id → ℕ → Prop
  | poisoned (key : DeriveKey Id) (p : Id) (hparent : p ∈ keyParents t key)
      (hrow : poisonedAt t { key with cs := p } = true) : TaintPath t key p 1
  | tainted (key : DeriveKey Id) (p x : Id) (n : ℕ) (hparent : p ∈ keyParents t key)
      (hrow : taintedAt t { key with cs := p } = true)
      (hpath : TaintPath t { key with cs := p } x n) : TaintPath t key x (n + 1)

/-- `x` is a nearest one. -/
def NearestPoison (t : DeriveTables Id) (key : DeriveKey Id) (x : Id) : Prop :=
  ∃ n, TaintPath t key x n ∧ ∀ y m, TaintPath t key y m → n ≤ m

theorem TaintPath.pos {t : DeriveTables Id} {key : DeriveKey Id} {x : Id} {n : ℕ}
    (h : TaintPath t key x n) : 0 < n := by
  cases h with
  | poisoned => omega
  | tainted => omega

/-- A path of two steps ends at a parent or at a parent of one. -/
theorem TaintPath.of_le_two {t : DeriveTables Id} {key : DeriveKey Id} {x : Id} {n : ℕ}
    (h : TaintPath t key x n) (hle : n ≤ 2) :
    x ∈ keyParents t key ∨ ∃ p ∈ keyParents t key, x ∈ keyParents t { key with cs := p } := by
  cases h with
  | poisoned _ _ hparent => exact .inl hparent
  | tainted _ p _ n hparent _ hpath =>
      refine .inr ⟨p, hparent, ?_⟩
      cases hpath with
      | poisoned _ _ hparent' => exact hparent'
      | tainted _ _ _ m _ _ hrest =>
          have hpos := hrest.pos
          omega

/-- The first tainted parent names what its derivation saw, the poisoned
changesets it sees now are the ones it saw then, and no tainted parent is nearer
to one. -/
def FirstIsNearest (seen : DeriveKey Id → DeriveTables Id) (t : DeriveTables Id)
    (key : DeriveKey Id) : Prop :=
  (∀ p ∈ keyParents t key, poisonedAt t { key with cs := p } = false) →
    ∀ p, ((keyParents t key).find? fun p => taintedAt t { key with cs := p }) = some p →
      (∀ x n, TaintPath t { key with cs := p } x n ↔
        TaintPath (seen { key with cs := p }) { key with cs := p } x n) ∧
      ∀ q ∈ keyParents t key, taintedAt t { key with cs := q } = true → ∀ y m,
        TaintPath t { key with cs := q } y m → ∃ x n, TaintPath t { key with cs := p } x n ∧ n ≤ m

/-! ### The collapse -/

/-- What one parent hands on. -/
def parentOut (t : DeriveTables Id) (key : DeriveKey Id) : ParentOut Id :=
  match deriveGet t.rows key with
  | some row =>
      match row.state with
      | .done => ⟨row.output.getD [], false, row.tainted, row.poisonCs⟩
      | .poison => ⟨[], true, true, some key.cs⟩
      | _ => ⟨[], false, false, none⟩
  | none => ⟨[], false, false, none⟩

theorem deriveParentOutputs_eq (t : DeriveTables Id) (key : DeriveKey Id) (parents : List Id) :
    deriveParentOutputs t.rows key.kind key.repoId parents =
      parents.map fun p => parentOut t { key with cs := p } := rfl

theorem parentOut_poisoned (t : DeriveTables Id) (key : DeriveKey Id) :
    (parentOut t key).poisoned = poisonedAt t key := by
  unfold parentOut poisonedAt
  cases deriveGet t.rows key with
  | none => rfl
  | some row => cases hstate : row.state <;> simp [hstate]

theorem parentOut_tainted (t : DeriveTables Id) (key : DeriveKey Id) :
    (parentOut t key).tainted = (poisonedAt t key || taintedAt t key) := by
  unfold parentOut poisonedAt taintedAt
  cases deriveGet t.rows key with
  | none => rfl
  | some row => cases hstate : row.state <;> simp [hstate]

theorem parentOut_poisonCs_poisoned {t : DeriveTables Id} {key : DeriveKey Id}
    (h : poisonedAt t key = true) : (parentOut t key).poisonCs = some key.cs := by
  unfold parentOut
  unfold poisonedAt at h
  cases hrow : deriveGet t.rows key with
  | none => simp [hrow] at h
  | some row =>
      rw [hrow, Option.any_some, decide_eq_true_eq] at h
      simp [h]

theorem parentOut_poisonCs_tainted {t : DeriveTables Id} {key : DeriveKey Id}
    (h : taintedAt t key = true) :
    ∃ row, deriveGet t.rows key = some row ∧ row.state = .done ∧ row.tainted = true ∧
      (parentOut t key).poisonCs = row.poisonCs := by
  unfold parentOut
  unfold taintedAt at h
  cases hrow : deriveGet t.rows key with
  | none => simp [hrow] at h
  | some row =>
      rw [hrow, Option.any_some, Bool.and_eq_true, decide_eq_true_eq] at h
      exact ⟨row, rfl, h.1, h.2, by simp [h.1]⟩

/-- The three ways a collapse ends. -/
theorem derivedTaint_cases (t : DeriveTables Id) (key : DeriveKey Id) :
    (∃ p ∈ keyParents t key, poisonedAt t { key with cs := p } = true ∧
      derivedTaint t key = (true, some p)) ∨
    (∀ p ∈ keyParents t key, poisonedAt t { key with cs := p } = false) ∧
      ((∃ p, ((keyParents t key).find? fun p => taintedAt t { key with cs := p }) = some p ∧
        derivedTaint t key = (true, (parentOut t { key with cs := p }).poisonCs)) ∨
      (∀ p ∈ keyParents t key, taintedAt t { key with cs := p } = false) ∧
        derivedTaint t key = (false, none)) := by
  rw [derivedTaint, deriveParentOutputs_eq, collapseTaint, List.find?_map, List.find?_map]
  simp only [Function.comp_def, parentOut_poisoned, parentOut_tainted]
  cases hpoison : (keyParents t key).find? fun p => poisonedAt t { key with cs := p } with
  | some p =>
      have hrow := List.find?_some hpoison
      refine .inl ⟨p, List.mem_of_find?_eq_some hpoison, hrow, ?_⟩
      rw [Option.map_some]
      simp only [parentOut_poisonCs_poisoned hrow]
  | none =>
      have hnone : ∀ p ∈ keyParents t key, poisonedAt t { key with cs := p } = false :=
        fun p hp => by simpa using List.find?_eq_none.mp hpoison p hp
      have hsame : ((keyParents t key).find? fun p =>
          poisonedAt t { key with cs := p } || taintedAt t { key with cs := p }) =
          (keyParents t key).find? fun p => taintedAt t { key with cs := p } :=
        List.find?_congr fun p hp => by rw [hnone p hp, Bool.false_or]
      refine .inr ⟨hnone, ?_⟩
      rw [Option.map_none, hsame]
      cases htaint : (keyParents t key).find? fun p => taintedAt t { key with cs := p } with
      | some p => exact .inl ⟨p, rfl, rfl⟩
      | none => exact .inr ⟨fun p hp => by simpa using List.find?_eq_none.mp htaint p hp, rfl⟩

/-- A derivation taints exactly over a poisoned or tainted parent. -/
theorem derivedTaint_iff (t : DeriveTables Id) (key : DeriveKey Id) :
    (derivedTaint t key).1 = true ↔ Clouded t key := by
  rcases derivedTaint_cases t key with
    ⟨p, hp, hrow, heq⟩ | ⟨hpoison, ⟨p, hfind, heq⟩ | ⟨htaint, heq⟩⟩
  · rw [heq]
    exact iff_of_true rfl ⟨p, hp, .inl hrow⟩
  · have hrow := List.find?_some hfind
    rw [heq]
    exact iff_of_true rfl ⟨p, List.mem_of_find?_eq_some hfind, .inr hrow⟩
  · rw [heq]
    refine iff_of_false Bool.false_ne_true ?_
    rintro ⟨p, hp, hrow | hrow⟩
    · rw [hpoison p hp] at hrow
      cases hrow
    · rw [htaint p hp] at hrow
      cases hrow

/-- It names a nearest poisoned ancestor where the tainted parents named theirs
and the first of them is nearest. -/
theorem derivedTaint_nearest {seen : DeriveKey Id → DeriveTables Id} {t : DeriveTables Id}
    {key : DeriveKey Id} (hfirst : FirstIsNearest seen t key)
    (hparents : ∀ p ∈ keyParents t key, ∀ row,
      deriveGet t.rows { key with cs := p } = some row → row.state = .done → row.tainted = true →
        ∃ x, row.poisonCs = some x ∧
          NearestPoison (seen { key with cs := p }) { key with cs := p } x)
    (htainted : (derivedTaint t key).1 = true) :
    ∃ x, (derivedTaint t key).2 = some x ∧ NearestPoison t key x := by
  rcases derivedTaint_cases t key with
    ⟨p, hp, hrow, heq⟩ | ⟨hpoison, ⟨p, hfind, heq⟩ | ⟨-, heq⟩⟩
  · refine ⟨p, by rw [heq], 1, .poisoned key p hp hrow, fun y m hpath => ?_⟩
    have hpos := hpath.pos
    omega
  · have hp := List.mem_of_find?_eq_some hfind
    have hrow := List.find?_some hfind
    obtain ⟨hsame, hnearer⟩ := hfirst hpoison p hfind
    obtain ⟨row, hget, hdone, htaint, hname⟩ := parentOut_poisonCs_tainted hrow
    obtain ⟨x, hx, n, hpath, hmin⟩ := hparents p hp row hget hdone htaint
    refine ⟨x, by rw [heq, hname, hx], n + 1,
      .tainted key p x n hp hrow ((hsame x n).mpr hpath), fun y m hother => ?_⟩
    cases hother with
    | poisoned _ _ hq hqrow =>
        rw [hpoison y hq] at hqrow
        cases hqrow
    | tainted _ q _ m hq hqrow hqpath =>
        obtain ⟨z, k, hz, hle⟩ := hnearer q hq hqrow y m hqpath
        have hbound := hmin z k ((hsame z k).mp hz)
        omega
  · rw [heq] at htainted
    cases htainted

/-! ### Derivations of a run -/

/-- The taint a worker has derived and not recorded. -/
def Worker.taint (w : Worker Id) : Option (Bool × Option Id) :=
  match w.phase with
  | .derived _ _ taint => some taint
  | _ => none

/-- The queue, the tables each row's last derivation read and, worker for worker,
those the hands of the queue last derived over. -/
structure TracedQueue (Id : Type) where
  queue : DeriveQueue Id
  seen : DeriveKey Id → DeriveTables Id
  inHand : List (DeriveTables Id)

namespace TracedQueue

/-- The tables a create derives its eager kinds over. -/
def withNode (t : DeriveTables Id) (node : QueueNode Id) : DeriveTables Id :=
  { t with nodes := t.nodes ++ [node] }

/-- The queue goes from `s.queue` to `q` by the event. -/
def handsAfter (s : TracedQueue Id) (q : DeriveQueue Id) :
    QueueEvent Id → List (DeriveTables Id)
  | .pick _ _ => s.inHand ++ [s.queue.tables]
  | .derive i _ => s.inHand.set i s.queue.tables
  -- a stale pick is dropped
  | .lease i => if q.workers.length < s.inHand.length then s.inHand.eraseIdx i else s.inHand
  | .record i | .release i | .drop i => s.inHand.eraseIdx i
  | .crash => []
  | _ => s.inHand

def seenAfter (s : TracedQueue Id) : QueueEvent Id → DeriveKey Id → DeriveTables Id
  | .record i, key =>
      if (s.queue.workers[i]?.any fun w => decide (w.key = key)) &&
          (deriveGet s.queue.tables.rows key).any fun row => decide (row.state = .deriving) then
        s.inHand[i]?.getD s.queue.tables
      else s.seen key
  | .create node _, key =>
      if key.repoId = node.repoId ∧ key.cs = node.id then withNode s.queue.tables node
      else s.seen key
  | _, key => s.seen key

def step (s : TracedQueue Id) (e : QueueEvent Id) : Option (TracedQueue Id) :=
  (s.queue.step e).map fun q => ⟨q, s.seenAfter e, s.handsAfter q e⟩

/-- An empty file. -/
def Init (s : TracedQueue Id) : Prop := DeriveQueue.Init s.queue ∧ s.inHand = []

/-- The event derives `key` over `t`. -/
def Derives (s : TracedQueue Id) (t : DeriveTables Id) (key : DeriveKey Id) :
    QueueEvent Id → Prop
  | .derive i _ => t = s.queue.tables ∧
      ∃ expires, s.queue.workers[i]? = some (⟨key, .leased expires⟩ : Worker Id)
  | .create node kinds => t = withNode s.queue.tables node ∧ key.repoId = node.repoId ∧
      key.cs = node.id ∧ ∃ output, (key.kind, some (.ok output)) ∈ kinds
  | _ => False

/-- Every done row, and every result in a worker's hands, meets `P` with the
tables it was derived over. -/
structure DerivedAs (P : DeriveTables Id → DeriveKey Id → Bool × Option Id → Prop)
    (s : TracedQueue Id) : Prop where
  wf : DeriveQueue.TablesWf s.queue
  hands : s.inHand.length = s.queue.workers.length
  row : ∀ key row, deriveGet s.queue.tables.rows key = some row → row.state = .done →
    P (s.seen key) key (row.tainted, row.poisonCs)
  hand : ∀ (i : ℕ) w taint t, s.queue.workers[i]? = some w → w.taint = some taint →
    s.inHand[i]? = some t → P t w.key taint

omit [DecidableEq Id] in
/-- Two lists that lose the same place stay in step. -/
theorem eraseIdx_zip {workers : List (Worker Id)} {hands : List (DeriveTables Id)} {i j : ℕ}
    {w : Worker Id} {t : DeriveTables Id} (hw : (workers.eraseIdx i)[j]? = some w)
    (ht : (hands.eraseIdx i)[j]? = some t) :
    ∃ j : ℕ, workers[j]? = some w ∧ hands[j]? = some t := by
  rw [List.getElem?_eraseIdx] at hw ht
  split_ifs at hw ht with hlt
  · exact ⟨j, hw, ht⟩
  · exact ⟨j + 1, hw, ht⟩

omit [DecidableEq Id] in
/-- One worker moves on to a phase without a result. -/
theorem getElem?_set_taint {workers : List (Worker Id)} {i j : ℕ} {w w' : Worker Id}
    {taint : Bool × Option Id}
    (hnone : w'.taint = none) (hw : (workers.set i w')[j]? = some w)
    (htaint : w.taint = some taint) : workers[j]? = some w := by
  rw [List.getElem?_set] at hw
  split_ifs at hw
  · rw [← Option.some.inj hw, hnone] at htaint
    cases htaint
  · exact hw

/-- A result in a worker's hands was there before the step or is derived in it. -/
theorem handsAfter_taint {s : TracedQueue Id} {e : QueueEvent Id} {q : DeriveQueue Id}
    (h : s.queue.step e = some q) (hlen : s.inHand.length = s.queue.workers.length) :
    (s.handsAfter q e).length = q.workers.length ∧
    ∀ (i : ℕ) w taint t, q.workers[i]? = some w → w.taint = some taint →
      (s.handsAfter q e)[i]? = some t →
        (∃ j : ℕ, s.queue.workers[j]? = some w ∧ s.inHand[j]? = some t) ∨
        s.Derives t w.key e ∧ taint = derivedTaint t w.key := by
  have herase : ∀ i, (s.inHand.eraseIdx i).length = (s.queue.workers.eraseIdx i).length := by
    intro i
    rw [List.length_eraseIdx, List.length_eraseIdx, hlen]
  cases e with
  | derive i outcome =>
      simp only [DeriveQueue.step] at h
      split at h
      · rename_i key expires hworker
        cases h
        refine ⟨by simp [handsAfter, DeriveQueue.advance, hlen], ?_⟩
        intro j w taint t hw htaint ht
        simp only [handsAfter, DeriveQueue.advance, List.getElem?_set] at hw ht
        split_ifs at hw ht
        · cases hw
          cases ht
          cases htaint
          exact .inr ⟨⟨rfl, expires, hworker⟩, rfl⟩
        · exact .inl ⟨j, hw, ht⟩
      · cases h
  | lease i =>
      cases DeriveQueue.step_worker rfl h with
      | leased =>
          simp only [handsAfter, DeriveQueue.advance, List.length_set, hlen, lt_irrefl, if_false]
          exact ⟨trivial, fun j w _ _ hw htaint ht => .inl ⟨j, getElem?_set_taint rfl hw htaint, ht⟩⟩
      | stale _ key hworker =>
          have hlt : (s.queue.workers.eraseIdx i).length < s.inHand.length := by
            have hi := (List.getElem?_eq_some_iff.mp hworker).1
            rw [List.length_eraseIdx, if_pos hi, hlen]
            omega
          simp only [handsAfter, hlt, if_true]
          exact ⟨herase i, fun _ _ _ _ hw _ ht => .inl (eraseIdx_zip hw ht)⟩
  | record i =>
      cases DeriveQueue.step_worker rfl h with
      | recorded => exact ⟨herase i, fun _ _ _ _ hw _ ht => .inl (eraseIdx_zip hw ht)⟩
  | release i =>
      cases DeriveQueue.step_worker rfl h with
      | released => exact ⟨herase i, fun _ _ _ _ hw _ ht => .inl (eraseIdx_zip hw ht)⟩
  | drop i =>
      cases h
      exact ⟨herase i, fun _ _ _ _ hw _ ht => .inl (eraseIdx_zip hw ht)⟩
  | busy i =>
      cases DeriveQueue.step_worker rfl h with
      | busy =>
          refine ⟨by simp [handsAfter, DeriveQueue.advance, hlen], ?_⟩
          exact fun j _ _ _ hw htaint ht => .inl ⟨j, getElem?_set_taint rfl hw htaint, ht⟩
  | pick repoId kind =>
      obtain ⟨next, -, rfl⟩ := Option.map_eq_some_iff.mp h
      refine ⟨by simp [handsAfter, hlen], ?_⟩
      intro j w taint t hw htaint ht
      simp only [handsAfter, List.getElem?_append, hlen] at hw ht
      split_ifs at hw ht
      · exact .inl ⟨j, hw, ht⟩
      · rw [List.getElem?_singleton] at hw
        split_ifs at hw
        cases hw
        cases htaint
  | create node kinds =>
      rw [DeriveQueue.step] at h
      split_ifs at h
      obtain ⟨_, -, rfl⟩ := Option.map_eq_some_iff.mp h
      exact ⟨hlen, fun j _ _ _ hw _ ht => .inl ⟨j, hw, ht⟩⟩
  | crash =>
      cases h
      exact ⟨rfl, fun _ _ _ _ hw => by cases hw⟩
  | backfill kind cursor limit =>
      cases h
      exact ⟨hlen, fun j _ _ _ hw _ ht => .inl ⟨j, hw, ht⟩⟩
  | mark repoId cs =>
      cases h
      exact ⟨hlen, fun j _ _ _ hw _ ht => .inl ⟨j, hw, ht⟩⟩
  | sweep kind =>
      cases h
      exact ⟨hlen, fun j _ _ _ hw _ ht => .inl ⟨j, hw, ht⟩⟩
  | tick ns =>
      cases h
      exact ⟨hlen, fun j _ _ _ hw _ ht => .inl ⟨j, hw, ht⟩⟩

/-- What every derivation of a step meets, every done row meets. -/
theorem DerivedAs.step {P : DeriveTables Id → DeriveKey Id → Bool × Option Id → Prop}
    {s s' : TracedQueue Id} {e : QueueEvent Id} (hinv : DerivedAs P s) (h : s.step e = some s')
    (hderive : ∀ t key, s.Derives t key e → P t key (derivedTaint t key)) : DerivedAs P s' := by
  obtain ⟨q, hq, rfl⟩ := Option.map_eq_some_iff.mp h
  obtain ⟨hlen, hhands⟩ := handsAfter_taint hq hinv.hands
  refine ⟨hinv.wf.step hq, hlen, fun key row hrow hdone => ?_, ?_⟩
  · rcases DeriveQueue.step_done hinv.wf.wf hq hrow hdone with hold | hnew
    · -- a row done before is not derived again
      have hseen : s.seenAfter e key = s.seen key := by
        cases e with
        | record i =>
            refine if_neg ?_
            rw [hold, Option.any_some, hdone]
            simp
        | create node kinds =>
            refine if_neg ?_
            rintro ⟨hrepo, hcs⟩
            obtain ⟨n, hn, hnrepo, hnid⟩ := hinv.wf.wf.stored key row hold
            rw [DeriveQueue.step, if_pos] at hq
            · cases hq
            · refine .inl (List.any_eq_true.mpr ⟨n, hn, ?_⟩)
              rw [hnrepo, hnid, hrepo, hcs]
              simp
        | _ => rfl
      show P (s.seenAfter e key) key _
      rw [hseen]
      exact hinv.row key row hold hdone
    · cases hnew with
      | record i expires output taint old hworker hold hstate =>
          obtain ⟨t, ht⟩ : ∃ t, s.inHand[i]? = some t := by
            have hi := (List.getElem?_eq_some_iff.mp hworker).1
            rw [← hinv.hands] at hi
            exact ⟨_, List.getElem?_eq_getElem hi⟩
          have hseen : s.seenAfter (.record i) key = t := by
            rw [seenAfter, hworker, hold, ht]
            simp [hstate]
          show P (s.seenAfter (.record i) key) key taint
          rw [hseen]
          exact hinv.hand i _ taint t hworker rfl ht
      | create node kinds output hrepo hcs hkind hnone =>
          have hseen : s.seenAfter (.create node kinds) key = withNode s.queue.tables node :=
            if_pos ⟨hrepo, hcs⟩
          have hnew : ¬ (s.queue.tables.nodes.any fun n =>
              decide (n.repoId = node.repoId ∧ n.id = node.id)) = true := fun hany => by
            rw [DeriveQueue.step, if_pos (.inl hany)] at hq
            cases hq
          have hparents : keyParents (withNode s.queue.tables node) key = node.parents := by
            rw [keyParents, hrepo, hcs]
            exact queueParents_new hnew
          have hright := hderive _ key ⟨rfl, hrepo, hcs, output, hkind⟩
          rw [derivedTaint, hparents, hrepo] at hright
          show P (s.seenAfter (.create node kinds) key) key _
          rw [hseen]
          exact hright
  · intro i w taint t hw htaint ht
    rcases hhands i w taint t hw htaint ht with ⟨j, hj, htj⟩ | ⟨hnew, rfl⟩
    · exact hinv.hand j w taint t hj htaint htj
    · exact hderive t w.key hnew

theorem DerivedAs.init {P : DeriveTables Id → DeriveKey Id → Bool × Option Id → Prop}
    {s : TracedQueue Id} (h : Init s) : DerivedAs P s := by
  obtain ⟨queue, seen, inHand⟩ := s
  obtain ⟨⟨nowNs, leaseNs, rfl⟩, rfl⟩ := h
  refine ⟨⟨⟨List.nodup_nil, ?_⟩, ?_⟩, rfl, ?_, ?_⟩
  · exact fun _ _ hget => nomatch hget
  · exact fun _ _ hin => nomatch hin
  · exact fun _ _ hget => nomatch hget
  · exact fun _ _ _ _ hw => nomatch hw

/-- In every run: a row is tainted exactly when a parent's row was poisoned or
tainted when it was derived. -/
theorem clouded_of_reach {ok : TracedQueue Id → QueueEvent Id → Prop} {s : TracedQueue Id}
    (h : Lib.Reach Init step ok s) :
    DerivedAs (fun t key taint => taint.1 = true ↔ Clouded t key) s := by
  refine Lib.Reach.invariant (fun s hs => .init hs) (fun s e s' _ hinv _ he => ?_) h
  exact hinv.step he fun t key _ => derivedTaint_iff t key

/-- Every derivation of the event finds its first tainted parent nearest. -/
def OnFirstNearest (s : TracedQueue Id) (e : QueueEvent Id) : Prop :=
  ∀ t key, s.Derives t key e → FirstIsNearest s.seen t key

/-- In every run whose derivations find their first tainted parent nearest: a
done row is tainted exactly when a parent's row was poisoned or tainted when it
was derived, and it names a nearest of the poisoned ancestors it reached then
through tainted ones. -/
theorem taint_of_reach {s : TracedQueue Id} (h : Lib.Reach Init step OnFirstNearest s)
    {key : DeriveKey Id} {row : DeriveRow Id}
    (hrow : deriveGet s.queue.tables.rows key = some row) (hdone : row.state = .done) :
    (row.tainted = true ↔ Clouded (s.seen key) key) ∧
      (row.tainted = true → ∃ x, row.poisonCs = some x ∧ NearestPoison (s.seen key) key x) := by
  refine ⟨(clouded_of_reach h).row key row hrow hdone, ?_⟩
  have hinv : DerivedAs (fun t key taint => taint.1 = true →
      ∃ x, taint.2 = some x ∧ NearestPoison t key x) s := by
    refine Lib.Reach.invariant (fun s hs => .init hs) (fun s e s' _ hinv hok he => ?_) h
    refine hinv.step he fun t key hnew => derivedTaint_nearest (hok t key hnew) ?_
    intro p hp row hrow hdone htaint
    refine hinv.row { key with cs := p } row ?_ hdone htaint
    -- a create reads the rows before it
    cases e with
    | derive i outcome => exact hnew.1 ▸ hrow
    | create node kinds =>
        rw [hnew.1] at hrow
        exact hrow
    | _ => exact hnew.elim
  exact hinv.row key row hrow hdone

end TracedQueue

end

namespace TracedQueue

/-! ### A poisoned parent and two tainted ones -/

def blank : TracedQueue ℕ := ⟨DeriveQueue.fresh, fun _ => ⟨[], [], []⟩, []⟩

/-- A create whose one kind is derived at once. -/
def derives (cs generation : ℕ) (parents : List ℕ) : QueueEvent ℕ :=
  .create ⟨7, cs, generation, parents⟩ [(0, some (.ok []))]

/-- Changeset 1 runs out of its walk budget, 2 is derived on top of it, 3 on top
of 2, and 4 merges 2 and 3. -/
def onPoison : List (QueueEvent ℕ) :=
  [.create ⟨7, 1, 0, []⟩ [(0, some (.walkBudget 0))], derives 2 1 [1], derives 3 2 [2],
    derives 4 3 [2, 3]]

/-- The state after the first events of the run. -/
def atEvent (n : ℕ) : TracedQueue ℕ := (Lib.exec step blank (onPoison.take n)).getD blank

theorem derives_at {n cs generation : ℕ} {parents : List ℕ}
    (h : FirstIsNearest (atEvent n).seen
      (withNode (atEvent n).queue.tables ⟨7, cs, generation, parents⟩) ⟨0, 7, cs⟩) :
    (atEvent n).OnFirstNearest (derives cs generation parents) := by
  rintro t ⟨kind, repoId, id⟩ ⟨rfl, hrepo, hcs, output, hkind⟩
  simp only [List.mem_singleton, Prod.mk.injEq] at hrepo hcs hkind
  obtain ⟨rfl, -⟩ := hkind
  rw [hrepo, hcs]
  exact h

/-- Below a poisoned parent alone there is one path. -/
theorem taintPath_parent {t : DeriveTables ℕ} {key : DeriveKey ℕ} {p x n : ℕ}
    (hparents : keyParents t key = [p]) (hpoison : poisonedAt t { key with cs := p } = true)
    (hclear : taintedAt t { key with cs := p } = false) : TaintPath t key x n ↔ x = p ∧ n = 1 := by
  constructor
  · intro h
    cases h with
    | poisoned _ _ hparent =>
        rw [hparents] at hparent
        exact ⟨List.mem_singleton.mp hparent, rfl⟩
    | tainted _ q _ _ hparent hrow =>
        rw [hparents] at hparent
        rw [List.mem_singleton.mp hparent, hclear] at hrow
        cases hrow
  · rintro ⟨rfl, rfl⟩
    exact .poisoned key x (by rw [hparents]; exact List.mem_singleton_self x) hpoison

/-- The first tainted parent is 2, one step below the poison. -/
theorem firstIsNearest_two {n : ℕ} {t : DeriveTables ℕ} {key : DeriveKey ℕ}
    (hfirst : ((keyParents t key).find? fun p => taintedAt t { key with cs := p }) = some 2)
    (hnow : ∀ x m, TaintPath t { key with cs := 2 } x m ↔ x = 1 ∧ m = 1)
    (hthen : ∀ x m, TaintPath ((atEvent n).seen { key with cs := 2 }) { key with cs := 2 } x m ↔
      x = 1 ∧ m = 1) : FirstIsNearest (atEvent n).seen t key := by
  intro _ p hp
  obtain rfl : p = 2 := Option.some.inj (hp.symm.trans hfirst)
  refine ⟨fun x m => (hnow x m).trans (hthen x m).symm, fun q _ _ y m hpath => ?_⟩
  exact ⟨1, 1, (hnow 1 1).mpr ⟨rfl, rfl⟩, hpath.pos⟩

/-- The merge names the poisoned changeset, by the nearer of its tainted parents. -/
theorem taint_of_reach_onPoison : ∃ s row, Lib.exec step blank onPoison = some s ∧
    deriveGet s.queue.tables.rows ⟨0, 7, 4⟩ = some row ∧ row.tainted = true ∧
    ∃ x, row.poisonCs = some x ∧ NearestPoison (s.seen ⟨0, 7, 4⟩) ⟨0, 7, 4⟩ x := by
  have hone : Lib.Reach Init step OnFirstNearest (atEvent 1) := by
    refine .next (.start ⟨⟨0, 10, rfl⟩, rfl⟩) ?_ (show step blank onPoison[0] = some _ from rfl)
    rintro t key ⟨-, -, -, output, hkind⟩
    simp at hkind
  -- a poisoned parent is named before any tainted one
  have htwo : Lib.Reach Init step OnFirstNearest (atEvent 2) := by
    refine .next hone (derives_at fun hnone => ?_)
      (show step (atEvent 1) (derives 2 1 [1]) = some _ from rfl)
    exact absurd (hnone 1 (by decide)) (by decide)
  have hthree : Lib.Reach Init step OnFirstNearest (atEvent 3) := by
    refine .next htwo (derives_at (firstIsNearest_two (by decide) (fun x m => ?_) fun x m => ?_))
      (show step (atEvent 2) (derives 3 2 [2]) = some _ from rfl)
    · exact taintPath_parent (by decide) (by decide) (by decide)
    · exact taintPath_parent (by decide) (by decide) (by decide)
  have hfour : Lib.Reach Init step OnFirstNearest (atEvent 4) := by
    refine .next hthree (derives_at (firstIsNearest_two (by decide) (fun x m => ?_) fun x m => ?_))
      (show step (atEvent 3) (derives 4 3 [2, 3]) = some _ from rfl)
    · exact taintPath_parent (by decide) (by decide) (by decide)
    · exact taintPath_parent (by decide) (by decide) (by decide)
  exact ⟨atEvent 4, _, rfl, rfl, rfl, (taint_of_reach hfour rfl rfl).2 rfl⟩

/-- Changesets 1 and 4 run out of their budgets. 2 and 3 are on top of 1, 5 is
on top of 4, and 6 merges 3 and 5. -/
def farFirst : List (QueueEvent ℕ) :=
  [.create ⟨7, 1, 0, []⟩ [(0, some (.walkBudget 0))],
    .create ⟨7, 2, 1, [1]⟩ [(0, some (.ok []))],
    .create ⟨7, 3, 2, [2]⟩ [(0, some (.ok []))],
    .create ⟨7, 4, 0, []⟩ [(0, some (.walkBudget 0))],
    .create ⟨7, 5, 1, [4]⟩ [(0, some (.ok []))],
    .create ⟨7, 6, 3, [3, 5]⟩ [(0, some (.ok []))]]

/-- The merge names 1, three steps above it, and 4 is two steps above. -/
theorem farther_named : ∃ s row, Lib.exec step blank farFirst = some s ∧
    deriveGet s.queue.tables.rows ⟨0, 7, 6⟩ = some row ∧ row.state = .done ∧
    row.tainted = true ∧ row.poisonCs = some 1 ∧
    TaintPath (s.seen ⟨0, 7, 6⟩) ⟨0, 7, 6⟩ 4 2 ∧
    ¬ NearestPoison (s.seen ⟨0, 7, 6⟩) ⟨0, 7, 6⟩ 1 := by
  have hnear : ∃ s, Lib.exec step blank farFirst = some s ∧
      TaintPath (s.seen ⟨0, 7, 6⟩) ⟨0, 7, 6⟩ 4 2 :=
    ⟨_, rfl, .tainted _ 5 4 1 (by decide) (by decide) (.poisoned _ 4 (by decide) (by decide))⟩
  obtain ⟨s, hs, hnear⟩ := hnear
  cases hs
  refine ⟨_, _, rfl, rfl, rfl, rfl, rfl, hnear, ?_⟩
  rintro ⟨n, hpath, hmin⟩
  rcases hpath.of_le_two (hmin 4 2 hnear) with hparent | ⟨p, hp, hparent⟩
  · revert hparent
    decide
  · revert p
    decide

end TracedQueue

end Naatre
