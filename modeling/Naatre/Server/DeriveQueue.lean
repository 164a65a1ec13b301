import Naatre.Server.Db

/-!
The derive queue (`naatre-server/src/derive.rs` and its statements in `db.rs`):
one row for each kind and changeset, moved between four states by the eager
path of a create, the queue's workers, the lease sweep, the boot backfill and
the redaction mark.

The rows of one database file are a list in rowid order. A deriver is whatever
answer its call gives; its own storage is not kept here. The text of an overrun
deadline carries measured seconds and is taken as it comes.
-/

namespace Naatre

/-- `DERIVE_MAX_ATTEMPTS`. -/
def deriveMaxAttempts : ℕ := 3

/-- `DERIVE_MAX_OUTPUT_BYTES`. -/
def deriveMaxOutputBytes : ℕ := 16 * 1024 * 1024

inductive DeriveState
  | pending
  | deriving
  | done
  | poison
  deriving DecidableEq, Repr

/-- The primary key of `derive_state`. -/
structure DeriveKey (Id : Type) where
  kind : ℕ
  repoId : RepoId
  cs : Id
  deriving DecidableEq

/-- One row of `derive_state`. -/
structure DeriveRow (Id : Type) where
  key : DeriveKey Id
  state : DeriveState
  leaseExpiresNs : Option ℕ := none
  attempts : ℕ := 0
  output : Option Bytes := none
  tainted : Bool := false
  poisonCs : Option Id := none
  deriving DecidableEq

/-- One row of `derive_reports`. -/
structure DeriveReport (Id : Type) where
  key : DeriveKey Id
  reason : String
  tsNs : ℕ
  deriving DecidableEq

/-- What the queue reads of a changeset. -/
structure QueueNode (Id : Type) where
  repoId : RepoId
  id : Id
  generation : ℕ
  parents : List Id
  deriving DecidableEq

/-- What a call of a deriver gives: its output or a `DeriveFailure`. -/
inductive DeriveOutcome
  | ok (output : Bytes)
  | walkBudget (budget : ℕ)
  | walkDeadline (reason : String)
  | fail (reason : String)
  deriving DecidableEq

def walkBudgetReason (budget : ℕ) : String :=
  "derive walk budget exhausted: a deriver's per-call budget of " ++ toString budget ++
    " visits ran out"

def sizeCapReason (len : ℕ) : String :=
  "derive output cap exceeded: " ++ toString len ++ " bytes exceeds the " ++
    toString deriveMaxOutputBytes ++ "-byte per-node output cap"

section

variable {Id : Type} [DecidableEq Id]

/-! ### Statements -/

/-- The tables of the queue in one database file. -/
structure DeriveTables (Id : Type) where
  nodes : List (QueueNode Id)
  rows : List (DeriveRow Id)
  reports : List (DeriveReport Id)

def deriveGet (rows : List (DeriveRow Id)) (key : DeriveKey Id) : Option (DeriveRow Id) :=
  rows.find? fun row => decide (row.key = key)

/-- `UPDATE derive_state SET … WHERE` key and `guard`: the rows and whether one
was hit. -/
def deriveUpdate (rows : List (DeriveRow Id)) (key : DeriveKey Id) (guard : DeriveRow Id → Bool)
    (set : DeriveRow Id → DeriveRow Id) : List (DeriveRow Id) × Bool :=
  (rows.map fun row => if row.key = key ∧ guard row then { set row with key } else row,
    (deriveGet rows key).any guard)

/-- `INSERT OR IGNORE`. -/
def deriveInsertIgnore (rows : List (DeriveRow Id)) (row : DeriveRow Id) : List (DeriveRow Id) :=
  if (deriveGet rows row.key).isSome then rows else rows ++ [row]

/-- `INSERT … ON CONFLICT DO UPDATE`. -/
def deriveUpsert (rows : List (DeriveRow Id)) (row : DeriveRow Id)
    (set : DeriveRow Id → DeriveRow Id) : List (DeriveRow Id) :=
  if (deriveGet rows row.key).isSome then (deriveUpdate rows row.key (fun _ => true) set).1
  else rows ++ [row]

/-- `derive_enqueue_pending`. -/
def deriveEnqueuePending (rows : List (DeriveRow Id)) (key : DeriveKey Id) :
    List (DeriveRow Id) :=
  deriveInsertIgnore rows { key, state := .pending }

/-- `derive_state_insert_done`; a row in its way is an error. -/
def deriveStateInsertDone (rows : List (DeriveRow Id)) (key : DeriveKey Id) (output : Bytes)
    (taint : Bool × Option Id) : Option (List (DeriveRow Id)) :=
  if (deriveGet rows key).isSome then none
  else some (rows ++
    [{ key, state := .done, output := some output, tainted := taint.1, poisonCs := taint.2 }])

/-- A parent that holds its children back. -/
def inFlight (rows : List (DeriveRow Id)) (key : DeriveKey Id) : Bool :=
  (deriveGet rows key).any fun row => decide (row.state = .pending ∨ row.state = .deriving)

def queueParents (nodes : List (QueueNode Id)) (repoId : RepoId) (cs : Id) : List Id :=
  ((nodes.find? fun n => decide (n.repoId = repoId ∧ n.id = cs)).map (·.parents)).getD []

/-- `derive_pick_next`: the oldest pending row none of whose parents is in
flight. -/
def derivePickNext (t : DeriveTables Id) (kind : ℕ) : Option (RepoId × Id) :=
  (t.rows.find? fun row =>
    decide (row.key.kind = kind) && decide (row.state = .pending) &&
      (queueParents t.nodes row.key.repoId row.key.cs).all fun p =>
        !inFlight t.rows { row.key with cs := p }).map fun row => (row.key.repoId, row.key.cs)

/-- `derive_lease`. -/
def deriveLease (rows : List (DeriveRow Id)) (key : DeriveKey Id) (leaseExpiresNs : ℕ) :
    List (DeriveRow Id) × Bool :=
  deriveUpdate rows key (fun row => decide (row.state = .pending))
    fun row => { row with state := .deriving, leaseExpiresNs := some leaseExpiresNs }

/-- `derive_release_lease`. -/
def deriveReleaseLease (rows : List (DeriveRow Id)) (key : DeriveKey Id) (leaseExpiresNs : ℕ) :
    List (DeriveRow Id) × Bool :=
  deriveUpdate rows key
    (fun row => decide (row.state = .deriving) && decide (row.leaseExpiresNs = some leaseExpiresNs))
    fun row => { row with state := .pending, leaseExpiresNs := none }

/-- `ParentOut`, what a parent hands to a child's derivation. -/
structure ParentOut (Id : Type) where
  output : Bytes
  poisoned : Bool
  tainted : Bool
  poisonCs : Option Id

/-- `derive_parent_outputs`. -/
def deriveParentOutputs (rows : List (DeriveRow Id)) (kind : ℕ) (repoId : RepoId)
    (parents : List Id) : List (ParentOut Id) :=
  parents.map fun p =>
    match deriveGet rows ⟨kind, repoId, p⟩ with
    | some row =>
        match row.state with
        | .done => ⟨row.output.getD [], false, row.tainted, row.poisonCs⟩
        | .poison => ⟨[], true, true, some p⟩
        | _ => ⟨[], false, false, none⟩
    | none => ⟨[], false, false, none⟩

/-- `collapse_taint`. -/
def collapseTaint (parents : List (ParentOut Id)) : Bool × Option Id :=
  match parents.find? (·.poisoned) with
  | some p => (true, p.poisonCs)
  | none =>
      match parents.find? (·.tainted) with
      | some p => (true, p.poisonCs)
      | none => (false, none)

/-- `changeset_exists`: in any repository of the file. -/
def changesetExists (t : DeriveTables Id) (cs : Id) : Bool :=
  t.nodes.any fun n => decide (n.id = cs)

/-- `derive_record_done`. -/
def deriveRecordDone (t : DeriveTables Id) (key : DeriveKey Id) (output : Bytes)
    (taint : Bool × Option Id) : DeriveTables Id × Bool :=
  if changesetExists t key.cs then
    let (rows, hit) := deriveUpdate t.rows key (fun row => decide (row.state = .deriving))
      fun row =>
        { row with
          state := .done
          output := some output
          leaseExpiresNs := none
          tainted := taint.1
          poisonCs := taint.2 }
    ({ t with rows }, hit)
  else (t, false)

/-- `derive_report`. -/
def deriveReport (t : DeriveTables Id) (key : DeriveKey Id) (reason : String) (tsNs : ℕ) :
    DeriveTables Id :=
  { t with reports := t.reports ++ [⟨key, reason, tsNs⟩] }

/-- `derive_fail_attempt`. Neither arm looks at the state of the row. -/
def deriveFailAttempt (t : DeriveTables Id) (key : DeriveKey Id) (reason : String) (nowNs : ℕ) :
    DeriveTables Id × Bool :=
  if changesetExists t key.cs then
    let attempts := ((deriveGet t.rows key).map (·.attempts)).getD 0 + 1
    if deriveMaxAttempts ≤ attempts then
      let rows := deriveUpsert t.rows { key, state := .poison, attempts }
        fun row => { row with state := .poison, leaseExpiresNs := none, attempts }
      (deriveReport { t with rows } key reason nowNs, true)
    else
      let rows := deriveUpsert t.rows { key, state := .pending, attempts }
        fun row => { row with state := .pending, leaseExpiresNs := none, attempts }
      ({ t with rows }, false)
  else (t, false)

/-- `derive_expired_leases`. -/
def deriveExpiredLeases (rows : List (DeriveRow Id)) (kind nowNs : ℕ) : List (DeriveKey Id) :=
  (rows.filter fun row =>
    decide (row.key.kind = kind) && decide (row.state = .deriving) &&
      row.leaseExpiresNs.any fun expires => decide (expires < nowNs)).map (·.key)

/-- `derive_poison_now`. -/
def derivePoisonNow (t : DeriveTables Id) (key : DeriveKey Id) (reason : String) (nowNs : ℕ) :
    DeriveTables Id :=
  let rows := deriveUpsert t.rows { key, state := .poison }
    fun row => { row with state := .poison, leaseExpiresNs := none }
  deriveReport { t with rows } key reason nowNs

/-- `redaction_invalidate_derived`: the rows of every kind. -/
def redactionInvalidateDerived (rows : List (DeriveRow Id)) (repoId : RepoId) (cs : Id) :
    List (DeriveRow Id) :=
  rows.map fun row =>
    if row.key.repoId = repoId ∧ row.key.cs = cs ∧ row.state ≠ .poison then
      { row with state := .poison, leaseExpiresNs := none }
    else row

/-- `BackfillCursor`. -/
structure BackfillCursor where
  generation : ℤ
  rowid : ℕ
  deriving DecidableEq

/-- The changesets one batch takes, each with its rowid. -/
def backfillScan (t : DeriveTables Id) (kind : ℕ) (cursor : BackfillCursor) (limit : ℕ) :
    List (QueueNode Id × ℕ) :=
  (((t.nodes.zipIdx 1).filter fun (n, rowid) =>
    decide (cursor.generation < n.generation ∨
      cursor.generation = n.generation ∧ cursor.rowid < rowid) &&
        (deriveGet t.rows ⟨kind, n.repoId, n.id⟩).isNone).insertionSort
    fun a b => a.1.generation < b.1.generation ∨
      a.1.generation = b.1.generation ∧ a.2 ≤ b.2).take limit

/-- `derive_backfill_batch`. -/
def deriveBackfillBatch (t : DeriveTables Id) (kind : ℕ) (cursor : BackfillCursor) (limit : ℕ) :
    (ℕ × BackfillCursor) × DeriveTables Id :=
  let scan := backfillScan t kind cursor limit
  let rows := scan.foldl
    (fun rows e => deriveInsertIgnore rows { key := ⟨kind, e.1.repoId, e.1.id⟩, state := .pending })
    t.rows
  let next :=
    match scan.getLast? with
    | some (n, rowid) => ⟨n.generation, rowid⟩
    | none => cursor
  ((scan.length, next), { t with rows })

/-! ### The eager path -/

/-- The framework's end of one finished call: the structural caps, then the
record or the failed attempt. -/
def recordOutcome (t : DeriveTables Id) (key : DeriveKey Id) (outcome : DeriveOutcome)
    (taint : Bool × Option Id) (nowNs : ℕ) : DeriveTables Id :=
  match outcome with
  | .ok output =>
      if deriveMaxOutputBytes < output.length then
        derivePoisonNow t key (sizeCapReason output.length) nowNs
      else (deriveRecordDone t key output taint).1
  | .walkBudget budget => derivePoisonNow t key (walkBudgetReason budget) nowNs
  | .walkDeadline reason =>
      let (t, poisoned) := deriveFailAttempt t key reason nowNs
      if poisoned then t else deriveReport t key reason nowNs
  | .fail reason => (deriveFailAttempt t key reason nowNs).1

/-- One kind of `enqueue_changeset`: `none` is a deferred kind, an answer that
of an eager one. -/
def enqueueKind (t : DeriveTables Id) (node : QueueNode Id) (nowNs : ℕ)
    (kind : ℕ × Option DeriveOutcome) : Option (DeriveTables Id) :=
  let key : DeriveKey Id := ⟨kind.1, node.repoId, node.id⟩
  match kind.2 with
  | none => some { t with rows := deriveEnqueuePending t.rows key }
  | some (.ok output) =>
      if deriveMaxOutputBytes < output.length then
        some (derivePoisonNow t key (sizeCapReason output.length) nowNs)
      else
        let taint := collapseTaint (deriveParentOutputs t.rows kind.1 node.repoId node.parents)
        (deriveStateInsertDone t.rows key output taint).map fun rows => { t with rows }
  | some outcome => some (recordOutcome t key outcome (false, none) nowNs)

/-- `enqueue_changeset`, in the transaction that writes the changeset. -/
def enqueueChangeset (t : DeriveTables Id) (node : QueueNode Id) (nowNs : ℕ)
    (kinds : List (ℕ × Option DeriveOutcome)) : Option (DeriveTables Id) :=
  kinds.foldlM (fun t kind => enqueueKind t node nowNs kind)
    { t with nodes := t.nodes ++ [node] }

/-! ### The queue -/

/-- Where `drain` stands with a node. -/
inductive DrainPhase (Id : Type)
  | picked
  | leased (leaseExpires : ℕ)
  | derived (leaseExpires : ℕ) (outcome : DeriveOutcome) (taint : Bool × Option Id)
  /-- `release_lease_after_busy` -/
  | releasing (leaseExpires : ℕ)
  deriving DecidableEq

/-- A node in the hands of a `drain`. -/
structure Worker (Id : Type) where
  key : DeriveKey Id
  phase : DrainPhase Id
  deriving DecidableEq

/-- The value of the lease a worker took. -/
def Worker.lease (w : Worker Id) : Option ℕ :=
  match w.phase with
  | .picked => none
  | .leased expires | .derived expires _ _ | .releasing expires => some expires

structure DeriveQueue (Id : Type) where
  nowNs : ℕ
  leaseNs : ℕ
  tables : DeriveTables Id
  workers : List (Worker Id)

/-- One step of an actor. A worker is named by its place in the list. -/
inductive QueueEvent (Id : Type)
  | tick (ns : ℕ)
  | create (node : QueueNode Id) (kinds : List (ℕ × Option DeriveOutcome))
  | backfill (kind : ℕ) (cursor : BackfillCursor) (limit : ℕ)
  | mark (repoId : RepoId) (cs : Id)
  /-- the write of `sweep_expired` -/
  | sweep (kind : ℕ)
  | pick (repoId : RepoId) (kind : ℕ)
  | lease (i : ℕ)
  | derive (i : ℕ) (outcome : DeriveOutcome)
  | record (i : ℕ)
  /-- the write slot is busy: the write of a leased or derived node is given up -/
  | busy (i : ℕ)
  | release (i : ℕ)
  /-- a worker ends without a further write: a panic, an error, a stale pick,
  a busy slot before the lease or the last retry of the release -/
  | drop (i : ℕ)
  /-- the process stops -/
  | crash

namespace DeriveQueue

/-- The worker `i` moves on to `phase`. -/
def advance (q : DeriveQueue Id) (i : ℕ) (w : Worker Id) (phase : DrainPhase Id) :
    DeriveQueue Id :=
  { q with workers := q.workers.set i { w with phase } }

def step (q : DeriveQueue Id) : QueueEvent Id → Option (DeriveQueue Id)
  | .tick ns => some { q with nowNs := q.nowNs + ns }
  | .create node kinds =>
      -- the changeset is a new row, and the registry holds a kind once
      if (q.tables.nodes.any fun n => decide (n.repoId = node.repoId ∧ n.id = node.id)) ∨
          ¬ (kinds.map Prod.fst).Nodup then none
      else (enqueueChangeset q.tables node q.nowNs kinds).map fun tables => { q with tables }
  | .backfill kind cursor limit =>
      some { q with tables := (deriveBackfillBatch q.tables kind cursor limit).2 }
  | .mark repoId cs =>
      some { q with tables.rows := redactionInvalidateDerived q.tables.rows repoId cs }
  | .sweep kind =>
      some { q with
        tables := (deriveExpiredLeases q.tables.rows kind q.nowNs).foldl
          (fun t key => (deriveFailAttempt t key "lease expired" q.nowNs).1) q.tables }
  | .pick repoId kind =>
      (derivePickNext q.tables kind).map fun next =>
        { q with workers := q.workers ++ [⟨⟨kind, repoId, next.2⟩, .picked⟩] }
  | .lease i =>
      match q.workers[i]? with
      | some ⟨key, .picked⟩ =>
          let expires := q.nowNs + q.leaseNs
          let (rows, leased) := deriveLease q.tables.rows key expires
          if leased then
            some ({ q with tables.rows := rows }.advance i ⟨key, .picked⟩ (.leased expires))
          else some { q with workers := q.workers.eraseIdx i }
      | _ => none
  | .derive i outcome =>
      match q.workers[i]? with
      | some ⟨key, .leased expires⟩ =>
          let outs := deriveParentOutputs q.tables.rows key.kind key.repoId
            (queueParents q.tables.nodes key.repoId key.cs)
          some (q.advance i ⟨key, .leased expires⟩ (.derived expires outcome (collapseTaint outs)))
      | _ => none
  | .record i =>
      match q.workers[i]? with
      | some ⟨key, .derived _ outcome taint⟩ =>
          some { q with
            tables := recordOutcome q.tables key outcome taint q.nowNs
            workers := q.workers.eraseIdx i }
      | _ => none
  | .busy i =>
      match q.workers[i]? with
      | some ⟨key, .leased expires⟩ =>
          some (q.advance i ⟨key, .leased expires⟩ (.releasing expires))
      | some ⟨key, .derived expires outcome taint⟩ =>
          some (q.advance i ⟨key, .derived expires outcome taint⟩ (.releasing expires))
      | _ => none
  | .release i =>
      match q.workers[i]? with
      | some ⟨key, .releasing expires⟩ =>
          some { q with
            tables.rows := (deriveReleaseLease q.tables.rows key expires).1
            workers := q.workers.eraseIdx i }
      | _ => none
  | .drop i => some { q with workers := q.workers.eraseIdx i }
  | .crash => some { q with workers := [] }

/-- An empty file. -/
def Init (q : DeriveQueue Id) : Prop :=
  ∃ nowNs leaseNs, q = ⟨nowNs, leaseNs, ⟨[], [], []⟩, []⟩

end DeriveQueue

end

end Naatre
