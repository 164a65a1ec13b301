import Naatre.Server.TicketRoutes

/-!
The land route (`routes/land.rs`) over the registry of lands in flight
(`land_join.rs`): any number of requests, each one a task that is scheduled
step by step between everything else the server does.

The first request of a key leads: it registers its land, resolves its
repository, writes behind the write gate, publishes what came out and then drops
its guard. A request that finds a land of its key registered joins it: it waits
for the outcome, and reads the settled row where the leader's refusal names its
own head. A task can be cancelled between two steps; a closure that is already
on the blocking pool goes on without it.
-/

namespace Naatre

/-- The registry key: land keys are scoped to (repo, principal). -/
structure LandJoinKey where
  repo : String
  principal : String
  key : String
  deriving DecidableEq

section

variable (Id : Type)

/-- The body of a land past its credential. -/
structure LandRequest where
  repo : String
  principal : String
  role : Role
  scope : Option String
  head : Id
  key : String
  baseHint : Option Id
  recordConflict : Bool

/-- The answer to a land, and what its leader shares with the joiners. -/
abbrev LandOutcome := Except (ApiError Id) (LandDone Id)

/-- Where a request stands. -/
inductive LandPhase
  /-- leads: registered, its repository not resolved yet -/
  | resolving
  /-- leads: its closure is on the blocking pool -/
  | writing (r : RepoId)
  /-- leads: its closure has returned -/
  | written (answer : LandOutcome Id)
  /-- leads: the outcome is out, the entry still in -/
  | published (answer : LandOutcome Id)
  /-- led and was cancelled: the entry is out, the joiners are not told yet -/
  | dropped
  /-- waits for the outcome of the land that task `leader` leads -/
  | joining (leader : ℕ)
  /-- reads the settled row -/
  | replaying
  | answered (answer : LandOutcome Id)
  | gone

/-- One request. A land in flight is known by the task that leads it: its head
is that request's head, its watch channel is `outcome`. -/
structure LandTask where
  request : LandRequest Id
  phase : LandPhase Id
  outcome : Option (LandOutcome Id)

/-- What a task, or the runtime on its behalf, does next. -/
inductive LandMove
  | resolve
  | write
  /-- the write slot is taken -/
  | busy
  | publish
  | deregister
  | cancel
  | failJoiners
  | join
  /-- the join deadline passes -/
  | timeout
  | replay
  deriving DecidableEq

end

section

variable (Id : Type) [Platform Id]

structure LandDesk where
  server : Server Id
  accounts : Accounts
  /-- `LandJoins` -/
  joins : List (LandJoinKey × ℕ)
  tasks : List (LandTask Id)
  /-- the closures whose task was cancelled -/
  detached : List (RepoId × LandRequest Id)

inductive LandDeskEvent
  /-- everything but a land and a crash -/
  | server (e : Event Id)
  | account (call : AccountCall)
  | request (request : LandRequest Id)
  | task (i : ℕ) (move : LandMove)
  | detachedWrite (j : ℕ)
  | detachedBusy (j : ℕ)
  | crash

end

section

variable {Id : Type} [Platform Id]

def LandRequest.slotKey (q : LandRequest Id) : LandJoinKey := ⟨q.repo, q.principal, q.key⟩

def LandRequest.command (q : LandRequest Id) (nowNs : ℕ) : LandCommand Id where
  repoName := q.repo
  principal := q.principal
  scope := q.scope
  head := q.head
  key := q.key
  baseHint := q.baseHint
  recordConflict := q.recordConflict
  nowNs := nowNs

/-- The route's own checks of the key. -/
def LandRequest.refused (q : LandRequest Id) : Option (ApiError Id) :=
  if q.key = "" then some (.new .validation "land key must not be empty")
  else if 256 < q.key.utf8ByteSize then
    some (.new .validation "land key must be at most 256 bytes")
  else none

def writerBusy : ApiError Id := { ApiError.new .writerBusy "writer busy" with retryable := true }

def stillInFlight : ApiError Id :=
  { ApiError.new .writerBusy "land for this key is still in flight" with retryable := true }

/-- `settled_replay`, from the row it reads. -/
def replayRow (head : Id) : Option (LandRow Id) → LandOutcome Id
  | none => .error .internal
  | some row =>
      if row.state = .pending ∨ row.head ≠ some head then .error .internal
      else match row.result with
        | none => .error .internal
        | some result => .ok (replay result)

def settledReplay (s : Server Id) (q : LandRequest Id) : LandOutcome Id :=
  match s.repoIdOr404 q.repo with
  | .error e => .error e
  | .ok r => replayRow q.head (landGet (s.dbs r) q.principal q.key)

/-- A task the process takes with it: its answer was never sent. -/
def LandTask.crashed (t : LandTask Id) : LandTask Id :=
  match t.phase with
  | .answered _ => t
  | _ => { t with phase := .gone }

namespace LandDesk

/-- The task that leads a key, if one is registered. -/
def leaderOf (d : LandDesk Id) (key : LandJoinKey) : Option ℕ :=
  (d.joins.find? fun entry => decide (entry.1 = key)).map fun entry => entry.2

def setTask (d : LandDesk Id) (i : ℕ) (t : LandTask Id) : LandDesk Id :=
  { d with tasks := d.tasks.set i t }

/-- The map half of the guard's `drop`: only the entry of its own land goes. -/
def deregister (d : LandDesk Id) (i : ℕ) : LandDesk Id :=
  { d with joins := d.joins.filter fun entry => decide (entry.2 ≠ i) }

/-- `LandJoins::begin` behind the checks of the key: one step under the registry's
mutex. -/
def begin (d : LandDesk Id) (q : LandRequest Id) : LandDesk Id :=
  match q.refused with
  | some e => { d with tasks := d.tasks ++ [⟨q, .answered (.error e), none⟩] }
  | none =>
      match d.leaderOf q.slotKey with
      | some leader => { d with tasks := d.tasks ++ [⟨q, .joining leader, none⟩] }
      | none =>
          { d with
            joins := d.joins ++ [(q.slotKey, d.tasks.length)]
            tasks := d.tasks ++ [⟨q, .resolving, none⟩] }

/-- The closure: the write gate, then the land. -/
def write (d : LandDesk Id) (r : RepoId) (q : LandRequest Id) : LandOutcome Id × LandDesk Id :=
  match d.accounts.repoWriteGateSync r q.principal q.role q.repo with
  | .error e => (.error e, d)
  | .ok () =>
      ((execute (d.server.cx r) (q.command d.server.nowNs)).1,
        { d with server := d.server.landStep r (q.command d.server.nowNs) })

/-- `join_in_flight`, from the outcome it waited for. -/
def joined (leader q : LandRequest Id) : LandOutcome Id → LandPhase Id
  | .ok done =>
      if leader.head = q.head then .answered (.ok done)
      else .answered (.error (Origin.settledWithOtherHead q.repo q.key leader.head))
  | .error e =>
      if e.code = .idempotencyKeySettled ∧ Origin.settledHeadOf e = some q.head then .replaying
      else .answered (.error e)

/-- The outcome of the land that task `leader` leads, with its request. -/
def outcomeOf (d : LandDesk Id) (leader : ℕ) : Option (LandRequest Id × LandOutcome Id) :=
  (d.tasks[leader]?).bind fun t => t.outcome.map fun outcome => (t.request, outcome)

/-- One step of task `i`; `none` where its phase has no such step. -/
def move (d : LandDesk Id) (i : ℕ) (t : LandTask Id) (m : LandMove) : Option (LandDesk Id) :=
  match m, t.phase with
  | .resolve, .resolving =>
      match d.server.repoIdOr404 t.request.repo with
      | .error e => some (d.setTask i { t with phase := .written (.error e) })
      | .ok r => some (d.setTask i { t with phase := .writing r })
  | .write, .writing r =>
      let (answer, d) := d.write r t.request
      some (d.setTask i { t with phase := .written answer })
  | .busy, .writing _ => some (d.setTask i { t with phase := .written (.error writerBusy) })
  | .publish, .written answer =>
      some (d.setTask i { t with phase := .published answer, outcome := some answer })
  | .deregister, .published answer =>
      some ((d.deregister i).setTask i { t with phase := .answered answer })
  | .cancel, .resolving => some ((d.deregister i).setTask i { t with phase := .dropped })
  | .cancel, .writing r =>
      let d := { d with detached := d.detached ++ [(r, t.request)] }
      some ((d.deregister i).setTask i { t with phase := .dropped })
  | .cancel, .written _ => some ((d.deregister i).setTask i { t with phase := .dropped })
  | .cancel, .joining _ => some (d.setTask i { t with phase := .gone })
  | .cancel, .replaying => some (d.setTask i { t with phase := .gone })
  -- the other half of the guard's `drop`
  | .failJoiners, .dropped =>
      some (d.setTask i { t with phase := .gone, outcome := some (.error .internal) })
  | .join, .joining leader =>
      (d.outcomeOf leader).map fun (q, outcome) =>
        d.setTask i { t with phase := joined q t.request outcome }
  | .timeout, .joining leader =>
      if (d.outcomeOf leader).isNone then
        some (d.setTask i { t with phase := .answered (.error stillInFlight) })
      else none
  | .replay, .replaying =>
      some (d.setTask i { t with phase := .answered (settledReplay d.server t.request) })
  | _, _ => none

/-- Lands come through the route, and a crash takes the registry along. -/
def offDesk : Event Id → Bool
  | .land _ _ | .crash => false
  | _ => true

def step (d : LandDesk Id) : LandDeskEvent Id → Option (LandDesk Id)
  | .server e =>
      if offDesk e then (d.server.step e).map fun s => { d with server := s } else none
  | .account call =>
      some { d with accounts := (d.accounts.handle call).toOption.getD d.accounts }
  | .request q => some (d.begin q)
  | .task i m => (d.tasks[i]?).bind fun t => d.move i t m
  | .detachedWrite j =>
      (d.detached[j]?).map fun (r, q) =>
        { (d.write r q).2 with detached := d.detached.eraseIdx j }
  | .detachedBusy j =>
      (d.detached[j]?).map fun _ => { d with detached := d.detached.eraseIdx j }
  | .crash =>
      (d.server.step .crash).map fun s =>
        { d with
          server := s
          joins := []
          tasks := d.tasks.map LandTask.crashed
          detached := [] }

/-- A fresh store and an empty desk. -/
def Start (d : LandDesk Id) : Prop :=
  Server.Init d.server ∧ d.joins = [] ∧ d.tasks = [] ∧ d.detached = []

end LandDesk

end

end Naatre
