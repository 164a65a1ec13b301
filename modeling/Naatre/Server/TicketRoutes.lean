import Naatre.Server.HostVerbs

/-!
What the API answers a request that presents a cache ticket: the routes of
`lib.rs` with their gates, the routes that take a ticket, and the registry of
lands in flight (`land_join.rs`). The two routes outside the API (`/healthz`,
`/version`) read no credential and are left out.
-/

namespace Naatre

section

variable (Id : Type)

/-! ### Routes -/

/-- The routes behind `authenticate`, with the parameters their gates read. -/
inductive Route
  | reposList (limit : Option ℤ) (after : ℕ)
  | reposCreate
  | stats (repo : String)
  | accessList (repo : String)
  | accessSet (repo : String)
  | accessRevoke (repo : String)
  | mint (repo : String)
  | membership (repo : String) (tree : Id)
  | epoch (repo : String)
  | createChangeset (repo : String)
  | getChangeset (repo : String)
  | getRoot (repo : String)
  | getTree (repo : String)
  | log (repo : String)
  | blame (repo : String)
  | diff (repo : String)
  | mergeBase (repo : String)
  | file (repo : String)
  | createSnapshot (repo : String)
  | getMetadata (repo : String)
  | getBlob (repo : String)
  | putBlob (repo : String)
  | getSnapshotTree (repo : String)
  | land (repo key : String) (head : Id) (baseHint : Option Id) (recordConflict : Bool)
  | landStatus (repo : String)
  | getRef (repo : String)
  | casRef (repo : String)
  | present (repo : String)
  | createBatch (repo : String)
  | getBatch (repo : String)
  | getRaw (repo : String) (id : Id)
  | putRaw (repo : String)
  | tokensList
  | tokensCreate
  | tokensRevoke
  | deletePrincipal
  | redactionsList (repo : String)
  | redactionsCreate (repo : String)
  | whoami
  | audit
  | openapi

end

/-- A check a handler begins with. -/
inductive RouteGate
  | read (repo : String)
  | write (repo : String)
  | role (min : Role)
  deriving DecidableEq, Repr

/-- The gates of a handler, in the order it checks them. The routes that take a
ticket, the ones that ask for no role, and a land have none in front. -/
def Route.gates {Id : Type} : Route Id → List RouteGate
  | .reposList _ _ | .membership _ _ | .epoch _ | .land _ _ _ _ _ | .getRaw _ _ | .whoami
  | .openapi => []
  | .reposCreate | .tokensList | .tokensCreate | .tokensRevoke | .deletePrincipal
  | .audit => [.role .admin]
  | .mint repo => [.role .reader, .read repo]
  | .stats repo | .accessList repo | .accessSet repo | .accessRevoke repo | .redactionsList repo
  | .redactionsCreate repo => [.read repo, .role .admin]
  | .casRef repo => [.write repo, .role .admin]
  | .landStatus repo => [.read repo, .write repo]
  | .getChangeset repo | .getRoot repo | .getTree repo | .log repo | .blame repo | .diff repo
  | .mergeBase repo | .file repo | .getMetadata repo | .getBlob repo | .getSnapshotTree repo
  | .getRef repo | .present repo | .getBatch repo => [.read repo]
  | .createChangeset repo | .createSnapshot repo | .putBlob repo | .createBatch repo
  | .putRaw repo => [.write repo]

section

variable (Id : Type) [Platform Id]

/-! ### The origin -/

/-- A ticket as presented: the claims its signature covers, and the id of the key
that made the signature. -/
structure Presented where
  claims : Ticket Id
  keyId : String

/-- A land in flight, with what it will publish; `none` where the wait of a
joiner ends first. -/
structure LandJoin where
  repo : String
  principal : String
  key : String
  head : Id
  outcome : Option (Except (ApiError Id) (LandDone Id))

/-- What the routes of a ticket look at. -/
structure Origin where
  server : Server Id
  accounts : Accounts
  /-- the verify list, read for each request; `none` where it does not load -/
  verify : Option (List VerifyKey)
  /-- `land_joins` -/
  joins : List (LandJoin Id)
  /-- the write slot is taken -/
  busy : Bool

/-- A request with a ticket. -/
structure TicketCall where
  route : Route Id
  /-- what the extractors and the first checks refuse, of the request alone -/
  malformed : Option (ApiError Id)

/-- The body of a 200; `behind` is what a handler answers past its gates. -/
inductive TicketBody (α : Type)
  | repos (page : RepoListResponse)
  | whoami (auth : AuthedPrincipal)
  | openapi
  | membership (epoch : ℕ) (ids : List Id)
  | epoch (epoch : ℕ)
  | object (bytes : Bytes)
  | landed (done : LandDone Id)
  | behind (a : α)

end

section

variable {Id : Type} [Platform Id]

namespace RouteGate

def check (s : Accounts) (auth : AuthedPrincipal) : RouteGate → Except (ApiError Id) Unit
  | .read repo => s.repoReadGate auth repo
  | .write repo => s.repoWriteGate auth repo
  | .role min => Accounts.requireRole auth min

end RouteGate

namespace Origin

/-- `authenticate_ticket`: the signature by its key's id, then the claims. -/
def authenticateTicket (o : Origin Id) (p : Presented Id) : Except (ApiError Id) Unit :=
  match o.verify with
  | none => .error (.new .tokenInvalid "cache tickets are not configured on this origin")
  | some keys =>
      if keys.any fun key => decide (key.id = p.keyId) then o.server.authenticateTicket p.claims
      else .error (.new .tokenInvalid "invalid cache ticket")

/-- `membership` of the ticket routes. -/
def membership (o : Origin Id) (t : Ticket Id) (repo : String) (tree : Id) :
    Except (ApiError Id) (ℕ × List Id) :=
  if t.repo ≠ repo then .error (Accounts.invisible repo)
  else if tree ≠ t.rootTree then
    .error (.new .objectNotFound "the requested tree is not this ticket's root tree")
  else o.server.membership t

/-- `epoch`. -/
def epoch (o : Origin Id) (t : Ticket Id) (repo : String) : Except (ApiError Id) ℕ :=
  if t.repo ≠ repo then .error (Accounts.invisible repo) else o.server.epoch t

/-! ### Lands in flight -/

def settledWithOtherHead (repo key : String) (settled : Id) : ApiError Id :=
  (ApiError.new .idempotencyKeySettled "this land key is settled with a different head").withDetails
    (.settled settled ("/v1/repos/" ++ repo ++ "/land/" ++ key))

/-- `settled_head_of`. -/
def settledHeadOf (e : ApiError Id) : Option Id :=
  match e.details with
  | .settled head _ => some head
  | _ => none

/-- `settled_replay`. -/
def settledReplay (o : Origin Id) (repo principal key : String) (head : Id) :
    Except (ApiError Id) (LandDone Id) := do
  let r ← o.server.repoIdOr404 repo
  match landGet (o.server.dbs r) principal key with
  | none => .error .internal
  | some row =>
      if row.state = .pending ∨ row.head ≠ some head then .error .internal
      else match row.result with
        | none => .error .internal
        | some result => .ok (replay result)

/-- `join_in_flight`. -/
def joinInFlight (o : Origin Id) (repo principal key : String) (head : Id) (join : LandJoin Id) :
    Except (ApiError Id) (LandDone Id) :=
  match join.outcome with
  | none =>
      .error { ApiError.new .writerBusy "land for this key is still in flight" with
        retryable := true }
  | some (.ok done) =>
      if join.head = head then .ok done else .error (settledWithOtherHead repo key join.head)
  | some (.error e) =>
      if e.code = .idempotencyKeySettled ∧ settledHeadOf e = some head then
        o.settledReplay repo principal key head
      else .error e

/-- `land`, of a principal that presents a ticket: a land in flight under its
key is joined; else the repository is resolved and the slot taken before the
write gate. -/
def land (o : Origin Id) (auth : AuthedPrincipal) (repo key : String) (head : Id)
    (baseHint : Option Id) (recordConflict : Bool) : Except (ApiError Id) (LandDone Id) :=
  match o.joins.find? fun join =>
      decide (join.repo = repo ∧ join.principal = auth.principal ∧ join.key = key) with
  | some join => o.joinInFlight repo auth.principal key head join
  | none => do
      let r ← o.server.repoIdOr404 repo
      if o.busy then
        .error { ApiError.new .writerBusy "writer busy" with retryable := true }
      else do
        o.accounts.repoWriteGateSync r auth.principal auth.role repo
        (execute (o.server.cx r)
          { repoName := repo
            principal := auth.principal
            scope := auth.scopePath
            head
            key
            baseHint
            recordConflict
            nowNs := o.server.nowNs }).1

/-! ### A request -/

variable {α : Type}

/-- The answer to a request with a ticket; `behind` is what the handlers do past
their gates. -/
def answer (behind : AuthedPrincipal → Route Id → Origin Id → Except (ApiError Id) α)
    (o : Origin Id) (p : Presented Id) (call : TicketCall Id) :
    Except (ApiError Id) (TicketBody Id α) := do
  o.authenticateTicket p
  let auth : AuthedPrincipal := ⟨p.claims.principal, .ticket, none⟩
  match call.malformed, call.route with
  | some e, _ => .error e
  | none, .reposList limit after => (o.accounts.listRepos auth limit after).map .repos
  | none, .whoami => .ok (.whoami auth)
  | none, .openapi => .ok .openapi
  | none, .membership repo tree =>
      (o.membership p.claims repo tree).map fun (epoch, ids) => .membership epoch ids
  | none, .epoch repo => (o.epoch p.claims repo).map .epoch
  | none, .getRaw repo id => (o.server.getRawTicket p.claims repo id).map .object
  | none, .land repo key head baseHint recordConflict =>
      (o.land auth repo key head baseHint recordConflict).map .landed
  | none, route => do
      route.gates.forM (RouteGate.check o.accounts auth)
      (behind auth route o).map .behind

end Origin

/-! ### Runs -/

/-- What happens at the origin: requests of principals, events of the server,
and what other requests and the host leave of the keys, of the registry and of
the write slot. -/
inductive OriginEvent (Id : Type) [Platform Id]
  | account (call : AccountCall)
  | server (e : Event Id)
  | meanwhile (verify : Option (List VerifyKey)) (joins : List (LandJoin Id)) (busy : Bool)

namespace Origin

/-- A refused request leaves everything; all share the server's clock. -/
def step (o : Origin Id) : OriginEvent Id → Option (Origin Id)
  | .account call =>
      match o.accounts.handle { call with nowNs := o.server.nowNs } with
      | .ok accounts => some { o with accounts := accounts }
      | .error _ => some o
  | .server e => (o.server.step e).map fun s => { o with server := s }
  | .meanwhile verify joins busy =>
      some { o with verify := verify, joins := joins, busy := busy }

/-- The states some run leads to. -/
def Later (o o' : Origin Id) : Prop := Lib.Later step (fun _ _ => True) o o'

end Origin

end

end Naatre
