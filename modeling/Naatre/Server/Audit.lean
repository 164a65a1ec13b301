import Naatre.Lib.Outbox
import Naatre.Lib.Paging
import Naatre.Server.Access
import Naatre.Server.Log
import Naatre.Server.Serve

/-!
The audit log: the rows the operations append (`db.rs`, `land.rs`,
`routes/refs.rs`, `routes/redactions.rs`), on the connection each of them uses,
and the listing an admin reads (`routes/audit.rs`).

Beside the rows stands what happened, read off the tables before and after.
-/

namespace Naatre

section

variable (Id : Type)

/-- An action and the fields of its `details_json`; a land's `via` is always
`land`. -/
inductive AuditDetails
  | changesetCreate (repo : String) (changeset : Id) (generation : ℕ) (via : Option String)
  | land (repo key : String) (head landed : Id) (rebased : ℕ) (conflicts : List Path)
  | refMove (repo ref : String) (target : Id) (via : String)
  | redact (repo : String) (id : Id) (kind : RedactionKind) (reason : String) (rearmed : Bool)
  | accessGrant (repo principal : String) (read write : Bool)
  | accessRevoke (repo principal : String)
  | tokenCreate (tokenId : ℕ) (principal role : String)
  | tokenRevoke (tokenId : ℕ)
  | principalDelete (principal : String) (tokensDeleted : ℕ)
  /-- an action of none of these operations: `init`, `gc`, `auth_failure` and so on -/
  | other (action details : String)
  deriving DecidableEq

/-- What one insert into `audit_log` writes. -/
structure AuditEntry where
  tsNs : ℕ
  principal : String
  details : AuditDetails Id
  deriving DecidableEq

/-- A row with the id its insert drew. -/
structure AuditRow where
  id : ℕ
  entry : AuditEntry Id
  deriving DecidableEq

/-- What happened; names that a deletion takes out of the log are left out. -/
inductive Effect
  | inserted (repo : String) (changeset : Id) (generation : ℕ)
  | landed (repo key : String) (head landed : Id) (rebased : ℕ) (conflicts : List Path)
  | refWritten (repo ref : String) (target : Id)
  | redacted (repo : String) (id : Id) (kind : RedactionKind) (reason : String) (rearmed : Bool)
  | granted (repo principal : String) (read write : Bool)
  | revoked (repo principal : String)
  | minted (tokenId : ℕ) (role : String)
  | deleted (pseudonym : String) (tokens : ℕ)
  deriving DecidableEq

/-- The rows one request appends: those of its changesets go to the connection
it works on, its own to the catalog. -/
structure Appends where
  work : List (AuditEntry Id)
  own : Option (AuditEntry Id)

end

section

variable {Id : Type}

/-- What a row tells, where it is of one of the operations. -/
def AuditDetails.effect : AuditDetails Id → Option (Effect Id)
  | .changesetCreate repo changeset generation _ => some (.inserted repo changeset generation)
  | .land repo key head landed rebased conflicts =>
      some (.landed repo key head landed rebased conflicts)
  | .refMove repo ref target _ => some (.refWritten repo ref target)
  | .redact repo id kind reason rearmed => some (.redacted repo id kind reason rearmed)
  | .accessGrant repo principal read write => some (.granted repo principal read write)
  | .accessRevoke repo principal => some (.revoked repo principal)
  | .tokenCreate tokenId _ role => some (.minted tokenId role)
  | .principalDelete pseudonym tokens => some (.deleted pseudonym tokens)
  | .tokenRevoke _ | .other _ _ => none

def AuditEntry.effect (row : AuditEntry Id) : Option (Effect Id) := row.details.effect

def AuditRow.effect (row : AuditRow Id) : Option (Effect Id) := row.entry.effect

def Effect.isInserted : Effect Id → Bool
  | .inserted _ _ _ => true
  | _ => false

/-! ### The listing -/

/-- `audit_log`: the ids are drawn one after the other, and no row is deleted. -/
def auditRows (log : List (AuditEntry Id)) : List (AuditRow Id) :=
  log.zipIdx.map fun entry => ⟨entry.2 + 1, entry.1⟩

/-- `audit_list`, newest first; no bound is `i64::MAX`. -/
def auditList (log : List (AuditEntry Id)) (before : Option ℕ) (limit : ℕ) : List (AuditRow Id) :=
  ((auditRows log).filter (fun row => before.all (fun id => decide (row.id < id)))).reverse.take
    limit

/-- `GET /v1/audit`; `has_more` says whether there is a `next_cursor`. -/
def auditRoute (log : List (AuditEntry Id)) (auth : AuthedPrincipal) (limit : Option ℤ)
    (before : Option ℕ) : Except (ApiError Empty) (Lib.Page (AuditRow Id) ℕ) := do
  Accounts.requireRole auth .admin
  let limit ← parseLimit limit
  let rows := auditList log before (limit + 1)
  let hasMore := decide (limit < rows.length)
  let rows := rows.take limit
  pure { entries := rows, next := if hasMore then rows.getLast?.map (·.id) else none }

/-! ### Accounts -/

/-- The `principal` field of a `token_create` row. -/
def AuditDetails.pseudonymise (pseudo : String) : AuditDetails Id → AuditDetails Id
  | .tokenCreate tokenId _ role => .tokenCreate tokenId pseudo role
  | details => details

/-- What `principal_delete` rewrites of a standing row. -/
def AuditEntry.scrub (name pseudo : String) (row : AuditEntry Id) : AuditEntry Id :=
  if row.principal = name then
    { row with principal := pseudo, details := row.details.pseudonymise pseudo }
  else row

namespace Accounts

/-- The row an accepted request appends in its transaction; `pseudo` is the
pseudonym a deletion draws. -/
def auditEntry (s : Accounts) (auth : AuthedPrincipal) (call : AccountCall) (pseudo : String) :
    Option (AuditEntry Id) :=
  match call.request with
  | .createToken body _ =>
      some ⟨call.nowNs, body.principal, .tokenCreate s.nextTokenId body.principal body.role⟩
  | .revokeToken id =>
      (s.tokens.find? (fun row => decide (row.id = id) && !row.revoked)).map fun row =>
        ⟨call.nowNs, row.principal, .tokenRevoke id⟩
  | .deletePrincipal name =>
      (s.principalDelete name).map fun deleted =>
        ⟨call.nowNs, auth.principal, .principalDelete pseudo deleted.1⟩
  | .setAccess repo body =>
      some ⟨call.nowNs, auth.principal,
        .accessGrant repo body.principal (body.read || body.write) body.write⟩
  | .revokeAccess repo principal =>
      (s.repoIdByName repo).bind fun r =>
        if (s.accessRevoke r principal).1 then
          some ⟨call.nowNs, auth.principal, .accessRevoke repo principal⟩
        else none

/-- The route of a request with the row it appends. -/
def handleAudited (s : Accounts) (call : AccountCall) (pseudo : String) :
    Except (ApiError Empty) (Accounts × Option (AuditEntry Id)) := do
  let auth ← s.authenticate call.nowNs call.bearer
  let s' ← s.handle call
  pure (s', s.auditEntry auth call pseudo)

/-- The rewriting of the standing rows a request does. -/
def scrubbed (pseudo : String) : AccountRequest → AuditEntry Id → AuditEntry Id
  | .deletePrincipal name, row => row.scrub name pseudo
  | _, row => row

/-- What an accepted request did to the tables. -/
def effects (s s' : Accounts) (pseudo : String) : AccountRequest → List (Effect Id)
  | .createToken body _ =>
      (s'.tokens.filter (fun row => decide (row ∉ s.tokens))).map fun row =>
        .minted row.id body.role
  | .revokeToken _ => []
  | .deletePrincipal name =>
      if s.principalExists name ∧ ¬s'.principalExists name then
        [.deleted pseudo (s.tokens.length - s'.tokens.length)]
      else []
  | .setAccess repo body => [.granted repo body.principal (body.read || body.write) body.write]
  | .revokeAccess repo principal =>
      match s.repoIdByName repo with
      | some r =>
          if (s.accessRow r principal).isSome ∧ (s'.accessRow r principal).isNone then
            [.revoked repo principal]
          else []
      | none => []

end Accounts

end

section

variable {Id : Type} [Platform Id]

/-! ### The repositories' requests -/

/-- The rows of a create's write. Its time is that of the changeset. -/
def createAppends (cx : RepoCx Id) (p : PreparedCreate Id) : Appends Id :=
  match persist cx p with
  | .error _ => ⟨[], none⟩
  | .ok (done, _) =>
      ⟨[⟨p.canonical.cs.timestampNs, p.principal,
        .changesetCreate cx.name done.id done.generation none⟩], none⟩

/-- The rows of a land: one with every changeset it inserts, and one where it
settles its key. A replay settles nothing, and an error rolls all of it back. -/
def landAppends (cx : RepoCx Id) (cmd : LandCommand Id) : Appends Id :=
  match execute cx cmd with
  | (.error _, _) => ⟨[], none⟩
  | (.ok done, cx') =>
      { work := (cx'.db.changesets.drop cx.db.changesets.length).map fun row =>
          ⟨cmd.nowNs, cmd.principal, .changesetCreate cx.name row.id row.generation none⟩
        own :=
          if (landGet cx.db cmd.principal cmd.key).isNone then
            some ⟨cmd.nowNs, cmd.principal,
              .land cx.name cmd.key cmd.head done.landed done.rebased done.conflicts⟩
          else none }

/-- The row of a ref write that went through. -/
def casRefAppends (cx : RepoCx Id) (nowNs : ℕ) (req : RefRequest Id) : Appends Id :=
  match casRef cx.name cx.db req with
  | .error _ => ⟨[], none⟩
  | .ok _ => ⟨[], some ⟨nowNs, req.principal, .refMove cx.name req.name req.target "api"⟩⟩

/-- The row of a mark that wrote its tombstone. -/
def markAppends (cx : RepoCx Id) (nowNs : ℕ) (principal : String) (id : Id)
    (kind : RedactionKind) (reason : String) : Appends Id :=
  match (redactionMark cx.db id kind nowNs).1 with
  | .inserted => ⟨[], some ⟨nowNs, principal, .redact cx.name id kind reason false⟩⟩
  | .rearmed => ⟨[], some ⟨nowNs, principal, .redact cx.name id kind reason true⟩⟩
  | .existing | .kindMismatch => ⟨[], none⟩

/-- The repository an event works on and the rows it appends. -/
def Event.appends (s : Server Id) : Event Id → RepoId × Appends Id
  | .createWrite i =>
      match s.creates[i]? with
      | some (r, p) => (r, createAppends (s.cx r) p)
      | none => (0, ⟨[], none⟩)
  | .land r cmd => (r, landAppends (s.cx r) { cmd with nowNs := s.nowNs })
  | .casRef r req => (r, casRefAppends (s.cx r) s.nowNs req)
  | _ => (0, ⟨[], none⟩)

/-! ### What happened -/

/-- The changesets of a repository that were not there. -/
def insertedRows (db db' : RepoTables Id) : List (ChangesetRow Id) :=
  db'.changesets.filter (fun row => decide (row.id ∉ db.changesets.map (·.id)))

/-- The lands of a repository that were not there. -/
def settledRows (db db' : RepoTables Id) : List (LandRow Id) :=
  db'.lands.filter (fun row => decide (row ∉ db.lands))

/-- A land's row, once it is settled. -/
def LandRow.effect (repo : String) (row : LandRow Id) : Option (Effect Id) :=
  match row.state, row.head, row.result with
  | .done, some head, some result | .conflicted, some head, some result =>
      some (.landed repo row.key head result.landed result.rebased result.conflicts)
  | _, _, _ => none

/-- The changesets and the lands that came to one repository. -/
def repoEffects (repo : String) (db db' : RepoTables Id) : List (Effect Id) :=
  (insertedRows db db').map (fun row => .inserted repo row.id row.generation) ++
    (settledRows db db').filterMap (LandRow.effect repo)

/-- What came to any repository of the registry. -/
def Server.effects (s s' : Server Id) : List (Effect Id) :=
  s.repos.flatMap fun repo => repoEffects repo.2 (s.dbs repo.1) (s'.dbs repo.1)

/-- A ref write that was answered with success. -/
def Event.written (s : Server Id) : Event Id → List (Effect Id)
  | .casRef r req =>
      match Naatre.casRef (s.cx r).name (s.dbs r) req with
      | .error _ => []
      | .ok (done, _) => [.refWritten (s.cx r).name done.name done.target]
  | _ => []

/-- A tombstone that was inserted or armed again. -/
def markEffects (repo : String) (db : RepoTables Id) (nowNs : ℕ) (id : Id) (kind : RedactionKind)
    (reason : String) : List (Effect Id) :=
  match (redactionMark db id kind nowNs).1 with
  | .inserted => [.redacted repo id kind reason false]
  | .rearmed => [.redacted repo id kind reason true]
  | .existing | .kindMismatch => []

end

/-! ### The system -/

section

variable (Id : Type) [Platform Id]

/-- The stores with their logs, and what happened so far. -/
structure Books where
  server : Server Id
  accounts : Accounts
  /-- `audit_log` of the catalog, and rows whose work has committed -/
  catalog : Lib.Outbox (AuditEntry Id)
  /-- `audit_log` of each repository's file; the listing reads none of them -/
  repoLogs : RepoId → List (AuditEntry Id)
  history : List (Effect Id)

inductive BooksEvent
  /-- a request or a background step -/
  | request (e : Event Id)
  | mark (r : RepoId) (principal : String) (id : Id) (kind : RedactionKind) (reason : String)
  | account (call : AccountCall) (pseudo : String)
  /-- the `i`-th row on its way is appended -/
  | deliver (i : ℕ)
  /-- a row of another action -/
  | other (tsNs : ℕ) (principal action details : String)
  | crash

end

section

variable {Id : Type} [Platform Id]

namespace Books

/-- The stores after a repository's request. In the one database its rows are
in its transaction; in a repository's own file only those of its changesets
are, and the other one follows. -/
def commit (b : Books Id) (s' : Server Id) (r : RepoId) (rows : Appends Id)
    (effects : List (Effect Id)) : Books Id :=
  match b.server.layout with
  | .singleDb =>
      { b with
        server := s'
        catalog := b.catalog.post (rows.work ++ rows.own.toList) []
        history := b.history ++ effects }
  | .dbPerRepo =>
      { b with
        server := s'
        catalog := b.catalog.post [] rows.own.toList
        repoLogs := fun r' => if r' = r then b.repoLogs r ++ rows.work else b.repoLogs r'
        history := b.history ++ effects }

/-- The events that are no request of the server, or have one of their own here. -/
def apart : Event Id → Bool
  | .importGit _ _ _ _ _ | .mark _ _ _ | .crash => true
  | _ => false

def requestStep (b : Books Id) (e : Event Id) : Option (Books Id) :=
  if apart e then none
  else
    (b.server.step e).map fun s' =>
      b.commit s' (e.appends b.server).1 (e.appends b.server).2
        (b.server.effects s' ++ e.written b.server)

def markStep (b : Books Id) (r : RepoId) (principal : String) (id : Id) (kind : RedactionKind)
    (reason : String) : Option (Books Id) :=
  (b.server.step (.mark r id kind)).map fun s' =>
    b.commit s' r (markAppends (b.server.cx r) b.server.nowNs principal id kind reason)
      (b.server.effects s' ++
        markEffects (b.server.cx r).name (b.server.dbs r) b.server.nowNs id kind reason)

/-- The catalog's own transactions, in both layouts. -/
def accountStep (b : Books Id) (call : AccountCall) (pseudo : String) : Books Id :=
  match b.accounts.handleAudited call pseudo with
  | .error _ => b
  | .ok (accounts, row) =>
      { b with
        accounts := accounts
        catalog := (b.catalog.rewrite (Accounts.scrubbed pseudo call.request)).post row.toList []
        history := b.history ++ b.accounts.effects accounts pseudo call.request }

def step (b : Books Id) : BooksEvent Id → Option (Books Id)
  | .request e => b.requestStep e
  | .mark r principal id kind reason => b.markStep r principal id kind reason
  | .account call pseudo => some (b.accountStep call pseudo)
  | .deliver i => (b.catalog.deliver i).map fun catalog => { b with catalog := catalog }
  | .other tsNs principal action details =>
      some { b with catalog := b.catalog.post [⟨tsNs, principal, .other action details⟩] [] }
  | .crash =>
      (b.server.step .crash).map fun s' => { b with server := s', catalog := b.catalog.lose }

/-- A freshly initialised store: its log holds rows of other actions only. -/
def Start (b : Books Id) : Prop :=
  b.server.Init ∧ b.catalog.pending = [] ∧ b.catalog.filed.filterMap AuditEntry.effect = [] ∧
    b.history = []

/-- With a database for each repository the process stops between requests
only. -/
def BetweenRequests (b : Books Id) : BooksEvent Id → Prop
  | .crash => b.server.layout = .dbPerRepo → b.catalog.pending = []
  | _ => True

abbrev Reach : Books Id → Prop := Lib.Reach Start step BetweenRequests

/-- The pages of `GET /v1/audit` for one caller. -/
def auditPages (b : Books Id) (auth : AuthedPrincipal) (limit : Option ℤ) (cursor : Option ℕ) :
    Option (Lib.Page (AuditRow Id) ℕ) :=
  (auditRoute b.catalog.filed auth limit cursor).toOption

/-- Whatever the limit, the pages an admin follows are one list, and it tells
what happened, each thing once. -/
def Told (b : Books Id) : Prop :=
  ∀ auth : AuthedPrincipal, auth.role = .admin → ∀ limit : Option ℤ,
    (parseLimit limit : Except (ApiError Empty) ℕ).isOk →
      ∃ rows, (∀ rows', Lib.Follow (b.auditPages auth limit) none rows' ↔ rows' = rows) ∧
        (rows.filterMap AuditRow.effect).Perm b.history

end Books

end

end Naatre
