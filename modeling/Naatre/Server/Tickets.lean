import Naatre.Server.Access
import Naatre.Server.Serve

/-!
The reads of blob bytes, and the tickets of the cache tier
(`routes/objects.rs`, `routes/history.rs`, `routes/tickets.rs`, `ticket.rs`).
-/

namespace Naatre

section

variable {Id : Type} [Platform Id]

/-! ### Objects -/

/-- `get_raw` past the gate of its credential. -/
def getRaw (cx : RepoCx Id) (id : Id) : Except (ApiError Id) Bytes :=
  if redactionActive cx.db id then
    .error (.new .objectRedacted
      ("object " ++ Platform.toHex id ++ " is redacted in " ++ quoted cx.name))
  else if id ∉ cx.db.repoBlobs then
    .error (.new .objectNotFound
      ("object " ++ Platform.toHex id ++ " is not a member of " ++ quoted cx.name))
  else match casGet cx.cas id with
    | none => .error (.new .objectNotFound ("object " ++ Platform.toHex id ++ " is missing"))
    | some bytes => .ok bytes

structure BatchGetResponse (Id : Type) where
  objects : List (Id × Bytes)
  missing : List Id
  redacted : List Id

def batchCap : ℕ := 256

/-- `get_batch` past its read gate. -/
def getBatch (cx : RepoCx Id) (ids : List Id) : Except (ApiError Id) (BatchGetResponse Id) :=
  if batchCap < ids.length then
    .error (.new .validation ("id batch is capped at " ++ toString batchCap ++ " ids"))
  else
    let redacted := redactionsActiveAmong cx.db ids
    let stored := fun id => if id ∈ cx.db.repoBlobs then casGet cx.cas id else none
    let kept := ids.filter (· ∉ redacted)
    .ok
      { objects := kept.filterMap (fun id => (stored id).map (id, ·))
        missing := kept.filter (fun id => (stored id).isNone)
        redacted := redacted }

theorem getRaw_ok {cx : RepoCx Id} {id : Id} {bytes : Bytes} (h : getRaw cx id = .ok bytes) :
    redactionActive cx.db id = false ∧ id ∈ cx.db.repoBlobs ∧ casGet cx.cas id = some bytes := by
  unfold getRaw at h
  split_ifs at h with hredacted hmember
  split at h
  · cases h
  next found hfound =>
    cases h
    exact ⟨by simpa using hredacted, by simpa using hmember, hfound⟩

/-! ### Tickets -/

/-- `TicketClaims`; the signature makes every ticket one a mint returned. -/
structure Ticket (Id : Type) where
  principal : String
  repo : String
  rootTree : Id
  iat : ℕ
  exp : ℕ
  deriving DecidableEq

def ticketMaxLifetimeSecs : ℕ := 900

def ticketDefaultLifetimeSecs : ℕ := 600

def nsPerSec : ℕ := 1000000000

def saturatingAdd (a b : ℕ) : ℕ := min (a + b) (2 ^ 64 - 1)

inductive TicketError
  | invalid
  | expired
  deriving DecidableEq, Repr

/-- `verify_ticket`, past the signature. -/
def verifyTicket (t : Ticket Id) (nowNs : ℕ) : Except TicketError Unit :=
  if ticketMaxLifetimeSecs * nsPerSec < t.exp - t.iat then .error .invalid
  else if saturatingAdd nowNs (30 * nsPerSec) < t.iat then .error .invalid
  else if saturatingAdd nowNs (ticketMaxLifetimeSecs * nsPerSec) < t.exp then .error .invalid
  else if t.exp ≤ nowNs then .error .expired
  else .ok ()

/-- `tombstone_epoch`. -/
def tombstoneEpoch (db : RepoTables Id) : ℕ := db.redactions.length

/-- `cache_membership`. -/
def cacheMembership (cx : RepoCx Id) (rootTree : Id) : List Id :=
  (closureBlobs cx.trees rootTree).filter fun id =>
    decide (id ∈ cx.db.repoBlobs) && !redactionActive cx.db id

namespace Server

/-- `repo_id_by_name`. -/
def repoIdByName (s : Server Id) (name : String) : Option RepoId :=
  (s.repos.find? (fun row => decide (row.2 = name))).map Prod.fst

/-- `repo_id_or_404`. -/
def repoIdOr404 (s : Server Id) (name : String) : Except (ApiError Id) RepoId :=
  match s.repoIdByName name with
  | some r => .ok r
  | none => .error (Accounts.invisible name)

/-- `mint`; `keyed` says whether the origin holds a signing key. -/
def mint (s : Server Id) (accounts : Accounts) (keyed : Bool) (auth : AuthedPrincipal)
    (repo : String) (rootTree : Id) (ttlSecs : Option ℕ) : Except (ApiError Id) (Ticket Id) := do
  Accounts.requireRole auth .reader
  accounts.repoReadGate auth repo
  let ttl := ttlSecs.getD ticketDefaultLifetimeSecs
  if ticketMaxLifetimeSecs < ttl then
    .error (.new .validation ("ttl_secs above the " ++ toString ticketMaxLifetimeSecs ++
      "s cap (tickets never outlive " ++ toString (ticketMaxLifetimeSecs / 60) ++ " minutes)"))
  else do
    let r ← s.repoIdOr404 repo
    if rootTree ∉ (s.dbs r).repoTrees then
      .error (.new .objectNotFound
        ("tree " ++ Platform.toHex rootTree ++ " is not a tree of " ++ quoted repo))
    else if !keyed then
      .error (.new .cacheDisabled
        "ticket minting is not configured on this origin (run `naatre cache-key init`)")
    else .ok ⟨auth.principal, repo, rootTree, s.nowNs, saturatingAdd s.nowNs (ttl * nsPerSec)⟩

/-- `authenticate_ticket`. -/
def authenticateTicket (s : Server Id) (t : Ticket Id) : Except (ApiError Id) Unit :=
  match verifyTicket t s.nowNs with
  | .ok () => .ok ()
  | .error .expired => .error (.new .tokenExpired "cache ticket is expired")
  | .error .invalid => .error (.new .tokenInvalid "invalid cache ticket")

/-- `get_raw` on a repository, with a ticket. -/
def getRawTicket (s : Server Id) (t : Ticket Id) (repo : String) (id : Id) :
    Except (ApiError Id) Bytes := do
  s.authenticateTicket t
  if t.repo ≠ repo then .error (Accounts.invisible repo)
  else do
    let r ← s.repoIdOr404 repo
    if t.rootTree ∉ (s.dbs r).repoTrees then
      .error (.new .objectNotFound "the ticket's root tree is not a tree of this repo")
    else getRaw (s.cx r) id

/-- `membership`, asked for the ticket's own tree. -/
def membership (s : Server Id) (t : Ticket Id) : Except (ApiError Id) (ℕ × List Id) := do
  s.authenticateTicket t
  let r ← s.repoIdOr404 t.repo
  .ok (tombstoneEpoch (s.dbs r), cacheMembership (s.cx r) t.rootTree)

/-- `epoch`. -/
def epoch (s : Server Id) (t : Ticket Id) : Except (ApiError Id) ℕ := do
  s.authenticateTicket t
  let r ← s.repoIdOr404 t.repo
  .ok (tombstoneEpoch (s.dbs r))

end Server

end

end Naatre
