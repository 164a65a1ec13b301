import Naatre.Lib.Loop
import Naatre.Lib.Run
import Naatre.Server.Db

/-!
Principals, tokens and the grants of private repositories: the statements of
`db.rs`, the bearer authentication of `auth.rs`, the repository gates and the
admin routes that change them. The audit rows these write are read by no gate
and are left out.
-/

namespace Naatre

/-! ### Roles -/

inductive Role
  | admin
  | writer
  | reader
  | ticket
  deriving DecidableEq, Repr

namespace Role

def parse : String → Option Role
  | "admin" => some .admin
  | "writer" => some .writer
  | "reader" => some .reader
  | _ => none

def rank : Role → ℕ
  | .admin => 3
  | .writer => 2
  | .reader => 1
  | .ticket => 0

def atLeast (role min : Role) : Bool := decide (min.rank ≤ role.rank)

end Role

structure AuthedPrincipal where
  principal : String
  role : Role
  scopePath : Option String
  deriving DecidableEq, Repr

/-! ### Tables -/

structure PrincipalRow where
  name : String
  role : Role
  createdNs : ℕ
  deriving DecidableEq, Repr

structure TokenRow where
  id : ℕ
  principal : String
  /-- the hash of the token; the token itself is not stored -/
  blake3 : Bytes
  expiresNs : Option ℕ
  scopePath : Option String
  revoked : Bool
  deriving DecidableEq, Repr

structure AccessRow where
  repoId : RepoId
  principal : String
  read : Bool
  write : Bool
  deriving DecidableEq, Repr

/-- The catalog's tables of principals, and the registry of repositories. -/
structure Accounts where
  repos : List (RepoId × String)
  principals : List PrincipalRow
  tokens : List TokenRow
  access : List AccessRow
  deriving DecidableEq, Repr

namespace Accounts

/-! ### Statements -/

/-- `repo_id_by_name`. -/
def repoIdByName (s : Accounts) (name : String) : Option RepoId :=
  (s.repos.find? (fun row => decide (row.2 = name))).map Prod.fst

def principalExists (s : Accounts) (name : String) : Bool :=
  s.principals.any (fun row => decide (row.name = name))

/-- `principal_upsert`: a principal that stands gets the role and keeps the rest. -/
def principalUpsert (s : Accounts) (name : String) (role : Role) (createdNs : ℕ) : Accounts :=
  { s with principals :=
      if s.principalExists name then
        s.principals.map (fun row => if row.name = name then { row with role := role } else row)
      else s.principals ++ [⟨name, role, createdNs⟩] }

/-- The row id an insert draws. -/
def nextTokenId (s : Accounts) : ℕ := (s.tokens.map (fun row => row.id)).foldl max 0 + 1

/-- `token_insert`: `none` where the hash stands already. -/
def tokenInsert (s : Accounts) (principal : String) (blake3 : Bytes) (expiresNs : Option ℕ)
    (scopePath : Option String) : Option Accounts :=
  if s.tokens.any (fun row => decide (row.blake3 = blake3)) then none
  else some { s with tokens :=
    s.tokens ++ [⟨s.nextTokenId, principal, blake3, expiresNs, scopePath, false⟩] }

/-- `token_create`, one transaction. -/
def tokenCreate (s : Accounts) (principal : String) (role : Role) (blake3 : Bytes)
    (expiresNs : Option ℕ) (scopePath : Option String) (nowNs : ℕ) : Option Accounts :=
  (s.principalUpsert principal role nowNs).tokenInsert principal blake3 expiresNs scopePath

/-- `token_revoke`: `none` where no such token stands. -/
def tokenRevoke (s : Accounts) (id : ℕ) : Option Accounts :=
  if s.tokens.any (fun row => decide (row.id = id)) then
    some { s with tokens :=
      s.tokens.map (fun row => if row.id = id then { row with revoked := true } else row) }
  else none

/-- `auth_lookup`: the token's row joined with its principal's role. -/
def authLookup (s : Accounts) (blake3 : Bytes) : Option (TokenRow × Role) :=
  (s.tokens.find? (fun row => decide (row.blake3 = blake3))).bind fun token =>
    (s.principals.find? (fun row => decide (row.name = token.principal))).map fun row =>
      (token, row.role)

/-- `principal_delete`: the tokens and the principal go, with the number of
tokens. The grants are not among what it deletes. -/
def principalDelete (s : Accounts) (name : String) : Option (ℕ × Accounts) :=
  if s.principalExists name then
    some ((s.tokens.filter (fun row => decide (row.principal = name))).length,
      { s with
        tokens := s.tokens.filter (fun row => decide (row.principal ≠ name))
        principals := s.principals.filter (fun row => decide (row.name ≠ name)) })
  else none

/-- The primary key of a grant. -/
def keyed (repoId : RepoId) (principal : String) (row : AccessRow) : Bool :=
  decide (row.repoId = repoId) && decide (row.principal = principal)

/-- `access_is_private`. -/
def accessIsPrivate (s : Accounts) (repoId : RepoId) : Bool :=
  s.access.any (fun row => decide (row.repoId = repoId))

/-- `access_row`. -/
def accessRow (s : Accounts) (repoId : RepoId) (principal : String) : Option AccessRow :=
  s.access.find? (keyed repoId principal)

/-- `access_set`, the upsert: write implies read in every row it stores. -/
def accessSet (s : Accounts) (repoId : RepoId) (principal : String) (read write : Bool) :
    Accounts :=
  { s with access :=
      if (s.accessRow repoId principal).isSome then
        s.access.map (fun row =>
          if keyed repoId principal row then { row with read := read || write, write := write }
          else row)
      else s.access ++ [⟨repoId, principal, read || write, write⟩] }

/-- `access_clear`. -/
def accessClear (s : Accounts) (repoId : RepoId) (principal : String) : Accounts :=
  { s with access := s.access.filter (fun row => !keyed repoId principal row) }

/-- `access_grant`: `none` where the principal does not exist. -/
def accessGrant (s : Accounts) (repoId : RepoId) (principal : String) (read write : Bool) :
    Option ((Bool × Bool) × Accounts) :=
  if s.principalExists principal then
    some ((read || write, write), s.accessSet repoId principal (read || write) write)
  else none

/-- `access_revoke`, with whether a grant stood. -/
def accessRevoke (s : Accounts) (repoId : RepoId) (principal : String) : Bool × Accounts :=
  ((s.accessRow repoId principal).isSome, s.accessClear repoId principal)

/-! ### Gates -/

section Gates

variable {Id : Type}

/-- `repo_id_or_404`; the text is the one an invisible repository answers. -/
def invisible (name : String) : ApiError Id :=
  .new .repoNotFound ("no repo named \"" ++ name ++ "\" on this server")

def repoIdOr404 (s : Accounts) (name : String) : Except (ApiError Id) RepoId :=
  match s.repoIdByName name with
  | some id => .ok id
  | none => .error (invisible name)

def ticketRefused : ApiError Id :=
  .new .forbidden "cache tickets are not credentials on this route"

def roleRefused : ApiError Id :=
  .new .forbidden "authenticated principal lacks the required role"

/-- `require_role`. -/
def requireRole (auth : AuthedPrincipal) (min : Role) : Except (ApiError Id) Unit :=
  if auth.role.atLeast min then .ok () else .error roleRefused

/-- `repo_read_gate`. -/
def repoReadGate (s : Accounts) (auth : AuthedPrincipal) (repo : String) :
    Except (ApiError Id) Unit :=
  if auth.role = .ticket then .error ticketRefused
  else do
    let repoId ← s.repoIdOr404 repo
    if auth.role = .admin then .ok ()
    else if !s.accessIsPrivate repoId then .ok ()
    else if (s.accessRow repoId auth.principal).any (fun row => row.read) then .ok ()
    else .error (invisible repo)

/-- `repo_write_gate_sync`. -/
def repoWriteGateSync (s : Accounts) (repoId : RepoId) (principal : String) (role : Role)
    (repoName : String) : Except (ApiError Id) Unit :=
  if role = .ticket then .error ticketRefused
  else if role = .admin then .ok ()
  else if !s.accessIsPrivate repoId then
    if role.atLeast .writer then .ok () else .error roleRefused
  else if (s.accessRow repoId principal).any (fun row => row.write) then .ok ()
  else .error (invisible repoName)

/-- `repo_write_gate`: the repository is looked up past the ticket floor. -/
def repoWriteGate (s : Accounts) (auth : AuthedPrincipal) (repo : String) :
    Except (ApiError Id) Unit :=
  if auth.role = .ticket then .error ticketRefused
  else do
    let repoId ← s.repoIdOr404 repo
    s.repoWriteGateSync repoId auth.principal auth.role repo

/-- `authenticate`, of a bearer token's hash. -/
def authenticate (s : Accounts) (nowNs : ℕ) (blake3 : Bytes) :
    Except (ApiError Id) AuthedPrincipal :=
  match s.authLookup blake3 with
  | none => .error (.new .tokenInvalid "unknown bearer token")
  | some (token, role) =>
      if token.revoked then .error (.new .tokenRevoked "bearer token is revoked")
      else if token.expiresNs.any (fun ns => decide (ns ≤ nowNs)) then
        .error (.new .tokenExpired "bearer token is expired")
      else .ok ⟨token.principal, role, token.scopePath⟩

/-! ### Routes -/

structure CreateTokenRequest where
  principal : String
  role : String
  ttlDays : Option ℤ
  scopePath : Option String

def i64Max : ℤ := 2 ^ 63 - 1

def nsPerDay : ℤ := 86400000000000

/-- Nanoseconds from now on, saturated. -/
def expiry (nowNs : ℕ) (days : ℤ) : ℕ :=
  let ttl := if days * nsPerDay ≤ i64Max then days * nsPerDay else i64Max
  (min i64Max (nowNs + ttl)).toNat

/-- `strip_suffix('/')`. -/
def stripSlash (p : String) : String :=
  if p.toList.getLast? = some '/' then String.ofList p.toList.dropLast else p

def checkScope : Option String → Except (ApiError Id) (Option String)
  | none => .ok none
  | some p =>
      if p = "" then
        .error (.new .validation "scope_path must be a non-empty path or null")
      else
        let p := stripSlash p
        if p = "" then
          .error (.new .validation "scope_path must be a non-empty path or null")
        else if p.toList.getLast? = some '/' then
          .error (.new .validation "scope_path must not end with '/'")
        else .ok (some p)

def checkTtl (nowNs : ℕ) : Option ℤ → Except (ApiError Id) (Option ℕ)
  | none => .ok none
  | some days =>
      if days < 0 then .error (.new .validation "ttl_days must not be negative")
      else .ok (some (expiry nowNs days))

/-- `POST /v1/tokens`; `blake3` is the hash of the token it mints. -/
def createToken (s : Accounts) (nowNs : ℕ) (auth : AuthedPrincipal) (body : CreateTokenRequest)
    (blake3 : Bytes) : Except (ApiError Id) Accounts := do
  requireRole auth .admin
  match Role.parse body.role with
  | none => .error (.new .validation "role must be admin, writer, or reader")
  | some role =>
      if body.principal = "" then .error (.new .validation "principal must not be empty")
      else do
        let scopePath ← checkScope body.scopePath
        let expiresNs ← checkTtl nowNs body.ttlDays
        match s.tokenCreate body.principal role blake3 expiresNs scopePath nowNs with
        | some s' => .ok s'
        | none => .error .internal

/-- `DELETE /v1/tokens/{id}`. -/
def revokeToken (s : Accounts) (auth : AuthedPrincipal) (id : ℕ) :
    Except (ApiError Id) Accounts := do
  requireRole auth .admin
  match s.tokenRevoke id with
  | some s' => .ok s'
  | none => .error (.new .notFound ("no token with id " ++ toString id))

/-- `DELETE /v1/principals/{name}`. -/
def deletePrincipal (s : Accounts) (auth : AuthedPrincipal) (name : String) :
    Except (ApiError Id) Accounts := do
  requireRole auth .admin
  if name = "" then .error (.new .validation "principal name must not be empty")
  else match s.principalDelete name with
    | some (_, s') => .ok s'
    | none => .error (.new .notFound ("no principal named \"" ++ name ++ "\""))

/-- The characters `trim` removes, those of Unicode's White_Space. -/
def isWhiteSpace (c : Char) : Bool :=
  decide (9 ≤ c.toNat ∧ c.toNat ≤ 13) || decide (0x2000 ≤ c.toNat ∧ c.toNat ≤ 0x200A) ||
    decide (c.toNat ∈ [0x20, 0x85, 0xA0, 0x1680, 0x2028, 0x2029, 0x202F, 0x205F, 0x3000])

structure SetAccessRequest where
  principal : String
  read : Bool
  write : Bool

/-- `PUT /v1/repos/{r}/access`. -/
def setAccess (s : Accounts) (auth : AuthedPrincipal) (repo : String) (body : SetAccessRequest) :
    Except (ApiError Id) Accounts := do
  s.repoReadGate auth repo
  requireRole auth .admin
  if body.principal.toList.all isWhiteSpace then
    .error (.new .validation "principal must not be empty")
  else if body.write && !body.read then
    .error (.new .validation "write implies read: a grant with write = true carries read = true")
  else do
    let repoId ← s.repoIdOr404 repo
    match s.accessGrant repoId body.principal body.read body.write with
    | some (_, s') => .ok s'
    | none =>
        .error (.new .validation ("no principal named \"" ++ body.principal ++ "\" on this server"))

/-- `DELETE /v1/repos/{r}/access/{principal}`. -/
def revokeAccess (s : Accounts) (auth : AuthedPrincipal) (repo principal : String) :
    Except (ApiError Id) Accounts := do
  s.repoReadGate auth repo
  requireRole auth .admin
  let repoId ← s.repoIdOr404 repo
  .ok (s.accessRevoke repoId principal).2

end Gates

end Accounts

/-! ### Runs -/

/-- A change an admin asks for. -/
inductive AccountRequest
  | createToken (body : Accounts.CreateTokenRequest) (blake3 : Bytes)
  | revokeToken (id : ℕ)
  | deletePrincipal (name : String)
  | setAccess (repo : String) (body : Accounts.SetAccessRequest)
  | revokeAccess (repo principal : String)

/-- A request with the token hash it presents and the time it is served. -/
structure AccountCall where
  nowNs : ℕ
  bearer : Bytes
  request : AccountRequest

/-- The flags of a grant. -/
structure Flags where
  read : Bool
  write : Bool
  deriving DecidableEq, Repr

/-- What happened to the principals and the grants. -/
inductive AccessEvent
  | created (principal : String)
  | deleted (principal : String)
  | granted (repoId : RepoId) (principal : String) (flags : Flags)
  | revoked (repoId : RepoId) (principal : String)
  deriving DecidableEq, Repr

namespace Accounts

/-- The route of a request, behind the bearer authentication. -/
def handle (s : Accounts) (call : AccountCall) : Except (ApiError Empty) Accounts := do
  let auth ← s.authenticate call.nowNs call.bearer
  match call.request with
  | .createToken body blake3 => s.createToken call.nowNs auth body blake3
  | .revokeToken id => s.revokeToken auth id
  | .deletePrincipal name => s.deletePrincipal auth name
  | .setAccess repo body => s.setAccess auth repo body
  | .revokeAccess repo principal => s.revokeAccess auth repo principal

/-- What an accepted request did: a token for a new principal creates it. -/
def eventOf (s : Accounts) : AccountRequest → Option AccessEvent
  | .createToken body _ =>
      if s.principalExists body.principal then none else some (.created body.principal)
  | .revokeToken _ => none
  | .deletePrincipal name => some (.deleted name)
  | .setAccess repo body =>
      (s.repoIdByName repo).map fun r =>
        .granted r body.principal ⟨body.read || body.write, body.write⟩
  | .revokeAccess repo principal => (s.repoIdByName repo).map fun r => .revoked r principal

end Accounts

/-- The tables, and the log of what happened to them. -/
structure AccessLog where
  accounts : Accounts
  log : List AccessEvent
  deriving DecidableEq, Repr

namespace AccessLog

/-- A refused request leaves everything. -/
def step (l : AccessLog) (call : AccountCall) : Option AccessLog :=
  match l.accounts.handle call with
  | .ok s => some ⟨s, l.log ++ (l.accounts.eventOf call.request).toList⟩
  | .error _ => some l

/-- Nothing granted, nothing logged; some principals and their tokens stand. -/
def Start (l : AccessLog) : Prop := l.accounts.access = [] ∧ l.log = []

/-- No principal is created under a name a grant with read still stands for. -/
def NoRevival (l : AccessLog) (call : AccountCall) : Prop :=
  match call.request with
  | .createToken body _ =>
      l.accounts.principalExists body.principal = true ∨
        ∀ row ∈ l.accounts.access, row.principal = body.principal → row.read = false
  | _ => True

instance (l : AccessLog) : (call : AccountCall) → Decidable (l.NoRevival call)
  | ⟨_, _, .createToken body _⟩ =>
      inferInstanceAs (Decidable (l.accounts.principalExists body.principal = true ∨
        ∀ row ∈ l.accounts.access, row.principal = body.principal → row.read = false))
  | ⟨_, _, .revokeToken _⟩ => .isTrue trivial
  | ⟨_, _, .deletePrincipal _⟩ => .isTrue trivial
  | ⟨_, _, .setAccess _ _⟩ => .isTrue trivial
  | ⟨_, _, .revokeAccess _ _⟩ => .isTrue trivial

end AccessLog

/-- The principal was given the flag on the repository, after its last creation,
and it was not revoked or downgraded since. -/
def Entitled (log : List AccessEvent) (repoId : RepoId) (principal : String)
    (flag : Flags → Bool) : Prop :=
  ∃ before flags after, log = before ++ .granted repoId principal flags :: after ∧ flag flags ∧
    ∀ e ∈ after, e ≠ .created principal ∧ e ≠ .revoked repoId principal ∧
      ∀ flags', e = .granted repoId principal flags' → flag flags'

/-! ### One event -/

section

variable {log : List AccessEvent} {r : RepoId} {p : String} {flag : Flags → Bool}

theorem entitled_append {e : AccessEvent} :
    Entitled (log ++ [e]) r p flag ↔
      (∃ flags, e = .granted r p flags ∧ flag flags) ∨
        Entitled log r p flag ∧ e ≠ .created p ∧ e ≠ .revoked r p ∧
          ∀ flags, e = .granted r p flags → flag flags := by
  constructor
  · rintro ⟨before, flags, after, hlog, hflag, hafter⟩
    rcases List.eq_nil_or_concat after with rfl | ⟨after, last, rfl⟩
    · obtain ⟨-, hlast⟩ := List.append_inj' hlog rfl
      exact .inl ⟨flags, by simpa using hlast, hflag⟩
    · rw [List.concat_eq_append, ← List.cons_append, ← List.append_assoc] at hlog
      obtain ⟨hinit, hlast⟩ := List.append_inj' hlog rfl
      obtain rfl : e = last := by simpa using hlast
      refine .inr ⟨⟨before, flags, after, hinit, hflag, fun x hx => hafter x ?_⟩, hafter e ?_⟩
      · simp [hx]
      · simp
  · rintro (⟨flags, rfl, hflag⟩ | ⟨⟨before, flags, after, rfl, hflag, hafter⟩, he⟩)
    · exact ⟨log, flags, [], rfl, hflag, by simp⟩
    · refine ⟨before, flags, after ++ [e], by simp, hflag, fun x hx => ?_⟩
      rcases List.mem_append.mp hx with hx | hx
      · exact hafter x hx
      · obtain rfl := List.mem_singleton.mp hx
        exact he

theorem not_entitled_nil : ¬ Entitled [] r p flag := by
  rintro ⟨before, flags, after, hlog, -⟩
  simp at hlog

end

/-! ### What the statements do to a grant -/

namespace Accounts

variable {s s' : Accounts} {r r' : RepoId} {p p' : String} {read write : Bool}

theorem keyed_iff {row : AccessRow} : keyed r p row = true ↔ row.repoId = r ∧ row.principal = p := by
  simp [keyed]

/-- A row has one key. -/
theorem keyed_of_ne {row : AccessRow} (hkey : keyed r p row = true) (hne : ¬ (r' = r ∧ p' = p)) :
    keyed r' p' row = false := by
  rw [Bool.eq_false_iff]
  intro hkey'
  obtain ⟨rfl, rfl⟩ := keyed_iff.mp hkey
  obtain ⟨hr, hp⟩ := keyed_iff.mp hkey'
  exact hne ⟨hr.symm, hp.symm⟩

/-- The row an upsert leaves under its key is the one it states; the others
stay. -/
theorem accessRow_accessSet :
    (s.accessSet r p read write).accessRow r' p' =
      if r' = r ∧ p' = p then some ⟨r, p, read || write, write⟩ else s.accessRow r' p' := by
  rw [accessSet, accessRow]
  split_ifs with hstands hsame hsame
  · obtain ⟨rfl, rfl⟩ := hsame
    obtain ⟨row, hrow⟩ := Option.isSome_iff_exists.mp hstands
    have hkey : ∀ row : AccessRow, keyed r' p' (if keyed r' p' row then
        { row with read := read || write, write := write } else row) = keyed r' p' row := by
      intro row
      split_ifs <;> rfl
    rw [List.find?_map]
    have hcomp : (keyed r' p' ∘ fun row : AccessRow => if keyed r' p' row then
        { row with read := read || write, write := write } else row) = keyed r' p' :=
      funext hkey
    rw [hcomp, show s.access.find? (keyed r' p') = some row from hrow, Option.map_some]
    have hfound := List.find?_some hrow
    obtain ⟨hr, hp⟩ := keyed_iff.mp hfound
    simp [hfound, hr, hp]
  · rw [List.find?_map]
    have hcomp : (keyed r' p' ∘ fun row : AccessRow => if keyed r p row then
        { row with read := read || write, write := write } else row) = keyed r' p' := by
      funext row
      rw [Function.comp_apply]
      split_ifs with hkey
      · rw [keyed_of_ne hkey hsame]
        exact keyed_of_ne hkey hsame
      · rfl
    rw [hcomp, accessRow]
    match hfind : s.access.find? (keyed r' p') with
    | none => rfl
    | some row =>
        have hnot : keyed r p row = false := by
          by_contra hkey
          have hfound := List.find?_some hfind
          rw [keyed_of_ne (Bool.eq_true_of_not_eq_false hkey) hsame] at hfound
          cases hfound
        simp [hnot]
  · obtain ⟨rfl, rfl⟩ := hsame
    rw [Option.not_isSome_iff_eq_none] at hstands
    rw [List.find?_append, show s.access.find? (keyed r' p') = none from hstands]
    simp [keyed]
  · have hnew : keyed r' p' ⟨r, p, read || write, write⟩ = false :=
      keyed_of_ne (by simp [keyed]) hsame
    rw [List.find?_append, List.find?_singleton, hnew]
    simp [accessRow]

theorem accessRow_accessClear :
    (s.accessClear r p).accessRow r' p' =
      if r' = r ∧ p' = p then none else s.accessRow r' p' := by
  rw [accessClear, accessRow, accessRow, List.find?_filter]
  split_ifs with hsame
  · obtain ⟨rfl, rfl⟩ := hsame
    simp
  · congr 1
    funext row
    by_cases hkey : keyed r p row = true
    · simp [keyed_of_ne hkey hsame]
    · simp [hkey]

theorem accessSet_implied (h : ∀ row ∈ s.access, row.write = true → row.read = true) :
    ∀ row ∈ (s.accessSet r p read write).access, row.write = true → row.read = true := by
  intro row hrow hwrite
  rw [accessSet] at hrow
  simp only at hrow
  split_ifs at hrow
  · obtain ⟨old, hold, rfl⟩ := List.mem_map.mp hrow
    split_ifs at hwrite ⊢ with hkey
    · simp only at hwrite ⊢
      rw [hwrite, Bool.or_true]
    · exact h old hold hwrite
  · rcases List.mem_append.mp hrow with hrow | hrow
    · exact h row hrow hwrite
    · obtain rfl := List.mem_singleton.mp hrow
      simp only at hwrite ⊢
      rw [hwrite, Bool.or_true]

/-! ### What an accepted request does to the grants -/

section Steps

variable {Id : Type} {auth : AuthedPrincipal}

theorem tokenCreate_access {role : Role} {blake3 : Bytes} {expiresNs : Option ℕ}
    {scopePath : Option String} {nowNs : ℕ}
    (h : s.tokenCreate p role blake3 expiresNs scopePath nowNs = some s') :
    s'.access = s.access := by
  rw [tokenCreate, tokenInsert] at h
  split_ifs at h
  exact Option.some.inj h ▸ rfl

theorem tokenRevoke_access {id : ℕ} (h : s.tokenRevoke id = some s') : s'.access = s.access := by
  rw [tokenRevoke] at h
  split_ifs at h
  exact Option.some.inj h ▸ rfl

theorem principalDelete_access {n : ℕ} (h : s.principalDelete p = some (n, s')) :
    s'.access = s.access := by
  rw [principalDelete] at h
  split_ifs at h
  obtain ⟨-, rfl⟩ := Prod.mk.inj (Option.some.inj h)
  rfl

theorem createToken_ok {nowNs : ℕ} {body : CreateTokenRequest} {blake3 : Bytes}
    (h : s.createToken nowNs auth body blake3 = (.ok s' : Except (ApiError Id) Accounts)) :
    ∃ role scopePath expiresNs,
      s.tokenCreate body.principal role blake3 expiresNs scopePath nowNs = some s' := by
  rw [createToken, Lib.bind_eq_ok] at h
  obtain ⟨-, -, h⟩ := h
  split at h
  next => cases h
  next role hrole =>
    split_ifs at h
    rw [Lib.bind_eq_ok] at h
    obtain ⟨scopePath, -, h⟩ := h
    rw [Lib.bind_eq_ok] at h
    obtain ⟨expiresNs, -, h⟩ := h
    split at h
    next s'' hcreate =>
      obtain rfl := Except.ok.inj h
      exact ⟨role, scopePath, expiresNs, hcreate⟩
    next => cases h

theorem createToken_access {nowNs : ℕ} {body : CreateTokenRequest} {blake3 : Bytes}
    (h : s.createToken nowNs auth body blake3 = (.ok s' : Except (ApiError Id) Accounts)) :
    s'.access = s.access := by
  obtain ⟨role, scopePath, expiresNs, hcreate⟩ := createToken_ok h
  exact tokenCreate_access hcreate

theorem revokeToken_access {id : ℕ}
    (h : s.revokeToken auth id = (.ok s' : Except (ApiError Id) Accounts)) :
    s'.access = s.access := by
  rw [revokeToken, Lib.bind_eq_ok] at h
  obtain ⟨-, -, h⟩ := h
  split at h
  next s'' hrevoke =>
    obtain rfl := Except.ok.inj h
    exact tokenRevoke_access hrevoke
  next => cases h

theorem deletePrincipal_ok {name : String}
    (h : s.deletePrincipal auth name = (.ok s' : Except (ApiError Id) Accounts)) :
    ∃ n, s.principalDelete name = some (n, s') := by
  rw [deletePrincipal, Lib.bind_eq_ok] at h
  obtain ⟨-, -, h⟩ := h
  split_ifs at h
  split at h
  next n s'' hdelete =>
    obtain rfl := Except.ok.inj h
    exact ⟨n, hdelete⟩
  next => cases h

theorem deletePrincipal_access {name : String}
    (h : s.deletePrincipal auth name = (.ok s' : Except (ApiError Id) Accounts)) :
    s'.access = s.access := by
  obtain ⟨n, hdelete⟩ := deletePrincipal_ok h
  exact principalDelete_access hdelete

theorem repoIdOr404_ok {repo : String}
    (h : s.repoIdOr404 repo = (.ok r : Except (ApiError Id) RepoId)) :
    s.repoIdByName repo = some r := by
  rw [repoIdOr404] at h
  split at h
  next id hid => rw [hid, Except.ok.inj h]
  next => cases h

theorem setAccess_ok {repo : String} {body : SetAccessRequest}
    (h : s.setAccess auth repo body = (.ok s' : Except (ApiError Id) Accounts)) :
    ∃ r, s.repoIdByName repo = some r ∧
      s' = s.accessSet r body.principal (body.read || body.write) body.write := by
  rw [setAccess, Lib.bind_eq_ok] at h
  obtain ⟨-, -, h⟩ := h
  rw [Lib.bind_eq_ok] at h
  obtain ⟨-, -, h⟩ := h
  split_ifs at h
  rw [Lib.bind_eq_ok] at h
  obtain ⟨r, hrepo, h⟩ := h
  split at h
  next flags s'' hgrant =>
    obtain rfl := Except.ok.inj h
    rw [accessGrant] at hgrant
    split_ifs at hgrant
    obtain ⟨-, rfl⟩ := Prod.mk.inj (Option.some.inj hgrant)
    exact ⟨r, repoIdOr404_ok hrepo, rfl⟩
  next => cases h

theorem revokeAccess_ok {repo principal : String}
    (h : s.revokeAccess auth repo principal = (.ok s' : Except (ApiError Id) Accounts)) :
    ∃ r, s.repoIdByName repo = some r ∧ s' = s.accessClear r principal := by
  rw [revokeAccess, Lib.bind_eq_ok] at h
  obtain ⟨-, -, h⟩ := h
  rw [Lib.bind_eq_ok] at h
  obtain ⟨-, -, h⟩ := h
  rw [Lib.bind_eq_ok] at h
  obtain ⟨r, hrepo, h⟩ := h
  exact ⟨r, repoIdOr404_ok hrepo, (Except.ok.inj h).symm⟩

end Steps

/-- An accepted request grants, revokes or leaves every grant as it is. -/
theorem handle_ok {call : AccountCall} (h : s.handle call = .ok s') :
    (∃ repo body r, call.request = .setAccess repo body ∧ s.repoIdByName repo = some r ∧
        s' = s.accessSet r body.principal (body.read || body.write) body.write) ∨
      (∃ repo principal r, call.request = .revokeAccess repo principal ∧
        s.repoIdByName repo = some r ∧ s' = s.accessClear r principal) ∨
      s'.access = s.access ∧ ∀ e, s.eventOf call.request = some e →
        (∃ body blake3, call.request = .createToken body blake3 ∧ e = .created body.principal ∧
          s.principalExists body.principal = false) ∨ ∃ name, e = .deleted name := by
  rw [handle, Lib.bind_eq_ok] at h
  obtain ⟨auth, -, h⟩ := h
  cases hreq : call.request with
  | createToken body blake3 =>
      rw [hreq] at h
      refine .inr (.inr ⟨createToken_access h, fun e he => .inl ⟨body, blake3, rfl, ?_⟩⟩)
      rw [eventOf] at he
      split_ifs at he with hstands
      exact ⟨(Option.some.inj he).symm, by simpa using hstands⟩
  | revokeToken id =>
      rw [hreq] at h
      exact .inr (.inr ⟨revokeToken_access h, fun e he => by cases he⟩)
  | deletePrincipal name =>
      rw [hreq] at h
      exact .inr (.inr ⟨deletePrincipal_access h, fun e he =>
        .inr ⟨name, (Option.some.inj he).symm⟩⟩)
  | setAccess repo body =>
      rw [hreq] at h
      obtain ⟨r, hrepo, rfl⟩ := setAccess_ok h
      exact .inl ⟨repo, body, r, rfl, hrepo, rfl⟩
  | revokeAccess repo principal =>
      rw [hreq] at h
      obtain ⟨r, hrepo, rfl⟩ := revokeAccess_ok h
      exact .inr (.inl ⟨repo, principal, r, rfl, hrepo, rfl⟩)

end Accounts

/-! ### The invariant -/

/-- The flags of a grant's row. -/
def AccessRow.flags (row : AccessRow) : Flags := ⟨row.read, row.write⟩

namespace AccessLog

/-- The grants are what the log entitles to, and write comes with read. -/
structure Inv (l : AccessLog) : Prop where
  readable : ∀ r p, (∃ row, l.accounts.accessRow r p = some row ∧ row.read = true) ↔
    Entitled l.log r p Flags.read
  writable : ∀ r p, (∃ row, l.accounts.accessRow r p = some row ∧ row.write = true) ↔
    Entitled l.log r p Flags.write
  implied : ∀ row ∈ l.accounts.access, row.write = true → row.read = true

theorem inv_start {l : AccessLog} (h : l.Start) : l.Inv := by
  obtain ⟨haccess, hlog⟩ := h
  refine ⟨fun r p => ?_, fun r p => ?_, fun row hrow => ?_⟩
  · rw [hlog, Accounts.accessRow, haccess]
    simp [not_entitled_nil]
  · rw [hlog, Accounts.accessRow, haccess]
    simp [not_entitled_nil]
  · rw [haccess] at hrow
    cases hrow

/-- A grant: the row of its key gets the flags, as the log does. -/
theorem entitled_granted {s : Accounts} {log : List AccessEvent} (r₀ : RepoId) (p₀ : String)
    {r : RepoId} {p : String} (read write : Bool) (flag : Flags → Bool) (column : AccessRow → Bool)
    (hcolumn : ∀ r p, column ⟨r, p, read || write, write⟩ = flag ⟨read || write, write⟩)
    (hrow : (∃ row, s.accessRow r p = some row ∧ column row = true) ↔ Entitled log r p flag) :
    (∃ row, (s.accessSet r₀ p₀ read write).accessRow r p = some row ∧ column row = true) ↔
      Entitled (log ++ [.granted r₀ p₀ ⟨read || write, write⟩]) r p flag := by
  rw [entitled_append, Accounts.accessRow_accessSet]
  split_ifs with hsame
  · obtain ⟨rfl, rfl⟩ := hsame
    simp [hcolumn]
  · rw [hrow]
    have hne : ∀ flags, AccessEvent.granted r₀ p₀ ⟨read || write, write⟩ ≠ .granted r p flags := by
      intro flags heq
      injection heq with hr hp
      exact hsame ⟨hr.symm, hp.symm⟩
    simp [hne]

theorem entitled_revoked {s : Accounts} {log : List AccessEvent} {r₀ r : RepoId} {p₀ p : String}
    (flag : Flags → Bool) (column : AccessRow → Bool)
    (hrow : (∃ row, s.accessRow r p = some row ∧ column row = true) ↔ Entitled log r p flag) :
    (∃ row, (s.accessClear r₀ p₀).accessRow r p = some row ∧ column row = true) ↔
      Entitled (log ++ [.revoked r₀ p₀]) r p flag := by
  rw [entitled_append, Accounts.accessRow_accessClear]
  split_ifs with hsame
  · obtain ⟨rfl, rfl⟩ := hsame
    simp
  · rw [hrow]
    have hne : AccessEvent.revoked r₀ p₀ ≠ .revoked r p := by
      intro heq
      injection heq with hr hp
      exact hsame ⟨hr.symm, hp.symm⟩
    simp [hne]

/-- An event about the principals alone. -/
theorem entitled_other {s : Accounts} {log : List AccessEvent} {r : RepoId} {p : String}
    (flag : Flags → Bool) (column : AccessRow → Bool) {e : AccessEvent}
    (hrow : (∃ row, s.accessRow r p = some row ∧ column row = true) ↔ Entitled log r p flag)
    (hcreated : ∀ name, e = .created name →
      ∀ row ∈ s.access, row.principal = name → column row = false)
    (hother : (∃ name, e = .created name) ∨ ∃ name, e = .deleted name) :
    (∃ row, s.accessRow r p = some row ∧ column row = true) ↔
      Entitled (log ++ [e]) r p flag := by
  have hnone : e = .created p → ¬ ∃ row, s.accessRow r p = some row ∧ column row = true := by
    rintro he ⟨row, hget, hflag⟩
    have hkey := Accounts.keyed_iff.mp (List.find?_some hget)
    rw [hcreated p he row (List.mem_of_find?_eq_some hget) hkey.2] at hflag
    cases hflag
  rw [entitled_append, ← hrow]
  rcases hother with ⟨name, rfl⟩ | ⟨name, rfl⟩
  · by_cases hname : name = p
    · subst hname
      simpa using hnone rfl
    · simp [hname]
  · simp

theorem inv_step {l l' : AccessLog} {call : AccountCall} (hinv : l.Inv)
    (hok : l.NoRevival call) (h : l.step call = some l') : l'.Inv := by
  rw [step] at h
  split at h
  next s hhandle =>
    obtain rfl := Option.some.inj h
    rcases Accounts.handle_ok hhandle with ⟨repo, body, r, hreq, hrepo, rfl⟩ |
        ⟨repo, principal, r, hreq, hrepo, rfl⟩ | ⟨haccess, hevent⟩
    · have hlogged : l.accounts.eventOf call.request =
          some (.granted r body.principal ⟨body.read || body.write, body.write⟩) := by
        rw [hreq, Accounts.eventOf, hrepo]
        rfl
      have hflag : (body.read || body.write || body.write) = (body.read || body.write) := by
        cases body.read <;> cases body.write <;> rfl
      rw [hlogged]
      refine ⟨fun r' p' => ?_, fun r' p' => ?_, ?_⟩
      · have := entitled_granted r body.principal (body.read || body.write) body.write
          Flags.read AccessRow.read (fun _ _ => rfl) (hinv.readable r' p')
        rwa [hflag] at this
      · have := entitled_granted r body.principal (body.read || body.write) body.write
          Flags.write AccessRow.write (fun _ _ => rfl) (hinv.writable r' p')
        rwa [hflag] at this
      · exact Accounts.accessSet_implied hinv.implied
    · have hlogged : l.accounts.eventOf call.request = some (.revoked r principal) := by
        rw [hreq, Accounts.eventOf, hrepo]
        rfl
      rw [hlogged]
      refine ⟨fun r' p' => ?_, fun r' p' => ?_, fun row hrow => ?_⟩
      · exact entitled_revoked Flags.read AccessRow.read (hinv.readable r' p')
      · exact entitled_revoked Flags.write AccessRow.write (hinv.writable r' p')
      · exact hinv.implied row (List.mem_of_mem_filter hrow)
    · have hget : ∀ r p, s.accessRow r p = l.accounts.accessRow r p := by
        intro r p
        rw [Accounts.accessRow, haccess, Accounts.accessRow]
      match hlogged : l.accounts.eventOf call.request with
      | none =>
          simp only [Option.toList_none, List.append_nil]
          refine ⟨fun r p => ?_, fun r p => ?_, fun row hrow => ?_⟩
          · simpa only [hget] using hinv.readable r p
          · simpa only [hget] using hinv.writable r p
          · exact hinv.implied row (haccess ▸ hrow)
      | some e =>
          have hkind := hevent e hlogged
          have hfresh : ∀ name, e = .created name → ∀ row ∈ l.accounts.access,
              row.principal = name → row.read = false := by
            rintro name rfl row hrow hname
            rcases hkind with ⟨body, blake3, hreq, heq, hnew⟩ | ⟨n, heq⟩
            · injection heq with heq
              subst heq
              simp only [NoRevival, hreq] at hok
              rcases hok with hstands | hok
              · rw [hnew] at hstands
                cases hstands
              · exact hok row hrow hname
            · cases heq
          have hfresh' : ∀ name, e = .created name → ∀ row ∈ l.accounts.access,
              row.principal = name → row.write = false := by
            intro name he row hrow hname
            rw [Bool.eq_false_iff]
            intro hwrite
            have hread := hinv.implied row hrow hwrite
            rw [hfresh name he row hrow hname] at hread
            cases hread
          have hother : (∃ name, e = .created name) ∨ ∃ name, e = .deleted name :=
            hkind.imp_left fun ⟨body, _, _, heq, _⟩ => ⟨body.principal, heq⟩
          refine ⟨fun r p => ?_, fun r p => ?_, fun row hrow => ?_⟩
          · simp only [hget]
            exact entitled_other Flags.read AccessRow.read (hinv.readable r p) hfresh hother
          · simp only [hget]
            exact entitled_other Flags.write AccessRow.write (hinv.writable r p) hfresh' hother
          · exact hinv.implied row (haccess ▸ hrow)
  next => exact Option.some.inj h ▸ hinv

end AccessLog

/-! ### The gates -/

/-- The repositories' gates admit exactly who the log entitles, and every grant
with write has read, in every run that creates no principal under a name a grant
with read still stands for. -/
theorem access_of_reach {l : AccessLog}
    (h : Lib.Reach AccessLog.Start AccessLog.step AccessLog.NoRevival l) :
    (∀ row ∈ l.accounts.access, row.write = true → row.read = true) ∧
      ∀ auth : AuthedPrincipal, auth.role = .reader ∨ auth.role = .writer →
        ∀ repo r, l.accounts.repoIdByName repo = some r → l.accounts.accessIsPrivate r = true →
          (l.accounts.repoReadGate auth repo = (.ok () : Except (ApiError Empty) Unit) ↔
              Entitled l.log r auth.principal Flags.read) ∧
            (l.accounts.repoWriteGate auth repo = (.ok () : Except (ApiError Empty) Unit) ↔
              Entitled l.log r auth.principal Flags.write) := by
  have hinv : l.Inv := h.invariant (fun l hl => AccessLog.inv_start hl)
    fun l call l' _ hinv hok hstep => AccessLog.inv_step hinv hok hstep
  refine ⟨hinv.implied, fun auth hrole repo r hrepo hprivate => ?_⟩
  have hticket : auth.role ≠ .ticket := by rcases hrole with h | h <;> simp [h]
  have hadmin : auth.role ≠ .admin := by rcases hrole with h | h <;> simp [h]
  have hid : l.accounts.repoIdOr404 repo = (.ok r : Except (ApiError Empty) RepoId) := by
    rw [Accounts.repoIdOr404, hrepo]
  constructor
  · rw [← hinv.readable, Accounts.repoReadGate, if_neg hticket, hid]
    simp only [bind, Except.bind, if_neg hadmin, hprivate, Bool.not_true, Bool.false_eq_true,
      if_false]
    rw [← Option.any_eq_true]
    split_ifs with hread <;> simp [hread]
  · rw [← hinv.writable, Accounts.repoWriteGate, if_neg hticket, hid]
    simp only [bind, Except.bind, Accounts.repoWriteGateSync, if_neg hticket, if_neg hadmin,
      hprivate, Bool.not_true, Bool.false_eq_true, if_false]
    rw [← Option.any_eq_true]
    split_ifs with hwrite <;> simp [hwrite]

/-! ### A name that comes back -/

namespace Revival

/-- One repository, and an administrator with one token. -/
def start : AccessLog :=
  ⟨⟨[(1, "r")], [⟨"root", .admin, 0⟩], [⟨1, "root", [0], none, none, false⟩], []⟩, []⟩

def call (request : AccountRequest) : AccountCall := ⟨1, [0], request⟩

def create (blake3 : Bytes) : AccountCall := call (.createToken ⟨"alice", "reader", none, none⟩ blake3)

def grant : AccountCall := call (.setAccess "r" ⟨"alice", true, false⟩)

/-- A reader of the repository. -/
def granted : AccessLog :=
  ⟨⟨[(1, "r")], [⟨"root", .admin, 0⟩, ⟨"alice", .reader, 1⟩],
      [⟨1, "root", [0], none, none, false⟩, ⟨2, "alice", [1], none, none, false⟩],
      [⟨1, "alice", true, false⟩]⟩,
    [.created "alice", .granted 1 "alice" ⟨true, false⟩]⟩

/-- Its principal deleted, and another of its name created. -/
def revived : AccessLog :=
  ⟨⟨[(1, "r")], [⟨"root", .admin, 0⟩, ⟨"alice", .reader, 1⟩],
      [⟨1, "root", [0], none, none, false⟩, ⟨2, "alice", [2], none, none, false⟩],
      [⟨1, "alice", true, false⟩]⟩,
    [.created "alice", .granted 1 "alice" ⟨true, false⟩, .deleted "alice", .created "alice"]⟩

theorem granted_run :
    Lib.execIf AccessLog.step AccessLog.NoRevival start [create [1], grant] = some granted := by
  decide +kernel

theorem granted_reach :
    Lib.Reach AccessLog.Start AccessLog.step AccessLog.NoRevival granted :=
  Lib.Reach.execIf (.start ⟨rfl, rfl⟩) granted_run

end Revival

theorem access_of_reach_granted :
    Revival.granted.accounts.repoReadGate ⟨"alice", .reader, none⟩ "r" =
      (.ok () : Except (ApiError Empty) Unit) :=
  ((access_of_reach Revival.granted_reach).2 ⟨"alice", .reader, none⟩ (.inl rfl) "r" 1
    (by decide) (by decide)).1.mpr ⟨[.created "alice"], ⟨true, false⟩, [], by simp [Revival.granted]⟩

/-- The grants outlive their principal: whoever gets its name next reads. -/
theorem revived_reads :
    Lib.exec AccessLog.step Revival.start
        [Revival.create [1], Revival.grant, Revival.call (.deletePrincipal "alice"),
          Revival.create [2]] = some Revival.revived ∧
      Revival.revived.accounts.authenticate 1 [2] =
        (.ok ⟨"alice", .reader, none⟩ : Except (ApiError Empty) AuthedPrincipal) ∧
      Revival.revived.accounts.repoReadGate ⟨"alice", .reader, none⟩ "r" =
        (.ok () : Except (ApiError Empty) Unit) ∧
      ¬ Entitled Revival.revived.log 1 "alice" Flags.read := by
  refine ⟨by decide +kernel, by decide +kernel, by decide +kernel, ?_⟩
  have hlog : Revival.revived.log =
      [.created "alice", .granted 1 "alice" ⟨true, false⟩, .deleted "alice"] ++
        [.created "alice"] := rfl
  rw [hlog, entitled_append]
  simp

end Naatre
