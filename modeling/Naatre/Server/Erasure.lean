import Naatre.Server.AuditTrail

/-!
The erasure of principals. After a deletion, and until a principal of that name
is created again, the name stands in no table of accounts and in no audit log, in
every run whose deletions meet no trace of it that they leave.
-/

namespace Naatre

section

variable {Id : Type}

/-! ### Names in the log -/

/-- One name in place of another. -/
def swapName (name other x : String) : String := if x = name then other else x

namespace AuditDetails

/-- The name in a `details_json` that no deletion rewrites. -/
def kept : AuditDetails Id → Option String
  | .accessGrant _ principal _ _ => some principal
  | .accessRevoke _ principal => some principal
  | .principalDelete principal _ => some principal
  | _ => none

/-- The principal a `details_json` names. -/
def named : AuditDetails Id → Option String
  | .tokenCreate _ principal _ => some principal
  | details => details.kept

def replaceName (name other : String) : AuditDetails Id → AuditDetails Id
  | .accessGrant repo principal read write =>
      .accessGrant repo (swapName name other principal) read write
  | .accessRevoke repo principal => .accessRevoke repo (swapName name other principal)
  | .tokenCreate tokenId principal role =>
      .tokenCreate tokenId (swapName name other principal) role
  | .principalDelete principal deleted =>
      .principalDelete (swapName name other principal) deleted
  | details => details

end AuditDetails

namespace AuditEntry

/-- The row names the principal: as its actor, or in its details. -/
def Names (row : AuditEntry Id) (name : String) : Prop :=
  row.principal = name ∨ row.details.named = some name

/-- A mint is logged under the principal it mints for. -/
def OwnMint (row : AuditEntry Id) : Prop :=
  ∀ tokenId principal role, row.details = .tokenCreate tokenId principal role →
    row.principal = principal

/-- The row with one name in place of another, everywhere. -/
def replaceName (name other : String) (row : AuditEntry Id) : AuditEntry Id :=
  { row with
    principal := swapName name other row.principal
    details := row.details.replaceName name other }

/-- A deletion names nobody but its pseudonym. -/
theorem not_names_scrub {row : AuditEntry Id} {name pseudo other : String}
    (h : ¬ row.Names other) (hpseudo : pseudo ≠ other) : ¬ (row.scrub name pseudo).Names other := by
  rw [scrub]
  split_ifs
  · rintro (hactor | hnamed)
    · exact hpseudo hactor
    · refine h (.inr ?_)
      cases hdetails : row.details <;>
        simp_all [AuditDetails.pseudonymise, AuditDetails.named, AuditDetails.kept]
  · exact h

/-- A deletion takes its name out of a row that names it where it looks. -/
theorem not_names_scrub_self {row : AuditEntry Id} {name pseudo : String} (hmint : row.OwnMint)
    (hkept : row.details.kept ≠ some name) (hpseudo : pseudo ≠ name) :
    ¬ (row.scrub name pseudo).Names name := by
  rw [scrub]
  split_ifs with hactor
  · rintro (hprincipal | hnamed)
    · exact hpseudo hprincipal
    · cases hdetails : row.details <;>
        simp_all [AuditDetails.pseudonymise, AuditDetails.named, AuditDetails.kept]
  · rintro (hprincipal | hnamed)
    · exact hactor hprincipal
    · cases hdetails : row.details with
      | tokenCreate tokenId principal role =>
          rw [hdetails] at hnamed
          have hsame : principal = name := Option.some.inj hnamed
          exact hactor ((hmint tokenId principal role hdetails).trans hsame)
      | _ => simp_all [AuditDetails.named, AuditDetails.kept]

/-- Where nothing else names it, the deletion replaces the name everywhere. -/
theorem scrub_eq_replaceName {row : AuditEntry Id} {name pseudo : String} (hmint : row.OwnMint)
    (hkept : row.details.kept ≠ some name) : row.scrub name pseudo = row.replaceName name pseudo := by
  obtain ⟨tsNs, principal, details⟩ := row
  cases details with
  | tokenCreate tokenId minted role =>
      have hsame : principal = minted := hmint tokenId minted role rfl
      subst hsame
      rw [scrub, replaceName, swapName]
      split_ifs with hactor <;>
        simp_all [AuditDetails.pseudonymise, AuditDetails.replaceName, swapName]
  | _ =>
      rw [scrub, replaceName, swapName]
      split_ifs with hactor <;>
        simp_all [AuditDetails.pseudonymise, AuditDetails.replaceName, swapName, AuditDetails.kept]

theorem ownMint_scrub {row : AuditEntry Id} (h : row.OwnMint) (name pseudo : String) :
    (row.scrub name pseudo).OwnMint := by
  obtain ⟨tsNs, principal, details⟩ := row
  rw [scrub]
  split_ifs with hactor
  · intro tokenId minted role hdetails
    cases details with
    | tokenCreate tokenId' minted' role' =>
        simp only [AuditDetails.pseudonymise, AuditDetails.tokenCreate.injEq] at hdetails
        exact hdetails.2.1
    | _ => cases hdetails
  · exact h

end AuditEntry

/-! ### Names in the tables -/

namespace Accounts

/-- No row of the accounts carries the name. -/
structure Free (s : Accounts) (name : String) : Prop where
  principals : ∀ row ∈ s.principals, row.name ≠ name
  tokens : ∀ row ∈ s.tokens, row.principal ≠ name
  access : ∀ row ∈ s.access, row.principal ≠ name

variable {s s' : Accounts} {name : String}

theorem ne_of_exists (h : s.Free name) {other : String} (hstands : s.principalExists other = true) :
    other ≠ name := by
  obtain ⟨row, hrow, hname⟩ := List.any_eq_true.mp hstands
  rw [← of_decide_eq_true hname]
  exact h.principals row hrow

/-- Who is authenticated stands. -/
theorem authenticate_ne (h : s.Free name) {nowNs : ℕ} {blake3 : Bytes} {auth : AuthedPrincipal}
    (hauth : s.authenticate nowNs blake3 = (.ok auth : Except (ApiError Empty) AuthedPrincipal)) :
    auth.principal ≠ name := by
  rw [authenticate] at hauth
  split at hauth
  next => cases hauth
  next token role hlookup =>
    split_ifs at hauth
    cases hauth
    rw [authLookup, Option.bind_eq_some_iff] at hlookup
    obtain ⟨token', htoken, hlookup⟩ := hlookup
    obtain ⟨row, -, hpair⟩ := Option.map_eq_some_iff.mp hlookup
    obtain ⟨rfl, -⟩ := Prod.mk.inj hpair
    exact h.tokens _ (List.mem_of_find?_eq_some htoken)

theorem setAccess_exists {auth : AuthedPrincipal} {repo : String} {body : SetAccessRequest}
    (h : s.setAccess auth repo body = (.ok s' : Except (ApiError Empty) Accounts)) :
    s.principalExists body.principal = true := by
  rw [setAccess, Lib.bind_eq_ok] at h
  obtain ⟨-, -, h⟩ := h
  rw [Lib.bind_eq_ok] at h
  obtain ⟨-, -, h⟩ := h
  split_ifs at h
  rw [Lib.bind_eq_ok] at h
  obtain ⟨r, -, h⟩ := h
  split at h
  next flags s'' hgrant =>
    rw [accessGrant] at hgrant
    split_ifs at hgrant with hstands
    exact hstands
  next => cases h

theorem Free.tokenCreate (h : s.Free name) {principal : String} {role : Role} {blake3 : Bytes}
    {expiresNs : Option ℕ} {scopePath : Option String} {nowNs : ℕ} (hne : principal ≠ name)
    (hcreate : s.tokenCreate principal role blake3 expiresNs scopePath nowNs = some s') :
    s'.Free name := by
  rw [Accounts.tokenCreate, tokenInsert] at hcreate
  split_ifs at hcreate
  obtain rfl := Option.some.inj hcreate
  refine ⟨fun row hrow => ?_, fun row hrow => ?_, h.access⟩
  · simp only [principalUpsert] at hrow
    split_ifs at hrow
    · obtain ⟨old, hold, rfl⟩ := List.mem_map.mp hrow
      split_ifs
      · exact h.principals old hold
      · exact h.principals old hold
    · rcases List.mem_append.mp hrow with hrow | hrow
      · exact h.principals row hrow
      · rw [List.mem_singleton.mp hrow]
        exact hne
  · rcases List.mem_append.mp hrow with hrow | hrow
    · exact h.tokens row hrow
    · rw [List.mem_singleton.mp hrow]
      exact hne

theorem Free.tokenRevoke (h : s.Free name) {id : ℕ} (hrevoke : s.tokenRevoke id = some s') :
    s'.Free name := by
  rw [Accounts.tokenRevoke] at hrevoke
  split_ifs at hrevoke
  obtain rfl := Option.some.inj hrevoke
  refine ⟨h.principals, fun row hrow => ?_, h.access⟩
  obtain ⟨old, hold, rfl⟩ := List.mem_map.mp hrow
  split_ifs
  · exact h.tokens old hold
  · exact h.tokens old hold

theorem Free.accessSet (h : s.Free name) {r : RepoId} {principal : String} {read write : Bool}
    (hne : principal ≠ name) : (s.accessSet r principal read write).Free name := by
  refine ⟨h.principals, h.tokens, fun row hrow => ?_⟩
  simp only [Accounts.accessSet] at hrow
  split_ifs at hrow
  · obtain ⟨old, hold, rfl⟩ := List.mem_map.mp hrow
    split_ifs
    · exact h.access old hold
    · exact h.access old hold
  · rcases List.mem_append.mp hrow with hrow | hrow
    · exact h.access row hrow
    · rw [List.mem_singleton.mp hrow]
      exact hne

/-- What a deletion leaves: all rows but those of the name, and every grant. -/
theorem principalDelete_rows {n : ℕ} (h : s.principalDelete name = some (n, s')) :
    s' = { s with
      tokens := s.tokens.filter (fun row => decide (row.principal ≠ name))
      principals := s.principals.filter (fun row => decide (row.name ≠ name)) } := by
  rw [principalDelete] at h
  split_ifs at h
  exact (Prod.mk.inj (Option.some.inj h)).2.symm

/-- The principal a request creates, or gives another token. -/
def created : AccountRequest → Option String
  | .createToken body _ => some body.principal
  | _ => none

/-- No request brings a name back but a mint for it. -/
theorem Free.handle (h : s.Free name) {call : AccountCall} (hok : s.handle call = .ok s')
    (hcreated : created call.request ≠ some name) : s'.Free name := by
  rw [Accounts.handle, Lib.bind_eq_ok] at hok
  obtain ⟨auth, -, hok⟩ := hok
  cases hrequest : call.request with
  | createToken body blake3 =>
      rw [hrequest] at hok hcreated
      obtain ⟨role, scopePath, expiresNs, hcreate⟩ := createToken_ok hok
      exact h.tokenCreate (fun heq => hcreated (congrArg some heq)) hcreate
  | revokeToken id =>
      rw [hrequest] at hok
      simp only [revokeToken, Lib.bind_eq_ok] at hok
      obtain ⟨-, -, hok⟩ := hok
      split at hok
      next s'' hrevoke =>
        obtain rfl := Except.ok.inj hok
        exact h.tokenRevoke hrevoke
      next => cases hok
  | deletePrincipal other =>
      rw [hrequest] at hok
      obtain ⟨n, hdelete⟩ := deletePrincipal_ok hok
      rw [principalDelete_rows hdelete]
      exact ⟨fun row hrow => h.principals row (List.mem_of_mem_filter hrow),
        fun row hrow => h.tokens row (List.mem_of_mem_filter hrow), h.access⟩
  | setAccess repo body =>
      rw [hrequest] at hok
      obtain ⟨r, -, rfl⟩ := setAccess_ok hok
      exact h.accessSet (ne_of_exists h (setAccess_exists hok))
  | revokeAccess repo principal =>
      rw [hrequest] at hok
      obtain ⟨r, -, rfl⟩ := revokeAccess_ok hok
      exact ⟨h.principals, h.tokens, fun row hrow => h.access row (List.mem_of_mem_filter hrow)⟩

theorem handleAudited_ok {call : AccountCall} {pseudo : String} {row : Option (AuditEntry Id)}
    (h : s.handleAudited call pseudo = .ok (s', row)) :
    ∃ auth, s.authenticate call.nowNs call.bearer =
        (.ok auth : Except (ApiError Empty) AuthedPrincipal) ∧
      s.handle call = .ok s' ∧ s.auditEntry auth call pseudo = row := by
  rw [handleAudited, Lib.bind_eq_ok] at h
  obtain ⟨auth, hauth, h⟩ := h
  rw [Lib.bind_eq_ok] at h
  obtain ⟨s'', hhandle, h⟩ := h
  obtain ⟨rfl, hrow⟩ := Prod.mk.inj (Except.ok.inj h)
  exact ⟨auth, hauth, hhandle, hrow⟩

/-- Nor does its row. -/
theorem Free.not_names (h : s.Free name) {call : AccountCall} {pseudo : String}
    {row : AuditEntry Id} (hok : s.handleAudited call pseudo = .ok (s', some row))
    (hcreated : created call.request ≠ some name)
    (hpseudo : ∀ other, call.request = .deletePrincipal other → pseudo ≠ name) :
    ¬ row.Names name := by
  obtain ⟨auth, hauth, hhandle, hrow⟩ := handleAudited_ok hok
  have hactor := authenticate_ne h hauth
  rw [Accounts.handle, Lib.bind_eq_ok] at hhandle
  obtain ⟨auth', -, hhandle⟩ := hhandle
  rw [auditEntry] at hrow
  cases hrequest : call.request with
  | createToken body blake3 =>
      rw [hrequest] at hrow hcreated
      obtain rfl := Option.some.inj hrow
      rintro (hname | hname)
      · exact hcreated (congrArg some hname)
      · exact hcreated hname
  | revokeToken id =>
      rw [hrequest] at hrow
      obtain ⟨token, htoken, rfl⟩ := Option.map_eq_some_iff.mp hrow
      rintro (hname | hname)
      · exact h.tokens token (List.mem_of_find?_eq_some htoken) hname
      · cases hname
  | deletePrincipal other =>
      rw [hrequest] at hrow
      obtain ⟨deleted, -, rfl⟩ := Option.map_eq_some_iff.mp hrow
      rintro (hname | hname)
      · exact hactor hname
      · exact hpseudo other hrequest (Option.some.inj hname)
  | setAccess repo body =>
      rw [hrequest] at hrow hhandle
      obtain rfl := Option.some.inj hrow
      rintro (hname | hname)
      · exact hactor hname
      · exact ne_of_exists h (setAccess_exists hhandle) (Option.some.inj hname)
  | revokeAccess repo principal =>
      rw [hrequest] at hrow
      obtain ⟨r, -, hrow⟩ := Option.bind_eq_some_iff.mp hrow
      split_ifs at hrow with hstood
      obtain rfl := Option.some.inj hrow
      rintro (hname | hname)
      · exact hactor hname
      · obtain ⟨grant, hgrant⟩ := Option.isSome_iff_exists.mp hstood
        have hkeyed := (keyed_iff.mp (List.find?_some hgrant)).2
        rw [Option.some.inj hname] at hkeyed
        exact h.access grant (List.mem_of_find?_eq_some hgrant) hkeyed

/-- A mint's row is its principal's own. -/
theorem ownMint_of_handle {call : AccountCall} {pseudo : String} {row : AuditEntry Id}
    (hok : s.handleAudited call pseudo = .ok (s', some row)) : row.OwnMint := by
  obtain ⟨auth, -, -, hrow⟩ := handleAudited_ok hok
  rw [auditEntry] at hrow
  cases hrequest : call.request with
  | createToken body blake3 =>
      rw [hrequest] at hrow
      obtain rfl := Option.some.inj hrow
      rintro tokenId principal role hdetails
      exact (AuditDetails.tokenCreate.inj hdetails).2.1
  | revokeToken id =>
      rw [hrequest] at hrow
      obtain ⟨token, -, rfl⟩ := Option.map_eq_some_iff.mp hrow
      rintro tokenId principal role hdetails
      cases hdetails
  | deletePrincipal other =>
      rw [hrequest] at hrow
      obtain ⟨deleted, -, rfl⟩ := Option.map_eq_some_iff.mp hrow
      rintro tokenId principal role hdetails
      cases hdetails
  | setAccess repo body =>
      rw [hrequest] at hrow
      obtain rfl := Option.some.inj hrow
      rintro tokenId principal role hdetails
      cases hdetails
  | revokeAccess repo principal =>
      rw [hrequest] at hrow
      obtain ⟨r, -, hrow⟩ := Option.bind_eq_some_iff.mp hrow
      split_ifs at hrow
      obtain rfl := Option.some.inj hrow
      rintro tokenId principal role hdetails
      cases hdetails

theorem not_names_scrubbed {request : AccountRequest} {pseudo : String} {row : AuditEntry Id}
    (h : ¬ row.Names name)
    (hpseudo : ∀ other, request = .deletePrincipal other → pseudo ≠ name) :
    ¬ (scrubbed pseudo request row).Names name := by
  cases request with
  | deletePrincipal other => exact AuditEntry.not_names_scrub h (hpseudo other rfl)
  | _ => exact h

theorem ownMint_scrubbed {row : AuditEntry Id} (h : row.OwnMint) (pseudo : String)
    (request : AccountRequest) : (scrubbed pseudo request row).OwnMint := by
  cases request with
  | deletePrincipal other => exact AuditEntry.ownMint_scrub h other pseudo
  | _ => exact h

end Accounts

end

section

variable {Id : Type} [Platform Id]

/-! ### Requests -/

/-- The principal a repository's request works for. -/
def Event.actor (s : Server Id) : Event Id → Option String
  | .createWrite i => (s.creates[i]?).map fun pending => pending.2.principal
  | .land _ cmd => some cmd.principal
  | .casRef _ req => some req.principal
  | _ => none

/-- The rows of a repository's request name its principal alone. -/
def Appends.Of (rows : Appends Id) (actor : String) : Prop :=
  ∀ row ∈ rows.all, row.principal = actor ∧ row.details.named = none

omit [Platform Id] in
theorem Appends.of_nil (actor : String) : (⟨[], none⟩ : Appends Id).Of actor :=
  fun _ h => absurd h List.not_mem_nil

theorem createAppends_of (cx : RepoCx Id) (p : PreparedCreate Id) :
    (createAppends cx p).Of p.principal := by
  rw [createAppends]
  split
  · exact Appends.of_nil _
  · intro row hrow
    rw [List.mem_singleton.mp hrow]
    exact ⟨rfl, rfl⟩

theorem landAppends_of (cx : RepoCx Id) (cmd : LandCommand Id) :
    (landAppends cx cmd).Of cmd.principal := by
  rw [landAppends]
  split
  · exact Appends.of_nil _
  · intro row hrow
    rcases List.mem_append.mp hrow with hrow | hrow
    · obtain ⟨changeset, -, rfl⟩ := List.mem_map.mp hrow
      exact ⟨rfl, rfl⟩
    · simp only at hrow
      split_ifs at hrow
      · rw [Option.toList_some, List.mem_singleton] at hrow
        rw [hrow]
        exact ⟨rfl, rfl⟩
      · cases hrow

theorem casRefAppends_of (cx : RepoCx Id) (nowNs : ℕ) (req : RefRequest Id) :
    (casRefAppends cx nowNs req).Of req.principal := by
  rw [casRefAppends]
  split
  · exact Appends.of_nil _
  · intro row hrow
    rw [List.mem_singleton.mp hrow]
    exact ⟨rfl, rfl⟩

theorem markAppends_of (cx : RepoCx Id) (nowNs : ℕ) (principal : String) (id : Id)
    (kind : RedactionKind) (reason : String) :
    (markAppends cx nowNs principal id kind reason).Of principal := by
  rw [markAppends]
  split <;> first
    | exact Appends.of_nil _
    | intro row hrow
      rw [List.mem_singleton.mp hrow]
      exact ⟨rfl, rfl⟩

theorem appends_of (s : Server Id) (e : Event Id) : ∀ row ∈ (e.appends s).2.all,
    e.actor s = some row.principal ∧ row.details.named = none := by
  have hof : ∀ {rows : Appends Id} {actor : String}, rows.Of actor → e.actor s = some actor →
      ∀ row ∈ rows.all, e.actor s = some row.principal ∧ row.details.named = none := by
    intro rows actor hrows hactor row hrow
    obtain ⟨hprincipal, hnamed⟩ := hrows row hrow
    exact ⟨hactor.trans (congrArg some hprincipal.symm), hnamed⟩
  cases e with
  | createWrite i =>
      simp only [Event.appends]
      split
      next r p hpending => exact hof (createAppends_of _ p) (by simp [Event.actor, hpending])
      next => exact fun row hrow => absurd hrow List.not_mem_nil
  | land r cmd => exact hof (landAppends_of _ _) rfl
  | casRef r req => exact hof (casRefAppends_of _ _ _) rfl
  | _ => exact fun row hrow => absurd hrow List.not_mem_nil

/-! ### Runs -/

namespace Books

/-- The name stands in no account row and in no audit log of the store. -/
structure Free (b : Books Id) (name : String) : Prop where
  accounts : b.accounts.Free name
  catalog : ∀ row ∈ b.catalog.filed, ¬ row.Names name
  repoLogs : ∀ r, ∀ row ∈ b.repoLogs r, ¬ row.Names name

/-- What a deletion changes: the rows of the accounts that carry the name go, in
the catalog's log one and the same name stands for it, and one row comes. -/
structure Erases (b : Books Id) (name pseudo : String) (b' : Books Id) : Prop where
  server : b'.server = b.server
  accounts : b'.accounts =
    { b.accounts with
      principals := b.accounts.principals.filter (fun row => decide (row.name ≠ name))
      tokens := b.accounts.tokens.filter (fun row => decide (row.principal ≠ name))
      access := b.accounts.access.filter (fun row => decide (row.principal ≠ name)) }
  catalog : ∃ receipt deleted, receipt.details = .principalDelete pseudo deleted ∧
    b'.catalog.filed = b.catalog.filed.map (AuditEntry.replaceName name pseudo) ++ [receipt]
  pending : b'.catalog.pending = b.catalog.pending
  repoLogs : b'.repoLogs = b.repoLogs

end Books

variable (Id) in
/-- The stores, with the names that were deleted and not created again. -/
structure Erasure where
  books : Books Id
  erased : List String

namespace Erasure

/-- The names an answered request leaves erased. -/
def erasedAfter (e : Erasure Id) (call : AccountCall) (pseudo : String) : List String :=
  match (e.books.accounts.handleAudited call pseudo :
      Except (ApiError Empty) (Accounts × Option (AuditEntry Id))) with
  | .error _ => e.erased
  | .ok _ =>
      match call.request with
      | .deletePrincipal name => name :: e.erased
      | .createToken body _ => e.erased.filter (fun name => decide (name ≠ body.principal))
      | _ => e.erased

def step (e : Erasure Id) (ev : BooksEvent Id) : Option (Erasure Id) :=
  (e.books.step ev).map fun b =>
    ⟨b, match ev with
      | .account call pseudo => e.erasedAfter call pseudo
      | _ => e.erased⟩

def Start (e : Erasure Id) : Prop := e.books.Start ∧ e.erased = []

/-- A deletion finds the name only where it rewrites it: no grant stands for it,
the deleting admin is another one, no row of the catalog holds it in its details
but those of its own mints, no row on its way and none in a repository's file
names it. Its pseudonym is a fresh name. -/
structure Clean (e : Erasure Id) (auth : AuthedPrincipal) (name pseudo : String) : Prop where
  grants : ∀ row ∈ e.books.accounts.access, row.principal ≠ name
  other : auth.principal ≠ name
  details : ∀ row ∈ e.books.catalog.filed, row.details.kept ≠ some name
  pending : ∀ row ∈ e.books.catalog.pending, ¬ row.Names name
  repoLogs : ∀ r, ∀ row ∈ e.books.repoLogs r, ¬ row.Names name
  fresh : pseudo ∉ name :: e.erased

/-- Deletions are clean, and nobody works under an erased name. -/
def Allowed (e : Erasure Id) : BooksEvent Id → Prop
  | .request ev => ∀ actor, ev.actor e.books.server = some actor → actor ∉ e.erased
  | .mark _ principal _ _ _ => principal ∉ e.erased
  | .other _ principal _ _ => principal ∉ e.erased
  | .account call pseudo => ∀ name auth, call.request = .deletePrincipal name →
      e.books.accounts.authenticate call.nowNs call.bearer =
        (.ok auth : Except (ApiError Empty) AuthedPrincipal) → e.Clean auth name pseudo
  | .deliver _ | .crash => True

abbrev Reach : Erasure Id → Prop := Lib.Reach Start step Allowed

/-- What holds in every run. -/
structure Inv (e : Erasure Id) : Prop where
  free : ∀ name ∈ e.erased, e.books.Free name
  pending : ∀ name ∈ e.erased, ∀ row ∈ e.books.catalog.pending, ¬ row.Names name
  minted : ∀ row ∈ e.books.catalog.all, row.OwnMint

theorem inv_start {e : Erasure Id} (h : e.Start) : e.Inv := by
  obtain ⟨⟨-, hpending, hfiled, -⟩, herased⟩ := h
  refine ⟨fun name hname => ?_, fun name hname => ?_, fun row hrow => ?_⟩
  · rw [herased] at hname
    exact absurd hname List.not_mem_nil
  · rw [herased] at hname
    exact absurd hname List.not_mem_nil
  · rw [Lib.Outbox.all_of_pending_nil hpending] at hrow
    intro tokenId principal role hdetails
    have htells := List.filterMap_eq_nil_iff.mp hfiled row hrow
    rw [AuditEntry.effect, hdetails] at htells
    cases htells

theorem inv_commit {e : Erasure Id} (hinv : e.Inv) (s' : Server Id) (r : RepoId)
    {rows : Appends Id} (effects : List (Effect Id))
    (hrows : ∀ row ∈ rows.all, row.principal ∉ e.erased ∧ row.details.named = none) :
    Inv ⟨e.books.commit s' r rows effects, e.erased⟩ := by
  have hnew : ∀ name ∈ e.erased, ∀ row ∈ rows.all, ¬ row.Names name := by
    rintro name hname row hrow (hprincipal | hnamed)
    · rw [← hprincipal] at hname
      exact (hrows row hrow).1 hname
    · rw [(hrows row hrow).2] at hnamed
      cases hnamed
  have hmint : ∀ row ∈ rows.all, row.OwnMint := by
    intro row hrow tokenId principal role hdetails
    have hunnamed := (hrows row hrow).2
    rw [hdetails] at hunnamed
    cases hunnamed
  have hwork : ∀ row ∈ rows.work, row ∈ rows.all := fun row hrow => List.mem_append_left _ hrow
  have hown : ∀ row ∈ rows.own.toList, row ∈ rows.all := fun row hrow =>
    List.mem_append_right _ hrow
  unfold Books.commit
  split
  · refine ⟨fun name hname => ?_, fun name hname row hrow => ?_, fun row hrow => ?_⟩
    · have hfree := hinv.free name hname
      refine ⟨hfree.accounts, fun row hrow => ?_, hfree.repoLogs⟩
      rcases List.mem_append.mp hrow with hrow | hrow
      · exact hfree.catalog row hrow
      · exact hnew name hname row hrow
    · simp only [Lib.Outbox.post, List.append_nil] at hrow
      exact hinv.pending name hname row hrow
    · rcases List.mem_append.mp ((Lib.Outbox.post_all _ _ _).mem_iff.mp hrow) with hrow | hrow
      · exact hinv.minted row hrow
      · rw [List.append_nil] at hrow
        exact hmint row hrow
  · refine ⟨fun name hname => ?_, fun name hname row hrow => ?_, fun row hrow => ?_⟩
    · have hfree := hinv.free name hname
      refine ⟨hfree.accounts, fun row hrow => ?_, fun r' row hrow => ?_⟩
      · simp only [Lib.Outbox.post, List.append_nil] at hrow
        exact hfree.catalog row hrow
      · simp only at hrow
        split_ifs at hrow
        · rcases List.mem_append.mp hrow with hrow | hrow
          · exact hfree.repoLogs r row hrow
          · exact hnew name hname row (hwork row hrow)
        · exact hfree.repoLogs r' row hrow
    · rcases List.mem_append.mp hrow with hrow | hrow
      · exact hinv.pending name hname row hrow
      · exact hnew name hname row (hown row hrow)
    · rcases List.mem_append.mp ((Lib.Outbox.post_all _ _ _).mem_iff.mp hrow) with hrow | hrow
      · exact hinv.minted row hrow
      · rw [List.nil_append] at hrow
        exact hmint row (hown row hrow)

/-- A deletion's stores: what it takes from each. -/
theorem accountStep_ok {b : Books Id} {call : AccountCall} {pseudo : String} {accounts : Accounts}
    {row : Option (AuditEntry Id)}
    (h : b.accounts.handleAudited call pseudo = .ok (accounts, row)) :
    b.accountStep call pseudo = { b with
      accounts := accounts
      catalog := (b.catalog.rewrite (Accounts.scrubbed pseudo call.request)).post row.toList []
      history := b.history ++ b.accounts.effects accounts pseudo call.request } := by
  unfold Books.accountStep
  rw [h]

omit [Platform Id] in
/-- What an accepted deletion does to the accounts, and the row it appends. -/
theorem deletion_ok {accounts accounts' : Accounts} {call : AccountCall} {pseudo name : String}
    {auth : AuthedPrincipal} {row : Option (AuditEntry Id)}
    (hrequest : call.request = .deletePrincipal name)
    (hauth : accounts.authenticate call.nowNs call.bearer =
      (.ok auth : Except (ApiError Empty) AuthedPrincipal))
    (hok : accounts.handleAudited call pseudo = .ok (accounts', row)) :
    accounts' = { accounts with
      tokens := accounts.tokens.filter (fun row => decide (row.principal ≠ name))
      principals := accounts.principals.filter (fun row => decide (row.name ≠ name)) } ∧
    ∃ deleted, row = some ⟨call.nowNs, auth.principal, .principalDelete pseudo deleted⟩ := by
  obtain ⟨auth', hauth', hhandle, hrow⟩ := Accounts.handleAudited_ok hok
  obtain rfl := Except.ok.inj (hauth.symm.trans hauth')
  rw [Accounts.handle, Lib.bind_eq_ok] at hhandle
  obtain ⟨auth'', -, hhandle⟩ := hhandle
  rw [hrequest] at hhandle
  obtain ⟨n, hdelete⟩ := Accounts.deletePrincipal_ok hhandle
  simp only [Accounts.auditEntry, hrequest, hdelete, Option.map_some] at hrow
  exact ⟨Accounts.principalDelete_rows hdelete, n, hrow.symm⟩

/-- A clean deletion erases the name, and nothing else. -/
theorem Clean.erases {e : Erasure Id} (hinv : e.Inv) {call : AccountCall} {pseudo name : String}
    {auth : AuthedPrincipal} {accounts : Accounts} {row : Option (AuditEntry Id)}
    (hclean : e.Clean auth name pseudo) (hrequest : call.request = .deletePrincipal name)
    (hauth : e.books.accounts.authenticate call.nowNs call.bearer =
      (.ok auth : Except (ApiError Empty) AuthedPrincipal))
    (hok : e.books.accounts.handleAudited call pseudo = .ok (accounts, row)) :
    e.books.Erases name pseudo (e.books.accountStep call pseudo) := by
  obtain ⟨haccounts, n, hrow⟩ := deletion_ok hrequest hauth hok
  have hgrants : e.books.accounts.access =
      e.books.accounts.access.filter (fun row => decide (row.principal ≠ name)) :=
    (List.filter_eq_self.mpr fun row hrow => decide_eq_true (hclean.grants row hrow)).symm
  rw [accountStep_ok hok]
  refine ⟨rfl, ?_, ⟨⟨call.nowNs, auth.principal, .principalDelete pseudo n⟩, n, rfl, ?_⟩, by simp [Lib.Outbox.post, Lib.Outbox.rewrite], rfl⟩
  · simp only [haccounts, ← hgrants]
  · simp only [Lib.Outbox.post, Lib.Outbox.rewrite, hrow, Option.toList_some, hrequest]
    congr 1
    refine List.map_congr_left fun r hr => ?_
    exact AuditEntry.scrub_eq_replaceName (hinv.minted r (List.mem_append_left _ hr))
      (hclean.details r hr)

/-- The name a clean deletion takes is free after it. -/
theorem Clean.free {e : Erasure Id} (hinv : e.Inv) {call : AccountCall} {pseudo name : String}
    {auth : AuthedPrincipal} {accounts : Accounts} {row : Option (AuditEntry Id)}
    (hclean : e.Clean auth name pseudo) (hrequest : call.request = .deletePrincipal name)
    (hauth : e.books.accounts.authenticate call.nowNs call.bearer =
      (.ok auth : Except (ApiError Empty) AuthedPrincipal))
    (hok : e.books.accounts.handleAudited call pseudo = .ok (accounts, row)) :
    (e.books.accountStep call pseudo).Free name := by
  have hne : pseudo ≠ name := fun heq => hclean.fresh (heq ▸ List.mem_cons_self)
  obtain ⟨haccounts, n, hrow⟩ := deletion_ok hrequest hauth hok
  rw [accountStep_ok hok]
  refine ⟨?_, fun r hr => ?_, hclean.repoLogs⟩
  · rw [haccounts]
    exact ⟨fun row hrow => of_decide_eq_true (List.mem_filter.mp hrow).2,
      fun row hrow => of_decide_eq_true (List.mem_filter.mp hrow).2, hclean.grants⟩
  · rcases List.mem_append.mp hr with hr | hr
    · obtain ⟨old, hold, rfl⟩ := List.mem_map.mp hr
      rw [hrequest]
      exact AuditEntry.not_names_scrub_self (hinv.minted old (List.mem_append_left _ hold))
        (hclean.details old hold) hne
    · rw [hrow, Option.toList_some, List.mem_singleton] at hr
      rw [hr]
      rintro (hactor | hnamed)
      · exact hclean.other hactor
      · exact hne (Option.some.inj hnamed)

/-- An erased name that the request does not create stays free. -/
theorem free_account {e : Erasure Id} (hinv : e.Inv) {call : AccountCall} {pseudo name : String}
    (hname : name ∈ e.erased) {accounts : Accounts} {row : Option (AuditEntry Id)}
    (hok : e.books.accounts.handleAudited call pseudo = .ok (accounts, row))
    (hcreated : Accounts.created call.request ≠ some name)
    (hpseudo : ∀ other, call.request = .deletePrincipal other → pseudo ≠ name) :
    (e.books.accountStep call pseudo).Free name := by
  have hfree := hinv.free name hname
  obtain ⟨auth, -, hhandle, -⟩ := Accounts.handleAudited_ok hok
  rw [accountStep_ok hok]
  refine ⟨hfree.accounts.handle hhandle hcreated, fun r hr => ?_, hfree.repoLogs⟩
  rcases List.mem_append.mp hr with hr | hr
  · obtain ⟨old, hold, rfl⟩ := List.mem_map.mp hr
    exact Accounts.not_names_scrubbed (hfree.catalog old hold) hpseudo
  · rw [Option.mem_toList] at hr
    rw [Option.mem_def.mp hr] at hok
    exact hfree.accounts.not_names hok hcreated hpseudo

theorem inv_account {e : Erasure Id} (hinv : e.Inv) {call : AccountCall} {pseudo : String}
    (hallowed : e.Allowed (.account call pseudo)) :
    Inv ⟨e.books.accountStep call pseudo, e.erasedAfter call pseudo⟩ := by
  cases hok : (e.books.accounts.handleAudited call pseudo :
      Except (ApiError Empty) (Accounts × Option (AuditEntry Id))) with
  | error err =>
      have hbooks : e.books.accountStep call pseudo = e.books := by
        unfold Books.accountStep
        rw [hok]
      have herased : e.erasedAfter call pseudo = e.erased := by
        unfold erasedAfter
        rw [hok]
      rw [hbooks, herased]
      exact hinv
  | ok done =>
      obtain ⟨accounts, row⟩ := done
      obtain ⟨auth, hauth, -, -⟩ := Accounts.handleAudited_ok hok
      -- what was erased and is not created now, and the name deleted now
      have hafter : ∀ name ∈ e.erasedAfter call pseudo,
          name ∈ e.erased ∧ Accounts.created call.request ≠ some name ∨
            call.request = .deletePrincipal name := by
        intro name hname
        unfold erasedAfter at hname
        rw [hok] at hname
        cases hrequest : call.request with
        | deletePrincipal other =>
            simp only [hrequest] at hname
            rcases List.mem_cons.mp hname with rfl | hname
            · exact .inr rfl
            · exact .inl ⟨hname, by simp [Accounts.created]⟩
        | createToken body blake3 =>
            simp only [hrequest] at hname
            obtain ⟨hname, hne⟩ := List.mem_filter.mp hname
            refine .inl ⟨hname, fun heq => ?_⟩
            exact of_decide_eq_true hne (Option.some.inj heq).symm
        | _ =>
            simp only [hrequest] at hname
            exact .inl ⟨hname, by simp [Accounts.created]⟩
      have hpseudo : ∀ name ∈ e.erased, ∀ other, call.request = .deletePrincipal other →
          pseudo ≠ name := by
        rintro name hname other hrequest rfl
        exact (hallowed other auth hrequest hauth).fresh (List.mem_cons_of_mem _ hname)
      have hpending : (e.books.accountStep call pseudo).catalog.pending =
          e.books.catalog.pending := by
        rw [accountStep_ok hok]
        simp [Lib.Outbox.post, Lib.Outbox.rewrite]
      refine ⟨fun name hname => ?_, fun name hname => ?_, fun r hr => ?_⟩
      · rcases hafter name hname with ⟨hold, hcreated⟩ | hrequest
        · exact free_account hinv hold hok hcreated (hpseudo name hold)
        · exact (hallowed name auth hrequest hauth).free hinv hrequest hauth hok
      · rw [hpending]
        rcases hafter name hname with ⟨hold, -⟩ | hrequest
        · exact hinv.pending name hold
        · exact (hallowed name auth hrequest hauth).pending
      · rw [accountStep_ok hok] at hr
        rcases List.mem_append.mp hr with hr | hr
        · rcases List.mem_append.mp hr with hr | hr
          · obtain ⟨old, hold, rfl⟩ := List.mem_map.mp hr
            exact Accounts.ownMint_scrubbed (hinv.minted old (List.mem_append_left _ hold)) _ _
          · rw [Option.mem_toList] at hr
            rw [Option.mem_def.mp hr] at hok
            exact Accounts.ownMint_of_handle hok
        · simp only [Lib.Outbox.post, Lib.Outbox.rewrite, List.append_nil] at hr
          exact hinv.minted r (List.mem_append_right _ hr)

theorem inv_step {e e' : Erasure Id} {ev : BooksEvent Id} (hinv : e.Inv) (hallowed : e.Allowed ev)
    (h : e.step ev = some e') : e'.Inv := by
  obtain ⟨b, hb, rfl⟩ := Option.map_eq_some_iff.mp h
  cases ev with
  | request req =>
      rw [Books.step, Books.requestStep] at hb
      split_ifs at hb
      obtain ⟨s', -, rfl⟩ := Option.map_eq_some_iff.mp hb
      refine inv_commit hinv s' _ _ fun row hrow => ?_
      obtain ⟨hactor, hnamed⟩ := appends_of _ _ row hrow
      exact ⟨hallowed _ hactor, hnamed⟩
  | mark r principal id kind reason =>
      obtain ⟨s', -, rfl⟩ := Option.map_eq_some_iff.mp hb
      refine inv_commit hinv s' r _ fun row hrow => ?_
      obtain ⟨hprincipal, hnamed⟩ := markAppends_of _ _ _ _ _ _ row hrow
      rw [hprincipal]
      exact ⟨hallowed, hnamed⟩
  | account call pseudo =>
      obtain rfl := Option.some.inj hb
      exact inv_account hinv hallowed
  | deliver i =>
      obtain ⟨catalog, hdeliver, rfl⟩ := Option.map_eq_some_iff.mp hb
      have hperm := Lib.Outbox.deliver_all hdeliver
      obtain ⟨row, hrow, rfl⟩ := Option.map_eq_some_iff.mp hdeliver
      refine ⟨fun name hname => ?_, fun name hname r hr => ?_, fun r hr => ?_⟩
      · have hfree := hinv.free name hname
        refine ⟨hfree.accounts, fun r hr => ?_, hfree.repoLogs⟩
        rcases List.mem_append.mp hr with hr | hr
        · exact hfree.catalog r hr
        · rw [List.mem_singleton.mp hr]
          exact hinv.pending name hname row (List.mem_of_getElem? hrow)
      · exact hinv.pending name hname r (List.mem_of_mem_eraseIdx hr)
      · exact hinv.minted r (hperm.mem_iff.mp hr)
  | other tsNs principal action details =>
      obtain rfl := Option.some.inj hb
      refine ⟨fun name hname => ?_, fun name hname r hr => ?_, fun r hr => ?_⟩
      · have hfree := hinv.free name hname
        refine ⟨hfree.accounts, fun r hr => ?_, hfree.repoLogs⟩
        rcases List.mem_append.mp hr with hr | hr
        · exact hfree.catalog r hr
        · rw [List.mem_singleton.mp hr]
          rintro (hactor | hnamed)
          · have hsame : principal = name := hactor
            exact hallowed (hsame ▸ hname)
          · cases hnamed
      · simp only [Lib.Outbox.post, List.append_nil] at hr
        exact hinv.pending name hname r hr
      · rcases List.mem_append.mp ((Lib.Outbox.post_all _ _ _).mem_iff.mp hr) with hr | hr
        · exact hinv.minted r hr
        · rw [List.append_nil] at hr
          rw [List.mem_singleton.mp hr]
          intro tokenId minted role hdetails
          cases hdetails
  | crash =>
      rw [Books.step, Option.map_eq_some_iff] at hb
      obtain ⟨s', -, rfl⟩ := hb
      refine ⟨fun name hname => ?_, fun name hname r hr => absurd hr List.not_mem_nil,
        fun r hr => ?_⟩
      · have hfree := hinv.free name hname
        exact ⟨hfree.accounts, hfree.catalog, hfree.repoLogs⟩
      · rcases List.mem_append.mp hr with hr | hr
        · exact hinv.minted r (List.mem_append_left _ hr)
        · exact absurd hr List.not_mem_nil

theorem inv_of_reach {e : Erasure Id} (h : Reach e) : e.Inv :=
  Lib.Reach.invariant (I := Inv) (fun _ hstart => inv_start hstart)
    (fun _ _ _ _ hinv hallowed hstep => inv_step hinv hallowed hstep) h

/-- In a run whose deletions are clean, an erased name is free, and a deletion
changes nothing but what carries the name. -/
theorem erased_free {e : Erasure Id} (h : Reach e) :
    (∀ name ∈ e.erased, e.books.Free name) ∧
      ∀ call pseudo name accounts, ∀ row : Option (AuditEntry Id),
        e.Allowed (.account call pseudo) →
        call.request = .deletePrincipal name →
        e.books.accounts.handleAudited call pseudo = .ok (accounts, row) →
        e.books.Erases name pseudo (e.books.accountStep call pseudo) := by
  have hinv := inv_of_reach h
  refine ⟨hinv.free, fun call pseudo name accounts row hallowed hrequest hok => ?_⟩
  obtain ⟨auth, hauth, -, -⟩ := Accounts.handleAudited_ok hok
  exact (hallowed name auth hrequest hauth).erases hinv hrequest hauth hok

end Erasure

end

/-! ### A grant that outlives its principal -/

namespace Erasure

namespace Bob

/-- One repository, an admin and bob. -/
def start : Erasure PlainId where
  books :=
    { server := Server.boot .singleDb [(1, "r")] 100 10
      accounts := ⟨[(1, "r")], [⟨"admin", .admin, 90⟩, ⟨"bob", .reader, 91⟩],
        [⟨1, "admin", [1], none, none, false⟩, ⟨2, "bob", [2], none, none, false⟩], []⟩
      catalog := ⟨[⟨90, "admin", .other "init" "\x7b\x7d"⟩], []⟩
      repoLogs := fun _ => []
      history := [] }
  erased := []

def grant : BooksEvent PlainId := .account ⟨92, [1], .setAccess "r" ⟨"bob", true, false⟩⟩ ""

def delete : AccountCall := ⟨93, [1], .deletePrincipal "bob"⟩

def pseudo : String := "deleted:0123456789abcdef"

theorem start_start : start.Start :=
  ⟨⟨⟨.singleDb, [(1, "r")], 100, 10, by decide, rfl⟩, rfl, rfl, rfl⟩, rfl⟩

/-- The same start with eve, and a row of bob's in the log. -/
def startTwo : Erasure PlainId :=
  { start with
    books :=
      { start.books with
        accounts :=
          ⟨[(1, "r")], [⟨"admin", .admin, 90⟩, ⟨"bob", .reader, 91⟩, ⟨"eve", .reader, 91⟩],
            [⟨1, "admin", [1], none, none, false⟩, ⟨2, "bob", [2], none, none, false⟩,
              ⟨3, "eve", [3], none, none, false⟩], []⟩
        catalog := ⟨[⟨90, "admin", .other "init" "\x7b\x7d"⟩, ⟨91, "bob", .other "import" "\x7b\x7d"⟩],
          []⟩ } }

def bobErased : Erasure PlainId := (step startTwo (.account delete pseudo)).getD startTwo

def deleteEve : AccountCall := ⟨94, [1], .deletePrincipal "eve"⟩

def pseudoEve : String := "deleted:fedcba9876543210"

theorem startTwo_start : startTwo.Start :=
  ⟨⟨⟨.singleDb, [(1, "r")], 100, 10, by decide, rfl⟩, rfl, rfl, rfl⟩, rfl⟩

/-- An admin's deletion of another name, where no grant and no row keeps it. -/
theorem delete_allowed {e : Erasure PlainId} {call : AccountCall} {name pseudo : String}
    (hcall : call.request = .deletePrincipal name)
    (hadmin : e.books.accounts.authenticate call.nowNs call.bearer =
      (.ok ⟨"admin", .admin, none⟩ : Except (ApiError Empty) AuthedPrincipal))
    (hclean : e.Clean ⟨"admin", .admin, none⟩ name pseudo) : e.Allowed (.account call pseudo) := by
  intro name' auth hrequest hauth
  obtain rfl := AccountRequest.deletePrincipal.inj (hcall.symm.trans hrequest)
  obtain rfl := Except.ok.inj (hadmin.symm.trans hauth)
  exact hclean

end Bob

open Bob in
/-- Bob's deletion frees his name, his row in the log included, and one of eve
after it changes what carries hers. -/
theorem erased_free_bob : ∃ e, Lib.exec step startTwo [.account delete pseudo] = some e ∧
    e.erased = ["bob"] ∧ e.books.Free "bob" ∧
      e.books.Erases "eve" pseudoEve (e.books.accountStep deleteEve pseudoEve) := by
  have hclean : startTwo.Clean ⟨"admin", .admin, none⟩ "bob" pseudo :=
    ⟨fun _ hrow => absurd hrow List.not_mem_nil, by decide, by decide,
      fun _ hrow => absurd hrow List.not_mem_nil, fun _ _ hrow => absurd hrow List.not_mem_nil,
      by decide⟩
  have hreach : Reach bobErased :=
    .next (.start startTwo_start) (delete_allowed rfl rfl hclean) rfl
  obtain ⟨hfree, herases⟩ := erased_free hreach
  have hnext : bobErased.Clean ⟨"admin", .admin, none⟩ "eve" pseudoEve :=
    ⟨fun _ hrow => absurd hrow List.not_mem_nil, by decide, by decide +kernel,
      fun _ hrow => absurd hrow List.not_mem_nil, fun _ _ hrow => absurd hrow List.not_mem_nil,
      by decide⟩
  exact ⟨_, rfl, rfl, hfree "bob" List.mem_cons_self,
    herases deleteEve pseudoEve "eve" _ _ (delete_allowed rfl rfl hnext) rfl rfl⟩

open Bob in
/-- Deleted with a grant, bob still stands in the table of grants. -/
theorem grant_outlives : ¬ ∀ e : Erasure PlainId,
    Lib.Reach Start step (fun _ _ => True) e → ∀ name ∈ e.erased, e.books.Free name := by
  intro hall
  have hrun : (Lib.exec step start [grant, .account delete pseudo]).any (fun e =>
      decide ("bob" ∈ e.erased) &&
        e.books.accounts.access.any (fun row => decide (row.principal = "bob"))) = true := by
    decide +kernel
  obtain ⟨e, he, hholds⟩ := (Option.any_eq_true _ _).mp hrun
  obtain ⟨herased, hgrant⟩ := Bool.and_eq_true_iff.mp hholds
  obtain ⟨row, hrow, hname⟩ := List.any_eq_true.mp hgrant
  have hreach := Lib.Reach.exec (.start start_start) (fun _ _ _ => trivial) he
  exact (hall e hreach "bob" (of_decide_eq_true herased)).accounts.access row hrow
    (of_decide_eq_true hname)

end Erasure

end Naatre
