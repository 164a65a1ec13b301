import Naatre.Core.Plain
import Naatre.Server.ServeSteps
import Naatre.Server.TicketRoutes
import Naatre.Server.TierSteps

/-!
What a cache ticket is good for: the routes that answer it beyond its own, and
the fetch by which the read tier leaves the ticket's tree.
-/

namespace Naatre

section

variable {Id : Type} [Platform Id]

/-! ### The clock -/

/-- No step turns the clock back. -/
theorem Server.step_nowNs_le {s s' : Server Id} {e : Event Id} (h : s.step e = some s') :
    s.nowNs ≤ s'.nowNs := by
  cases step_cases h with
  | tick ns => exact Nat.le_add_right _ _
  | sgcStep i pass => exact (sgcPassStep_frame s pass).nowNs.ge
  | gcStep pass => exact (gcPassStep_frame s pass).nowNs.ge
  | _ => exact le_rfl

namespace Origin

theorem Later.nowNs_le {o o' : Origin Id} (h : o.Later o') : o.server.nowNs ≤ o'.server.nowNs := by
  induction h with
  | refl => exact le_rfl
  | tail _ hstep ih =>
      obtain ⟨e, -, he⟩ := hstep
      refine ih.trans ?_
      cases e with
      | account call =>
          simp only [step] at he
          split at he <;> cases he <;> exact le_rfl
      | server e =>
          obtain ⟨s, hs, rfl⟩ := Option.map_eq_some_iff.mp he
          exact Server.step_nowNs_le hs
      | meanwhile => cases he; exact le_rfl

end Origin

/-! ### Gates -/

/-- What a gate answers a ticket. -/
def RouteGate.refusal : RouteGate → ApiError Id
  | .read _ | .write _ => Accounts.ticketRefused
  | .role _ => Accounts.roleRefused

omit [Platform Id] in
/-- Every gate in front of a handler refuses a ticket, whatever the state. -/
theorem Route.check_ticket (s : Accounts) (principal : String) (route : Route Id) :
    ∀ gate ∈ route.gates,
      gate.check s ⟨principal, .ticket, none⟩ = (.error gate.refusal : Except (ApiError Id) Unit) := by
  have hrole : ∀ min, Role.atLeast .ticket min = false →
      RouteGate.check s ⟨principal, .ticket, none⟩ (.role min) =
        (.error Accounts.roleRefused : Except (ApiError Id) Unit) := by
    intro min hmin
    rw [RouteGate.check, Accounts.requireRole, hmin]
    rfl
  intro gate hgate
  cases gate with
  | read repo => rfl
  | write repo => rfl
  | role min =>
      refine hrole min ?_
      cases route <;> simp [Route.gates] at hgate <;> subst hgate <;> rfl

omit [Platform Id] in
/-- A handler behind a gate answers a ticket its first gate's refusal. -/
theorem Route.gated_answer (s : Accounts) (principal : String) {route : Route Id}
    {gate : RouteGate} {rest : List RouteGate} (hgates : route.gates = gate :: rest) {β : Type}
    (handler : Unit → Except (ApiError Id) β) :
    (route.gates.forM (RouteGate.check s ⟨principal, .ticket, none⟩) >>= handler) =
      .error gate.refusal := by
  have hcheck := route.check_ticket s principal gate (hgates ▸ List.mem_cons_self)
  rw [hgates]
  change ((gate.check s ⟨principal, .ticket, none⟩ >>= fun _ =>
    rest.forM (RouteGate.check s ⟨principal, .ticket, none⟩)) >>= handler) = _
  rw [hcheck]
  rfl

/-! ### What a ticket obtains -/

/-- The routes that ask for no role, and a land. -/
def TicketCall.Open (call : TicketCall Id) : Prop :=
  call.malformed = none ∧
    match call.route with
    | .reposList limit _ => (parseLimit limit : Except (ApiError Id) ℕ).isOk = true
    | .whoami | .openapi | .land _ _ _ _ _ => True
    | _ => False

namespace Origin

variable {α : Type}

/-- What the ticket's own repository and tree hold. -/
def Confined (o : Origin Id) (t : Ticket Id) : TicketBody Id α → Prop
  | .epoch n => ∃ r, o.server.repoIdByName t.repo = some r ∧ n = tombstoneEpoch (o.server.dbs r)
  | .membership n ids => ∃ r, o.server.repoIdByName t.repo = some r ∧
      n = tombstoneEpoch (o.server.dbs r) ∧ ids = cacheMembership (o.server.cx r) t.rootTree
  | .object bytes => ∃ r id, o.server.repoIdByName t.repo = some r ∧
      id ∈ (o.server.dbs r).repoBlobs ∧ redactionActive (o.server.dbs r) id = false ∧
        casGet o.server.cas id = some bytes
  | _ => False

theorem membership_confined {o : Origin Id} {t : Ticket Id} {repo : String} {tree : Id} {n : ℕ}
    {ids : List Id} (h : o.membership t repo tree = .ok (n, ids)) :
    o.Confined t (.membership n ids : TicketBody Id α) := by
  unfold membership at h
  split_ifs at h
  simp only [Server.membership, Lib.bind_eq_ok] at h
  obtain ⟨-, -, r, hr, h⟩ := h
  obtain ⟨rfl, rfl⟩ := Prod.mk.inj (Except.ok.inj h)
  exact ⟨r, Server.repoIdOr404_ok hr, rfl, rfl⟩

theorem epoch_confined {o : Origin Id} {t : Ticket Id} {repo : String} {n : ℕ}
    (h : o.epoch t repo = .ok n) : o.Confined t (.epoch n : TicketBody Id α) := by
  unfold epoch at h
  split_ifs at h
  simp only [Server.epoch, Lib.bind_eq_ok] at h
  obtain ⟨-, -, r, hr, h⟩ := h
  exact ⟨r, Server.repoIdOr404_ok hr, (Except.ok.inj h).symm⟩

theorem getRawTicket_confined {o : Origin Id} {t : Ticket Id} {repo : String} {id : Id}
    {bytes : Bytes} (h : o.server.getRawTicket t repo id = .ok bytes) :
    o.Confined t (.object bytes : TicketBody Id α) := by
  unfold Server.getRawTicket at h
  rw [Lib.bind_eq_ok] at h
  obtain ⟨-, -, h⟩ := h
  split_ifs at h with hrepo
  rw [Lib.bind_eq_ok] at h
  obtain ⟨r, hr, h⟩ := h
  split_ifs at h
  obtain ⟨hfree, hmember, hbytes⟩ := getRaw_ok h
  rw [← not_not.mp hrepo] at hr
  exact ⟨r, id, Server.repoIdOr404_ok hr, hmember, hfree, hbytes⟩

/-- A ticket that is answered verified, and what it obtained is its own or came
from one of the open routes. -/
theorem answer_ok {behind : AuthedPrincipal → Route Id → Origin Id → Except (ApiError Id) α}
    {o : Origin Id} {p : Presented Id} {call : TicketCall Id} {body : TicketBody Id α}
    (h : o.answer behind p call = .ok body) :
    o.authenticateTicket p = .ok () ∧ (call.Open ∨ o.Confined p.claims body) := by
  unfold answer at h
  rw [Lib.bind_eq_ok] at h
  obtain ⟨⟨⟩, hauth, h⟩ := h
  refine ⟨hauth, ?_⟩
  obtain ⟨route, malformed⟩ := call
  cases malformed with
  | some e => cases h
  | none =>
      cases route with
      | reposList limit after =>
          refine .inl ⟨rfl, ?_⟩
          simp only [Lib.map_eq_ok, Accounts.listRepos, Lib.bind_eq_ok] at h
          obtain ⟨page, ⟨n, hlimit, -⟩, -⟩ := h
          simp only [hlimit]
          rfl
      | whoami => exact .inl ⟨rfl, trivial⟩
      | openapi => exact .inl ⟨rfl, trivial⟩
      | land => exact .inl ⟨rfl, trivial⟩
      | membership repo tree =>
          simp only [Lib.map_eq_ok] at h
          obtain ⟨⟨n, ids⟩, hmembership, rfl⟩ := h
          exact .inr (membership_confined hmembership)
      | epoch repo =>
          simp only [Lib.map_eq_ok] at h
          obtain ⟨n, hepoch, rfl⟩ := h
          exact .inr (epoch_confined hepoch)
      | getRaw repo id =>
          simp only [Lib.map_eq_ok] at h
          obtain ⟨bytes, hraw, rfl⟩ := h
          exact .inr (getRawTicket_confined hraw)
      | _ =>
          simp only at h
          rw [Route.gated_answer _ _ rfl] at h
          cases h

/-! ### Minting -/

/-- The mint's answer to a request with a bearer token; the key that signs is on
the verify list. -/
structure Minted (o : Origin Id) (p : Presented Id) where
  bearer : Bytes
  auth : AuthedPrincipal
  repo : String
  rootTree : Id
  ttlSecs : Option ℕ
  keys : List VerifyKey
  bearer_ok : o.accounts.authenticate o.server.nowNs bearer =
    (.ok auth : Except (ApiError Id) AuthedPrincipal)
  mint_ok : o.server.mint o.accounts true auth repo rootTree ttlSecs = .ok p.claims
  verify_eq : o.verify = some keys
  signed : ∃ key ∈ keys, key.id = p.keyId

/-- The principal's role or grant lets it read the repository. -/
def CouldRead (s : Accounts) (principal repo : String) : Prop :=
  ∃ r role, s.repoIdByName repo = some r ∧
    (∃ row ∈ s.principals, row.name = principal ∧ row.role = role) ∧
      (role = .admin ∨ s.accessIsPrivate r = false ∨
        (s.accessRow r principal).any (fun row => row.read) = true)

omit [Platform Id] in
/-- A bearer token stands for a principal of its role. -/
theorem authenticate_principal {s : Accounts} {nowNs : ℕ} {bearer : Bytes} {auth : AuthedPrincipal}
    (h : s.authenticate nowNs bearer = (.ok auth : Except (ApiError Id) AuthedPrincipal)) :
    ∃ row ∈ s.principals, row.name = auth.principal ∧ row.role = auth.role := by
  unfold Accounts.authenticate at h
  split at h
  · cases h
  next token role hlookup =>
    split_ifs at h
    cases h
    rw [Accounts.authLookup, Option.bind_eq_some_iff] at hlookup
    obtain ⟨token', -, hmap⟩ := hlookup
    rw [Option.map_eq_some_iff] at hmap
    obtain ⟨row, hrow, heq⟩ := hmap
    obtain ⟨rfl, rfl⟩ := Prod.mk.inj heq
    exact ⟨row, List.mem_of_find?_eq_some hrow, by simpa using List.find?_some hrow, rfl⟩

omit [Platform Id] in
theorem repoReadGate_couldRead {s : Accounts} {auth : AuthedPrincipal} {repo : String}
    (hgate : s.repoReadGate auth repo = (.ok () : Except (ApiError Id) Unit))
    (hrow : ∃ row ∈ s.principals, row.name = auth.principal ∧ row.role = auth.role) :
    CouldRead s auth.principal repo := by
  unfold Accounts.repoReadGate at hgate
  by_cases hticket : auth.role = .ticket
  · rw [if_pos hticket] at hgate
    cases hgate
  rw [if_neg hticket, Lib.bind_eq_ok] at hgate
  obtain ⟨r, hr, hgate⟩ := hgate
  have hid : s.repoIdByName repo = some r := by
    unfold Accounts.repoIdOr404 at hr
    split at hr
    next id hid => rw [hid, Except.ok.inj hr]
    · cases hr
  refine ⟨r, auth.role, hid, hrow, ?_⟩
  split_ifs at hgate with hadmin hprivate hread
  · exact .inl hadmin
  · exact .inr (.inl (by simpa using hprivate))
  · exact .inr (.inr hread)

/-- The claims of a minted ticket. -/
theorem Minted.claims {o : Origin Id} {p : Presented Id} (h : o.Minted p) :
    p.claims.iat = o.server.nowNs ∧
      p.claims.exp ≤ min (o.server.nowNs + ticketMaxLifetimeSecs * nsPerSec) (2 ^ 64 - 1) ∧
        CouldRead o.accounts p.claims.principal p.claims.repo := by
  have hmint := h.mint_ok
  unfold Server.mint at hmint
  rw [Lib.bind_eq_ok] at hmint
  obtain ⟨⟨⟩, -, hmint⟩ := hmint
  rw [Lib.bind_eq_ok] at hmint
  obtain ⟨⟨⟩, hgate, hmint⟩ := hmint
  simp only at hmint
  by_cases httl : ticketMaxLifetimeSecs < h.ttlSecs.getD ticketDefaultLifetimeSecs
  · rw [if_pos httl] at hmint
    cases hmint
  rw [if_neg httl, Lib.bind_eq_ok] at hmint
  obtain ⟨r, -, hmint⟩ := hmint
  split_ifs at hmint
  rw [← Except.ok.inj hmint]
  refine ⟨rfl, ?_, repoReadGate_couldRead hgate (authenticate_principal h.bearer_ok)⟩
  have hle : h.ttlSecs.getD ticketDefaultLifetimeSecs * nsPerSec ≤
      ticketMaxLifetimeSecs * nsPerSec := Nat.mul_le_mul_right _ (Nat.le_of_not_lt httl)
  simp only [saturatingAdd]
  omega

omit [Platform Id] in
/-- A ticket verifies only before its end. -/
theorem verifyTicket_ok {t : Ticket Id} {nowNs : ℕ} (h : verifyTicket t nowNs = .ok ()) :
    nowNs < t.exp := by
  unfold verifyTicket at h
  split_ifs at h with _ _ _ hexp
  exact Nat.lt_of_not_le hexp

theorem authenticateTicket_ok {o : Origin Id} {p : Presented Id}
    (h : o.authenticateTicket p = .ok ()) : o.server.nowNs < p.claims.exp := by
  unfold authenticateTicket at h
  split at h
  · cases h
  split_ifs at h
  rw [Server.authenticateTicket] at h
  split at h
  next hverify => exact verifyTicket_ok hverify
  · cases h
  · cases h

/-- Where it was minted, a ticket that lasts at all verifies. -/
theorem Minted.verifies {o : Origin Id} {p : Presented Id} (h : o.Minted p)
    (hlive : o.server.nowNs < p.claims.exp) : o.authenticateTicket p = .ok () := by
  obtain ⟨hiat, hexp, -⟩ := h.claims
  obtain ⟨key, hkey, hid⟩ := h.signed
  have hsigned : (h.keys.any fun key => decide (key.id = p.keyId)) = true :=
    List.any_eq_true.mpr ⟨key, hkey, decide_eq_true hid⟩
  have hverify : verifyTicket p.claims o.server.nowNs = .ok () := by
    rw [verifyTicket, if_neg (by omega), if_neg, if_neg, if_neg (by omega)]
    · rw [saturatingAdd]
      omega
    · rw [saturatingAdd, hiat]
      omega
  rw [authenticateTicket, h.verify_eq]
  simp only [hsigned, if_true, Server.authenticateTicket, hverify]

/-! ### Two states -/

/-- Two repositories with the same tables, bytes and tree. -/
structure SameRepo (cx cx' : RepoCx Id) (tree : Id) : Prop where
  name : cx.name = cx'.name
  db : cx.db = cx'.db
  tree : closureBlobs cx.trees tree = closureBlobs cx'.trees tree
  bytes : ∀ id ∈ cx.db.repoBlobs, casGet cx.cas id = casGet cx'.cas id

theorem SameRepo.getRaw {cx cx' : RepoCx Id} {tree : Id} (h : SameRepo cx cx' tree) (id : Id) :
    getRaw cx id = getRaw cx' id := by
  rw [Naatre.getRaw, Naatre.getRaw, ← h.db, ← h.name]
  split_ifs with _ hmember
  · rfl
  · rw [h.bytes id hmember]
  · rfl

/-- Two states agree on the clock, the verify keys and a ticket's repository. -/
structure Agree (o o' : Origin Id) (t : Ticket Id) : Prop where
  nowNs : o.server.nowNs = o'.server.nowNs
  verify : o.verify = o'.verify
  repo : (o.server.repoIdByName t.repo = none ∧ o'.server.repoIdByName t.repo = none) ∨
    ∃ r r', o.server.repoIdByName t.repo = some r ∧ o'.server.repoIdByName t.repo = some r' ∧
      SameRepo (o.server.cx r) (o'.server.cx r') t.rootTree

variable {o o' : Origin Id} {p : Presented Id}

theorem Agree.claims {t : Ticket Id} (h : Agree o o' t) :
    o.server.authenticateTicket t = o'.server.authenticateTicket t := by
  rw [Server.authenticateTicket, h.nowNs, Server.authenticateTicket]

theorem Agree.authenticates (h : Agree o o' p.claims) :
    o.authenticateTicket p = o'.authenticateTicket p := by
  rw [authenticateTicket, h.verify, h.claims, authenticateTicket]

/-- A read of the ticket's repository answers alike. -/
theorem Agree.bind {t : Ticket Id} (h : Agree o o' t) {β : Type}
    {f f' : RepoId → Except (ApiError Id) β}
    (hf : ∀ r r', SameRepo (o.server.cx r) (o'.server.cx r') t.rootTree → f r = f' r') :
    (o.server.repoIdOr404 t.repo >>= f) = (o'.server.repoIdOr404 t.repo >>= f') := by
  rw [Server.repoIdOr404, Server.repoIdOr404]
  rcases h.repo with ⟨hnone, hnone'⟩ | ⟨r, r', hr, hr', hsame⟩
  · rw [hnone, hnone']
    rfl
  · rw [hr, hr']
    exact hf r r' hsame

theorem Agree.membership {t : Ticket Id} (h : Agree o o' t) (repo : String) (tree : Id) :
    o.membership t repo tree = o'.membership t repo tree := by
  rw [Origin.membership, Origin.membership, Server.membership, Server.membership, h.claims]
  split_ifs
  · rfl
  · rfl
  · refine bind_congr fun _ => h.bind fun r r' hsame => ?_
    have hdb : o.server.dbs r = o'.server.dbs r' := hsame.db
    rw [hdb, cacheMembership, cacheMembership, hsame.tree, hsame.db]

theorem Agree.epoch {t : Ticket Id} (h : Agree o o' t) (repo : String) :
    o.epoch t repo = o'.epoch t repo := by
  rw [Origin.epoch, Origin.epoch, Server.epoch, Server.epoch, h.claims]
  split_ifs
  · rfl
  · refine bind_congr fun _ => h.bind fun r r' hsame => ?_
    have hdb : o.server.dbs r = o'.server.dbs r' := hsame.db
    rw [hdb]

theorem Agree.getRawTicket {t : Ticket Id} (h : Agree o o' t) (repo : String) (id : Id) :
    o.server.getRawTicket t repo id = o'.server.getRawTicket t repo id := by
  rw [Server.getRawTicket, Server.getRawTicket, h.claims]
  refine bind_congr fun _ => ?_
  by_cases hrepo : t.repo ≠ repo
  · rw [if_pos hrepo, if_pos hrepo]
  · rw [if_neg hrepo, if_neg hrepo]
    have hname : t.repo = repo := not_not.mp hrepo
    subst hname
    refine h.bind fun r r' hsame => ?_
    have hdb : o.server.dbs r = o'.server.dbs r' := hsame.db
    rw [hdb, hsame.getRaw]

/-- Past the open routes, what a ticket is answered does not depend on any other
repository. -/
theorem Agree.answer {behind : AuthedPrincipal → Route Id → Origin Id → Except (ApiError Id) α}
    {call : TicketCall Id} (h : Agree o o' p.claims) (hopen : ¬ call.Open) :
    o.answer behind p call = o'.answer behind p call := by
  rw [Origin.answer, Origin.answer, h.authenticates]
  refine bind_congr fun _ => ?_
  obtain ⟨route, malformed⟩ := call
  cases malformed with
  | some e => rfl
  | none =>
      cases route with
      | reposList limit after =>
          cases hlimit : (parseLimit limit : Except (ApiError Id) ℕ) with
          | ok n => exact absurd ⟨rfl, by simp only [hlimit]; rfl⟩ hopen
          | error e =>
              simp only [Accounts.listRepos, hlimit]
              rfl
      | whoami => exact absurd ⟨rfl, trivial⟩ hopen
      | openapi => exact absurd ⟨rfl, trivial⟩ hopen
      | land => exact absurd ⟨rfl, trivial⟩ hopen
      | membership repo tree => simp only [h.membership]
      | epoch repo => simp only [h.epoch]
      | getRaw repo id => simp only [h.getRawTicket]
      | _ =>
          simp only
          rw [Route.gated_answer _ _ rfl, Route.gated_answer _ _ rfl]

/-! ### Confinement at the origin -/

/-- A request with a ticket minted at `o₀`: what it obtains at any later state of
any run, and that no other repository shows. -/
structure TicketConfined
    (behind : AuthedPrincipal → Route Id → Origin Id → Except (ApiError Id) α) (o₀ : Origin Id)
    (p : Presented Id) (call : TicketCall Id) : Prop where
  only : ∀ o, o₀.Later o → ∀ body, o.answer behind p call = .ok body →
    o.server.nowNs < o₀.server.nowNs + ticketMaxLifetimeSecs * nsPerSec ∧
      CouldRead o₀.accounts p.claims.principal p.claims.repo ∧ o.Confined p.claims body
  alike : ∀ o o', o₀.server.nowNs ≤ o.server.nowNs → Agree o o' p.claims →
    o.answer behind p call = o'.answer behind p call

/-- An open route answers a ticket that verifies, at some state. -/
theorem Minted.open_answer
    (behind : AuthedPrincipal → Route Id → Origin Id → Except (ApiError Id) α) {o₀ : Origin Id}
    {call : TicketCall Id} (h : o₀.Minted p) (hlive : o₀.server.nowNs < p.claims.exp)
    (hopen : call.Open) :
    ∃ o body, o₀.Later o ∧ o.answer behind p call = .ok body ∧ ¬ o.Confined p.claims body := by
  have hverifies := h.verifies hlive
  obtain ⟨route, malformed⟩ := call
  obtain ⟨rfl, hroute⟩ := hopen
  cases route with
  | reposList limit after =>
      cases hlimit : (parseLimit limit : Except (ApiError Id) ℕ) with
      | error e => simp [hlimit, Except.isOk, Except.toBool] at hroute
      | ok n =>
          obtain ⟨page, hpage⟩ : ∃ page, o₀.accounts.listRepos ⟨p.claims.principal, .ticket, none⟩
              limit after = (.ok page : Except (ApiError Id) RepoListResponse) := by
            rw [Accounts.listRepos, hlimit]
            exact ⟨_, rfl⟩
          refine ⟨o₀, .repos page, .refl, ?_, fun hconfined => hconfined⟩
          rw [answer, hverifies]
          simp only [bind, Except.bind, hpage]
          rfl
  | whoami =>
      exact ⟨o₀, .whoami ⟨p.claims.principal, .ticket, none⟩, .refl,
        by rw [answer, hverifies]; rfl, fun hconfined => hconfined⟩
  | openapi =>
      exact ⟨o₀, .openapi, .refl, by rw [answer, hverifies]; rfl, fun hconfined => hconfined⟩
  | land repo key head baseHint recordConflict =>
      -- a land of the principal is in flight under the same key
      let join : LandJoin Id :=
        ⟨repo, p.claims.principal, key, head, some (.ok ⟨head, head, 0, none, []⟩)⟩
      let o : Origin Id := { o₀ with joins := [join] }
      have hminted : o.Minted p := { h with }
      refine ⟨o, .landed ⟨head, head, 0, none, []⟩,
        .single ⟨.meanwhile o₀.verify [join] o₀.busy, trivial, rfl⟩, ?_, fun hconfined => hconfined⟩
      rw [answer, hminted.verifies hlive]
      simp [o, join, land, joinInFlight, bind, Except.bind, Except.map]
  | _ => exact absurd hroute id

theorem ticketConfined_iff
    {behind : AuthedPrincipal → Route Id → Origin Id → Except (ApiError Id) α} {o₀ : Origin Id}
    (h : o₀.Minted p) (call : TicketCall Id) :
    TicketConfined behind o₀ p call ↔ ¬ (call.Open ∧ o₀.server.nowNs < p.claims.exp) := by
  obtain ⟨-, hexp, hread⟩ := h.claims
  constructor
  · rintro hconfined ⟨hopen, hlive⟩
    obtain ⟨o, body, hlater, hanswer, hleak⟩ := h.open_answer behind hlive hopen
    exact hleak (hconfined.only o hlater body hanswer).2.2
  · intro hclosed
    refine ⟨fun o hlater body hanswer => ?_, fun o o' hle hagree => ?_⟩
    · obtain ⟨hauth, hbody⟩ := answer_ok hanswer
      have hnow := authenticateTicket_ok hauth
      have hclock := hlater.nowNs_le
      refine ⟨by omega, hread, hbody.resolve_left fun hopen => hclosed ⟨hopen, by omega⟩⟩
    · by_cases hopen : call.Open
      · cases hauth : o'.authenticateTicket p with
        | error e => rw [answer, answer, hagree.authenticates, hauth]; rfl
        | ok _ =>
            have hnow := authenticateTicket_ok (hagree.authenticates.trans hauth)
            exact absurd ⟨hopen, by omega⟩ hclosed
      · exact hagree.answer hopen

end Origin

/-! ### Confinement at the tier -/

namespace Net

/-- A fetch passed through for an id outside the set just walked, which the
origin still serves. -/
def Stray (n : Net Id) : NetEvent Id → Prop
  | .step i _ => ∃ q r, n.requests[i]? = some q ∧ q.pc = .passthrough ∧
      n.origin.repoIdByName q.ticket.repo = some r ∧ q.id ∈ (n.origin.dbs r).repoBlobs ∧
        redactionActive (n.origin.dbs r) q.id = false
  | _ => False

/-- `blobs` was the membership set of a repository and a tree at some moment of
the run so far. -/
def Offered (n : Net Id) (key : String × Id) (blobs : List Id) : Prop :=
  ∃ m r, Lib.Later step (fun _ _ => True) m n ∧ m.origin.repoIdByName key.1 = some r ∧
    blobs = cacheMembership (m.origin.cx r) key.2

theorem Offered.later {n n' : Net Id} {e : NetEvent Id} (he : n.step e = some n')
    {key : String × Id} {blobs : List Id} (h : n.Offered key blobs) : n'.Offered key blobs := by
  obtain ⟨m, r, hlater, hr, hblobs⟩ := h
  exact ⟨m, r, hlater.tail ⟨e, trivial, he⟩, hr, hblobs⟩

/-- From the insert of its set on, a request's id lies in a set of its ticket. -/
def Scoped (n : Net Id) (q : TierRequest Id) : Prop :=
  match q.pc with
  | .insert snap _ => n.Offered q.key snap.blobs
  | .localRead | .originFetch | .store _ | .served _ =>
      ∃ blobs, n.Offered q.key blobs ∧ q.id ∈ blobs
  | _ => True

theorem Scoped.later {n n' : Net Id} {e : NetEvent Id} (he : n.step e = some n')
    {q : TierRequest Id} (h : n.Scoped q) : n'.Scoped q := by
  unfold Scoped at h ⊢
  split at h
  · exact h.later he
  iterate 4
    · obtain ⟨blobs, hoffered, hid⟩ := h
      exact ⟨blobs, hoffered.later he, hid⟩
  · trivial

/-- One step of a request that goes not astray keeps it in its ticket's sets, and
the map's. -/
theorem advanced_scoped {n : Net Id} {q q' : TierRequest Id} {tier : Tier Id}
    (h : Advanced n.origin n.tier q tier q')
    (hstray : q.pc = .passthrough → ∀ r, n.origin.repoIdByName q.ticket.repo = some r →
      q.id ∈ (n.origin.dbs r).repoBlobs → redactionActive (n.origin.dbs r) q.id = true)
    (hmap : ∀ e ∈ n.tier.membership, n.Offered e.1 e.2.blobs) (hq : n.Scoped q) :
    n.Scoped q' ∧ ∀ e ∈ tier.membership, n.Offered e.1 e.2.blobs := by
  unfold Scoped at hq
  cases h with
  | lookup pc hpc hto => rcases hto with rfl | rfl <;> exact ⟨trivial, hmap⟩
  | fetch r snap hpc hr hepoch hblobs => exact ⟨⟨n, r, .refl, hr, hblobs⟩, hmap⟩
  | refetch r snap hpc hr hepoch hblobs => exact ⟨⟨n, r, .refl, hr, hblobs⟩, hmap⟩
  | insert snap delegate map pc hpc hentries hto =>
      rw [hpc] at hq
      constructor
      · rcases hto with ⟨rfl, hid⟩ | ⟨rfl, -⟩ | rfl
        · exact ⟨snap.blobs, hq, hid⟩
        · trivial
        · trivial
      · intro e he
        rcases hentries e he with he | rfl
        · exact hmap e he
        · exact hq
  | recorded snap hpc hsnap => exact ⟨trivial, hmap⟩
  | probe recorded pc hpc hto => rcases hto with ⟨rfl, -⟩ | rfl <;> exact ⟨trivial, hmap⟩
  | compare recorded snap hpc hsnap hid =>
      exact ⟨⟨snap.blobs, hmap _ (Lib.mem_of_lookup hsnap), hid⟩, hmap⟩
  | panicked hpc hgone => exact ⟨trivial, hmap⟩
  | hit bytes hpc hid =>
      rw [hpc] at hq
      exact ⟨hq, hmap⟩
  | miss hpc =>
      rw [hpc] at hq
      exact ⟨hq, hmap⟩
  | originFetch bytes hpc hid =>
      rw [hpc] at hq
      exact ⟨hq, hmap⟩
  | store bytes cas hpc =>
      rw [hpc] at hq
      exact ⟨hq, hmap⟩
  | passthrough bytes hpc hid hraw =>
      obtain ⟨-, r, hr, hfree, hmember, -⟩ := Server.getRawTicket_ok hraw
      refine absurd ?_ hfree
      rw [Server.tombstones, hr]
      exact redactionActive_iff.mp (hstray hpc r hr hmember)
  | erase answer hpc => exact ⟨trivial, hmap⟩
  | erased answer cas hpc => exact ⟨trivial, hmap⟩
  | refused e => exact ⟨trivial, hmap⟩

structure ScopedNet (n : Net Id) : Prop where
  map : ∀ e ∈ n.tier.membership, n.Offered e.1 e.2.blobs
  requests : ∀ q ∈ n.requests, n.Scoped q

theorem scopedNet_step {n n' : Net Id} {e : NetEvent Id} (h : n.step e = some n')
    (hok : ¬ n.Stray e) (hn : ScopedNet n) : ScopedNet n' := by
  suffices hsame : (∀ e ∈ n'.tier.membership, n.Offered e.1 e.2.blobs) ∧
      ∀ q ∈ n'.requests, n.Scoped q from
    ⟨fun e he => (hsame.1 e he).later h, fun q hq => (hsame.2 q hq).later h⟩
  cases e with
  | origin e =>
      obtain ⟨s, hs, rfl⟩ := Option.map_eq_some_iff.mp h
      exact ⟨hn.map, hn.requests⟩
  | tick ns =>
      cases h
      exact ⟨hn.map, hn.requests⟩
  | start t id =>
      obtain rfl := Option.some.inj h
      unfold startStep
      split
      · exact ⟨hn.map, hn.requests⟩
      · refine ⟨hn.map, fun q hq => ?_⟩
        rcases List.mem_append.mp hq with hq | hq
        · exact hn.requests q hq
        · rw [List.mem_singleton.mp hq]
          trivial
  | step i turn =>
      simp only [step, requestStep, Option.bind_eq_bind, Option.bind_eq_some_iff] at h
      obtain ⟨q, hq, ⟨tier, q'⟩, hadvance, h⟩ := h
      obtain rfl := Option.some.inj h
      have hmem : q ∈ n.requests := List.mem_of_getElem? hq
      have hstray : q.pc = .passthrough → ∀ r, n.origin.repoIdByName q.ticket.repo = some r →
          q.id ∈ (n.origin.dbs r).repoBlobs → redactionActive (n.origin.dbs r) q.id = true := by
        intro hpc r hr hmember
        by_contra hfree
        exact hok ⟨q, r, hq, hpc, hr, hmember, by simpa using hfree⟩
      obtain ⟨hq', hmap⟩ :=
        advanced_scoped (advance_cases hadvance) hstray hn.map (hn.requests q hmem)
      refine ⟨hmap, fun x hx => ?_⟩
      rcases List.mem_or_eq_of_mem_set hx with hx | rfl
      · exact hn.requests x hx
      · exact hq'
  | restart =>
      cases h
      exact ⟨fun _ he => absurd he List.not_mem_nil, fun _ hq => absurd hq List.not_mem_nil⟩

/-- In a run where no fetch goes astray, the tier serves a ticket only what a
membership set of its repository and tree held. -/
theorem scoped_of_reach {n : Net Id} (h : Reach (fun n e => ¬ n.Stray e) n) :
    ∀ q ∈ n.requests, ∀ bytes, q.pc = .served bytes →
      ∃ blobs, n.Offered (q.ticket.repo, q.ticket.rootTree) blobs ∧ q.id ∈ blobs := by
  have hn : ScopedNet n := by
    refine Lib.Reach.invariant (I := ScopedNet) ?_ (fun n e n' _ hn hok he => ?_) h
    · rintro n ⟨-, hmembership, hrequests⟩
      constructor
      · rw [hmembership]
        exact fun _ he => absurd he List.not_mem_nil
      · rw [hrequests]
        exact fun _ hq => absurd hq List.not_mem_nil
    · exact scopedNet_step he hok hn
  intro q hq bytes hpc
  have hscoped := hn.requests q hq
  unfold Scoped at hscoped
  rw [hpc] at hscoped
  exact hscoped

/-- The tier takes a ticket up only before its end. -/
theorem startStep_live {n : Net Id} {t : Ticket Id} {id : Id} (h : n.startStep t id ≠ n) :
    n.tier.nowNs < t.exp := by
  unfold startStep at h
  split at h
  · exact absurd rfl h
  next hverify => exact Origin.verifyTicket_ok hverify

end Net

/-- A ticket is confined to its repository and tree on every request but those
of the open routes while it lasts; and a tier serves it within a membership set
of theirs in every run where no fetch goes astray, and takes it up only before
15 minutes are over. -/
theorem ticket_confined_iff {α : Type}
    {behind : AuthedPrincipal → Route Id → Origin Id → Except (ApiError Id) α} {o₀ : Origin Id}
    {p : Presented Id} (h : o₀.Minted p) :
    (∀ call, Origin.TicketConfined behind o₀ p call ↔
      ¬ (call.Open ∧ o₀.server.nowNs < p.claims.exp)) ∧
    (∀ n, Net.Reach (fun n e => ¬ n.Stray e) n → ∀ q ∈ n.requests, q.ticket = p.claims →
      ∀ bytes, q.pc = .served bytes →
        ∃ blobs, n.Offered (p.claims.repo, p.claims.rootTree) blobs ∧ q.id ∈ blobs) ∧
    (∀ n : Net Id, ∀ id, n.startStep p.claims id ≠ n →
      n.tier.nowNs < o₀.server.nowNs + ticketMaxLifetimeSecs * nsPerSec) := by
  refine ⟨fun call => Origin.ticketConfined_iff h call, fun n hn q hq hticket bytes hpc => ?_,
    fun n id hstart => ?_⟩
  · rw [← hticket]
    exact Net.scoped_of_reach hn q hq bytes hpc
  · have hlive := Net.startStep_live hstart
    have hexp := h.claims.2.1
    omega

end

namespace TicketRun

/-- Two public repositories, the first with a tree, and a reader. -/
def origin : Origin PlainId where
  server :=
    { Server.boot .singleDb [(1, "a"), (2, "b")] 1000 0 with
      dbs := fun r => if r = 1 then { RepoTables.empty with repoTrees := [[9]] } else .empty }
  accounts :=
    ⟨[(1, "a"), (2, "b")], [⟨"ann", .reader, 0⟩], [⟨1, "ann", [5], none, none, false⟩], []⟩
  verify := some [⟨"k", true⟩]
  joins := []
  busy := false

/-- A ticket of the reader's for the first one. -/
def ticket : Presented PlainId := ⟨⟨"ann", "a", [9], 1000, 600000001000⟩, "k"⟩

def minted : origin.Minted ticket where
  bearer := [5]
  auth := ⟨"ann", .reader, none⟩
  repo := "a"
  rootTree := [9]
  ttlSecs := none
  keys := [⟨"k", true⟩]
  bearer_ok := rfl
  mint_ok := by decide +kernel
  verify_eq := rfl
  signed := ⟨⟨"k", true⟩, List.mem_cons_self, rfl⟩

/-- Handlers that would answer anything. -/
def behind : AuthedPrincipal → Route PlainId → Origin PlainId → Except (ApiError PlainId) Unit :=
  fun _ _ _ => .ok ()

theorem ticket_confined_iff_land_status :
    Origin.TicketConfined behind origin ticket ⟨.landStatus "b", none⟩ :=
  ((ticket_confined_iff minted).1 _).mpr fun h => h.1.2

/-- The ticket for one repository lists the other. -/
theorem ticket_lists_repos : ∃ page,
    origin.answer behind ticket ⟨.reposList none 0, none⟩ = .ok (.repos page) ∧
      (2, "b") ∈ page.repos ∧
        ¬ Origin.TicketConfined behind origin ticket ⟨.reposList none 0, none⟩ := by
  refine ⟨⟨[(1, "a"), (2, "b")], none, false⟩, rfl, by decide, fun h => ?_⟩
  exact (h.only origin .refl (.repos ⟨[(1, "a"), (2, "b")], none, false⟩) rfl).2.2

end TicketRun

end Naatre
