import Naatre.Server.Tickets

/-!
The read tier (`cache_tier.rs`): its store, its membership snapshots and its
requests in flight, each step of which another request or the origin may come
before.
-/

namespace Naatre

section

variable (Id : Type)

structure MembershipSnapshot where
  /-- the tombstone epoch at walk time -/
  epoch : ℕ
  blobs : List Id
  fetchedNs : ℕ
  deriving DecidableEq

/-- The snapshots by repository name and root tree. -/
abbrev MembershipMap := List ((String × Id) × MembershipSnapshot Id)

/-- `CacheState`: the tier's clock, its own blobs and its snapshots. -/
structure Tier where
  nowNs : ℕ
  cas : List (Id × Bytes)
  membership : MembershipMap Id

/-- Where a request stands: its next step, or its answer. -/
inductive TierPc
  | lookup
  | fetch
  | insert (snap : MembershipSnapshot Id) (delegate : Bool)
  | recorded
  | probe (recorded : ℕ)
  | compare (recorded : ℕ)
  | refetch
  | localRead
  | originFetch
  | store (bytes : Bytes)
  | passthrough
  | erase (answer : ApiError Id)
  | served (bytes : Bytes)
  | refused (e : ApiError Id)
  /-- an `expect` on a snapshot that was not there -/
  | panicked

structure TierRequest where
  ticket : Ticket Id
  id : Id
  pc : TierPc Id
  /-- The ids tombstoned at the origin when the request probed its epoch or,
  without a standing snapshot, fetched the membership. No step reads it. -/
  seen : List Id

/-- The choices of a step that the tier does not make: whether the origin can be
reached, whether the local copy is sound, and the order of the map. -/
structure Turn where
  reachable : Bool
  sound : Bool
  iter : MembershipMap Id

/-- The origin and one tier. -/
structure Net [Platform Id] where
  origin : Server Id
  tier : Tier Id
  requests : List (TierRequest Id)

/-- One step of the origin or of the tier. -/
inductive NetEvent [Platform Id]
  | origin (e : Event Id)
  | tick (ns : ℕ)
  | start (t : Ticket Id) (id : Id)
  | step (i : ℕ) (turn : Turn Id)
  | restart

end

section

variable {Id : Type} [Platform Id]

def membershipTtlNs : ℕ := 3600 * nsPerSec

def membershipMaxEntries : ℕ := 256

/-- `bound_membership`, of the map in the order it is walked in. -/
def boundMembership (map : MembershipMap Id) (nowNs cap : ℕ) : MembershipMap Id :=
  let kept := map.filter (fun e => decide (nowNs - e.2.fetchedNs < membershipTtlNs))
  if kept.length ≤ cap then kept
  else
    let order := kept.insertionSort (fun a b => a.2.fetchedNs ≤ b.2.fetchedNs)
    let evicted := (order.take (kept.length - cap)).map (fun e => e.1)
    kept.filter (fun e => decide (e.1 ∉ evicted))

/-- `HashMap::insert`. -/
def mapInsert (map : MembershipMap Id) (key : String × Id) (snap : MembershipSnapshot Id) :
    MembershipMap Id :=
  map.filter (fun e => decide (e.1 ≠ key)) ++ [(key, snap)]

def TierRequest.key (q : TierRequest Id) : String × Id := (q.ticket.repo, q.ticket.rootTree)

/-- `OriginError::into_api_error`, of an answer the origin gave. -/
def envelopeError (e : ApiError Id) : ApiError Id :=
  match e.code with
  | .objectNotFound | .repoNotFound | .notFound => .new .objectNotFound e.message
  | .objectRedacted => .new .objectRedacted e.message
  | .tokenExpired => .new .tokenExpired e.message
  | .tokenInvalid => .new .tokenInvalid e.message
  | _ => .internal

/-- `OriginError::into_api_error`, where no answer came. -/
def transportError : ApiError Id :=
  { ApiError.new .originUnreachable
      "the origin could not be reached; the tier never serves un-revalidated bytes" with
    retryable := true }

/-- A call of the origin. -/
def Turn.call {α : Type} (turn : Turn Id) (answer : Except (ApiError Id) α) :
    Except (ApiError Id) α :=
  if turn.reachable then answer.mapError envelopeError else .error transportError

def outOfScope (id : Id) : ApiError Id :=
  .new .objectNotFound ("object " ++ Platform.toHex id ++ " is not in this ticket's scope")

/-- The ids tombstoned in a repository, in the order of their marks. -/
def Server.tombstones (s : Server Id) (repo : String) : List Id :=
  match s.repoIdByName repo with
  | some r => (s.dbs r).tombstoned
  | none => []

/-- `cas.get`, hash-verified. -/
def Tier.get (tier : Tier Id) (id : Id) : Option Bytes :=
  (casGet tier.cas id).filter (fun bytes => decide (Platform.blobId bytes = id))

/-- `get_object`, `scope_check` and what they call, one step of a request. -/
def TierRequest.advance (s : Server Id) (tier : Tier Id) (q : TierRequest Id) (turn : Turn Id) :
    Option (Tier Id × TierRequest Id) :=
  let goto := fun pc => some (tier, { q with pc := pc })
  match q.pc with
  | .lookup =>
      goto (if (tier.membership.lookup q.key).isSome then .recorded else .fetch)
  | .fetch =>
      match turn.call (s.membership q.ticket) with
      | .error e => goto (.refused e)
      | .ok (epoch, blobs) =>
          some (tier, { q with
            pc := .insert ⟨epoch, blobs, tier.nowNs⟩ false
            seen := s.tombstones q.ticket.repo })
  | .insert snap delegate =>
      if turn.iter.isPerm tier.membership then
        some
          ({ tier with
              membership := mapInsert
                (boundMembership turn.iter tier.nowNs membershipMaxEntries) q.key snap },
            { q with pc :=
                if q.id ∈ snap.blobs then .localRead
                else if delegate then .passthrough
                else .refused (outOfScope q.id) })
      else none
  | .recorded =>
      goto (match tier.membership.lookup q.key with
        | some snap => .probe snap.epoch
        | none => .panicked)
  | .probe recorded =>
      match turn.call (s.epoch q.ticket) with
      | .error e => goto (.refused e)
      | .ok current =>
          some (tier, { q with
            pc := if current = recorded then .compare recorded else .refetch
            seen := s.tombstones q.ticket.repo })
  | .compare _ =>
      goto (match tier.membership.lookup q.key with
        | some snap => if q.id ∈ snap.blobs then .localRead else .refused (outOfScope q.id)
        | none => .panicked)
  | .refetch =>
      match turn.call (s.membership q.ticket) with
      | .error e => goto (.refused e)
      | .ok (epoch, blobs) => goto (.insert ⟨epoch, blobs, tier.nowNs⟩ true)
  | .localRead =>
      goto (match (tier.get q.id).filter (fun _ => turn.sound) with
        | some bytes => .served bytes
        | none => .originFetch)
  | .originFetch =>
      goto (match turn.call (s.getRawTicket q.ticket q.ticket.repo q.id) with
        | .error e => .refused e
        | .ok bytes => if Platform.blobId bytes = q.id then .store bytes else .refused .internal)
  | .store bytes =>
      match casPut tier.cas bytes with
      | none => goto (.refused .internal)
      | some cas => some ({ tier with cas := cas }, { q with pc := .served bytes })
  | .passthrough =>
      goto (match turn.call (s.getRawTicket q.ticket q.ticket.repo q.id) with
        | .error e => if e.code = .objectRedacted then .erase e else .refused e
        | .ok bytes => if Platform.blobId bytes = q.id then .served bytes else .refused .internal)
  | .erase answer =>
      some ({ tier with cas := tier.cas.filter (fun b => decide (b.1 ≠ q.id)) },
        { q with pc := .refused answer })
  | .served _ | .refused _ | .panicked => none

namespace Net

/-- A request whose ticket verifies. -/
def startStep (n : Net Id) (t : Ticket Id) (id : Id) : Net Id :=
  match verifyTicket t n.tier.nowNs with
  | .error _ => n
  | .ok () => { n with requests := n.requests ++ [⟨t, id, .lookup, []⟩] }

/-- One step of the `i`-th request. -/
def requestStep (n : Net Id) (i : ℕ) (turn : Turn Id) : Option (Net Id) := do
  let q ← n.requests[i]?
  let (tier, q') ← q.advance n.origin n.tier turn
  pure { n with tier := tier, requests := n.requests.set i q' }

def step (n : Net Id) : NetEvent Id → Option (Net Id)
  | .origin e => (n.origin.step e).map fun s => { n with origin := s }
  | .tick ns => some { n with tier := { n.tier with nowNs := n.tier.nowNs + ns } }
  | .start t id => some (n.startStep t id)
  | .step i turn => n.requestStep i turn
  | .restart => some { n with tier := { n.tier with membership := [] }, requests := [] }

/-- A fresh origin, and a tier with whatever an earlier one left in its store. -/
def Init (n : Net Id) : Prop :=
  n.origin.Init ∧ n.tier.membership = [] ∧ n.requests = []

/-- The states of the runs whose steps all meet `ok`. -/
abbrev Reach (ok : Net Id → NetEvent Id → Prop) : Net Id → Prop :=
  Lib.Reach Init step ok

end Net

end

end Naatre
