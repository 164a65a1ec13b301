import Naatre.Client.Url
import Naatre.Lib.Loop
import Naatre.Core.Plain

/-!
The verified fetch of blobs (`naatre-cli/src/wc/fetch.rs`): by id through the
cache tier as long as that answers, then from the batch endpoint of the origin.

Every answer is given by the number of the call it is an answer to, so the tier
and the origin may send anything at all.
-/

namespace Naatre.Client.FetchBlobs

open Url

/-- `serde_json::Value`; a number is what `as_u64` makes of it. -/
inductive Value
  | null
  | bool (b : Bool)
  | number (asU64 : Option ℕ)
  | string (s : String)
  | array (items : List Value)
  | object (fields : List (String × Value))

namespace Value

/-- Indexing by a key: null where there is nothing. -/
def get (v : Value) (key : String) : Value :=
  match v with
  | object fields => (fields.lookup key).getD null
  | _ => null

def asStr : Value → Option String
  | string s => some s
  | _ => none

def asArray : Value → Option (List Value)
  | array items => some items
  | _ => none

def asU64 : Value → Option ℕ
  | number n => n
  | _ => none

def isObject : Value → Bool
  | object _ => true
  | _ => false

def isNull : Value → Bool
  | null => true
  | _ => false

end Value

inductive HttpError
  | envelope (status : ℕ) (code message : String) (details : Option Value)
      (retryAfter : Option ℕ)
  | transport (text : String)

inductive FetchError
  | http (e : HttpError)
  | localError (text : String)
  | usage (text : String)

/-- `envelope_from`. -/
def envelopeFrom (value : Value) (status : ℕ) (retryAfter : Option ℕ) : HttpError :=
  let error := value.get "error"
  .envelope status ((error.get "code").asStr.getD "internal")
    ((error.get "message").asStr.getD
      (if value.isNull then "server returned no body" else "server returned an unexpected body"))
    (if (error.get "details").isObject then some (error.get "details") else none) retryAfter

/-- What hex, base64 and JSON texts say. -/
structure Formats (Id : Type) where
  fromHex : String → Option Id
  decode : String → Except String Bytes
  fromSlice : Bytes → Option Value

/-- `bytes_as_envelope`. -/
def bytesAsEnvelope {Id : Type} (formats : Formats Id) (bytes : Bytes) (status : ℕ)
    (retryAfter : Option ℕ) : HttpError :=
  match formats.fromSlice bytes with
  | some v =>
      if ((v.get "error").get "code").asStr.isSome then envelopeFrom v status retryAfter
      else envelopeFrom .null status retryAfter
  | none => envelopeFrom .null status retryAfter

inductive TierAnswer
  | transport (text : String)
  | response (status : ℕ) (body : Except String Bytes)

/-- What the calls answer, each by its number, and the clock at it. -/
structure Wire where
  clock : ℕ → ℕ
  mint : ℕ → Except HttpError Value
  get : ℕ → TierAnswer
  post : ℕ → Except HttpError Value

structure TicketState (Id : Type) where
  ticket : String
  expiresNs : ℕ
  repo : String
  rootTree : Id

/-- The calls made so far, and the live ticket. -/
structure RouteState (Id : Type) where
  calls : ℕ
  ticket : Option (TicketState Id)

/-- `CacheRoute`; `agent` is the answer of its rebuild over the client's roots. -/
structure CacheRoute (Id : Type) where
  parsed : Except RemoteError ParsedRemote
  agent : Except String Unit
  ticket : Option (TicketState Id)

section

variable {Id : Type} [Platform Id] (formats : Formats Id) (wire : Wire) (repo : String)
  (rootTree : Id)

/-- `verify`: the payload must hash to its id. -/
def verify (id : Id) (bytes : Bytes) : Except FetchError Unit :=
  if Platform.blobId bytes = id then .ok ()
  else
    .error (.localError ("hash mismatch: object " ++ Platform.toHex id ++
      " does not hash to its id (got " ++ Platform.toHex (Platform.blobId bytes : Id) ++ ")"))

/-! ### The tier -/

def HttpError.text : HttpError → String
  | .envelope _ code message _ _ => code ++ ": " ++ message
  | .transport text => text

/-- The cached ticket has 30 s of headroom and the binding asked for. -/
def TicketState.live (t : TicketState Id) (nowNs : ℕ) : Bool :=
  decide (t.repo = repo) && decide (t.rootTree = rootTree) &&
    decide (nowNs + 30000000000 < t.expiresNs)

/-- `ticket_for`. -/
def ticketFor (s : RouteState Id) : Except String String × RouteState Id :=
  match s.ticket.filter (·.live repo rootTree (wire.clock s.calls)) with
  | some t => (.ok t.ticket, s)
  | none =>
      let s' := { s with calls := s.calls + 1 }
      match wire.mint s.calls with
      | .error e => (.error e.text, s')
      | .ok v =>
          match (v.get "ticket").asStr, (v.get "expires_ns").asU64 with
          | none, _ => (.error "the origin's mint response has no ticket", s')
          | some _, none => (.error "the origin's mint response has no expiry", s')
          | some ticket, some expiresNs =>
              (.ok ticket, { s' with ticket := some ⟨ticket, expiresNs, repo, rootTree⟩ })

/-- One round of the loop of `fetch_one`; `unauthorized` is what a 401 leads to. -/
def fetchAttempt (id : Id)
    (unauthorized : RouteState Id → Except FetchError (Option Bytes) × RouteState Id)
    (s : RouteState Id) : Except FetchError (Option Bytes) × RouteState Id :=
  match ticketFor wire repo rootTree s with
  | (.error _, s') => (.ok none, s')
  | (.ok _, s') =>
      let s'' := { s' with calls := s'.calls + 1 }
      match wire.get s'.calls with
      | .transport _ => (.ok none, s'')
      | .response status body =>
          if 200 ≤ status ∧ status < 300 then
            match body with
            | .error e => (.error (.localError ("cache tier body read failed: " ++ e)), s'')
            | .ok bytes =>
                match verify id bytes with
                | .error e => (.error e, s'')
                | .ok () => (.ok (some bytes), s'')
          else if status = 401 then unauthorized s''
          else if 500 ≤ status then (.ok none, s'')
          else
            (.error (.http (bytesAsEnvelope formats (body.toOption.getD []) status none)), s'')

/-- `CacheRoute::fetch_one`: the first 401 drops the ticket and tries again, the
second leaves the tier. -/
def fetchOne (id : Id) (s : RouteState Id) : Except FetchError (Option Bytes) × RouteState Id :=
  fetchAttempt formats wire repo rootTree id
    (fun s' => fetchAttempt formats wire repo rootTree id (fun s'' => (.ok none, s''))
      { s' with ticket := none }) s

/-- The admission at the head of `fetch_blobs_verified`. -/
def admitRoute (client : RemoteClient) (route : CacheRoute Id) : Except FetchError Unit :=
  match route.parsed with
  | .error e => .error (.usage ("refusing the NAATRE_CACHE_URL route: " ++ e.message))
  | .ok parsed =>
      if !parsed.isLoopback && decide (client.insecureOrigin ≠ some parsed.key) then
        .error (.usage (RemoteError.plainTier parsed.origin).message)
      else
        match route.agent with
        | .error e => .error (.localError e)
        | .ok () => .ok ()

def admitCache (client : RemoteClient) : Option (CacheRoute Id) → Except FetchError Unit
  | none => .ok ()
  | some route => admitRoute client route

/-- The map that comes back. -/
abbrev Blobs (Id : Type) := Id → Option Bytes

def Blobs.insert (out : Blobs Id) (id : Id) (bytes : Bytes) : Blobs Id :=
  Function.update out id (some bytes)

/-- The variables of the loop over the ids. -/
structure TierLoop (Id : Type) where
  out : Blobs Id
  pending : List Id
  cacheEnabled : Bool
  route : RouteState Id

/-- One id of the loop. -/
def tierStep (s : TierLoop Id) (id : Id) : Except FetchError (TierLoop Id) :=
  if s.cacheEnabled then
    match fetchOne formats wire repo rootTree id s.route with
    | (.error e, _) => .error e
    | (.ok (some bytes), route) => .ok { s with out := s.out.insert id bytes, route := route }
    | (.ok none, route) =>
        .ok { s with cacheEnabled := false, route := route, pending := s.pending ++ [id] }
  else .ok { s with pending := s.pending ++ [id] }

/-! ### The batch endpoint -/

/-- One entry of `objects`. -/
def readObject (obj : Value) : Except FetchError (Id × Bytes) :=
  match (obj.get "id").asStr.bind formats.fromHex with
  | none => .error (.localError "batch fetch returned a malformed object id")
  | some id =>
  match (obj.get "data_b64").asStr with
  | none =>
      .error (.localError ("batch fetch returned no payload for " ++ Platform.toHex id))
  | some data =>
  match formats.decode data with
  | .error e =>
      .error (.localError ("payload of " ++ Platform.toHex id ++ " is not base64: " ++ e))
  | .ok bytes =>
  match verify id bytes with
  | .error e => .error e
  | .ok () => .ok (id, bytes)

def insertObject (out : Blobs Id) (obj : Value) : Except FetchError (Blobs Id) :=
  match readObject formats obj with
  | .error e => .error e
  | .ok (id, bytes) => .ok (out.insert id bytes)

def objectsOf (v : Value) : List Value := ((v.get "objects").asArray).getD []

def missingOf (v : Value) : List String :=
  (((v.get "missing").asArray).getD []).filterMap Value.asStr

/-- What one answer of the batch endpoint adds. -/
def readBatch (out : Blobs Id) (v : Value) : Except FetchError (Blobs Id) :=
  match (objectsOf v).foldlM (insertObject formats) out with
  | .error e => .error e
  | .ok out' =>
      if missingOf v = [] then .ok out'
      else
        .error (.localError ("server cannot serve " ++ toString (missingOf v).length ++
          " object(s): " ++ ", ".intercalate (missingOf v)))

/-- One chunk of the pending ids. -/
def batchStep (s : Blobs Id × ℕ) (_chunk : List Id) : Except FetchError (Blobs Id × ℕ) :=
  match wire.post s.2 with
  | .error e => .error (.http e)
  | .ok v =>
      match readBatch formats s.1 v with
      | .error e => .error e
      | .ok out => .ok (out, s.2 + 1)

/-- `fetch_blobs_verified`. -/
def fetchBlobsVerified (client : RemoteClient) (ids : List Id) (cache : Option (CacheRoute Id)) :
    Except FetchError (Blobs Id) := do
  admitCache client cache
  let s ← ids.foldlM (tierStep formats wire repo rootTree)
    ⟨fun _ => none, [], cache.isSome, ⟨0, cache.bind (·.ticket)⟩⟩
  let r ← (s.pending.toChunks 256).foldlM (batchStep formats wire) (s.out, s.route.calls)
  pure r.1

/-! ### The answers of a run -/

variable {formats wire repo rootTree}

/-- What the tier answers for the ids in turn: the ids it serves, the ids left to
the origin, and the route behind. -/
inductive TierAnswers (formats : Formats Id) (wire : Wire) (repo : String) (rootTree : Id) :
    RouteState Id → List Id → List Id → List Id → RouteState Id → Prop
  | done (s : RouteState Id) : TierAnswers formats wire repo rootTree s [] [] [] s
  | serves {s s' t : RouteState Id} {id : Id} {bytes : Bytes} {ids served left : List Id}
      (answer : fetchOne formats wire repo rootTree id s = (.ok (some bytes), s'))
      (rest : TierAnswers formats wire repo rootTree s' ids served left t) :
      TierAnswers formats wire repo rootTree s (id :: ids) (id :: served) left t
  | unavailable {s s' : RouteState Id} {id : Id} {ids : List Id}
      (answer : fetchOne formats wire repo rootTree id s = (.ok none, s')) :
      TierAnswers formats wire repo rootTree s (id :: ids) [] (id :: ids) s'

/-- The ids the origin is asked for: all of them without a tier. -/
inductive LeftToOrigin (formats : Formats Id) (wire : Wire) (repo : String) (rootTree : Id)
    (client : RemoteClient) (ids : List Id) :
    Option (CacheRoute Id) → List Id → List Id → RouteState Id → Prop
  | direct : LeftToOrigin formats wire repo rootTree client ids none [] ids ⟨0, none⟩
  | routed {route : CacheRoute Id} {served left : List Id} {s : RouteState Id}
      (admitted : admitRoute client route = .ok ())
      (answers : TierAnswers formats wire repo rootTree ⟨0, route.ticket⟩ ids served left s) :
      LeftToOrigin formats wire repo rootTree client ids (some route) served left s

/-- The batch answer stands its checks: every object has an id and a payload that
hashes to it, and nothing is missing. -/
def Accepted (formats : Formats Id) (answer : Except HttpError Value) : Prop :=
  ∃ v, answer = .ok v ∧ (∀ obj ∈ objectsOf v, ∃ r, readObject formats obj = .ok r) ∧
    missingOf v = []

/-- The id is that of an object of the batch answer. -/
def Names (formats : Formats Id) (answer : Except HttpError Value) (id : Id) : Prop :=
  ∃ v, answer = .ok v ∧ ∃ obj ∈ objectsOf v, (obj.get "id").asStr.bind formats.fromHex = some id

/-- Every byte string of the map hashes to its id. -/
def Verified (out : Blobs Id) : Prop := ∀ id bytes, out id = some bytes → Platform.blobId bytes = id

/-- Success holds every requested id, verified. -/
def Total (ids : List Id) (result : Except FetchError (Blobs Id)) : Prop :=
  ∀ out, result = .ok out → ∀ id ∈ ids, ∃ bytes, out id = some bytes ∧ Platform.blobId bytes = id

/-! ### What is kept -/

theorem verify_eq_ok {id : Id} {bytes : Bytes} :
    verify id bytes = .ok () ↔ Platform.blobId bytes = id := by
  unfold verify
  split_ifs with h <;> simp [h]

theorem fetchAttempt_served {id : Id} {s s' : RouteState Id} {bytes : Bytes}
    {unauthorized : RouteState Id → Except FetchError (Option Bytes) × RouteState Id}
    (hunauthorized : ∀ t t', unauthorized t = (.ok (some bytes), t') → Platform.blobId bytes = id)
    (h : fetchAttempt formats wire repo rootTree id unauthorized s = (.ok (some bytes), s')) :
    Platform.blobId bytes = id := by
  unfold fetchAttempt at h
  split at h
  next => cases h
  next =>
    dsimp only at h
    split at h
    next => cases h
    next status body _ =>
      split_ifs at h
      · split at h
        next => cases h
        next =>
          split at h
          next => cases h
          next hverify =>
            cases h
            exact verify_eq_ok.mp hverify
      · exact hunauthorized _ _ h
      · cases h
      · cases h

theorem fetchOne_served {id : Id} {s s' : RouteState Id} {bytes : Bytes}
    (h : fetchOne formats wire repo rootTree id s = (.ok (some bytes), s')) :
    Platform.blobId bytes = id := by
  refine fetchAttempt_served (fun t t' ht => ?_) h
  exact fetchAttempt_served (fun _ _ hnone => by cases hnone) ht

theorem Verified.insert {out : Blobs Id} {id : Id} {bytes : Bytes} (h : Verified out)
    (hid : Platform.blobId bytes = id) : Verified (out.insert id bytes) := by
  intro id' bytes' hget
  by_cases heq : id' = id
  · rw [Blobs.insert, heq, Function.update_self] at hget
    cases hget
    exact hid.trans heq.symm
  · rw [Blobs.insert, Function.update_of_ne heq] at hget
    exact h id' bytes' hget

theorem isSome_insert {out : Blobs Id} {id id' : Id} {bytes : Bytes} :
    (out.insert id bytes id').isSome ↔ (out id').isSome ∨ id' = id := by
  by_cases heq : id' = id
  · simp [Blobs.insert, heq]
  · simp [Blobs.insert, heq]

theorem readObject_ok {obj : Value} {id : Id} {bytes : Bytes}
    (h : readObject formats obj = .ok (id, bytes)) :
    (obj.get "id").asStr.bind formats.fromHex = some id ∧ Platform.blobId bytes = id := by
  unfold readObject at h
  split at h
  next => cases h
  next id' hid =>
    split at h
    next => cases h
    next =>
      split at h
      next => cases h
      next =>
        split at h
        next => cases h
        next hverify =>
          cases h
          exact ⟨hid, verify_eq_ok.mp hverify⟩

/-! ### The tier's loop -/

theorem tierStep_verified {s s' : TierLoop Id} {id : Id} (h : Verified s.out)
    (hstep : tierStep formats wire repo rootTree s id = .ok s') : Verified s'.out := by
  unfold tierStep at hstep
  split_ifs at hstep
  · split at hstep
    next => cases hstep
    next hfetch =>
      cases hstep
      exact h.insert (fetchOne_served hfetch)
    next =>
      cases hstep
      exact h
  · cases hstep
    exact h

/-- Once the tier is left, every id goes to the origin. -/
theorem tierLoop_disabled (ids : List Id) (out : Blobs Id) (pending : List Id)
    (route : RouteState Id) :
    ids.foldlM (tierStep formats wire repo rootTree) ⟨out, pending, false, route⟩ =
      .ok ⟨out, pending ++ ids, false, route⟩ := by
  induction ids generalizing pending with
  | nil =>
      rw [List.append_nil]
      rfl
  | cons id ids ih =>
      rw [List.foldlM_cons, tierStep, if_neg Bool.false_ne_true]
      show List.foldlM _ _ _ = _
      rw [ih, List.append_assoc]
      rfl

/-- The loop goes through exactly along the tier's answers. -/
theorem tierLoop_ok {ids pending : List Id} {out : Blobs Id} {s : RouteState Id}
    {t : TierLoop Id}
    (h : ids.foldlM (tierStep formats wire repo rootTree) ⟨out, pending, true, s⟩ = .ok t) :
    ∃ served left, TierAnswers formats wire repo rootTree s ids served left t.route ∧
      t.pending = pending ++ left ∧
      ∀ id, (t.out id).isSome ↔ (out id).isSome ∨ id ∈ served := by
  induction ids generalizing out s with
  | nil =>
      cases h
      exact ⟨[], [], .done _, (List.append_nil _).symm, fun id => by simp⟩
  | cons id ids ih =>
      rw [List.foldlM_cons, Lib.bind_eq_ok] at h
      obtain ⟨s', hstep, hrest⟩ := h
      rw [tierStep, if_pos rfl] at hstep
      split at hstep
      next => cases hstep
      next bytes route hfetch =>
        cases hstep
        obtain ⟨served, left, hanswers, hpending, hdom⟩ := ih hrest
        refine ⟨id :: served, left, .serves hfetch hanswers, hpending, fun id' => ?_⟩
        rw [hdom, isSome_insert, List.mem_cons, or_assoc]
      next route hfetch =>
        cases hstep
        rw [tierLoop_disabled] at hrest
        cases hrest
        refine ⟨[], id :: ids, .unavailable hfetch, ?_, fun id' => by simp⟩
        rw [List.append_assoc]
        rfl

theorem TierAnswers.loop {ids served left : List Id} {s s' : RouteState Id}
    (h : TierAnswers formats wire repo rootTree s ids served left s') (out : Blobs Id)
    (pending : List Id) :
    ∃ t, ids.foldlM (tierStep formats wire repo rootTree) ⟨out, pending, true, s⟩ = .ok t ∧
      t.pending = pending ++ left ∧ t.route = s' ∧
      ∀ id, (t.out id).isSome ↔ (out id).isSome ∨ id ∈ served := by
  induction h generalizing out with
  | done s => exact ⟨_, rfl, (List.append_nil _).symm, rfl, fun id => by simp⟩
  | @serves s s' t id bytes ids served left hfetch _ ih =>
      obtain ⟨t', hloop, hpending, hroute, hdom⟩ := ih (out.insert id bytes)
      refine ⟨t', ?_, hpending, hroute, fun id' => ?_⟩
      · rw [List.foldlM_cons, tierStep, if_pos rfl, hfetch]
        exact hloop
      · rw [hdom, isSome_insert, List.mem_cons, or_assoc]
  | @unavailable s s' id ids hfetch =>
      refine ⟨⟨out, pending ++ id :: ids, false, s'⟩, ?_, rfl, rfl, fun id' => by simp⟩
      rw [List.foldlM_cons, tierStep, if_pos rfl, hfetch]
      show List.foldlM _ _ _ = _
      rw [tierLoop_disabled, List.append_assoc]
      rfl

/-! ### The batches -/

theorem insertObjects_verified {objs : List Value} {out out' : Blobs Id} (h : Verified out)
    (hrun : objs.foldlM (insertObject formats) out = .ok out') : Verified out' := by
  refine Lib.foldlM_invariant hrun h fun out obj _ out' hout hstep => ?_
  unfold insertObject at hstep
  split at hstep
  next => cases hstep
  next hread =>
    cases hstep
    exact hout.insert (readObject_ok hread).2

theorem insertObjects_iff {objs : List Value} (out : Blobs Id) :
    (∃ out', objs.foldlM (insertObject formats) out = .ok out') ↔
      ∀ obj ∈ objs, ∃ r, readObject formats obj = .ok r := by
  induction objs generalizing out with
  | nil => exact iff_of_true ⟨out, rfl⟩ (by simp)
  | cons obj objs ih =>
      rw [List.forall_mem_cons, List.foldlM_cons, insertObject]
      cases hread : readObject formats obj with
      | error e =>
          refine iff_of_false ?_ ?_
          · rintro ⟨_, ⟨⟩⟩
          · rintro ⟨⟨_, ⟨⟩⟩, -⟩
      | ok r =>
          rw [← ih (out.insert r.1 r.2)]
          exact (and_iff_right ⟨r, rfl⟩).symm

theorem insertObjects_dom {objs : List Value} {out out' : Blobs Id}
    (h : objs.foldlM (insertObject formats) out = .ok out') (id : Id) :
    (out' id).isSome ↔ (out id).isSome ∨
      ∃ obj ∈ objs, (obj.get "id").asStr.bind formats.fromHex = some id := by
  induction objs generalizing out with
  | nil =>
      cases h
      simp
  | cons obj objs ih =>
      rw [List.foldlM_cons, Lib.bind_eq_ok] at h
      obtain ⟨mid, hstep, hrest⟩ := h
      unfold insertObject at hstep
      split at hstep
      next => cases hstep
      next id' bytes hread =>
        cases hstep
        rw [ih hrest, isSome_insert, List.exists_mem_cons_iff, (readObject_ok hread).1,
          Option.some_inj, or_assoc, @eq_comm _ id' id]

theorem readBatch_ok {out out' : Blobs Id} {v : Value} (h : readBatch formats out v = .ok out') :
    (objectsOf v).foldlM (insertObject formats) out = .ok out' ∧ missingOf v = [] := by
  unfold readBatch at h
  split at h
  next => cases h
  next hrun =>
    split_ifs at h with hmissing
    cases h
    exact ⟨hrun, hmissing⟩

/-- The batches that go through were accepted one by one, and add what they name. -/
theorem batches_ok {chunks : List (List Id)} {out : Blobs Id} {calls : ℕ} {r : Blobs Id × ℕ}
    (h : chunks.foldlM (batchStep formats wire) (out, calls) = .ok r) :
    (∀ k < chunks.length, Accepted formats (wire.post (calls + k))) ∧
      ∀ id, (r.1 id).isSome ↔ (out id).isSome ∨
        ∃ k < chunks.length, Names formats (wire.post (calls + k)) id := by
  induction chunks generalizing out calls with
  | nil =>
      cases h
      exact ⟨fun k hk => absurd hk (Nat.not_lt_zero k), fun id => by simp⟩
  | cons chunk chunks ih =>
      rw [List.foldlM_cons, Lib.bind_eq_ok] at h
      obtain ⟨mid, hstep, hrest⟩ := h
      unfold batchStep at hstep
      dsimp only at hstep
      split at hstep
      next => cases hstep
      next v hpost =>
        split at hstep
        next => cases hstep
        next out' hread =>
          cases hstep
          obtain ⟨hobjects, hmissing⟩ := readBatch_ok hread
          obtain ⟨haccepted, hdom⟩ := ih hrest
          have hshift : ∀ k, calls + 1 + k = calls + (k + 1) := fun k => by omega
          simp only [hshift] at haccepted hdom
          constructor
          · intro k hk
            cases k with
            | zero => exact ⟨v, hpost, (insertObjects_iff out).mp ⟨_, hobjects⟩, hmissing⟩
            | succ k => exact haccepted k (by simpa using hk)
          · intro id
            rw [hdom, insertObjects_dom hobjects, List.length_cons, Nat.exists_lt_succ_left,
              or_assoc]
            simp [Names, hpost]

/-- Accepted answers let the batches through. -/
theorem batches_run {chunks : List (List Id)} {calls : ℕ}
    (h : ∀ k < chunks.length, Accepted formats (wire.post (calls + k))) (out : Blobs Id) :
    ∃ r, chunks.foldlM (batchStep formats wire) (out, calls) = .ok r := by
  induction chunks generalizing out calls with
  | nil => exact ⟨_, rfl⟩
  | cons chunk chunks ih =>
      obtain ⟨v, hpost, hobjects, hmissing⟩ := h 0 (by simp)
      obtain ⟨out', hrun⟩ := (insertObjects_iff out).mpr hobjects
      have hrest : ∀ k < chunks.length, Accepted formats (wire.post (calls + 1 + k)) := by
        intro k hk
        rw [show calls + 1 + k = calls + (k + 1) by omega]
        exact h (k + 1) (by simpa using hk)
      obtain ⟨r, hr⟩ := ih hrest out'
      refine ⟨r, ?_⟩
      rw [List.foldlM_cons, batchStep, ← Nat.add_zero calls, hpost]
      dsimp only
      rw [readBatch, hrun]
      dsimp only
      rw [if_pos hmissing]
      exact hr

theorem batchStep_verified {s s' : Blobs Id × ℕ} {chunk : List Id} (h : Verified s.1)
    (hstep : batchStep formats wire s chunk = .ok s') : Verified s'.1 := by
  unfold batchStep at hstep
  split at hstep
  next => cases hstep
  next =>
    split at hstep
    next => cases hstep
    next hread =>
      cases hstep
      exact insertObjects_verified h (readBatch_ok hread).1

/-! ### The whole fetch -/

/-- The ids an answered run holds: those the tier served and those the batch
answers name. -/
def Covers (formats : Formats Id) (wire : Wire) (served left : List Id) (calls : ℕ) (id : Id) :
    Prop :=
  id ∈ served ∨ ∃ k < (left.toChunks 256).length, Names formats (wire.post (calls + k)) id

variable {client : RemoteClient} {ids : List Id} {cache : Option (CacheRoute Id)}

theorem fetch_ok {out : Blobs Id}
    (h : fetchBlobsVerified formats wire repo rootTree client ids cache = .ok out) :
    Verified out ∧ ∃ served left s,
      LeftToOrigin formats wire repo rootTree client ids cache served left s ∧
      (∀ k < (left.toChunks 256).length, Accepted formats (wire.post (s.calls + k))) ∧
      ∀ id, (out id).isSome ↔ Covers formats wire served left s.calls id := by
  unfold fetchBlobsVerified at h
  obtain ⟨⟨⟩, hallowed, h⟩ := Lib.bind_eq_ok.mp h
  obtain ⟨t, hloop, h⟩ := Lib.bind_eq_ok.mp h
  obtain ⟨r, hbatches, h⟩ := Lib.bind_eq_ok.mp h
  cases h
  have hstart : Verified (fun _ => none : Blobs Id) := fun _ _ hnone => by cases hnone
  have htier : Verified t.out :=
    Lib.foldlM_invariant (I := fun s => Verified s.out) hloop hstart
      fun s _ _ s' hs hstep => tierStep_verified hs hstep
  have hout : Verified r.1 :=
    Lib.foldlM_invariant (I := fun s => Verified s.1) hbatches htier
      fun s _ _ s' hs hstep => batchStep_verified hs hstep
  obtain ⟨haccepted, hdom⟩ := batches_ok hbatches
  refine ⟨hout, ?_⟩
  cases cache with
  | none =>
      rw [Option.isSome_none, tierLoop_disabled] at hloop
      cases hloop
      refine ⟨[], ids, _, .direct, haccepted, fun id => ?_⟩
      rw [hdom]
      simp [Covers]
  | some route =>
      obtain ⟨served, left, hanswers, hpending, hserved⟩ := tierLoop_ok hloop
      rw [List.nil_append] at hpending
      rw [hpending] at haccepted hdom
      refine ⟨served, left, t.route, .routed hallowed hanswers, haccepted, fun id => ?_⟩
      rw [hdom, hserved]
      simp [Covers]

theorem LeftToOrigin.run {served left : List Id} {s : RouteState Id}
    (h : LeftToOrigin formats wire repo rootTree client ids cache served left s)
    (haccepted : ∀ k < (left.toChunks 256).length, Accepted formats (wire.post (s.calls + k))) :
    ∃ out, fetchBlobsVerified formats wire repo rootTree client ids cache = .ok out ∧
      ∀ id, (out id).isSome ↔ Covers formats wire served left s.calls id := by
  unfold fetchBlobsVerified
  cases h with
  | direct =>
      obtain ⟨r, hbatches⟩ := batches_run haccepted (fun _ => none)
      refine ⟨r.1, ?_, fun id => ?_⟩
      · refine Lib.bind_eq_ok.mpr ⟨(), rfl, Lib.bind_eq_ok.mpr ⟨_, tierLoop_disabled _ _ _ _, ?_⟩⟩
        exact Lib.bind_eq_ok.mpr ⟨r, hbatches, rfl⟩
      · rw [(batches_ok hbatches).2]
        simp [Covers]
  | @routed route _ _ _ hallowed hanswers =>
      obtain ⟨t, hloop, hpending, hroute, hserved⟩ := hanswers.loop (fun _ => none) []
      rw [List.nil_append] at hpending
      obtain ⟨r, hbatches⟩ := batches_run haccepted t.out
      refine ⟨r.1, ?_, fun id => ?_⟩
      · refine Lib.bind_eq_ok.mpr ⟨(), hallowed, Lib.bind_eq_ok.mpr ⟨t, hloop, ?_⟩⟩
        rw [hpending, hroute]
        exact Lib.bind_eq_ok.mpr ⟨r, hbatches, rfl⟩
      · rw [(batches_ok hbatches).2, hserved]
        simp [Covers]

/-- Every id is served or left. -/
theorem TierAnswers.mem {served left : List Id} {s s' : RouteState Id}
    (h : TierAnswers formats wire repo rootTree s ids served left s') {id : Id} :
    id ∈ ids → id ∈ served ∨ id ∈ left := by
  induction h with
  | done => exact fun h => by cases h
  | serves _ _ ih =>
      intro hid
      rcases List.mem_cons.mp hid with rfl | hid
      · exact .inl List.mem_cons_self
      · exact (ih hid).imp_left (List.mem_cons_of_mem _)
  | unavailable => exact .inr

/-- An id left to the origin was asked for. -/
theorem TierAnswers.left_subset {served left : List Id} {s s' : RouteState Id}
    (h : TierAnswers formats wire repo rootTree s ids served left s') {id : Id} :
    id ∈ left → id ∈ ids := by
  induction h with
  | done => exact fun h => h
  | serves _ _ ih => exact fun hid => List.mem_cons_of_mem _ (ih hid)
  | unavailable => exact fun h => h

theorem LeftToOrigin.mem {served left : List Id} {s : RouteState Id}
    (h : LeftToOrigin formats wire repo rootTree client ids cache served left s) :
    (∀ id ∈ ids, id ∈ served ∨ id ∈ left) ∧ ∀ id ∈ left, id ∈ ids := by
  cases h with
  | direct => exact ⟨fun _ => .inr, fun _ h => h⟩
  | routed _ hanswers => exact ⟨fun _ => hanswers.mem, fun _ => hanswers.left_subset⟩

/-- **Verified fetch**: success holds every requested id with bytes that hash to it
exactly when, of the ids the tier leaves to the origin, each is one the tier served
before or the id of an object of a batch answer, or a batch answer does not stand
its checks. -/
theorem fetch_total_iff (formats : Formats Id) (wire : Wire) (repo : String) (rootTree : Id)
    (client : RemoteClient) (ids : List Id) (cache : Option (CacheRoute Id)) :
    Total ids (fetchBlobsVerified formats wire repo rootTree client ids cache) ↔
      ∀ served left s,
        LeftToOrigin formats wire repo rootTree client ids cache served left s →
        (∃ k < (left.toChunks 256).length, ¬ Accepted formats (wire.post (s.calls + k))) ∨
          ∀ id ∈ left, id ∈ served ∨
            ∃ k < (left.toChunks 256).length, Names formats (wire.post (s.calls + k)) id := by
  constructor
  · intro htotal served left s hleft
    by_cases haccepted : ∀ k < (left.toChunks 256).length,
        Accepted formats (wire.post (s.calls + k))
    · right
      intro id hid
      obtain ⟨out, hrun, hdom⟩ := hleft.run haccepted
      obtain ⟨bytes, hget, -⟩ := htotal out hrun id (hleft.mem.2 id hid)
      exact (hdom id).mp (by rw [hget]; rfl)
    · left
      push Not at haccepted
      exact haccepted
  · intro hcond out hrun id hid
    obtain ⟨hverified, served, left, s, hleft, haccepted, hdom⟩ := fetch_ok hrun
    have hsome : (out id).isSome := by
      rw [hdom]
      rcases hcond served left s hleft with ⟨k, hk, hrefused⟩ | hcover
      · exact absurd (haccepted k hk) hrefused
      · rcases hleft.mem.1 id hid with hserved | hid
        · exact .inl hserved
        · exact hcover id hid
    obtain ⟨bytes, hget⟩ := Option.isSome_iff_exists.mp hsome
    exact ⟨bytes, hget, hverified id bytes hget⟩

end

/-! ### Runs -/

/-- Hex names a plain id by the one it is the hex of. -/
def plainFormats (id : PlainId) : Formats PlainId where
  fromHex text := if text = Platform.toHex id then some id else none
  decode _ := .ok []
  fromSlice _ := none

/-- The answer of a server where the blob was redacted since the tree was listed. -/
def redactedAnswer (id : PlainId) : Value :=
  .object [("objects", .array []), ("missing", .array []),
    ("redacted", .array [.string (Platform.toHex id)])]

def redactedWire (id : PlainId) : Wire where
  clock _ := 0
  mint _ := .error (.transport "refused")
  get _ := .transport "refused"
  post _ := .ok (redactedAnswer id)

/-- An object that is redacted, and so neither served nor missing, is no error: the
map comes back without it. -/
theorem redacted_blob_lost :
    ¬ Total [[]] (fetchBlobsVerified (plainFormats []) (redactedWire []) "r" []
      ⟨[], none⟩ [[]] none) := by
  intro htotal
  obtain ⟨bytes, hnone, -⟩ := htotal (fun _ => none) rfl [] List.mem_cons_self
  cases hnone

end Naatre.Client.FetchBlobs
