import Naatre.Lib.Along
import Naatre.Server.HostVerbs
import Naatre.Server.TicketRoutes

/-!
The cache-key verbs (`naatre-cli/src/host.rs`) as writes of the two key files,
any of which a crash may come before, and the tickets the origin mints under
the key of the signing file. A key is its id.
-/

namespace Naatre

section

variable {Id : Type}

/-! ### The key files -/

/-- `cache_keys.json`, and the key of `cache_signing.pkcs8`. -/
structure KeyStore where
  verify : Option (List VerifyKey)
  signing : Option String
  deriving DecidableEq

inductive KeyWrite
  /-- `write_verify_file` -/
  | verify (keys : List VerifyKey)
  /-- `write_signing_file` -/
  | signing (keyId : String)

/-- A key verb; `init` and `rotate` with the id of the pair they generate. -/
inductive KeyVerb
  | init (keyId : String)
  | rotate (keyId : String)
  | drop (keyId : String)

namespace KeyStore

def write (d : KeyStore) : KeyWrite → KeyStore
  | .verify keys => { d with verify := some keys }
  | .signing keyId => { d with signing := some keyId }

/-- The verify list goes first. -/
def pairWrites (keys : List VerifyKey) (keyId : String) : Option (List KeyWrite) :=
  (HostDir.parseKeys keys).map fun keys => [.verify keys, .signing keyId]

/-- What a verb writes; `none` where it fails in front of its first write. -/
def writes (d : KeyStore) : KeyVerb → Option (List KeyWrite)
  | .init keyId =>
      match d.verify, d.signing with
      | some keys, some _ => (keys.find? (·.current)).map fun _ => []
      | _, _ => pairWrites [⟨keyId, true⟩] keyId
  | .rotate keyId =>
      d.verify.bind fun old =>
        pairWrites (⟨keyId, true⟩ :: old.map fun key => { key with current := false }) keyId
  | .drop keyId =>
      d.verify.bind fun keys =>
        (keys.find? fun key => decide (key.id = keyId)).bind fun dropped =>
          if dropped.current then none
          else (HostDir.parseKeys (keys.filter fun key => decide (key.id ≠ keyId))).map fun remaining =>
            [.verify remaining]

end KeyStore

/-- The key files of a data directory. -/
def HostDir.keyStore [Platform Id] (d : HostDir Id) : KeyStore := ⟨d.verify, d.signing⟩

/-! ### Runs -/

variable (Id) in
/-- The key files, the clock, the tickets minted, the keys that were the signing
key and have not been dropped since, and whether a crash came between the two
writes of a pair and no pair was written whole since. -/
structure KeyRun where
  store : KeyStore := ⟨none, none⟩
  nowNs : ℕ := 0
  tickets : List (Presented Id) := []
  signed : List String := []
  torn : Bool := false

variable (Id) in
inductive KeyEvent
  /-- a verb, cut off after so many writes or run to its end, and whether its
  audit row was written -/
  | verb (v : KeyVerb) (cut : Option ℕ) (audited : Bool)
  | mint (principal repo : String) (rootTree : Id) (ttlSecs : ℕ)
  | tick (ns : ℕ)

/-- The writes a crash leaves. -/
def cutWrites (cut : Option ℕ) (ws : List KeyWrite) : List KeyWrite :=
  match cut with
  | none => ws
  | some n => ws.take n

theorem cutWrites_nil (cut : Option ℕ) : cutWrites cut [] = [] := by
  cases cut with
  | none => rfl
  | some n => exact List.take_nil

namespace KeyRun

def write (s : KeyRun Id) (w : KeyWrite) : KeyRun Id :=
  { s with
    store := s.store.write w
    signed :=
      match w with
      | .verify _ => s.signed
      | .signing keyId => keyId :: s.signed
    torn :=
      match w with
      | .verify _ => s.torn
      | .signing _ => false }

/-- A drop that wrote its list. -/
def dropping (s : KeyRun Id) (v : KeyVerb) (ws : List KeyWrite) : KeyRun Id :=
  match v, ws with
  | .drop keyId, _ :: _ => { s with signed := s.signed.filter (· ≠ keyId) }
  | _, _ => s

/-- A pair of which the list alone was written. -/
def tearing (s : KeyRun Id) (v : KeyVerb) (ws : List KeyWrite) : KeyRun Id :=
  match v, ws with
  | .init _, [.verify _] | .rotate _, [.verify _] => { s with torn := true }
  | _, _ => s

def runVerb (s : KeyRun Id) (v : KeyVerb) (cut : Option ℕ) : KeyRun Id :=
  match s.store.writes v with
  | none => s
  | some ws =>
      (((cutWrites cut ws).foldl write s).dropping v (cutWrites cut ws)).tearing v (cutWrites cut ws)

def step (s : KeyRun Id) : KeyEvent Id → Option (KeyRun Id)
  | .verb v cut _ => some (s.runVerb v cut)
  | .mint principal repo rootTree ttlSecs =>
      if ticketMaxLifetimeSecs < ttlSecs then none
      else s.store.signing.map fun keyId =>
        { s with tickets := s.tickets ++
            [⟨⟨principal, repo, rootTree, s.nowNs,
              saturatingAdd s.nowNs (ttlSecs * nsPerSec)⟩, keyId⟩] }
  | .tick ns => some { s with nowNs := s.nowNs + ns }

/-! ### What the verbs promise -/

/-- The origin takes the ticket for good: its key is listed, and its claims hold. -/
def verifies (s : KeyRun Id) (p : Presented Id) : Prop :=
  (∃ keys, s.store.verify = some keys ∧ p.keyId ∈ keys.map (·.id)) ∧
    verifyTicket p.claims s.nowNs = .ok ()

/-- The key the origin signs with is the one the list marks. -/
def currentSigns (s : KeyRun Id) : Prop :=
  ∃ keys keyId, s.store.verify = some keys ∧ s.store.signing = some keyId ∧
    (keys.filter (·.current)).map (·.id) = [keyId]

/-- What holds after every event of a run. -/
structure Sound (s : KeyRun Id) : Prop where
  listed : ∀ keyId, s.store.signing = some keyId →
    ∃ keys, s.store.verify = some keys ∧ keyId ∈ keys.map (·.id)
  tickets : ∀ p ∈ s.tickets, s.nowNs < p.claims.exp → s.verifies p

/-- What a verb that reports success leaves. -/
structure Settled (s : KeyRun Id) : Prop where
  current : s.currentSigns
  kept : ∀ keyId ∈ s.signed, ∃ keys, s.store.verify = some keys ∧ keyId ∈ keys.map (·.id)

/-- The verb gets to its writes, and one of them is made. -/
def Writes (s : KeyRun Id) (v : KeyVerb) (cut : Option ℕ) : Prop :=
  ∃ ws, s.store.writes v = some ws ∧ cutWrites cut ws ≠ []

/-- The promise of one event. -/
structure Promised (s : KeyRun Id) (e : KeyEvent Id) (s' : KeyRun Id) : Prop where
  sound : s'.Sound
  dropped : ∀ keyId cut audited, e = .verb (.drop keyId) cut audited →
    s.Writes (.drop keyId) cut → s.store.signing ≠ some keyId
  settled : ∀ v, e = .verb v none true → (s.store.writes v).isSome → s'.Settled

/-- The condition on an event: a drop names no key of an unexpired ticket; and
while a pair is torn, no drop names the key the origin signs with, and neither a
drop nor an init over both files reports success. -/
def Careful (s : KeyRun Id) (e : KeyEvent Id) : Prop :=
  (∀ keyId cut audited, e = .verb (.drop keyId) cut audited → s.Writes (.drop keyId) cut →
    (s.torn = true → s.store.signing ≠ some keyId) ∧
      ∀ p ∈ s.tickets, p.keyId = keyId → p.claims.exp ≤ s.nowNs) ∧
  (∀ keyId, e = .verb (.drop keyId) none true → (s.store.writes (.drop keyId)).isSome →
    s.torn = false) ∧
  ∀ keyId, e = .verb (.init keyId) none true → s.store.writes (.init keyId) = some [] →
    s.torn = false

/-! ### What every run keeps -/

/-- The list of a store: no id twice, one of them marked. -/
structure ListKept (keys : List VerifyKey) : Prop where
  nodup : (keys.map (·.id)).Nodup
  marked : ∃ keyId, (keys.filter (·.current)).map (·.id) = [keyId]

/-- The claims of a ticket minted by now. -/
structure Minted (nowNs : ℕ) (t : Ticket Id) : Prop where
  iat : t.iat ≤ nowNs
  exp : t.exp ≤ t.iat + ticketMaxLifetimeSecs * nsPerSec
  small : t.exp < 2 ^ 64

structure Kept (s : KeyRun Id) : Prop where
  lists : ∀ keys, s.store.verify = some keys → ListKept keys
  listed : ∀ keyId ∈ s.signed, ∃ keys, s.store.verify = some keys ∧ keyId ∈ keys.map (·.id)
  signing : ∀ keyId, s.store.signing = some keyId → keyId ∈ s.signed
  unsigned : s.store.signing = none → s.signed = [] ∧ s.tickets = []
  tickets : ∀ p ∈ s.tickets, Minted s.nowNs p.claims ∧ (s.nowNs < p.claims.exp → p.keyId ∈ s.signed)

/-- A list that is there marks the key the origin signs with exactly as long as no
pair is torn. -/
def Paired (s : KeyRun Id) : Prop :=
  s.store.verify.isSome → (s.currentSigns ↔ s.torn = false)

theorem kept_start : Kept ({} : KeyRun Id) where
  lists := fun _ h => nomatch h
  listed := fun _ h => absurd h List.not_mem_nil
  signing := fun _ h => nomatch h
  unsigned := fun _ => ⟨rfl, rfl⟩
  tickets := fun _ h => absurd h List.not_mem_nil

/-- An unexpired ticket of the origin passes the checks of its claims. -/
theorem Minted.verifies {nowNs : ℕ} {t : Ticket Id} (h : Minted nowNs t)
    (hexp : nowNs < t.exp) : verifyTicket t nowNs = .ok () := by
  obtain ⟨hiat, hspan, hsmall⟩ := h
  unfold verifyTicket saturatingAdd
  rw [if_neg (by omega), if_neg (by omega), if_neg (by omega), if_neg (by omega)]

theorem Kept.sound {s : KeyRun Id} (h : s.Kept) : s.Sound where
  listed := fun keyId hsigning => h.listed keyId (h.signing keyId hsigning)
  tickets := fun p hp hexp => by
    obtain ⟨hminted, hsigned⟩ := h.tickets p hp
    exact ⟨h.listed _ (hsigned hexp), hminted.verifies hexp⟩

end KeyRun

/-! ### The writes of a verb -/

theorem parseKeys_some {keys keys' : List VerifyKey} (h : HostDir.parseKeys keys = some keys') :
    keys' = keys ∧ (keys.map (·.id)).Nodup := by
  unfold HostDir.parseKeys at h
  split_ifs at h with hbad
  rw [not_or, not_not] at hbad
  exact ⟨(Option.some.inj h).symm, hbad.2⟩

/-- The list of a rotation. -/
def rotated (keyId : String) (old : List VerifyKey) : List VerifyKey :=
  ⟨keyId, true⟩ :: old.map fun key => { key with current := false }

/-- The list of a drop. -/
def without (keyId : String) (keys : List VerifyKey) : List VerifyKey :=
  keys.filter fun key => decide (key.id ≠ keyId)

/-- What a verb found, and what it writes. -/
inductive KeyStore.Writing (d : KeyStore) : KeyVerb → List KeyWrite → Prop
  | repair (keyId : String) {signer : String} (hsigning : d.signing = some signer) :
      Writing d (.init keyId) []
  | first (keyId : String) (hmissing : d.verify = none ∨ d.signing = none) :
      Writing d (.init keyId) [.verify [⟨keyId, true⟩], .signing keyId]
  | rotate (keyId : String) {old : List VerifyKey} (hold : d.verify = some old)
      (hnodup : ((rotated keyId old).map (·.id)).Nodup) :
      Writing d (.rotate keyId) [.verify (rotated keyId old), .signing keyId]
  | drop {keys : List VerifyKey} {dropped : VerifyKey} (hkeys : d.verify = some keys)
      (hmem : dropped ∈ keys) (hretired : dropped.current = false) :
      Writing d (.drop dropped.id) [.verify (without dropped.id keys)]

theorem KeyStore.writing {d : KeyStore} {v : KeyVerb} {ws : List KeyWrite}
    (h : d.writes v = some ws) : d.Writing v ws := by
  cases v with
  | init keyId =>
      rw [writes] at h
      split at h
      next keys signer hkeys hsigner =>
        obtain ⟨_, -, rfl⟩ := Option.map_eq_some_iff.mp h
        exact .repair keyId hsigner
      next hmissing =>
        obtain ⟨keys, hkeys, rfl⟩ := Option.map_eq_some_iff.mp h
        obtain ⟨rfl, -⟩ := parseKeys_some hkeys
        refine .first keyId ?_
        cases hverify : d.verify with
        | none => exact .inl rfl
        | some keys =>
            cases hsigning : d.signing with
            | none => exact .inr rfl
            | some signer => exact absurd hsigning (hmissing keys signer hverify)
  | rotate keyId =>
      obtain ⟨old, hold, h⟩ := Option.bind_eq_some_iff.mp h
      obtain ⟨keys, hkeys, rfl⟩ := Option.map_eq_some_iff.mp h
      obtain ⟨rfl, hnodup⟩ := parseKeys_some hkeys
      exact .rotate keyId hold hnodup
  | drop keyId =>
      obtain ⟨keys, hkeys, h⟩ := Option.bind_eq_some_iff.mp h
      obtain ⟨dropped, hfind, h⟩ := Option.bind_eq_some_iff.mp h
      split_ifs at h with hcurrent
      obtain ⟨remaining, hremaining, rfl⟩ := Option.map_eq_some_iff.mp h
      obtain ⟨rfl, -⟩ := parseKeys_some hremaining
      obtain rfl : dropped.id = keyId := by simpa using List.find?_some hfind
      exact .drop hkeys (List.mem_of_find?_eq_some hfind) (by simpa using hcurrent)

/-! ### Lists -/

/-- A rotation marks its own key. -/
theorem current_rotated (keyId : String) (old : List VerifyKey) :
    ((rotated keyId old).filter (·.current)).map (·.id) = [keyId] := by
  have hold : (old.map fun key => { key with current := false }).filter (·.current) = [] := by
    rw [List.filter_eq_nil_iff]
    intro key hkey
    obtain ⟨key', -, rfl⟩ := List.mem_map.mp hkey
    exact Bool.false_ne_true
  rw [rotated, List.filter_cons_of_pos rfl, hold]
  rfl

theorem ids_rotated (keyId : String) (old : List VerifyKey) :
    (rotated keyId old).map (·.id) = keyId :: old.map (·.id) := by
  rw [rotated, List.map_cons, List.map_map]
  rfl

/-- Dropping a retired key leaves the marks alone. -/
theorem current_without {keys : List VerifyKey} (hnodup : (keys.map (·.id)).Nodup)
    {dropped : VerifyKey} (hmem : dropped ∈ keys) (hretired : dropped.current = false) :
    (without dropped.id keys).filter (·.current) = keys.filter (·.current) := by
  rw [without, List.filter_filter]
  refine List.filter_congr fun key hkey => ?_
  cases hcurrent : key.current with
  | false => rfl
  | true =>
      rw [Bool.true_and, decide_eq_true_eq]
      intro hid
      rw [List.inj_on_of_nodup_map hnodup hkey hmem hid, hretired] at hcurrent
      cases hcurrent

theorem mem_ids_without {keyId id : String} {keys : List VerifyKey} :
    id ∈ (without keyId keys).map (·.id) ↔ id ∈ keys.map (·.id) ∧ id ≠ keyId := by
  simp only [without, List.mem_map, List.mem_filter, decide_eq_true_eq]
  constructor
  · rintro ⟨key, ⟨hkey, hne⟩, rfl⟩
    exact ⟨⟨key, hkey, rfl⟩, hne⟩
  · rintro ⟨⟨key, hkey, rfl⟩, hne⟩
    exact ⟨key, ⟨hkey, hne⟩, rfl⟩

namespace KeyRun

variable {s s' : KeyRun Id} {e : KeyEvent Id}

/-! ### One write -/

/-- A new list with every key that signed keeps the run. -/
theorem Kept.relist (h : s.Kept) {keys : List VerifyKey} (hkeys : ListKept keys)
    (hsigned : ∀ keyId ∈ s.signed, keyId ∈ keys.map (·.id)) : (s.write (.verify keys)).Kept where
  lists := fun _ heq => Option.some.inj heq ▸ hkeys
  listed := fun keyId hmem => ⟨keys, rfl, hsigned keyId hmem⟩
  signing := h.signing
  unsigned := h.unsigned
  tickets := h.tickets

/-- A new signing key that is listed keeps the run. -/
theorem Kept.sign (h : s.Kept) {keys : List VerifyKey} {keyId : String}
    (hverify : s.store.verify = some keys) (hlisted : keyId ∈ keys.map (·.id)) :
    (s.write (.signing keyId)).Kept where
  lists := h.lists
  listed := fun id hmem => by
    rcases List.mem_cons.mp hmem with rfl | hmem
    · exact ⟨keys, hverify, hlisted⟩
    · exact h.listed id hmem
  signing := fun id hid => Option.some.inj hid ▸ List.mem_cons_self
  unsigned := fun hnone => nomatch hnone
  tickets := fun p hp => ⟨(h.tickets p hp).1,
    fun hexp => List.mem_cons_of_mem _ ((h.tickets p hp).2 hexp)⟩

/-- However many of the two writes of a new pair are made. -/
theorem Kept.pair (h : s.Kept) {keys : List VerifyKey} {keyId : String} (hkeys : ListKept keys)
    (hsigned : ∀ id ∈ s.signed, id ∈ keys.map (·.id)) (hlisted : keyId ∈ keys.map (·.id))
    (cut : Option ℕ) :
    ((cutWrites cut [.verify keys, .signing keyId]).foldl write s).Kept := by
  have hfirst := h.relist hkeys hsigned
  have hboth : ((s.write (.verify keys)).write (.signing keyId)).Kept :=
    hfirst.sign rfl hlisted
  match cut with
  | none => exact hboth
  | some 0 => exact h
  | some 1 => exact hfirst
  | some (n + 2) =>
      rw [cutWrites, List.take_of_length_le (by simp)]
      exact hboth

theorem Kept.drop (h : s.Kept) {keys : List VerifyKey} {dropped : VerifyKey}
    (hkeys : s.store.verify = some keys) (hmem : dropped ∈ keys)
    (hretired : dropped.current = false) (hsigner : s.store.signing ≠ some dropped.id)
    (hexpired : ∀ p ∈ s.tickets, p.keyId = dropped.id → p.claims.exp ≤ s.nowNs) :
    Kept { s with
      store := s.store.write (.verify (without dropped.id keys))
      signed := s.signed.filter (· ≠ dropped.id) } where
  lists := fun keys' hkeys' => by
    obtain rfl := Option.some.inj hkeys'
    obtain ⟨hnodup, hmarked⟩ := h.lists keys hkeys
    exact ⟨hnodup.sublist (List.filter_sublist.map _),
      by rw [current_without hnodup hmem hretired]; exact hmarked⟩
  listed := fun id hid => by
    obtain ⟨hid, hne⟩ := List.mem_filter.mp hid
    obtain ⟨keys', hkeys', hlisted⟩ := h.listed id hid
    obtain rfl := Option.some.inj (hkeys.symm.trans hkeys')
    exact ⟨_, rfl, mem_ids_without.mpr ⟨hlisted, of_decide_eq_true hne⟩⟩
  signing := fun id hid => List.mem_filter.mpr ⟨h.signing id hid,
    decide_eq_true fun heq => hsigner (heq ▸ hid)⟩
  unsigned := fun hnone => by
    obtain ⟨hsigned, htickets⟩ := h.unsigned hnone
    exact ⟨by rw [hsigned]; rfl, htickets⟩
  tickets := fun p hp => ⟨(h.tickets p hp).1, fun hexp => List.mem_filter.mpr
    ⟨(h.tickets p hp).2 hexp,
      decide_eq_true fun heq => Nat.not_lt.mpr (hexpired p hp heq) hexp⟩⟩

/-! ### One event -/

/-- The state after a drop that wrote its list. -/
theorem runVerb_drop {keyId : String} {keys : List VerifyKey} {cut : Option ℕ}
    (hwrites : s.store.writes (.drop keyId) = some [.verify keys])
    (hcut : cutWrites cut [.verify keys] ≠ []) :
    s.runVerb (.drop keyId) cut = { s with
      store := s.store.write (.verify keys)
      signed := s.signed.filter (· ≠ keyId) } := by
  have hall : cutWrites cut [KeyWrite.verify keys] = [.verify keys] := by
    match cut with
    | none => rfl
    | some 0 => exact absurd rfl hcut
    | some (n + 1) => rw [cutWrites, List.take_succ_cons, List.take_nil]
  simp only [runVerb, hwrites, hall]
  rfl

theorem Kept.tearing (h : s.Kept) (v : KeyVerb) (ws : List KeyWrite) : (s.tearing v ws).Kept := by
  unfold KeyRun.tearing
  split
  · exact ⟨h.lists, h.listed, h.signing, h.unsigned, h.tickets⟩
  · exact ⟨h.lists, h.listed, h.signing, h.unsigned, h.tickets⟩
  · exact h

/-- The key that signs is not retired, unless a pair is torn. -/
theorem Kept.signer (h : s.Kept) (hpaired : s.Paired) {keys : List VerifyKey}
    {dropped : VerifyKey} (hkeys : s.store.verify = some keys) (hmem : dropped ∈ keys)
    (hretired : dropped.current = false)
    (htorn : s.torn = true → s.store.signing ≠ some dropped.id) :
    s.store.signing ≠ some dropped.id := by
  intro hsigning
  cases ht : s.torn with
  | true => exact htorn ht hsigning
  | false =>
      obtain ⟨keys', keyId, hkeys', hkey, hmarked⟩ := (hpaired (by rw [hkeys]; rfl)).mpr ht
      obtain rfl := Option.some.inj (hkeys.symm.trans hkeys')
      obtain rfl := Option.some.inj (hsigning.symm.trans hkey)
      have hin : dropped.id ∈ (keys.filter (·.current)).map (·.id) := by
        rw [hmarked]
        exact List.mem_singleton_self _
      obtain ⟨key, hkey, hid⟩ := List.mem_map.mp hin
      obtain ⟨hkey, hcurrent⟩ := List.mem_filter.mp hkey
      rw [List.inj_on_of_nodup_map (h.lists keys hkeys).nodup hkey hmem hid, hretired] at hcurrent
      cases hcurrent

theorem runVerb_cut {v : KeyVerb} {ws : List KeyWrite} {cut : Option ℕ}
    (hwrites : s.store.writes v = some ws) (hcut : cutWrites cut ws = []) :
    s.runVerb v cut = s := by
  simp only [runVerb, hwrites, hcut]
  cases v <;> rfl

/-- Before the first pair is written nothing was signed. -/
theorem Kept.nothing_signed (h : s.Kept)
    (hmissing : s.store.verify = none ∨ s.store.signing = none) : s.signed = [] := by
  rcases hmissing with hnone | hnone
  · rw [List.eq_nil_iff_forall_not_mem]
    intro keyId hmem
    obtain ⟨keys, hkeys, -⟩ := h.listed keyId hmem
    rw [hnone] at hkeys
    cases hkeys
  · exact (h.unsigned hnone).1

theorem Kept.runVerb (h : s.Kept) (hpaired : s.Paired) {v : KeyVerb} {cut : Option ℕ}
    {audited : Bool} (hcareful : s.Careful (.verb v cut audited)) : (s.runVerb v cut).Kept := by
  cases hwrites : s.store.writes v with
  | none =>
      rw [KeyRun.runVerb, hwrites]
      exact h
  | some ws =>
      cases KeyStore.writing hwrites with
      | repair keyId hsigning =>
          rw [runVerb_cut hwrites (cutWrites_nil cut)]
          exact h
      | first keyId hmissing =>
          simp only [KeyRun.runVerb, hwrites]
          refine (h.pair ⟨by simp, keyId, rfl⟩ (fun id hid => ?_) (List.mem_singleton_self _)
            cut).tearing _ _
          rw [h.nothing_signed hmissing] at hid
          exact absurd hid List.not_mem_nil
      | @rotate keyId old hold hnodup =>
          simp only [KeyRun.runVerb, hwrites]
          refine (h.pair ⟨hnodup, keyId, current_rotated keyId old⟩ (fun id hid => ?_) ?_
            cut).tearing _ _
          · obtain ⟨keys, hkeys, hlisted⟩ := h.listed id hid
            obtain rfl := Option.some.inj (hold.symm.trans hkeys)
            rw [ids_rotated]
            exact List.mem_cons_of_mem _ hlisted
          · rw [ids_rotated]
            exact List.mem_cons_self
      | @drop keys dropped hkeys hmem hretired =>
          by_cases hcut : cutWrites cut [.verify (without dropped.id keys)] = []
          · rw [runVerb_cut hwrites hcut]
            exact h
          · obtain ⟨htorn, hexpired⟩ := hcareful.1 _ cut audited rfl ⟨_, hwrites, hcut⟩
            rw [runVerb_drop hwrites hcut]
            exact h.drop hkeys hmem hretired (h.signer hpaired hkeys hmem hretired htorn) hexpired

/-- The list of a pair is new to the key that signs. -/
theorem not_currentSigns {keys : List VerifyKey} {keyId : String}
    (hmarked : (keys.filter (·.current)).map (·.id) = [keyId])
    (hsigner : s.store.signing ≠ some keyId) (hverify : s.store.verify = some keys) :
    ¬ s.currentSigns := by
  rintro ⟨keys', signer, hkeys', hsigning, hmarked'⟩
  obtain rfl := Option.some.inj (hverify.symm.trans hkeys')
  rw [hmarked, List.singleton_inj] at hmarked'
  exact hsigner (hmarked' ▸ hsigning)

/-- However many of the two writes of a new pair are made: none leave the run as
it was, the list alone tears the pair, and both make it whole. -/
theorem Paired.pair (h : s.Paired) {v : KeyVerb} {keys : List VerifyKey} {keyId : String}
    {cut : Option ℕ} (hv : ∀ id, v ≠ .drop id)
    (hwrites : s.store.writes v = some [.verify keys, .signing keyId])
    (hmarked : (keys.filter (·.current)).map (·.id) = [keyId])
    (hsigner : s.store.signing ≠ some keyId) : (s.runVerb v cut).Paired := by
  have hboth : cutWrites cut [.verify keys, .signing keyId] = [.verify keys, .signing keyId] →
      (s.runVerb v cut).Paired := by
    intro hcut
    have hstate : s.runVerb v cut = (s.write (.verify keys)).write (.signing keyId) := by
      simp only [KeyRun.runVerb, hwrites, hcut]
      cases v with
      | drop id => exact absurd rfl (hv id)
      | init id => rfl
      | rotate id => rfl
    rw [hstate]
    exact fun _ => iff_of_true ⟨keys, keyId, rfl, rfl, hmarked⟩ rfl
  rcases cut with _ | _ | _ | n
  · exact hboth rfl
  · rw [runVerb_cut hwrites rfl]
    exact h
  · have hstate : s.runVerb v (some 1) = { s.write (.verify keys) with torn := true } := by
      simp only [KeyRun.runVerb, hwrites, cutWrites, List.take_succ_cons, List.take_zero]
      cases v with
      | drop id => exact absurd rfl (hv id)
      | init id => rfl
      | rotate id => rfl
    rw [hstate]
    exact fun _ => iff_of_false (not_currentSigns hmarked hsigner rfl) Bool.noConfusion
  · exact hboth (List.take_of_length_le (by simp))

theorem Paired.runVerb (hpaired : s.Paired) (h : s.Kept) (v : KeyVerb) (cut : Option ℕ) :
    (s.runVerb v cut).Paired := by
  cases hwrites : s.store.writes v with
  | none =>
      rw [KeyRun.runVerb, hwrites]
      exact hpaired
  | some ws =>
      cases KeyStore.writing hwrites with
      | repair keyId hsigning =>
          rw [runVerb_cut hwrites (cutWrites_nil cut)]
          exact hpaired
      | first keyId hmissing =>
          refine hpaired.pair (fun _ => KeyVerb.noConfusion) hwrites rfl fun hsigning => ?_
          have hsigned := h.signing keyId hsigning
          rw [h.nothing_signed hmissing] at hsigned
          exact absurd hsigned List.not_mem_nil
      | @rotate keyId old hold hnodup =>
          refine hpaired.pair (fun _ => KeyVerb.noConfusion) hwrites (current_rotated keyId old)
            fun hsigning => ?_
          obtain ⟨keys, hkeys, hlisted⟩ := h.listed keyId (h.signing keyId hsigning)
          obtain rfl := Option.some.inj (hold.symm.trans hkeys)
          rw [ids_rotated, List.nodup_cons] at hnodup
          exact hnodup.1 hlisted
      | @drop keys dropped hkeys hmem hretired =>
          by_cases hcut : cutWrites cut [.verify (without dropped.id keys)] = []
          · rw [runVerb_cut hwrites hcut]
            exact hpaired
          · rw [runVerb_drop hwrites hcut]
            have hsame := current_without (h.lists keys hkeys).nodup hmem hretired
            refine fun _ => Iff.trans ?_ (hpaired (by rw [hkeys]; rfl))
            constructor
            · rintro ⟨keys', keyId, hkeys', hsigning, hmarked⟩
              obtain rfl := Option.some.inj hkeys'
              exact ⟨keys, keyId, hkeys, hsigning, hsame ▸ hmarked⟩
            · rintro ⟨keys', keyId, hkeys', hsigning, hmarked⟩
              obtain rfl := Option.some.inj (hkeys.symm.trans hkeys')
              exact ⟨_, keyId, rfl, hsigning, hsame.symm ▸ hmarked⟩

theorem Paired.next (hpaired : s.Paired) (h : s.Kept) (hstep : s.step e = some s') :
    s'.Paired := by
  cases e with
  | verb v cut audited =>
      obtain rfl := Option.some.inj hstep
      exact hpaired.runVerb h v cut
  | mint principal repo rootTree ttlSecs =>
      simp only [step] at hstep
      split_ifs at hstep
      obtain ⟨keyId, -, rfl⟩ := Option.map_eq_some_iff.mp hstep
      exact hpaired
  | tick ns =>
      obtain rfl := Option.some.inj hstep
      exact hpaired

theorem Kept.next (h : s.Kept) (hpaired : s.Paired) (hcareful : s.Careful e)
    (hstep : s.step e = some s') : s'.Kept := by
  cases e with
  | verb v cut audited =>
      obtain rfl := Option.some.inj hstep
      exact h.runVerb hpaired hcareful
  | mint principal repo rootTree ttlSecs =>
      simp only [step] at hstep
      split_ifs at hstep with httl
      obtain ⟨keyId, hkey, rfl⟩ := Option.map_eq_some_iff.mp hstep
      refine ⟨h.lists, h.listed, h.signing, fun hnone => ?_, fun p hp => ?_⟩
      · rw [hkey] at hnone
        cases hnone
      · rcases List.mem_append.mp hp with hp | hp
        · exact h.tickets p hp
        · rw [List.mem_singleton.mp hp]
          refine ⟨⟨le_rfl, ?_, ?_⟩, fun _ => h.signing keyId hkey⟩
          · refine (min_le_left _ _).trans ?_
            have := Nat.mul_le_mul_right nsPerSec (Nat.le_of_not_lt httl)
            simp only
            omega
          · exact lt_of_le_of_lt (min_le_right _ _) (by decide)
  | tick ns =>
      obtain rfl := Option.some.inj hstep
      refine ⟨h.lists, h.listed, h.signing, h.unsigned, fun p hp => ?_⟩
      obtain ⟨⟨hiat, hspan, hsmall⟩, hsigned⟩ := h.tickets p hp
      exact ⟨⟨hiat.trans (Nat.le_add_right _ _), hspan, hsmall⟩,
        fun hexp => hsigned (lt_of_le_of_lt (Nat.le_add_right _ _) hexp)⟩

/-- A verb that reports success leaves the marked key signing, unless it found a
torn pair and left it. -/
theorem Kept.settled (h : s.Kept) (hpaired : s.Paired) {v : KeyVerb}
    (hcareful : s.Careful (.verb v none true)) (hwrites : (s.store.writes v).isSome) :
    (s.runVerb v none).Settled := by
  refine ⟨?_, (h.runVerb hpaired hcareful).listed⟩
  have hpaired' := hpaired.runVerb h v none
  obtain ⟨ws, hws⟩ := Option.isSome_iff_exists.mp hwrites
  cases KeyStore.writing hws with
  | repair keyId hsigning =>
      obtain ⟨keys, hkeys, -⟩ := h.listed _ (h.signing _ hsigning)
      rw [runVerb_cut hws (cutWrites_nil none)]
      exact (hpaired (by rw [hkeys]; rfl)).mpr (hcareful.2.2 keyId rfl hws)
  | first keyId hmissing =>
      simp only [KeyRun.runVerb, hws]
      exact ⟨_, keyId, rfl, rfl, rfl⟩
  | @rotate keyId old hold hnodup =>
      simp only [KeyRun.runVerb, hws]
      exact ⟨_, keyId, rfl, rfl, current_rotated keyId old⟩
  | @drop keys dropped hkeys hmem hretired =>
      have hwhole := hcareful.2.1 _ rfl hwrites
      rw [runVerb_drop hws (show cutWrites none _ ≠ [] from List.cons_ne_nil _ _)] at hpaired' ⊢
      exact (hpaired' rfl).mpr hwhole

/-- What an event promises is what it has to be careful of. -/
theorem Kept.careful_of_promised (h : s.Kept) (hpaired : s.Paired)
    (hpromised : ∀ s', s.step e = some s' → s.Promised e s') : s.Careful e := by
  refine ⟨?_, ?_, ?_⟩
  · rintro keyId cut audited rfl ⟨ws, hws, hcut⟩
    have hp := hpromised _ rfl
    refine ⟨fun _ => hp.dropped keyId cut audited rfl ⟨ws, hws, hcut⟩, fun p hp' hkey => ?_⟩
    cases KeyStore.writing hws with
    | @drop keys dropped hkeys hmem hretired =>
        by_contra hexp
        have hsound := hp.sound
        rw [runVerb_drop hws hcut] at hsound
        obtain ⟨⟨keys', hkeys', hlisted⟩, -⟩ := hsound.tickets p hp' (Nat.not_le.mp hexp)
        obtain rfl := Option.some.inj hkeys'
        exact (mem_ids_without.mp hlisted).2 hkey
  · rintro keyId rfl hwrites
    obtain ⟨ws, hws⟩ := Option.isSome_iff_exists.mp hwrites
    have hcurrent := ((hpromised _ rfl).settled _ rfl hwrites).current
    have hpaired' := hpaired.runVerb h (.drop keyId) none
    cases KeyStore.writing hws with
    | @drop keys dropped hkeys hmem hretired =>
        rw [runVerb_drop hws (show cutWrites none _ ≠ [] from List.cons_ne_nil _ _)]
          at hcurrent hpaired'
        exact (hpaired' rfl).mp hcurrent
  · rintro keyId rfl hws
    have hcurrent := ((hpromised _ rfl).settled _ rfl (by rw [hws]; rfl)).current
    rw [runVerb_cut hws (cutWrites_nil none)] at hcurrent
    obtain ⟨keys, signer, hkeys, hrest⟩ := hcurrent
    exact (hpaired (by rw [hkeys]; rfl)).mp ⟨keys, signer, hkeys, hrest⟩

theorem Kept.promised_iff (h : s.Kept) (hpaired : s.Paired) :
    (∀ s', s.step e = some s' → s.Promised e s') ↔ s.Careful e := by
  constructor
  · exact h.careful_of_promised hpaired
  · intro hcareful s' hstep
    refine ⟨(h.next hpaired hcareful hstep).sound, ?_, ?_⟩
    · rintro keyId cut audited rfl ⟨ws, hws, hcut⟩
      have htorn := (hcareful.1 keyId cut audited rfl ⟨ws, hws, hcut⟩).1
      cases KeyStore.writing hws with
      | @drop keys dropped hkeys hmem hretired => exact h.signer hpaired hkeys hmem hretired htorn
    · rintro v rfl hwrites
      obtain rfl := Option.some.inj hstep
      exact h.settled hpaired hcareful hwrites

/-- In every run of the verbs, cut off anywhere, the tickets verify, no drop takes
the signing key and every success leaves it marked, exactly when no key is dropped
under an unexpired ticket, and while a pair is torn no drop takes the signing key
and no drop or repair reports success. -/
theorem keyStore_promised_iff (events : List (KeyEvent Id)) :
    Lib.Along step (fun s e => ∀ s', s.step e = some s' → s.Promised e s') {} events ↔
      Lib.Along step Careful {} events :=
  Lib.Along.iff (I := fun s : KeyRun Id => s.Kept ∧ s.Paired)
    (fun _ _ h => h.1.promised_iff h.2)
    (fun _ _ _ h hcareful hstep => ⟨h.1.next h.2 hcareful hstep, h.2.next h.1 hstep⟩)
    ⟨kept_start, fun h => by cases h⟩

/-- A rotation crashes between its two files; a drop then takes the key the
origin still signs with. -/
theorem signing_key_dropped : ¬ Lib.Along step
    (fun (s : KeyRun Empty) e => ∀ s', s.step e = some s' → s.Promised e s') {}
    [.verb (.init "aa") none true, .verb (.rotate "bb") (some 1) false,
      .verb (.drop "aa") none true] := by
  intro h
  refine (h.2 _ rfl).2 _ rfl |>.1 _ rfl |>.dropped "aa" none true rfl ⟨_, rfl, ?_⟩ rfl
  exact List.cons_ne_nil _ _

end KeyRun

/-! ### The verbs of a data directory -/

variable [Platform Id]

theorem HostDir.keyStoreWrite_files {d d' : HostDir Id} {keys : List VerifyKey}
    {keyId action : String} {fields : List (String × String)} {ran : Ran Id}
    (h : d.keyStoreWrite keys keyId action fields = some (d', ran)) :
    (KeyStore.pairWrites keys keyId).map (·.foldl KeyStore.write d.keyStore) =
      some d'.keyStore := by
  obtain ⟨parsed, hparsed, h⟩ := Option.map_eq_some_iff.mp h
  obtain ⟨rfl, -⟩ := Prod.mk.inj h
  rw [KeyStore.pairWrites, hparsed]
  rfl

/-- A key verb that ends with exit code 0 has made its writes. -/
theorem HostDir.run_keyStore {d d' : HostDir Id} {v : KeyVerb} {ran : Ran Id}
    (h : (match v with
      | .init keyId => d.cacheKeyInit keyId
      | .rotate keyId => d.cacheKeyRotate keyId
      | .drop keyId => d.cacheKeyDrop keyId) = some (d', ran)) :
    (d.keyStore.writes v).map (·.foldl KeyStore.write d.keyStore) = some d'.keyStore := by
  cases v with
  | init keyId =>
      change d.cacheKeyInit keyId = some (d', ran) at h
      unfold cacheKeyInit at h
      split at h
      next keys signer hkeys hsigner =>
        obtain ⟨key, hkey, h⟩ := Option.map_eq_some_iff.mp h
        obtain ⟨rfl, -⟩ := Prod.mk.inj h
        simp only [KeyStore.writes, keyStore, hkeys, hsigner, hkey, Option.map_some,
          List.foldl_nil]
      next hmissing =>
        have hwrites : d.keyStore.writes (.init keyId) =
            KeyStore.pairWrites [⟨keyId, true⟩] keyId := by
          rw [KeyStore.writes]
          split
          next keys signer hkeys hsigner => exact absurd hsigner (hmissing keys signer hkeys)
          next => rfl
        rw [hwrites]
        exact keyStoreWrite_files h
  | rotate keyId =>
      obtain ⟨old, hold, h⟩ := Option.bind_eq_some_iff.mp h
      simp only [KeyStore.writes, keyStore, hold, Option.bind_some]
      have hfiles := keyStoreWrite_files h
      rwa [keyStore, hold] at hfiles
  | drop keyId =>
      obtain ⟨keys, hkeys, h⟩ := Option.bind_eq_some_iff.mp h
      obtain ⟨dropped, hfind, h⟩ := Option.bind_eq_some_iff.mp h
      simp only [KeyStore.writes, keyStore, hkeys, hfind, Option.bind_some]
      split_ifs at h ⊢ with hcurrent
      obtain ⟨remaining, hremaining, h⟩ := Option.map_eq_some_iff.mp h
      obtain ⟨rfl, -⟩ := Prod.mk.inj h
      rw [hremaining]
      rfl

end

end Naatre
