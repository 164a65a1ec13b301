import Naatre.Core.Path
import Mathlib.Data.List.TakeWhile

/-!
The one parser of remote URLs (`naatre-cli/src/url.rs`), the admission of plain
http behind it (`admit_remote`, `Wc::client` in `wc/mod.rs`, `clone`) and that
of a cache tier (`fetch_blobs_verified` in `wc/fetch.rs`).

A text is the list of its characters. The URI library that connects is given by
what it takes of a text.
-/

namespace Naatre.Client.Url

abbrev Text := List Char

/-- What holds of every character of a text is decided along the text. -/
instance (priority := 2000) decidableChars (s : Text) (p : Char → Prop) [DecidablePred p] :
    Decidable (∀ c ∈ s, p c) := List.decidableBAll p s

def lower (s : Text) : Text := s.map Char.toLower

/-- `char::is_whitespace`. -/
def isWhitespace (c : Char) : Bool :=
  let n := c.toNat
  decide (9 ≤ n ∧ n ≤ 13) || n == 0x20 || n == 0x85 || n == 0xa0 || n == 0x1680 ||
    decide (0x2000 ≤ n ∧ n ≤ 0x200a) || n == 0x2028 || n == 0x2029 || n == 0x202f ||
    n == 0x205f || n == 0x3000

/-- `str::trim`. -/
def trim (s : Text) : Text :=
  ((s.dropWhile isWhitespace).reverse.dropWhile isWhitespace).reverse

/-- `split_once`. -/
def splitOnce (sep : Text) : Text → Option (Text × Text)
  | [] => if sep = [] then some ([], []) else none
  | c :: rest =>
      match sep.isPrefixOf? (c :: rest) with
      | some after => some ([], after)
      | none => (splitOnce sep rest).map fun (before, after) => (c :: before, after)

/-- `rsplit_once` at a character: what follows its last occurrence. -/
def afterLast (sep : Char) (s : Text) : Option Text :=
  if sep ∈ s then some (s.reverse.takeWhile (· ≠ sep)).reverse else none

/-- `parse` of an unsigned integer up to `max`: digits, with a plus sign or
without. -/
def parseUnsigned (max : ℕ) (s : Text) : Option ℕ :=
  let digits := if s.head? = some '+' then s.tail else s
  if digits = [] ∨ ¬ digits.all Char.isDigit then none
  else
    let n := Nat.ofDigitChars 10 digits 0
    if n ≤ max then some n else none

def parseU8 (s : Text) : Option UInt8 := (parseUnsigned 255 s).map UInt8.ofNat
def parseU16 (s : Text) : Option UInt16 := (parseUnsigned 65535 s).map UInt16.ofNat

/-! ### Remotes -/

def http : Text := "http".toList
def https : Text := "https".toList
def schemeEnd : Text := "://".toList

/-- `OriginKey`. -/
structure OriginKey where
  scheme : Text
  host : Text
  port : UInt16
  deriving DecidableEq

/-- `default_port`. -/
def defaultPort (scheme : Text) : Option UInt16 :=
  if scheme = http then some 80 else if scheme = https then some 443 else none

structure ParsedRemote where
  scheme : Text
  host : Text
  port : UInt16
  path : Text
  deriving DecidableEq

/-- A host as a URL has it: an IPv6 literal in brackets. -/
def urlHost (host : Text) : Text := if ':' ∈ host then '[' :: (host ++ [']']) else host

namespace ParsedRemote

def key (p : ParsedRemote) : OriginKey := ⟨p.scheme, p.host, p.port⟩

def portText (p : ParsedRemote) : Text :=
  if defaultPort p.scheme = some p.port then []
  else ':' :: (toString p.port.toNat).toList

def origin (p : ParsedRemote) : Text := p.scheme ++ schemeEnd ++ urlHost p.host ++ p.portText

end ParsedRemote

/-- `is_loopback_host`. -/
def isLoopbackHost (host : Text) : Bool :=
  if lower host = "localhost".toList ∨ host = "::1".toList then true
  else
    let octets := host.splitOn '.'
    decide (octets.length = 4) && decide (parseU8 (octets.headD []) = some 127) &&
      octets.tail.all fun o => (parseU8 o).isSome

def ParsedRemote.isLoopback (p : ParsedRemote) : Bool := isLoopbackHost p.host

/-! ### The parse -/

/-- What the URI library takes of a text. -/
structure UriParts where
  host : Option Text
  port : Option UInt16
  path : Text

/-- `Uri::from_str`. -/
structure UriLib where
  fromStr : Text → Except Text UriParts

inductive RemoteError
  | noScheme (url : Text)
  | badScheme (scheme : Text)
  | backslash (url : Text)
  | queryOrFragment (url : Text)
  | noHost (url : Text)
  | userinfo (authority : Text)
  | percent (authority : Text)
  | badPort (raw url : Text)
  | notUrl (url error : Text)
  | plainHttp (host origin : Text)
  | plainTier (origin : Text)
  deriving DecidableEq

def debugText (s : Text) : String := quoted (String.ofList s)

def RemoteError.message : RemoteError → String
  | .noScheme url => debugText url ++ " has no scheme (expected https://host[:port]/<repo>)"
  | .badScheme scheme =>
      "URL scheme " ++ debugText scheme ++ " is not supported: the naatre client speaks https " ++
        "(and plain http to loopback hosts)"
  | .backslash url =>
      debugText url ++ " carries a backslash: `\\` is not a URL character and some clients read " ++
        "it as `/`"
  | .queryOrFragment url =>
      debugText url ++ " carries a query or fragment: a remote URL takes none — the authority " ++
        "ends at the first `?`/`#` while the host is taken after the last `@`, so such URLs do " ++
        "not name the origin they appear to"
  | .noHost url => debugText url ++ " has no host"
  | .userinfo authority =>
      "userinfo (@) is not allowed in a remote URL authority (" ++ debugText authority ++
        "): the connecting parser takes the host after the LAST `@`, so anything before it can " ++
        "make the URL name a different origin than it shows"
  | .percent authority =>
      "percent-encoding is not allowed in the scheme/host/port of a remote URL (" ++
        debugText authority ++ "): hosts and ports are compared literally"
  | .badPort raw url =>
      "port " ++ debugText raw ++ " in " ++ debugText url ++ " is not a valid port (0-65535)"
  | .notUrl url e =>
      debugText url ++ " is not a URL the client can connect with: " ++ String.ofList e
  | .plainHttp host origin =>
      "refusing plain http:// to the non-loopback host " ++ String.ofList host ++
        ": use https://, or opt in for this invocation with --insecure-http (or " ++
        "NAATRE_INSECURE_HTTP=1), or for this origin in this working copy with " ++
        "`naatre config set insecure_http \"" ++ String.ofList origin ++ "\"`"
  | .plainTier origin =>
      "refusing plain http:// to the non-loopback cache tier " ++ String.ofList origin ++
        ": the per-remote opt-in covers its own origin only — use https:// for the tier, or set " ++
        "`naatre config set insecure_http \"" ++ String.ofList origin ++
        "\"` in this working copy"

/-- The explicit port of an authority, as it stands in the text. -/
def rawPort : Text → Option Text
  | '[' :: afterOpen =>
      match splitOnce [']'] afterOpen with
      | some (_, ':' :: p) => some p
      | _ => none
  | authority => afterLast ':' authority

/-- `strip_prefix('[')` and `strip_suffix(']')`. -/
def bareHost : Text → Text
  | '[' :: h => if h.getLast? = some ']' then h.dropLast else '[' :: h
  | h => h

/-- `parse_remote`. -/
def parseRemote (lib : UriLib) (text : Text) : Except RemoteError ParsedRemote :=
  let url := trim text
  match splitOnce schemeEnd url with
  | none => .error (.noScheme url)
  | some (schemeRaw, rest) =>
  let scheme := lower schemeRaw
  if scheme ≠ http ∧ scheme ≠ https then .error (.badScheme scheme)
  else if '\\' ∈ url then .error (.backslash url)
  else if '?' ∈ url ∨ '#' ∈ url then .error (.queryOrFragment url)
  else
  let authority := rest.takeWhile (· ≠ '/')
  if authority = [] then .error (.noHost url)
  else if '@' ∈ authority then .error (.userinfo authority)
  else if '%' ∈ authority then .error (.percent authority)
  else if (rawPort authority).any fun raw => (parseU16 raw).isNone then
    .error (.badPort ((rawPort authority).getD []) url)
  else
  match lib.fromStr url with
  | .error e => .error (.notUrl url e)
  | .ok uri =>
  match uri.host with
  | none => .error (.noHost url)
  | some host =>
      .ok
        { scheme := scheme
          host := lower (bareHost host)
          port := (uri.port.or (defaultPort scheme)).getD 0
          path := uri.path }

/-- `origins_match`. -/
def originsMatch (lib : UriLib) (a b : Text) : Bool :=
  match parseRemote lib a, parseRemote lib b with
  | .ok x, .ok y => decide (x.key = y.key)
  | _, _ => false

/-! ### Admission -/

/-- The stored origin is this remote's, over plain http. -/
def storedCovers (lib : UriLib) (stored : Option Text) (parsed : ParsedRemote) : Bool :=
  match stored with
  | none => false
  | some origin =>
      match parseRemote lib origin with
      | .ok s => decide (s.scheme = http) && decide (s.key = parsed.key)
      | .error _ => false

/-- `admit_remote`. -/
def admitRemote (lib : UriLib) (parsed : ParsedRemote) (invocationOptin : Bool)
    (stored : Option Text) : Except RemoteError Unit :=
  if parsed.scheme = https ∨ parsed.isLoopback ∨ invocationOptin then .ok ()
  else if storedCovers lib stored parsed then .ok ()
  else .error (.plainHttp parsed.host parsed.origin)

/-- What a `Client` keeps of its remote. -/
structure RemoteClient where
  base : Text
  insecureOrigin : Option OriginKey

/-- `Client::new_with_ca`, its base without trailing slashes. -/
def newClient (base : Text) (insecureOrigin : Option OriginKey) : RemoteClient :=
  ⟨(base.reverse.dropWhile (· = '/')).reverse, insecureOrigin⟩

/-- `Wc::client`; without a stored origin `Client::from_env` and `mount_client_in`. -/
def wcClient (lib : UriLib) (server : Text) (invocationOptin : Bool) (stored : Option Text) :
    Except RemoteError RemoteClient :=
  match parseRemote lib server with
  | .error e => .error e
  | .ok parsed =>
  match admitRemote lib parsed invocationOptin stored with
  | .error e => .error e
  | .ok () =>
  match stored with
  | none => .ok (newClient parsed.origin none)
  | some origin =>
      match parseRemote lib origin with
      | .error e => .error e
      | .ok s => .ok (newClient parsed.origin (some s.key))

/-- The client of `clone`. -/
def cloneClient (lib : UriLib) (url : Text) (invocationOptin : Bool) :
    Except RemoteError RemoteClient :=
  match parseRemote lib url with
  | .error e => .error e
  | .ok parsed =>
  match admitRemote lib parsed invocationOptin none with
  | .error e => .error e
  | .ok () =>
      .ok (newClient parsed.origin
        (if parsed.scheme = http ∧ invocationOptin = true then some parsed.key else none))

/-- The admission of a cache tier in `fetch_blobs_verified`. -/
def admitTier (lib : UriLib) (client : RemoteClient) (tier : Text) :
    Except RemoteError ParsedRemote :=
  match parseRemote lib tier with
  | .error e => .error e
  | .ok parsed =>
      if !parsed.isLoopback && decide (client.insecureOrigin ≠ some parsed.key) then
        .error (.plainTier parsed.origin)
      else .ok parsed

/-! ### The library -/

/-- The host of an authority: up to the closing bracket of an IP literal, else up
to the colon. -/
def hostOf : Text → Text
  | '[' :: a => '[' :: (a.takeWhile (· ≠ ']') ++ [']'])
  | a => a.takeWhile (· ≠ ':')

def portOf (a : Text) : Option UInt16 := (afterLast ':' a).bind parseU16

/-- An authority `parse_remote` asks the library about. -/
structure PlainAuthority (a : Text) : Prop where
  ne_nil : a ≠ []
  chars : ∀ c ∈ a, c ≠ '/' ∧ c ≠ '@' ∧ c ≠ '%' ∧ c ≠ '\\' ∧ c ≠ '?' ∧ c ≠ '#'

def portSuffix (port : Option UInt16) : Text :=
  port.elim [] fun n => ':' :: (toString n.toNat).toList

/-- What is documented of `Uri` on a URL of these two schemes. -/
structure UriLib.Documented (lib : UriLib) : Prop where
  /-- the host and the port are those of the authority -/
  parts : ∀ {scheme a tail uri}, (lower scheme = http ∨ lower scheme = https) →
    PlainAuthority a → (tail = [] ∨ tail.head? = some '/') →
    lib.fromStr (scheme ++ schemeEnd ++ a ++ tail) = .ok uri →
      uri.host = some (hostOf a) ∧ uri.port = portOf a
  /-- an authority has no white space, and at most one pair of brackets -/
  legal : ∀ {scheme a tail uri}, (lower scheme = http ∨ lower scheme = https) →
    PlainAuthority a → (tail = [] ∨ tail.head? = some '/') →
    lib.fromStr (scheme ++ schemeEnd ++ a ++ tail) = .ok uri →
      (∀ c ∈ a, isWhitespace c = false) ∧ a.count '[' = a.count ']' ∧ a.count '[' ≤ 1
  /-- the host of a URL is one of its own, in lower case, and so is what an IP
  literal holds where that has no colon; with its port and without -/
  hosts : ∀ {scheme a tail uri}, (lower scheme = http ∨ lower scheme = https) →
    PlainAuthority a → (tail = [] ∨ tail.head? = some '/') →
    lib.fromStr (scheme ++ schemeEnd ++ a ++ tail) = .ok uri →
    ∀ host, (host = lower (hostOf a) ∨
        ∃ literal, hostOf a = '[' :: (literal ++ [']']) ∧ ':' ∉ literal ∧ host = lower literal) →
      host.count '[' = host.count ']' → ∀ port, (port = none ∨ port = portOf a) →
        host ++ portSuffix port ≠ [] →
          ∃ uri', lib.fromStr (lower scheme ++ schemeEnd ++ (host ++ portSuffix port)) = .ok uri'

/-! ### Texts -/

theorem splitOnce_of_not_mem {sep : Text} {c : Char} {cs s rest : Text} (hsep : sep = c :: cs)
    (h : c ∉ s) : splitOnce sep (s ++ sep ++ rest) = some (s, rest) := by
  subst hsep
  induction s with
  | nil =>
      have hpre : (c :: cs).isPrefixOf? (c :: (cs ++ rest)) = some rest := by
        rw [← List.cons_append, List.isPrefixOf?_eq_some_iff_append_eq]
      rw [List.nil_append, List.cons_append, splitOnce, hpre]
  | cons d s ih =>
      obtain ⟨hne, hs⟩ := not_or.mp (List.mem_cons.not.mp h)
      have hpre : (c :: cs).isPrefixOf? (d :: (s ++ (c :: cs) ++ rest)) = none := by
        simp [List.isPrefixOf?, hne]
      rw [List.cons_append, List.cons_append, splitOnce, hpre, ih hs]
      rfl

theorem eq_of_splitOnce {sep l a b : Text} (h : splitOnce sep l = some (a, b)) :
    l = a ++ sep ++ b := by
  induction l generalizing a b with
  | nil =>
      rw [splitOnce] at h
      split_ifs at h with hsep
      cases h
      rw [hsep]
      rfl
  | cons c l ih =>
      rw [splitOnce] at h
      split at h
      next after hafter =>
        cases h
        rw [List.nil_append]
        exact (List.isPrefixOf?_eq_some_iff_append_eq.mp hafter).symm
      next =>
        obtain ⟨⟨a', b'⟩, hrest, heq⟩ := Option.map_eq_some_iff.mp h
        cases heq
        rw [ih hrest, List.cons_append, List.cons_append]

theorem dropWhile_of_all {s : Text} (h : ∀ c ∈ s, isWhitespace c = false) :
    s.dropWhile isWhitespace = s := by
  cases s with
  | nil => rfl
  | cons c s => rw [List.dropWhile_cons_of_neg (by simp [h c List.mem_cons_self])]

theorem trim_of_all {s : Text} (h : ∀ c ∈ s, isWhitespace c = false) : trim s = s := by
  rw [trim, dropWhile_of_all h, dropWhile_of_all fun c hc => h c (List.mem_reverse.mp hc),
    List.reverse_reverse]

theorem toNat_toLower (c : Char) :
    c.toLower.toNat = if 65 ≤ c.toNat ∧ c.toNat ≤ 90 then c.toNat + 32 else c.toNat := by
  have hval : c.val.toNat = c.toNat := rfl
  unfold Char.toLower
  split_ifs with hupper hnat hnat
  · show (c.val + ('a'.val - 'A'.val)).toNat = c.toNat + 32
    rw [UInt32.toNat_add, show ('a'.val - 'A'.val).toNat = 32 from rfl, hval]
    omega
  · exact absurd ⟨hupper.1, hupper.2⟩ hnat
  · exact absurd ⟨hnat.1, hnat.2⟩ hupper
  · rfl

/-- A character that is no letter. -/
def NoLetter (d : Char) : Prop :=
  (d.toNat < 65 ∨ 90 < d.toNat) ∧ (d.toNat < 97 ∨ 122 < d.toNat)

instance (d : Char) : Decidable (NoLetter d) := inferInstanceAs (Decidable (_ ∧ _))

theorem toLower_eq_iff {c d : Char} (hd : NoLetter d) : c.toLower = d ↔ c = d := by
  obtain ⟨hupper, hlower⟩ := hd
  rw [← Char.toNat_inj, ← Char.toNat_inj, toNat_toLower]
  split_ifs <;> omega

theorem mem_lower {s : Text} {d : Char} (hd : NoLetter d) : d ∈ lower s ↔ d ∈ s := by
  rw [lower, List.mem_map]
  constructor
  · rintro ⟨c, hc, heq⟩
    exact (toLower_eq_iff hd).mp heq ▸ hc
  · exact fun h => ⟨d, h, (toLower_eq_iff hd).mpr rfl⟩

theorem count_lower {s : Text} {d : Char} (hd : NoLetter d) : (lower s).count d = s.count d := by
  show List.countP (· == d) (s.map Char.toLower) = List.countP (· == d) s
  rw [List.countP_map]
  refine List.countP_congr fun c _ => ?_
  simp only [Function.comp_apply, beq_iff_eq]
  exact toLower_eq_iff hd

theorem isWhitespace_toLower (c : Char) : isWhitespace c.toLower = isWhitespace c := by
  simp only [isWhitespace, toNat_toLower]
  split_ifs with h
  · rw [Bool.eq_iff_iff]
    simp
    omega
  · rfl

theorem toLower_toLower (c : Char) : c.toLower.toLower = c.toLower := by
  apply Char.toNat_inj.mp
  rw [toNat_toLower c.toLower, toNat_toLower c]
  split_ifs <;> omega

theorem lower_lower (s : Text) : lower (lower s) = lower s := by
  rw [lower, lower, List.map_map]
  exact List.map_congr_left fun c _ => toLower_toLower c

theorem parseU16_toString (n : UInt16) : parseU16 (toString n.toNat).toList = some n := by
  have hdigits : (toString n.toNat).toList = Nat.toDigits 10 n.toNat := by simp
  have hplus : (Nat.toDigits 10 n.toNat).head? ≠ some '+' := by
    intro hhead
    have hdigit := Nat.isDigit_of_mem_toDigits (by decide) (by decide) (List.mem_of_mem_head? hhead)
    exact absurd hdigit (by decide)
  have hall : (Nat.toDigits 10 n.toNat).all Char.isDigit = true :=
    List.all_eq_true.mpr fun c hc => Nat.isDigit_of_mem_toDigits (by decide) (by decide) hc
  rw [parseU16, hdigits, parseUnsigned, if_neg hplus, if_neg (by simp [hall]),
    Nat.ofDigitChars_ten_toDigits]
  have hlt := n.toNat_lt
  rw [if_pos (by omega)]
  simp

/-! ### The host and the port of an origin -/

theorem digits_of_port (n : UInt16) :
    ∀ c ∈ (toString n.toNat).toList, c.isDigit = true := by
  intro c hc
  rw [Nat.toString_eq_repr, Nat.toList_repr] at hc
  exact Nat.isDigit_of_mem_toDigits (by decide) (by decide) hc

theorem takeWhile_append_of {q : Char → Bool} {a b : Text} {c : Char} (ha : ∀ d ∈ a, q d = true)
    (hc : q c = false) : (a ++ c :: b).takeWhile q = a := by
  rw [List.takeWhile_append_of_pos ha, List.takeWhile_cons_of_neg (by simp [hc]), List.append_nil]

/-- The text behind the last occurrence of a character. -/
theorem afterLast_append {sep : Char} {a b : Text} (hb : sep ∉ b) :
    afterLast sep (a ++ sep :: b) = some b := by
  have hrev : (a ++ sep :: b).reverse = b.reverse ++ sep :: a.reverse := by simp
  rw [afterLast, if_pos (by simp), hrev, takeWhile_append_of (c := sep), List.reverse_reverse]
  · intro d hd
    rw [List.mem_reverse] at hd
    exact decide_eq_true fun h => hb (h ▸ hd)
  · simp

/-- A host as the parser keeps it. -/
structure BareHost (host : Text) : Prop where
  literal : ':' ∈ host → '[' ∉ host ∧ ']' ∉ host
  head : host.head? ≠ some '['

theorem bareHost_of_head {host : Text} (h : host.head? ≠ some '[') : bareHost host = host := by
  cases host with
  | nil => rfl
  | cons c host =>
      unfold bareHost
      split
      next heq =>
        cases heq
        exact absurd rfl h
      next => rfl

theorem bareHost_urlHost {host : Text} (h : BareHost host) : bareHost (urlHost host) = host := by
  unfold urlHost
  split_ifs
  · rw [bareHost, if_pos (by simp), List.dropLast_concat]
  · exact bareHost_of_head h.head

theorem hostOf_of_head {a : Text} (h : a.head? ≠ some '[') : hostOf a = a.takeWhile (· ≠ ':') := by
  unfold hostOf
  split
  next => exact absurd rfl h
  next => rfl

theorem rawPort_of_head {a : Text} (h : a.head? ≠ some '[') : rawPort a = afterLast ':' a := by
  unfold rawPort
  split
  next => exact absurd rfl h
  next => rfl

theorem colon_not_mem_port (n : UInt16) : ':' ∉ (toString n.toNat).toList := fun h =>
  absurd (digits_of_port n _ h) (by decide)

theorem hostOf_url {host : Text} (h : BareHost host) (port : Option UInt16) :
    hostOf (urlHost host ++ portSuffix port) = urlHost host := by
  unfold urlHost
  split_ifs with hcolon
  · rw [List.cons_append, List.append_assoc, List.singleton_append, hostOf, takeWhile_append_of]
    · exact fun d hd => decide_eq_true fun heq => (h.literal hcolon).2 (heq ▸ hd)
    · simp
  · have hall : ∀ d ∈ host, decide (d ≠ ':') = true :=
      fun d hd => decide_eq_true fun heq => hcolon (heq ▸ hd)
    have hhead : (host ++ portSuffix port).head? ≠ some '[' := by
      cases host with
      | nil => cases port <;> simp [portSuffix]
      | cons c host => exact h.head
    rw [hostOf_of_head hhead]
    cases port with
    | none =>
        rw [portSuffix, Option.elim_none, List.append_nil]
        exact List.takeWhile_eq_self_iff.mpr hall
    | some n => exact takeWhile_append_of hall (by simp)

/-- A character that is neither a digit nor a plus sign is in no number. -/
theorem parseUnsigned_eq_none {max : ℕ} {s : Text} {c : Char} (hmem : c ∈ s) (hplus : c ≠ '+')
    (hdigit : c.isDigit = false) : parseUnsigned max s = none := by
  have hdigits : c ∈ if s.head? = some '+' then s.tail else s := by
    split_ifs with hhead
    · cases s with
      | nil => cases hmem
      | cons d s =>
          cases hhead
          exact (List.mem_cons.mp hmem).resolve_left hplus
    · exact hmem
  rw [parseUnsigned, if_pos]
  refine .inr fun hall => ?_
  rw [List.all_eq_true.mp hall c hdigits] at hdigit
  cases hdigit

theorem portOf_url (host : Text) (port : Option UInt16) :
    portOf (urlHost host ++ portSuffix port) = port := by
  cases port with
  | some n =>
      rw [portSuffix, Option.elim_some, portOf, afterLast_append (colon_not_mem_port n),
        Option.bind_some, parseU16_toString]
  | none =>
      rw [portSuffix, Option.elim_none, List.append_nil, portOf, afterLast]
      by_cases hcolon : ':' ∈ host
      · -- what follows the last colon of a literal ends with its bracket
        have hrev : ('[' :: (host ++ [']'])).reverse = ']' :: ('[' :: host).reverse := by simp
        rw [urlHost, if_pos hcolon, if_pos (by simp [hcolon]), Option.bind_some, hrev,
          List.takeWhile_cons_of_pos (by simp), List.reverse_cons, parseU16,
          parseUnsigned_eq_none (List.mem_append_right _ (List.mem_singleton.mpr rfl)) (by decide)
            (by decide)]
        rfl
      · rw [urlHost, if_neg hcolon, if_neg hcolon]
        rfl

theorem rawPort_url {host : Text} (h : BareHost host) (port : Option UInt16) :
    rawPort (urlHost host ++ portSuffix port) = port.map fun n => (toString n.toNat).toList := by
  unfold urlHost
  split_ifs with hcolon
  · rw [List.cons_append, rawPort, splitOnce_of_not_mem rfl (h.literal hcolon).2]
    cases port with
    | none => rfl
    | some n => rfl
  · have hhead : (host ++ portSuffix port).head? ≠ some '[' := by
      cases host with
      | nil => cases port <;> simp [portSuffix]
      | cons c host => exact h.head
    rw [rawPort_of_head hhead]
    cases port with
    | none =>
        rw [portSuffix, Option.elim_none, List.append_nil, afterLast, if_neg hcolon]
        rfl
    | some n => exact afterLast_append (colon_not_mem_port n)

/-! ### The parse -/

/-- The library's answer about an authority as `parse_remote` takes it up. -/
def takeUp (url scheme : Text) : Except Text UriParts → Except RemoteError ParsedRemote
  | .error e => .error (.notUrl url e)
  | .ok uri =>
      match uri.host with
      | none => .error (.noHost url)
      | some host =>
          .ok
            { scheme := scheme
              host := lower (bareHost host)
              port := (uri.port.or (defaultPort scheme)).getD 0
              path := uri.path }

/-- What `parse_remote` lets through to the library. -/
structure Admissible (url scheme a tail : Text) : Prop where
  url_eq : url = scheme ++ schemeEnd ++ a ++ tail
  scheme_eq : lower scheme = http ∨ lower scheme = https
  plain : PlainAuthority a
  tail_eq : tail = [] ∨ tail.head? = some '/'
  port : ∀ raw ∈ rawPort a, (parseU16 raw).isSome

theorem parseRemote_cases {lib : UriLib} {text : Text} {p : ParsedRemote}
    (h : parseRemote lib text = .ok p) :
    ∃ scheme a tail, Admissible (trim text) scheme a tail ∧
      takeUp (trim text) (lower scheme) (lib.fromStr (trim text)) = .ok p := by
  unfold parseRemote at h
  dsimp only at h
  split at h
  next => cases h
  next schemeRaw rest hsplit =>
    split_ifs at h with hscheme hback hquery hempty huser hpercent hport
    have hurl := eq_of_splitOnce hsplit
    refine ⟨schemeRaw, rest.takeWhile (· ≠ '/'), rest.dropWhile (· ≠ '/'), ⟨?_, ?_, ⟨hempty, ?_⟩,
      ?_, ?_⟩, ?_⟩
    · rw [List.append_assoc, List.takeWhile_append_dropWhile]
      exact hurl
    · rw [not_and_or, not_not, not_not] at hscheme
      exact hscheme
    · intro c hc
      have hslash : c ≠ '/' := by simpa using List.mem_takeWhile_imp hc
      have hin : c ∈ trim text := by
        rw [hurl]
        exact List.mem_append_right _ ((List.takeWhile_prefix _).subset hc)
      rw [not_or] at hquery
      refine ⟨hslash, ?_, ?_, ?_, ?_, ?_⟩ <;> rintro rfl
      · exact huser hc
      · exact hpercent hc
      · exact hback hin
      · exact hquery.1 hin
      · exact hquery.2 hin
    · cases hrest : rest.dropWhile (· ≠ '/') with
      | nil => exact .inl rfl
      | cons c tail =>
          have hhead := List.head?_dropWhile_not (· ≠ '/') rest
          rw [hrest] at hhead
          right
          simpa using hhead
    · intro raw hraw
      rw [Option.mem_def.mp hraw, Option.any_some, Bool.not_eq_true, Option.isNone_eq_false_iff] at hport
      exact hport
    · exact h

/-- The parse of a URL that is no more than its authority. -/
theorem parseRemote_authority {lib : UriLib} {scheme a : Text}
    (hscheme : scheme = http ∨ scheme = https) (ha : PlainAuthority a)
    (hspace : ∀ c ∈ a, isWhitespace c = false)
    (hport : ∀ raw ∈ rawPort a, (parseU16 raw).isSome) :
    parseRemote lib (scheme ++ schemeEnd ++ a) =
      takeUp (scheme ++ schemeEnd ++ a) scheme (lib.fromStr (scheme ++ schemeEnd ++ a)) := by
  have hlower : lower scheme = scheme := by rcases hscheme with rfl | rfl <;> decide
  have hcolon : ':' ∉ scheme := by rcases hscheme with rfl | rfl <;> decide
  have hhead : ∀ c ∈ scheme ++ schemeEnd, isWhitespace c = false ∧ c ≠ '\\' ∧ c ≠ '?' ∧ c ≠ '#' := by
    rcases hscheme with rfl | rfl <;> decide
  have htrim : trim (scheme ++ schemeEnd ++ a) = scheme ++ schemeEnd ++ a := by
    refine trim_of_all fun c hc => ?_
    rcases List.mem_append.mp hc with hc | hc
    · exact (hhead c hc).1
    · exact hspace c hc
  have hmem : ∀ d, (∀ c ∈ scheme ++ schemeEnd, c ≠ d) → (∀ c ∈ a, c ≠ d) →
      d ∉ scheme ++ schemeEnd ++ a := by
    intro d hfront hback hd
    rcases List.mem_append.mp hd with hd | hd
    · exact hfront d hd rfl
    · exact hback d hd rfl
  have hback := hmem '\\' (fun c hc => (hhead c hc).2.1) fun c hc => (ha.chars c hc).2.2.2.1
  have hquery := hmem '?' (fun c hc => (hhead c hc).2.2.1) fun c hc => (ha.chars c hc).2.2.2.2.1
  have hhash := hmem '#' (fun c hc => (hhead c hc).2.2.2) fun c hc => (ha.chars c hc).2.2.2.2.2
  have hauthority : a.takeWhile (· ≠ '/') = a :=
    List.takeWhile_eq_self_iff.mpr fun c hc => decide_eq_true (ha.chars c hc).1
  have hraw : ¬ (rawPort a).any (fun raw => (parseU16 raw).isNone) = true := by
    cases hraw : rawPort a with
    | none => simp
    | some raw =>
        rw [Option.any_some, Bool.not_eq_true, Option.isNone_eq_false_iff]
        exact hport raw hraw
  have hsplit : splitOnce schemeEnd (scheme ++ schemeEnd ++ a) = some (scheme, a) :=
    splitOnce_of_not_mem (show schemeEnd = ':' :: ['/', '/'] from rfl) hcolon
  unfold parseRemote
  dsimp only
  rw [htrim, hsplit]
  dsimp only
  rw [hlower, hauthority, if_neg (by tauto), if_neg hback, if_neg (not_or.mpr ⟨hquery, hhash⟩),
    if_neg ha.ne_nil, if_neg fun h => (ha.chars _ h).2.1 rfl,
    if_neg fun h => (ha.chars _ h).2.2.1 rfl, if_neg hraw]
  rfl

/-! ### The origin -/

/-- The host and the port are text enough: something is left of the authority
once a default port is left out, and a bracket of the host has its other. -/
def ParsedRemote.Reparsed (p : ParsedRemote) : Prop :=
  (p.host ≠ [] ∨ defaultPort p.scheme ≠ some p.port) ∧ p.host.count '[' = p.host.count ']'

/-- The explicit port of an origin. -/
def ParsedRemote.shownPort (p : ParsedRemote) : Option UInt16 :=
  if defaultPort p.scheme = some p.port then none else some p.port

theorem origin_eq (p : ParsedRemote) :
    p.origin = p.scheme ++ schemeEnd ++ (urlHost p.host ++ portSuffix p.shownPort) := by
  rw [ParsedRemote.origin, List.append_assoc _ (urlHost p.host), ParsedRemote.portText,
    ParsedRemote.shownPort]
  split_ifs <;> rfl

/-- What a parse says of its host. -/
structure HostFacts (p : ParsedRemote) (a : Text) : Prop where
  bare : BareHost p.host
  lowered : lower p.host = p.host
  /-- how the host stands in the authority -/
  stands : urlHost p.host = lower (hostOf a) ∨
    ∃ literal, hostOf a = '[' :: (literal ++ [']']) ∧ ':' ∉ literal ∧
      urlHost p.host = lower literal
  chars : ∀ c ∈ p.host, isWhitespace c = false ∧
    c ≠ '/' ∧ c ≠ '@' ∧ c ≠ '%' ∧ c ≠ '\\' ∧ c ≠ '?' ∧ c ≠ '#'

theorem hostFacts {a : Text} (ha : PlainAuthority a) (hspace : ∀ c ∈ a, isWhitespace c = false)
    (hcount : a.count '[' ≤ 1) {p : ParsedRemote} (hp : p.host = lower (bareHost (hostOf a))) :
    HostFacts p a := by
  -- the characters of the host are some of the authority's, in lower case
  have hchars : ∀ h : Text, (∀ c ∈ h, c ∈ a) → ∀ c ∈ lower h, isWhitespace c = false ∧
      c ≠ '/' ∧ c ≠ '@' ∧ c ≠ '%' ∧ c ≠ '\\' ∧ c ≠ '?' ∧ c ≠ '#' := by
    intro h hsub c hc
    have hkept : ∀ d, NoLetter d → (∀ e ∈ a, e ≠ d) → c ≠ d := by
      rintro d hd hne rfl
      exact hne c (hsub c ((mem_lower hd).mp hc)) rfl
    obtain ⟨e, he, rfl⟩ := List.mem_map.mp hc
    refine ⟨by rw [isWhitespace_toLower]; exact hspace e (hsub e he), ?_, ?_, ?_, ?_, ?_, ?_⟩
    · exact hkept _ (by decide) fun e he => (ha.chars e he).1
    · exact hkept _ (by decide) fun e he => (ha.chars e he).2.1
    · exact hkept _ (by decide) fun e he => (ha.chars e he).2.2.1
    · exact hkept _ (by decide) fun e he => (ha.chars e he).2.2.2.1
    · exact hkept _ (by decide) fun e he => (ha.chars e he).2.2.2.2.1
    · exact hkept _ (by decide) fun e he => (ha.chars e he).2.2.2.2.2
  by_cases hhead : a.head? = some '['
  · obtain ⟨rest, rfl⟩ : ∃ rest, a = '[' :: rest := by
      cases a with
      | nil => cases hhead
      | cons c rest => exact ⟨rest, by rw [Option.some.inj hhead]⟩
    have hopen : '[' ∉ rest := by
      rw [List.count_cons_self] at hcount
      exact List.count_eq_zero.mp (by omega)
    have hsub : rest.takeWhile (· ≠ ']') <+: rest := List.takeWhile_prefix _
    have hhost : hostOf ('[' :: rest) = '[' :: (rest.takeWhile (· ≠ ']') ++ [']']) := rfl
    have hclose : ']' ∉ rest.takeWhile (· ≠ ']') := fun h => by
      simpa using List.mem_takeWhile_imp h
    have hin : '[' ∉ rest.takeWhile (· ≠ ']') := fun h => hopen (hsub.subset h)
    have hbare : bareHost (hostOf ('[' :: rest)) = rest.takeWhile (· ≠ ']') := by
      rw [hhost, bareHost, if_pos (by simp), List.dropLast_concat]
    rw [hbare] at hp
    refine ⟨⟨fun _ => ?_, ?_⟩, by rw [hp, lower_lower], ?_, ?_⟩
    · rw [hp, mem_lower (by decide), mem_lower (by decide)]
      exact ⟨hin, hclose⟩
    · intro h
      have hmem := List.mem_of_mem_head? h
      rw [hp, mem_lower (by decide)] at hmem
      exact hin hmem
    · by_cases hcolon : ':' ∈ rest.takeWhile (· ≠ ']')
      · left
        rw [urlHost, if_pos (by rw [hp, mem_lower (by decide)]; exact hcolon), hhost, hp]
        simp [lower]
      · right
        refine ⟨_, hhost, hcolon, ?_⟩
        rw [urlHost, if_neg (by rw [hp, mem_lower (by decide)]; exact hcolon), hp]
    · rw [hp]
      exact hchars _ fun c hc => List.mem_cons_of_mem _ (hsub.subset hc)
  · have hhost := hostOf_of_head hhead
    have hsub : a.takeWhile (· ≠ ':') <+: a := List.takeWhile_prefix _
    have hcolon : ':' ∉ a.takeWhile (· ≠ ':') := fun h => by
      simpa using List.mem_takeWhile_imp h
    have hfirst : (a.takeWhile (· ≠ ':')).head? ≠ some '[' := by
      cases a with
      | nil => simp
      | cons c a =>
          rw [List.takeWhile_cons]
          split_ifs
          · exact hhead
          · simp
    rw [hhost, bareHost_of_head hfirst] at hp
    have hlow : ':' ∉ p.host := by
      rw [hp, mem_lower (by decide)]
      exact hcolon
    refine ⟨⟨fun h => absurd h hlow, ?_⟩, by rw [hp, lower_lower], ?_, ?_⟩
    · rw [hp, lower, List.head?_map]
      intro h
      obtain ⟨c, hc, heq⟩ := Option.map_eq_some_iff.mp h
      rw [toLower_eq_iff (by decide)] at heq
      exact hfirst (heq ▸ hc)
    · left
      rw [urlHost, if_neg hlow, hhost, hp]
    · rw [hp]
      exact hchars _ fun c hc => hsub.subset hc

theorem key_parse {url scheme : Text} {uri : UriParts} {p : ParsedRemote}
    (h : takeUp url scheme (.ok uri) = .ok p) :
    ∃ host, uri.host = some host ∧ p.scheme = scheme ∧ p.host = lower (bareHost host) ∧
      p.port = (uri.port.or (defaultPort scheme)).getD 0 := by
  unfold takeUp at h
  dsimp only at h
  split at h
  next => cases h
  next host hhost =>
    cases h
    exact ⟨host, hhost, rfl, rfl, rfl⟩

theorem urlHost_chars {host : Text}
    (h : ∀ c ∈ host, isWhitespace c = false ∧
      c ≠ '/' ∧ c ≠ '@' ∧ c ≠ '%' ∧ c ≠ '\\' ∧ c ≠ '?' ∧ c ≠ '#') :
    ∀ c ∈ urlHost host, isWhitespace c = false ∧
      c ≠ '/' ∧ c ≠ '@' ∧ c ≠ '%' ∧ c ≠ '\\' ∧ c ≠ '?' ∧ c ≠ '#' := by
  intro c hc
  rw [urlHost] at hc
  split_ifs at hc
  · rcases List.mem_cons.mp hc with rfl | hc
    · decide
    · rcases List.mem_append.mp hc with hc | hc
      · exact h c hc
      · rw [List.mem_singleton.mp hc]
        decide
  · exact h c hc

theorem portSuffix_chars {port : Option UInt16} :
    ∀ c ∈ portSuffix port, isWhitespace c = false ∧
      c ≠ '/' ∧ c ≠ '@' ∧ c ≠ '%' ∧ c ≠ '\\' ∧ c ≠ '?' ∧ c ≠ '#' := by
  intro c hc
  cases port with
  | none => cases hc
  | some n =>
      rcases List.mem_cons.mp hc with rfl | hc
      · decide
      · have hdigit := digits_of_port n c hc
        have hrange : 48 ≤ c.toNat ∧ c.toNat ≤ 57 := by
          simpa [Char.isDigit, UInt32.le_iff_toNat_le] using hdigit
        refine ⟨?_, ?_, ?_, ?_, ?_, ?_, ?_⟩
        · simp only [isWhitespace]
          simp
          omega
        all_goals
          rintro rfl
          exact absurd hdigit (by decide)

/-- The authority of an origin. -/
def ParsedRemote.authority (p : ParsedRemote) : Text := urlHost p.host ++ portSuffix p.shownPort

theorem authority_eq_nil (p : ParsedRemote) :
    p.authority = [] ↔ p.host = [] ∧ defaultPort p.scheme = some p.port := by
  rw [ParsedRemote.authority, List.append_eq_nil_iff, urlHost, ParsedRemote.shownPort]
  refine and_congr ?_ ?_
  · split_ifs with hcolon
    · refine iff_of_false (by simp) ?_
      rintro hnil
      rw [hnil] at hcolon
      cases hcolon
    · rfl
  · split_ifs with hdefault
    · exact iff_of_true rfl hdefault
    · exact iff_of_false (by simp [portSuffix]) hdefault

theorem count_urlHost {host : Text} (h : BareHost host) :
    (urlHost host).count '[' = (urlHost host).count ']' ↔ host.count '[' = host.count ']' := by
  rw [urlHost]
  split_ifs with hcolon
  · have hin := h.literal hcolon
    simp [List.count_eq_zero.mpr hin.1, List.count_eq_zero.mpr hin.2]
  · rfl

theorem count_portSuffix (port : Option UInt16) {d : Char} (hcolon : d ≠ ':')
    (hdigit : d.isDigit = false) : (portSuffix port).count d = 0 := by
  rw [List.count_eq_zero]
  cases port with
  | none => exact List.not_mem_nil
  | some n =>
      intro hd
      rcases List.mem_cons.mp hd with rfl | hd
      · exact hcolon rfl
      · rw [digits_of_port n d hd] at hdigit
        cases hdigit

theorem count_authority (p : ParsedRemote) {d : Char} (hcolon : d ≠ ':')
    (hdigit : d.isDigit = false) : p.authority.count d = (urlHost p.host).count d := by
  rw [ParsedRemote.authority, List.count_append, count_portSuffix _ hcolon hdigit, Nat.add_zero]

/-- An origin is parsed by its authority. -/
theorem parseRemote_origin {lib : UriLib} {p : ParsedRemote} {a : Text} (hfacts : HostFacts p a)
    (hscheme : p.scheme = http ∨ p.scheme = https) (hne : p.authority ≠ []) :
    PlainAuthority p.authority ∧ parseRemote lib p.origin =
      takeUp p.origin p.scheme (lib.fromStr (p.scheme ++ schemeEnd ++ p.authority)) := by
  have hall : ∀ c ∈ p.authority, isWhitespace c = false ∧
      c ≠ '/' ∧ c ≠ '@' ∧ c ≠ '%' ∧ c ≠ '\\' ∧ c ≠ '?' ∧ c ≠ '#' := by
    intro c hc
    rcases List.mem_append.mp hc with hc | hc
    · exact urlHost_chars hfacts.chars c hc
    · exact portSuffix_chars c hc
  have hplain : PlainAuthority p.authority := ⟨hne, fun c hc => (hall c hc).2⟩
  refine ⟨hplain, ?_⟩
  rw [origin_eq]
  refine parseRemote_authority hscheme hplain (fun c hc => (hall c hc).1) fun raw hraw => ?_
  rw [rawPort_url hfacts.bare, Option.mem_def] at hraw
  obtain ⟨n, -, rfl⟩ := Option.map_eq_some_iff.mp hraw
  rw [parseU16_toString]
  rfl

/-- The parse has one of the two schemes, and a host in lower case. -/
theorem parseRemote_ok {lib : UriLib} {text : Text} {p : ParsedRemote}
    (h : parseRemote lib text = .ok p) :
    (p.scheme = http ∨ p.scheme = https) ∧ lower p.host = p.host := by
  obtain ⟨scheme, a, tail, hurl, htake⟩ := parseRemote_cases h
  cases hanswer : lib.fromStr (trim text) with
  | error e =>
      rw [hanswer] at htake
      cases htake
  | ok uri =>
      rw [hanswer] at htake
      obtain ⟨host, -, hscheme, hhost, -⟩ := key_parse htake
      rw [hscheme, hhost, lower_lower]
      exact ⟨hurl.scheme_eq, rfl⟩

/-- What a parse says of its host. -/
theorem parseRemote_hostFacts {lib : UriLib} (hlib : lib.Documented) {text : Text} {p : ParsedRemote}
    (h : parseRemote lib text = .ok p) : ∃ a, HostFacts p a := by
  obtain ⟨scheme, a, tail, hurl, htake⟩ := parseRemote_cases h
  cases hanswer : lib.fromStr (trim text) with
  | error e =>
      rw [hanswer] at htake
      cases htake
  | ok uri =>
      rw [hanswer] at htake
      obtain ⟨host, hhost, -, hphost, -⟩ := key_parse htake
      rw [hurl.url_eq] at hanswer
      obtain ⟨hparts, -⟩ := hlib.parts hurl.scheme_eq hurl.plain hurl.tail_eq hanswer
      obtain ⟨hspace, -, hcount⟩ := hlib.legal hurl.scheme_eq hurl.plain hurl.tail_eq hanswer
      rw [hparts] at hhost
      cases hhost
      exact ⟨a, hostFacts hurl.plain hspace hcount hphost⟩

/-- An origin that parses has an authority. -/
theorem authority_ne_nil {lib : UriLib} {p q : ParsedRemote}
    (hscheme : p.scheme = http ∨ p.scheme = https) (hq : parseRemote lib p.origin = .ok q) :
    p.authority ≠ [] := by
  intro hnil
  have horigin : p.origin = p.scheme ++ schemeEnd := by
    rw [origin_eq, ← ParsedRemote.authority, hnil, List.append_nil]
  rw [horigin] at hq
  rcases hscheme with hs | hs <;> rw [hs] at hq <;> cases hq

/-- The host and the port of an origin that parses are text enough. -/
theorem reparsed_of_ok {lib : UriLib} (hlib : lib.Documented) {text : Text} {p q : ParsedRemote}
    (h : parseRemote lib text = .ok p) (hq : parseRemote lib p.origin = .ok q) : p.Reparsed := by
  obtain ⟨a, hfacts⟩ := parseRemote_hostFacts hlib h
  have hps := (parseRemote_ok h).1
  have hne := authority_ne_nil hps hq
  have hlows : lower p.scheme = http ∨ lower p.scheme = https := by
    rcases hps with hs | hs
    · rw [hs]
      exact .inl (by decide)
    · rw [hs]
      exact .inr (by decide)
  obtain ⟨hplain, hparse⟩ := @parseRemote_origin lib _ _ hfacts hps hne
  cases hagain : lib.fromStr (p.scheme ++ schemeEnd ++ p.authority) with
  | error e =>
      rw [hparse, hagain] at hq
      cases hq
  | ok uri' =>
      rw [← List.append_nil (p.scheme ++ schemeEnd ++ p.authority)] at hagain
      obtain ⟨-, hbrackets, -⟩ := hlib.legal hlows hplain (.inl rfl) hagain
      rw [count_authority p (by decide) (by decide), count_authority p (by decide) (by decide),
        count_urlHost hfacts.bare] at hbrackets
      rw [Ne, authority_eq_nil, not_and_or] at hne
      exact ⟨hne, hbrackets⟩

/-- The origin of a remote parses back to its key exactly when the host and the
port are text enough. -/
theorem origin_reparsed {lib : UriLib} (hlib : lib.Documented) {text : Text} {p : ParsedRemote}
    (h : parseRemote lib text = .ok p) :
    (∃ q, parseRemote lib p.origin = .ok q ∧ q.key = p.key) ↔ p.Reparsed := by
  obtain ⟨scheme, a, tail, hurl, htake⟩ := parseRemote_cases h
  have hscheme := hurl.scheme_eq
  have ha := hurl.plain
  have htail := hurl.tail_eq
  cases hanswer : lib.fromStr (trim text) with
  | error e =>
      rw [hanswer] at htake
      cases htake
  | ok uri =>
      rw [hanswer] at htake
      obtain ⟨host, hhost, hpscheme, hphost, hpport⟩ := key_parse htake
      rw [hurl.url_eq] at hanswer
      obtain ⟨hparts, huriport⟩ := hlib.parts hscheme ha htail hanswer
      obtain ⟨hspace, -, hcount⟩ := hlib.legal hscheme ha htail hanswer
      rw [hparts] at hhost
      cases hhost
      have hfacts := hostFacts ha hspace hcount hphost
      have hps : p.scheme = http ∨ p.scheme = https := hpscheme ▸ hscheme
      have hlows : lower p.scheme = http ∨ lower p.scheme = https := by
        rw [hpscheme, lower_lower]
        exact hscheme
      constructor
      · rintro ⟨q, hq, -⟩
        exact reparsed_of_ok hlib h hq
      · rintro ⟨htext, hbrackets⟩
        have hne : p.authority ≠ [] := by
          rw [Ne, authority_eq_nil, not_and_or]
          exact htext
        obtain ⟨hplain, hparse⟩ := @parseRemote_origin lib _ _ hfacts hps hne
        have hshown : p.shownPort = none ∨ p.shownPort = portOf a := by
          rw [huriport, ← hpscheme] at hpport
          rw [ParsedRemote.shownPort]
          split_ifs with hdefault
          · exact .inl rfl
          · right
            cases hport : portOf a with
            | some n => rw [hpport, hport, Option.some_or, Option.getD_some]
            | none =>
                rw [hport, Option.none_or] at hpport
                obtain ⟨n, hn⟩ : ∃ n, defaultPort p.scheme = some n := by
                  rcases hps with hs | hs <;> rw [hs] <;> exact ⟨_, rfl⟩
                rw [hn, Option.getD_some] at hpport
                rw [hpport] at hdefault
                exact absurd hn hdefault
        obtain ⟨uri', hagain⟩ := hlib.hosts hscheme ha htail hanswer _ hfacts.stands
          ((count_urlHost hfacts.bare).mpr hbrackets) p.shownPort hshown hne
        rw [← hpscheme, ← ParsedRemote.authority] at hagain
        have hagain' := hagain
        rw [← List.append_nil (p.scheme ++ schemeEnd ++ p.authority)] at hagain'
        obtain ⟨hhost', hport'⟩ := hlib.parts hlows hplain (.inl rfl) hagain'
        rw [ParsedRemote.authority, hostOf_url hfacts.bare] at hhost'
        rw [ParsedRemote.authority, portOf_url] at hport'
        rw [hparse, hagain]
        simp only [takeUp, hhost', hport']
        refine ⟨_, rfl, ?_⟩
        have hport : (p.shownPort.or (defaultPort p.scheme)).getD 0 = p.port := by
          rw [ParsedRemote.shownPort]
          split_ifs with hdefault
          · rw [Option.none_or, hdefault, Option.getD_some]
          · rfl
        rw [ParsedRemote.key, ParsedRemote.key, bareHost_urlHost hfacts.bare, hfacts.lowered, hport]

/-! ### Admission -/

/-- An octet as a decimal IPv4 literal has it: no sign, no leading zero. -/
def isOctet (o : Text) : Bool :=
  o.all Char.isDigit && decide (o = ['0'] ∨ o.head? ≠ some '0') && (parseU8 o).isSome

/-- `localhost`, `::1`, or a textually valid IPv4 literal in 127.0.0.0/8. -/
def Loopback (host : Text) : Prop :=
  host = "localhost".toList ∨ host = "::1".toList ∨
    ((host.splitOn '.').length = 4 ∧ (host.splitOn '.').headD [] = "127".toList ∧
      ∀ o ∈ (host.splitOn '.').tail, isOctet o = true)

instance (host : Text) : Decidable (Loopback host) := inferInstanceAs (Decidable (_ ∨ _))

/-- Four parts that read as numbers of a loopback address and are not how one is
written: a plus sign, leading zeros. -/
def Lenient (host : Text) : Prop :=
  (host.splitOn '.').length = 4 ∧ parseU8 ((host.splitOn '.').headD []) = some 127 ∧
    (∀ o ∈ (host.splitOn '.').tail, (parseU8 o).isSome) ∧
      ¬ ((host.splitOn '.').headD [] = "127".toList ∧
        ∀ o ∈ (host.splitOn '.').tail, isOctet o = true)

instance (host : Text) : Decidable (Lenient host) := inferInstanceAs (Decidable (_ ∧ _))

theorem Lenient.not_loopback {host : Text} (h : Lenient host) : ¬ Loopback host := by
  rintro (rfl | rfl | htext)
  · exact absurd h (by decide)
  · exact absurd h (by decide)
  · exact h.2.2.2 htext.2

theorem isLoopbackHost_iff {host : Text} (hlow : lower host = host) :
    isLoopbackHost host = true ↔ Loopback host ∨ Lenient host := by
  have hquad : ((host.splitOn '.').length = 4 ∧ parseU8 ((host.splitOn '.').headD []) = some 127 ∧
      ∀ o ∈ (host.splitOn '.').tail, (parseU8 o).isSome = true) ↔
      ((host.splitOn '.').length = 4 ∧ (host.splitOn '.').headD [] = "127".toList ∧
        ∀ o ∈ (host.splitOn '.').tail, isOctet o = true) ∨ Lenient host := by
    constructor
    · rintro ⟨hlen, hfirst, hrest⟩
      by_cases htext : (host.splitOn '.').headD [] = "127".toList ∧
          ∀ o ∈ (host.splitOn '.').tail, isOctet o = true
      · exact .inl ⟨hlen, htext⟩
      · exact .inr ⟨hlen, hfirst, hrest, htext⟩
    · rintro (⟨hlen, hfirst, hrest⟩ | ⟨hlen, hfirst, hrest, -⟩)
      · refine ⟨hlen, by rw [hfirst]; decide, fun o ho => ?_⟩
        have hoctet := hrest o ho
        rw [isOctet, Bool.and_eq_true] at hoctet
        exact hoctet.2
      · exact ⟨hlen, hfirst, hrest⟩
  unfold isLoopbackHost
  rw [hlow]
  split_ifs with hname
  · exact iff_of_true rfl (.inl (hname.imp_right .inl))
  · rw [not_or] at hname
    simp only [Bool.and_eq_true, decide_eq_true_eq, List.all_eq_true, and_assoc]
    rw [hquad, Loopback]
    constructor
    · rintro (htext | hlenient)
      · exact .inl (.inr (.inr htext))
      · exact .inr hlenient
    · rintro ((h | h | htext) | hlenient)
      · exact absurd h hname.1
      · exact absurd h hname.2
      · exact .inl htext
      · exact .inr hlenient

/-- The stored origin parses to the key of the remote. -/
def SameOrigin (lib : UriLib) (stored : Option Text) (p : ParsedRemote) : Prop :=
  ∃ origin ∈ stored, ∃ s, parseRemote lib origin = .ok s ∧ s.key = p.key

theorem storedCovers_iff {lib : UriLib} {stored : Option Text} {p : ParsedRemote}
    (hp : p.scheme = http) : storedCovers lib stored p = true ↔ SameOrigin lib stored p := by
  unfold storedCovers SameOrigin
  cases stored with
  | none => simp
  | some origin =>
      cases hs : parseRemote lib origin with
      | error e => simp [hs]
      | ok s =>
          have hscheme : s.key = p.key → s.scheme = http := fun h =>
            (congrArg OriginKey.scheme h).trans hp
          simpa [hs] using hscheme

theorem admitRemote_iff {lib : UriLib} {p : ParsedRemote} {optin : Bool} {stored : Option Text}
    (hscheme : p.scheme = http ∨ p.scheme = https) :
    admitRemote lib p optin stored = .ok () ↔
      p.scheme = https ∨ p.isLoopback = true ∨ optin = true ∨ SameOrigin lib stored p := by
  unfold admitRemote
  split_ifs with hopen hcovers
  · exact iff_of_true rfl (by tauto)
  · simp only [not_or] at hopen
    have hp : p.scheme = http := hscheme.resolve_right hopen.1
    exact iff_of_true rfl (.inr (.inr (.inr ((storedCovers_iff hp).mp hcovers))))
  · simp only [not_or] at hopen
    have hp : p.scheme = http := hscheme.resolve_right hopen.1
    refine iff_of_false (fun h => by cases h) ?_
    rw [← storedCovers_iff hp]
    tauto

/-- The clients: of a working copy, or of no working copy at all, or of a clone. -/
def Built (lib : UriLib) (url : Text) (optin : Bool) (stored : Option Text)
    (client : RemoteClient) : Prop :=
  wcClient lib url optin stored = .ok client ∨
    stored = none ∧ cloneClient lib url optin = .ok client

/-- The remote of a client was admitted, and its opt-in origin is the stored one or
that of a plain-http clone. -/
theorem Built.admitted {lib : UriLib} {url : Text} {optin : Bool} {stored : Option Text}
    {client : RemoteClient} (h : Built lib url optin stored client) :
    ∃ p, parseRemote lib url = .ok p ∧ admitRemote lib p optin stored = .ok () ∧
      ∀ t : ParsedRemote, (client.insecureOrigin = some t.key ↔
        SameOrigin lib stored t ∨ (stored = none ∧ client.insecureOrigin = some t.key ∧
          t.scheme = http ∧ optin = true)) := by
  rcases h with h | ⟨rfl, h⟩
  · unfold wcClient at h
    split at h
    next => cases h
    next p hp =>
      split at h
      next => cases h
      next hallowed =>
        refine ⟨p, hp, hallowed, fun t => ?_⟩
        split at h
        next =>
          cases h
          simp [newClient, SameOrigin]
        next origin =>
          split at h
          next => cases h
          next s hs =>
            cases h
            simp [newClient, SameOrigin, hs]
  · unfold cloneClient at h
    split at h
    next => cases h
    next p hp =>
      split at h
      next => cases h
      next hallowed =>
        cases h
        refine ⟨p, hp, hallowed, fun t => ?_⟩
        constructor
        · intro hkey
          refine .inr ⟨rfl, hkey, ?_⟩
          rw [newClient] at hkey
          split_ifs at hkey with hopted
          exact ⟨(congrArg OriginKey.scheme (Option.some.inj hkey)).symm.trans hopted.1, hopted.2⟩
        · rintro (⟨_, hnone, -⟩ | ⟨-, hkey, -⟩)
          · cases hnone
          · exact hkey

/-- A client for a plain-http remote: its host is a loopback one by its text, or
the invocation or the stored origin opted in. -/
def SafelyBuilt (lib : UriLib) (url : Text) (optin : Bool) (stored : Option Text) : Prop :=
  ∀ client, Built lib url optin stored client → ∃ p, parseRemote lib url = .ok p ∧
    (p.scheme = http → Loopback p.host ∨ optin = true ∨ SameOrigin lib stored p)

theorem safelyBuilt_iff {lib : UriLib} {url : Text} {optin : Bool} {stored : Option Text} :
    SafelyBuilt lib url optin stored ↔ ¬ ∃ p, parseRemote lib url = .ok p ∧ p.scheme = http ∧
      Lenient p.host ∧ optin = false ∧ ¬ SameOrigin lib stored p ∧
        ∀ origin ∈ stored, ∃ s, parseRemote lib origin = .ok s := by
  constructor
  · rintro hsafe ⟨p, hp, hscheme, hlenient, hoptin, hstored, hparses⟩
    have hlow := (parseRemote_ok hp).2
    have hallowed : admitRemote lib p optin stored = .ok () :=
      (admitRemote_iff (.inl hscheme)).mpr (.inr (.inl ((isLoopbackHost_iff hlow).mpr (.inr hlenient))))
    obtain ⟨client, hbuilt⟩ : ∃ client, wcClient lib url optin stored = .ok client := by
      unfold wcClient
      rw [hp]
      dsimp only
      rw [hallowed]
      cases stored with
      | none => exact ⟨_, rfl⟩
      | some origin =>
          obtain ⟨s, hs⟩ := hparses origin rfl
          dsimp only
          rw [hs]
          exact ⟨_, rfl⟩
    obtain ⟨p', hp', hopen⟩ := hsafe client (.inl hbuilt)
    rw [hp] at hp'
    cases hp'
    rcases hopen hscheme with hloop | hopted | hsame
    · exact hlenient.not_loopback hloop
    · rw [hoptin] at hopted
      cases hopted
    · exact hstored hsame
  · intro hnone client hbuilt
    obtain ⟨p, hp, hallowed, -⟩ := hbuilt.admitted
    refine ⟨p, hp, fun hscheme => ?_⟩
    have hlow := (parseRemote_ok hp).2
    rcases (admitRemote_iff (.inl hscheme)).mp hallowed with hs | hloop | hopted | hsame
    · rw [hs] at hscheme
      exact absurd hscheme (by decide)
    · rcases (isLoopbackHost_iff hlow).mp hloop with hloop | hlenient
      · exact .inl hloop
      · by_contra hopen
        simp only [not_or, Bool.not_eq_true] at hopen
        refine hnone ⟨p, hp, hscheme, hlenient, hopen.2.1, hopen.2.2, fun origin horigin => ?_⟩
        rcases hbuilt with h | ⟨rfl, -⟩
        · unfold wcClient at h
          rw [hp, Option.mem_def.mp horigin] at h
          dsimp only at h
          split at h
          next => cases h
          next =>
            split at h
            next => cases h
            next s hs => exact ⟨s, hs⟩
        · cases horigin
    · exact .inr (.inl hopted)
    · exact .inr (.inr hsame)

/-- The tier is routed to exactly when `admit_remote` admits it. -/
def TierAgrees (lib : UriLib) (optin : Bool) (stored : Option Text) (client : RemoteClient)
    (tier : Text) : Prop :=
  (∃ t, admitTier lib client tier = .ok t) ↔
    ∃ t, parseRemote lib tier = .ok t ∧ admitRemote lib t optin stored = .ok ()

theorem tierAgrees_iff {lib : UriLib} {url : Text} {optin : Bool} {stored : Option Text}
    {client : RemoteClient} (h : Built lib url optin stored client) (tier : Text) :
    TierAgrees lib optin stored client tier ↔ ∀ t, parseRemote lib tier = .ok t →
      t.isLoopback = true ∨ client.insecureOrigin = some t.key ∨
        t.scheme = http ∧ optin = false := by
  obtain ⟨-, -, -, horigin⟩ := h.admitted
  unfold TierAgrees admitTier
  cases ht : parseRemote lib tier with
  | error e => simp
  | ok t =>
      have hscheme := (parseRemote_ok ht).1
      have hrouted : (∃ t', (if !t.isLoopback && decide (client.insecureOrigin ≠ some t.key) then
          Except.error (RemoteError.plainTier t.origin) else Except.ok t) = Except.ok t') ↔
          t.isLoopback = true ∨ client.insecureOrigin = some t.key := by
        split_ifs with hrefused
        · rw [Bool.and_eq_true, Bool.not_eq_true', decide_eq_true_eq] at hrefused
          simp [hrefused.1, hrefused.2]
        · rw [Bool.and_eq_true, Bool.not_eq_true', decide_eq_true_eq, not_and, not_not,
            ← Bool.not_eq_true] at hrefused
          refine iff_of_true ⟨t, rfl⟩ ?_
          by_cases hloop : t.isLoopback = true
          · exact .inl hloop
          · exact .inr (hrefused hloop)
      have hallowed : (∃ t', Except.ok (ε := RemoteError) t = Except.ok t' ∧
          admitRemote lib t' optin stored = .ok ()) ↔ _ :=
        Iff.trans ⟨by rintro ⟨_, ⟨⟩, h⟩; exact h, fun h => ⟨t, rfl, h⟩⟩ (admitRemote_iff hscheme)
      rw [hrouted, hallowed]
      have hkey := horigin t
      have hschemes : ¬ (t.scheme = http ∧ t.scheme = https) := by
        rintro ⟨hs, hs'⟩
        rw [hs] at hs'
        exact absurd hs' (by decide)
      constructor
      · rintro hagree t' ⟨⟩
        by_contra hopen
        simp only [not_or] at hopen
        have hrefused := not_or.mpr ⟨hopen.1, hopen.2.1⟩
        rw [hagree] at hrefused
        simp only [not_or, Bool.not_eq_true] at hrefused
        exact hopen.2.2 ⟨hscheme.resolve_right hrefused.1, hrefused.2.2.1⟩
      · intro hcond
        rcases hcond t rfl with hloop | hown | ⟨hs, hopted⟩
        · exact iff_of_true (.inl hloop) (.inr (.inl hloop))
        · refine iff_of_true (.inr hown) ?_
          rcases hkey.mp hown with hsame | ⟨-, -, -, hopted⟩
          · exact .inr (.inr (.inr hsame))
          · exact .inr (.inr (.inl hopted))
        · constructor
          · rintro (hloop | hown)
            · exact .inr (.inl hloop)
            · rcases hkey.mp hown with hsame | ⟨-, -, -, hopted⟩
              · exact .inr (.inr (.inr hsame))
              · exact .inr (.inr (.inl hopted))
          · rintro (hs' | hloop | hopted' | hsame)
            · exact absurd ⟨hs, hs'⟩ hschemes
            · exact .inl hloop
            · rw [hopted] at hopted'
              cases hopted'
            · exact .inr (hkey.mpr (.inl hsame))

/-- `origins_match` is an equivalence on the URLs that parse. -/
theorem originsMatch_iff {lib : UriLib} {a b : Text} :
    originsMatch lib a b = true ↔
      ∃ x y, parseRemote lib a = .ok x ∧ parseRemote lib b = .ok y ∧ x.key = y.key := by
  unfold originsMatch
  split
  next x y hx hy => simp [hx, hy]
  next hnone =>
    refine iff_of_false (by simp) ?_
    rintro ⟨x, y, hx, hy, -⟩
    exact hnone x y hx hy

/-- **Remote admission**: a client of a plain-http remote is one of a loopback
host by its text, or opted in, unless the host is a loopback address only as
`u8::from_str` reads one; the origin of a remote parses back to its key as long as
it has a host or a port and its brackets pair up, and the origins match as an
equivalence; a tier is routed to as `admit_remote` has it when it is a loopback
one, or of the origin of the client's opt-in, or of plain http without one. -/
theorem remote_admission {lib : UriLib} (hlib : lib.Documented) :
    (∀ url optin stored, SafelyBuilt lib url optin stored ↔
      ¬ ∃ p, parseRemote lib url = .ok p ∧ p.scheme = http ∧ Lenient p.host ∧ optin = false ∧
        ¬ SameOrigin lib stored p ∧ ∀ origin ∈ stored, ∃ s, parseRemote lib origin = .ok s) ∧
    (∀ url p, parseRemote lib url = .ok p →
      ((∃ q, parseRemote lib p.origin = .ok q ∧ q.key = p.key) ↔ p.Reparsed)) ∧
    ((∀ a p, parseRemote lib a = .ok p → originsMatch lib a a = true) ∧
      (∀ a b, originsMatch lib a b = true → originsMatch lib b a = true) ∧
      ∀ a b c, originsMatch lib a b = true → originsMatch lib b c = true →
        originsMatch lib a c = true) ∧
    ∀ url optin stored client, Built lib url optin stored client → ∀ tier,
      (TierAgrees lib optin stored client tier ↔ ∀ t, parseRemote lib tier = .ok t →
        t.isLoopback = true ∨ client.insecureOrigin = some t.key ∨
          t.scheme = http ∧ optin = false) := by
  refine ⟨fun _ _ _ => safelyBuilt_iff, fun _ _ h => origin_reparsed hlib h, ⟨?_, ?_, ?_⟩,
    fun _ _ _ _ h tier => tierAgrees_iff h tier⟩
  · intro a p hp
    exact originsMatch_iff.mpr ⟨p, p, hp, hp, rfl⟩
  · intro a b h
    obtain ⟨x, y, hx, hy, hkey⟩ := originsMatch_iff.mp h
    exact originsMatch_iff.mpr ⟨y, x, hy, hx, hkey.symm⟩
  · intro a b c hab hbc
    obtain ⟨x, y, hx, hy, hxy⟩ := originsMatch_iff.mp hab
    obtain ⟨y', z, hy', hz, hyz⟩ := originsMatch_iff.mp hbc
    rw [hy] at hy'
    cases hy'
    exact originsMatch_iff.mpr ⟨x, z, hx, hz, hxy.trans hyz⟩

/-! ### A library -/

/-- An authority a URI has. -/
def LegalAuthority (a : Text) : Prop :=
  a ≠ [] ∧ (∀ c ∈ a, isWhitespace c = false) ∧ a.count '[' = a.count ']' ∧ a.count '[' ≤ 1

instance (a : Text) : Decidable (LegalAuthority a) := inferInstanceAs (Decidable (_ ∧ _))

/-- A URI library that takes the authority apart and no more. -/
def plainUri : UriLib where
  fromStr text :=
    match splitOnce schemeEnd text with
    | none => .error "invalid format".toList
    | some (_, rest) =>
        let a := rest.takeWhile (· ≠ '/')
        if LegalAuthority a then .ok ⟨some (hostOf a), portOf a, rest.dropWhile (· ≠ '/')⟩
        else .error "invalid authority".toList

theorem plainUri_eq {scheme a tail : Text} (hscheme : lower scheme = http ∨ lower scheme = https)
    (ha : ∀ c ∈ a, c ≠ '/') (htail : tail = [] ∨ tail.head? = some '/') :
    plainUri.fromStr (scheme ++ schemeEnd ++ a ++ tail) =
      if LegalAuthority a then .ok ⟨some (hostOf a), portOf a, tail⟩
      else .error "invalid authority".toList := by
  have hcolon : ':' ∉ scheme := by
    rw [← mem_lower (by decide)]
    rcases hscheme with h | h <;> rw [h] <;> decide
  have hauthority : (a ++ tail).takeWhile (· ≠ '/') = a ∧ (a ++ tail).dropWhile (· ≠ '/') = tail := by
    have hall : ∀ c ∈ a, decide (c ≠ '/') = true := fun c hc => decide_eq_true (ha c hc)
    rw [List.takeWhile_append_of_pos hall, List.dropWhile_append_of_pos hall]
    rcases htail with rfl | hhead
    · simp
    · cases tail with
      | nil => cases hhead
      | cons c tail =>
          cases hhead
          simp
  have hsplit : splitOnce schemeEnd (scheme ++ schemeEnd ++ (a ++ tail)) = some (scheme, a ++ tail) :=
    splitOnce_of_not_mem (show schemeEnd = ':' :: ['/', '/'] from rfl) hcolon
  unfold plainUri
  dsimp only
  rw [List.append_assoc _ a tail, hsplit]
  dsimp only
  rw [hauthority.1, hauthority.2]

/-- The host of an authority is some of it, with a closing bracket. -/
theorem hostOf_sub (a : Text) :
    (∀ c ∈ hostOf a, c ∈ a ∨ c = ']') ∧ (hostOf a).count '[' ≤ a.count '[' := by
  by_cases hhead : a.head? = some '['
  · obtain ⟨rest, rfl⟩ : ∃ rest, a = '[' :: rest := by
      cases a with
      | nil => cases hhead
      | cons c rest => exact ⟨rest, by rw [Option.some.inj hhead]⟩
    have hsub : rest.takeWhile (· ≠ ']') <+: rest := List.takeWhile_prefix _
    have hhost : hostOf ('[' :: rest) = '[' :: (rest.takeWhile (· ≠ ']') ++ [']']) := rfl
    rw [hhost]
    constructor
    · intro c hc
      rcases List.mem_cons.mp hc with rfl | hc
      · exact .inl List.mem_cons_self
      · rcases List.mem_append.mp hc with hc | hc
        · exact .inl (List.mem_cons_of_mem _ (hsub.subset hc))
        · exact .inr (List.mem_singleton.mp hc)
    · rw [List.count_cons_self, List.count_cons_self, List.count_append]
      have hle := hsub.sublist.count_le '['
      simpa using hle
  · have hsub : a.takeWhile (· ≠ ':') <+: a := List.takeWhile_prefix _
    rw [hostOf_of_head hhead]
    exact ⟨fun c hc => .inl (hsub.subset hc), hsub.sublist.count_le '['⟩

theorem plainUri_documented : plainUri.Documented := by
  have hlegal : ∀ {scheme a tail : Text} {uri : UriParts},
      (lower scheme = http ∨ lower scheme = https) → PlainAuthority a →
      (tail = [] ∨ tail.head? = some '/') →
      plainUri.fromStr (scheme ++ schemeEnd ++ a ++ tail) = .ok uri →
        LegalAuthority a ∧ uri = ⟨some (hostOf a), portOf a, tail⟩ := by
    intro scheme a tail uri hscheme ha htail h
    rw [plainUri_eq hscheme (fun c hc => (ha.chars c hc).1) htail] at h
    split_ifs at h with hl
    exact ⟨hl, (Except.ok.inj h).symm⟩
  refine ⟨?_, ?_, ?_⟩
  · intro scheme a tail uri hscheme ha htail h
    rw [(hlegal hscheme ha htail h).2]
    exact ⟨rfl, rfl⟩
  · intro scheme a tail uri hscheme ha htail h
    exact (hlegal hscheme ha htail h).1.2
  · intro scheme a tail uri hscheme ha htail h host hhost hbrackets port hport hne
    obtain ⟨⟨-, hspace, -, hcount⟩, -⟩ := hlegal hscheme ha htail h
    have hlow : lower (lower scheme) = http ∨ lower (lower scheme) = https := by
      rw [lower_lower]
      exact hscheme
    obtain ⟨hsub, hopen⟩ := hostOf_sub a
    -- the host is what stands in the authority, in lower case
    obtain ⟨shown, hshown, hle, rfl⟩ : ∃ shown : Text, (∀ c ∈ shown, c ∈ a ∨ c = ']') ∧
        shown.count '[' ≤ 1 ∧ host = lower shown := by
      rcases hhost with rfl | ⟨literal, hlit, -, rfl⟩
      · exact ⟨hostOf a, hsub, hopen.trans hcount, rfl⟩
      · have hin : literal.Sublist (hostOf a) := by
          rw [hlit]
          exact ((List.sublist_append_left literal [']']).trans (List.sublist_cons_self _ _))
        exact ⟨literal, fun c hc => hsub c (hin.subset hc), (hin.count_le '[').trans
          (hopen.trans hcount), rfl⟩
    have hchars : ∀ c ∈ lower shown ++ portSuffix port, isWhitespace c = false ∧ c ≠ '/' := by
      intro c hc
      rcases List.mem_append.mp hc with hc | hc
      · obtain ⟨d, hd, rfl⟩ := List.mem_map.mp hc
        rw [isWhitespace_toLower, Ne, toLower_eq_iff (by decide)]
        rcases hshown d hd with hd | rfl
        · exact ⟨hspace d hd, (ha.chars d hd).1⟩
        · decide
      · exact ⟨(portSuffix_chars c hc).1, (portSuffix_chars c hc).2.1⟩
    have hlegal' : LegalAuthority (lower shown ++ portSuffix port) := by
      refine ⟨hne, fun c hc => (hchars c hc).1, ?_, ?_⟩
      · rw [List.count_append, List.count_append, hbrackets,
          count_portSuffix _ (by decide) (by decide), count_portSuffix _ (by decide) (by decide)]
      · rw [List.count_append, count_portSuffix _ (by decide) (by decide), count_lower (by decide)]
        exact hle
    refine ⟨⟨some (hostOf (lower shown ++ portSuffix port)), portOf (lower shown ++ portSuffix port),
      []⟩, ?_⟩
    have heq := plainUri_eq hlow (fun c hc => (hchars c hc).2) (.inl rfl)
    rw [List.append_nil] at heq
    rw [heq, if_pos hlegal']

/-! ### Runs -/

def loopbackUrl : Text := "http://127.0.0.1:8080/repo".toList
def signedUrl : Text := "http://127.0.0.+1".toList
def portUrl : Text := "http://:80".toList
def originUrl : Text := "https://example.org/repo".toList
def tierUrl : Text := "https://cache.example.org".toList

theorem parse_loopbackUrl :
    parseRemote plainUri loopbackUrl =
      .ok ⟨http, "127.0.0.1".toList, 8080, "/repo".toList⟩ := by
  rfl

theorem parse_signedUrl :
    parseRemote plainUri signedUrl = .ok ⟨http, "127.0.0.+1".toList, 80, []⟩ := by
  rfl

theorem parse_originUrl :
    parseRemote plainUri originUrl = .ok ⟨https, "example.org".toList, 443, "/repo".toList⟩ := by
  rfl

theorem parse_tierUrl :
    parseRemote plainUri tierUrl = .ok ⟨https, "cache.example.org".toList, 443, []⟩ := by
  rfl

theorem parse_portUrl : parseRemote plainUri portUrl = .ok ⟨http, [], 80, []⟩ := by
  rfl

/-- A client of a loopback host is built, and routes to a tier of its own. -/
theorem remote_admission_loopback :
    (∃ client, Built plainUri loopbackUrl false none client ∧
      TierAgrees plainUri false none client loopbackUrl) ∧
    SafelyBuilt plainUri loopbackUrl false none ∧
    (∃ p, parseRemote plainUri originUrl = .ok p ∧
      ∃ q, parseRemote plainUri p.origin = .ok q ∧ q.key = p.key) ∧
    originsMatch plainUri originUrl originUrl = true := by
  obtain ⟨hbuilt, horigin, ⟨hrefl, -, -⟩, htier⟩ := remote_admission plainUri_documented
  have hclient : Built plainUri loopbackUrl false none
      (newClient "http://127.0.0.1:8080".toList none) := .inl rfl
  refine ⟨⟨_, hclient, (htier _ _ _ _ hclient _).mpr ?_⟩, (hbuilt _ _ _).mpr ?_,
    ⟨_, parse_originUrl, (horigin _ _ parse_originUrl).mpr ?_⟩, hrefl _ _ parse_originUrl⟩
  · intro t ht
    rw [parse_loopbackUrl] at ht
    cases ht
    exact .inl rfl
  · rintro ⟨p, hp, -, hlenient, -⟩
    rw [parse_loopbackUrl] at hp
    cases hp
    exact absurd hlenient (by decide)
  · exact ⟨.inl (by decide), by decide⟩

/-- A plus sign in the last octet is a loopback address to the admission; the
origin of an empty host names nothing; a tier over https is refused. -/
theorem lenient_loopback_admitted :
    (∃ client, wcClient plainUri signedUrl false none = .ok client ∧
      ¬ SafelyBuilt plainUri signedUrl false none) ∧
    (∃ p, parseRemote plainUri portUrl = .ok p ∧
      ∀ q, parseRemote plainUri p.origin ≠ .ok q) ∧
    ∃ client, wcClient plainUri originUrl false none = .ok client ∧
      ¬ TierAgrees plainUri false none client tierUrl := by
  refine ⟨⟨newClient "http://127.0.0.+1".toList none, rfl, fun hsafe => ?_⟩, ⟨_, parse_portUrl, ?_⟩,
    newClient "https://example.org".toList none, rfl, fun hagree => ?_⟩
  · obtain ⟨p, hp, hopen⟩ := hsafe _ (.inl rfl)
    rw [parse_signedUrl] at hp
    cases hp
    rcases hopen rfl with hloop | hopted | ⟨_, hnone, -⟩
    · exact absurd hloop (by decide)
    · cases hopted
    · cases hnone
  · intro q hq
    cases hq
  · obtain ⟨t, ht⟩ := hagree.mpr ⟨_, parse_tierUrl, rfl⟩
    cases ht

end Naatre.Client.Url
