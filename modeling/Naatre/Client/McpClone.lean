import Naatre.Client.FetchBlobs

/-!
The clone tool of the MCP server (`naatre-cli/src/verbs/mcp.rs`, `clone.rs`):
which origin a call goes to, and whose token it carries. The network, the CA
bundle and what is written of the clone are left out.
-/

namespace Naatre.Client.McpClone

open Url
open FetchBlobs (Value)

/-! ### Data -/

/-- Where a token comes from: the call, the session's flag or the environment. -/
inductive TokenSource
  | given
  | flag
  | env
  deriving DecidableEq, Repr

structure Token where
  source : TokenSource
  text : String
  deriving DecidableEq

structure Net where
  server : Option String
  token : Option Token
  caFile : Option String
  insecureHttp : Bool

/-- The variables `clone` reads. -/
structure Env where
  url : Option String
  token : Option String
  caFile : Option String
  cacheUrl : Option String

/-- `config.toml`. -/
structure Config where
  serverUrl : String
  token : Option String
  caFile : Option String
  insecureHttp : Option String

inductive VerbError
  | usage (text : String)

inductive ToolFailure
  | params (text : String)
  | tool (text : String)

def defaultUrl : String := "http://127.0.0.1:7400"

/-- A variable that is set and not empty. -/
def envVar (v : Option String) : Option String := v.filter (· ≠ "")

/-- The `Net` of a session: no server override, and the token of its flag. -/
def sessionNet (tokenFlag : Option String) (optin : Bool) : Net :=
  ⟨none, tokenFlag.map (⟨.flag, ·⟩), none, optin⟩

/-! ### Arguments -/

def takeStr (args : Value) (key : String) (required : Bool) : Except String (Option String) :=
  match args.get key with
  | .null =>
      if required then .error ("missing required argument: " ++ key) else .ok none
  | .string s => .ok (some s)
  | _ => .error ("argument " ++ quoted key ++ " must be a string")

def takeStrList (args : Value) (key : String) : Except String (Option (List String)) :=
  match args.get key with
  | .null => .ok none
  | .array items =>
      match items.mapM Value.asStr with
      | some strings => .ok (some strings)
      | none => .error ("argument " ++ quoted key ++ " must be an array of strings")
  | _ => .error ("argument " ++ quoted key ++ " must be an array of strings")

/-! ### The target -/

/-- The trailing slashes, but for those of a scheme's end. -/
def stripSlashes (url : Text) : Text := go url.reverse |>.reverse
where
  go : Text → Text
    | '/' :: rest =>
        if schemeEnd.reverse.isPrefixOf ('/' :: rest) then '/' :: rest else go rest
    | rest => rest

/-- `trim_end_matches('/')`. -/
def trimSlashes (s : Text) : Text := (s.reverse.dropWhile (· = '/')).reverse

section

variable (lib : UriLib) (env : Env)

def parse (url : Text) : Except VerbError ParsedRemote :=
  (parseRemote lib url).mapError fun e => .usage e.message

/-- `split_url_parsed`. -/
def splitUrlParsed (url : String) (net : Net) : Except VerbError (ParsedRemote × Text) := do
  let url := stripSlashes (trim url.toList)
  if (splitOnce schemeEnd url).isSome then
    let parsed ← parse lib url
    let repo := parsed.path.dropWhile (· = '/')
    if repo = [] then
      .error (.usage ("URL " ++ debugText url ++
        " has no repo path (expected https://host[:port]/<repo>)"))
    else
      (admitRemote lib parsed net.insecureHttp none).mapError fun e => .usage e.message
      .ok (parsed, repo)
  else if '/' ∈ url then
    .error (.usage (debugText url ++
      " is neither https://host[:port]/<repo> nor a bare repo name"))
  else
    let base := (net.server.or (envVar env.url)).getD defaultUrl
    let parsed ← parse lib base.toList
    (admitRemote lib parsed net.insecureHttp none).mapError fun e => .usage e.message
    .ok (parsed, url)

/-- What the requests of a clone go out with. -/
structure CloneClient where
  remote : RemoteClient
  token : Option Token
  repo : Text
  caFile : Option String

/-- `clone::value` up to its first request. -/
def cloneValue (url : String) (net : Net) : Except VerbError CloneClient := do
  let (parsed, repo) ← splitUrlParsed lib env url net
  .ok
    { remote := newClient parsed.origin
        (if parsed.scheme = http ∧ net.insecureHttp = true then some parsed.key else none)
      token := net.token.or ((envVar env.token).map (⟨.env, ·⟩))
      repo
      caFile := net.caFile.or (envVar env.caFile) }

/-- The server of the session's working copy. -/
def sessionOrigin (cfg : Config) : Text := trimSlashes cfg.serverUrl.toList

/-- The stored opt-in is the configured server's, over plain http. -/
def perRemoteAdmits (cfg : Config) : Bool :=
  match cfg.insecureHttp, parseRemote lib (sessionOrigin cfg) with
  | some origin, .ok session =>
      match parseRemote lib origin.toList with
      | .ok p => decide (p.scheme = http) && decide (p.key = session.key)
      | .error _ => false
  | _, _ => false

def toolError {α : Type} (r : Except VerbError α) : Except ToolFailure α :=
  r.mapError fun | .usage text => .tool text

/-- `dispatch` of `clone`, up to the first request. -/
def dispatchClone (cfg : Config) (net : Net) (args : Value) : Except ToolFailure CloneClient := do
  let url ← (takeStr args "url" true).mapError .params
  let _ ← (takeStrList args "sparse").mapError .params
  let _ ← (takeStr args "into" false).mapError .params
  let token ← (takeStr args "token" false).mapError .params
  let url := url.getD ""
  let session := sessionOrigin cfg
  let (parsed, _) ← toolError (splitUrlParsed lib env url net)
  if originsMatch lib parsed.origin session then
    toolError (cloneValue lib env url ⟨none, net.token, cfg.caFile, perRemoteAdmits lib cfg⟩)
  else
    match token with
    | none =>
        .error (.tool ("refusing to clone from " ++ String.ofList parsed.origin ++
          ": it is not this session's configured server (" ++ String.ofList session ++
          "); the session's token is never sent to another origin — pass an explicit " ++
          "\"token\" argument to clone from elsewhere"))
    | some explicit =>
        toolError (cloneValue lib env url ⟨none, some ⟨.given, explicit⟩, none, false⟩)

end

/-! ### Requests -/

/-- A request: where it is sent, and the bearer it carries. -/
structure Request where
  base : Text
  path : Text
  bearer : Option Token

/-- The requests of a clone: the version probe, those of the API, and with a
ticket those to the tier of the environment. -/
inductive CloneClient.Sends (env : Env) (client : CloneClient) : Request → Prop
  | version : Sends env client ⟨client.remote.base, "/version".toList, none⟩
  | api (path : Text) : Sends env client ⟨client.remote.base, path, client.token⟩
  | tier (url : String) (path : Text) (h : env.cacheUrl = some url) :
      Sends env client ⟨url.toList, path, none⟩

/-! ### Confinement -/

section

variable {lib : UriLib} {env : Env}

theorem stripped_eq {s : Text} (h : s.getLast? ≠ some '/') : trimSlashes s = s := by
  rw [trimSlashes]
  rcases List.eq_nil_or_concat s with rfl | ⟨init, c, rfl⟩
  · rfl
  · rw [List.concat_eq_append] at h ⊢
    rw [List.getLast?_concat] at h
    have hc : c ≠ '/' := fun heq => h (congrArg some heq)
    simp [hc]

/-- An origin that parses ends in its authority. -/
theorem base_eq_origin (hlib : lib.Documented) {text : Text} {p q : ParsedRemote}
    (hp : parseRemote lib text = .ok p) (hq : parseRemote lib p.origin = .ok q) :
    trimSlashes p.origin = p.origin := by
  obtain ⟨a, hfacts⟩ := parseRemote_hostFacts hlib hp
  have hscheme := (parseRemote_ok hp).1
  have hne := authority_ne_nil hscheme hq
  refine stripped_eq fun hlast => ?_
  rw [origin_eq, ← ParsedRemote.authority, List.getLast?_append_of_ne_nil _ hne] at hlast
  have hmem := List.mem_of_getLast? hlast
  rcases List.mem_append.mp hmem with hmem | hmem
  · exact (urlHost_chars hfacts.chars '/' hmem).2.1 rfl
  · exact (portSuffix_chars '/' hmem).2.1 rfl

theorem mapError_eq_ok {α ε ε' : Type} {r : Except ε α} {f : ε → ε'} {a : α} :
    r.mapError f = .ok a ↔ r = .ok a := by
  cases r with
  | error e => exact iff_of_false (fun h => nomatch h) (fun h => nomatch h)
  | ok b => exact ⟨fun h => congrArg _ (Except.ok.inj h), fun h => congrArg _ (Except.ok.inj h)⟩

/-- The text a URL is parsed from: itself, or for a bare name the server. -/
def remoteText (env : Env) (url : String) (server : Option String) : Text :=
  let url := stripSlashes (trim url.toList)
  if (splitOnce schemeEnd url).isSome then url
  else ((server.or (envVar env.url)).getD defaultUrl).toList

theorem splitUrlParsed_ok {url : String} {net : Net} {p : ParsedRemote} {repo : Text}
    (h : splitUrlParsed lib env url net = .ok (p, repo)) :
    parseRemote lib (remoteText env url net.server) = .ok p := by
  simp only [splitUrlParsed] at h
  by_cases hfull : (splitOnce schemeEnd (stripSlashes (trim url.toList))).isSome = true
  · rw [if_pos hfull] at h
    obtain ⟨parsed, hparsed, h⟩ := Lib.bind_eq_ok.mp h
    split_ifs at h with hrepo
    obtain ⟨-, -, h⟩ := Lib.bind_eq_ok.mp h
    obtain ⟨rfl, -⟩ := Prod.mk.inj (Except.ok.inj h)
    rw [remoteText, if_pos hfull]
    exact mapError_eq_ok.mp hparsed
  · rw [if_neg hfull] at h
    split_ifs at h with hslash
    obtain ⟨parsed, hparsed, h⟩ := Lib.bind_eq_ok.mp h
    obtain ⟨-, -, h⟩ := Lib.bind_eq_ok.mp h
    obtain ⟨rfl, -⟩ := Prod.mk.inj (Except.ok.inj h)
    rw [remoteText, if_neg hfull]
    exact mapError_eq_ok.mp hparsed

/-- The server a base names is the configured one of the working copy. -/
def SameServer (lib : UriLib) (cfg : Config) (base : Text) : Prop :=
  ∃ p session, parseRemote lib base = .ok p ∧
    parseRemote lib (sessionOrigin cfg) = .ok session ∧ p.key = session.key

/-- What a call that goes through has decided: the configured server, or another
one with the token of the call. -/
theorem dispatchClone_cases {cfg : Config} {tokenFlag : Option String} {optin : Bool} {args : Value}
    {client : CloneClient}
    (h : dispatchClone lib env cfg (sessionNet tokenFlag optin) args = .ok client) :
    ∃ text p, parseRemote lib text = .ok p ∧ client.remote.base = trimSlashes p.origin ∧
      (originsMatch lib p.origin (sessionOrigin cfg) = true ∨
        ∃ explicit, takeStr args "token" false = .ok (some explicit) ∧
          client.token = some ⟨.given, explicit⟩) := by
  unfold dispatchClone at h
  obtain ⟨url, -, h⟩ := Lib.bind_eq_ok.mp h
  obtain ⟨-, -, h⟩ := Lib.bind_eq_ok.mp h
  obtain ⟨-, -, h⟩ := Lib.bind_eq_ok.mp h
  obtain ⟨token, htoken, h⟩ := Lib.bind_eq_ok.mp h
  obtain ⟨⟨p, repo⟩, hsplit, h⟩ := Lib.bind_eq_ok.mp h
  -- without a server override both layers parse one text
  have hvalue : ∀ net' : Net, net'.server = none →
      toolError (cloneValue lib env (url.getD "") net') = .ok client →
        client.remote.base = trimSlashes p.origin ∧
          client.token = net'.token.or ((envVar env.token).map (⟨.env, ·⟩)) := by
    intro net' hserver hclient
    obtain ⟨⟨p', repo'⟩, hsplit', hclient⟩ := Lib.bind_eq_ok.mp (mapError_eq_ok.mp hclient)
    have hp := splitUrlParsed_ok (mapError_eq_ok.mp hsplit)
    have hp' := splitUrlParsed_ok hsplit'
    rw [hserver] at hp'
    obtain rfl : p' = p := Except.ok.inj (hp'.symm.trans hp)
    cases hclient
    exact ⟨rfl, rfl⟩
  refine ⟨_, p, splitUrlParsed_ok (mapError_eq_ok.mp hsplit), ?_⟩
  by_cases hmatch : originsMatch lib p.origin (sessionOrigin cfg) = true
  · simp only [if_pos hmatch] at h
    exact ⟨(hvalue _ rfl h).1, .inl hmatch⟩
  · simp only [if_neg hmatch] at h
    cases token with
    | none => cases h
    | some explicit =>
        obtain ⟨hbase, hbearer⟩ := hvalue _ rfl h
        exact ⟨hbase, .inr ⟨explicit, mapError_eq_ok.mp htoken, hbearer⟩⟩

/-- Every request of a clone with a token of the session goes to the configured
server, and a clone from anywhere else carries the call's token only. -/
theorem dispatchClone_confined (hlib : lib.Documented) {cfg : Config} {tokenFlag : Option String}
    {optin : Bool} {args : Value} {client : CloneClient}
    (h : dispatchClone lib env cfg (sessionNet tokenFlag optin) args = .ok client)
    {r : Request} (hr : client.Sends env r) {token : Token} (htoken : r.bearer = some token) :
    (token.source ≠ .given → SameServer lib cfg r.base) ∧
      (¬ SameServer lib cfg r.base →
        token.source = .given ∧ takeStr args "token" false = .ok (some token.text)) := by
  obtain ⟨text, p, hp, hbase, hdecided⟩ := dispatchClone_cases h
  cases hr with
  | version => cases htoken
  | tier => cases htoken
  | api path =>
      simp only at htoken ⊢
      rcases hdecided with hmatch | ⟨explicit, hgiven, hclient⟩
      · obtain ⟨q, session, hq, hsession, hkey⟩ := originsMatch_iff.mp hmatch
        have hsame : SameServer lib cfg client.remote.base := by
          rw [hbase, base_eq_origin hlib hp hq]
          exact ⟨q, session, hq, hsession, hkey⟩
        exact ⟨fun _ => hsame, fun hother => absurd hsame hother⟩
      · obtain rfl := Option.some.inj (hclient.symm.trans htoken)
        exact ⟨fun hsource => absurd rfl hsource, fun _ => ⟨rfl, hgiven⟩⟩

end

/-- A working copy of `https://example.org`, and the token of a session there. -/
def session : Config := ⟨"https://example.org/", some "stored", none, none⟩

def emptyEnv : Env := ⟨none, none, none, none⟩

def cloning (fields : List (String × String)) : Value :=
  .object (fields.map fun f => (f.1, .string f.2))

/-- A clone from the configured server, and one from elsewhere. -/
theorem dispatchClone_confined_session :
    (∃ client, dispatchClone plainUri emptyEnv session (sessionNet (some "flag") false)
        (cloning [("url", "https://Example.org:443/r")]) = .ok client ∧
      ∃ r token, client.Sends emptyEnv r ∧ r.bearer = some token ∧ token.source = .flag ∧
        SameServer plainUri session r.base) ∧
    ∃ client, dispatchClone plainUri emptyEnv session (sessionNet (some "flag") false)
        (cloning [("url", "http://localhost/r"), ("token", "mine")]) = .ok client ∧
      ∀ r, client.Sends emptyEnv r → ∀ token, r.bearer = some token →
        token.source ≠ .given → SameServer plainUri session r.base := by
  have hrun : ∀ args : List (String × String), ((dispatchClone plainUri emptyEnv session
      (sessionNet (some "flag") false) (cloning args)).toOption.isSome) = true →
      ∃ client, dispatchClone plainUri emptyEnv session (sessionNet (some "flag") false)
        (cloning args) = .ok client := by
    intro args hsome
    cases hclient : dispatchClone plainUri emptyEnv session (sessionNet (some "flag") false)
      (cloning args) with
    | error e =>
        rw [hclient] at hsome
        cases hsome
    | ok client => exact ⟨client, rfl⟩
  obtain ⟨own, hown⟩ := hrun [("url", "https://Example.org:443/r")] (by decide +kernel)
  obtain ⟨other, hother⟩ :=
    hrun [("url", "http://localhost/r"), ("token", "mine")] (by decide +kernel)
  refine ⟨⟨own, hown, ?_⟩, other, hother, fun r hr token htoken =>
    (dispatchClone_confined plainUri_documented hother hr htoken).1⟩
  have htoken : own.token = some ⟨.flag, "flag"⟩ := by
    have hflag : ((dispatchClone plainUri emptyEnv session (sessionNet (some "flag") false)
        (cloning [("url", "https://Example.org:443/r")])).toOption.bind (·.token)) =
          some ⟨.flag, "flag"⟩ := by decide +kernel
    rwa [hown] at hflag
  exact ⟨_, _, .api [], htoken, rfl,
    (dispatchClone_confined plainUri_documented hown (.api []) htoken).1 (by decide)⟩

end Naatre.Client.McpClone
