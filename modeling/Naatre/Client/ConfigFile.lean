import Naatre.Client.McpClone

/-!
The working copy's `config.toml` (`save_config`, `load_config` and
`parse_config` in `naatre-cli/src/wc/mod.rs`): which of the values that `clone`,
`login` and `config set` store come back. The file is taken as its text; the
write itself and the file's mode are left out.
-/

namespace Naatre.Client.ConfigFile

open Url
open McpClone (Config trimSlashes)

/-! ### The writer -/

inductive ConfigKey
  | serverUrl
  | token
  | insecureHttp
  | caFile
  deriving DecidableEq

def ConfigKey.text : ConfigKey → Text
  | .serverUrl => "server_url".toList
  | .token => "token".toList
  | .insecureHttp => "insecure_http".toList
  | .caFile => "ca_file".toList

/-- `escape_toml`: backslashes first, then quotes. -/
def escapeToml (value : Text) : Text :=
  (value.flatMap fun c => if c = '\\' then ['\\', '\\'] else [c]).flatMap fun c =>
    if c = '"' then ['\\', '"'] else [c]

def keyLine (key : ConfigKey) (value : Text) : Text :=
  key.text ++ ' ' :: '=' :: ' ' :: '"' :: (escapeToml value ++ ['"'])

/-- The keys a configuration writes: the server always, the others when set. -/
def entries (c : Config) : List (ConfigKey × Text) :=
  (.serverUrl, c.serverUrl.toList) ::
    ((c.token.map fun v => (ConfigKey.token, v.toList)).toList ++
      ((c.insecureHttp.map fun v => (ConfigKey.insecureHttp, v.toList)).toList ++
        (c.caFile.map fun v => (ConfigKey.caFile, v.toList)).toList))

/-- `save_config`. -/
def saveConfig (c : Config) : Text := (entries c).flatMap fun e => keyLine e.1 e.2 ++ ['\n']

/-! ### The reader -/

/-- A carriage return before a line feed belongs to the line end. -/
def stripReturn (line : Text) : Text := if line.getLast? = some '\r' then line.dropLast else line

/-- `str::lines`, past the part of the line it is in. -/
def linesFrom : Text → Text → List Text
  | line, [] => if line = [] then [] else [line]
  | line, c :: rest =>
      if c = '\n' then stripReturn line :: linesFrom [] rest else linesFrom (line ++ [c]) rest

def textLines (text : Text) : List Text := linesFrom [] text

def unescape : Text → Text
  | [] => []
  | [c] => [c]
  | c :: d :: rest =>
      if c = '\\' then
        if d = '"' ∨ d = '\\' then d :: unescape rest else '\\' :: d :: unescape rest
      else c :: unescape (d :: rest)

inductive ConfigError
  | badLine (line : ℕ)
  | badOrigin (line : ℕ) (value : Text) (error : RemoteError)
  | notPlainHttp (line : ℕ) (value : Text)
  | unknownKey (line : ℕ) (key : Text)
  deriving DecidableEq

def ConfigError.message : ConfigError → String
  | .badLine line => "line " ++ toString line ++ ": expected key = \"value\""
  | .badOrigin line value e =>
      "line " ++ toString line ++ ": insecure_http must be the opted-in origin " ++
        "\"http://host[:port]\" (got " ++ debugText value ++ ": " ++ e.message ++ ")"
  | .notPlainHttp line value =>
      "line " ++ toString line ++ ": insecure_http must be a plain-http origin " ++
        "\"http://host[:port]\" (got " ++ debugText value ++ ")"
  | .unknownKey line key => "line " ++ toString line ++ ": unknown key " ++ debugText key

/-- `strip_prefix('"')` and `strip_suffix('"')`. -/
def bareValue : Text → Option Text
  | '"' :: value => if value.getLast? = some '"' then some value.dropLast else none
  | _ => none

/-- What a key of the file sets. -/
def setKey (lib : UriLib) (line : ℕ) (key value : Text) (config : Config) :
    Except ConfigError Config :=
  if key = ConfigKey.serverUrl.text then
    .ok { config with serverUrl := String.ofList (unescape value) }
  else if key = ConfigKey.token.text then
    .ok { config with token := some (String.ofList (unescape value)) }
  else if key = ConfigKey.insecureHttp.text then
    match parseRemote lib value with
    | .error e => .error (.badOrigin line value e)
    | .ok parsed =>
        if parsed.scheme ≠ http then .error (.notPlainHttp line value)
        else .ok { config with insecureHttp := some (String.ofList parsed.origin) }
  else if key = ConfigKey.caFile.text then
    .ok { config with caFile := some (String.ofList (unescape value)) }
  else .error (.unknownKey line key)

def parseLine (lib : UriLib) (line : ℕ) (text : Text) (config : Config) :
    Except ConfigError Config :=
  let text := trim text
  if text = [] ∨ text.head? = some '#' then .ok config
  else match splitOnce ['='] text with
    | none => .error (.badLine line)
    | some (key, value) =>
        match bareValue (trim value) with
        | none => .error (.badLine line)
        | some value => setKey lib line (trim key) value config

def parseLines (lib : UriLib) : ℕ → List Text → Config → Except ConfigError Config
  | _, [], config => .ok config
  | line, text :: rest, config =>
      (parseLine lib line text config).bind (parseLines lib (line + 1) rest)

/-- `Config::default`. -/
def emptyConfig : Config := ⟨"", none, none, none⟩

/-- `parse_config`; lines count from one. -/
def parseConfig (lib : UriLib) (text : Text) : Except ConfigError Config :=
  parseLines lib 1 (textLines text) emptyConfig

/-! ### The verbs -/

/-- What the verbs that write the file hold: a clone's configuration, or that of the
file (none is the empty one) with a setting changed. -/
inductive Storable (lib : UriLib) : Config → Prop
  | missing : Storable lib emptyConfig
  | load {c c' : Config} (h : Storable lib c) (hload : parseConfig lib (saveConfig c) = .ok c') :
      Storable lib c'
  | clone {text : Text} {p : ParsedRemote} (hp : parseRemote lib text = .ok p) (optin : Bool)
      (token caFile : Option String) :
      Storable lib ⟨String.ofList (trimSlashes p.origin), token, caFile,
        if p.scheme = http ∧ optin then some (String.ofList p.origin) else none⟩
  | login {c : Config} (h : Storable lib c) (server token : String) :
      Storable lib { c with
        serverUrl := String.ofList (trimSlashes server.toList), token := some token }
  | setOrigin {c : Config} (h : Storable lib c) {text : Text} {p : ParsedRemote}
      (hp : parseRemote lib text = .ok p) (hscheme : p.scheme = http) :
      Storable lib { c with insecureHttp := some (String.ofList p.origin) }
  | clearOrigin {c : Config} (h : Storable lib c) : Storable lib { c with insecureHttp := none }
  | setCaFile {c : Config} (h : Storable lib c) (path : String) :
      Storable lib { c with caFile := some path }
  | clearCaFile {c : Config} (h : Storable lib c) : Storable lib { c with caFile := none }

/-! ### Values -/

/-- What one character of a value becomes. -/
def escapeChar (c : Char) : Text :=
  if c = '\\' then ['\\', '\\'] else if c = '"' then ['\\', '"'] else [c]

theorem escapeToml_eq (value : Text) : escapeToml value = value.flatMap escapeChar := by
  rw [escapeToml, List.flatMap_assoc]
  refine List.flatMap_congr fun c _ => ?_
  unfold escapeChar
  by_cases hslash : c = '\\'
  · subst hslash
    rfl
  · rw [if_neg hslash, if_neg hslash, List.flatMap_singleton]

theorem unescape_escapeToml (value : Text) : unescape (escapeToml value) = value := by
  rw [escapeToml_eq]
  induction value with
  | nil => rfl
  | cons c value ih =>
      rw [List.flatMap_cons, escapeChar]
      split_ifs with hslash hquote
      · subst hslash
        rw [List.cons_append, List.singleton_append, unescape, if_pos rfl, if_pos (.inr rfl), ih]
      · subst hquote
        rw [List.cons_append, List.singleton_append, unescape, if_pos rfl, if_pos (.inl rfl), ih]
      · rw [List.singleton_append]
        cases hrest : value.flatMap escapeChar with
        | nil =>
            rw [hrest] at ih
            rw [unescape, ← ih]
            rfl
        | cons d rest => rw [unescape, if_neg hslash, ← hrest, ih]

theorem mem_escapeToml {value : Text} {c : Char} (h : c ∈ escapeToml value) :
    c ∈ value ∨ c = '\\' := by
  rw [escapeToml_eq] at h
  obtain ⟨d, hd, hc⟩ := List.mem_flatMap.mp h
  unfold escapeChar at hc
  split_ifs at hc with hslash hquote
  · simp only [List.mem_cons, List.not_mem_nil, or_false, or_self] at hc
    exact .inr hc
  · simp only [List.mem_cons, List.not_mem_nil, or_false] at hc
    rcases hc with rfl | rfl
    · exact .inr rfl
    · exact .inl (hquote ▸ hd)
  · exact .inl (List.mem_singleton.mp hc ▸ hd)

theorem mem_unescape {value : Text} {c : Char} (h : c ∈ unescape value) : c ∈ value := by
  fun_induction unescape value with
  | case1 => exact h
  | case2 d => exact h
  | case3 d rest hd ih =>
      rcases List.mem_cons.mp h with rfl | h
      · exact List.mem_cons_of_mem _ List.mem_cons_self
      · exact List.mem_cons_of_mem _ (List.mem_cons_of_mem _ (ih h))
  | case4 d rest hd ih =>
      rcases List.mem_cons.mp h with rfl | h
      · exact List.mem_cons_self
      · rcases List.mem_cons.mp h with rfl | h
        · exact List.mem_cons_of_mem _ List.mem_cons_self
        · exact List.mem_cons_of_mem _ (List.mem_cons_of_mem _ (ih h))
  | case5 d e rest hd ih =>
      rcases List.mem_cons.mp h with rfl | h
      · exact List.mem_cons_self
      · exact List.mem_cons_of_mem _ (ih h)

/-- A text without a character that needs it is not escaped. -/
theorem escapeToml_plain {value : Text} (hslash : '\\' ∉ value) (hquote : '"' ∉ value) :
    escapeToml value = value := by
  rw [escapeToml_eq]
  refine (List.flatMap_congr fun c hc => ?_).trans (List.flatMap_singleton' value)
  have hs : c ≠ '\\' := fun h => hslash (h ▸ hc)
  have hq : c ≠ '"' := fun h => hquote (h ▸ hc)
  rw [escapeChar, if_neg hs, if_neg hq]

theorem backslash_mem_escapeToml {value : Text} (hquote : '"' ∈ value) :
    '\\' ∈ escapeToml value := by
  rw [escapeToml_eq]
  exact List.mem_flatMap.mpr ⟨'"', hquote, by decide⟩

/-! ### Lines -/

theorem linesFrom_line {l : Text} (hl : '\n' ∉ l) (line rest : Text) :
    linesFrom line (l ++ '\n' :: rest) = stripReturn (line ++ l) :: linesFrom [] rest := by
  induction l generalizing line with
  | nil => rw [List.nil_append, linesFrom, if_pos rfl, List.append_nil]
  | cons c l ih =>
      obtain ⟨hc, hl⟩ := not_or.mp (List.mem_cons.not.mp hl)
      rw [List.cons_append, linesFrom, if_neg (Ne.symm hc), ih hl, List.append_assoc,
        List.singleton_append]

/-- No line has a line break in it. -/
theorem mem_linesFrom {line text l : Text} (hline : '\n' ∉ line) (h : l ∈ linesFrom line text) :
    '\n' ∉ l := by
  induction text generalizing line with
  | nil =>
      rw [linesFrom] at h
      split_ifs at h
      · cases h
      · exact List.mem_singleton.mp h ▸ hline
  | cons c text ih =>
      rw [linesFrom] at h
      split_ifs at h with hc
      · rcases List.mem_cons.mp h with rfl | h
        · rw [stripReturn]
          split_ifs
          · exact fun hmem => hline ((List.dropLast_sublist _).subset hmem)
          · exact hline
        · exact ih List.not_mem_nil h
      · refine ih ?_ h
        rw [List.mem_append, List.mem_singleton, not_or]
        exact ⟨hline, Ne.symm hc⟩

theorem mem_dropWhile_trim {text : Text} {c : Char} (h : c ∈ trim text) : c ∈ text := by
  rw [trim, List.mem_reverse] at h
  have hrev := List.mem_reverse.mp ((List.dropWhile_sublist _).subset h)
  exact (List.dropWhile_sublist _).subset hrev

/-- Nothing is trimmed where no white space stands at either end. -/
theorem trim_fixed {text : Text} (hhead : ∀ c, text.head? = some c → isWhitespace c = false)
    (hlast : ∀ c, text.getLast? = some c → isWhitespace c = false) : trim text = text := by
  have hfixed : ∀ s : Text, (∀ c, s.head? = some c → isWhitespace c = false) →
      s.dropWhile isWhitespace = s := by
    intro s hs
    cases s with
    | nil => rfl
    | cons c s => rw [List.dropWhile_cons_of_neg (by simp [hs c rfl])]
  rw [trim, hfixed text hhead, hfixed _ (by simpa using hlast), List.reverse_reverse]

theorem trim_space (text : Text) : trim (' ' :: text) = trim text := by
  rw [trim, List.dropWhile_cons_of_pos (by decide), ← trim]

theorem ConfigKey.text_cons (key : ConfigKey) : ∃ c rest, key.text = c :: rest ∧
    isWhitespace c = false ∧ c ≠ '#' ∧ '=' ∉ key.text ++ [' '] ∧ '\n' ∉ key.text ∧
    trim (key.text ++ [' ']) = key.text := by
  cases key
  · exact ⟨_, _, rfl, by decide, by decide, by decide, by decide, by decide⟩
  · exact ⟨_, _, rfl, by decide, by decide, by decide, by decide, by decide⟩
  · exact ⟨_, _, rfl, by decide, by decide, by decide, by decide, by decide⟩
  · exact ⟨_, _, rfl, by decide, by decide, by decide, by decide, by decide⟩

/-- A written line sets its key to the escaped value. -/
theorem parseLine_keyLine (lib : UriLib) (line : ℕ) (key : ConfigKey) (value : Text)
    (config : Config) :
    parseLine lib line (keyLine key value) config =
      setKey lib line key.text (escapeToml value) config := by
  obtain ⟨c, rest, hkey, hspace, hcomment, hequals, -, htrim⟩ := key.text_cons
  have hhead : (keyLine key value).head? = some c := by rw [keyLine, hkey]; rfl
  have hlast : (keyLine key value).getLast? = some '"' := by
    simp [keyLine, List.getLast?_append, List.getLast?_cons]
  have hline : trim (keyLine key value) = keyLine key value := by
    refine trim_fixed (fun d hd => ?_) fun d hd => ?_
    · rw [hhead] at hd
      exact Option.some.inj hd ▸ hspace
    · rw [hlast] at hd
      exact Option.some.inj hd ▸ by decide
  have hvalue : trim (' ' :: '"' :: (escapeToml value ++ ['"'])) =
      '"' :: (escapeToml value ++ ['"']) := by
    rw [trim_space]
    refine trim_fixed (fun d hd => ?_) fun d hd => ?_
    · exact Option.some.inj hd ▸ by decide
    · have hquote : ('"' :: (escapeToml value ++ ['"'])).getLast? = some '"' := by
        simp [List.getLast?_cons]
      rw [hquote] at hd
      exact Option.some.inj hd ▸ by decide
  have hsplit : splitOnce ['='] (keyLine key value) =
      some (key.text ++ [' '], ' ' :: '"' :: (escapeToml value ++ ['"'])) := by
    have hcut : splitOnce ['='] (key.text ++ [' '] ++ ['='] ++
        ' ' :: '"' :: (escapeToml value ++ ['"'])) =
          some (key.text ++ [' '], ' ' :: '"' :: (escapeToml value ++ ['"'])) :=
      splitOnce_of_not_mem (rfl : ['='] = '=' :: []) hequals
    rw [keyLine, ← hcut]
    simp
  have hne : ¬(keyLine key value = [] ∨ (keyLine key value).head? = some '#') := by
    rw [not_or, hhead]
    refine ⟨fun hnil => ?_, fun h => hcomment (Option.some.inj h)⟩
    rw [hnil] at hhead
    cases hhead
  have hbare : bareValue ('"' :: (escapeToml value ++ ['"'])) = some (escapeToml value) := by
    rw [bareValue, List.getLast?_concat, if_pos rfl, List.dropLast_concat]
  unfold parseLine
  simp only [hline, if_neg hne, hsplit, hvalue, hbare, htrim]

/-! ### The file -/

/-- The entries taken one after the other. -/
def setAll (lib : UriLib) : ℕ → List (ConfigKey × Text) → Config → Except ConfigError Config
  | _, [], config => .ok config
  | line, e :: rest, config =>
      (setKey lib line e.1.text (escapeToml e.2) config).bind (setAll lib (line + 1) rest)

/-- A file whose values have no line break is read entry by entry. -/
theorem parseLines_entries {lib : UriLib} {es : List (ConfigKey × Text)}
    (h : ∀ e ∈ es, '\n' ∉ e.2) (line : ℕ) (config : Config) :
    parseLines lib line (textLines (es.flatMap fun e => keyLine e.1 e.2 ++ ['\n'])) config =
      setAll lib line es config := by
  induction es generalizing line config with
  | nil => rfl
  | cons e es ih =>
      obtain ⟨he, hes⟩ := List.forall_mem_cons.mp h
      obtain ⟨-, -, -, -, -, -, hkey, -⟩ := e.1.text_cons
      have hbreak : '\n' ∉ keyLine e.1 e.2 := by
        intro hmem
        simp only [keyLine, List.mem_append, List.mem_cons, List.not_mem_nil, or_false] at hmem
        rcases hmem with hmem | hmem | hmem | hmem | hmem | hmem | hmem
        · exact hkey hmem
        · exact absurd hmem (by decide)
        · exact absurd hmem (by decide)
        · exact absurd hmem (by decide)
        · exact absurd hmem (by decide)
        · rcases mem_escapeToml hmem with hmem | hmem
          · exact he hmem
          · exact absurd hmem (by decide)
        · exact absurd hmem (by decide)
      have hreturn : stripReturn (keyLine e.1 e.2) = keyLine e.1 e.2 := by
        rw [stripReturn, if_neg]
        simp [keyLine, List.getLast?_append, List.getLast?_cons]
      rw [List.flatMap_cons, List.append_assoc, List.singleton_append, textLines,
        linesFrom_line hbreak, List.nil_append, hreturn, parseLines, parseLine_keyLine, setAll,
        ← textLines]
      exact congrArg _ (funext fun config => ih hes _ config)

/-- No text of the configuration but the origin has a line break. -/
structure Unbroken (c : Config) : Prop where
  serverUrl : '\n' ∉ c.serverUrl.toList
  token : ∀ v, c.token = some v → '\n' ∉ v.toList
  caFile : ∀ v, c.caFile = some v → '\n' ∉ v.toList

/-- The origin of a configuration is that of a parsed plain-http remote. -/
def OriginOf (lib : UriLib) (c : Config) : Prop :=
  ∀ v, c.insecureHttp = some v → ∃ text p, parseRemote lib text = .ok p ∧ p.scheme = http ∧
    v = String.ofList p.origin

theorem setKey_keeps {lib : UriLib} {line : ℕ} {key value : Text} {c c' : Config}
    (h : setKey lib line key value c = .ok c') (hvalue : '\n' ∉ value) :
    (Unbroken c → Unbroken c') ∧ (OriginOf lib c → OriginOf lib c') := by
  have hbare : '\n' ∉ (String.ofList (unescape value)).toList := by
    rw [String.toList_ofList]
    exact fun hmem => hvalue (mem_unescape hmem)
  unfold setKey at h
  split_ifs at h
  · obtain rfl := Except.ok.inj h
    exact ⟨fun hc => ⟨hbare, hc.token, hc.caFile⟩, fun hc => hc⟩
  · obtain rfl := Except.ok.inj h
    exact ⟨fun hc => ⟨hc.serverUrl, fun v hv => Option.some.inj hv ▸ hbare, hc.caFile⟩,
      fun hc => hc⟩
  · split at h
    next => cases h
    next p hp =>
      split_ifs at h with hscheme
      obtain rfl := Except.ok.inj h
      refine ⟨fun hc => ⟨hc.serverUrl, hc.token, hc.caFile⟩, fun _ v hv => ?_⟩
      exact ⟨value, p, hp, not_not.mp hscheme, (Option.some.inj hv).symm⟩
  · obtain rfl := Except.ok.inj h
    exact ⟨fun hc => ⟨hc.serverUrl, hc.token, fun v hv => Option.some.inj hv ▸ hbare⟩,
      fun hc => hc⟩

theorem mem_bareValue {value bare : Text} (h : bareValue value = some bare) {c : Char}
    (hc : c ∈ bare) : c ∈ value := by
  unfold bareValue at h
  split at h
  next rest =>
    split_ifs at h
    obtain rfl := Option.some.inj h
    exact List.mem_cons_of_mem _ ((List.dropLast_sublist _).subset hc)
  next => cases h

/-- What a line sets has no line break, and the origin it sets is one of a parse. -/
theorem parseLine_keeps {lib : UriLib} {line : ℕ} {text : Text} {c c' : Config}
    (h : parseLine lib line text c = .ok c') (htext : '\n' ∉ text) :
    (Unbroken c → Unbroken c') ∧ (OriginOf lib c → OriginOf lib c') := by
  unfold parseLine at h
  dsimp only at h
  split_ifs at h
  · obtain rfl := Except.ok.inj h
    exact ⟨fun hc => hc, fun hc => hc⟩
  · split at h
    next => cases h
    next key value hsplit =>
      split at h
      next => cases h
      next bare hbare =>
        refine setKey_keeps h fun hmem => htext (mem_dropWhile_trim ?_)
        rw [eq_of_splitOnce hsplit]
        exact List.mem_append_right _ (mem_dropWhile_trim (mem_bareValue hbare hmem))

theorem parseLines_keeps {lib : UriLib} {ls : List Text} {line : ℕ} {c c' : Config}
    (h : parseLines lib line ls c = .ok c') (hls : ∀ l ∈ ls, '\n' ∉ l) :
    (Unbroken c → Unbroken c') ∧ (OriginOf lib c → OriginOf lib c') := by
  induction ls generalizing line c with
  | nil => exact Except.ok.inj h ▸ ⟨fun hc => hc, fun hc => hc⟩
  | cons l ls ih =>
      obtain ⟨hl, hrest⟩ := List.forall_mem_cons.mp hls
      obtain ⟨mid, hline, hlater⟩ := Lib.bind_eq_ok.mp h
      obtain ⟨hunbroken, horigin⟩ := parseLine_keeps hline hl
      obtain ⟨hunbroken', horigin'⟩ := ih hlater hrest
      exact ⟨fun hc => hunbroken' (hunbroken hc), fun hc => horigin' (horigin hc)⟩

theorem parseConfig_keeps {lib : UriLib} {text : Text} {c : Config}
    (h : parseConfig lib text = .ok c) : Unbroken c ∧ OriginOf lib c := by
  obtain ⟨hunbroken, horigin⟩ := parseLines_keeps h fun l => mem_linesFrom List.not_mem_nil
  have hempty : Unbroken emptyConfig :=
    ⟨by decide, (fun _ hv => nomatch hv), (fun _ hv => nomatch hv)⟩
  exact ⟨hunbroken hempty, horigin fun _ hv => nomatch hv⟩

theorem Storable.originOf {lib : UriLib} {c : Config} (h : Storable lib c) : OriginOf lib c := by
  induction h with
  | missing =>
      intro v hv
      cases hv
  | load _ hload _ => exact (parseConfig_keeps hload).2
  | @clone text p hp optin token caFile =>
      intro v hv
      dsimp only at hv
      split_ifs at hv with hscheme
      exact ⟨text, p, hp, hscheme.1, (Option.some.inj hv).symm⟩
  | login _ _ _ ih => exact ih
  | @setOrigin c _ text p hp hscheme _ =>
      intro v hv
      exact ⟨text, p, hp, hscheme, (Option.some.inj hv).symm⟩
  | clearOrigin _ _ =>
      intro v hv
      cases hv
  | setCaFile _ _ ih => exact ih
  | clearCaFile _ ih => exact ih

/-! ### The origin -/

/-- An origin that reads back: its authority is no empty text, its brackets pair up,
and it has no quote. -/
structure PlainOrigin (origin : Text) : Prop where
  authority : origin ≠ http ++ schemeEnd
  brackets : origin.count '[' = origin.count ']'
  quote : '"' ∉ origin

theorem plainOrigin_iff {lib : UriLib} (hlib : lib.Documented) {text : Text} {p : ParsedRemote}
    (hp : parseRemote lib text = .ok p) (hscheme : p.scheme = http) :
    PlainOrigin p.origin ↔ p.Reparsed ∧ '"' ∉ p.origin := by
  obtain ⟨a, hfacts⟩ := parseRemote_hostFacts hlib hp
  have horigin : p.origin = http ++ schemeEnd ++ p.authority := by
    rw [origin_eq, ← ParsedRemote.authority, hscheme]
  have hcount : p.origin.count '[' = p.origin.count ']' ↔
      p.host.count '[' = p.host.count ']' := by
    have hopen : (http ++ schemeEnd).count '[' = 0 := by decide
    have hclose : (http ++ schemeEnd).count ']' = 0 := by decide
    have hbehind : ∀ d, (http ++ schemeEnd).count d = 0 →
        (http ++ schemeEnd ++ p.authority).count d = p.authority.count d := by
      intro d hd
      rw [List.count_append, hd, Nat.zero_add]
    rw [horigin, hbehind _ hopen, hbehind _ hclose, count_authority p (by decide) (by decide),
      count_authority p (by decide) (by decide), count_urlHost hfacts.bare]
  have hempty : p.origin ≠ http ++ schemeEnd ↔
      p.host ≠ [] ∨ defaultPort p.scheme ≠ some p.port := by
    rw [horigin, Ne, List.append_right_eq_self, authority_eq_nil, not_and_or]
  constructor
  · rintro ⟨hauthority, hbrackets, hquote⟩
    exact ⟨⟨hempty.mp hauthority, hcount.mp hbrackets⟩, hquote⟩
  · rintro ⟨⟨hauthority, hbrackets⟩, hquote⟩
    exact ⟨hempty.mpr hauthority, hcount.mpr hbrackets, hquote⟩

/-- The key of a remote is all its origin shows. -/
theorem origin_of_key {p q : ParsedRemote} (h : q.key = p.key) : q.origin = p.origin := by
  obtain ⟨hscheme, hhost, hport⟩ := OriginKey.mk.inj h
  rw [ParsedRemote.origin, ParsedRemote.origin, ParsedRemote.portText, ParsedRemote.portText,
    hscheme, hhost, hport]

theorem backslash_not_mem_origin {lib : UriLib} (hlib : lib.Documented) {text : Text}
    {p : ParsedRemote} (hp : parseRemote lib text = .ok p) (hscheme : p.scheme = http) :
    ∀ c ∈ p.origin, isWhitespace c = false ∧ c ≠ '\\' := by
  obtain ⟨a, hfacts⟩ := parseRemote_hostFacts hlib hp
  have hfront : ∀ c ∈ http ++ schemeEnd, isWhitespace c = false ∧ c ≠ '\\' := by decide
  intro c hc
  rw [origin_eq, hscheme] at hc
  rcases List.mem_append.mp hc with hc | hc
  · exact hfront c hc
  · rcases List.mem_append.mp hc with hc | hc
    · have hchars := urlHost_chars hfacts.chars c hc
      exact ⟨hchars.1, hchars.2.2.2.2.1⟩
    · have hchars := portSuffix_chars c hc
      exact ⟨hchars.1, hchars.2.2.2.2.1⟩

/-- A quote in the origin is read with the backslash that escapes it, which no URL
has. -/
theorem parseRemote_quoted {lib : UriLib} {rest : Text} (hback : '\\' ∈ rest)
    (hspace : ∀ c ∈ rest, isWhitespace c = false) :
    ∃ e, parseRemote lib (http ++ schemeEnd ++ rest) = .error e := by
  have htrim : trim (http ++ schemeEnd ++ rest) = http ++ schemeEnd ++ rest := by
    have hfront : ∀ c ∈ http ++ schemeEnd, isWhitespace c = false := by decide
    refine trim_of_all fun c hc => ?_
    rcases List.mem_append.mp hc with hc | hc
    · exact hfront c hc
    · exact hspace c hc
  have hsplit : splitOnce schemeEnd (http ++ schemeEnd ++ rest) = some (http, rest) :=
    splitOnce_of_not_mem (show schemeEnd = ':' :: ['/', '/'] from rfl) (by decide)
  have hlower : lower http = http := by decide
  refine ⟨.backslash (http ++ schemeEnd ++ rest), ?_⟩
  unfold parseRemote
  simp only [htrim, hsplit, hlower]
  rw [if_neg (by simp), if_pos (List.mem_append_right _ hback)]

/-- The origin's line sets the origin again exactly when it is a plain one. -/
theorem setKey_origin {lib : UriLib} (hlib : lib.Documented) {text : Text} {p : ParsedRemote}
    (hp : parseRemote lib text = .ok p) (hscheme : p.scheme = http) (line : ℕ) (c : Config) :
    (PlainOrigin p.origin → setKey lib line ConfigKey.insecureHttp.text (escapeToml p.origin) c =
      .ok { c with insecureHttp := some (String.ofList p.origin) }) ∧
    ∀ c', setKey lib line ConfigKey.insecureHttp.text (escapeToml p.origin) c = .ok c' →
      PlainOrigin p.origin := by
  have hserver : ConfigKey.insecureHttp.text ≠ ConfigKey.serverUrl.text := by decide
  have htoken : ConfigKey.insecureHttp.text ≠ ConfigKey.token.text := by decide
  have hchars := backslash_not_mem_origin hlib hp hscheme
  have hslash : '\\' ∉ p.origin := fun h => (hchars _ h).2 rfl
  rw [plainOrigin_iff hlib hp hscheme, setKey, if_neg hserver, if_neg htoken, if_pos rfl]
  constructor
  · rintro ⟨hreparsed, hquote⟩
    obtain ⟨q, hq, hkey⟩ := (origin_reparsed hlib hp).mpr hreparsed
    have hqscheme : q.scheme = http := (congrArg OriginKey.scheme hkey).trans hscheme
    rw [escapeToml_plain hslash hquote, hq]
    dsimp only
    rw [if_neg (not_not.mpr hqscheme), origin_of_key hkey]
  · intro c' h
    by_cases hquote : '"' ∈ p.origin
    · -- the escaped text is `http://` and a rest with a backslash
      obtain ⟨rest, hrest⟩ : ∃ rest, escapeToml p.origin = http ++ schemeEnd ++ rest := by
        rw [origin_eq, hscheme, escapeToml_eq, List.flatMap_append]
        exact ⟨_, rfl⟩
      have hback := backslash_mem_escapeToml hquote
      have hspace : ∀ c ∈ escapeToml p.origin, isWhitespace c = false := by
        intro c hc
        rcases mem_escapeToml hc with hc | rfl
        · exact (hchars c hc).1
        · decide
      rw [hrest] at hback hspace h
      have hbehind : '\\' ∈ rest :=
        (List.mem_append.mp hback).resolve_left (by decide)
      obtain ⟨e, he⟩ := @parseRemote_quoted lib rest hbehind
        fun c hc => hspace c (List.mem_append_right _ hc)
      rw [he] at h
      cases h
    · rw [escapeToml_plain hslash hquote] at h
      split at h
      next => cases h
      next q hq => exact ⟨reparsed_of_ok hlib hp hq, hquote⟩

/-! ### The round trip -/

theorem setKey_serverUrl (lib : UriLib) (line : ℕ) (value : Text) (c : Config) :
    setKey lib line ConfigKey.serverUrl.text (escapeToml value) c =
      .ok { c with serverUrl := String.ofList value } := by
  rw [setKey, if_pos rfl, unescape_escapeToml]

theorem setKey_token (lib : UriLib) (line : ℕ) (value : Text) (c : Config) :
    setKey lib line ConfigKey.token.text (escapeToml value) c =
      .ok { c with token := some (String.ofList value) } := by
  rw [setKey, if_neg (by decide), if_pos rfl, unescape_escapeToml]

theorem setKey_caFile (lib : UriLib) (line : ℕ) (value : Text) (c : Config) :
    setKey lib line ConfigKey.caFile.text (escapeToml value) c =
      .ok { c with caFile := some (String.ofList value) } := by
  rw [setKey, if_neg (by decide), if_neg (by decide), if_neg (by decide), if_pos rfl,
    unescape_escapeToml]

/-- The texts of one line each, and an origin that reads back. -/
structure OneLine (c : Config) : Prop extends Unbroken c where
  origin : ∀ v, c.insecureHttp = some v → PlainOrigin v.toList

theorem setAll_entries {lib : UriLib} (hlib : lib.Documented) {c : Config}
    (horigin : OriginOf lib c) :
    (∀ v, c.insecureHttp = some v → PlainOrigin v.toList) ↔
      setAll lib 1 (entries c) emptyConfig = .ok c := by
  obtain ⟨server, token, caFile, insecureHttp⟩ := c
  cases insecureHttp with
  | none =>
      refine iff_of_true (fun v hv => nomatch hv) ?_
      cases token <;> cases caFile <;>
        simp [entries, setAll, setKey_serverUrl, setKey_token, setKey_caFile, Except.bind,
          emptyConfig]
  | some origin =>
      obtain ⟨text, p, hp, hscheme, rfl⟩ := horigin _ rfl
      have hset := setKey_origin hlib hp hscheme
      constructor
      · intro hplain
        have hgood : PlainOrigin p.origin := by
          have hgood := hplain _ rfl
          rwa [String.toList_ofList] at hgood
        cases token <;> cases caFile <;>
          simp [entries, setAll, setKey_serverUrl, setKey_token, setKey_caFile, Except.bind,
            emptyConfig, (hset _ _).1 hgood]
      · rintro h v hv
        obtain rfl := Option.some.inj hv
        rw [String.toList_ofList]
        cases token with
        | none =>
            simp only [entries, setAll, setKey_serverUrl, Option.map_none, Option.map_some,
              Option.toList_none, Option.toList_some, List.nil_append, List.cons_append,
              String.toList_ofList] at h
            obtain ⟨_, -, h⟩ := Lib.bind_eq_ok.mp h
            obtain ⟨c', hline, -⟩ := Lib.bind_eq_ok.mp h
            exact (hset _ _).2 c' hline
        | some token =>
            simp only [entries, setAll, setKey_serverUrl, Option.map_some, Option.toList_some,
              List.nil_append, List.cons_append, String.toList_ofList] at h
            obtain ⟨_, -, h⟩ := Lib.bind_eq_ok.mp h
            obtain ⟨_, -, h⟩ := Lib.bind_eq_ok.mp h
            obtain ⟨c', hline, -⟩ := Lib.bind_eq_ok.mp h
            exact (hset _ _).2 c' hline

/-- No entry has a line break. -/
theorem Unbroken.entries {lib : UriLib} (hlib : lib.Documented) {c : Config} (h : Unbroken c)
    (horigin : OriginOf lib c) : ∀ e ∈ entries c, '\n' ∉ e.2 := by
  intro e he
  simp only [ConfigFile.entries, List.mem_cons, List.mem_append, Option.mem_toList,
    Option.map_eq_some_iff] at he
  rcases he with rfl | ⟨v, hv, rfl⟩ | ⟨v, hv, rfl⟩ | ⟨v, hv, rfl⟩
  · exact h.serverUrl
  · exact h.token v hv
  · obtain ⟨text, p, hp, hscheme, rfl⟩ := horigin v hv
    intro hmem
    dsimp only at hmem
    rw [String.toList_ofList] at hmem
    have hspace := (backslash_not_mem_origin hlib hp hscheme _ hmem).1
    exact absurd hspace (by decide)
  · exact h.caFile v hv

/-- What the verbs store comes back exactly when the server, the token and the CA file
have no line break and the opted-in origin is a plain one. -/
theorem config_roundTrip_iff {lib : UriLib} (hlib : lib.Documented) {c : Config}
    (hc : Storable lib c) : parseConfig lib (saveConfig c) = .ok c ↔ OneLine c := by
  have horigin := hc.originOf
  have hparse : ∀ hunbroken : Unbroken c,
      parseConfig lib (saveConfig c) = setAll lib 1 (entries c) emptyConfig :=
    fun hunbroken => parseLines_entries (hunbroken.entries hlib horigin) 1 emptyConfig
  constructor
  · intro h
    have hunbroken := (parseConfig_keeps h).1
    rw [hparse hunbroken] at h
    exact { hunbroken with origin := (setAll_entries hlib horigin).mpr h }
  · intro h
    rw [hparse h.toUnbroken]
    exact (setAll_entries hlib horigin).mp h.origin

deriving instance DecidableEq for McpClone.Config

/-- A token with a quote and a backslash in it. -/
def quotedConfig : Config :=
  { emptyConfig with
    serverUrl := String.ofList (trimSlashes "https://example.org/".toList)
    token := some "a\\\"=b" }

theorem config_roundTrip_iff_quoted :
    parseConfig plainUri (saveConfig quotedConfig) = .ok quotedConfig :=
  (config_roundTrip_iff plainUri_documented (.login .missing _ _)).mpr
    { serverUrl := by decide
      token := fun _ hv => Option.some.inj hv ▸ by decide
      caFile := fun _ hv => nomatch hv
      origin := fun _ hv => nomatch hv }

/-- A token with a line break behind a quote: the file reads as another token. -/
def brokenConfig : Config :=
  { emptyConfig with
    serverUrl := String.ofList (trimSlashes "https://example.org".toList)
    token := some "secret\"\n#" }

theorem line_break_lost :
    Storable plainUri brokenConfig ∧
      parseConfig plainUri (saveConfig brokenConfig) =
        .ok { brokenConfig with token := some "secret\\" } ∧
      parseConfig plainUri (saveConfig brokenConfig) ≠ .ok brokenConfig := by
  have hread : parseConfig plainUri (saveConfig brokenConfig) =
      .ok { brokenConfig with token := some "secret\\" } := by decide +kernel
  refine ⟨.login .missing _ _, hread, ?_⟩
  rw [hread]
  decide

end Naatre.Client.ConfigFile
