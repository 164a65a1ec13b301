import Naatre.Core.Marker
import Naatre.Core.Plain
import Naatre.Core.WireCodec
import Naatre.Server.Import

/-!
The text codec of the importer (`escape_text_lossless`,
`unescape_text_lossless` and `sanitize_pair` in `naatre-server/src/import.rs`):
the lossless escape reads back and passes the changeset's text check, and the
lossy one replaces exactly the characters the check refuses.
-/

namespace Naatre

/-! ### The escape -/

/-- What one character of a text with offenders becomes. -/
def escapeChar (c : Char) : List Char :=
  if c = '\\' then ['\\', '\\']
  else if offendsTextRule c then
    '\\' :: 'u' :: '\x7b' :: (Nat.toDigits 16 c.toNat ++ ['\x7d'])
  else [c]

/-- The loop of `escape_text_lossless`, with the text written and the characters
escaped so far. -/
def escapeLoop : List Char → List Char → List Char → List Char × List Char
  | out, escaped, [] => (out, escaped)
  | out, escaped, c :: rest =>
      escapeLoop (out ++ escapeChar c)
        (if c ≠ '\\' ∧ offendsTextRule c then escaped ++ [c] else escaped) rest

theorem not_offends_backslash : offendsTextRule '\\' = false := by decide

theorem escapeLoop_eq (out escaped cs : List Char) :
    escapeLoop out escaped cs =
      (out ++ cs.flatMap escapeChar, escaped ++ cs.filter offendsTextRule) := by
  induction cs generalizing out escaped with
  | nil => simp [escapeLoop]
  | cons c cs ih =>
      rw [escapeLoop, ih, List.flatMap_cons, List.append_assoc]
      congr 1
      by_cases hc : offendsTextRule c = true
      · have hne : c ≠ '\\' := by
          rintro rfl
          rw [not_offends_backslash] at hc
          cases hc
        rw [if_pos ⟨hne, hc⟩, List.filter_cons_of_pos hc, List.append_assoc, List.singleton_append]
      · rw [if_neg fun h => hc h.2, List.filter_cons_of_neg hc]

/-- The escape is its loop on a text that has an offender, and leaves the others as
they are. -/
theorem escapeTextLossless_loop (s : String) :
    escapeTextLossless s =
      if s.toList.any offendsTextRule then
        (String.ofList (escapeLoop [] [] s.toList).1, (escapeLoop [] [] s.toList).2)
      else (s, []) := by
  rw [escapeTextLossless, escapeLoop_eq, List.nil_append, List.nil_append]
  cases s.toList.any offendsTextRule with
  | false => rfl
  | true =>
      rw [Bool.not_true, if_neg Bool.false_ne_true, if_pos rfl]
      refine Prod.ext ?_ rfl
      refine String.toList_inj.mp ?_
      rw [String.toList_ofList, String.toList_join, List.flatMap_map]
      refine List.flatMap_congr fun c _ => ?_
      unfold escapeChar
      split_ifs
      · rfl
      · simp only [String.toList_append, String.toList_ofList]
        rfl
      · rw [Char.toString_eq_singleton, String.toList_singleton]

/-! ### The inverse -/

/-- The errors of `unescape_text_lossless`, with what their texts name. -/
inductive UnescapeError
  | malformed (near : Char)
  | unterminated
  | badHex
  | notScalar (hex : List Char)
  | loneBackslash (before : Option Char)
  deriving DecidableEq

/-- Where the scanner is: in plain text, behind a backslash, or in the digits of a
code point. -/
inductive UnescapeMode
  | plain
  | slash
  | hex (digits : List Char)

/-- `is_ascii_hexdigit`. -/
def isAsciiHexdigit (c : Char) : Bool :=
  c.isDigit || (decide ('a' ≤ c) && decide (c ≤ 'f')) || (decide ('A' ≤ c) && decide (c ≤ 'F'))

def hexValue (c : Char) : ℕ :=
  if c.isDigit then c.toNat - 48 else if 'a' ≤ c then c.toNat - 87 else c.toNat - 55

/-- `u32::from_str_radix` on hexadecimal digits. -/
def fromHex (digits : List Char) : Option ℕ :=
  if digits = [] then none
  else
    let n := digits.foldl (fun n c => 16 * n + hexValue c) 0
    if n < 2 ^ 32 then some n else none

/-- `char::from_u32`. -/
def charFromU32 (n : ℕ) : Option Char := if n.isValidChar then some (Char.ofNat n) else none

/-- The loops of `unescape_text_lossless`, the inner one being the mode of the
digits. -/
def unescapeLoop : List Char → UnescapeMode → List Char → Except UnescapeError (List Char)
  | out, .plain, [] => .ok out
  | _, .slash, [] => .error (.loneBackslash none)
  | _, .hex _, [] => .error .unterminated
  | out, .plain, c :: rest =>
      if c = '\\' then unescapeLoop out .slash rest else unescapeLoop (out ++ [c]) .plain rest
  | out, .slash, c :: rest =>
      if c = '\\' then unescapeLoop (out ++ ['\\']) .plain rest
      else if c = 'u' then unescapeLoop out (.hex []) rest
      else .error (.loneBackslash (some c))
  | out, .hex digits, h :: rest =>
      if h = '\x7b' ∧ digits = [] then unescapeLoop out (.hex digits) rest
      else if h = '\x7d' then
        match fromHex digits with
        | none => .error .badHex
        | some n =>
            match charFromU32 n with
            | none => .error (.notScalar digits)
            | some c => unescapeLoop (out ++ [c]) .plain rest
      else if isAsciiHexdigit h then unescapeLoop out (.hex (digits ++ [h])) rest
      else .error (.malformed h)

/-- `unescape_text_lossless`. -/
def unescapeTextLossless (s : String) : Except UnescapeError String :=
  (unescapeLoop [] .plain s.toList).map String.ofList

/-! ### The round trip -/

theorem digitChar_hex : ∀ d < 16, isAsciiHexdigit (Nat.digitChar d) = true ∧
    hexValue (Nat.digitChar d) = d ∧ offendsTextRule (Nat.digitChar d) = false := by decide

theorem not_brace_of_hex {c : Char} (h : isAsciiHexdigit c = true) : c ≠ '\x7b' ∧ c ≠ '\x7d' := by
  constructor
  · rintro rfl
    exact absurd h (by decide)
  · rintro rfl
    exact absurd h (by decide)

/-- The hexadecimal digits of a number read back. -/
theorem toDigits_hex (n : ℕ) :
    (∀ c ∈ Nat.toDigits 16 n, isAsciiHexdigit c = true ∧ offendsTextRule c = false) ∧
      (Nat.toDigits 16 n).foldl (fun n c => 16 * n + hexValue c) 0 = n := by
  induction n using Nat.strongRecOn with
  | ind n ih =>
      rcases Nat.lt_or_ge n 16 with hlt | hge
      · obtain ⟨hhex, hvalue, hclean⟩ := digitChar_hex n hlt
        rw [Nat.toDigits_of_lt_base hlt]
        refine ⟨fun c hc => ?_, ?_⟩
        · rw [List.mem_singleton] at hc
          exact hc ▸ ⟨hhex, hclean⟩
        · rw [List.foldl_cons, List.foldl_nil, hvalue, Nat.mul_zero, Nat.zero_add]
      · obtain ⟨hmem, hfold⟩ := ih (n / 16) (Nat.div_lt_self (by omega) (by decide))
        obtain ⟨hhex, hvalue, hclean⟩ := digitChar_hex (n % 16) (Nat.mod_lt n (by decide))
        rw [Nat.toDigits_of_base_le (by decide) hge]
        refine ⟨fun c hc => ?_, ?_⟩
        · rcases List.mem_append.mp hc with hfront | hlast
          · exact hmem c hfront
          · rw [List.mem_singleton] at hlast
            exact hlast ▸ ⟨hhex, hclean⟩
        · rw [List.foldl_append, hfold, List.foldl_cons, List.foldl_nil, hvalue]
          exact Nat.div_add_mod n 16

theorem fromHex_toDigits (c : Char) : fromHex (Nat.toDigits 16 c.toNat) = some c.toNat := by
  have hne : Nat.toDigits 16 c.toNat ≠ [] :=
    List.ne_nil_of_length_pos Nat.length_toDigits_pos
  have hsmall : c.toNat < 2 ^ 32 := c.val.toNat_lt
  rw [fromHex, if_neg hne, (toDigits_hex c.toNat).2]
  exact if_pos hsmall

theorem charFromU32_toNat (c : Char) : charFromU32 c.toNat = some c := by
  have hvalid : c.toNat.isValidChar := c.valid
  rw [charFromU32, if_pos hvalid, Char.ofNat_toNat]

/-- The scanner takes the digits in. -/
theorem unescapeLoop_digits {ds : List Char} (h : ∀ c ∈ ds, isAsciiHexdigit c = true)
    (out digits rest : List Char) :
    unescapeLoop out (.hex digits) (ds ++ rest) = unescapeLoop out (.hex (digits ++ ds)) rest := by
  induction ds generalizing digits with
  | nil => rw [List.nil_append, List.append_nil]
  | cons d ds ih =>
      obtain ⟨hd, hds⟩ := List.forall_mem_cons.mp h
      obtain ⟨hopen, hclose⟩ := not_brace_of_hex hd
      rw [List.cons_append, unescapeLoop, if_neg fun h => hopen h.1, if_neg hclose, if_pos hd,
        ih hds, List.append_assoc, List.singleton_append]

/-- One escaped character reads back. -/
theorem unescapeLoop_escapeChar (out : List Char) (c : Char) (rest : List Char) :
    unescapeLoop out .plain (escapeChar c ++ rest) = unescapeLoop (out ++ [c]) .plain rest := by
  unfold escapeChar
  split_ifs with hslash hoffends
  · subst hslash
    rfl
  · have hhex : ∀ d ∈ Nat.toDigits 16 c.toNat, isAsciiHexdigit d = true :=
      fun d hd => ((toDigits_hex c.toNat).1 d hd).1
    have hopen : ∀ tail, unescapeLoop out .plain ('\\' :: 'u' :: '\x7b' :: tail) =
        unescapeLoop out (.hex []) tail := fun _ => rfl
    simp only [List.cons_append, List.append_assoc]
    rw [hopen, unescapeLoop_digits hhex, List.nil_append, List.nil_append, unescapeLoop,
      if_neg (by simp), if_pos rfl]
    simp only [fromHex_toDigits, charFromU32_toNat]
  · rw [List.singleton_append, unescapeLoop, if_neg hslash]

theorem unescapeLoop_escape (out cs : List Char) :
    unescapeLoop out .plain (cs.flatMap escapeChar) = .ok (out ++ cs) := by
  induction cs generalizing out with
  | nil => rw [List.flatMap_nil, unescapeLoop, List.append_nil]
  | cons c cs ih =>
      rw [List.flatMap_cons, unescapeLoop_escapeChar, ih, List.append_assoc, List.singleton_append]

theorem escapeChar_clean (c : Char) : ∀ d ∈ escapeChar c, offendsTextRule d = false := by
  unfold escapeChar
  split_ifs with hslash hoffends
  · intro d hd
    simp only [List.mem_cons, List.not_mem_nil, or_false, or_self] at hd
    rw [hd]
    exact not_offends_backslash
  · intro d hd
    simp only [List.mem_cons, List.mem_append, List.not_mem_nil, or_false] at hd
    rcases hd with rfl | rfl | rfl | hd | rfl
    · decide
    · decide
    · decide
    · exact ((toDigits_hex c.toNat).1 d hd).2
    · decide
  · intro d hd
    rw [List.mem_singleton] at hd
    rw [hd]
    exact Bool.eq_false_of_not_eq_true hoffends

theorem findCharIndex_eq_none {bad : Char → Bool} {cs : List Char} (index : ℕ)
    (h : ∀ c ∈ cs, bad c = false) : findCharIndex bad cs index = none := by
  induction cs generalizing index with
  | nil => rfl
  | cons c cs ih =>
      obtain ⟨hc, hcs⟩ := List.forall_mem_cons.mp h
      rw [findCharIndex, hc, if_neg Bool.false_ne_true, ih _ hcs]

/-- The text check is that nothing offends. -/
theorem checkText_iff {s : String} :
    checkText s = .ok () ↔ ∀ c ∈ s.toList, offendsTextRule c = false := by
  rw [checkText]
  constructor
  · intro h
    split at h
    next => cases h
    next hnone => exact findCharIndex_none hnone
  · intro h
    have hnone : findCharIndex offendsTextRule s.toList 0 = none := findCharIndex_eq_none 0 h
    unfold offendsTextRule at hnone
    rw [hnone]

theorem escape_roundTrip {s : String} (h : s.toList.any offendsTextRule = true) :
    unescapeTextLossless (escapeTextLossless s).1 = .ok s ∧
      checkText (escapeTextLossless s).1 = .ok () := by
  rw [escapeTextLossless_loop, if_pos h, escapeLoop_eq, List.nil_append]
  constructor
  · rw [unescapeTextLossless, String.toList_ofList, unescapeLoop_escape, List.nil_append]
    exact congrArg Except.ok String.ofList_toList
  · rw [checkText_iff, String.toList_ofList]
    intro d hd
    obtain ⟨c, -, hc⟩ := List.mem_flatMap.mp hd
    exact escapeChar_clean c d hc

theorem escape_offenders (s : String) :
    (escapeTextLossless s).2 = s.toList.filter offendsTextRule := by
  rw [escapeTextLossless_loop]
  split_ifs with h
  · rw [escapeLoop_eq]
    rfl
  · rw [Bool.not_eq_true, List.any_eq_false] at h
    exact (List.filter_eq_nil_iff.mpr h).symm

/-! ### The replacement -/

/-- `replace_with_replacement_char` at a byte index; `none` is the panic at an index
that is none of a character's. -/
def replaceAt : List Char → ℕ → Option (List Char)
  | [], _ => none
  | c :: rest, index =>
      if index = 0 then some ('\ufffd' :: rest)
      else if index < c.utf8Size then none
      else (replaceAt rest (index - c.utf8Size)).map (c :: ·)

def replaceWithReplacementChar (s : String) (index : ℕ) : Option String :=
  (replaceAt s.toList index).map String.ofList

section

variable {Id : Type} [Platform Id]

/-- `carrier_changeset`; `zero` is the id of 32 zero bytes. -/
def carrierChangeset (zero : Id) (author message : String) : Changeset Id where
  repoId := 0
  parents := []
  author := author
  message := message
  timestampNs := 0
  changes := [⟨⟨[], "x"⟩, .add, some zero, some 0, some false⟩]
  conflicts := []

/-- The loop of `sanitize_pair`; `none` is one of its unreachable arms. -/
def sanitizeLoop (zero : Id) : ℕ → String → String → Bool → Option (String × String × Bool)
  | 0, _, _, _ => none
  | rounds + 1, author, message, changed =>
      match (carrierChangeset zero author message).validate with
      | .ok () => some (author, message, changed)
      | .error (.authorChar index) =>
          (replaceWithReplacementChar author index).bind fun author =>
            sanitizeLoop zero rounds author message true
      | .error (.messageChar index) =>
          (replaceWithReplacementChar message index).bind fun message =>
            sanitizeLoop zero rounds author message true
      | .error _ => none

/-- `sanitize_pair`. -/
def sanitizePair (zero : Id) (author message : String) : Option (String × String × Bool) :=
  sanitizeLoop zero (author.utf8ByteSize + message.utf8ByteSize + 2) author message false

/-- The carrier isolates the character rule. -/
theorem validate_carrier (hnfc : Platform.nfc Id "x" = "x") (zero : Id)
    (author message : String) :
    (carrierChangeset zero author message).validate =
      match checkText author with
      | .error index => .error (.authorChar index)
      | .ok () =>
          match checkText message with
          | .error index => .error (.messageChar index)
          | .ok () => .ok () := by
  have hpath : (⟨[], "x"⟩ : Path).validate (Platform.nfc Id) = .ok () := by
    have htext : (⟨[], "x"⟩ : Path).text = "x" := by decide
    rw [Path.validate, htext, hnfc]
    decide
  have hpaths : validatePaths (Platform.nfc Id) [⟨[], "x"⟩] = .ok () := by
    rw [validatePaths, hpath]
    rfl
  have hfold : checkCaseFoldDuplicates (Platform.lower Id) [⟨[], "x"⟩] = .ok () := rfl
  simp only [Changeset.validate, carrierChangeset, List.map_cons, List.map_nil, hpaths, hfold]
  cases checkText author with
  | error index => rfl
  | ok _ =>
      cases checkText message with
      | error index => rfl
      | ok _ => rfl

def sanitizeChar (c : Char) : Char := if offendsTextRule c then '\ufffd' else c

theorem sanitizeText_eq (s : String) :
    sanitizeText s = String.ofList (s.toList.map sanitizeChar) := rfl

/-- The first offender is replaced, and one offender less is left. -/
theorem replaceAt_first {cs : List Char} {start index : ℕ}
    (h : findCharIndex offendsTextRule cs start = some index) :
    start ≤ index ∧ ∃ cs', replaceAt cs (index - start) = some cs' ∧
      cs'.map sanitizeChar = cs.map sanitizeChar ∧
      cs'.countP offendsTextRule + 1 = cs.countP offendsTextRule := by
  induction cs generalizing start with
  | nil => cases h
  | cons c cs ih =>
      rw [findCharIndex] at h
      split_ifs at h with hc
      · obtain rfl := Option.some.inj h
        refine ⟨le_rfl, '\ufffd' :: cs, ?_, ?_, ?_⟩
        · rw [Nat.sub_self, replaceAt, if_pos rfl]
        · rw [List.map_cons, List.map_cons, sanitizeChar, sanitizeChar, if_pos hc,
            if_neg (by decide)]
        · rw [List.countP_cons_of_pos hc, List.countP_cons_of_neg (by decide)]
      · obtain ⟨hle, cs', hreplaced, hsame, hcount⟩ := ih h
        have hsize := c.utf8Size_pos
        refine ⟨by omega, c :: cs', ?_, ?_, ?_⟩
        · rw [replaceAt, if_neg (by omega), if_neg (by omega), Nat.sub_sub, hreplaced]
          rfl
        · rw [List.map_cons, List.map_cons, hsame]
        · rw [List.countP_cons_of_neg hc, List.countP_cons_of_neg hc, hcount]

/-- One round at an offender of a text. -/
theorem replace_offender {s : String} {index : ℕ} (h : checkText s = .error index) :
    ∃ s', replaceWithReplacementChar s index = some s' ∧ sanitizeText s' = sanitizeText s ∧
      s'.toList.countP offendsTextRule + 1 = s.toList.countP offendsTextRule := by
  have hfound : findCharIndex offendsTextRule s.toList 0 = some index := by
    rw [checkText] at h
    split at h
    next found hfound => exact Except.error.inj h ▸ hfound
    next => cases h
  obtain ⟨-, cs', hreplaced, hsame, hcount⟩ := replaceAt_first hfound
  rw [Nat.sub_zero] at hreplaced
  refine ⟨String.ofList cs', ?_, ?_, ?_⟩
  · rw [replaceWithReplacementChar, hreplaced]
    rfl
  · rw [sanitizeText_eq, sanitizeText_eq, String.toList_ofList, hsame]
  · rw [String.toList_ofList, hcount]

theorem sanitizeText_clean {s : String} (h : checkText s = .ok ()) :
    sanitizeText s = s ∧ s.toList.countP offendsTextRule = 0 := by
  rw [checkText_iff] at h
  constructor
  · have hsame : s.toList.map sanitizeChar = s.toList := by
      refine (List.map_congr_left fun c hc => ?_).trans (List.map_id _)
      rw [sanitizeChar, h c hc]
      rfl
    rw [sanitizeText_eq, hsame, String.ofList_toList]
  · rw [List.countP_eq_zero]
    intro c hc
    rw [h c hc]
    exact Bool.false_ne_true

/-- With more rounds than offenders the loop ends, and has replaced them all. -/
theorem sanitizeLoop_settles (hnfc : Platform.nfc Id "x" = "x") (zero : Id) (rounds : ℕ)
    (author message : String) (changed : Bool)
    (h : author.toList.countP offendsTextRule + message.toList.countP offendsTextRule < rounds) :
    sanitizeLoop zero rounds author message changed =
      some (sanitizeText author, sanitizeText message,
        changed || decide (0 < author.toList.countP offendsTextRule +
          message.toList.countP offendsTextRule)) := by
  induction rounds generalizing author message changed with
  | zero => cases h
  | succ rounds ih =>
      rw [sanitizeLoop, validate_carrier hnfc]
      cases hauthor : checkText author with
      | error index =>
          obtain ⟨author', hreplaced, hsame, hcount⟩ := replace_offender hauthor
          dsimp only
          rw [hreplaced, Option.bind_some, ih _ _ _ (by omega), hsame]
          simp only [Bool.true_or, ← hcount]
          rw [decide_eq_true (by omega), Bool.or_true]
      | ok _ =>
          obtain ⟨hcleanA, hnoneA⟩ := sanitizeText_clean hauthor
          cases hmessage : checkText message with
          | error index =>
              obtain ⟨message', hreplaced, hsame, hcount⟩ := replace_offender hmessage
              dsimp only
              rw [hreplaced, Option.bind_some, ih _ _ _ (by omega), hsame]
              simp only [Bool.true_or, ← hcount]
              rw [decide_eq_true (by omega), Bool.or_true]
          | ok _ =>
              obtain ⟨hcleanM, hnoneM⟩ := sanitizeText_clean hmessage
              dsimp only
              rw [hcleanA, hcleanM, hnoneA, hnoneM]
              simp

theorem countP_le_byteSize (s : String) (p : Char → Bool) :
    s.toList.countP p ≤ s.utf8ByteSize := by
  rw [← Wire.length_utf8, utf8, List.length_flatMap]
  refine List.countP_le_length.trans ?_
  have hlen : s.toList.length = (s.toList.map fun c => (String.utf8EncodeChar c).length).length :=
    (List.length_map _).symm
  rw [hlen]
  refine List.length_le_sum_of_one_le _ fun n hn => ?_
  obtain ⟨c, -, rfl⟩ := List.mem_map.mp hn
  rw [String.length_utf8EncodeChar]
  exact c.utf8Size_pos

/-- The lossless escape of a text with an offender reads back and passes the text
check, a clean text is left alone, the characters reported are the offenders in
their order; and `sanitize_pair` ends outside its unreachable arms with the
offenders of both texts replaced. -/
theorem sanitize_codec (hnfc : Platform.nfc Id "x" = "x") (zero : Id) :
    (∀ s : String, s.toList.any offendsTextRule = true →
      unescapeTextLossless (escapeTextLossless s).1 = .ok s ∧
        checkText (escapeTextLossless s).1 = .ok ()) ∧
    (∀ s : String, s.toList.any offendsTextRule = false → (escapeTextLossless s).1 = s) ∧
    (∀ s : String, (escapeTextLossless s).2 = s.toList.filter offendsTextRule) ∧
    ∀ author message : String, sanitizePair zero author message =
      some (sanitizeText author, sanitizeText message,
        (author.toList ++ message.toList).any offendsTextRule) := by
  refine ⟨fun s => escape_roundTrip, fun s h => ?_, escape_offenders, fun author message => ?_⟩
  · rw [escapeTextLossless_loop, h, if_neg Bool.false_ne_true]
  · have hauthor := countP_le_byteSize author offendsTextRule
    have hmessage := countP_le_byteSize message offendsTextRule
    rw [sanitizePair, sanitizeLoop_settles hnfc zero _ _ _ _ (by omega), Bool.false_or,
      ← List.countP_append]
    congr 3
    rw [Bool.eq_iff_iff, decide_eq_true_eq, List.countP_pos_iff, List.any_eq_true]

end

/-- A bell in the author, and a backslash beside an escape character in the message. -/
theorem sanitize_codec_plain :
    sanitizePair ([] : PlainId) "a\u0007" "\\\u001b" = some ("a\ufffd", "\\\ufffd", true) ∧
      unescapeTextLossless (escapeTextLossless "\\\u001b").1 = .ok "\\\u001b" := by
  obtain ⟨hcodec, -, -, hpair⟩ := @sanitize_codec PlainId _ rfl []
  exact ⟨(hpair _ _).trans (by decide), (hcodec _ (by decide)).1⟩

end Naatre
