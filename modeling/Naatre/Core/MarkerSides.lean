import Naatre.Core.Marker
import Naatre.Core.Plain

/-!
Renderings of any number of sides (`marker_bytes` and `marker_shaped` in
`naatre-core/src/conflict.rs`): which of them the detector accepts when no line
of a version reads as a delimiter line.
-/

namespace Naatre

/-! ### Side numbers -/

/-- A number as `format!` writes it. -/
def decText (n : ℕ) : Bytes := utf8 (toString n)

theorem encodeChar_digit {c : Char} (h : c.isDigit = true) :
    ∃ b : UInt8, String.utf8EncodeChar c = [b] ∧ isDigit b = true ∧ b.toNat = c.toNat := by
  have hrange : 48 ≤ c.toNat ∧ c.toNat ≤ 57 := by
    simpa [Char.isDigit, UInt32.le_iff_toNat_le] using h
  have hbyte : (UInt8.ofNat c.toNat).toNat = c.toNat := by
    rw [UInt8.toNat_ofNat']
    omega
  refine ⟨UInt8.ofNat c.toNat, ?_, ?_, hbyte⟩
  · have hv : c.val.toNat = c.toNat := rfl
    unfold String.utf8EncodeChar
    simp only [hv]
    rw [if_pos (by omega)]
  · simp only [isDigit, UInt8.le_iff_toNat_le, hbyte, Bool.and_eq_true, decide_eq_true_eq]
    exact hrange

/-- The bytes of some digits. -/
theorem digits_bytes {cs : List Char} (h : ∀ c ∈ cs, c.isDigit = true) :
    (cs.flatMap String.utf8EncodeChar).length = cs.length ∧
      (∀ b ∈ cs.flatMap String.utf8EncodeChar, isDigit b = true) ∧
      ∀ start, (cs.flatMap String.utf8EncodeChar).foldl (fun n b => 10 * n + (b.toNat - 48)) start =
        Nat.ofDigitChars 10 cs start := by
  induction cs with
  | nil => simp
  | cons c cs ih =>
      obtain ⟨hc, hcs⟩ := List.forall_mem_cons.mp h
      obtain ⟨b, hb, hdigit, hval⟩ := encodeChar_digit hc
      obtain ⟨hlen, hall, hfold⟩ := ih hcs
      rw [List.flatMap_cons, hb, List.singleton_append]
      refine ⟨by rw [List.length_cons, hlen, List.length_cons], ?_, fun start => ?_⟩
      · exact List.forall_mem_cons.mpr ⟨hdigit, hall⟩
      · rw [List.foldl_cons, hfold, Nat.ofDigitChars_cons, hval]
        rfl

theorem decText_eq (n : ℕ) : decText n = (Nat.toDigits 10 n).flatMap String.utf8EncodeChar := by
  rw [decText, utf8, Nat.toString_eq_repr, Nat.toList_repr]

theorem toDigits_digit (n : ℕ) : ∀ c ∈ Nat.toDigits 10 n, c.isDigit = true :=
  fun _ hc => Nat.isDigit_of_mem_toDigits (by decide) (by decide) hc

theorem decText_digits (n : ℕ) : ∀ b ∈ decText n, isDigit b = true := by
  rw [decText_eq]
  exact (digits_bytes (toDigits_digit n)).2.1

/-- Digits are below the power of their number. -/
theorem ofDigitChars_lt {cs : List Char} (h : ∀ c ∈ cs, c.isDigit = true) :
    Nat.ofDigitChars 10 cs 0 < 10 ^ cs.length := by
  induction cs with
  | nil => decide
  | cons c cs ih =>
      obtain ⟨hc, hcs⟩ := List.forall_mem_cons.mp h
      have hrange : 48 ≤ c.toNat ∧ c.toNat ≤ 57 := by
        simpa [Char.isDigit, UInt32.le_iff_toNat_le] using hc
      have hzero : '0'.toNat = 48 := rfl
      have hlt := ih hcs
      have hdigit : 10 * 0 + (c.toNat - 48) ≤ 9 := by omega
      have hlead := Nat.mul_le_mul_left (10 ^ cs.length) hdigit
      rw [Nat.ofDigitChars_cons, Nat.ofDigitChars_eq_ofDigitChars_zero, List.length_cons, pow_succ,
        hzero]
      omega

/-- A number of more than one digit does not begin with a zero. -/
theorem head_toDigits {n : ℕ} (h : 1 < (Nat.toDigits 10 n).length) :
    (Nat.toDigits 10 n).head? ≠ some '0' := by
  intro hhead
  cases hdigits : Nat.toDigits 10 n with
  | nil => simp [hdigits] at h
  | cons c cs =>
      rw [hdigits] at hhead h
      obtain rfl := Option.some.inj hhead
      have hcs : ∀ d ∈ cs, d.isDigit = true := fun d hd =>
        toDigits_digit n d (hdigits ▸ List.mem_cons_of_mem _ hd)
      have hvalue := Nat.ofDigitChars_ten_toDigits (n := n)
      rw [hdigits, Nat.ofDigitChars_cons] at hvalue
      have hlt : n < 10 ^ cs.length := by
        rw [← hvalue]
        exact ofDigitChars_lt hcs
      have hpos : 0 < cs.length := by simpa using h
      have hle := (Nat.length_toDigits_le_iff (b := 10) (by decide) hpos).mpr hlt
      rw [hdigits, List.length_cons] at hle
      omega

/-- A count of at most six digits reads back. -/
theorem parseCanonicalDecimal_decText {n : ℕ} (h : n < 1000000) :
    parseCanonicalDecimal (decText n) = some n := by
  obtain ⟨hlen, hall, hfold⟩ := digits_bytes (toDigits_digit n)
  rw [← decText_eq] at hlen hall hfold
  have hpos : 0 < (Nat.toDigits 10 n).length := Nat.length_toDigits_pos
  have hle : (Nat.toDigits 10 n).length ≤ 6 :=
    (Nat.length_toDigits_le_iff (by decide) (by decide)).mpr h
  have hne : decText n ≠ [] := List.ne_nil_of_length_pos (hlen ▸ hpos)
  have hzero : ¬ (1 < (decText n).length ∧ (decText n).head? = some 48) := by
    rintro ⟨hlong, hhead⟩
    rw [hlen] at hlong
    refine head_toDigits hlong ?_
    cases hdigits : Nat.toDigits 10 n with
    | nil => simp [hdigits] at hpos
    | cons c cs =>
        obtain ⟨b, hb, -, hval⟩ := encodeChar_digit (toDigits_digit n c (hdigits ▸ List.mem_cons_self))
        rw [decText_eq, hdigits, List.flatMap_cons, hb] at hhead
        obtain rfl := Option.some.inj hhead
        rw [List.head?_cons, Option.some.injEq, ← Char.toNat_inj]
        exact hval.symm
  rw [parseCanonicalDecimal, if_neg, if_neg hzero, hfold, Nat.ofDigitChars_ten_toDigits]
  rw [not_or, not_or, not_not, List.all_eq_true]
  exact ⟨hne, by omega, hall⟩

/-! ### Cutting a line -/

theorem splitOnce_of_not_mem {c : UInt8} {cs s rest : Bytes} (h : c ∉ s) :
    splitOnce (c :: cs) (s ++ (c :: cs) ++ rest) = some (s, rest) := by
  induction s with
  | nil =>
      have hpre : (c :: cs).isPrefixOf? (c :: (cs ++ rest)) = some rest := by
        rw [← List.cons_append]
        exact isPrefixOf?_append _ _
      rw [List.nil_append, List.cons_append, splitOnce, hpre]
  | cons d s ih =>
      obtain ⟨hne, hs⟩ := not_or.mp (List.mem_cons.not.mp h)
      have hpre : (c :: cs).isPrefixOf? (d :: (s ++ (c :: cs) ++ rest)) = none := by
        simp [List.isPrefixOf?, hne]
      rw [List.cons_append, List.cons_append, splitOnce, hpre, ih hs]
      rfl

/-- A carriage return behind a line changes no cut at a text without one. -/
theorem isPrefixOf?_cr {p : Bytes} (hp : 13 ∉ p) (l : Bytes) :
    p.isPrefixOf? (l ++ [13]) = (p.isPrefixOf? l).map (· ++ [13]) := by
  cases hfound : p.isPrefixOf? l with
  | some after =>
      rw [List.isPrefixOf?_eq_some_iff_append_eq] at hfound
      rw [← hfound, List.append_assoc]
      exact isPrefixOf?_append _ _
  | none =>
      rw [Option.map_none, ← Option.not_isSome_iff_eq_none, Option.isSome_iff_exists]
      rintro ⟨after, hafter⟩
      rw [List.isPrefixOf?_eq_some_iff_append_eq] at hafter
      rcases List.eq_nil_or_concat after with rfl | ⟨front, x, rfl⟩
      · rw [List.append_nil] at hafter
        exact hp (hafter ▸ List.mem_append_right _ List.mem_cons_self)
      · rw [List.concat_eq_append, ← List.append_assoc] at hafter
        have hfront : p ++ front = l := (List.append_inj' hafter rfl).1
        rw [List.isPrefixOf?_eq_some_iff_append_eq.mpr hfront] at hfound
        cases hfound

theorem splitOnce_cr {sep : Bytes} (hne : sep ≠ []) (hsep : 13 ∉ sep) (l : Bytes) :
    splitOnce sep (l ++ [13]) = (splitOnce sep l).map fun (a, b) => (a, b ++ [13]) := by
  induction l with
  | nil =>
      have hnone : sep.isPrefixOf? ([] ++ [13]) = none := by
        rw [isPrefixOf?_cr hsep]
        cases sep with
        | nil => exact absurd rfl hne
        | cons x sep => rfl
      rw [List.nil_append] at hnone
      have hend : splitOnce sep [] = none := by rw [splitOnce, if_neg hne]
      have hcr : splitOnce sep [13] = none := by
        rw [splitOnce, hnone, hend]
        rfl
      rw [List.nil_append, hcr, hend]
      rfl
  | cons x l ih =>
      have hpre := isPrefixOf?_cr hsep (x :: l)
      rw [List.cons_append] at hpre
      rw [List.cons_append, splitOnce, splitOnce, hpre]
      cases sep.isPrefixOf? (x :: l) with
      | some after => rfl
      | none =>
          simp only [Option.map_none, ih, Option.map_map]
          rfl

theorem parseSideDivider_cr (l : Bytes) :
    parseSideDivider (l ++ [13]) =
      (parseSideDivider l).map fun (k, n, ref) => (k, n, ref ++ [13]) := by
  unfold parseSideDivider
  rw [isPrefixOf?_cr (by decide)]
  cases dividerPrefix.isPrefixOf? l with
  | none => rfl
  | some rest =>
      simp only [Option.map_some, Option.bind_eq_bind, Option.bind_some]
      rw [splitOnce_cr (by decide) (by decide)]
      cases splitOnce (utf8 ": ") rest with
      | none => rfl
      | some cut =>
          simp only [Option.map_some, Option.bind_some]
          cases splitOnce (utf8 "/") cut.1 with
          | none => rfl
          | some nums =>
              simp only [Option.bind_some]
              cases parseCanonicalDecimal nums.1 with
              | none => rfl
              | some k =>
                  cases parseCanonicalDecimal nums.2 with
                  | none => rfl
                  | some n => rfl

/-- The lines of a block are those of its content, but for the return at the end of
one that is not ended. -/
theorem mem_blockLines {content l : Bytes} (h : l ∈ blockLines content) :
    l ∈ lines content ∨ l ++ [13] ∈ lines content := by
  have hended : ∀ (content line : Bytes), line ++ content ≠ [] → content.getLast? ≠ some 10 →
      ∃ front last, linesFrom line content = front ++ [last] ∧
        linesFrom line (content ++ [10]) = front ++ [stripCr last] := by
    intro content
    induction content with
    | nil =>
        intro line hne _
        rw [List.append_nil] at hne
        exact ⟨[], line, by rw [linesFrom, if_neg hne]; rfl, by simp [linesFrom]⟩
    | cons x content ih =>
        intro line _ hlast
        by_cases hnil : content = []
        · subst hnil
          have hx : x ≠ 10 := fun hx => hlast (by rw [hx]; rfl)
          exact ⟨[], line ++ [x], by simp [linesFrom, hx], by simp [linesFrom, hx]⟩
        · have hlast' : content.getLast? ≠ some 10 := by
            rw [List.getLast?_cons_of_ne_nil hnil] at hlast
            exact hlast
          rw [List.cons_append, linesFrom, linesFrom]
          split_ifs with hx
          · obtain ⟨front, last, hplain, hclosed⟩ := ih [] (by simpa using hnil) hlast'
            exact ⟨stripCr line :: front, last, by rw [hplain]; rfl, by rw [hclosed]; rfl⟩
          · exact ih _ (by simp) hlast'
  rw [blockLines, pushBlock] at h
  split_ifs at h with hopen
  · obtain ⟨front, last, hplain, hclosed⟩ := hended content [] hopen.1 hopen.2
    rw [lines, hclosed, List.mem_append, List.mem_singleton] at h
    rw [lines, hplain, List.mem_append, List.mem_append, List.mem_singleton, List.mem_singleton]
    rcases h with h | rfl
    · exact .inl (.inl h)
    · rw [stripCr]
      split_ifs with hcr
      · exact .inr (.inr (List.dropLast_append_getLast? _ hcr))
      · exact .inl (.inr rfl)
  · exact .inl h

/-! ### The delimiter lines of any side -/

section

variable {Id : Type} [Platform Id]

def openerTextOf (n : ℕ) (ref : Bytes) : Bytes :=
  openerPrefix ++ (decText n ++ utf8 ": " ++ ref)

def dividerTextOf (k n : ℕ) (ref : Bytes) : Bytes :=
  dividerPrefix ++ (decText k ++ utf8 "/" ++ decText n ++ utf8 ": " ++ ref)

theorem openerLine_of (n : ℕ) (side : Id) (exec : Bool) :
    openerLine n side exec = openerTextOf n (refText side exec) ++ [10] := by
  simp only [openerLine, openerTextOf, refText, openerPrefix, decText, utf8_append,
    List.append_assoc, utf8_lf]

theorem sideLine_of (k n : ℕ) (side : Id) (exec : Bool) :
    sideLine k n side exec = dividerTextOf k n (refText side exec) ++ [10] := by
  simp only [sideLine, dividerTextOf, refText, dividerPrefix, decText, utf8_append,
    List.append_assoc, utf8_lf]

theorem deletedLine_of (n : ℕ) : deletedLine n = dividerTextOf n n (utf8 "deleted") ++ [10] := by
  have htext : utf8 ": deleted\n" = utf8 ": " ++ utf8 "deleted" ++ [10] := rfl
  simp only [deletedLine, dividerTextOf, dividerPrefix, decText, utf8_append, List.append_assoc,
    htext]

theorem not_mem_decText {b : UInt8} (h : isDigit b = false) (n : ℕ) : b ∉ decText n := by
  intro hb
  rw [decText_digits n b hb] at h
  cases h

/-- The opener pins the side count up to the cap. -/
theorem parseOpener_of {n : ℕ} (hn : n < 1000000) (ref : Bytes) :
    parseOpener (openerTextOf n ref) = if 2 ≤ n ∧ n ≤ maxEntries then some (n, ref) else none := by
  have hcut : splitOnce (utf8 ": ") (decText n ++ utf8 ": " ++ ref) = some (decText n, ref) :=
    splitOnce_of_not_mem (not_mem_decText (by decide) n)
  simp only [parseOpener, openerTextOf, isPrefixOf?_append, Option.bind_eq_bind, Option.bind_some,
    hcut, parseCanonicalDecimal_decText hn]

theorem parseSideDivider_of {k n : ℕ} (hk : k < 1000000) (hn : n < 1000000) (ref : Bytes) :
    parseSideDivider (dividerTextOf k n ref) = some (k, n, ref) := by
  have hcolon : (58 : UInt8) ∉ decText k ++ utf8 "/" ++ decText n := by
    rw [List.mem_append, List.mem_append, not_or, not_or]
    exact ⟨⟨not_mem_decText (by decide) k, by decide⟩, not_mem_decText (by decide) n⟩
  have hcut : splitOnce (utf8 ": ") (decText k ++ utf8 "/" ++ decText n ++ utf8 ": " ++ ref) =
      some (decText k ++ utf8 "/" ++ decText n, ref) := splitOnce_of_not_mem hcolon
  have hnums : splitOnce (utf8 "/") (decText k ++ utf8 "/" ++ decText n) =
      some (decText k, decText n) := splitOnce_of_not_mem (not_mem_decText (by decide) k)
  simp only [parseSideDivider, dividerTextOf, isPrefixOf?_append, Option.bind_eq_bind,
    Option.bind_some, hcut, hnums, parseCanonicalDecimal_decText hk,
    parseCanonicalDecimal_decText hn]
  rfl

theorem inline_decText (n : ℕ) : Inline (decText n) :=
  ⟨not_mem_decText (by decide) n, not_mem_decText (by decide) n⟩

theorem delimiter_openerOf [HexIds Id] (n : ℕ) (side : Id) (exec : Bool) :
    Delimiter (openerTextOf n (refText side exec)) where
  inline := .append ⟨by decide, by decide⟩
    (.append (.append (inline_decText n) ⟨by decide, by decide⟩) (inline_refText side exec))
  encoded := (isUtf8_utf8 _).append
    (((isUtf8_utf8 _).append (isUtf8_utf8 _)).append (encoded_refText side exec))
  ascii := ⟨60, _, rfl, by decide⟩

theorem delimiter_dividerOf {ref : Bytes} (hinline : Inline ref) (hencoded : Lib.Encoded ref)
    (k n : ℕ) : Delimiter (dividerTextOf k n ref) where
  inline := .append ⟨by decide, by decide⟩
    (.append (.append (.append (.append (inline_decText k) ⟨by decide, by decide⟩)
      (inline_decText n)) ⟨by decide, by decide⟩) hinline)
  encoded := (isUtf8_utf8 _).append
    (((((isUtf8_utf8 _).append (isUtf8_utf8 _)).append (isUtf8_utf8 _)).append
      (isUtf8_utf8 _)).append hencoded)
  ascii := ⟨61, _, rfl, by decide⟩

/-- The dividers move the scanner on. -/
theorem scanLine_side [HexIds Id] {k n : ℕ} (hk : k < 1000000) (hn : n < 1000000) (side : Id)
    (exec seen : Bool) :
    scanLine n ⟨k, seen, false⟩ (dividerTextOf k n (refText side exec)) =
      some ⟨k + 1, seen, false⟩ := by
  have hvalid := isSideRef_refText side exec
  have hname : refText side exec ≠ utf8 "deleted" := by
    intro heq
    rw [heq] at hvalid
    exact absurd hvalid (by decide)
  simp [scanLine, parseSideDivider_of hk hn, hname, hvalid]

theorem scanLine_deleted {n : ℕ} (hn : n < 1000000) (seen : Bool) :
    scanLine n ⟨n, seen, false⟩ (dividerTextOf n n (utf8 "deleted")) =
      some ⟨n + 1, seen, true⟩ := by
  simp [scanLine, parseSideDivider_of hn hn]

/-! ### Blocks without a divider -/

/-- Lines none of which is a divider keep the side. -/
theorem scan_quiet {n : ℕ} {ls : List Bytes} (h : ∀ l ∈ ls, parseSideDivider l = none)
    {st st' : MarkerScan} (hst : st.deletedSeen = false)
    (hrun : ls.foldlM (scanLine n) st = some st') : st'.expectedSide = st.expectedSide := by
  induction ls generalizing st with
  | nil => exact (Option.some.inj hrun) ▸ rfl
  | cons l ls ih =>
      obtain ⟨hl, hls⟩ := List.forall_mem_cons.mp h
      rw [List.foldlM_cons, Option.bind_eq_bind, Option.bind_eq_some_iff] at hrun
      obtain ⟨mid, hline, hrest⟩ := hrun
      have hmid : mid.expectedSide = st.expectedSide ∧ mid.deletedSeen = false := by
        unfold scanLine at hline
        rw [if_neg (by simp [hst]), hl] at hline
        dsimp only at hline
        split at hline
        · split_ifs at hline
          obtain rfl := Option.some.inj hline
          exact ⟨rfl, hst⟩
        · obtain rfl := Option.some.inj hline
          exact ⟨rfl, hst⟩
      exact (ih hls hmid.2 hrest).trans hmid.1

/-- A block behind a divider passes exactly when no line of it is under the base
prefix. -/
theorem scan_block {n : ℕ} {content : Bytes}
    (h : ∀ l ∈ blockLines content, parseSideDivider l = none) (k : ℕ) (hk : k ≠ 2) (seen : Bool)
    (rest : List Bytes) :
    (blockLines content ++ rest).foldlM (scanLine n) ⟨k, seen, false⟩ =
      if baseRefs (blockLines content) = [] then rest.foldlM (scanLine n) ⟨k, seen, false⟩
      else none := by
  rw [List.foldlM_append]
  split_ifs with hbare
  · rw [((scan_same rfl).mpr ⟨h, .inl ⟨hbare, rfl⟩⟩).1]
    rfl
  · cases hrun : (blockLines content).foldlM (scanLine n) ⟨k, seen, false⟩ with
    | none => rfl
    | some st =>
        have hside := scan_quiet h rfl hrun
        rcases ((scan_same rfl).mp ⟨hrun, hside⟩).2 with ⟨hnil, -⟩ | ⟨-, -, -, -, htwo, -⟩
        · exact absurd hnil hbare
        · exact absurd htwo hk

/-! ### The later sides -/

variable (rep : ConflictRep Id) (n : ℕ) (contents : Id → Bytes)

/-- The blocks of the sides from index `i` on, each behind its divider. -/
def laterSides : ℕ → List Id → Bytes
  | _, [] => []
  | i, side :: sides =>
      (dividerTextOf (i + 1) n (refText side (rep.sidesExec.getD i false)) ++ [10]) ++
        (pushBlock (contents side) ++ laterSides (i + 1) sides)

variable {rep n contents}

theorem sideBlocks_later {i : ℕ} (hi : 2 ≤ i) (sides : List Id) :
    sideBlocks rep n (fun id => some (contents id)) i sides =
      .ok (laterSides rep n contents i sides) := by
  induction sides generalizing i with
  | nil => rfl
  | cons side sides ih =>
      have hzero : i ≠ 0 := by omega
      have hone : i ≠ 1 := by omega
      simp only [sideBlocks, if_neg hzero, if_neg hone, ih (by omega : 2 ≤ i + 1), bind, Except.bind,
        pure, Except.pure, laterSides, sideLine_of, List.nil_append, List.append_assoc]

theorem scan_later [HexIds Id] {sides : List Id} {i : ℕ} (hi : 1 ≤ i)
    (hbound : i + sides.length < 1000000) (hn : n < 1000000) (seen : Bool)
    (h : ∀ side ∈ sides, ∀ l ∈ blockLines (contents side), parseSideDivider l = none)
    (tail : Bytes) :
    (lines (laterSides rep n contents i sides ++ tail)).foldlM (scanLine n) ⟨i + 1, seen, false⟩ =
      if ∀ side ∈ sides, baseRefs (blockLines (contents side)) = [] then
        (lines tail).foldlM (scanLine n) ⟨i + 1 + sides.length, seen, false⟩
      else none := by
  induction sides generalizing i with
  | nil => simp [laterSides]
  | cons side sides ih =>
      obtain ⟨hside, hsides⟩ := List.forall_mem_cons.mp h
      rw [List.length_cons] at hbound
      have hd := delimiter_dividerOf (inline_refText side (rep.sidesExec.getD i false))
        (encoded_refText side (rep.sidesExec.getD i false)) (i + 1) n
      have hlines : lines (laterSides rep n contents i (side :: sides) ++ tail) =
          dividerTextOf (i + 1) n (refText side (rep.sidesExec.getD i false)) ::
            (blockLines (contents side) ++
              lines (laterSides rep n contents (i + 1) sides ++ tail)) := by
        have haround := hd.lines_around (.inl rfl)
          (pushBlock (contents side) ++ (laterSides rep n contents (i + 1) sides ++ tail))
        rw [List.nil_append, lines_append (closed_pushBlock _)] at haround
        rw [laterSides, List.append_assoc, List.append_assoc (pushBlock _), haround]
        rfl
      have hrest := ih (i := i + 1) (by omega) (by omega) hsides
      rw [hlines, List.foldlM_cons, scanLine_side (by omega) hn]
      show List.foldlM (scanLine n) _ _ = _
      rw [scan_block hside (i + 1 + 1) (by omega), hrest, List.length_cons,
        show i + 1 + 1 + sides.length = i + 1 + (sides.length + 1) by omega]
      simp only [List.forall_mem_cons]
      by_cases hbare : baseRefs (blockLines (contents side)) = []
      · simp [hbare]
      · simp [hbare]

theorem encoded_later [HexIds Id] {sides : List Id} {i : ℕ} {tail : Bytes}
    (htail : ∀ a, Lib.Encoded (a ++ tail) ↔ Lib.Encoded a) (a : Bytes) :
    Lib.Encoded (a ++ (laterSides rep n contents i sides ++ tail)) ↔
      Lib.Encoded a ∧ ∀ side ∈ sides, isUtf8 (contents side) = true := by
  induction sides generalizing i a with
  | nil => simp [laterSides, htail]
  | cons side sides ih =>
      have hd := delimiter_dividerOf (inline_refText side (rep.sidesExec.getD i false))
        (encoded_refText side (rep.sidesExec.getD i false)) (i + 1) n
      rw [laterSides, List.append_assoc, ← List.append_assoc a, List.append_assoc (pushBlock _),
        hd.encoded_around, ih, encoded_pushBlock, List.forall_mem_cons]

theorem closed_later {sides : List Id} {i : ℕ} : Closed (laterSides rep n contents i sides) := by
  induction sides generalizing i with
  | nil => exact .inl rfl
  | cons side sides ih =>
      exact closed_append (closed_line _) (closed_append (closed_pushBlock _) ih)

/-! ### A whole rendering -/

/-- The sides a rendering numbers: the deletion is one. -/
def ConflictRep.sideCount (rep : ConflictRep Id) : ℕ :=
  rep.sides.length + (if rep.deleted then 1 else 0)

/-- The divider of the deletion side, with its empty block. -/
def deletionPart (rep : ConflictRep Id) : Bytes :=
  if rep.deleted then dividerTextOf rep.sideCount rep.sideCount (utf8 "deleted") ++ [10] else []

theorem delimiter_deletion (n : ℕ) : Delimiter (dividerTextOf n n (utf8 "deleted")) :=
  delimiter_dividerOf ⟨by decide, by decide⟩ (isUtf8_utf8 _) n n

omit [Platform Id] in
theorem closed_deletionPart : Closed (deletionPart rep) := by
  rw [deletionPart]
  split_ifs
  · exact closed_line _
  · exact .inl rfl

omit [Platform Id] in
theorem encoded_deletionPart (a : Bytes) : Lib.Encoded (a ++ deletionPart rep) ↔ Lib.Encoded a := by
  rw [deletionPart]
  split_ifs
  · have haround := (delimiter_deletion rep.sideCount).encoded_around a []
    rw [List.append_nil] at haround
    rw [haround]
    exact and_iff_left ⟨[], rfl⟩
  · rw [List.append_nil]

theorem baseSection_total (rep : ConflictRep Id) (contents : Id → Bytes) :
    ∃ base, baseSection rep (fun id => some (contents id)) = .ok base := by
  unfold baseSection
  cases rep.base with
  | none => exact ⟨_, rfl⟩
  | some base => exact ⟨_, rfl⟩

/-- Every rendering is an opener, side 1 with the base, the later sides, the
deletion and the closer. -/
theorem markerBytes_sides {first : Id} {rest : List Id} (hsides : rep.sides = first :: rest)
    (hmany : rest ≠ [] ∨ rep.deleted = true) {base : Bytes}
    (hbase : baseSection rep (fun id => some (contents id)) = .ok base) :
    markerBytes rep (fun id => some (contents id)) =
      .ok ([] ++ (openerTextOf rep.sideCount (refText first (rep.sidesExec.getD 0 false)) ++ [10]) ++
        (((pushBlock (contents first) ++ base) ++
            (laterSides rep rep.sideCount contents 1 rest ++ deletionPart rep)) ++
          (closerText rep.path ++ [10]) ++ [])) := by
  have hcount : rep.sides.length + (if rep.deleted = true then 1 else 0) = rep.sideCount := rfl
  unfold markerBytes
  simp only [hcount]
  cases rest with
  | nil =>
      have hdeleted : rep.deleted = true := hmany.resolve_left fun h => h rfl
      simp [hsides, hdeleted, sideBlocks, hbase, deletionPart, laterSides, openerLine_of,
        deletedLine_of, closerLine_eq, bind, Except.bind, pure, Except.pure]
  | cons second more =>
      have hlater : sideBlocks rep rep.sideCount (fun id => some (contents id)) 2 more =
          .ok (laterSides rep rep.sideCount contents 2 more) := sideBlocks_later le_rfl more
      cases hdeleted : rep.deleted with
      | true =>
          simp [hsides, hdeleted, sideBlocks, hbase, deletionPart, laterSides, openerLine_of,
            deletedLine_of, sideLine_of, closerLine_eq, hlater, bind, Except.bind, pure, Except.pure]
      | false =>
          simp [hsides, hdeleted, sideBlocks, hbase, deletionPart, laterSides, openerLine_of,
            sideLine_of, closerLine_eq, hlater, bind, Except.bind, pure, Except.pure]

/-- Lines framed by an opener and a closer. -/
theorem markerShaped_framed {opener closer middle : Bytes} (hopener : Delimiter opener)
    (hcloser : Delimiter closer) (hclose : isCloser closer = true) (hmiddle : Closed middle) :
    markerShaped ([] ++ (opener ++ [10]) ++ (middle ++ (closer ++ [10]) ++ [])) = true ↔
      ∃ n ref, parseOpener opener = some (n, ref) ∧ isSideRef ref = true ∧ Lib.Encoded middle ∧
        ∃ st, (lines middle).foldlM (scanLine n) ⟨2, false, false⟩ = some st ∧
          st.expectedSide = n + 1 := by
  have hnil : lines [] = [] := rfl
  have hencodedNil : Lib.Encoded ([] : Bytes) := ⟨[], rfl⟩
  rw [markerShaped, hopener.lines_around (.inl rfl), hcloser.lines_around hmiddle]
  simp only [hnil, List.nil_append]
  cases hopen : parseOpener opener with
  | none => simp
  | some parsed =>
      obtain ⟨n, ref⟩ := parsed
      simp only [Bool.and_eq_true, isUtf8_iff, List.getLast?_concat, Option.any_some, hclose,
        List.dropLast_concat, Option.any_eq_true, decide_eq_true_eq, Option.some.injEq,
        Prod.mk.injEq]
      rw [← List.nil_append (opener ++ [10]), hopener.encoded_around, hcloser.encoded_around]
      constructor
      · rintro ⟨⟨-, hencoded, -⟩, ⟨hvalid, -⟩, hscan⟩
        exact ⟨n, ref, ⟨rfl, rfl⟩, hvalid, hencoded, hscan⟩
      · rintro ⟨n', ref', ⟨rfl, rfl⟩, hvalid, hencoded, hscan⟩
        exact ⟨⟨hencodedNil, hencoded, hencodedNil⟩, ⟨hvalid, trivial⟩, hscan⟩

/-- Behind side 1 the scanner comes to the end exactly when no later side has a line
under the base prefix. -/
theorem scan_rest [HexIds Id] {first : Id} {rest : List Id} (hsides : rep.sides = first :: rest)
    (hbound : rep.sides.length ≤ maxEntries) (seen : Bool)
    (h : ∀ side ∈ rest, ∀ l ∈ blockLines (contents side), parseSideDivider l = none) :
    (∃ st, (lines (laterSides rep rep.sideCount contents 1 rest ++ deletionPart rep)).foldlM
        (scanLine rep.sideCount) ⟨2, seen, false⟩ = some st ∧ st.expectedSide = rep.sideCount + 1) ↔
      ∀ side ∈ rest, baseRefs (blockLines (contents side)) = [] := by
  rw [hsides, List.length_cons, maxEntries] at hbound
  have hcount : rep.sideCount = rest.length + 1 + if rep.deleted then 1 else 0 := by
    rw [ConflictRep.sideCount, hsides, List.length_cons]
  have hn : rep.sideCount < 1000000 := by
    rw [hcount]
    split_ifs <;> omega
  have hend : ∃ st, (lines (deletionPart rep)).foldlM (scanLine rep.sideCount)
      ⟨1 + 1 + rest.length, seen, false⟩ = some st ∧ st.expectedSide = rep.sideCount + 1 := by
    rw [deletionPart]
    cases hdeleted : rep.deleted with
    | true =>
        rw [hdeleted, if_pos rfl] at hcount
        rw [if_pos rfl, lines_line (delimiter_deletion _).inline,
          show 1 + 1 + rest.length = rep.sideCount by omega, List.foldlM_cons, scanLine_deleted hn]
        exact ⟨_, rfl, rfl⟩
    | false =>
        rw [hdeleted, if_neg Bool.false_ne_true] at hcount
        exact ⟨_, rfl, by show 1 + 1 + rest.length = _; omega⟩
  have hscan := @scan_later _ _ rep rep.sideCount contents _ rest 1 le_rfl (by omega) hn seen h
    (deletionPart rep)
  rw [show 1 + 1 = 2 from rfl] at hscan hend
  rw [hscan]
  split_ifs with hbare
  · exact iff_of_true hend hbare
  · exact iff_of_false (by simp) hbare

/-! ### Validated representations -/

/-- What `validate` says of one representation. -/
theorem validated {nfc : String → String} {reps : List (ConflictRep Id)}
    (h : validateConflicts nfc reps = .ok ()) {rep : ConflictRep Id} (hrep : rep ∈ reps) :
    rep.path.validate nfc = .ok () ∧ rep.sides.length ≤ maxEntries ∧
      (if rep.deleted then 1 else 2) ≤ rep.sides.length := by
  obtain ⟨-, -, hvalid⟩ := validateConflicts_ok.mp h
  obtain ⟨hpath, hmax, hshape⟩ := hvalid rep hrep
  refine ⟨hpath, hmax, ?_⟩
  rw [ConflictRep.shapeOk, Bool.not_eq_true'] at hshape
  simp only [Bool.or_eq_false_iff] at hshape
  exact not_lt.mp (of_decide_eq_false hshape.1.1.1.1)

/-- A line under the base prefix with a blob reference. -/
def isBaseLine (line : Bytes) : Bool := (basePrefix.isPrefixOf? line).any isSideRef

/-- Content no line of which parses as a side divider, a base line or a closer. -/
structure PlainContent (content : Bytes) : Prop where
  divider : ∀ l ∈ lines content, parseSideDivider l = none
  base : ∀ l ∈ lines content, isBaseLine l = false
  closer : ∀ l ∈ lines content, isCloser l = false

theorem PlainContent.block {content : Bytes} (h : PlainContent content) :
    ∀ l ∈ blockLines content, parseSideDivider l = none := by
  intro l hl
  rcases mem_blockLines hl with hl | hl
  · exact h.divider l hl
  · have hnone := h.divider _ hl
    rw [parseSideDivider_cr, Option.map_eq_none_iff] at hnone
    exact hnone

/-- Side 1 with its base shows no divider. -/
theorem side1_quiet {base : Bytes} {first : Id}
    (hbase : baseSection rep (fun id => some (contents id)) = .ok base)
    (h : ∀ id ∈ rep.base.toList ++ [first], ∀ l ∈ blockLines (contents id),
      parseSideDivider l = none) [HexIds Id] :
    ∀ l ∈ lines (pushBlock (contents first) ++ base), parseSideDivider l = none := by
  have hfirst := h first (List.mem_append_right _ List.mem_cons_self)
  rcases baseSection_ok hbase with ⟨-, rfl⟩ | ⟨baseId, shown, hid, hshown, rfl⟩
  · rw [List.append_nil]
    exact hfirst
  · obtain rfl := Option.some.inj hshown
    rw [← List.append_assoc, (delimiter_baseText baseId rep.baseExec).lines_around
      (closed_pushBlock _)]
    intro l hl
    rcases List.mem_append.mp hl with hl | hl
    · exact hfirst l hl
    · rcases List.mem_cons.mp hl with rfl | hl
      · exact parseSideDivider_baseText baseId rep.baseExec
      · exact h baseId (by rw [hid]; simp) l hl

/-- **Renderings are recognised**: for a validated representation and contents without
a delimiter line the detector accepts the rendering exactly when it numbers no more
sides than the cap and its versions are readable. -/
theorem markerShaped_sides_iff [HexIds Id] {reps : List (ConflictRep Id)} {rep : ConflictRep Id}
    (hvalid : validateConflicts (Platform.nfc Id) reps = .ok ()) (hrep : rep ∈ reps)
    (contents : Id → Bytes)
    (hplain : ∀ id ∈ rep.base.toList ++ rep.sides, PlainContent (contents id)) :
    ∃ bytes, markerBytes rep (fun id => some (contents id)) = .ok bytes ∧
      (markerShaped bytes = true ↔
        rep.sideCount ≤ maxEntries ∧ rep.Readable fun id => some (contents id)) := by
  obtain ⟨hpath, hmax, hmin⟩ := validated hvalid hrep
  obtain ⟨first, rest, hsides⟩ : ∃ first rest, rep.sides = first :: rest := by
    refine List.exists_cons_of_length_pos ?_
    split_ifs at hmin <;> omega
  rw [hsides, List.length_cons] at hmin
  have hmany : rest ≠ [] ∨ rep.deleted = true := by
    by_contra hnone
    rw [not_or, not_not, Bool.not_eq_true] at hnone
    rw [hnone.1, hnone.2] at hmin
    simp at hmin
  have htwo : 2 ≤ rep.sideCount := by
    rw [ConflictRep.sideCount, hsides, List.length_cons]
    split_ifs at hmin ⊢ <;> omega
  have hn : rep.sideCount < 1000000 := by
    have hcap : maxEntries = 100000 := rfl
    rw [ConflictRep.sideCount]
    split_ifs <;> omega
  obtain ⟨base, hbase⟩ := baseSection_total rep contents
  refine ⟨_, markerBytes_sides hsides hmany hbase, ?_⟩
  have hquiet : ∀ id ∈ rep.base.toList ++ rep.sides, ∀ l ∈ blockLines (contents id),
      parseSideDivider l = none := fun id hid => (hplain id hid).block
  rw [hsides] at hquiet
  have hrest : ∀ side ∈ rest, ∀ l ∈ blockLines (contents side), parseSideDivider l = none :=
    fun side hside => hquiet side (List.mem_append_right _ (List.mem_cons_of_mem _ hside))
  have hfirst : ∀ l ∈ lines (pushBlock (contents first) ++ base), parseSideDivider l = none := by
    refine side1_quiet hbase fun id hid => hquiet id ?_
    rcases List.mem_append.mp hid with hid | hid
    · exact List.mem_append_left _ hid
    · rw [List.mem_singleton.mp hid]
      exact List.mem_append_right _ List.mem_cons_self
  obtain ⟨hclosed, hside1⟩ := side1_iff (contents first) hbase
  rw [markerShaped_framed (delimiter_openerOf _ first _) (delimiter_closerText hpath)
    (isCloser_closerText hpath) (closed_append hclosed (closed_append closed_later
      closed_deletionPart)), parseOpener_of hn]
  simp only [encoded_later encoded_deletionPart, lines_append hclosed, List.foldlM_append,
    Option.bind_eq_bind, Option.bind_eq_some_iff]
  constructor
  · rintro ⟨n, ref, hopen, -, ⟨hencoded, htexts⟩, st, ⟨mid, hmid, hscan⟩, hst⟩
    split_ifs at hopen with hcap
    cases hopen
    have hbases := ((scan_same rfl).mp ⟨hmid, scan_quiet hfirst rfl hmid⟩).2
    obtain ⟨seen, rfl⟩ : ∃ seen, mid = ⟨2, seen, false⟩ := by
      rcases hbases with ⟨-, rfl⟩ | ⟨-, -, -, -, -, rfl⟩ <;> exact ⟨_, rfl⟩
    have hbare := (scan_rest hsides hmax seen hrest).mp ⟨st, hscan, hst⟩
    obtain ⟨hone, hbaseReads⟩ := hside1.mp ⟨hencoded, hfirst, by
      rcases hbases with ⟨hnil, -⟩ | ⟨ref, href, hrefOk, -⟩
      · exact .inl hnil
      · exact .inr ⟨ref, href, hrefOk⟩⟩
    refine ⟨hcap.2, fun id hid content hcontent => ?_, fun id hid content hcontent => ?_⟩
    · rw [hsides] at hid
      obtain rfl := Option.some.inj hid
      obtain rfl := Option.some.inj hcontent
      exact hone
    · rw [hsides, List.tail_cons] at hid
      rcases List.mem_append.mp hid with hid | hid
      · exact hbaseReads id (Option.mem_toList.mp hid) content hcontent
      · obtain rfl := Option.some.inj hcontent
        exact ⟨⟨htexts id hid, hrest id hid⟩, hbare id hid⟩
  · rintro ⟨hcap, hread⟩
    have hothers : ∀ id ∈ rep.base.toList ++ rest, Quiet (contents id) ∧
        baseRefs (blockLines (contents id)) = [] := fun id hid =>
      hread.others id (by rw [hsides]; exact hid) _ rfl
    obtain ⟨hencoded, -, hbases⟩ := hside1.mpr
      ⟨hread.first first (by rw [hsides]; rfl) _ rfl, fun id hid content hcontent => by
        obtain rfl := Option.some.inj hcontent
        exact hothers id (List.mem_append_left _ (Option.mem_toList.mpr hid))⟩
    obtain ⟨seen, hmid⟩ : ∃ seen, (lines (pushBlock (contents first) ++ base)).foldlM
        (scanLine rep.sideCount) ⟨2, false, false⟩ = some ⟨2, seen, false⟩ := by
      rcases hbases with hnil | ⟨ref, hone, hrefOk⟩
      · exact ⟨_, ((scan_same rfl).mpr ⟨hfirst, .inl ⟨hnil, rfl⟩⟩).1⟩
      · exact ⟨_, ((scan_same rfl).mpr ⟨hfirst, .inr ⟨ref, hone, hrefOk, rfl, rfl, rfl⟩⟩).1⟩
    obtain ⟨st, hscan, hst⟩ := (scan_rest hsides hmax seen hrest).mpr fun side hside =>
      (hothers side (List.mem_append_right _ hside)).2
    exact ⟨rep.sideCount, _, if_pos ⟨htwo, hcap⟩, isSideRef_refText first _,
      ⟨hencoded, fun side hside => (hothers side (List.mem_append_right _ hside)).1.1⟩, st,
      ⟨_, hmid, hscan⟩, hst⟩

end

/-! ### Runs -/

theorem hexDigit_lower : ∀ m < 16, (String.utf8EncodeChar (Plain.hexDigit m)).length = 1 ∧
    (String.utf8EncodeChar (Plain.hexDigit m)).all isLowerHex = true := by
  decide

instance : HexIds PlainId where
  toHex_hex := by
    intro id
    show isBlobHex (utf8 (Plain.toHex id)) = true
    have hchars : ∀ c ∈ (Plain.toHex id).toList, (String.utf8EncodeChar c).length = 1 ∧
        (String.utf8EncodeChar c).all isLowerHex = true := by
      intro c hc
      rw [Plain.toHex, String.toList_ofList] at hc
      obtain ⟨i, -, rfl⟩ := List.mem_map.mp hc
      exact hexDigit_lower _ (Nat.mod_lt _ (by decide))
    rw [isBlobHex, Bool.and_eq_true, decide_eq_true_eq, utf8, List.all_flatMap, List.all_eq_true]
    refine ⟨?_, fun c hc => (hchars c hc).2⟩
    rw [List.length_flatMap, List.map_congr_left fun c hc => (hchars c hc).1]
    simp [Plain.toHex, Function.comp_def]

/-- A conflict of three sides with a base and an exec bit. -/
def threeSides : ConflictRep PlainId :=
  ⟨⟨["d"], "f"⟩, some [0], false, [[1], [2], [3]], [false, true, false], false⟩

def shortText (id : PlainId) : Bytes := utf8 (toString id.length ++ " line")

theorem shortText_plain (id : PlainId) (h : id.length = 1) : PlainContent (shortText id) := by
  rw [shortText, h]
  exact ⟨by decide, by decide, by decide⟩

/-- Texts of a line each are recognised. -/
theorem markerShaped_sides_iff_texts :
    ∃ bytes, markerBytes threeSides (fun id => some (shortText id)) = .ok bytes ∧
      (markerShaped bytes = true ↔ threeSides.sideCount ≤ maxEntries ∧
        threeSides.Readable fun id => some (shortText id)) :=
  @markerShaped_sides_iff _ _ _ [threeSides] _ (by decide +kernel) List.mem_cons_self shortText
    fun id hid => shortText_plain id (by
      have hids : ∀ id ∈ threeSides.base.toList ++ threeSides.sides, id.length = 1 := by decide
      exact hids id hid)

/-- Two versions that are not text: the rendering is no marker file to the detector. -/
theorem binary_sides_missed :
    validateConflicts (Platform.nfc PlainId) [threeSides] = .ok () ∧
      (∀ id ∈ threeSides.base.toList ++ threeSides.sides, PlainContent [0xff]) ∧
      ∃ bytes, markerBytes threeSides (fun _ => some [0xff]) = .ok bytes ∧
        markerShaped bytes = false := by
  refine ⟨by decide +kernel, fun _ _ => ⟨by decide, by decide, by decide⟩, _, rfl, ?_⟩
  decide +kernel

end Naatre
