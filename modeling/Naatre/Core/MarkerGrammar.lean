import Naatre.Core.MarkerSides
import Mathlib.Data.List.Induction

/-!
The detector (`marker_shaped` in `naatre-core/src/conflict.rs`) against a
grammar of marker files, and the screen on the first bytes of a file
(`marker_opener`). Content lines may be anything that is no delimiter line, and a
divider of whatever numbers is one.
-/

namespace Naatre

/-! ### The grammar -/

/-- A blob reference on a marker line: the blob's hexadecimal text, then the
token of an executable file. -/
def SideRef (field : Bytes) : Prop :=
  ∃ hex exec, field = hex ++ utf8 (execToken exec) ∧ hex.length = 64 ∧
    ∀ b ∈ hex, isLowerHex b = true

/-- A line that reads as a divider, of whatever side. -/
def DividerLine (line : Bytes) : Prop :=
  ∃ k n ref, k < 1000000 ∧ n < 1000000 ∧ line = dividerTextOf k n ref

/-- A line of a content block. -/
structure ContentLine (line : Bytes) : Prop where
  divider : ¬DividerLine line
  base : ¬basePrefix <+: line

/-- The block of side 1, with the base's block in it or not. -/
inductive FirstBlock : List Bytes → Prop
  | plain {content : List Bytes} (hcontent : ∀ l ∈ content, ContentLine l) : FirstBlock content
  | based {content base : List Bytes} {ref : Bytes} (hcontent : ∀ l ∈ content, ContentLine l)
      (href : SideRef ref) (hbase : ∀ l ∈ base, ContentLine l) :
      FirstBlock (content ++ (basePrefix ++ ref) :: base)

/-- The blocks of the sides from `k` on to side `n`; a deleted side is the last
and has no block. -/
inductive SideBlocks (n : ℕ) : ℕ → List Bytes → Prop
  | done : SideBlocks n (n + 1) []
  | side {k : ℕ} {ref : Bytes} {content rest : List Bytes} (hk : k ≤ n) (href : SideRef ref)
      (hcontent : ∀ l ∈ content, ContentLine l) (hrest : SideBlocks n (k + 1) rest) :
      SideBlocks n k (dividerTextOf k n ref :: (content ++ rest))
  | deleted : SideBlocks n n [dividerTextOf n n (utf8 "deleted")]

/-- A marker file of `n` sides. -/
structure MarkerFile (n : ℕ) (bytes : Bytes) : Prop where
  least : 2 ≤ n
  most : n ≤ maxEntries
  text : Lib.Encoded bytes
  parts : ∃ ref first later path, SideRef ref ∧ FirstBlock first ∧ SideBlocks n 2 later ∧
    path ≠ [] ∧
    lines bytes = openerTextOf n ref :: (first ++ later ++ [closerPrefix ++ path])

/-! ### What the line parsers read -/

theorem isSideRef_iff {field : Bytes} : isSideRef field = true ↔ SideRef field := by
  have htoken : (utf8 (execToken true)).length = 3 := by decide
  constructor
  · intro h
    rw [isSideRef] at h
    split_ifs at h with hsuffix
    · obtain ⟨hex, rfl⟩ := List.isSuffixOf_iff_suffix.mp hsuffix
      rw [List.length_append, Nat.add_sub_cancel, List.take_left, isBlobHex, Bool.and_eq_true,
        decide_eq_true_eq, List.all_eq_true] at h
      exact ⟨hex, true, rfl, h.1, h.2⟩
    · rw [isBlobHex, Bool.and_eq_true, decide_eq_true_eq, List.all_eq_true] at h
      exact ⟨field, false, (List.append_nil field).symm, h.1, h.2⟩
  · rintro ⟨hex, exec, rfl, hlen, hhex⟩
    have hblob : isBlobHex hex = true := by
      rw [isBlobHex, Bool.and_eq_true, decide_eq_true_eq, List.all_eq_true]
      exact ⟨hlen, hhex⟩
    rw [isSideRef]
    cases exec with
    | true =>
        rw [if_pos (List.isSuffixOf_iff_suffix.mpr (List.suffix_append _ _)), List.length_append,
          Nat.add_sub_cancel, List.take_left]
        exact hblob
    | false =>
        have hnone : utf8 (execToken false) = [] := rfl
        rw [hnone, List.append_nil, if_neg, hblob]
        intro hsuffix
        obtain ⟨front, rfl⟩ := List.isSuffixOf_iff_suffix.mp hsuffix
        exact absurd (hhex 32 (List.mem_append_right _ (by decide))) (by decide)

/-- A cut takes the separator out. -/
theorem splitOnce_eq {sep s before after : Bytes} (h : splitOnce sep s = some (before, after)) :
    s = before ++ (sep ++ after) := by
  induction s generalizing before with
  | nil =>
      rw [splitOnce] at h
      split_ifs at h with hsep
      obtain ⟨rfl, rfl⟩ := Prod.mk.inj (Option.some.inj h)
      rw [hsep]
      rfl
  | cons b s ih =>
      rw [splitOnce] at h
      split at h
      next rest hpre =>
        obtain ⟨rfl, rfl⟩ := Prod.mk.inj (Option.some.inj h)
        exact (List.isPrefixOf?_eq_some_iff_append_eq.mp hpre).symm
      next hpre =>
        obtain ⟨⟨front, back⟩, hcut, hpair⟩ := Option.map_eq_some_iff.mp h
        obtain ⟨rfl, rfl⟩ := Prod.mk.inj hpair
        rw [ih hcut]
        rfl

/-- The text of a number is that of its tenth, and its last digit. -/
theorem decText_step {n : ℕ} (h : 10 ≤ n) : decText n = decText (n / 10) ++ decText (n % 10) := by
  have hlast : Nat.toDigits 10 (n % 10) = [Nat.digitChar (n % 10)] :=
    Nat.toDigits_of_lt_base (Nat.mod_lt n (by decide))
  rw [decText_eq, decText_eq, decText_eq, hlast, Nat.toDigits_of_base_le (by decide) h,
    List.flatMap_append]

theorem decText_digit {d : UInt8} (h : isDigit d = true) : decText (d.toNat - 48) = [d] := by
  simp only [isDigit, Bool.and_eq_true, decide_eq_true_eq, UInt8.le_iff_toNat_le] at h
  have hlow : 48 ≤ d.toNat := h.1
  have hhigh : d.toNat ≤ 57 := h.2
  have hten : ∀ m < 10, decText m = [UInt8.ofNat (48 + m)] := by decide
  rw [hten _ (by omega), Nat.add_sub_cancel' hlow, UInt8.ofNat_toNat]

/-- Digits without a leading zero are the text of their number. -/
theorem decText_value {s : Bytes} (hne : s ≠ []) (hdigits : ∀ b ∈ s, isDigit b = true)
    (hzero : 1 < s.length → s.head? ≠ some 48) :
    decText (s.foldl (fun n b => 10 * n + (b.toNat - 48)) 0) = s ∧
      (1 < s.length → 10 ≤ s.foldl (fun n b => 10 * n + (b.toNat - 48)) 0) ∧
      (s.head? ≠ some 48 → 0 < s.foldl (fun n b => 10 * n + (b.toNat - 48)) 0) := by
  induction s using List.reverseRecOn with
  | nil => exact absurd rfl hne
  | append_singleton s d ih =>
      have hd : isDigit d = true := hdigits d (List.mem_append_right _ List.mem_cons_self)
      have hdec := decText_digit hd
      simp only [isDigit, Bool.and_eq_true, decide_eq_true_eq, UInt8.le_iff_toNat_le] at hd
      have hlow : 48 ≤ d.toNat := hd.1
      have hhigh : d.toNat ≤ 57 := hd.2
      rw [List.foldl_append, List.foldl_cons, List.foldl_nil]
      by_cases hs : s = []
      · subst hs
        rw [List.foldl_nil, Nat.mul_zero, Nat.zero_add]
        refine ⟨hdec, fun hlong => absurd hlong (by simp), fun hhead => ?_⟩
        rw [List.nil_append, List.head?_cons] at hhead
        have hne48 : d.toNat ≠ 48 := fun heq => hhead (congrArg some (UInt8.toNat_inj.mp heq))
        omega
      · have hhead : (s ++ [d]).head? = s.head? := List.head?_append_of_ne_nil s hs
        have hlong : 1 < (s ++ [d]).length := by
          have hpos := List.length_pos_iff.mpr hs
          rw [List.length_append, List.length_singleton]
          omega
        have hlead : s.head? ≠ some 48 := hhead ▸ hzero hlong
        obtain ⟨htext, -, hpos⟩ := ih hs (fun b hb => hdigits b (List.mem_append_left _ hb))
          fun _ => hlead
        have hvalue := hpos hlead
        generalize s.foldl (fun n b => 10 * n + (b.toNat - 48)) 0 = value at htext hvalue ⊢
        have hdiv : (10 * value + (d.toNat - 48)) / 10 = value := by omega
        have hmod : (10 * value + (d.toNat - 48)) % 10 = d.toNat - 48 := by omega
        refine ⟨?_, fun _ => by omega, fun _ => by omega⟩
        rw [decText_step (by omega), hdiv, hmod, htext, hdec]

theorem parseCanonicalDecimal_iff {s : Bytes} {n : ℕ} :
    parseCanonicalDecimal s = some n ↔ s = decText n ∧ n < 1000000 := by
  constructor
  · intro h
    rw [parseCanonicalDecimal] at h
    split_ifs at h with hbad hzero
    rw [not_or, not_or, not_not, List.all_eq_true] at hbad
    obtain ⟨hne, hlen, hdigits⟩ := hbad
    obtain ⟨htext, -, -⟩ := decText_value hne hdigits fun hlong hhead => hzero ⟨hlong, hhead⟩
    obtain rfl := Option.some.inj h
    refine ⟨htext.symm, ?_⟩
    generalize s.foldl (fun n b => 10 * n + (b.toNat - 48)) 0 = value at htext ⊢
    have hsix : (Nat.toDigits 10 value).length ≤ 6 := by
      rw [← (digits_bytes (toDigits_digit value)).1, ← decText_eq, htext]
      exact not_lt.mp hlen
    exact (Nat.length_toDigits_le_iff (by decide) (by decide)).mp hsix
  · rintro ⟨rfl, hn⟩
    exact parseCanonicalDecimal_decText hn

theorem parseOpener_iff {line ref : Bytes} {n : ℕ} :
    parseOpener line = some (n, ref) ↔ 2 ≤ n ∧ n ≤ maxEntries ∧ line = openerTextOf n ref := by
  constructor
  · intro h
    simp only [parseOpener, Option.bind_eq_bind, Option.bind_eq_some_iff] at h
    obtain ⟨rest, hrest, ⟨count, after⟩, hcut, m, hcount, h⟩ := h
    dsimp only at hcount h
    split_ifs at h with hrange
    obtain ⟨rfl, rfl⟩ := Prod.mk.inj (Option.some.inj h)
    refine ⟨hrange.1, hrange.2, ?_⟩
    rw [List.isPrefixOf?_eq_some_iff_append_eq] at hrest
    rw [← hrest, splitOnce_eq hcut, (parseCanonicalDecimal_iff.mp hcount).1, openerTextOf,
      List.append_assoc (decText m)]
  · rintro ⟨hleast, hmost, rfl⟩
    rw [parseOpener_of (lt_of_le_of_lt hmost (by decide)), if_pos ⟨hleast, hmost⟩]

theorem parseSideDivider_iff {line ref : Bytes} {k n : ℕ} :
    parseSideDivider line = some (k, n, ref) ↔
      k < 1000000 ∧ n < 1000000 ∧ line = dividerTextOf k n ref := by
  constructor
  · intro h
    simp only [parseSideDivider, Option.bind_eq_bind, Option.bind_eq_some_iff] at h
    obtain ⟨rest, hrest, ⟨numbers, after⟩, hcut, ⟨first, second⟩, hslash, a, ha, b, hb, h⟩ := h
    cases h
    dsimp only at hslash ha hb
    obtain ⟨hfirst, hk⟩ := parseCanonicalDecimal_iff.mp ha
    obtain ⟨hsecond, hn⟩ := parseCanonicalDecimal_iff.mp hb
    refine ⟨hk, hn, ?_⟩
    have hnumbers : numbers = first ++ (utf8 "/" ++ second) := splitOnce_eq hslash
    rw [List.isPrefixOf?_eq_some_iff_append_eq] at hrest
    rw [← hrest, splitOnce_eq hcut, hnumbers, hfirst, hsecond, dividerTextOf]
    simp only [List.append_assoc]
  · rintro ⟨hk, hn, rfl⟩
    exact parseSideDivider_of hk hn ref

theorem parseSideDivider_none {line : Bytes} :
    parseSideDivider line = none ↔ ¬DividerLine line := by
  constructor
  · rintro h ⟨k, n, ref, hk, hn, rfl⟩
    rw [parseSideDivider_of hk hn] at h
    cases h
  · intro h
    cases hparse : parseSideDivider line with
    | none => rfl
    | some read => exact absurd ⟨_, _, _, parseSideDivider_iff.mp hparse⟩ h

theorem isPrefixOf?_none {p s : Bytes} : p.isPrefixOf? s = none ↔ ¬p <+: s := by
  constructor
  · rintro h ⟨after, rfl⟩
    rw [isPrefixOf?_append] at h
    cases h
  · intro h
    cases hpre : p.isPrefixOf? s with
    | none => rfl
    | some after => exact absurd ⟨after, List.isPrefixOf?_eq_some_iff_append_eq.mp hpre⟩ h

theorem isCloser_iff {line : Bytes} :
    isCloser line = true ↔ ∃ path, path ≠ [] ∧ line = closerPrefix ++ path := by
  rw [isCloser, Option.any_eq_true]
  constructor
  · rintro ⟨path, hpath, hne⟩
    exact ⟨path, of_decide_eq_true hne, (List.isPrefixOf?_eq_some_iff_append_eq.mp hpath).symm⟩
  · rintro ⟨path, hne, rfl⟩
    exact ⟨path, isPrefixOf?_append _ _, decide_eq_true hne⟩

/-! ### The scanner -/

/-- The lines take the scanner through the last side. -/
def Completes (n : ℕ) (st : MarkerScan) (ls : List Bytes) : Prop :=
  ∃ st', ls.foldlM (scanLine n) st = some st' ∧ st'.expectedSide = n + 1

theorem completes_nil {n : ℕ} {st : MarkerScan} :
    Completes n st [] ↔ st.expectedSide = n + 1 :=
  ⟨fun ⟨_, h, hside⟩ => Option.some.inj h ▸ hside, fun h => ⟨st, rfl, h⟩⟩

theorem completes_cons {n : ℕ} {st : MarkerScan} {l : Bytes} {ls : List Bytes} :
    Completes n st (l :: ls) ↔ ∃ mid, scanLine n st l = some mid ∧ Completes n mid ls := by
  simp only [Completes, List.foldlM_cons, Option.bind_eq_bind, Option.bind_eq_some_iff]
  constructor
  · rintro ⟨st', ⟨mid, hline, hrest⟩, hside⟩
    exact ⟨mid, hline, st', hrest, hside⟩
  · rintro ⟨mid, hline, st', hrest, hside⟩
    exact ⟨st', ⟨mid, hline, hrest⟩, hside⟩

/-- What a line does to the scanner when no deleted side has been seen. -/
inductive Scans (n k : ℕ) (seen : Bool) (line : Bytes) : MarkerScan → Prop
  | deleted (hk : k = n) (hline : line = dividerTextOf k n (utf8 "deleted")) :
      Scans n k seen line ⟨k + 1, seen, true⟩
  | side {ref : Bytes} (hline : line = dividerTextOf k n ref) (href : SideRef ref) :
      Scans n k seen line ⟨k + 1, seen, false⟩
  | base {ref : Bytes} (hline : line = basePrefix ++ ref) (href : SideRef ref)
      (hseen : seen = false) (hk : k = 2) : Scans n k seen line ⟨k, true, false⟩
  | content (hline : ContentLine line) : Scans n k seen line ⟨k, seen, false⟩

theorem Scans.of_scanLine {n k : ℕ} {seen : Bool} {line : Bytes} {st : MarkerScan}
    (h : scanLine n ⟨k, seen, false⟩ line = some st) : Scans n k seen line st := by
  rw [scanLine, if_neg (by simp)] at h
  split at h
  next k' n' ref hparse =>
    obtain ⟨-, -, hline⟩ := parseSideDivider_iff.mp hparse
    split_ifs at h with hbad hdel hlast hside
    · rw [not_or, not_not, not_not] at hbad
      rw [not_not] at hlast
      obtain ⟨rfl, rfl⟩ := hbad
      exact Option.some.inj h ▸ .deleted hlast (hdel ▸ hline)
    · rw [not_or, not_not, not_not] at hbad
      obtain ⟨rfl, rfl⟩ := hbad
      exact Option.some.inj h ▸ .side hline (isSideRef_iff.mp hside)
  next hparse =>
    split at h
    next ref hbase =>
      split_ifs at h with hbad
      rw [not_or, not_or, not_not, not_not, Bool.not_eq_true] at hbad
      exact Option.some.inj h ▸ .base (List.isPrefixOf?_eq_some_iff_append_eq.mp hbase).symm
        (isSideRef_iff.mp hbad.2.2) hbad.1 hbad.2.1
    next hbase =>
      exact Option.some.inj h ▸ .content ⟨parseSideDivider_none.mp hparse, isPrefixOf?_none.mp hbase⟩

theorem sideRef_ne_deleted {ref : Bytes} (h : SideRef ref) : ref ≠ utf8 "deleted" := by
  rintro rfl
  have hside := isSideRef_iff.mpr h
  exact absurd hside (by decide)

theorem scanLine_content {n : ℕ} {st : MarkerScan} {line : Bytes} (hst : st.deletedSeen = false)
    (h : ContentLine line) : scanLine n st line = some st := by
  simp only [scanLine, hst, Bool.false_eq_true, if_false, parseSideDivider_none.mpr h.divider,
    isPrefixOf?_none.mpr h.base]

theorem scanLine_ref {n k : ℕ} {seen : Bool} {ref : Bytes} (hk : k < 1000000) (hn : n < 1000000)
    (h : SideRef ref) :
    scanLine n ⟨k, seen, false⟩ (dividerTextOf k n ref) = some ⟨k + 1, seen, false⟩ := by
  simp [scanLine, parseSideDivider_of hk hn, sideRef_ne_deleted h, isSideRef_iff.mpr h]

theorem scanLine_base {n : ℕ} {ref : Bytes} (h : SideRef ref) :
    scanLine n ⟨2, false, false⟩ (basePrefix ++ ref) = some ⟨2, true, false⟩ := by
  have hdivider : parseSideDivider (basePrefix ++ ref) = none := rfl
  simp [scanLine, hdivider, isPrefixOf?_append, isSideRef_iff.mpr h]

theorem completes_content {n : ℕ} {st : MarkerScan} {content rest : List Bytes}
    (hst : st.deletedSeen = false) (h : ∀ l ∈ content, ContentLine l) :
    Completes n st (content ++ rest) ↔ Completes n st rest := by
  induction content with
  | nil => rw [List.nil_append]
  | cons l content ih =>
      obtain ⟨hl, hcontent⟩ := List.forall_mem_cons.mp h
      rw [List.cons_append, completes_cons, scanLine_content hst hl]
      constructor
      · rintro ⟨mid, hmid, hrest⟩
        obtain rfl := Option.some.inj hmid
        exact (ih hcontent).mp hrest
      · intro hrest
        exact ⟨st, rfl, (ih hcontent).mpr hrest⟩

theorem SideBlocks.le {n k : ℕ} {ls : List Bytes} (h : SideBlocks n k ls) : k ≤ n + 1 := by
  cases h with
  | done => exact le_rfl
  | side hk => exact hk.trans (Nat.le_succ n)
  | deleted => exact Nat.le_succ n

/-- The sides from `k` on complete the scan, whatever has been seen before. -/
theorem SideBlocks.completes {n k : ℕ} {ls : List Bytes} (hn : n < 1000000)
    (h : SideBlocks n k ls) (seen : Bool) : Completes n ⟨k, seen, false⟩ ls := by
  induction h with
  | done => exact completes_nil.mpr rfl
  | side hk href hcontent _ ih =>
      refine completes_cons.mpr ⟨_, scanLine_ref (lt_of_le_of_lt hk hn) hn href, ?_⟩
      exact (completes_content rfl hcontent).mpr ih
  | deleted => exact completes_cons.mpr ⟨_, scanLine_deleted hn seen, completes_nil.mpr rfl⟩

/-- Behind a deleted side nothing but the closer stands. -/
theorem completes_deleted {n k : ℕ} {seen : Bool} {ls : List Bytes}
    (h : Completes n ⟨k, seen, true⟩ ls) : ls = [] := by
  cases ls with
  | nil => rfl
  | cons l ls =>
      obtain ⟨mid, hmid, -⟩ := completes_cons.mp h
      cases hmid

/-- Where no base reference may stand, content and the sides from `k` on are all
that completes the scan. -/
theorem sideBlocks_of_completes {n k : ℕ} {seen : Bool} {ls : List Bytes} (hk : 2 ≤ k)
    (hseen : seen = true ∨ 3 ≤ k) (h : Completes n ⟨k, seen, false⟩ ls) :
    ∃ content rest, ls = content ++ rest ∧ (∀ l ∈ content, ContentLine l) ∧
      SideBlocks n k rest := by
  induction ls generalizing k with
  | nil =>
      obtain rfl : k = n + 1 := completes_nil.mp h
      exact ⟨[], [], rfl, by simp, .done⟩
  | cons l ls ih =>
      obtain ⟨mid, hmid, hrest⟩ := completes_cons.mp h
      cases Scans.of_scanLine hmid with
      | deleted hlast hline =>
          obtain rfl := completes_deleted hrest
          subst hlast hline
          exact ⟨[], _, rfl, by simp, .deleted⟩
      | side hline href =>
          obtain ⟨content, rest, rfl, hcontent, hsides⟩ := ih (by omega) (.inr (by omega)) hrest
          have hle := hsides.le
          subst hline
          exact ⟨[], _, rfl, by simp, .side (by omega) href hcontent hsides⟩
      | base _ _ hfalse htwo =>
          rcases hseen with htrue | hthree
          · rw [hfalse] at htrue
            cases htrue
          · omega
      | content hline =>
          obtain ⟨content, rest, rfl, hcontent, hsides⟩ := ih hk hseen hrest
          exact ⟨l :: content, rest, rfl, List.forall_mem_cons.mpr ⟨hline, hcontent⟩, hsides⟩

theorem FirstBlock.cons {l : Bytes} {first : List Bytes} (hl : ContentLine l)
    (h : FirstBlock first) : FirstBlock (l :: first) := by
  cases h with
  | plain hcontent => exact .plain (List.forall_mem_cons.mpr ⟨hl, hcontent⟩)
  | based hcontent href hbase =>
      exact .based (List.forall_mem_cons.mpr ⟨hl, hcontent⟩) href hbase

/-- What stands between the opener and the closer. -/
theorem completes_iff {n : ℕ} {ls : List Bytes} (hn : n < 1000000) :
    Completes n ⟨2, false, false⟩ ls ↔
      ∃ first later, ls = first ++ later ∧ FirstBlock first ∧ SideBlocks n 2 later := by
  constructor
  · intro h
    induction ls with
    | nil =>
        obtain rfl : 1 = n := Nat.succ.inj (completes_nil.mp h)
        exact ⟨[], [], rfl, .plain (by simp), .done⟩
    | cons l ls ih =>
        obtain ⟨mid, hmid, hrest⟩ := completes_cons.mp h
        cases Scans.of_scanLine hmid with
        | deleted hlast hline =>
            obtain rfl := completes_deleted hrest
            subst hlast hline
            exact ⟨[], _, rfl, .plain (by simp), .deleted⟩
        | side hline href =>
            obtain ⟨content, rest, rfl, hcontent, hsides⟩ :=
              sideBlocks_of_completes (by decide) (.inr (by decide)) hrest
            have hle := hsides.le
            subst hline
            exact ⟨[], _, rfl, .plain (by simp), .side (by omega) href hcontent hsides⟩
        | base hline href =>
            obtain ⟨content, rest, rfl, hcontent, hsides⟩ :=
              sideBlocks_of_completes (by decide) (.inl rfl) hrest
            subst hline
            exact ⟨_, rest, rfl, @FirstBlock.based [] _ _ (by simp) href hcontent, hsides⟩
        | content hline =>
            obtain ⟨first, later, rfl, hfirst, hlater⟩ := ih hrest
            exact ⟨l :: first, later, rfl, hfirst.cons hline, hlater⟩
  · rintro ⟨first, later, rfl, hfirst, hlater⟩
    cases hfirst with
    | plain hcontent => exact (completes_content rfl hcontent).mpr (hlater.completes hn false)
    | based hcontent href hbase =>
        rw [List.append_assoc, completes_content rfl hcontent, List.cons_append, completes_cons]
        refine ⟨_, scanLine_base href, ?_⟩
        exact (completes_content rfl hbase).mpr (hlater.completes hn true)

theorem markerShaped_iff {bytes : Bytes} :
    markerShaped bytes = true ↔ ∃ n, MarkerFile n bytes := by
  rw [markerShaped, Bool.and_eq_true, isUtf8_iff]
  constructor
  · rintro ⟨htext, h⟩
    split at h
    next => cases h
    next opener middle hlines =>
      split at h
      next => cases h
      next n ref hopener =>
        rw [Bool.and_eq_true, Bool.and_eq_true, Option.any_eq_true, Option.any_eq_true] at h
        obtain ⟨⟨href, last, hlast, hcloser⟩, st, hscan, hside⟩ := h
        obtain ⟨hleast, hmost, rfl⟩ := parseOpener_iff.mp hopener
        obtain ⟨path, hpath, rfl⟩ := isCloser_iff.mp hcloser
        obtain ⟨first, later, hparts, hfirst, hlater⟩ :=
          (completes_iff (lt_of_le_of_lt hmost (by decide))).mp ⟨st, hscan, of_decide_eq_true hside⟩
        refine ⟨n, hleast, hmost, htext, ref, first, later, path, isSideRef_iff.mp href, hfirst,
          hlater, hpath, ?_⟩
        rw [hlines, ← hparts, List.dropLast_append_getLast? _ hlast]
  · rintro ⟨n, hleast, hmost, htext, ref, first, later, path, href, hfirst, hlater, hpath, hlines⟩
    have hn : n < 1000000 := lt_of_le_of_lt hmost (by decide)
    obtain ⟨st, hscan, hside⟩ := (completes_iff hn).mpr ⟨first, later, rfl, hfirst, hlater⟩
    have hcloser : isCloser (closerPrefix ++ path) = true := isCloser_iff.mpr ⟨path, hpath, rfl⟩
    refine ⟨htext, ?_⟩
    simp only [hlines, parseOpener_iff.mpr ⟨hleast, hmost, rfl⟩, isSideRef_iff.mpr href,
      List.getLast?_concat, List.dropLast_concat, Option.any_some, hcloser, hscan, hside,
      decide_true, Bool.and_self]

/-! ### The counter as a machine word -/

/-- The widths of a `usize`. -/
inductive UsizeWidth
  | bits32
  | bits64

def UsizeWidth.max : UsizeWidth → ℕ
  | .bits32 => 2 ^ 32 - 1
  | .bits64 => 2 ^ 64 - 1

/-- The loop of `marker_shaped`, where a counter past the largest `usize` is a
panic. -/
def scanIn (w : UsizeWidth) (n : ℕ) : MarkerScan → List Bytes → Option (Option MarkerScan)
  | st, [] => some (some st)
  | st, line :: rest =>
      match scanLine n st line with
      | none => some none
      | some st' => if st'.expectedSide ≤ w.max then scanIn w n st' rest else none

/-- `marker_shaped`, `none` where it panics. The decimals it reads have six digits
at most, the lines come from iterators and `pop`, and no other index is taken. -/
def markerShapedIn (w : UsizeWidth) (bytes : Bytes) : Option Bool :=
  if ¬isUtf8 bytes then some false
  else match lines bytes with
    | [] => some false
    | first :: middle =>
        match parseOpener first with
        | none => some false
        | some (n, ref) =>
            if ¬isSideRef ref ∨ ¬middle.getLast?.any isCloser then some false
            else match scanIn w n ⟨2, false, false⟩ middle.dropLast with
              | none => none
              | some none => some false
              | some (some st) =>
                  if n + 1 ≤ w.max then some (decide (st.expectedSide = n + 1)) else none

/-- The counter moves on behind a divider of its number, and that has six
digits. -/
theorem scanLine_bound {n : ℕ} {st st' : MarkerScan} {line : Bytes}
    (h : scanLine n st line = some st') (hst : st.expectedSide ≤ 1000000) :
    st'.expectedSide ≤ 1000000 := by
  rw [scanLine] at h
  split_ifs at h
  split at h
  next k n' ref hparse =>
    obtain ⟨hk, -, -⟩ := parseSideDivider_iff.mp hparse
    split_ifs at h with hbad
    all_goals
      rw [not_or, not_not] at hbad
      obtain rfl := Option.some.inj h
      have hsix : st.expectedSide < 1000000 := hbad.1 ▸ hk
      exact hsix
  next hparse =>
    split at h
    next ref hbase =>
      split_ifs at h
      exact Option.some.inj h ▸ hst
    next hbase => exact Option.some.inj h ▸ hst

theorem scanIn_eq {n : ℕ} {st : MarkerScan} {ls : List Bytes} (w : UsizeWidth)
    (hst : st.expectedSide ≤ 1000000) : scanIn w n st ls = some (ls.foldlM (scanLine n) st) := by
  have hmax : 1000000 ≤ w.max := by cases w <;> decide
  induction ls generalizing st with
  | nil => rfl
  | cons line rest ih =>
      rw [scanIn, List.foldlM_cons]
      cases hline : scanLine n st line with
      | none => rfl
      | some st' =>
          have hbound := scanLine_bound hline hst
          dsimp only
          rw [if_pos (hbound.trans hmax), ih hbound]
          rfl

/-- No input makes the detector panic, and it takes exactly the files of the
grammar. -/
theorem markerShaped_grammar (w : UsizeWidth) (bytes : Bytes) :
    markerShapedIn w bytes = some (markerShaped bytes) ∧
      (markerShaped bytes = true ↔ ∃ n, MarkerFile n bytes) := by
  refine ⟨?_, markerShaped_iff⟩
  rw [markerShapedIn, markerShaped]
  cases isUtf8 bytes with
  | false => rfl
  | true =>
      rw [if_neg (by decide), Bool.true_and]
      cases lines bytes with
      | nil => rfl
      | cons first middle =>
          dsimp only
          cases hopener : parseOpener first with
          | none => rfl
          | some read =>
              obtain ⟨n, ref⟩ := read
              obtain ⟨-, hmost, -⟩ := parseOpener_iff.mp hopener
              have hroom : n + 1 ≤ w.max := by
                have hle : maxEntries + 1 ≤ w.max := by cases w <;> decide
                exact (Nat.succ_le_succ hmost).trans hle
              dsimp only
              rw [scanIn_eq w (by decide)]
              cases isSideRef ref <;> cases middle.getLast?.any isCloser <;> try rfl
              rw [if_neg (by decide)]
              cases middle.dropLast.foldlM (scanLine n) ⟨2, false, false⟩ with
              | none => rfl
              | some st => simp only [if_pos hroom, Bool.and_self, Bool.true_and, Option.any_some]

/-! ### The screen -/

/-- `MARKER_PREFIX_BYTES`. -/
def markerPrefixBytes : ℕ := 128

/-- `marker_opener`. -/
def markerOpener (front : Bytes) : Bool :=
  match front.findIdx? (fun b => decide (b = 10)) with
  | none => false
  | some stop =>
      let line := stripCr (front.take stop)
      isUtf8 line && (parseOpener line).any fun (_, ref) => isSideRef ref

/-- A text of several lines has the first one ended, with a carriage return or
without. -/
theorem lines_split {bytes line next : Bytes} {rest : List Bytes}
    (h : lines bytes = line :: next :: rest) :
    ∃ raw after, bytes = raw ++ 10 :: after ∧ 10 ∉ raw ∧ line = stripCr raw := by
  have hscan : ∀ (bytes start : Bytes), 10 ∉ start → linesFrom start bytes = line :: next :: rest →
      ∃ raw after, start ++ bytes = raw ++ 10 :: after ∧ 10 ∉ raw ∧ line = stripCr raw := by
    intro bytes
    induction bytes with
    | nil =>
        intro start _ hlines
        rw [linesFrom] at hlines
        split_ifs at hlines
        cases hlines
    | cons b bytes ih =>
        intro start hstart hlines
        rw [linesFrom] at hlines
        split_ifs at hlines with hb
        · exact ⟨start, bytes, by rw [hb], hstart, (List.cons.inj hlines).1.symm⟩
        · have hmem : 10 ∉ start ++ [b] := by
            rw [List.mem_append, List.mem_singleton, not_or]
            exact ⟨hstart, Ne.symm hb⟩
          obtain ⟨raw, after, hsplit, hraw, hline⟩ := ih _ hmem hlines
          exact ⟨raw, after, by rw [← hsplit, List.append_assoc, List.singleton_append], hraw, hline⟩
  obtain ⟨raw, after, hsplit, hraw, hline⟩ := hscan bytes [] List.not_mem_nil h
  exact ⟨raw, after, by rw [← hsplit, List.nil_append], hraw, hline⟩

theorem length_stripCr (raw : Bytes) : raw.length ≤ (stripCr raw).length + 1 := by
  rw [stripCr]
  split_ifs
  · rw [List.length_dropLast]
    omega
  · exact Nat.le_succ _

/-- An opener fits the screen, its line end included. -/
theorem length_openerTextOf {n : ℕ} {ref : Bytes} (hn : n < 1000000) (href : SideRef ref) :
    (openerTextOf n ref).length ≤ 97 := by
  obtain ⟨hex, exec, rfl, hlen, -⟩ := href
  have hdec : (decText n).length ≤ 6 := by
    rw [decText_eq, (digits_bytes (toDigits_digit n)).1]
    exact (Nat.length_toDigits_le_iff (by decide) (by decide)).mpr hn
  have htoken : (utf8 (execToken exec)).length ≤ 3 := by cases exec <;> decide
  have hfront : openerPrefix.length = 22 := by decide
  have hcolon : (utf8 ": ").length = 2 := by decide
  simp only [openerTextOf, List.length_append, hfront, hcolon, hlen]
  omega

theorem encoded_stripCr {raw : Bytes} (h : Lib.Encoded raw) : Lib.Encoded (stripCr raw) := by
  rw [stripCr]
  split_ifs with hcr
  · rw [← List.dropLast_append_getLast? _ hcr] at h
    exact (Lib.encoded_split (by decide) h).1
  · exact h

/-- What the detector takes, the screen on its first bytes lets through: the longest
opener is shorter than the screen. -/
theorem markerOpener_sound {bytes : Bytes} (h : markerShaped bytes = true) :
    markerOpener (bytes.take (min markerPrefixBytes bytes.length)) = true := by
  obtain ⟨n, hleast, hmost, htext, ref, first, later, path, href, -, -, -, hlines⟩ :=
    markerShaped_iff.mp h
  have hn : n < 1000000 := lt_of_le_of_lt hmost (by decide)
  obtain ⟨next, rest, hmore⟩ : ∃ next rest, first ++ later ++ [closerPrefix ++ path] = next :: rest := by
    cases hcons : first ++ later ++ [closerPrefix ++ path] with
    | nil => simp at hcons
    | cons next rest => exact ⟨next, rest, rfl⟩
  rw [hmore] at hlines
  obtain ⟨raw, after, rfl, hraw, hline⟩ := lines_split hlines
  have hshort : raw.length + 1 ≤ markerPrefixBytes := by
    have hstrip := length_stripCr raw
    have hopener := length_openerTextOf hn href
    rw [← hline] at hstrip
    have hscreen : markerPrefixBytes = 128 := rfl
    omega
  -- the screen holds the first line and its line end
  have hfront : (raw ++ 10 :: after).take (min markerPrefixBytes (raw ++ 10 :: after).length) =
      raw ++ 10 :: after.take (markerPrefixBytes - (raw.length + 1)) := by
    rw [← List.take_eq_take_min, List.take_append, List.take_of_length_le (by omega),
      ← Nat.sub_sub, ← List.take_succ_cons, Nat.sub_add_cancel (by omega)]
  have hstop : (raw ++ 10 :: after.take (markerPrefixBytes - (raw.length + 1))).findIdx?
      (fun b => decide (b = 10)) = some raw.length := by
    have hnone : raw.findIdx? (fun b => decide (b = 10)) = none := by
      rw [List.findIdx?_eq_none_iff]
      rintro b hb
      exact decide_eq_false fun hlf => hraw (hlf ▸ hb)
    rw [List.findIdx?_append, hnone]
    simp [List.findIdx?_cons]
  have hencoded := encoded_stripCr (Lib.encoded_split (by decide) htext).1
  rw [← hline] at hencoded
  rw [hfront, markerOpener, hstop]
  simp only [List.take_left, ← hline]
  rw [isUtf8_iff.mpr hencoded, parseOpener_iff.mpr ⟨hleast, hmost, rfl⟩]
  exact isSideRef_iff.mpr href

/-- An executable file against its deletion, with a carriage return behind the
opener. -/
def deletedMarker : Bytes :=
  utf8 ("<<<<<<< naatre side 1/2: " ++ String.ofList (List.replicate 64 'a') ++
    " +x\r\nold\n======= naatre side 2/2: deleted\n>>>>>>> naatre conflict: f\n")

theorem markerOpener_sound_deleted :
    markerOpener (deletedMarker.take (min markerPrefixBytes deletedMarker.length)) = true :=
  markerOpener_sound (by decide +kernel)

end Naatre
