import Naatre.Core.Conflict
import Naatre.Lib.Utf8

/-!
The marker detector (`marker_shaped` and its line parsers in
`naatre-core/src/conflict.rs`), and which renderings of `marker_bytes` it
accepts. It works on a text; every delimiter is ASCII, so the model cuts the
bytes.
-/

namespace Naatre

/-! ### Lines -/

/-- A carriage return before a line feed belongs to the line end. -/
def stripCr (line : Bytes) : Bytes := if line.getLast? = some 13 then line.dropLast else line

/-- `str::lines`, past the part `line` of the line it is in. -/
def linesFrom : Bytes → Bytes → List Bytes
  | line, [] => if line = [] then [] else [line]
  | line, b :: rest =>
      if b = 10 then stripCr line :: linesFrom [] rest else linesFrom (line ++ [b]) rest

def lines (text : Bytes) : List Bytes := linesFrom [] text

/-! ### The line parsers -/

def openerPrefix : Bytes := utf8 "<<<<<<< naatre side 1/"
def dividerPrefix : Bytes := utf8 "======= naatre side "
def basePrefix : Bytes := utf8 "||||||| naatre base: "
def closerPrefix : Bytes := utf8 ">>>>>>> naatre conflict: "

/-- `split_once`. -/
def splitOnce (sep : Bytes) : Bytes → Option (Bytes × Bytes)
  | [] => if sep = [] then some ([], []) else none
  | b :: rest =>
      match sep.isPrefixOf? (b :: rest) with
      | some after => some ([], after)
      | none => (splitOnce sep rest).map fun (before, after) => (b :: before, after)

def isDigit (b : UInt8) : Bool := decide (48 ≤ b) && decide (b ≤ 57)

/-- `parse_canonical_decimal`. -/
def parseCanonicalDecimal (s : Bytes) : Option ℕ :=
  if s = [] ∨ 6 < s.length ∨ ¬ s.all isDigit then none
  else if 1 < s.length ∧ s.head? = some 48 then none
  else some (s.foldl (fun n b => 10 * n + (b.toNat - 48)) 0)

/-- `parse_opener`. -/
def parseOpener (line : Bytes) : Option (ℕ × Bytes) := do
  let rest ← openerPrefix.isPrefixOf? line
  let (n, ref) ← splitOnce (utf8 ": ") rest
  let n ← parseCanonicalDecimal n
  if 2 ≤ n ∧ n ≤ maxEntries then some (n, ref) else none

/-- `parse_side_divider`. -/
def parseSideDivider (line : Bytes) : Option (ℕ × ℕ × Bytes) := do
  let rest ← dividerPrefix.isPrefixOf? line
  let (kn, ref) ← splitOnce (utf8 ": ") rest
  let (k, n) ← splitOnce (utf8 "/") kn
  pure (← parseCanonicalDecimal k, ← parseCanonicalDecimal n, ref)

/-- An ASCII hex digit that is no capital letter. -/
def isLowerHex (b : UInt8) : Bool := isDigit b || (decide (97 ≤ b) && decide (b ≤ 102))

/-- `is_blob_hex`. -/
def isBlobHex (ref : Bytes) : Bool := decide (ref.length = 64) && ref.all isLowerHex

/-- `is_side_ref`. -/
def isSideRef (field : Bytes) : Bool :=
  let token := utf8 (execToken true)
  isBlobHex (if token.isSuffixOf field then field.take (field.length - token.length) else field)

/-! ### The scanner -/

structure MarkerScan where
  expectedSide : ℕ
  baseLineSeen : Bool
  deletedSeen : Bool
  deriving DecidableEq

/-- One line between the opener and the closer. -/
def scanLine (n : ℕ) (st : MarkerScan) (line : Bytes) : Option MarkerScan :=
  if st.deletedSeen then none
  else match parseSideDivider line with
    | some (k, nLine, ref) =>
        if k ≠ st.expectedSide ∨ nLine ≠ n then none
        else if ref = utf8 "deleted" then
          if k ≠ n then none
          else some { st with expectedSide := st.expectedSide + 1, deletedSeen := true }
        else if isSideRef ref then some { st with expectedSide := st.expectedSide + 1 }
        else none
    | none =>
        match basePrefix.isPrefixOf? line with
        | some ref =>
            if st.baseLineSeen ∨ st.expectedSide ≠ 2 ∨ ¬ isSideRef ref then none
            else some { st with baseLineSeen := true }
        | none => some st

/-- The closer names a path. -/
def isCloser (line : Bytes) : Bool :=
  (closerPrefix.isPrefixOf? line).any (fun path => decide (path ≠ []))

/-- `marker_shaped`. -/
def markerShaped (bytes : Bytes) : Bool :=
  isUtf8 bytes && match lines bytes with
    | [] => false
    | first :: middle =>
        match parseOpener first with
        | none => false
        | some (n, ref) =>
            isSideRef ref && middle.getLast?.any isCloser &&
              (middle.dropLast.foldlM (scanLine n) ⟨2, false, false⟩).any
                (fun st => decide (st.expectedSide = n + 1))

/-! ### Lines of a rendering -/

/-- A block whose last line is ended. -/
def Closed (b : Bytes) : Prop := b = [] ∨ b.getLast? = some 10

theorem linesFrom_append {a : Bytes} (ha : a.getLast? = some 10) (line b : Bytes) :
    linesFrom line (a ++ b) = linesFrom line a ++ lines b := by
  induction a generalizing line with
  | nil => cases ha
  | cons x a ih =>
      rw [List.cons_append, linesFrom, linesFrom]
      cases a with
      | nil =>
          obtain rfl : x = 10 := by simpa using ha
          simp [linesFrom, lines]
      | cons y a =>
          have hlast : (y :: a).getLast? = some 10 := by simpa using ha
          split_ifs
          · rw [ih hlast, List.cons_append]
          · exact ih hlast _

theorem lines_append {a : Bytes} (ha : Closed a) (b : Bytes) : lines (a ++ b) = lines a ++ lines b := by
  rcases ha with rfl | ha
  · rfl
  · exact linesFrom_append ha [] b

theorem linesFrom_line {l : Bytes} (hlf : 10 ∉ l) (line : Bytes) :
    linesFrom line (l ++ [10]) = [stripCr (line ++ l)] := by
  induction l generalizing line with
  | nil => simp [linesFrom]
  | cons x l ih =>
      rw [List.mem_cons, not_or] at hlf
      rw [List.cons_append, linesFrom, if_neg (Ne.symm hlf.1), ih hlf.2, List.append_assoc,
        List.singleton_append]

/-- Text that a line can consist of. -/
def Inline (l : Bytes) : Prop := 10 ∉ l ∧ 13 ∉ l

theorem lines_line {l : Bytes} (h : Inline l) : lines (l ++ [10]) = [l] := by
  have hcr : l.getLast? ≠ some 13 := fun hlast => h.2 (List.mem_of_getLast? hlast)
  rw [lines, linesFrom_line h.1, List.nil_append, stripCr, if_neg hcr]

theorem closed_line (l : Bytes) : Closed (l ++ [10]) := .inr (by simp)

theorem closed_append {a b : Bytes} (ha : Closed a) (hb : Closed b) : Closed (a ++ b) := by
  rcases hb with rfl | hb
  · rwa [List.append_nil]
  · exact .inr (by rw [List.getLast?_append, hb, Option.some_or])

theorem closed_pushBlock (content : Bytes) : Closed (pushBlock content) := by
  rw [pushBlock]
  split_ifs with h
  · exact closed_line content
  · rw [not_and_or, not_not, not_not] at h
    exact h

/-- The lines a content block shows. -/
def blockLines (content : Bytes) : List Bytes := lines (pushBlock content)

/-! ### What the scanner passes over -/

/-- The references the base lines among some lines name. -/
def baseRefs (ls : List Bytes) : List Bytes := ls.filterMap (basePrefix.isPrefixOf? ·)

theorem scanLine_expected {n : ℕ} {st st' : MarkerScan} {line : Bytes}
    (h : scanLine n st line = some st') : st.expectedSide ≤ st'.expectedSide := by
  unfold scanLine at h
  split_ifs at h
  split at h
  · split_ifs at h
    all_goals
      obtain rfl := Option.some.inj h
      exact Nat.le_succ _
  · split at h
    · split_ifs at h
      obtain rfl := Option.some.inj h
      exact le_rfl
    · exact (Option.some.inj h) ▸ le_rfl

theorem scan_expected {n : ℕ} {ls : List Bytes} {st st' : MarkerScan}
    (h : ls.foldlM (scanLine n) st = some st') : st.expectedSide ≤ st'.expectedSide := by
  induction ls generalizing st with
  | nil => exact (Option.some.inj h) ▸ le_rfl
  | cons l ls ih =>
      rw [List.foldlM_cons, Option.bind_eq_bind, Option.bind_eq_some_iff] at h
      obtain ⟨mid, hline, hrest⟩ := h
      exact (scanLine_expected hline).trans (ih hrest)

/-- A line that opens no side: content, or the base line of side 1. -/
theorem scanLine_same {n : ℕ} {st st' : MarkerScan} {line : Bytes} (hst : st.deletedSeen = false) :
    scanLine n st line = some st' ∧ st'.expectedSide = st.expectedSide ↔
      parseSideDivider line = none ∧
        (basePrefix.isPrefixOf? line = none ∧ st' = st ∨
          ∃ ref, basePrefix.isPrefixOf? line = some ref ∧ isSideRef ref = true ∧
            st.baseLineSeen = false ∧ st.expectedSide = 2 ∧
            st' = { st with baseLineSeen := true }) := by
  constructor
  · rintro ⟨h, hsame⟩
    unfold scanLine at h
    rw [if_neg (by simp [hst])] at h
    split at h
    · -- a divider moves on to the next side
      split_ifs at h
      all_goals
        obtain rfl := Option.some.inj h
        exact absurd hsame (Nat.succ_ne_self _)
    next hdivider =>
      refine ⟨hdivider, ?_⟩
      split at h
      next ref href =>
        split_ifs at h with hok
        simp only [not_or, not_not, Bool.not_eq_true, Bool.not_eq_false] at hok
        obtain ⟨hseen, hside, hvalid⟩ := hok
        exact .inr ⟨ref, href, hvalid, hseen, hside, (Option.some.inj h).symm⟩
      next href => exact .inl ⟨href, (Option.some.inj h).symm⟩
  · rintro ⟨hdivider, ⟨hbase, rfl⟩ | ⟨ref, hbase, hvalid, hseen, hside, rfl⟩⟩
    · simp [scanLine, hst, hdivider, hbase]
    · simp [scanLine, hst, hdivider, hbase, hvalid, hseen, hside]

/-- Lines that open no side: none is a divider, and at most one is a base line,
in side 1 and ahead of any other. -/
theorem scan_same {n : ℕ} {ls : List Bytes} {st st' : MarkerScan} (hst : st.deletedSeen = false) :
    ls.foldlM (scanLine n) st = some st' ∧ st'.expectedSide = st.expectedSide ↔
      (∀ l ∈ ls, parseSideDivider l = none) ∧
        (baseRefs ls = [] ∧ st' = st ∨
          ∃ ref, baseRefs ls = [ref] ∧ isSideRef ref = true ∧ st.baseLineSeen = false ∧
            st.expectedSide = 2 ∧ st' = { st with baseLineSeen := true }) := by
  induction ls generalizing st with
  | nil =>
      simp only [List.foldlM_nil, List.not_mem_nil, false_implies, implies_true, true_and, baseRefs,
        List.filterMap_nil, List.ne_cons_self, false_and, exists_false, or_false]
      constructor
      · rintro ⟨h, -⟩
        exact (Option.some.inj h).symm
      · rintro rfl
        exact ⟨rfl, rfl⟩
  | cons l ls ih =>
      rw [List.foldlM_cons, Option.bind_eq_bind, Option.bind_eq_some_iff, List.forall_mem_cons]
      constructor
      · rintro ⟨⟨mid, hline, hrest⟩, hsame⟩
        have hmid : mid.expectedSide = st.expectedSide :=
          le_antisymm (hsame ▸ scan_expected hrest) (scanLine_expected hline)
        obtain ⟨hdivider, hbase⟩ := (scanLine_same hst).mp ⟨hline, hmid⟩
        have hdel : mid.deletedSeen = false := by
          rcases hbase with ⟨-, rfl⟩ | ⟨-, -, -, -, -, rfl⟩ <;> exact hst
        obtain ⟨hdividers, hbases⟩ := (ih hdel).mp ⟨hrest, hsame.trans hmid.symm⟩
        refine ⟨⟨hdivider, hdividers⟩, ?_⟩
        rcases hbase with ⟨hnone, rfl⟩ | ⟨ref, href, hvalid, hseen, hside, rfl⟩
        · rw [baseRefs, List.filterMap_cons_none hnone]
          exact hbases
        · rcases hbases with ⟨hnil, rfl⟩ | ⟨-, -, -, htwice, -, -⟩
          · refine .inr ⟨ref, ?_, hvalid, hseen, hside, rfl⟩
            rw [baseRefs, List.filterMap_cons_some href]
            exact congrArg _ hnil
          · cases htwice
      · rintro ⟨⟨hdivider, hdividers⟩, hbases⟩
        cases hpre : basePrefix.isPrefixOf? l with
        | none =>
            rw [baseRefs, List.filterMap_cons_none hpre] at hbases
            obtain ⟨hrest, hsame⟩ := (ih hst).mpr ⟨hdividers, hbases⟩
            exact ⟨⟨st, ((scanLine_same hst).mpr ⟨hdivider, .inl ⟨hpre, rfl⟩⟩).1, hrest⟩, hsame⟩
        | some ref =>
            rw [baseRefs, List.filterMap_cons_some hpre] at hbases
            rcases hbases with ⟨hnil, -⟩ | ⟨ref', hone, hvalid, hseen, hside, rfl⟩
            · cases hnil
            · obtain ⟨rfl, hnil⟩ := List.cons.inj hone
              have hline := (scanLine_same (n := n) hst).mpr
                ⟨hdivider, .inr ⟨ref, hpre, hvalid, hseen, hside, rfl⟩⟩
              have hseenDel : { st with baseLineSeen := true }.deletedSeen = false := hst
              have hrest := (ih hseenDel).mpr ⟨hdividers, .inl ⟨hnil, rfl⟩⟩
              exact ⟨⟨_, hline.1, hrest.1⟩, rfl⟩

/-- A divider of side 2 in the middle of a two-sided rendering. -/
structure SecondDivider (line : Bytes) (deleted : Bool) : Prop where
  inside : ∀ st : MarkerScan, st.deletedSeen = false → st.expectedSide = 2 →
    scanLine 2 st line = some { st with expectedSide := 3, deletedSeen := deleted }
  outside : ∀ st : MarkerScan, st.expectedSide ≠ 2 → scanLine 2 st line = none

/-- The middle of a two-sided rendering scans exactly when nothing in it opens
a side but the divider, and base lines stand at most once, before it. -/
theorem scan_middle {divider : Bytes} {deleted : Bool} (hdivider : SecondDivider divider deleted)
    {side1 side2 : List Bytes} (hside2 : deleted = true → side2 = []) :
    (∃ st, (side1 ++ divider :: side2).foldlM (scanLine 2) ⟨2, false, false⟩ = some st ∧
        st.expectedSide = 3) ↔
      ((∀ l ∈ side1, parseSideDivider l = none) ∧
        (baseRefs side1 = [] ∨ ∃ ref, baseRefs side1 = [ref] ∧ isSideRef ref = true)) ∧
      (∀ l ∈ side2, parseSideDivider l = none) ∧ baseRefs side2 = [] := by
  simp only [List.foldlM_append, List.foldlM_cons, Option.bind_eq_bind, Option.bind_eq_some_iff]
  constructor
  · rintro ⟨st, ⟨mid, hmid, next, hnext, hrest⟩, hthree⟩
    have htwo : mid.expectedSide = 2 := by
      by_contra hne
      rw [hdivider.outside mid hne] at hnext
      cases hnext
    obtain ⟨hdividers, hbases⟩ := (scan_same rfl).mp ⟨hmid, htwo⟩
    have hmidDel : mid.deletedSeen = false := by
      rcases hbases with ⟨-, rfl⟩ | ⟨-, -, -, -, -, rfl⟩ <;> rfl
    rw [hdivider.inside mid hmidDel htwo] at hnext
    obtain rfl := Option.some.inj hnext
    refine ⟨⟨hdividers, ?_⟩, ?_⟩
    · rcases hbases with ⟨hnil, -⟩ | ⟨ref, hone, hvalid, -⟩
      · exact .inl hnil
      · exact .inr ⟨ref, hone, hvalid⟩
    · cases deleted with
      | true =>
          rw [hside2 rfl]
          exact ⟨fun l hl => absurd hl List.not_mem_nil, rfl⟩
      | false =>
          obtain ⟨hdividers2, ⟨hnil, -⟩ | ⟨-, -, -, -, himpossible, -⟩⟩ :=
            (scan_same rfl).mp ⟨hrest, hthree⟩
          · exact ⟨hdividers2, hnil⟩
          · cases himpossible
  · rintro ⟨⟨hdividers, hbases⟩, hdividers2, hnil2⟩
    obtain ⟨mid, hmid, htwo, hmidDel⟩ : ∃ mid, side1.foldlM (scanLine 2) ⟨2, false, false⟩ =
        some mid ∧ mid.expectedSide = 2 ∧ mid.deletedSeen = false := by
      rcases hbases with hnil | ⟨ref, hone, hvalid⟩
      · exact ⟨_, ((scan_same rfl).mpr ⟨hdividers, .inl ⟨hnil, rfl⟩⟩).1, rfl, rfl⟩
      · exact ⟨_, ((scan_same rfl).mpr ⟨hdividers, .inr ⟨ref, hone, hvalid, rfl, rfl, rfl⟩⟩).1,
          rfl, rfl⟩
    refine ⟨{ mid with expectedSide := 3, deletedSeen := deleted },
      ⟨mid, hmid, _, hdivider.inside mid hmidDel htwo, ?_⟩, rfl⟩
    cases deleted with
    | true => rw [hside2 rfl, List.foldlM_nil]; rfl
    | false => exact ((scan_same rfl).mpr ⟨hdividers2, .inl ⟨hnil2, rfl⟩⟩).1

/-! ### The delimiter lines -/

theorem utf8_append (s t : String) : utf8 (s ++ t) = utf8 s ++ utf8 t := by simp [utf8]

theorem isUtf8_iff {b : Bytes} : isUtf8 b = true ↔ Lib.Encoded b := Lib.encoded_iff

theorem isUtf8_utf8 (s : String) : Lib.Encoded (utf8 s) := ⟨s.toList, rfl⟩

theorem isPrefixOf?_append (p t : Bytes) : p.isPrefixOf? (p ++ t) = some t := by
  induction p with
  | nil => rfl
  | cons b p ih => simp [List.isPrefixOf?, ih]

section

variable {Id : Type} [Platform Id]

/-- `Id::to_hex`: an id renders as 64 lowercase hex digits. -/
class HexIds (Id : Type) [Platform Id] : Prop where
  toHex_hex : ∀ id : Id, isBlobHex (utf8 (Platform.toHex id)) = true

/-- A blob reference as a delimiter line shows it. -/
def refText (id : Id) (exec : Bool) : Bytes := utf8 (Platform.toHex id) ++ utf8 (execToken exec)

theorem isBlobHex_mem {ref : Bytes} (h : isBlobHex ref = true) {b : UInt8} (hb : b ∈ ref) :
    isLowerHex b = true := by
  rw [isBlobHex, Bool.and_eq_true, List.all_eq_true] at h
  exact h.2 b hb

theorem inline_refText [HexIds Id] (id : Id) (exec : Bool) : Inline (refText id exec) := by
  have hhex : ∀ b ∈ utf8 (Platform.toHex id), isLowerHex b = true :=
    fun b hb => isBlobHex_mem (HexIds.toHex_hex id) hb
  have htoken : Inline (utf8 (execToken exec)) := by
    cases exec <;> exact ⟨by decide, by decide⟩
  constructor <;>
  · rw [refText, List.mem_append, not_or]
    refine ⟨fun hmem => ?_, by first | exact htoken.1 | exact htoken.2⟩
    exact absurd (hhex _ hmem) (by decide)

theorem isSideRef_refText [HexIds Id] (id : Id) (exec : Bool) :
    isSideRef (refText id exec) = true := by
  have hhex := HexIds.toHex_hex id
  rw [isSideRef, refText]
  cases exec with
  | true =>
      have hsuffix : (utf8 (execToken true)).isSuffixOf
          (utf8 (Platform.toHex id) ++ utf8 (execToken true)) = true :=
        List.isSuffixOf_iff_suffix.mpr (List.suffix_append _ _)
      simp only [if_pos hsuffix, List.length_append, Nat.add_sub_cancel, List.take_left]
      exact hhex
  | false =>
      have hnone : utf8 (execToken false) = [] := rfl
      have hsuffix : ¬ (utf8 (execToken true)).isSuffixOf (utf8 (Platform.toHex id)) = true := by
        intro hsuffix
        obtain ⟨front, hfront⟩ := List.isSuffixOf_iff_suffix.mp hsuffix
        have hmem : 32 ∈ utf8 (Platform.toHex id) := by
          rw [← hfront]
          exact List.mem_append_right _ (by decide)
        exact absurd (isBlobHex_mem hhex hmem) (by decide)
      simp only [hnone, List.append_nil, if_neg hsuffix]
      exact hhex

/-- The four delimiter lines without their line feed. -/
def openerText (side : Id) (exec : Bool) : Bytes := openerPrefix ++ (utf8 "2: " ++ refText side exec)

def baseText (base : Id) (exec : Bool) : Bytes := basePrefix ++ refText base exec

def sideText (side : Id) (exec : Bool) : Bytes := dividerPrefix ++ (utf8 "2/2: " ++ refText side exec)

def deletedText : Bytes := dividerPrefix ++ (utf8 "2/2: " ++ utf8 "deleted")

def closerText (p : Path) : Bytes := closerPrefix ++ utf8 p.text

/-- `format!` with one trailing line feed. -/
theorem utf8_lf : utf8 "\n" = [10] := rfl

theorem toString_two : toString 2 = "2" := rfl

theorem openerLine_eq (side : Id) (exec : Bool) :
    openerLine 2 side exec = openerText side exec ++ [10] := by
  simp only [openerLine, openerText, refText, openerPrefix, utf8_append, List.append_assoc,
    toString_two, utf8_lf]
  rfl

theorem baseLine_eq (base : Id) (exec : Bool) : baseLine base exec = baseText base exec ++ [10] := by
  simp only [baseLine, baseText, refText, basePrefix, utf8_append, List.append_assoc, utf8_lf]

theorem sideLine_eq (side : Id) (exec : Bool) :
    sideLine 2 2 side exec = sideText side exec ++ [10] := by
  simp only [sideLine, sideText, refText, dividerPrefix, utf8_append, List.append_assoc,
    toString_two, utf8_lf]
  rfl

theorem deletedLine_eq : deletedLine 2 = deletedText ++ [10] := rfl

omit [Platform Id] in
theorem closerLine_eq (p : Path) : closerLine p = closerText p ++ [10] := by
  simp only [closerLine, closerText, closerPrefix, utf8_append, List.append_assoc, utf8_lf]

theorem Inline.append {a b : Bytes} (ha : Inline a) (hb : Inline b) : Inline (a ++ b) := by
  simp only [Inline, List.mem_append, not_or]
  exact ⟨⟨ha.1, hb.1⟩, ha.2, hb.2⟩

/-- What the delimiter lines parse as. -/
theorem parseOpener_openerText (side : Id) (exec : Bool) :
    parseOpener (openerText side exec) = some (2, refText side exec) := by
  have hcut : splitOnce (utf8 ": ") (utf8 "2: " ++ refText side exec) =
      some ([50], refText side exec) := by
    have hbytes : utf8 "2: " = [50, 58, 32] ∧ utf8 ": " = [58, 32] := ⟨rfl, rfl⟩
    simp [hbytes, splitOnce, List.isPrefixOf?]
  have hnum : parseCanonicalDecimal [50] = some 2 := rfl
  have hcap : 2 ≤ maxEntries := by decide
  simp [parseOpener, openerText, isPrefixOf?_append, hcut, hnum, hcap]

theorem parseSideDivider_two (ref : Bytes) :
    parseSideDivider (dividerPrefix ++ (utf8 "2/2: " ++ ref)) = some (2, 2, ref) := by
  have hcut : splitOnce (utf8 ": ") (utf8 "2/2: " ++ ref) = some ([50, 47, 50], ref) := by
    have hbytes : utf8 "2/2: " = [50, 47, 50, 58, 32] ∧ utf8 ": " = [58, 32] := ⟨rfl, rfl⟩
    simp [hbytes, splitOnce, List.isPrefixOf?]
  have hnums : splitOnce (utf8 "/") [50, 47, 50] = some ([50], [50]) := rfl
  have hnum : parseCanonicalDecimal [50] = some 2 := rfl
  simp [parseSideDivider, isPrefixOf?_append, hcut, hnums, hnum]

theorem parseSideDivider_baseText (base : Id) (exec : Bool) :
    parseSideDivider (baseText base exec) = none := rfl

theorem secondDivider_sideText [HexIds Id] (side : Id) (exec : Bool) :
    SecondDivider (sideText side exec) false := by
  have hvalid := isSideRef_refText side exec
  have hname : refText side exec ≠ utf8 "deleted" := by
    intro heq
    rw [heq] at hvalid
    exact absurd hvalid (by decide)
  constructor
  · intro st hdel htwo
    simp [scanLine, sideText, parseSideDivider_two, hdel, htwo, hname, hvalid]
  · intro st htwo
    simp [scanLine, sideText, parseSideDivider_two, htwo.symm]

theorem secondDivider_deletedText : SecondDivider deletedText true := by
  constructor
  · intro st hdel htwo
    simp [scanLine, deletedText, parseSideDivider_two, hdel, htwo]
  · intro st htwo
    simp [scanLine, deletedText, parseSideDivider_two, htwo.symm]

end

/-! ### Paths on a line -/

theorem findCharIndex_none {bad : Char → Bool} {cs : List Char} {index : ℕ}
    (h : findCharIndex bad cs index = none) : ∀ c ∈ cs, bad c = false := by
  induction cs generalizing index with
  | nil => exact fun c hc => absurd hc List.not_mem_nil
  | cons c cs ih =>
      rw [findCharIndex] at h
      split_ifs at h with hbad
      exact List.forall_mem_cons.mpr ⟨by simpa using hbad, ih h⟩

/-- A valid path is a line of its own. -/
theorem Path.validate_inline {nfc : String → String} {p : Path} (h : p.validate nfc = .ok ()) :
    Inline (utf8 p.text) ∧ utf8 p.text ≠ [] := by
  unfold Path.validate at h
  simp only at h
  split at h
  · cases h
  next hempty =>
  -- absolute, backslash, NUL byte
  iterate 3 (split at h; · cases h)
  split at h
  · cases h
  next hchars =>
    have hbad := findCharIndex_none hchars
    have hcontrol : ∀ x : UInt8, x.toNat < 32 → x ∉ utf8 p.text := by
      intro x hx hmem
      obtain ⟨c, hc, hcx⟩ := Lib.mem_encodeChars_ascii (by omega) hmem
      have hcc : isCc c = true := by
        simp only [isCc, hcx, Bool.or_eq_true, decide_eq_true_eq]
        exact .inl hx
      have := hbad c hc
      simp [hcc] at this
    refine ⟨⟨hcontrol 10 (by decide), hcontrol 13 (by decide)⟩, fun hnil => hempty ?_⟩
    have hchars : p.text.toList = [] := by
      rw [utf8, List.flatMap_eq_nil_iff] at hnil
      rw [List.eq_nil_iff_forall_not_mem]
      exact fun c hc => String.utf8EncodeChar_ne_nil (hnil c hc)
    exact String.toList_eq_nil_iff.mp hchars

theorem isCloser_closerText {nfc : String → String} {p : Path} (h : p.validate nfc = .ok ()) :
    isCloser (closerText p) = true := by
  simp [isCloser, closerText, isPrefixOf?_append, (Path.validate_inline h).2]

/-! ### Which renderings are accepted -/

/-- A delimiter line without its line feed: a line of text that begins with an
ASCII character. -/
structure Delimiter (d : Bytes) : Prop where
  inline : Inline d
  encoded : Lib.Encoded d
  ascii : ∃ x t, d = x :: t ∧ x.toNat < 128

theorem Delimiter.lines_around {d : Bytes} (hd : Delimiter d) {a : Bytes} (ha : Closed a)
    (b : Bytes) : lines (a ++ (d ++ [10]) ++ b) = lines a ++ d :: lines b := by
  rw [lines_append (closed_append ha (closed_line d)), lines_append ha, lines_line hd.inline,
    List.append_assoc, List.singleton_append]

theorem Delimiter.encoded_around {d : Bytes} (hd : Delimiter d) (a b : Bytes) :
    Lib.Encoded (a ++ (d ++ [10]) ++ b) ↔ Lib.Encoded a ∧ Lib.Encoded b := by
  obtain ⟨x, t, rfl, hx⟩ := hd.ascii
  exact Lib.encoded_around hx (by decide) (hd.encoded.append ⟨['\n'], rfl⟩)

theorem encoded_pushBlock {content : Bytes} : Lib.Encoded (pushBlock content) ↔ isUtf8 content = true := by
  rw [isUtf8_iff, pushBlock]
  split_ifs
  · exact ⟨fun h => (Lib.encoded_split (by decide) h).1, fun h => h.append ⟨['\n'], rfl⟩⟩
  · exact Iff.rfl

/-- The text of a block opens no side. -/
def Quiet (content : Bytes) : Prop :=
  isUtf8 content = true ∧ ∀ line ∈ blockLines content, parseSideDivider line = none

theorem lines_rendering {opener divider closer side1 side2 : Bytes} (hopener : Delimiter opener)
    (hd : Delimiter divider) (hcloser : Delimiter closer) (hside1 : Closed side1)
    (hside2 : Closed side2) :
    lines ([] ++ (opener ++ [10]) ++
        ((side1 ++ (divider ++ [10]) ++ side2) ++ (closer ++ [10]) ++ [])) =
      opener :: (lines side1 ++ divider :: lines side2 ++ [closer]) := by
  have hmiddle : Closed (side1 ++ (divider ++ [10]) ++ side2) :=
    closed_append (closed_append hside1 (closed_line divider)) hside2
  rw [hopener.lines_around (.inl rfl), hcloser.lines_around hmiddle, hd.lines_around hside1]
  rfl

/-- A two-sided rendering: what stands before its divider is side 1 with the
base, what stands after it is side 2. -/
theorem markerShaped_rendering {opener divider closer side1 side2 ref : Bytes} {deleted : Bool}
    (hopener : Delimiter opener) (hopen : parseOpener opener = some (2, ref))
    (hvalid : isSideRef ref = true) (hd : Delimiter divider)
    (hdivider : SecondDivider divider deleted) (hcloser : Delimiter closer)
    (hclose : isCloser closer = true) (hside1 : Closed side1) (hside2 : Closed side2)
    (hdeleted : deleted = true → side2 = []) :
    markerShaped
        ([] ++ (opener ++ [10]) ++
          ((side1 ++ (divider ++ [10]) ++ side2) ++ (closer ++ [10]) ++ [])) = true ↔
      (Lib.Encoded side1 ∧ (∀ l ∈ lines side1, parseSideDivider l = none) ∧
        (baseRefs (lines side1) = [] ∨
          ∃ ref, baseRefs (lines side1) = [ref] ∧ isSideRef ref = true)) ∧
      Lib.Encoded side2 ∧ (∀ l ∈ lines side2, parseSideDivider l = none) ∧
        baseRefs (lines side2) = [] := by
  have hnil : lines [] = [] := rfl
  have hencodedNil : Lib.Encoded ([] : Bytes) := ⟨[], rfl⟩
  have hscan := @scan_middle divider deleted hdivider (lines side1) (lines side2)
    (fun hdel => by rw [hdeleted hdel, hnil])
  rw [markerShaped, lines_rendering hopener hd hcloser hside1 hside2]
  simp only [hopen, hvalid, Bool.true_and, Bool.and_eq_true, isUtf8_iff,
    List.getLast?_concat, Option.any_some, hclose, List.dropLast_concat,
    Option.any_eq_true, decide_eq_true_eq, hscan]
  rw [hopener.encoded_around, hcloser.encoded_around, hd.encoded_around]
  tauto

section

variable {Id : Type} [Platform Id]

theorem encoded_refText (id : Id) (exec : Bool) : Lib.Encoded (refText id exec) :=
  (isUtf8_utf8 _).append (isUtf8_utf8 _)

theorem delimiter_openerText [HexIds Id] (side : Id) (exec : Bool) :
    Delimiter (openerText side exec) where
  inline := .append ⟨by decide, by decide⟩
    (.append ⟨by decide, by decide⟩ (inline_refText side exec))
  encoded := (isUtf8_utf8 _).append ((isUtf8_utf8 _).append (encoded_refText side exec))
  ascii := ⟨60, _, rfl, by decide⟩

theorem delimiter_baseText [HexIds Id] (base : Id) (exec : Bool) :
    Delimiter (baseText base exec) where
  inline := .append ⟨by decide, by decide⟩ (inline_refText base exec)
  encoded := (isUtf8_utf8 _).append (encoded_refText base exec)
  ascii := ⟨124, _, rfl, by decide⟩

theorem delimiter_sideText [HexIds Id] (side : Id) (exec : Bool) :
    Delimiter (sideText side exec) where
  inline := .append ⟨by decide, by decide⟩
    (.append ⟨by decide, by decide⟩ (inline_refText side exec))
  encoded := (isUtf8_utf8 _).append ((isUtf8_utf8 _).append (encoded_refText side exec))
  ascii := ⟨61, _, rfl, by decide⟩

theorem delimiter_deletedText : Delimiter deletedText where
  inline := ⟨by decide, by decide⟩
  encoded := (isUtf8_utf8 _).append ((isUtf8_utf8 _).append (isUtf8_utf8 _))
  ascii := ⟨61, _, rfl, by decide⟩

theorem delimiter_closerText {nfc : String → String} {p : Path} (h : p.validate nfc = .ok ()) :
    Delimiter (closerText p) where
  inline := .append ⟨by decide, by decide⟩ (Path.validate_inline h).1
  encoded := (isUtf8_utf8 _).append (isUtf8_utf8 _)
  ascii := ⟨62, _, rfl, by decide⟩

/-- The reps a merge makes: two content sides, or one and a deletion. -/
def ConflictRep.TwoSided (rep : ConflictRep Id) : Prop :=
  (∃ first second, rep.sides = [first, second] ∧ rep.deleted = false) ∨
    ∃ first, rep.sides = [first] ∧ rep.deleted = true

/-- What the scanner asks of the versions a rendering shows: each is text none
of whose lines reads as a divider, and none has a line that reads as the base
line. Side 1 may have one where the rep itself has no base. -/
structure ConflictRep.Readable (fetch : Id → Option Bytes) (rep : ConflictRep Id) : Prop where
  first : ∀ id ∈ rep.sides.head?, ∀ content, fetch id = some content → Quiet content ∧
    (baseRefs (blockLines content) = [] ∨
      rep.base = none ∧ ∃ ref, baseRefs (blockLines content) = [ref] ∧ isSideRef ref = true)
  others : ∀ id ∈ rep.base.toList ++ rep.sides.tail, ∀ content, fetch id = some content →
    Quiet content ∧ baseRefs (blockLines content) = []

/-- The base section a rendering shows. -/
theorem baseSection_ok {rep : ConflictRep Id} {fetch : Id → Option Bytes} {basePart : Bytes}
    (h : baseSection rep fetch = .ok basePart) :
    (rep.base = none ∧ basePart = []) ∨
      ∃ base content, rep.base = some base ∧ fetch base = some content ∧
        basePart = (baseText base rep.baseExec ++ [10]) ++ pushBlock content := by
  unfold baseSection at h
  split at h
  next hnone => exact .inl ⟨hnone, (Except.ok.inj h).symm⟩
  next base hbase =>
    split at h
    · cases h
    next content hcontent =>
      exact .inr ⟨base, content, hbase, hcontent, by rw [← baseLine_eq]; exact (Except.ok.inj h).symm⟩

/-- Side 1 of a rendering with its base section. -/
theorem side1_iff [HexIds Id] {rep : ConflictRep Id} {fetch : Id → Option Bytes}
    (content : Bytes) {basePart : Bytes} (h : baseSection rep fetch = .ok basePart) :
    Closed (pushBlock content ++ basePart) ∧
      ((Lib.Encoded (pushBlock content ++ basePart) ∧
          (∀ l ∈ lines (pushBlock content ++ basePart), parseSideDivider l = none) ∧
          (baseRefs (lines (pushBlock content ++ basePart)) = [] ∨
            ∃ ref, baseRefs (lines (pushBlock content ++ basePart)) = [ref] ∧
              isSideRef ref = true)) ↔
        (Quiet content ∧ (baseRefs (blockLines content) = [] ∨ rep.base = none ∧
          ∃ ref, baseRefs (blockLines content) = [ref] ∧ isSideRef ref = true)) ∧
        ∀ base ∈ rep.base, ∀ content, fetch base = some content →
          Quiet content ∧ baseRefs (blockLines content) = []) := by
  rcases baseSection_ok h with ⟨hnone, rfl⟩ | ⟨base, shown, hbase, hshown, rfl⟩
  · rw [List.append_nil]
    refine ⟨closed_pushBlock content, ?_⟩
    simp only [hnone, encoded_pushBlock, Quiet, blockLines, true_and, Option.mem_def,
      reduceCtorEq, false_implies, implies_true, and_true]
    tauto
  · have hd := delimiter_baseText base rep.baseExec
    rw [← List.append_assoc]
    refine ⟨closed_append (closed_append (closed_pushBlock content) (closed_line _))
      (closed_pushBlock shown), ?_⟩
    have hrefs : baseRefs (lines (pushBlock content) ++
        baseText base rep.baseExec :: lines (pushBlock shown)) =
        baseRefs (blockLines content) ++ refText base rep.baseExec ::
          baseRefs (blockLines shown) := by
      have href : basePrefix.isPrefixOf? (baseText base rep.baseExec) =
          some (refText base rep.baseExec) := isPrefixOf?_append _ _
      rw [baseRefs, List.filterMap_append, List.filterMap_cons_some href]
      rfl
    have hone : ∀ ref, baseRefs (blockLines content) ++ refText base rep.baseExec ::
        baseRefs (blockLines shown) = [ref] ↔ baseRefs (blockLines content) = [] ∧
          baseRefs (blockLines shown) = [] ∧ ref = refText base rep.baseExec := by
      intro ref
      cases baseRefs (blockLines content) with
      | nil =>
          rw [List.nil_append, List.cons.injEq]
          exact ⟨fun ⟨href, hnil⟩ => ⟨rfl, hnil, href.symm⟩, fun ⟨_, hnil, href⟩ => ⟨href.symm, hnil⟩⟩
      | cons other others => simp
    rw [hd.lines_around (closed_pushBlock content), hrefs, hd.encoded_around]
    simp only [encoded_pushBlock, hbase, Option.mem_def, Option.some.injEq, forall_eq', hshown,
      hone, List.append_eq_nil_iff, reduceCtorEq, and_false, false_or, List.mem_append,
      List.mem_cons, or_imp, forall_and, forall_eq, parseSideDivider_baseText, true_and, false_and,
      or_false]
    have hvalid := isSideRef_refText base rep.baseExec
    constructor
    · rintro ⟨⟨htext, hshownText⟩, ⟨hquiet, hshownQuiet⟩, ref, ⟨hnil, hshownNil, -⟩, -⟩
      exact ⟨⟨⟨htext, hquiet⟩, hnil⟩, ⟨hshownText, hshownQuiet⟩, hshownNil⟩
    · rintro ⟨⟨⟨htext, hquiet⟩, hnil⟩, ⟨hshownText, hshownQuiet⟩, hshownNil⟩
      exact ⟨⟨htext, hshownText⟩, ⟨hquiet, hshownQuiet⟩, _, ⟨hnil, hshownNil, rfl⟩, hvalid⟩

/-- The rendering of a rep with two content sides. -/
theorem markerBytes_two {rep : ConflictRep Id} {fetch : Id → Option Bytes} {bytes : Bytes}
    (h : markerBytes rep fetch = .ok bytes) {first second : Id}
    (hsides : rep.sides = [first, second]) (hdeleted : rep.deleted = false) :
    ∃ exec exec' content content' base, fetch first = some content ∧
      fetch second = some content' ∧ baseSection rep fetch = .ok base ∧
      bytes = [] ++ (openerText first exec ++ [10]) ++
        (((pushBlock content ++ base) ++ (sideText second exec' ++ [10]) ++ pushBlock content') ++
          (closerText rep.path ++ [10]) ++ []) := by
  unfold markerBytes at h
  -- every fetch succeeded
  rcases hfirst : fetch first with _ | content <;>
    rcases hbase : baseSection rep fetch with e | base <;>
    rcases hsecond : fetch second with _ | content' <;>
    simp [hsides, hdeleted, sideBlocks, hfirst, hbase, hsecond, bind, Except.bind, pure,
      Except.pure] at h
  refine ⟨rep.sidesExec.getD 0 false, rep.sidesExec.getD 1 false, content, content', base, rfl, rfl,
    rfl, ?_⟩
  rw [← h]
  simp [openerLine_eq, sideLine_eq, closerLine_eq]

/-- The rendering of a rep with one content side and a deletion. -/
theorem markerBytes_deleted {rep : ConflictRep Id} {fetch : Id → Option Bytes} {bytes : Bytes}
    (h : markerBytes rep fetch = .ok bytes) {first : Id}
    (hsides : rep.sides = [first]) (hdeleted : rep.deleted = true) :
    ∃ exec content base, fetch first = some content ∧ baseSection rep fetch = .ok base ∧
      bytes = [] ++ (openerText first exec ++ [10]) ++
        (((pushBlock content ++ base) ++ (deletedText ++ [10]) ++ []) ++
          (closerText rep.path ++ [10]) ++ []) := by
  unfold markerBytes at h
  rcases hfirst : fetch first with _ | content <;>
    rcases hbase : baseSection rep fetch with e | base <;>
    simp [hsides, hdeleted, sideBlocks, hfirst, hbase, bind, Except.bind, pure, Except.pure] at h
  refine ⟨rep.sidesExec.getD 0 false, content, base, rfl, rfl, ?_⟩
  rw [← h]
  simp [openerLine_eq, deletedLine_eq, closerLine_eq]

/-- A two-sided rendering is accepted exactly when its versions are readable. -/
theorem markerShaped_markerBytes [HexIds Id] {rep : ConflictRep Id} {fetch : Id → Option Bytes}
    {bytes : Bytes} (htwo : rep.TwoSided) (hpath : rep.path.validate (Platform.nfc Id) = .ok ())
    (h : markerBytes rep fetch = .ok bytes) : markerShaped bytes = true ↔ rep.Readable fetch := by
  rcases htwo with ⟨first, second, hsides, hdeleted⟩ | ⟨first, hsides, hdeleted⟩
  · obtain ⟨exec, exec', content, content', base, hfirst, hsecond, hbase, rfl⟩ :=
      markerBytes_two h hsides hdeleted
    obtain ⟨hclosed, hside1⟩ := side1_iff content hbase
    rw [markerShaped_rendering (delimiter_openerText first exec) (parseOpener_openerText first exec)
      (isSideRef_refText first exec) (delimiter_sideText second exec')
      (secondDivider_sideText second exec') (delimiter_closerText hpath)
      (isCloser_closerText hpath) hclosed (closed_pushBlock content') (fun hno => by cases hno),
      hside1, encoded_pushBlock]
    constructor
    · rintro ⟨⟨hone, hbases⟩, htext, hlines, hnone⟩
      refine ⟨fun id hid shown hshown => ?_, fun id hid shown hshown => ?_⟩
      · rw [hsides] at hid
        obtain rfl := Option.some.inj hid
        rw [hfirst] at hshown
        obtain rfl := Option.some.inj hshown
        exact hone
      · rw [hsides, List.mem_append] at hid
        rcases hid with hid | hid
        · exact hbases id (Option.mem_toList.mp hid) shown hshown
        · obtain rfl := List.mem_singleton.mp hid
          rw [hsecond] at hshown
          obtain rfl := Option.some.inj hshown
          exact ⟨⟨htext, hlines⟩, hnone⟩
    · intro hread
      have hlast := hread.others second (by rw [hsides]; simp) content' hsecond
      refine ⟨⟨hread.first first (by rw [hsides]; rfl) content hfirst, fun id hid => ?_⟩, hlast.1.1,
        hlast.1.2, hlast.2⟩
      exact hread.others id (List.mem_append_left _ (Option.mem_toList.mpr hid))
  · obtain ⟨exec, content, base, hfirst, hbase, rfl⟩ := markerBytes_deleted h hsides hdeleted
    obtain ⟨hclosed, hside1⟩ := side1_iff content hbase
    rw [markerShaped_rendering (delimiter_openerText first exec) (parseOpener_openerText first exec)
      (isSideRef_refText first exec) delimiter_deletedText secondDivider_deletedText
      (delimiter_closerText hpath) (isCloser_closerText hpath) hclosed (.inl rfl) (fun _ => rfl),
      hside1]
    constructor
    · rintro ⟨⟨hone, hbases⟩, -⟩
      refine ⟨fun id hid shown hshown => ?_, fun id hid shown hshown => ?_⟩
      · rw [hsides] at hid
        obtain rfl := Option.some.inj hid
        rw [hfirst] at hshown
        obtain rfl := Option.some.inj hshown
        exact hone
      · rw [hsides, List.tail_cons, List.append_nil] at hid
        exact hbases id (Option.mem_toList.mp hid) shown hshown
    · intro hread
      refine ⟨⟨hread.first first (by rw [hsides]; rfl) content hfirst, fun id hid => ?_⟩,
        ⟨[], rfl⟩, fun l hl => absurd hl List.not_mem_nil, rfl⟩
      exact hread.others id (List.mem_append_left _ (Option.mem_toList.mpr hid))

/-- A rendering is no quiet text: it shows its own divider. -/
theorem not_quiet_markerBytes [HexIds Id] {rep : ConflictRep Id} {fetch : Id → Option Bytes}
    {bytes : Bytes} (htwo : rep.TwoSided) (hpath : rep.path.validate (Platform.nfc Id) = .ok ())
    (h : markerBytes rep fetch = .ok bytes) : ¬ Quiet bytes := by
  have hshown : ∀ {opener divider side1 side2 : Bytes}, Delimiter opener → Delimiter divider →
      Closed side1 → Closed side2 → parseSideDivider divider ≠ none →
      bytes = [] ++ (opener ++ [10]) ++
        ((side1 ++ (divider ++ [10]) ++ side2) ++ (closerText rep.path ++ [10]) ++ []) →
      ¬ Quiet bytes := by
    rintro opener divider side1 side2 hopener hd hside1 hside2 hparsed rfl ⟨-, hquiet⟩
    refine hparsed (hquiet divider ?_)
    have hended : ∀ b : Bytes, pushBlock (b ++ [10]) = b ++ [10] := fun b => by simp [pushBlock]
    rw [blockLines, List.append_nil, ← List.append_assoc, ← List.append_assoc, hended,
      List.append_assoc, List.append_assoc]
    have hlines := lines_rendering hopener hd (delimiter_closerText hpath) hside1 hside2
    rw [List.append_nil] at hlines
    rw [hlines]
    simp
  rcases htwo with ⟨first, second, hsides, hdeleted⟩ | ⟨first, hsides, hdeleted⟩
  · obtain ⟨exec, exec', content, content', base, -, -, hbase, hbytes⟩ :=
      markerBytes_two h hsides hdeleted
    exact hshown (delimiter_openerText first exec) (delimiter_sideText second exec')
      (side1_iff content hbase).1 (closed_pushBlock content')
      (by simp [sideText, parseSideDivider_two]) hbytes
  · obtain ⟨exec, content, base, -, hbase, hbytes⟩ := markerBytes_deleted h hsides hdeleted
    exact hshown (delimiter_openerText first exec) delimiter_deletedText
      (side1_iff content hbase).1 (.inl rfl) (by simp [deletedText, parseSideDivider_two]) hbytes

end

end Naatre
