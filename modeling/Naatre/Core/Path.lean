import Mathlib.Algebra.Ring.Int.Defs
import Mathlib.Algebra.Ring.Nat
import Mathlib.Data.List.Dedup
import Mathlib.Data.List.Sort
import Mathlib.Data.String.Basic

/-!
Repo-relative paths and their grammar (`naatre-core/src/path.rs`).

A path is kept the way `split_leaf` hands it to every tree walk: the
directory components in order and the leaf name. `Path.text` is the string
the source stores; paths are compared by it, as `BTreeMap<String, _>` and the
canonical frame do.
-/

namespace Naatre

/-- Raw file content. -/
abbrev Bytes := List UInt8

/-- The UTF-8 bytes of a string. -/
def utf8 (s : String) : Bytes := s.toList.flatMap String.utf8EncodeChar

/-- `str::from_utf8` accepts the bytes. -/
def isUtf8 (b : Bytes) : Bool := (ByteArray.mk b.toArray).validateUTF8

/-- A path split at its slashes: `split('/')` never returns an empty list, so
there is always a leaf. -/
structure Path where
  dirs : List String
  leaf : String
  deriving DecidableEq, Repr

namespace Path

def components (p : Path) : List String := p.dirs ++ [p.leaf]

/-- The path as the one string the source keeps. -/
def text (p : Path) : String := String.intercalate "/" p.components

/-- The byte order of the path strings: `String`'s own order. -/
def before (p q : Path) : Bool := decide (p.text ≤ q.text)

def sortPaths (l : List Path) : List Path :=
  (l.dedup).insertionSort (fun p q => p.before q = true)

theorem mem_sortPaths {l : List Path} {p : Path} : p ∈ sortPaths l ↔ p ∈ l := by
  rw [sortPaths, List.mem_insertionSort, List.mem_dedup]

theorem sortPaths_nodup (l : List Path) : (sortPaths l).Nodup :=
  (List.perm_insertionSort _ _).nodup_iff.mpr (List.nodup_dedup l)

theorem before_total (p q : Path) : p.before q = true ∨ q.before p = true := by
  simp only [before, decide_eq_true_eq]
  exact le_total p.text q.text

theorem before_trans {p q r : Path} (hpq : p.before q = true) (hqr : q.before r = true) :
    p.before r = true := by
  simp only [before, decide_eq_true_eq] at *
  exact hpq.trans hqr

instance : Std.Total (fun p q : Path => p.before q = true) := ⟨before_total⟩

instance : IsTrans Path (fun p q : Path => p.before q = true) :=
  ⟨fun _ _ _ => before_trans⟩

theorem sortPaths_pairwise (l : List Path) :
    (sortPaths l).Pairwise (fun p q => p.before q = true) :=
  List.pairwise_insertionSort _ _

end Path

/-! ### The grammar -/

/-- `MAX_COMPONENT_LEN`, `MAX_PATH_LEN`, `MAX_PATH_COMPONENTS`. -/
def maxComponentLen : ℕ := 255
def maxPathLen : ℕ := 4096
def maxPathComponents : ℕ := 256

/-- `RESERVED_PREFIXES`. -/
def reservedPrefixes : List String := [".naatre", ".git"]

inductive PathError
  | empty
  | absolute
  | backslash
  | nulByte
  | controlChar (index : ℕ)
  | notNormalized
  | componentInvalid (index : ℕ)
  | componentTooLong (index len : ℕ)
  | emptyComponent (index : ℕ)
  | tooManyComponents (count : ℕ)
  | tooLong (len : ℕ)
  | reserved (component : String)
  | caseFoldDuplicate (a b : Path)
  | componentSlash
  deriving DecidableEq, Repr

/-- `{s:?}` of a text without control characters. -/
def quoted (s : String) : String :=
  "\"" ++ String.join (s.toList.map fun c =>
    if c = '"' then "\\\"" else if c = '\\' then "\\\\" else c.toString) ++ "\""

def PathError.message : PathError → String
  | .empty => "path is empty"
  | .absolute => "path is absolute (leading '/')"
  | .backslash => "path contains a backslash"
  | .nulByte => "path contains a NUL byte"
  | .controlChar index =>
      "path contains a control (Cc) or format (Cf) character at byte index " ++ toString index
  | .notNormalized => "path is not in NFC normalization form"
  | .componentInvalid index => "component " ++ toString index ++ " is \".\" or \"..\""
  | .componentTooLong index len =>
      "component " ++ toString index ++ " is " ++ toString len ++ " bytes long (max 255)"
  | .emptyComponent index => "component " ++ toString index ++ " is empty (\"//\")"
  | .tooManyComponents count => "path has " ++ toString count ++ " components (max 256)"
  | .tooLong len => "path is " ++ toString len ++ " bytes long (max 4096)"
  | .reserved component => "first component is reserved: " ++ component
  | .caseFoldDuplicate a b =>
      "paths " ++ quoted a.text ++ " and " ++ quoted b.text ++
        " share a directory and are equal under case folding"
  | .componentSlash => "component contains '/'"

/-- Unicode category Cc: the two control ranges. -/
def isCc (c : Char) : Bool := c.toNat < 0x20 || (0x7f ≤ c.toNat && c.toNat < 0xa0)

/-- Unicode category Cf, as the closed ranges the source lists. -/
def cfRanges : List (ℕ × ℕ) :=
  [(0x00AD, 0x00AD), (0x0600, 0x0605), (0x061C, 0x061C), (0x06DD, 0x06DD),
    (0x070F, 0x070F), (0x0890, 0x0891), (0x08E2, 0x08E2), (0x180E, 0x180E),
    (0x200B, 0x200F), (0x202A, 0x202E), (0x2060, 0x2064), (0x2066, 0x206F),
    (0xFEFF, 0xFEFF), (0xFFF9, 0xFFFB), (0x110BD, 0x110BD), (0x110CD, 0x110CD),
    (0x13430, 0x1343F), (0x1BCA0, 0x1BCA3), (0x1D173, 0x1D17A), (0xE0001, 0xE0001),
    (0xE0020, 0xE007F)]

def isCf (c : Char) : Bool :=
  cfRanges.any fun r => decide (r.1 ≤ c.toNat) && decide (c.toNat ≤ r.2)

/-- The byte index of the first character `bad` holds of, as `char_indices`
counts it. -/
def findCharIndex (bad : Char → Bool) : List Char → ℕ → Option ℕ
  | [], _ => none
  | c :: cs, index => if bad c then some index else findCharIndex bad cs (index + c.utf8Size)

/-- The per-component rules of `validate`, first failing component first. -/
def validateComponents : List String → ℕ → Except PathError Unit
  | [], _ => .ok ()
  | c :: cs, index =>
      if c = "." ∨ c = ".." then .error (.componentInvalid index)
      else if maxComponentLen < c.utf8ByteSize then
        .error (.componentTooLong index c.utf8ByteSize)
      else if c = "" then .error (.emptyComponent index)
      else validateComponents cs (index + 1)

/-- `validate_component`, its rules in the source's order. -/
def validateComponent (nfc : String → String) (name : String) : Except PathError Unit :=
  let chars := name.toList
  if name = "" then .error .empty
  else if '/' ∈ chars then .error .componentSlash
  else if '\\' ∈ chars then .error .backslash
  else if '\x00' ∈ chars then .error .nulByte
  else match findCharIndex (fun c => isCc c || isCf c) chars 0 with
    | some index => .error (.controlChar index)
    | none =>
        if nfc name ≠ name then .error .notNormalized
        else if name = "." ∨ name = ".." then .error (.componentInvalid 0)
        else if maxComponentLen < name.utf8ByteSize then
          .error (.componentTooLong 0 name.utf8ByteSize)
        else .ok ()

/-- `path::validate`, its rules in the source's order. `nfc` is the
normalization of the Unicode tables. -/
def Path.validate (nfc : String → String) (p : Path) : Except PathError Unit :=
  let text := p.text
  let chars := text.toList
  if text = "" then .error .empty
  else if chars.head? = some '/' then .error .absolute
  else if '\\' ∈ chars then .error .backslash
  else if '\x00' ∈ chars then .error .nulByte
  else match findCharIndex (fun c => isCc c || isCf c) chars 0 with
    | some index => .error (.controlChar index)
    | none =>
        if nfc text ≠ text then .error .notNormalized
        else match validateComponents p.components 0 with
          | .error e => .error e
          | .ok () =>
              if maxPathComponents < p.components.length then
                .error (.tooManyComponents p.components.length)
              else if maxPathLen < text.utf8ByteSize then
                .error (.tooLong text.utf8ByteSize)
              else match reservedPrefixes.find? (fun r => r = p.components.headD "") with
                | some r => .error (.reserved r)
                | none => .ok ()

theorem Path.depth_of_valid {nfc : String → String} {p : Path} (h : p.validate nfc = .ok ()) :
    p.components.length ≤ maxPathComponents := by
  by_contra hdeep
  unfold Path.validate at h
  simp only [if_pos (not_le.mp hdeep)] at h
  repeat' split at h
  all_goals cases h

/-- `check_case_fold_duplicates`: `seen` is the map from `(directory, folded
name)` to the last path that had it. -/
def checkCaseFold (lower : String → String) :
    List Path → List ((List String × String) × Path) → Except PathError Unit
  | [], _ => .ok ()
  | p :: ps, seen =>
      match seen.lookup (p.dirs, lower p.leaf) with
      | some prev => .error (.caseFoldDuplicate prev p)
      | none => checkCaseFold lower ps (((p.dirs, lower p.leaf), p) :: seen)

def checkCaseFoldDuplicates (lower : String → String) (paths : List Path) :
    Except PathError Unit :=
  checkCaseFold lower paths []

theorem checkCaseFold_ok {lower : String → String} {paths : List Path}
    {seen : List ((List String × String) × Path)} (h : checkCaseFold lower paths seen = .ok ()) :
    (∀ p ∈ paths, seen.lookup (p.dirs, lower p.leaf) = none) ∧
      paths.Pairwise fun p q => (p.dirs, lower p.leaf) ≠ (q.dirs, lower q.leaf) := by
  induction paths generalizing seen with
  | nil => exact ⟨fun p hp => absurd hp List.not_mem_nil, .nil⟩
  | cons p ps ih =>
      rw [checkCaseFold] at h
      split at h
      · cases h
      next hfree =>
        obtain ⟨hseen, hpairwise⟩ := ih h
        have hrest : ∀ q ∈ ps, (q.dirs, lower q.leaf) ≠ (p.dirs, lower p.leaf) ∧
            seen.lookup (q.dirs, lower q.leaf) = none := by
          intro q hq
          have hnone := hseen q hq
          rw [List.lookup_cons] at hnone
          split at hnone
          · cases hnone
          next hne => exact ⟨beq_eq_false_iff_ne.mp hne, hnone⟩
        refine ⟨fun q hq => ?_, List.pairwise_cons.mpr ⟨fun q hq => (hrest q hq).1.symm, hpairwise⟩⟩
        rcases List.mem_cons.mp hq with rfl | hq
        · exact hfree
        · exact (hrest q hq).2

/-- A list that passes has no two paths of one directory whose names fold
alike. -/
theorem checkCaseFoldDuplicates_ok {lower : String → String} {paths : List Path}
    (h : checkCaseFoldDuplicates lower paths = .ok ()) :
    paths.Pairwise fun p q => (p.dirs, lower p.leaf) ≠ (q.dirs, lower q.leaf) :=
  (checkCaseFold_ok h).2

end Naatre
