import Naatre.Core.Object
import Naatre.Lib.PrefixCode
import Mathlib.Data.List.Lex

/-!
A platform the model runs on: the id of an object is a rendering of the object
itself, packed into a number, so that distinct objects have distinct ids. Its
line diff keeps no line of a text that changed, which is a line diff where the
texts share none; its Unicode tables know the unaccented letters only.
-/

namespace Naatre

open Lib

/-- An id is the packed rendering of what it names, behind a tag for its kind. -/
abbrev PlainId := List ℕ

namespace Plain

/-! ### Renderings -/

def bool : PrefixCode Bool := PrefixCode.nat.comap Bool.toNat fun a b h => by
    cases a <;> cases b <;> simp_all

def string : PrefixCode String :=
  (PrefixCode.nat.comap Char.toNat fun _ _ => Char.toNat_inj.mp).list.comap String.toList
    fun _ _ => String.toList_injective

def path : PrefixCode Path :=
  (string.list.pair string).comap (fun p => (p.dirs, p.leaf)) fun p q h => by
    cases p; cases q; simpa using h

def id : PrefixCode PlainId := PrefixCode.nat.list

def op : PrefixCode Op :=
  PrefixCode.nat.comap (fun | .add => 0 | .mod => 1 | .del => 2) fun a b h => by
    cases a <;> cases b <;> first | rfl | cases h

def fileChange : PrefixCode (FileChange PlainId) :=
  (path.pair (op.pair (id.option.pair (PrefixCode.nat.option.pair bool.option)))).comap
    (fun c => (c.path, c.op, c.blob, c.size, c.exec)) fun c d h => by
      cases c; cases d; simpa using h

def conflictRep : PrefixCode (ConflictRep PlainId) :=
  (path.pair (id.option.pair (bool.pair (id.list.pair (bool.list.pair bool))))).comap
    (fun c => (c.path, c.base, c.baseExec, c.sides, c.sidesExec, c.deleted)) fun c d h => by
      cases c; cases d; simpa using h

def changeset : PrefixCode (Changeset PlainId) :=
  (PrefixCode.nat.pair (id.list.pair (string.pair (string.pair (PrefixCode.nat.pair
    (fileChange.list.pair conflictRep.list)))))).comap
    (fun c => (c.repoId, c.parents, c.author, c.message, c.timestampNs, c.changes, c.conflicts))
    fun c d h => by cases c; cases d; simpa using h

def kind : PrefixCode EntryKind :=
  PrefixCode.nat.comap (fun | .file => 0 | .dir => 1) fun a b h => by
    cases a <;> cases b <;> first | rfl | cases h

def treeEntry : PrefixCode (TreeEntry PlainId) :=
  (string.pair (kind.pair (id.pair (PrefixCode.nat.pair bool)))).comap
    (fun e => (e.name, e.kind, e.object, e.size, e.exec)) fun c d h => by
      cases c; cases d; simpa using h

def tree : PrefixCode (Tree PlainId) :=
  treeEntry.list.comap (fun t => t.entries) fun c d h => by
    cases c; cases d; simpa using h

/-! ### Lines -/

/-- The lines of a text, each with its newline. -/
def splitLines : Bytes → Bytes → List Bytes
  | [], [] => []
  | line, [] => [line]
  | line, b :: rest =>
      if b = 10 then (line ++ [b]) :: splitLines [] rest else splitLines (line ++ [b]) rest

/-- The diff of texts without a common line: it replaces everything. -/
def wholeDiff (old new : Bytes) : TextDiff :=
  let a := splitLines [] old
  let b := splitLines [] new
  ⟨a, b, if a = b then [.equal 0 0 a.length] else [.replace 0 a.length 0 b.length]⟩

def hexDigit (n : ℕ) : Char := Char.ofNat (if n < 10 then 48 + n else 87 + n)

/-- 64 lowercase hex digits: the id's numbers modulo a 256-bit one. -/
def toHex (x : PlainId) : String :=
  let n := x.sum % (16 ^ 64 - 189)
  String.ofList ((List.range 64).map fun i => hexDigit (n / 16 ^ (63 - i) % 16))

end Plain

/-! ### The platform -/

instance : Platform PlainId where
  nfc := fun s => s
  lower := String.toLower
  fromLines := Plain.wholeDiff
  toHex := Plain.toHex
  blobId := fun b => [0, pack (b.map UInt8.toNat)]
  treeId := fun t => [1, pack (Plain.tree.encode t.tree)]
  changesetId := fun f => [2, pack (Plain.changeset.encode f.cs)]
  blobId_inj := fun a b h => by
    simp only [List.cons.injEq, and_true, true_and] at h
    exact List.map_injective_iff.mpr (fun x y => UInt8.toNat_inj.mp) (pack_injective h)
  treeId_inj := fun a b h => by
    simp only [List.cons.injEq, and_true, true_and] at h
    cases a; cases b
    simpa using Plain.tree.injective (pack_injective h)
  changesetId_inj := fun a b h => by
    simp only [List.cons.injEq, and_true, true_and] at h
    cases a; cases b
    simpa using Plain.changeset.injective (pack_injective h)
  blobId_ne_treeId := fun _ _ h => by simp at h
  blobId_ne_changesetId := fun _ _ h => by simp at h
  treeId_ne_changesetId := fun _ _ h => by simp at h

end Naatre
