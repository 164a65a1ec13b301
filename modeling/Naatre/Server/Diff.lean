import Naatre.Lib.SortedMap
import Naatre.Server.Reads

/-!
The path-level reads of two routes: `/diff` flattens two root trees into maps
keyed by path and compares them, `/file` walks one tree down a path. A tree
without rows reads as one without entries.
-/

namespace Naatre

inductive DiffKind
  | add
  | mod
  | del
  deriving DecidableEq, Repr

/-- The word of the answer. -/
def DiffKind.text : DiffKind → String
  | .add => "add"
  | .mod => "mod"
  | .del => "del"

/-- `DiffEntry` of the route: one path-level difference. -/
structure PathDiffEntry (Id : Type) where
  path : String
  kind : DiffKind
  aBlob : Option Id
  bBlob : Option Id
  redacted : Bool
  deriving DecidableEq

/-- `BTreeMap<String, (Id, bool)>`: full path to blob and exec bit. -/
abbrev DiffFiles (Id : Type) := List (String × Id × Bool)

section

variable {Id : Type} [Platform Id]

/-! ### Trees -/

def treeEntriesLoad (trees : List (TreeRow Id)) (tree : Id) : List (TreeEntry Id) :=
  ((treeGet trees tree).map (fun row => row.entries)).getD []

/-- The entries of one directory, its sub-directories walked by `walk`. -/
def walkEntries (walk : Id → String → DiffFiles Id → DiffFiles Id) (dir : String) :
    List (TreeEntry Id) → DiffFiles Id → DiffFiles Id
  | [], out => out
  | e :: es, out =>
      let path := if dir = "" then e.name else dir ++ "/" ++ e.name
      let out := match e.kind with
        | .dir => walk e.object path out
        | .file => Lib.sortedInsert path (e.object, e.exec) out
      walkEntries walk dir es out

/-- `walk_files`, at most `fuel` directories deep. -/
def walkFiles (trees : List (TreeRow Id)) :
    ℕ → Id → String → DiffFiles Id → DiffFiles Id
  | 0, _, _, out => out
  | fuel + 1, tree, dir, out =>
      walkEntries (walkFiles trees fuel) dir (treeEntriesLoad trees tree) out

/-- `list_files`: stored trees are nested at most as deep as there are rows. -/
def listFiles (trees : List (TreeRow Id)) (root : Id) : DiffFiles Id :=
  walkFiles trees trees.length root "" []

/-! ### Diff -/

def hexOf (id : Id) (redacted : Bool) : Option Id := if redacted then none else some id

/-- The first loop's entry for a path of the base. -/
def diffBase (redacted : Id → Bool) (b : DiffFiles Id) (x : String × Id × Bool) :
    Option (PathDiffEntry Id) :=
  match b.lookup x.1 with
  | some bMeta =>
      if x.2 ≠ bMeta then
        some ⟨x.1, .mod, hexOf x.2.1 (redacted x.2.1), hexOf bMeta.1 (redacted bMeta.1),
          redacted x.2.1 || redacted bMeta.1⟩
      else none
  | none => some ⟨x.1, .del, hexOf x.2.1 (redacted x.2.1), none, redacted x.2.1⟩

/-- The second loop's entry for a path of the target. -/
def diffAdded (redacted : Id → Bool) (a : DiffFiles Id) (x : String × Id × Bool) :
    Option (PathDiffEntry Id) :=
  if (a.lookup x.1).isSome then none
  else some ⟨x.1, .add, none, hexOf x.2.1 (redacted x.2.1), redacted x.2.1⟩

def diffFiles (redacted : Id → Bool) (a b : DiffFiles Id) : List (PathDiffEntry Id) :=
  a.filterMap (diffBase redacted b) ++ b.filterMap (diffAdded redacted a)

def diffRedacted (cx : RepoCx Id) (name : String) (cs : Id) : ApiError Id :=
  .new .objectRedacted
    ("changeset " ++ name ++ "=" ++ Platform.toHex cs ++ " is redacted in " ++ cx.name)

def diffRoot (cx : RepoCx Id) (cs : Id) : Except (ApiError Id) Id :=
  match changesetGet cx.db cs with
  | none => .error (.new .notFound "changeset is not in this repo")
  | some row => .ok row.rootTreeId

/-- `diff`, past its gate. -/
def diff (cx : RepoCx Id) (a b : Id) : Except (ApiError Id) (List (PathDiffEntry Id)) :=
  if redactionActive cx.db a then .error (diffRedacted cx "a" a)
  else if redactionActive cx.db b then .error (diffRedacted cx "b" b)
  else do
    let aRoot ← diffRoot cx a
    let bRoot ← diffRoot cx b
    let aFiles := listFiles cx.trees aRoot
    let bFiles := listFiles cx.trees bRoot
    let probe := aFiles.map (fun x => x.2.1) ++ bFiles.map (fun x => x.2.1)
    let redacted := redactionsActiveAmong cx.db probe
    .ok (diffFiles (fun id => decide (id ∈ redacted)) aFiles bFiles)

/-! ### File -/

def noSuchPath (p : Path) : ApiError Id := .new .notFound ("no such path " ++ quoted p.text)

def noSuchFile (p : Path) : ApiError Id := .new .notFound ("no such file " ++ quoted p.text)

/-- The loop of `file` over the components of the path. -/
def fileWalk (trees : List (TreeRow Id)) (p : Path) :
    Id → List String → Except (ApiError Id) (TreeEntry Id)
  | tree, [] =>
      match (treeEntriesLoad trees tree).find? (fun e => decide (e.name = p.leaf)) with
      | none => .error (noSuchPath p)
      | some e =>
          match e.kind with
          | .file => .ok e
          | .dir => .error (noSuchFile p)
  | tree, d :: dirs =>
      match (treeEntriesLoad trees tree).find? (fun e => decide (e.name = d)) with
      | none => .error (noSuchPath p)
      | some e =>
          match e.kind with
          | .dir => fileWalk trees p e.object dirs
          | .file => .error (noSuchFile p)

/-- `file`, past its gate. -/
def fileRead (cx : RepoCx Id) (at_ : Id) (p : Path) : Except (ApiError Id) (Id × ℕ × Bool) :=
  if redactionActive cx.db at_ then
    .error (.new .objectRedacted
      ("changeset " ++ Platform.toHex at_ ++ " is redacted in " ++ cx.name))
  else do
    let root ← diffRoot cx at_
    let e ← fileWalk cx.trees p root p.dirs
    if redactionActive cx.db e.object then
      .error (.new .objectRedacted
        ("blob " ++ Platform.toHex e.object ++ " is redacted in this repo"))
    else .ok (e.object, e.size, e.exec)

end

end Naatre
