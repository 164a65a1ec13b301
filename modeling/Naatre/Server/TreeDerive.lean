import Naatre.Core.Object

/-!
Tree derivation: path-copy over in-memory nodes
(`naatre-server/src/tree_derive.rs`).

A `MemNode` is the `BTreeMap` of one directory, its entries in name order. The
rows it is stored as are `TreeRow`s, one for each directory.
-/

namespace Naatre

mutual

/-- One entry of a `MemNode`. -/
inductive MemEntry (Id : Type)
  | file (blob : Id) (size : ℕ) (exec : Bool)
  | dir (node : MemNode Id)

/-- An in-memory directory node. -/
inductive MemNode (Id : Type)
  | empty
  | entry (name : String) (e : MemEntry Id) (rest : MemNode Id)

end

/-- A duality violation while applying changes against the parent tree. -/
inductive ApplyError
  | fileInPath (path : Path)
  | modNotFile (path : Path)
  | delNotFile (path : Path)
  | tooDeep (path : Path)
  deriving DecidableEq, Repr

inductive DeriveError (Id : Type)
  | core (e : CoreError)
  | missingTreeRow (id : Id)
  deriving DecidableEq

/-- One `trees` row with its `tree_entries` rows. -/
structure TreeRow (Id : Type) where
  id : Id
  canonical : TreeFrame Id
  deriving DecidableEq

/-- `tree_entries_load`: the entries of the frame in name order. -/
def TreeRow.entries {Id : Type} (row : TreeRow Id) : List (TreeEntry Id) :=
  row.canonical.tree.entries.insertionSort (fun a b => a.name ≤ b.name)

namespace MemNode

variable {Id : Type}

/-- `entries.get`. -/
def get (name : String) : MemNode Id → Option (MemEntry Id)
  | .empty => none
  | .entry n e rest => if n = name then some e else rest.get name

/-- `entries.insert`: replaces the entry of that name, else goes to its place
in name order. -/
def insert (name : String) (new : MemEntry Id) : MemNode Id → MemNode Id
  | .empty => .entry name new .empty
  | .entry n e rest =>
      if n = name then .entry name new rest
      else if name < n then .entry name new (.entry n e rest)
      else .entry n e (rest.insert name new)

/-- `entries.remove`. -/
def erase (name : String) : MemNode Id → MemNode Id
  | .empty => .empty
  | .entry n e rest => if n = name then rest else .entry n e (rest.erase name)

def isEmpty : MemNode Id → Bool
  | .empty => true
  | .entry _ _ _ => false

/-- `lookup`: an intermediate file also misses. -/
def lookupIn (node : MemNode Id) : List String → String → Option (MemEntry Id)
  | [], leaf => node.get leaf
  | d :: ds, leaf =>
      match node.get d with
      | some (.dir child) => child.lookupIn ds leaf
      | _ => none

def lookup (node : MemNode Id) (p : Path) : Option (MemEntry Id) :=
  node.lookupIn p.dirs p.leaf

/-- `insert_in`: `none` where an intermediate component is a file. -/
def insertIn (node : MemNode Id) (leaf : String) (file : MemEntry Id) :
    List String → Option (MemNode Id)
  | [] => some (node.insert leaf file)
  | d :: ds =>
      match node.get d with
      | none =>
          (insertIn .empty leaf file ds).map (fun child => node.insert d (.dir child))
      | some (.dir child) =>
          (insertIn child leaf file ds).map (fun child => node.insert d (.dir child))
      | some (.file _ _ _) => none

def insertFile (node : MemNode Id) (p : Path) (blob : Id) (size : ℕ) (exec : Bool) :
    Except ApplyError (MemNode Id) :=
  match node.insertIn p.leaf (.file blob size exec) p.dirs with
  | some node' => .ok node'
  | none => .error (.fileInPath p)

/-- `remove_in`: prunes empty directories on the way back up, and says whether
the leaf was removed. -/
def removeIn (node : MemNode Id) (leaf : String) : List String → MemNode Id × Bool
  | [] => (node.erase leaf, (node.get leaf).isSome)
  | d :: ds =>
      match node.get d with
      | some (.dir child) =>
          let (child', removed) := child.removeIn leaf ds
          if removed && child'.isEmpty then (node.erase d, removed)
          else (node.insert d (.dir child'), removed)
      | _ => (node, false)

def removeFile (node : MemNode Id) (p : Path) : MemNode Id :=
  (node.removeIn p.leaf p.dirs).1

def isFile : Option (MemEntry Id) → Bool
  | some (.file _ _ _) => true
  | _ => false

/-- One round of the loop of `apply`. -/
def applyChange (node : MemNode Id) (c : FileChange Id) : Except ApplyError (MemNode Id) :=
  if maxPathComponents < c.path.components.length then .error (.tooDeep c.path)
  else match c.op with
    | .del =>
        if isFile (node.lookup c.path) then .ok (node.removeFile c.path)
        else .error (.delNotFile c.path)
    | op =>
        match c.blob, c.size, c.exec with
        | some blob, some size, some exec =>
            if op = .mod && !isFile (node.lookup c.path) then .error (.modNotFile c.path)
            else node.insertFile c.path blob size exec
        | _, _, _ => .error (.modNotFile c.path)

/-- `apply`: the changes in order, the first violation ends it. -/
def apply (node : MemNode Id) (changes : List (FileChange Id)) :
    Except ApplyError (MemNode Id) :=
  changes.foldlM applyChange node

end MemNode

/-! ### Rows -/

section Rows

variable {Id : Type} [Platform Id]

/-- The canonical row of one directory. -/
def treeRowOf (entries : List (TreeEntry Id)) : Except (DeriveError Id) (TreeRow Id) :=
  match (Tree.mk entries).encode with
  | .error e => .error (.core e)
  | .ok canonical => .ok ⟨Platform.treeId canonical, canonical⟩

mutual

/-- The tree entries of a node, its recursive size and the rows of the
directories below it, children before parents. -/
def MemNode.collectEntries :
    MemNode Id → Except (DeriveError Id) (List (TreeEntry Id) × ℕ × List (TreeRow Id))
  | .empty => .ok ([], 0, [])
  | .entry name e rest => do
      let (entry, size, rows) ← e.collectEntry name
      let (entries, total, rows') ← rest.collectEntries
      pure (entry :: entries, (size + total) % 2 ^ 64, rows ++ rows')

def MemEntry.collectEntry (name : String) :
    MemEntry Id → Except (DeriveError Id) (TreeEntry Id × ℕ × List (TreeRow Id))
  | .file blob size exec => .ok (⟨name, .file, blob, size, exec⟩, size, [])
  | .dir child => do
      let (entries, total, rows) ← child.collectEntries
      let row ← treeRowOf entries
      pure (⟨name, .dir, row.id, total, false⟩, total, rows ++ [row])

end

/-- `collect`: the root's id and recursive size, and the rows, children
first. -/
def MemNode.collect (node : MemNode Id) :
    Except (DeriveError Id) (Id × ℕ × List (TreeRow Id)) := do
  let (entries, total, rows) ← node.collectEntries
  let row ← treeRowOf entries
  pure (row.id, total, rows ++ [row])

/-- `tree_repo` and `tree_entries_load`: the stored row of a tree id. -/
def treeGet (trees : List (TreeRow Id)) (id : Id) : Option (TreeRow Id) :=
  trees.find? (fun row => decide (row.id = id))

/-- The entries of one directory, its sub-directories loaded by `load`. -/
def loadEntries (load : Id → Except (DeriveError Id) (MemNode Id)) :
    List (TreeEntry Id) → Except (DeriveError Id) (MemNode Id)
  | [] => .ok .empty
  | e :: es => do
      let entry ← match e.kind with
        | .file => pure (.file e.object e.size e.exec)
        | .dir => (load e.object).map .dir
      let rest ← loadEntries load es
      pure (.entry e.name entry rest)

/-- `load_node`, at most `fuel` directories deep. -/
def loadNode (trees : List (TreeRow Id)) : ℕ → Id → Except (DeriveError Id) (MemNode Id)
  | 0, id => .error (.missingTreeRow id)
  | fuel + 1, id =>
      match treeGet trees id with
      | none => .error (.missingTreeRow id)
      | some row => loadEntries (loadNode trees fuel) row.entries

/-- `MemNode::load`: stored trees are nested at most as deep as there are
rows (`loadNode_fuel`). -/
def MemNode.load (trees : List (TreeRow Id)) (rootTreeId : Option Id) :
    Except (DeriveError Id) (MemNode Id) :=
  match rootTreeId with
  | none => .ok .empty
  | some id => loadNode trees trees.length id

/-- `INSERT OR IGNORE` of one tree's rows. -/
def treeInsert (trees : List (TreeRow Id)) (row : TreeRow Id) : List (TreeRow Id) :=
  if (treeGet trees row.id).isSome then trees else trees ++ [row]

def treesInsert (trees rows : List (TreeRow Id)) : List (TreeRow Id) :=
  rows.foldl treeInsert trees

end Rows

end Naatre
