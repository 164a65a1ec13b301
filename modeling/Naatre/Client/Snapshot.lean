import Naatre.Client.Commit
import Naatre.Server.TreeDerive

/-!
The snapshot verb (`naatre-cli/src/verbs/snapshot.rs`): the files it takes from
the status of the checkout, and the trees it builds of them for the POST. The
parse of `--ttl`, the uploads and the random snapshot id are left out.
-/

namespace Naatre.Client

section

variable {Id : Type} [Platform Id]

/-! ### The files -/

/-- `SnapFile`: one file that will be in the snapshot tree. -/
structure SnapFile (Id : Type) where
  path : Path
  raw : Path
  blob : Id
  size : ℕ
  exec : Bool

inductive SnapshotError
  | read (raw : Path)
  /-- the index `raw_of_untracked[path]` -/
  | noRaw (path : Path)
  | encode (e : CoreError)

/-- A modified or untracked file, read from the disk. -/
def readSnapFile (disk : Disk) (report : Report) (path : Path) :
    Except SnapshotError (SnapFile Id) :=
  match (report.rawOf.lookup path).or (report.rawOfUntracked.lookup path) with
  | none => .error (.noRaw path)
  | some raw =>
      match disk.entries.read raw.leaf raw.dirs with
      | none => .error (.read raw)
      | some (stat, content) =>
          .ok ⟨path, raw, Platform.blobId content, content.length, execBit stat⟩

/-- A clean file: the row's blob, size and exec bit, without a look at the
disk. -/
def cleanSnapFiles (sparse : List Path) (index : Index Id) (report : Report) :
    List (SnapFile Id) :=
  (index.rows.filter fun e => underSparse sparse e.1 && !decide (e.1 ∈ report.modified) &&
    !decide (e.1 ∈ report.deleted)).map fun e =>
      ⟨e.1, rawOf report e.1, e.2.blob, e.2.size, e.2.exec⟩

/-- The file set of a snapshot, in path order. -/
def snapshotFiles (sparse : List Path) (disk : Disk) (index : Index Id) (report : Report) :
    Except SnapshotError (List (SnapFile Id)) :=
  match ((report.modified ++ report.untracked).filter (underSparse sparse ·)).mapM
      (readSnapFile disk report) with
  | .error e => .error e
  | .ok read =>
      .ok ((cleanSnapFiles sparse index report ++ read).insertionSort
        fun a b => a.path.before b.path = true)

/-! ### The trees -/

mutual

/-- `Node` of `build_trees`. -/
inductive SnapNode (Id : Type)
  | mk (files : List (String × FileMeta Id)) (dirs : SnapDirs Id)

/-- The directories of a node, in name order. -/
inductive SnapDirs (Id : Type)
  | nil
  | cons (name : String) (child : SnapNode Id) (rest : SnapDirs Id)

end

/-- A node with one file below new directories. -/
def SnapNode.single (leaf : String) (m : FileMeta Id) : List String → SnapNode Id
  | [] => .mk [(leaf, m)] .nil
  | d :: ds => .mk [] (.cons d (SnapNode.single leaf m ds) .nil)

mutual

/-- `dirs.entry(dir).or_default()` for each directory, and the push. -/
def SnapNode.insert (leaf : String) (m : FileMeta Id) : SnapNode Id → List String → SnapNode Id
  | .mk files dirs, [] => .mk (files ++ [(leaf, m)]) dirs
  | .mk files dirs, d :: ds => .mk files (dirs.insert leaf m d ds)

def SnapDirs.insert (leaf : String) (m : FileMeta Id) :
    SnapDirs Id → String → List String → SnapDirs Id
  | .nil, d, ds => .cons d (.single leaf m ds) .nil
  | .cons name child rest, d, ds =>
      if d < name then .cons d (.single leaf m ds) (.cons name child rest)
      else if d = name then .cons name (child.insert leaf m ds) rest
      else .cons name child (rest.insert leaf m d ds)

end

mutual

/-- `subtree_size`. -/
def SnapNode.size : SnapNode Id → ℕ
  | .mk files dirs => (files.map fun f => f.2.size).sum + dirs.size

def SnapDirs.size : SnapDirs Id → ℕ
  | .nil => 0
  | .cons _ child rest => child.size + rest.size

end

def fileEntry (f : String × FileMeta Id) : TreeEntry Id :=
  ⟨f.1, .file, f.2.blob, f.2.size, f.2.exec⟩

mutual

/-- `encode_node`: the node's id, after the frames of everything below it. -/
def SnapNode.encode : SnapNode Id → List (TreeFrame Id) →
    Except SnapshotError (Id × List (TreeFrame Id))
  | .mk files dirs, out =>
      match dirs.encode out with
      | .error e => .error e
      | .ok (entries, out) =>
          match Tree.encode ⟨(files.map fileEntry ++ entries).insertionSort
              fun a b => a.name ≤ b.name⟩ with
          | .error e => .error (.encode e)
          | .ok frame => .ok (Platform.treeId frame, out ++ [frame])

/-- The entries of a node's directories. -/
def SnapDirs.encode : SnapDirs Id → List (TreeFrame Id) →
    Except SnapshotError (List (TreeEntry Id) × List (TreeFrame Id))
  | .nil, out => .ok ([], out)
  | .cons name child rest, out =>
      match child.encode out with
      | .error e => .error e
      | .ok (id, out) =>
          match rest.encode out with
          | .error e => .error e
          | .ok (entries, out) => .ok (⟨name, .dir, id, child.size, false⟩ :: entries, out)

end

def SnapFile.fileMeta (f : SnapFile Id) : FileMeta Id := ⟨f.blob, f.size, f.exec⟩

def buildNode (files : List (SnapFile Id)) : SnapNode Id :=
  files.foldl (fun node f => node.insert f.path.leaf f.fileMeta f.path.dirs) (.mk [] .nil)

/-- `build_trees`: the root's id and the frame of every tree. -/
def buildTrees (files : List (SnapFile Id)) :
    Except SnapshotError (Id × List (TreeFrame Id)) :=
  (buildNode files).encode []

end

end Naatre.Client
