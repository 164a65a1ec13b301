import Naatre.Core.WireFrames

/-!
The disk scanner and the status classification (`naatre-cli/src/wc/scan.rs`),
and the stat index it compares the disk with (`wc/index.rs`).

The disk below the checkout root is a tree of named entries. A path on it is
kept as the components the walk pushed; the indexed paths are the normalized
ones, in ascending byte order as the `BTreeMap` and the index file have them.
-/

namespace Naatre.Client

/-- `OsString::into_string`: the text of a name, or the bytes of a name that
is not UTF-8. -/
abbrev OsName := Except Bytes String

structure FileTime where
  sec : ℤ
  nsec : ℤ
  deriving DecidableEq

/-- What is read of a file's `Metadata`. -/
structure Metadata where
  size : ℕ
  mtime : FileTime
  ctime : FileTime
  ino : ℕ
  mode : ℕ
  deriving DecidableEq

mutual

/-- What a directory entry names; symlinks and special files are `other`. -/
inductive DiskNode
  | file (stat : Metadata) (content : Bytes)
  | dir (entries : DiskDir)
  | other

/-- The entries of a directory, in the order `read_dir` gives them. -/
inductive DiskDir
  | empty
  | entry (name : OsName) (node : DiskNode) (rest : DiskDir)

end

/-- A name a directory can hold. -/
def OsName.legal : OsName → Prop
  | .ok name => name ≠ "" ∧ '/' ∉ name.toList
  | .error _ => True

def DiskDir.names : DiskDir → List OsName
  | .empty => []
  | .entry name _ rest => name :: rest.names

mutual

def DiskNode.wellNamed : DiskNode → Prop
  | .dir entries => entries.wellNamed
  | _ => True

/-- No directory holds a name twice, and every name can be one. -/
def DiskDir.wellNamed : DiskDir → Prop
  | .empty => True
  | .entry name node rest =>
      name ∉ rest.names ∧ name.legal ∧ node.wellNamed ∧ rest.wellNamed

end

/-- The disk below a checkout root. -/
structure Disk where
  entries : DiskDir
  wellNamed : entries.wellNamed

/-! ### The scanner -/

/-- One regular file found on disk: its raw path and the normalized one, and
what the file system holds at it. -/
structure DiskFile where
  raw : Path
  norm : Path
  stat : Metadata
  content : Bytes

/-- `is_reserved`. -/
def isReserved (rel : Path) : Bool := decide (rel.components.headD "" ∈ reservedPrefixes)

/-- `nfc` of a path's text. -/
def normalized (nfc : String → String) (raw : Path) : Path := .ofText (nfc raw.text)

/-- The directory `dirs` and everything below it. -/
def scanDir (nfc : String → String) (dirs : List String) : DiskDir → List DiskFile
  | .empty => []
  | .entry (.ok name) (.file stat content) rest =>
      ⟨⟨dirs, name⟩, normalized nfc ⟨dirs, name⟩, stat, content⟩ :: scanDir nfc dirs rest
  | .entry (.ok name) (.dir entries) rest =>
      if dirs = [] ∧ isReserved ⟨dirs, name⟩ then scanDir nfc dirs rest
      else scanDir nfc (dirs ++ [name]) entries ++ scanDir nfc dirs rest
  | .entry _ _ rest => scanDir nfc dirs rest

/-- `scan_disk`: the files sorted by raw path bytes. -/
def scanDisk (nfc : String → String) (disk : Disk) : List DiskFile :=
  (scanDir nfc [] disk.entries).insertionSort fun f g => f.raw.before g.raw = true

/-! ### The index -/

/-- One indexed file. The two times are the nanoseconds of the recorded
`Metadata`, as `mtime_nsec` and `ctime_nsec` read them. -/
structure Row (Id : Type) where
  path : Path
  blob : Id
  size : ℕ
  mtimeNs : ℤ
  ctimeNs : ℤ
  ino : ℕ
  exec : Bool
  deriving DecidableEq

/-- `Row::from_stat`. -/
def Row.fromStat {Id : Type} (path : Path) (blob : Id) (stat : Metadata) : Row Id :=
  { path, blob
    size := stat.size
    mtimeNs := stat.mtime.nsec
    ctimeNs := stat.ctime.nsec
    ino := stat.ino
    exec := decide (stat.mode &&& 0o111 ≠ 0) }

/-- `stat_matches`. -/
def statMatches {Id : Type} (row : Row Id) (stat : Metadata) : Bool :=
  decide (row.size = stat.size) && decide (row.mtimeNs = stat.mtime.nsec) &&
    decide (row.ctimeNs = stat.ctime.nsec) && decide (row.ino = stat.ino)

/-- The stat index: rows keyed by path, ascending by path bytes. -/
structure Index (Id : Type) where
  rows : List (Path × Row Id)
  ascending : rows.Pairwise fun a b => a.1.text < b.1.text

def Index.get {Id : Type} (index : Index Id) (p : Path) : Option (Row Id) := index.rows.lookup p

/-! ### The classification -/

/-- The working-copy status relative to the stat index. -/
structure Report where
  modified : List Path := []
  deleted : List Path := []
  untracked : List Path := []
  folds : List (Path × List Path) := []
  rawOfUntracked : List (Path × Path) := []
  rawOf : List (Path × Path) := []
  conflicted : List Path := []

/-- `folds.entry(norm).or_insert_with(|| vec![first]).push(raw)`. -/
def pushFold (folds : List (Path × List Path)) (norm first raw : Path) :
    List (Path × List Path) :=
  match folds.lookup norm with
  | some _ => folds.map fun e => if e.1 = norm then (e.1, e.2 ++ [raw]) else e
  | none => folds ++ [(norm, [first, raw])]

/-- The variables of the loop of `classify`. -/
structure Classifying where
  report : Report := {}
  seenTracked : List Path := []
  firstTracked : List (Path × Path) := []

section

variable {Id : Type} [Platform Id]

/-- One round of the loop of `classify`. -/
def classifyFile (index : Index Id) (s : Classifying) (file : DiskFile) : Classifying :=
  match index.get file.norm with
  | some row =>
      if file.norm ∈ s.seenTracked then
        -- a second file on an indexed path: the path is dirty whatever they hold
        let first := (s.firstTracked.lookup file.norm).getD file.raw
        { s with
          report.folds := pushFold s.report.folds file.norm first file.raw
          report.modified :=
            if file.norm ∈ s.report.modified then s.report.modified
            else s.report.modified ++ [file.norm] }
      else
        let s : Classifying :=
          { s with
            seenTracked := file.norm :: s.seenTracked
            firstTracked := (file.norm, file.raw) :: s.firstTracked
            report.rawOf := (file.norm, file.raw) :: s.report.rawOf }
        if statMatches row file.stat then s
        else if Platform.blobId file.content = row.blob then s
        else { s with report.modified := s.report.modified ++ [file.norm] }
  | none =>
      match s.report.rawOfUntracked.lookup file.norm with
      | some first =>
          { s with report.folds := pushFold s.report.folds file.norm first file.raw }
      | none =>
          { s with
            report.rawOfUntracked := (file.norm, file.raw) :: s.report.rawOfUntracked
            report.rawOf := (file.norm, file.raw) :: s.report.rawOf
            report.untracked := s.report.untracked ++ [file.norm] }

/-- `classify`. The three lists end sorted and without repeats. -/
def classify (disk : Disk) (index : Index Id) : Report :=
  let s := (scanDisk (Platform.nfc Id) disk).foldl (classifyFile index) {}
  let deleted := (index.rows.map Prod.fst).filter fun p => decide (p ∉ s.seenTracked)
  { s.report with
    modified := Path.sortPaths s.report.modified
    deleted := Path.sortPaths deleted
    untracked := Path.sortPaths s.report.untracked }

end

/-! ### What is on the disk -/

/-- The regular files of a directory, by their paths below it. -/
inductive FileAt : DiskDir → Path → Metadata → Bytes → Prop
  | here {name : String} {stat : Metadata} {content : Bytes} {rest : DiskDir} :
      FileAt (.entry (.ok name) (.file stat content) rest) ⟨[], name⟩ stat content
  | inside {name : String} {entries rest : DiskDir} {p : Path} {stat : Metadata}
      {content : Bytes} (h : FileAt entries p stat content) :
      FileAt (.entry (.ok name) (.dir entries) rest) ⟨name :: p.dirs, p.leaf⟩ stat content
  | later {name : OsName} {node : DiskNode} {rest : DiskDir} {p : Path} {stat : Metadata}
      {content : Bytes} (h : FileAt rest p stat content) :
      FileAt (.entry name node rest) p stat content

/-- The files of the working copy: those outside the reserved directories. -/
def Disk.HasFile (disk : Disk) (p : Path) (stat : Metadata) (content : Bytes) : Prop :=
  FileAt disk.entries p stat content ∧ ¬ (p.dirs ≠ [] ∧ isReserved p = true)

end Naatre.Client
