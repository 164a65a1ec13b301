import Naatre.Client.Fetch
import Naatre.Client.Scan
import Naatre.Core.Marker
import Naatre.Lib.SortedMap
import Naatre.Server.Routes

/-!
The commit verb (`naatre-cli/src/verbs/commit.rs`): what it gathers from the
status of the checkout, the gate on rendered conflicts, the request it posts and
the index it writes when that is answered. The uploads and `state.json` are left
out.
-/

namespace Naatre.Client

/-! ### Reading the checkout -/

/-- The first entry of a name. -/
def DiskDir.node (name : String) : DiskDir → Option DiskNode
  | .empty => none
  | .entry found node rest => if found = .ok name then some node else rest.node name

/-- `fs::read` and `fs::metadata` of a path of regular directories. -/
def DiskDir.read (leaf : String) : List String → DiskDir → Option (Metadata × Bytes)
  | [], dir =>
      match dir.node leaf with
      | some (.file stat content) => some (stat, content)
      | _ => none
  | name :: names, dir =>
      match dir.node name with
      | some (.dir entries) => entries.read leaf names
      | _ => none

def execBit (stat : Metadata) : Bool := decide (stat.mode &&& 0o111 ≠ 0)

inductive CommitError
  | read (raw : Path)
  /-- the 409 envelope `conflict_markers_present` -/
  | conflictMarkersPresent (path : Path)
  /-- `expect("add/mod carries a blob")` -/
  | noBlob (path : Path)
  deriving DecidableEq

section

variable {Id : Type} [Platform Id]

/-- `read_wc_file`: the blob, the size, the exec bit and the bytes. -/
def readWcFile (Id : Type) [Platform Id] (disk : Disk) (raw : Path) :
    Except CommitError (Id × ℕ × Bool × Bytes) :=
  match disk.entries.read raw.leaf raw.dirs with
  | none => .error (.read raw)
  | some (stat, content) =>
      .ok (Platform.blobId content, content.length, execBit stat, content)

/-! ### The pending changes -/

/-- `Pending`: one change gathered from the scan. -/
structure Pending (Id : Type) where
  path : Path
  raw : Path
  op : Op
  blob : Option Id
  size : Option ℕ
  exec : Option Bool

def rawOf (report : Report) (path : Path) : Path := (report.rawOf.lookup path).getD path

def pendingDelete (report : Report) (path : Path) : Pending Id :=
  ⟨path, rawOf report path, .del, none, none, none⟩

/-- A file as it is on the disk; a rendered conflict is refused. -/
def pendingFile (disk : Disk) (report : Report) (op : Op) (path : Path) :
    Except CommitError (Pending Id) :=
  match readWcFile Id disk (rawOf report path) with
  | .error e => .error e
  | .ok (blob, size, exec, bytes) =>
      if markerShaped bytes then .error (.conflictMarkersPresent path)
      else .ok ⟨path, rawOf report path, op, some blob, some size, some exec⟩

/-- `dedup_by` path, after `first`. -/
def dedupFrom (first : Pending Id) : List (Pending Id) → List (Pending Id)
  | [] => [first]
  | next :: rest =>
      if next.path = first.path then dedupFrom first rest else first :: dedupFrom next rest

def dedupByPath : List (Pending Id) → List (Pending Id)
  | [] => []
  | first :: rest => dedupFrom first rest

/-- The change set of a status: deleted and modified paths, and the untracked
ones of the cone, in path order. -/
def gatherPending (sparse : List Path) (disk : Disk) (report : Report) :
    Except CommitError (List (Pending Id)) :=
  match report.modified.mapM (pendingFile disk report .mod) with
  | .error e => .error e
  | .ok modified =>
      match (report.untracked.filter (underSparse sparse ·)).mapM (pendingFile disk report .add) with
      | .error e => .error e
      | .ok added =>
          .ok (dedupByPath ((report.deleted.map (pendingDelete report) ++ modified ++
            added).insertionSort fun a b => a.path.before b.path = true))

def Pending.change (p : Pending Id) : FileChange Id := ⟨p.path, p.op, p.blob, p.size, p.exec⟩

/-- The request of a commit on top of the head; `none` where there is nothing to
commit. -/
def commitRequest (repoName principal : String) (scope : Option String) (head : Id)
    (author message : String) (nowNs : ℕ) (sparse : List Path) (disk : Disk)
    (index : Index Id) : Except CommitError (Option (CreateRequest Id)) :=
  match gatherPending sparse disk (classify disk index) with
  | .error e => .error e
  | .ok [] => .ok none
  | .ok pending =>
      .ok (some
        { repoName, principal, scope
          parents := [head]
          author, message
          timestampNs := some nowNs
          changes := pending.map Pending.change })

/-! ### The index after a commit -/

def keyed (e : Path × Row Id) : String × (Path × Row Id) := (e.1.text, e)

omit [Platform Id] in
theorem sortedInsert_keyed {rows : List (Path × Row Id)} {e : Path × Row Id}
    (h : rows.Pairwise fun a b => a.1.text < b.1.text) :
    ((Lib.sortedInsert e.1.text e (rows.map keyed)).map Prod.snd).Pairwise
      fun a b => a.1.text < b.1.text := by
  have hascends : Lib.Ascends (rows.map keyed) := List.pairwise_map.mpr h
  have hkeys : ∀ x ∈ Lib.sortedInsert e.1.text e (rows.map keyed), x.1 = x.2.1.text := by
    intro x hx
    rcases (Lib.mem_sortedInsert hascends).mp hx with rfl | ⟨hx, -⟩
    · rfl
    · obtain ⟨y, -, rfl⟩ := List.mem_map.mp hx
      rfl
  rw [List.pairwise_map]
  refine List.Pairwise.imp_of_mem (fun {x y} hx hy hlt => ?_) hascends.insert
  rw [← hkeys x hx, ← hkeys y hy]
  exact hlt

/-- `rows.insert`, keyed by the text of the path. -/
def Index.insert (index : Index Id) (p : Path) (row : Row Id) : Index Id where
  rows := (Lib.sortedInsert p.text (p, row) (index.rows.map keyed)).map Prod.snd
  ascending := @sortedInsert_keyed _ index.rows (p, row) index.ascending

/-- `rows.remove`. -/
def Index.remove (index : Index Id) (p : Path) : Index Id where
  rows := index.rows.filter fun e => decide (e.1.text ≠ p.text)
  ascending := index.ascending.filter _

/-- The row of a committed path: the blob that was sent, and the stat the disk
has for it. -/
def settleOne (disk : Disk) (index : Index Id) (p : Pending Id) :
    Except CommitError (Index Id) :=
  match p.op, p.blob with
  | .del, _ => .ok (index.remove p.path)
  | _, none => .error (.noBlob p.path)
  | _, some blob =>
      match disk.entries.read p.raw.leaf p.raw.dirs with
      | none => .error (.read p.raw)
      | some (stat, _) => .ok (index.insert p.path (.fromStat p.path blob stat))

/-- The rows of the committed paths. -/
def settleIndex (disk : Disk) (index : Index Id) (pending : List (Pending Id)) :
    Except CommitError (Index Id) :=
  pending.foldlM (settleOne disk) index

end

end Naatre.Client
