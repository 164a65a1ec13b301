import Naatre.Client.Fetch
import Naatre.Client.Scan
import Naatre.Lib.LinkTree

/-!
The verbs that write a checkout (`naatre-cli/src/verbs/sync.rs`, `restore.rs`,
`sparse.rs`) and the helpers they write it with (`wc/mod.rs`, `wc/fetch.rs`).

A verb looks first and then works through a plan: it discards what stands in
the way, materializes files and deletes files. The server's answers are given.
The verb's own files in `.naatre` and the temporary siblings of a write are left
out.
-/

namespace Naatre.Client

open Lib

/-! ### Paths of the file system -/

/-- What a file system compares of a name, and how many links it follows. -/
structure NameRule (κ : Type) where
  key : String → κ
  links : ℕ

section

variable {κ : Type} [DecidableEq κ]

namespace NameRule

def hop (rule : NameRule κ) (name : String) : Hop κ :=
  if name = "" ∨ name = "." then .here
  else if name = ".." then .up
  else .into (rule.key name)

def hops (rule : NameRule κ) (names : List String) : List (Hop κ) := names.map rule.hop

/-- The keys of the two reserved directories. -/
def reserved (rule : NameRule κ) : List κ := reservedPrefixes.map rule.key

end NameRule

/-- A checkout on a file system; files hold their bytes and their exec bit. -/
abbrev CheckoutTree (κ : Type) := LinkTree κ (Bytes × Bool)

/-- The real paths of what a call made, wrote or removed. -/
abbrev Touched (κ : Type) := List (List κ)

/-- `remove_dir` up the parents, the last one first, until one stays. -/
def prune (rule : NameRule κ) (root : List κ) :
    CheckoutTree κ → List String → CheckoutTree κ × Touched κ
  | fs, [] => (fs, [])
  | fs, d :: parents =>
      match fs.rmdir rule.links root (rule.hops parents.reverse) (rule.hop d) with
      | .error _ => (fs, [])
      | .ok (fs, p) =>
          let (fs, gone) := prune rule root fs parents
          (fs, p :: gone)

/-- `remove_and_prune`. -/
def removeAndPrune (rule : NameRule κ) (root : List κ) (fs : CheckoutTree κ) (rel : Path) :
    (CheckoutTree κ × Touched κ) × Option Errno :=
  match fs.unlink rule.links root (rule.hops rel.dirs) (rule.hop rel.leaf) with
  | .error .notFound => ((fs, []), none)
  | .error e => ((fs, []), some e)
  | .ok (fs, p) =>
      let (fs, gone) := prune rule root fs rel.dirs.reverse
      ((fs, p :: gone), none)

/-- `write_checkout_file`. -/
def writeCheckoutFile (rule : NameRule κ) (root : List κ) (fs : CheckoutTree κ) (rel : Path)
    (bytes : Bytes) (exec : Bool) : (CheckoutTree κ × Touched κ) × Option Errno :=
  match fs.mkdirs rule.links root [] (rule.hops rel.dirs) with
  | (st, some e) => (st, some e)
  | ((fs, made), none) =>
      match fs.place rule.links root (rule.hops rel.dirs) (bytes, exec) (rule.hop rel.leaf) with
      | .error e => ((fs, made), some e)
      | .ok (fs, p) => ((fs, made ++ [p]), none)

/-- The components of a path that are links, each as the path up to it. -/
def symlinkComponents (rule : NameRule κ) (root : List κ) (fs : CheckoutTree κ) (p : Path) :
    List Path :=
  ((List.range p.components.length).map fun i =>
      (⟨p.components.take i, p.components.getD i ""⟩ : Path)).filter fun q =>
    fs.lstatLink rule.links root (rule.hops q.dirs) (rule.hop q.leaf)

variable {Id : Type} [Platform Id]

/-- `verify`. -/
def verify (id : Id) (bytes : Bytes) : Bool := decide (Platform.blobId bytes = id)

/-- `materialize`; the flag says whether it went through. -/
def materialize (rule : NameRule κ) (root : List κ) (fs : CheckoutTree κ) (file : TreeFile Id)
    (bytes : Bytes) : (CheckoutTree κ × Touched κ) × Bool :=
  match file.path.validate (Platform.nfc Id) with
  | .error _ => ((fs, []), false)
  | .ok () =>
      if !verify file.blob bytes then ((fs, []), false)
      else if !(symlinkComponents rule root fs file.path).isEmpty then ((fs, []), false)
      else
        match writeCheckoutFile rule root fs file.path bytes file.exec with
        | (st, e) => (st, e.isNone)

/-! ### Plans -/

/-- What a verb does to the checkout once it has looked. -/
structure Plan (Id : Type) where
  discards : List Path
  files : List (TreeFile Id × Bytes)
  deletes : List Path

inductive FileOp (Id : Type)
  | remove (rel : Path)
  | materialize (file : TreeFile Id) (bytes : Bytes)

def Plan.ops (plan : Plan Id) : List (FileOp Id) :=
  plan.discards.map .remove ++ plan.files.map (fun f => .materialize f.1 f.2) ++
    plan.deletes.map .remove

/-- One operation; the flag says whether the verb goes on. -/
def FileOp.run (rule : NameRule κ) (root : List κ) (fs : CheckoutTree κ) :
    FileOp Id → (CheckoutTree κ × Touched κ) × Bool
  | .remove rel =>
      match removeAndPrune rule root fs rel with
      | (st, e) => (st, e.isNone)
  | .materialize file bytes => Client.materialize rule root fs file bytes

/-- The operations in turn, up to the first that fails. -/
def runOps (rule : NameRule κ) (root : List κ) :
    CheckoutTree κ → List (FileOp Id) → CheckoutTree κ × Touched κ
  | fs, [] => (fs, [])
  | fs, op :: ops =>
      match op.run rule root fs with
      | (st, false) => st
      | ((fs, touched), true) =>
          let (fs, rest) := runOps rule root fs ops
          (fs, touched ++ rest)

/-! ### Verbs -/

inductive VerbError
  | usage (text : String)
  | localError (text : String)
  | fetch (e : FetchError)
  /-- the 409 envelope `dirty_working_copy` -/
  | dirtyWorkingCopy (message : String)
  deriving DecidableEq

/-- The untracked and folded files at these paths, by their raw paths. -/
def colliders (report : Report) (paths : List Path) : List Path :=
  Path.sortPaths
    ((report.folds.filter fun fold => decide (fold.1 ∈ paths)).flatMap Prod.snd ++
      (report.untracked.filter (· ∈ paths)).filterMap (report.rawOfUntracked.lookup ·))

def listText (paths : List Path) : String := String.intercalate ", " (paths.map Path.text)

/-- What `walk_tree_inner` came back with. -/
def Walked (answer : Except FetchError (TreeWalk Id)) : Prop :=
  ∃ list fuel root prefixes requirePrefixes,
    walkTreeInner (Platform.nfc Id) list fuel root prefixes requirePrefixes = some answer

/-- A walk of the server's tree and the blobs of its files. -/
structure TreeAnswers (Id : Type) [Platform Id] where
  walk : Except FetchError (TreeWalk Id)
  walked : Walked walk
  blobs : List Id → Except FetchError (Id → Bytes)

/-- The path-level diff of two changesets, and the answers about the target's
tree. -/
structure SyncAnswers (Id : Type) [Platform Id] extends TreeAnswers Id where
  incoming : List (Path × String)

/-- The adds of `apply_tree_diff`. -/
def syncAdds (sparse : List Path) (walk : TreeWalk Id) :
    List (Path × String) → Except VerbError (List (TreeFile Id))
  | [] => .ok []
  | (path, kind) :: incoming =>
      if !underSparse sparse path || kind = "del" then syncAdds sparse walk incoming
      else if path ∈ walk.redacted then syncAdds sparse walk incoming
      else
        match walk.files.reverse.find? fun f => decide (f.path = path) with
        | none =>
            .error (.localError
              ("incoming path " ++ quoted path.text ++ " is missing from the target tree"))
        | some file =>
            match syncAdds sparse walk incoming with
            | .error e => .error e
            | .ok files => .ok (file :: files)

/-- The paths the delete loop removes: the tracked ones among the incoming
deletes. -/
def syncDeletes (sparse : List Path) : List Path → List (Path × String) → List Path
  | _, [] => []
  | tracked, (path, kind) :: incoming =>
      if kind = "del" ∧ underSparse sparse path = true ∧ path ∈ tracked then
        path :: syncDeletes sparse (tracked.filter (· ≠ path)) incoming
      else syncDeletes sparse tracked incoming

/-- `apply_tree_diff`, up to its first write. -/
def syncPlan (sparse : List Path) (index : Index Id) (report : Report) (answers : SyncAnswers Id)
    (force : Bool) : Except VerbError (Plan Id) :=
  let incomingPaths := (answers.incoming.map Prod.fst).filter (underSparse sparse ·)
  let blocked := (Path.sortPaths (report.modified ++ report.deleted)).filter (· ∈ incomingPaths)
  let colliding := colliders report incomingPaths
  if (!blocked.isEmpty || !colliding.isEmpty) && !force then
    .error (.dirtyWorkingCopy ("refusing to sync (nothing changed): local edits on incoming " ++
      "paths: [" ++ listText blocked ++ "]; colliding untracked: [" ++ listText colliding ++
      "]; use --force to discard them"))
  else
    match answers.walk with
    | .error e => .error (.fetch e)
    | .ok walk =>
    match syncAdds sparse walk answers.incoming with
    | .error e => .error e
    | .ok adds =>
    match answers.blobs (adds.map (·.blob)) with
    | .error e => .error (.fetch e)
    | .ok blobs =>
        .ok
          { discards := colliding
            files := adds.map fun file => (file, blobs file.blob)
            deletes := syncDeletes sparse
              (index.rows.map Prod.fst ++ adds.map (·.path)) answers.incoming }

/-- The gate of `restore` and `sparse add`: what stands at the paths they would
materialize. -/
structure Gate where
  blocked : List Path
  colliding : List Path
  symlinks : List Path

def gate (rule : NameRule κ) (root : List κ) (fs : CheckoutTree κ) (report : Report)
    (files : List (TreeFile Id)) : Gate :=
  let paths := files.map (·.path)
  { blocked := (report.modified ++ report.deleted).filter (· ∈ paths)
    colliding := colliders report paths
    symlinks := Path.sortPaths (paths.flatMap (symlinkComponents rule root fs)) }

def Gate.closed (g : Gate) : Bool :=
  !g.blocked.isEmpty || !g.colliding.isEmpty || !g.symlinks.isEmpty

/-- `restore`, up to its first write. -/
def restorePlan (rule : NameRule κ) (root : List κ) (fs : CheckoutTree κ) (report : Report)
    (answers : TreeAnswers Id) (force : Bool) : Except VerbError (Plan Id) :=
  match answers.walk with
  | .error e => .error (.fetch e)
  | .ok walk =>
  let g := gate rule root fs report walk.files
  if g.closed && !force then
    .error (.dirtyWorkingCopy ("refusing to restore (nothing changed): local edits on the " ++
      "snapshot's paths: [" ++ listText g.blocked ++ "]; colliding untracked: [" ++
      listText g.colliding ++ "]; symlinks on the snapshot's paths: [" ++ listText g.symlinks ++
      "]; use --force to discard them"))
  else
    match answers.blobs (walk.files.map (·.blob)) with
    | .error e => .error (.fetch e)
    | .ok blobs =>
        .ok
          { discards := g.symlinks ++ g.colliding
            files := walk.files.map fun file => (file, blobs file.blob)
            deletes := [] }

/-- `add` of `sparse`, up to its first write; a listed prefix writes nothing. -/
def sparseAddPlan (rule : NameRule κ) (root : List κ) (fs : CheckoutTree κ) (sparse : List Path)
    (index : Index Id) (report : Report) (added : Path) (answers : TreeAnswers Id)
    (force : Bool) : Except VerbError (Plan Id) :=
  match added.validate (Platform.nfc Id) with
  | .error e => .error (.usage ("sparse prefix " ++ quoted added.text ++ ": " ++ e.message))
  | .ok () =>
  if sparse.isEmpty then
    .error (.localError ("this working copy is full (no sparse prefixes); narrow it by " ++
      "re-cloning with --sparse"))
  else if added ∈ sparse then .ok ⟨[], [], []⟩
  else
    match answers.walk with
    | .error e => .error (.fetch e)
    | .ok walk =>
    let g := gate rule root fs report walk.files
    if g.closed && !force then
      .error (.dirtyWorkingCopy ("refusing to widen (nothing changed): local edits on the paths " ++
        "it would materialize: [" ++ listText g.blocked ++ "]; colliding untracked: [" ++
        listText g.colliding ++ "]; symlinks on the widened paths: [" ++ listText g.symlinks ++
        "]; use --force to discard them"))
    else
      match answers.blobs (walk.files.map (·.blob)) with
      | .error e => .error (.fetch e)
      | .ok blobs =>
          .ok
            { discards := g.symlinks ++ g.colliding
              files := (walk.files.filter fun file =>
                force || (index.get file.path).isNone).map fun file => (file, blobs file.blob)
              deletes := [] }

/-- `remove` of `sparse`, up to its first delete. -/
def sparseRemovePlan (sparse : List Path) (index : Index Id) (removed : Path) :
    Except VerbError (Plan Id) :=
  if removed ∉ sparse then
    .error (.localError ("sparse prefix " ++ quoted removed.text ++
      " is not in the list (see: naatre sparse list)"))
  else if sparse.length = 1 then
    .error (.localError ("cannot remove the last sparse prefix (the list would mean \"full " ++
      "checkout\"); re-clone without --sparse instead"))
  else
    .ok
      { discards := []
        files := []
        deletes := (index.rows.map Prod.fst).filter (underPrefix removed ·) }

/-- A run of one of the four verbs. -/
inductive Verb (Id : Type) [Platform Id]
  | sync (answers : SyncAnswers Id) (force : Bool)
  | restore (answers : TreeAnswers Id) (force : Bool)
  | sparseAdd (added : Path) (answers : TreeAnswers Id) (force : Bool)
  | sparseRemove (removed : Path)

/-- The plan of a run, of what it finds in the checkout. -/
def Verb.plan (rule : NameRule κ) (root : List κ) (fs : CheckoutTree κ) (disk : Disk)
    (sparse : List Path) (index : Index Id) : Verb Id → Except VerbError (Plan Id)
  | .sync answers force => syncPlan sparse index (classify disk index) answers force
  | .restore answers force => restorePlan rule root fs (classify disk index) answers force
  | .sparseAdd added answers force =>
      sparseAddPlan rule root fs sparse index (classify disk index) added answers force
  | .sparseRemove removed => sparseRemovePlan sparse index removed

/-- What a run touches; an outside failure may end it after `done`
operations. -/
def Verb.touched (rule : NameRule κ) (root : List κ) (fs : CheckoutTree κ) (disk : Disk)
    (sparse : List Path) (index : Index Id) (done : ℕ) (verb : Verb Id) : Touched κ :=
  match verb.plan rule root fs disk sparse index with
  | .error _ => []
  | .ok plan => (runOps rule root fs (plan.ops.take done)).2

end

end Naatre.Client
