import Naatre.Server.Closure
import Naatre.Server.Merge

/-!
The client's tree walk (`naatre-cli/src/wc/fetch.rs`, `wc/mod.rs`) over the
listings of the server's tree route (`naatre-server/src/routes/trees.rs`).

A directory is kept as the list of its components, a path as everywhere in the
model, so that the string tests of the source (`starts_with` a path and a
slash) are tests on component lists. A blob id in a listing arrives as hex and
is read back; a masked entry arrives without one.
-/

namespace Naatre

section

variable {Id : Type} [Platform Id]

/-- `TreeEntryOut`, one entry of a listing as the client reads it. -/
structure TreeEntryOut (Id : Type) where
  name : String
  kind : EntryKind
  objectId : Option Id
  size : Option ℕ
  exec : Option Bool
  redacted : Bool
  deriving DecidableEq

/-- `redactions_dirty_dirs`: a tombstoned blob lies somewhere below. -/
def dirtyDir (trees : List (TreeRow Id)) (redacted : List Id) (id : Id) : Bool :=
  (treeClosure trees [id]).any fun t =>
    match treeGet trees t with
    | none => false
    | some row => row.files.any fun blob => decide (blob ∈ redacted)

/-- One entry of `mask_tree_entries`. -/
def maskTreeEntry (trees : List (TreeRow Id)) (redacted : List Id) (e : TreeEntry Id) :
    TreeEntryOut Id :=
  let masked := decide (e.object ∈ redacted)
  let aggregateMasked := decide (e.kind = .dir) && dirtyDir trees redacted e.object
  { name := e.name
    kind := e.kind
    objectId := if masked then none else some e.object
    size := if masked || aggregateMasked then none else some e.size
    exec := if masked then none else some e.exec
    redacted := masked }

/-- `get_tree`: the masked listing of a stored tree. -/
def getTree (trees : List (TreeRow Id)) (redacted : List Id) (id : Id) :
    Option (List (TreeEntryOut Id)) :=
  (treeGet trees id).map fun row => row.entries.map (maskTreeEntry trees redacted)

end

namespace Client

variable {Id : Type} [Platform Id]

inductive FetchError
  | http
  | localError (text : String)
  deriving DecidableEq

/-- One file of the (sparse-filtered) server tree. -/
structure TreeFile (Id : Type) where
  path : Path
  blob : Id
  size : ℕ
  exec : Bool
  deriving DecidableEq

/-- `TreeWalk`: the cone's available files and its masked paths. -/
structure TreeWalk (Id : Type) where
  files : List (TreeFile Id)
  redacted : List Path
  deriving DecidableEq

/-- `under_prefix`: a prefix matches itself and everything under it. -/
def underPrefix (p path : Path) : Bool := p.components.isPrefixOf path.components

/-- `under_sparse`. -/
def underSparse (prefixes : List Path) (path : Path) : Bool :=
  prefixes.isEmpty || prefixes.any (underPrefix · path)

/-- A directory on the path to a prefix or under one. -/
def descends (prefixes : List Path) (full : List String) : Bool :=
  prefixes.isEmpty ||
    prefixes.any fun p => full.isPrefixOf p.components || p.components.isPrefixOf full

/-- The variables of the loop of `walk_tree_inner`. -/
structure WalkState (Id : Type) where
  walk : TreeWalk Id
  visited : List Id
  descended : List (List String)
  queue : List (List String × Id)

def malformedObjectId (name : String) : FetchError :=
  .localError ("tree entry " ++ quoted name ++ " has a malformed object id")

/-- One entry of the listing of `dir`. -/
def visitEntry (nfc : String → String) (prefixes : List Path) (dir : List String)
    (s : WalkState Id) (e : TreeEntryOut Id) : Except FetchError (WalkState Id) :=
  let full : Path := ⟨dir, e.name⟩
  match e.kind with
  | .file =>
      match e.objectId with
      | none =>
          if e.redacted then
            .ok (if underSparse prefixes full then
              { s with walk.redacted := s.walk.redacted ++ [full] } else s)
          else .error (malformedObjectId e.name)
      | some oid =>
          if underSparse prefixes full then
            match full.validate nfc with
            | .error err =>
                .error (.localError ("server path " ++ quoted full.text ++ ": " ++ err.message))
            | .ok () =>
                .ok { s with
                  walk.files := s.walk.files ++
                    [⟨full, oid, e.size.getD 0, e.exec.getD false⟩] }
          else .ok s
  | .dir =>
      match e.objectId with
      | none => .error (malformedObjectId e.name)
      | some oid =>
          if descends prefixes full.components then
            .ok { s with
              descended := full.components :: s.descended
              queue := s.queue ++ [(full.components, oid)] }
          else .ok s

/-- One round of the loop: the first directory of the queue. -/
def walkStep (nfc : String → String) (list : Id → Option (List (TreeEntryOut Id)))
    (prefixes : List Path) (s : WalkState Id) : Except FetchError (WalkState Id) :=
  match s.queue with
  | [] => .ok s
  | (dir, treeId) :: rest =>
      if treeId ∈ s.visited then .ok { s with queue := rest }
      else match list treeId with
        | none => .error .http
        | some entries =>
            entries.foldlM (visitEntry nfc prefixes dir)
              { s with queue := rest, visited := treeId :: s.visited }

/-- The loop, at most `fuel` rounds of it. -/
def walkLoop (nfc : String → String) (list : Id → Option (List (TreeEntryOut Id)))
    (prefixes : List Path) : ℕ → WalkState Id → Option (Except FetchError (WalkState Id))
  | 0, s => if s.queue.isEmpty then some (.ok s) else none
  | fuel + 1, s =>
      if s.queue.isEmpty then some (.ok s)
      else match walkStep nfc list prefixes s with
        | .error e => some (.error e)
        | .ok s' => walkLoop nfc list prefixes fuel s'

def walkStart (root : Id) : WalkState Id := ⟨⟨[], []⟩, [], [], [([], root)]⟩

/-- The prefix exists in what was walked. -/
def prefixFound (s : WalkState Id) (p : Path) : Bool :=
  decide (p.components ∈ s.descended) || s.walk.files.any (fun f => decide (f.path = p)) ||
    decide (p ∈ s.walk.redacted)

/-- What the walk returns: the strict form asks for every prefix. -/
def checkPrefixes (requirePrefixes : Bool) (prefixes : List Path) (s : WalkState Id) :
    Except FetchError (TreeWalk Id) :=
  match if requirePrefixes then prefixes.find? (fun p => !prefixFound s p) else none with
  | some p =>
      .error (.localError ("sparse prefix " ++ quoted p.text ++ " does not exist in the tree"))
  | none => .ok s.walk

/-- The first prefix outside the path grammar. -/
def validatePrefixes (nfc : String → String) : List Path → Except FetchError Unit
  | [] => .ok ()
  | p :: ps =>
      match p.validate nfc with
      | .error err =>
          .error (.localError ("sparse prefix " ++ quoted p.text ++ ": " ++ err.message))
      | .ok () => validatePrefixes nfc ps

/-- `walk_tree_inner`: `walk_tree` asks for every prefix,
`walk_tree_allowing_missing_prefixes` and `walk_snapshot_tree` do not. `none`
is a walk that `fuel` rounds do not finish. -/
def walkTreeInner (nfc : String → String) (list : Id → Option (List (TreeEntryOut Id)))
    (fuel : ℕ) (root : Id) (prefixes : List Path) (requirePrefixes : Bool) :
    Option (Except FetchError (TreeWalk Id)) :=
  match validatePrefixes nfc prefixes with
  | .error e => some (.error e)
  | .ok () =>
      match walkLoop nfc list prefixes fuel (walkStart root) with
      | none => none
      | some (.error e) => some (.error e)
      | some (.ok s) => some (checkPrefixes requirePrefixes prefixes s)

end Client

end Naatre
