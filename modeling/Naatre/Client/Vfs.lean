import Naatre.Lib.Disk
import Naatre.Lib.Run
import Naatre.Lib.Table
import Naatre.Server.Routes
import Naatre.Server.TreeLoad
import Naatre.Server.TreeNames

/-!
The writable overlay of a mount (`naatre-cli/src/vfs.rs`): the lazily loaded
listings of the pinned tree, the checks of `create` and `write`, and the shadow
copies.

A call checks under the lock and takes it again to stage, so other calls come
between the two. A call whose shadow copy cannot be written stages nothing; no
event stands for it.
-/

namespace Naatre.Client

namespace Vfs

/-! ### Mounts -/

/-- `VfsError`. -/
inductive VfsError (Id : Type)
  | http (e : ApiError Id)
  | notFound (path : String)
  | notADirectory (path : String)
  | isADirectory (path : String)
  | readOnly
  | invalidPath (why : String)
  | localError (why : String)

/-- The children of a loaded directory; no two of them have one name. -/
abbrev Listing (Id : Type) := List (TreeEntry Id)

/-- `MountSource::tree`; `none` where the server does not answer. -/
abbrev Source (Id : Type) := Id → Option (Listing Id)

/-- The loaded directories, keyed by their components from the last to the
first. -/
abbrev Dirs (Id : Type) := List (List String × Listing Id)

structure MountPin (Id : Type) where
  changeset : Id
  rootTree : Id

/-- `NaatreVfs` and its calls: `staged` has the number and the size of each
path's shadow file, `shadow` the content of each number, the newest first. -/
structure Mount (Id : Type) where
  repo : String
  pin : MountPin Id
  writable : Bool
  dirs : Dirs Id
  staged : List (Path × ℕ × ℕ)
  shadow : List (ℕ × Bytes)
  /-- the calls that passed their checks, with what they stage -/
  inFlight : List (Path × Bytes)
  /-- what the calls have staged, in order -/
  buffered : List (Path × Bytes)

/-- A mount nothing was done on. -/
structure Mount.Fresh {Id : Type} (m : Mount Id) : Prop where
  writable : m.writable = true
  dirs : m.dirs = []
  staged : m.staged = []
  shadow : m.shadow = []
  inFlight : m.inFlight = []
  buffered : m.buffered = []

/-- The components of a directory; `""` is the root. -/
def dirComponents (dir : String) : List String := if dir = "" then [] else Lib.components dir

/-- `split_last`, with the components of the directory. -/
def splitPath (path : String) : Path :=
  ⟨(Lib.components path).dropLast, (Lib.components path).getLastD ""⟩

section

variable {Id : Type} [Platform Id]

/-! ### Listings -/

/-- `children.get`. -/
def child (entries : Listing Id) (name : String) : Option (TreeEntry Id) :=
  entries.find? fun e => decide (e.name = name)

def dirText (parents : List String) : String := Lib.joinSlash parents.reverse

def unanswered : VfsError Id := .localError "the server did not answer"

/-- `ensure_dir_locked`, and the listing it makes sure of. -/
def ensureDir (tree : Source Id) (pin : MountPin Id) :
    List String → Dirs Id → Except (VfsError Id) (Listing Id) × Dirs Id
  | [], dirs =>
      match dirs.lookup [] with
      | some entries => (.ok entries, dirs)
      | none =>
          match tree pin.rootTree with
          | none => (.error unanswered, dirs)
          | some entries => (.ok entries, ([], entries) :: dirs)
  | name :: parents, dirs =>
      match dirs.lookup (name :: parents) with
      | some entries => (.ok entries, dirs)
      | none =>
          match ensureDir tree pin parents dirs with
          | (.error e, dirs) => (.error e, dirs)
          | (.ok siblings, dirs) =>
              match child siblings name with
              | none => (.error (.notFound (dirText (name :: parents))), dirs)
              | some e =>
                  if e.kind ≠ .dir then (.error (.notADirectory (dirText (name :: parents))), dirs)
                  else match tree e.object with
                    | none => (.error unanswered, dirs)
                    | some entries => (.ok entries, (name :: parents, entries) :: dirs)

/-! ### Calls -/

def caseFoldText (name sibling : String) : String :=
  quoted name ++ " is equal under case folding to " ++ quoted sibling ++ " in the same directory"

def sameFold (Id : Type) [Platform Id] (name sibling : String) : Bool :=
  decide (sibling ≠ name) && decide (Platform.lower Id sibling = Platform.lower Id name)

/-- The staged sibling that folds to the name, the first in path order. -/
def stagedSibling (m : Mount Id) (p : Path) : Option Path :=
  (Path.sortPaths (m.staged.map Prod.fst)).find? fun q =>
    decide (q.dirs = p.dirs) && sameFold Id p.leaf q.leaf

def pinnedSibling (entries : Listing Id) (name : String) : Option (TreeEntry Id) :=
  entries.find? fun e => sameFold Id name e.name

/-- `create`, up to the release of the lock: the path it goes on to stage. -/
def createCheck (tree : Source Id) (m : Mount Id) (dir name : String) :
    Except (VfsError Id) Path × Dirs Id :=
  if !m.writable then (.error .readOnly, m.dirs)
  else if Platform.nfc Id dir ≠ dir then
    (.error (.invalidPath ("directory " ++ quoted dir ++ " is not in NFC normalization form")), m.dirs)
  else if Platform.nfc Id name ≠ name then
    (.error (.invalidPath ("name " ++ quoted name ++ " is not in NFC normalization form")), m.dirs)
  else match validateComponent (Platform.nfc Id) name with
  | .error e => (.error (.invalidPath e.message), m.dirs)
  | .ok () =>
  let p : Path := ⟨dirComponents dir, name⟩
  match p.validate (Platform.nfc Id) with
  | .error e => (.error (.invalidPath e.message), m.dirs)
  | .ok () =>
  match ensureDir tree m.pin p.dirs.reverse m.dirs with
  | (.error e, dirs) => (.error e, dirs)
  | (.ok entries, dirs) =>
  match stagedSibling m p, pinnedSibling entries name with
  | some q, _ => (.error (.invalidPath (caseFoldText name q.leaf)), dirs)
  | none, some e => (.error (.invalidPath (caseFoldText name e.name)), dirs)
  | none, none => (.ok p, dirs)

/-- `stat`: whether the path is a file, and whether it is there at all; a staged
path is a file. -/
def statKind (tree : Source Id) (m : Mount Id) (p : Path) : Except (VfsError Id) EntryKind × Dirs Id :=
  match ensureDir tree m.pin p.dirs.reverse m.dirs with
  | (.error e, dirs) => (.error e, dirs)
  | (.ok entries, dirs) =>
      if (m.staged.lookup p).isSome then (.ok .file, dirs)
      else match child entries p.leaf with
        | none => (.error (.notFound p.text), dirs)
        | some e => (.ok e.kind, dirs)

/-- `write`, up to its `stage`. -/
def writeCheck (tree : Source Id) (m : Mount Id) (path : String) :
    Except (VfsError Id) Path × Dirs Id :=
  let p := splitPath path
  if !m.writable then (.error .readOnly, m.dirs)
  else if Platform.nfc Id path ≠ path then
    (.error (.invalidPath ("path " ++ quoted path ++ " is not in NFC normalization form")), m.dirs)
  else match p.validate (Platform.nfc Id) with
  | .error e => (.error (.invalidPath e.message), m.dirs)
  | .ok () =>
  if (m.staged.lookup p).isSome then (.ok p, m.dirs)
  else match statKind tree m p with
  | (.ok .file, dirs) => (.ok p, dirs)
  | (.ok .dir, dirs) => (.error (.isADirectory path), dirs)
  | (.error e, dirs) => (.error e, dirs)

/-- `stage`: the shadow file of a path is numbered once. -/
def stage (m : Mount Id) (p : Path) (bytes : Bytes) : Mount Id :=
  let buffered := m.buffered ++ [(p, bytes)]
  match m.staged.lookup p with
  | some (file, _) =>
      { m with
        shadow := (file, bytes) :: m.shadow
        staged := m.staged.map fun s => if s.1 = p then (p, file, bytes.length) else s
        buffered := buffered }
  | none =>
      let file := m.staged.length + 1
      { m with
        shadow := (file, bytes) :: m.shadow
        staged := m.staged ++ [(p, file, bytes.length)]
        buffered := buffered }

inductive MountEvent (Id : Type)
  /-- a read call loads a directory -/
  | browse (tree : Source Id) (dirs : List String)
  /-- a call checks, with the server as it answers now -/
  | create (tree : Source Id) (dir name : String)
  | write (tree : Source Id) (path : String) (bytes : Bytes)
  /-- the `i`-th call in flight stages -/
  | stage (i : ℕ)

/-- A checked call goes in flight, a refused one ends. -/
def launch (m : Mount Id) (bytes : Bytes) : Except (VfsError Id) Path × Dirs Id → Mount Id
  | (.ok p, dirs) => { m with dirs := dirs, inFlight := m.inFlight ++ [(p, bytes)] }
  | (.error _, dirs) => { m with dirs := dirs }

def step (m : Mount Id) : MountEvent Id → Option (Mount Id)
  | .browse tree dirs => some { m with dirs := (ensureDir tree m.pin dirs.reverse m.dirs).2 }
  | .create tree dir name => some (launch m [] (createCheck tree m dir name))
  | .write tree path bytes => some (launch m bytes (writeCheck tree m path))
  | .stage i =>
      (m.inFlight[i]?).map fun (p, bytes) =>
        { stage m p bytes with inFlight := m.inFlight.eraseIdx i }

/-- The bytes buffered for a path: what was staged last. -/
def buffer (m : Mount Id) (p : Path) : Option Bytes := m.buffered.reverse.lookup p

/-! ### The pinned tree -/

/-- The directory at these components. -/
def nodeAt (node : MemNode Id) : List String → Option (MemNode Id)
  | [] => some node
  | d :: ds =>
      match node.get d with
      | some (.dir child) => nodeAt child ds
      | _ => none

/-- The server's listings of the trees it stores. -/
def serverTree (trees : List (TreeRow Id)) : Source Id := fun id =>
  (treeGet trees id).map TreeRow.entries

/-- What the server answers is what it stores. -/
def Honest (trees : List (TreeRow Id)) (tree : Source Id) : Prop :=
  ∀ id entries, tree id = some entries → serverTree trees id = some entries

def EventHonest (trees : List (TreeRow Id)) (_ : Mount Id) : MountEvent Id → Prop
  | .browse tree _ => Honest trees tree
  | .create tree _ _ => Honest trees tree
  | .write tree _ _ => Honest trees tree
  | .stage _ => True

/-- The states of a writable mount. -/
abbrev Mounted (trees : List (TreeRow Id)) : Mount Id → Prop :=
  Lib.Reach Mount.Fresh step (EventHonest trees)

/-- A listing of a directory of the tree. -/
def Lists (trees : List (TreeRow Id)) (entries : Listing Id) (node : MemNode Id) : Prop :=
  ∃ fuel, loadEntries (loadNode trees fuel) entries = .ok node

omit [Platform Id] in
theorem nodeAt_append (node : MemNode Id) (ds es : List String) :
    nodeAt node (ds ++ es) = (nodeAt node ds).bind fun n => nodeAt n es := by
  induction ds generalizing node with
  | nil => rfl
  | cons d ds ih =>
      rw [List.cons_append, nodeAt, nodeAt]
      match node.get d with
      | some (.dir child) => exact ih child
      | some (.file _ _ _) => rfl
      | none => rfl

omit [Platform Id] in
theorem nodeAt_snoc (node : MemNode Id) (ds : List String) (d : String) :
    nodeAt node (ds ++ [d]) = match (nodeAt node ds).bind fun n => n.get d with
      | some (.dir child) => some child
      | _ => none := by
  rw [nodeAt_append]
  cases nodeAt node ds <;> rfl

omit [Platform Id] in
theorem lookupIn_nodeAt (node : MemNode Id) (ds : List String) (leaf : String) :
    node.lookupIn ds leaf = (nodeAt node ds).bind fun n => n.get leaf := by
  induction ds generalizing node with
  | nil => rfl
  | cons d ds ih =>
      rw [MemNode.lookupIn_cons, nodeAt]
      match node.get d with
      | some (.dir child) => exact ih child
      | some (.file _ _ _) => rfl
      | none => rfl

omit [Platform Id] in
/-- A child of a listing, and what stands under its name in the tree. -/
theorem child_loaded {load : Id → Except (DeriveError Id) (MemNode Id)} {entries : Listing Id}
    {node : MemNode Id} (h : loadEntries load entries = .ok node) (name : String) :
    match child entries name with
    | none => node.get name = none
    | some e => ∃ entry, EntryLoaded load e entry ∧ node.get name = some entry := by
  induction entries generalizing node with
  | nil =>
      cases h
      rfl
  | cons e es ih =>
      obtain ⟨entry, rest, hentry, hrest, rfl⟩ := loadEntries_cons.mp h
      unfold child
      rw [List.find?_cons]
      by_cases hname : e.name = name
      · rw [decide_eq_true hname]
        exact ⟨entry, hentry, by rw [MemNode.get, if_pos hname]⟩
      · rw [decide_eq_false hname, MemNode.get, if_neg hname]
        exact ih hrest

/-! ### Loaded directories -/

section

variable {trees : List (TreeRow Id)} {pin : MountPin Id} {parent : MemNode Id}

/-- The tree of the pinned changeset. -/
def Pinned (trees : List (TreeRow Id)) (pin : MountPin Id) (parent : MemNode Id) : Prop :=
  ∃ fuel, loadNode trees fuel pin.rootTree = .ok parent

/-- The directory at these components, listed. -/
def ListsAt (trees : List (TreeRow Id)) (parent : MemNode Id) (ds : List String)
    (entries : Listing Id) : Prop :=
  ∃ node, nodeAt parent ds = some node ∧ Lists trees entries node

/-- Every loaded directory is a listing of the pinned one. -/
def Loaded (trees : List (TreeRow Id)) (parent : MemNode Id) (dirs : Dirs Id) : Prop :=
  ∀ key entries, dirs.lookup key = some entries → ListsAt trees parent key.reverse entries

theorem Loaded.cons {dirs : Dirs Id} (h : Loaded trees parent dirs) {key : List String}
    {entries : Listing Id} (hnew : ListsAt trees parent key.reverse entries) :
    Loaded trees parent ((key, entries) :: dirs) := by
  intro key' entries' hlookup
  rw [List.lookup_cons] at hlookup
  split at hlookup
  next heq =>
    cases hlookup
    rw [eq_of_beq heq]
    exact hnew
  next => exact h key' entries' hlookup

/-- What the server answers for a stored tree lists it. -/
theorem lists_of_load {fuel : ℕ} {id : Id} {node : MemNode Id} {entries : Listing Id}
    (hload : loadNode trees fuel id = .ok node) (htree : serverTree trees id = some entries) :
    Lists trees entries node := by
  cases fuel with
  | zero => cases hload
  | succ fuel =>
      obtain ⟨row, hrow, hentries⟩ := loadNode_succ.mp hload
      obtain ⟨row', hrow', rfl⟩ := Option.map_eq_some_iff.mp htree
      rw [hrow] at hrow'
      cases hrow'
      exact ⟨fuel, hentries⟩

theorem serverTree_of_load {fuel : ℕ} {id : Id} {node : MemNode Id}
    (hload : loadNode trees fuel id = .ok node) : ∃ entries, serverTree trees id = some entries := by
  cases fuel with
  | zero => cases hload
  | succ fuel =>
      obtain ⟨row, hrow, -⟩ := loadNode_succ.mp hload
      exact ⟨row.entries, by rw [serverTree, hrow]; rfl⟩

/-- A child of a listed directory is there with its kind. -/
theorem ListsAt.child {ds : List String} {entries : Listing Id} (h : ListsAt trees parent ds entries)
    (name : String) : match child entries name with
    | none => parent.lookupIn ds name = none
    | some e => (e.kind = .file ∧ (MemEntry.toFile (parent.lookupIn ds name)).isSome) ∨
        ∃ node fuel, e.kind = .dir ∧ parent.lookupIn ds name = some (.dir node) ∧
          loadNode trees fuel e.object = .ok node := by
  obtain ⟨node, hnode, fuel, hload⟩ := h
  have hchild := child_loaded hload name
  rw [lookupIn_nodeAt, hnode, Option.bind_some]
  split at hchild
  next hnone => exact hchild
  next e he =>
    obtain ⟨entry, hentry, hget⟩ := hchild
    rw [hget]
    cases hentry with
    | file hkind => exact .inl ⟨hkind, rfl⟩
    | dir child hkind hchild => exact .inr ⟨child, fuel, hkind, rfl, hchild⟩

/-- A directory that is made sure of is a pinned one, and so are the loaded ones
then. -/
theorem ensureDir_loaded (hpin : Pinned trees pin parent) {tree : Source Id}
    (htree : Honest trees tree) (key : List String) {dirs : Dirs Id}
    (hdirs : Loaded trees parent dirs) :
    Loaded trees parent (ensureDir tree pin key dirs).2 ∧
      ∀ entries, (ensureDir tree pin key dirs).1 = .ok entries →
        ListsAt trees parent key.reverse entries := by
  induction key with
  | nil =>
      unfold ensureDir
      split
      next entries hcached =>
        refine ⟨hdirs, fun found h => ?_⟩
        cases h
        exact hdirs _ _ hcached
      next hmiss =>
        split
        next => exact ⟨hdirs, fun found h => by cases h⟩
        next entries hanswer =>
          obtain ⟨fuel, hload⟩ := hpin
          have hlists : ListsAt trees parent [] entries :=
            ⟨parent, rfl, lists_of_load hload (htree _ _ hanswer)⟩
          refine ⟨hdirs.cons hlists, fun found h => ?_⟩
          cases h
          exact hlists
  | cons name parents ih =>
      unfold ensureDir
      split
      next entries hcached =>
        refine ⟨hdirs, fun found h => ?_⟩
        cases h
        exact hdirs _ _ hcached
      next hmiss =>
        split
        next e dirs' hparent =>
          rw [hparent] at ih
          exact ⟨ih.1, fun found h => by cases h⟩
        next siblings dirs' hparent =>
          rw [hparent] at ih
          have hchild := (ih.2 siblings rfl).child name
          split
          next => exact ⟨ih.1, fun found h => by cases h⟩
          next e he =>
            rw [he] at hchild
            split
            next => exact ⟨ih.1, fun found h => by cases h⟩
            next hkind =>
              have hkind : e.kind = .dir := not_not.mp hkind
              split
              next => exact ⟨ih.1, fun found h => by cases h⟩
              next entries hanswer =>
                obtain ⟨hfile, -⟩ | ⟨node, fuel, -, hlookup, hload⟩ := hchild
                · rw [hkind] at hfile
                  cases hfile
                have hnode : nodeAt parent (name :: parents).reverse = some node := by
                  rw [List.reverse_cons, nodeAt_snoc, ← lookupIn_nodeAt, hlookup]
                have hlists : ListsAt trees parent (name :: parents).reverse entries :=
                  ⟨node, hnode, lists_of_load hload (htree _ _ hanswer)⟩
                refine ⟨ih.1.cons hlists, fun found h => ?_⟩
                cases h
                exact hlists

/-- A server that answers loads every pinned directory. -/
theorem ensureDir_pinned (hpin : Pinned trees pin parent) (key : List String) {dirs : Dirs Id}
    (hdirs : Loaded trees parent dirs) {node : MemNode Id}
    (hnode : nodeAt parent key.reverse = some node) :
    ∃ entries, (ensureDir (serverTree trees) pin key dirs).1 = .ok entries := by
  have hhonest : Honest trees (serverTree trees) := fun _ _ h => h
  induction key generalizing node with
  | nil =>
      unfold ensureDir
      split
      next entries hcached => exact ⟨entries, rfl⟩
      next hmiss =>
        obtain ⟨fuel, hload⟩ := hpin
        obtain ⟨entries, hanswer⟩ := serverTree_of_load hload
        rw [hanswer]
        exact ⟨entries, rfl⟩
  | cons name parents ih =>
      unfold ensureDir
      split
      next entries hcached => exact ⟨entries, rfl⟩
      next hmiss =>
        rw [List.reverse_cons, nodeAt_snoc, ← lookupIn_nodeAt] at hnode
        have hlookup : parent.lookupIn parents.reverse name = some (.dir node) := by
          split at hnode
          next child hchild =>
            cases hnode
            exact hchild
          next => cases hnode
        obtain ⟨above, habove⟩ : ∃ above, nodeAt parent parents.reverse = some above := by
          rw [lookupIn_nodeAt, Option.bind_eq_some_iff] at hlookup
          exact hlookup.imp fun _ h => h.1
        obtain ⟨siblings, hsiblings⟩ := ih habove
        have hlists := (ensureDir_loaded hpin hhonest parents hdirs).2 siblings hsiblings
        have hchild := hlists.child name
        split
        next e dirs' hparent =>
          rw [hparent] at hsiblings
          cases hsiblings
        next found dirs' hparent =>
          rw [hparent] at hsiblings
          cases hsiblings
          split
          next hnone =>
            rw [hnone] at hchild
            rw [hlookup] at hchild
            cases hchild
          next e he =>
            rw [he] at hchild
            obtain ⟨-, hfile⟩ | ⟨node', fuel, hkind, -, hload⟩ := hchild
            · rw [hlookup] at hfile
              cases hfile
            rw [if_neg (not_not.mpr hkind)]
            obtain ⟨entries, hanswer⟩ := serverTree_of_load hload
            rw [hanswer]
            exact ⟨entries, rfl⟩

/-! ### Checked paths -/

/-- A path a call may stage: valid, and in a pinned directory. -/
structure Admitted (parent : MemNode Id) (p : Path) : Prop where
  valid : p.validate (Platform.nfc Id) = .ok ()
  split : ∀ c ∈ p.components, NoSlash c
  dir : ∃ node, nodeAt parent p.dirs = some node

theorem noSlash_of_valid {name : String}
    (h : validateComponent (Platform.nfc Id) name = .ok ()) : NoSlash name := by
  intro hslash
  unfold validateComponent at h
  dsimp only at h
  rw [if_pos hslash] at h
  split_ifs at h

omit [Platform Id] in
theorem dirComponents_noSlash (dir : String) : ∀ c ∈ dirComponents dir, NoSlash c := by
  unfold dirComponents
  split
  next => exact fun c hc => absurd hc List.not_mem_nil
  next => exact Lib.components_noSlash dir

theorem splitPath_components (path : String) :
    (splitPath path).components = Lib.components path := by
  have hne : Lib.components path ≠ [] := by
    intro hnil
    exact List.splitOn_ne_nil '/' path.toList (List.map_eq_nil_iff.mp hnil)
  rw [splitPath, Path.components, List.getLastD_eq_getLast?, List.getLast?_eq_some_getLast hne,
    Option.getD_some]
  exact List.dropLast_append_getLast hne

/-- What `create` lets through. -/
theorem createCheck_admitted {m : Mount Id} {tree : Source Id} (htree : Honest trees tree)
    (hpin : Pinned trees m.pin parent) (hdirs : Loaded trees parent m.dirs) (dir name : String) :
    Loaded trees parent (createCheck tree m dir name).2 ∧
      ∀ p, (createCheck tree m dir name).1 = .ok p → Admitted parent p := by
  unfold createCheck
  split_ifs
  · exact ⟨hdirs, fun p h => by cases h⟩
  · exact ⟨hdirs, fun p h => by cases h⟩
  · exact ⟨hdirs, fun p h => by cases h⟩
  · split
    next => exact ⟨hdirs, fun p h => by cases h⟩
    next hname =>
      dsimp only
      split
      next => exact ⟨hdirs, fun p h => by cases h⟩
      next hvalid =>
        obtain ⟨hloaded, hlists⟩ := ensureDir_loaded hpin htree (dirComponents dir).reverse hdirs
        split
        next e dirs hensure =>
          rw [hensure] at hloaded
          exact ⟨hloaded, fun p h => by cases h⟩
        next entries dirs hensure =>
          rw [hensure] at hloaded hlists
          split
          next => exact ⟨hloaded, fun p h => by cases h⟩
          next => exact ⟨hloaded, fun p h => by cases h⟩
          next =>
            refine ⟨hloaded, fun p h => ?_⟩
            cases h
            obtain ⟨node, hnode, -⟩ := hlists entries rfl
            refine ⟨hvalid, fun c hc => ?_, node, by rw [← hnode, List.reverse_reverse]⟩
            rcases List.mem_append.mp hc with hc | hc
            · exact dirComponents_noSlash dir c hc
            · rw [List.mem_singleton.mp hc]
              exact noSlash_of_valid hname

/-- What is there lies in a pinned directory. -/
theorem statKind_loaded {m : Mount Id} {tree : Source Id} (htree : Honest trees tree)
    (hpin : Pinned trees m.pin parent) (hdirs : Loaded trees parent m.dirs) (p : Path) :
    Loaded trees parent (statKind tree m p).2 ∧
      ∀ kind, (statKind tree m p).1 = .ok kind → ∃ node, nodeAt parent p.dirs = some node := by
  obtain ⟨hloaded, hlists⟩ := ensureDir_loaded hpin htree p.dirs.reverse hdirs
  unfold statKind
  split
  next e dirs hensure =>
    rw [hensure] at hloaded
    exact ⟨hloaded, fun kind h => by cases h⟩
  next entries dirs hensure =>
    rw [hensure] at hloaded hlists
    obtain ⟨node, hnode, -⟩ := hlists entries rfl
    have hdir : nodeAt parent p.dirs = some node := by
      rw [← hnode, List.reverse_reverse]
    split
    next => exact ⟨hloaded, fun _ _ => ⟨node, hdir⟩⟩
    next =>
      split
      next => exact ⟨hloaded, fun kind h => by cases h⟩
      next => exact ⟨hloaded, fun _ _ => ⟨node, hdir⟩⟩

/-- What `write` lets through: a staged path, or a file of a pinned directory. -/
theorem writeCheck_admitted {m : Mount Id} {tree : Source Id} (htree : Honest trees tree)
    (hpin : Pinned trees m.pin parent) (hdirs : Loaded trees parent m.dirs)
    (hstaged : ∀ s ∈ m.staged, Admitted parent s.1) (path : String) :
    Loaded trees parent (writeCheck tree m path).2 ∧
      ∀ p, (writeCheck tree m path).1 = .ok p → Admitted parent p := by
  obtain ⟨hloaded, hdir⟩ := statKind_loaded htree hpin hdirs (splitPath path)
  unfold writeCheck
  dsimp only
  split
  next => exact ⟨hdirs, fun p h => by cases h⟩
  next =>
    split
    next => exact ⟨hdirs, fun p h => by cases h⟩
    next =>
      split
      next => exact ⟨hdirs, fun p h => by cases h⟩
      next hvalid =>
        split
        next hfound =>
          refine ⟨hdirs, fun p h => ?_⟩
          cases h
          obtain ⟨s, hs, heq⟩ := List.lookup_isSome_iff.mp hfound
          rw [eq_of_beq heq]
          exact hstaged s hs
        next =>
          split
          next dirs hstat =>
            rw [hstat] at hloaded hdir
            refine ⟨hloaded, fun p h => ?_⟩
            cases h
            refine ⟨hvalid, fun c hc => ?_, hdir _ rfl⟩
            rw [splitPath_components] at hc
            exact Lib.components_noSlash path c hc
          next dirs hstat =>
            rw [hstat] at hloaded
            exact ⟨hloaded, fun p h => by cases h⟩
          next e dirs hstat =>
            rw [hstat] at hloaded
            exact ⟨hloaded, fun p h => by cases h⟩

/-! ### The overlay -/

/-- What the calls leave: every staged path has a shadow file of its own, with
the bytes buffered for it. -/
structure Overlay (trees : List (TreeRow Id)) (parent : MemNode Id) (m : Mount Id) : Prop where
  writable : m.writable = true
  loaded : Loaded trees parent m.dirs
  inFlight : ∀ c ∈ m.inFlight, Admitted parent c.1
  staged : ∀ s ∈ m.staged, Admitted parent s.1
  keys : (m.staged.map Prod.fst).Nodup
  files : (m.staged.map fun s => s.2.1).Nodup
  numbered : ∀ s ∈ m.staged, s.2.1 ≤ m.staged.length
  shadow : ∀ s ∈ m.staged, m.shadow.lookup s.2.1 = buffer m s.1
  covers : ∀ p, (buffer m p).isSome ↔ p ∈ m.staged.map Prod.fst

omit [Platform Id] in
theorem buffer_stage (m : Mount Id) (p : Path) (bytes : Bytes) (q : Path) :
    buffer (stage m p bytes) q = if q = p then some bytes else buffer m q := by
  have hbuffered : (stage m p bytes).buffered = m.buffered ++ [(p, bytes)] := by
    unfold stage
    dsimp only
    split <;> rfl
  rw [buffer, hbuffered, List.reverse_append, List.reverse_singleton, List.singleton_append,
    List.lookup_cons]
  by_cases hq : q = p
  · rw [if_pos hq, hq, beq_self_eq_true]
  · rw [if_neg hq, beq_false_of_ne hq]
    rfl

/-- Staging a path that has a shadow file. -/
theorem Overlay.restage {m : Mount Id} (h : Overlay trees parent m) {p : Path} {file size : ℕ}
    (hfound : m.staged.lookup p = some (file, size)) (bytes : Bytes) :
    Overlay trees parent (stage m p bytes) := by
  have hmem : (p, file, size) ∈ m.staged := Lib.mem_of_lookup hfound
  have hstaged : (stage m p bytes).staged =
      m.staged.map fun s => if s.1 = p then (p, file, bytes.length) else s := by
    simp only [stage, hfound]
  have hshadow : (stage m p bytes).shadow = (file, bytes) :: m.shadow := by
    simp only [stage, hfound]
  have hrest : (stage m p bytes).writable = m.writable ∧ (stage m p bytes).dirs = m.dirs ∧
      (stage m p bytes).inFlight = m.inFlight := by
    simp only [stage, hfound, and_self]
  -- the path's entry is the one with its shadow file
  have hsame : ∀ s ∈ m.staged, s.1 = p → s = (p, file, size) := fun s hs heq =>
    List.inj_on_of_nodup_map h.keys hs hmem heq
  have hfile : ∀ s ∈ m.staged, s.2.1 = file ↔ s.1 = p := fun s hs =>
    ⟨fun heq => by rw [List.inj_on_of_nodup_map h.files hs hmem heq],
      fun heq => by rw [hsame s hs heq]⟩
  have hkeys : (stage m p bytes).staged.map Prod.fst = m.staged.map Prod.fst := by
    rw [hstaged, List.map_map]
    refine List.map_congr_left fun s _ => ?_
    show (if s.1 = p then (p, file, bytes.length) else s).1 = s.1
    split
    next heq => exact heq.symm
    next => rfl
  have hfiles : ((stage m p bytes).staged.map fun s => s.2.1) = m.staged.map fun s => s.2.1 := by
    rw [hstaged, List.map_map]
    refine List.map_congr_left fun s hs => ?_
    show (if s.1 = p then (p, file, bytes.length) else s).2.1 = s.2.1
    split
    next heq => exact ((hfile s hs).mpr heq).symm
    next => rfl
  have hentry : ∀ s ∈ (stage m p bytes).staged, ∃ t ∈ m.staged, s.1 = t.1 ∧ s.2.1 = t.2.1 := by
    intro s hs
    rw [hstaged] at hs
    obtain ⟨t, ht, rfl⟩ := List.mem_map.mp hs
    refine ⟨t, ht, ?_, ?_⟩
    · split
      next heq => exact heq.symm
      next => rfl
    · split
      next heq => exact ((hfile t ht).mpr heq).symm
      next => rfl
  refine ⟨hrest.1 ▸ h.writable, hrest.2.1 ▸ h.loaded, hrest.2.2 ▸ h.inFlight, fun s hs => ?_,
    hkeys ▸ h.keys, hfiles ▸ h.files, fun s hs => ?_, fun s hs => ?_, fun q => ?_⟩
  · obtain ⟨t, ht, hpath, -⟩ := hentry s hs
    exact hpath ▸ h.staged t ht
  · obtain ⟨t, ht, -, hnumber⟩ := hentry s hs
    rw [hnumber, hstaged, List.length_map]
    exact h.numbered t ht
  · obtain ⟨t, ht, hpath, hnumber⟩ := hentry s hs
    rw [hshadow, buffer_stage, hpath, hnumber, List.lookup_cons]
    by_cases hp : t.1 = p
    · rw [if_pos hp, (hfile t ht).mpr hp, beq_self_eq_true]
    · rw [if_neg hp, beq_false_of_ne fun heq => hp ((hfile t ht).mp heq)]
      exact h.shadow t ht
  · rw [buffer_stage, hkeys]
    split
    next hq => exact iff_of_true rfl (hq ▸ List.mem_map_of_mem hmem)
    next => exact h.covers q

/-- Staging a path for the first time. -/
theorem Overlay.stage_new {m : Mount Id} (h : Overlay trees parent m) {p : Path}
    (hfresh : m.staged.lookup p = none) (hp : Admitted parent p) (bytes : Bytes) :
    Overlay trees parent (stage m p bytes) := by
  have hnot : p ∉ m.staged.map Prod.fst := by
    intro hmem
    obtain ⟨s, hs, heq⟩ := List.mem_map.mp hmem
    have hne := List.lookup_eq_none_iff.mp hfresh s hs
    rw [heq, bne_self_eq_false] at hne
    cases hne
  have hstaged : (stage m p bytes).staged =
      m.staged ++ [(p, m.staged.length + 1, bytes.length)] := by
    simp only [stage, hfresh]
  have hshadow : (stage m p bytes).shadow = (m.staged.length + 1, bytes) :: m.shadow := by
    simp only [stage, hfresh]
  have hrest : (stage m p bytes).writable = m.writable ∧ (stage m p bytes).dirs = m.dirs ∧
      (stage m p bytes).inFlight = m.inFlight := by
    simp only [stage, hfresh, and_self]
  have hcases : ∀ s ∈ (stage m p bytes).staged,
      s ∈ m.staged ∨ s = (p, m.staged.length + 1, bytes.length) := by
    intro s hs
    rw [hstaged] at hs
    exact (List.mem_append.mp hs).imp_right List.mem_singleton.mp
  have hold : ∀ s ∈ m.staged, s.2.1 ≠ m.staged.length + 1 := fun s hs heq => by
    have hle := h.numbered s hs
    omega
  refine ⟨hrest.1 ▸ h.writable, hrest.2.1 ▸ h.loaded, hrest.2.2 ▸ h.inFlight, fun s hs => ?_, ?_, ?_,
    fun s hs => ?_, fun s hs => ?_, fun q => ?_⟩
  · rcases hcases s hs with hs | rfl
    · exact h.staged s hs
    · exact hp
  · rw [hstaged]
    exact Lib.nodup_insert h.keys hnot
  · rw [hstaged]
    refine Lib.nodup_insert h.files fun hmem => ?_
    obtain ⟨s, hs, heq⟩ := List.mem_map.mp hmem
    exact hold s hs heq
  · rw [hstaged, List.length_append, List.length_singleton]
    rcases hcases s hs with hs | rfl
    · have hle := h.numbered s hs
      omega
    · exact le_rfl
  · rw [hshadow, buffer_stage, List.lookup_cons]
    rcases hcases s hs with hs | rfl
    · have hne : s.1 ≠ p := fun heq => hnot (heq ▸ List.mem_map_of_mem hs)
      rw [if_neg hne, beq_false_of_ne (hold s hs)]
      exact h.shadow s hs
    · rw [if_pos rfl, beq_self_eq_true]
  · rw [buffer_stage, hstaged, List.map_append, List.mem_append, ← h.covers q]
    by_cases hq : q = p
    · rw [if_pos hq]
      exact iff_of_true rfl (.inr (List.mem_singleton.mpr hq))
    · rw [if_neg hq]
      exact ⟨.inl, fun h => h.resolve_right fun hmem => hq (List.mem_singleton.mp hmem)⟩

theorem Overlay.launch {m : Mount Id} (h : Overlay trees parent m) (bytes : Bytes)
    {checked : Except (VfsError Id) Path × Dirs Id} (hdirs : Loaded trees parent checked.2)
    (hok : ∀ p, checked.1 = .ok p → Admitted parent p) :
    Overlay trees parent (launch m bytes checked) := by
  obtain ⟨result, dirs⟩ := checked
  cases result with
  | error e => exact { h with loaded := hdirs }
  | ok p =>
      refine { h with loaded := hdirs, inFlight := fun c hc => ?_ }
      rcases List.mem_append.mp hc with hc | hc
      · exact h.inFlight c hc
      · rw [List.mem_singleton.mp hc]
        exact hok p rfl

omit [Platform Id] in
theorem pin_stage (m : Mount Id) (p : Path) (bytes : Bytes) : (stage m p bytes).pin = m.pin := by
  unfold stage
  dsimp only
  split <;> rfl

theorem step_pin {m m' : Mount Id} {e : MountEvent Id} (h : step m e = some m') :
    m'.pin = m.pin := by
  cases e with
  | browse tree dirs =>
      cases h
      rfl
  | create tree dir name =>
      cases h
      unfold Vfs.launch
      split <;> rfl
  | write tree path bytes =>
      cases h
      unfold Vfs.launch
      split <;> rfl
  | stage i =>
      obtain ⟨c, -, rfl⟩ := Option.map_eq_some_iff.mp h
      exact pin_stage m c.1 c.2

theorem Overlay.step {m m' : Mount Id} {e : MountEvent Id} (h : Overlay trees parent m)
    (hpin : Pinned trees m.pin parent) (hhonest : EventHonest trees m e)
    (hstep : step m e = some m') : Overlay trees parent m' := by
  cases e with
  | browse tree dirs =>
      cases hstep
      exact { h with loaded := (ensureDir_loaded hpin hhonest dirs.reverse h.loaded).1 }
  | create tree dir name =>
      cases hstep
      obtain ⟨hdirs, hok⟩ := createCheck_admitted hhonest hpin h.loaded dir name
      exact h.launch [] hdirs hok
  | write tree path bytes =>
      cases hstep
      obtain ⟨hdirs, hok⟩ := writeCheck_admitted hhonest hpin h.loaded h.staged path
      exact h.launch bytes hdirs hok
  | stage i =>
      obtain ⟨⟨p, bytes⟩, hcall, rfl⟩ := Option.map_eq_some_iff.mp hstep
      have hp : Admitted parent p := h.inFlight (p, bytes) (List.mem_of_getElem? hcall)
      have hstaged : Overlay trees parent (stage m p bytes) := by
        cases hfound : m.staged.lookup p with
        | some found => exact h.restage hfound bytes
        | none => exact h.stage_new hfound hp bytes
      exact { hstaged with
        inFlight := fun c hc => h.inFlight c (List.mem_of_mem_eraseIdx hc) }

theorem overlay_of_mounted {m : Mount Id} (h : Mounted trees m) (hpin : Pinned trees m.pin parent) :
    Overlay trees parent m := by
  refine Lib.Reach.invariant (I := fun m => Pinned trees m.pin parent → Overlay trees parent m)
    ?_ ?_ h hpin
  · intro m hfresh _
    refine ⟨hfresh.writable, fun key entries hkey => ?_, fun c hc => ?_, fun s hs => ?_, ?_, ?_,
      fun s hs => ?_, fun s hs => ?_, fun p => ?_⟩
    · rw [hfresh.dirs] at hkey
      cases hkey
    · rw [hfresh.inFlight] at hc
      cases hc
    · rw [hfresh.staged] at hs
      cases hs
    · rw [hfresh.staged]
      exact List.nodup_nil
    · rw [hfresh.staged]
      exact List.nodup_nil
    · rw [hfresh.staged] at hs
      cases hs
    · rw [hfresh.staged] at hs
      cases hs
    · rw [buffer, hfresh.buffered, hfresh.staged]
      simp
  · intro m e m' _ ih hhonest hstep hpin
    rw [step_pin hstep] at hpin
    exact (ih hpin).step hpin hhonest hstep

end

end

end Vfs

end Naatre.Client
