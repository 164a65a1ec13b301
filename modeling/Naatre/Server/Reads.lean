import Naatre.Client.Fetch
import Naatre.Server.Log
import Naatre.Server.SnapshotIsolation
import Naatre.Server.Tickets

/-!
The read routes of the server (`naatre-server/src/routes`), each behind its
gate. The registry keeps no creation times here, and a repository's statistics
and its blame are left out.
-/

namespace Naatre

section

variable {Id : Type} [Platform Id]

/-! ### The listing of repositories -/

structure RepoListResponse where
  repos : List (RepoId × String)
  nextCursor : Option RepoId
  hasMore : Bool
  deriving DecidableEq

namespace Accounts

/-- `repos_list`. -/
def reposList (s : Accounts) (afterId limit : ℕ) : List (RepoId × String) :=
  ((s.repos.filter fun row => decide (afterId < row.1)).insertionSort
    fun a b => a.1 ≤ b.1).take limit

/-- `access_visibility`: private, and readable by the principal. -/
def accessVisibility (s : Accounts) (repoId : RepoId) (principal : String) : Bool × Bool :=
  (s.accessIsPrivate repoId, s.access.any fun row => keyed repoId principal row && row.read)

/-- `list` of the repositories; `after` is the id its cursor names. -/
def listRepos (s : Accounts) (auth : AuthedPrincipal) (limit : Option ℤ) (after : ℕ) :
    Except (ApiError Id) RepoListResponse := do
  let limit ← parseLimit limit
  let raw := s.reposList after (limit + 1)
  let visible := fun (row : RepoId × String) =>
    let (isPrivate, readable) := s.accessVisibility row.1 auth.principal
    decide (auth.role = .admin) || !isPrivate || readable
  let hasMore := decide (limit < raw.length)
  let lastScanned := (raw.getLast?.map Prod.fst).getD 0
  let rows := (raw.filter visible).take limit
  .ok
    { repos := rows
      nextCursor := if hasMore then some ((rows.getLast?.map Prod.fst).getD lastScanned) else none
      hasMore }

/-- `access_list`, in the order of the principals. -/
def accessList (s : Accounts) (repoId : RepoId) : List (String × Bool × Bool) :=
  ((s.access.filter fun row => decide (row.repoId = repoId)).insertionSort
    fun a b => a.principal ≤ b.principal).map fun row => (row.principal, row.read, row.write)

/-- `list` of the grants of a repository. -/
def listAccess (s : Accounts) (auth : AuthedPrincipal) (repo : String) :
    Except (ApiError Id) (List (String × Bool × Bool)) := do
  s.repoReadGate auth repo
  requireRole auth .admin
  let repoId ← s.repoIdOr404 repo
  .ok (s.accessList repoId)

end Accounts

/-! ### One repository -/

/-- `get_ref`. -/
def getRef (cx : RepoCx Id) (name : String) : Except (ApiError Id) (Option Id × ℕ) :=
  match refGet cx.db name with
  | none =>
      .error (.new .notFound ("no ref named " ++ quoted name ++ " in " ++ quoted cx.name))
  | some row => .ok (row.target, row.version)

/-- A change as `get_changeset` sends it. -/
structure ChangesetChangeOut (Id : Type) where
  path : Path
  op : Op
  blob : Option Id
  size : Option ℕ
  exec : Option Bool
  redacted : Bool
  deriving DecidableEq

structure ChangesetResponse (Id : Type) where
  entry : LogEntry Id
  parents : List Id
  conflicted : Bool
  changes : List (ChangesetChangeOut Id)
  deriving DecidableEq

/-- The delta mask of one change. -/
def maskChange (redacted : List Id) (c : FileChange Id) : ChangesetChangeOut Id :=
  let masked := c.blob.any fun blob => decide (blob ∈ redacted)
  { path := c.path
    op := c.op
    blob := if masked then none else c.blob
    size := if masked then none else c.size
    exec := if masked then none else c.exec
    redacted := masked }

def changesetRedacted (cx : RepoCx Id) (id : Id) : ApiError Id :=
  .new .objectRedacted ("changeset " ++ Platform.toHex id ++ " is redacted in " ++ cx.name)

/-- `get_changeset`; a frame with conflicts is the one of the second version. -/
def getChangeset (cx : RepoCx Id) (id : Id) : Except (ApiError Id) (ChangesetResponse Id) :=
  if redactionActive cx.db id then .error (changesetRedacted cx id)
  else match changesetGet cx.db id with
    | none =>
        .error (.new .notFound
          ("no changeset " ++ Platform.toHex id ++ " in " ++ quoted cx.name))
    | some row =>
        let gated := redactionsActiveAmong cx.db (row.changes.filterMap (·.blob))
        .ok
          { entry := row.logEntry
            parents := row.parents
            conflicted := !row.canonical.cs.conflicts.isEmpty
            changes := row.changes.map (maskChange gated) }

/-- `get_root`, of a client that announces the newest conflict format. -/
def getRoot (cx : RepoCx Id) (id : Id) : Except (ApiError Id) Id :=
  if redactionActive cx.db id then .error (changesetRedacted cx id)
  else match changesetGet cx.db id with
    | none =>
        .error (.new .notFound
          ("no changeset " ++ Platform.toHex id ++ " in " ++ quoted cx.name))
    | some row => .ok row.rootTreeId

/-- The listing of a tree; a tree without a row has no entries. -/
def listTree (cx : RepoCx Id) (id : Id) : List (TreeEntryOut Id) :=
  (getTree cx.trees cx.db.tombstoned id).getD []

/-- `get_tree` of the tree route: the repository must have written the tree. -/
def getRepoTree (cx : RepoCx Id) (id : Id) : Except (ApiError Id) (List (TreeEntryOut Id)) :=
  if id ∉ cx.db.repoTrees then
    .error (.new .notFound ("no tree " ++ Platform.toHex id ++ " written in " ++ quoted cx.name))
  else .ok (listTree cx id)

/-- `get_snapshot_tree`. -/
def getSnapshotTree (cx : RepoCx Id) (nowNs : ℕ) (principal : String) (snap tree : Id) :
    Except (ApiError Id) (List (TreeEntryOut Id)) := do
  let row ← loadOwnedUnexpired cx nowNs snap principal
  if tree ∉ treeClosure cx.trees [row.treeId] then
    .error (.new .notFound
      ("tree " ++ Platform.toHex tree ++ " is not part of snapshot " ++ Platform.toHex snap))
  else .ok (listTree cx tree)

structure RedactionListResponse (Id : Type) where
  redactions : List (RedactionRow Id)
  nextCursor : Option Id
  hasMore : Bool
  deriving DecidableEq

/-- `redactions_page`. -/
def redactionsPage (db : RepoTables Id) (after : Option Id) (limit : ℕ) :
    List (RedactionRow Id) :=
  ((db.redactions.filter fun row => after.all fun id => decide (id < row.objectId)).insertionSort
    fun a b => a.objectId ≤ b.objectId).take limit

/-- `list` of the tombstones, past its gate. -/
def listRedactions (cx : RepoCx Id) (auth : AuthedPrincipal) (limit : Option ℤ)
    (after : Option Id) : Except (ApiError Id) (RedactionListResponse Id) := do
  Accounts.requireRole auth .admin
  let limit ← parseLimit limit
  let rows := redactionsPage cx.db after (limit + 1)
  let hasMore := decide (limit < rows.length)
  let page := rows.take limit
  .ok
    { redactions := page
      nextCursor := if hasMore then page.getLast?.map (·.objectId) else none
      hasMore }

/-- `land_status`, past its gates. -/
def landStatus (cx : RepoCx Id) (principal key : String) : Except (ApiError Id) (LandRow Id) :=
  match landGet cx.db principal key with
  | none => .error (.new .notFound ("no land status for key " ++ quoted key))
  | some row => .ok row

/-- The answer of a land whose key has a row: it writes nothing. -/
def landReplay (cx : RepoCx Id) (cmd : LandCommand Id) :
    Option (Except (ApiError Id) (LandDone Id)) :=
  (landGet cx.db cmd.principal cmd.key).map fun _ => (execute cx cmd).1

end

/-! ### A request -/

section

variable (Id : Type) [Platform Id]

/-- What the read routes look at. -/
structure Store where
  server : Server Id
  accounts : Accounts
  /-- the path index of a repository -/
  index : RepoId → PathIndex Id

/-- A read. -/
inductive Read
  | repos (limit : Option ℤ) (after : ℕ)
  | access (repo : String)
  /-- the write gate alone -/
  | writable (repo : String)
  | ref (repo name : String)
  | changeset (repo : String) (id : Id)
  | root (repo : String) (id : Id)
  | log (repo : String) (fuel : ℕ) (q : LogQuery Id)
  | tree (repo : String) (id : Id)
  | object (repo : String) (id : Id)
  | objects (repo : String) (ids : List Id)
  | snapshot (repo : String) (snap : Id)
  | snapshotObject (repo : String) (snap oid : Id)
  | snapshotTree (repo : String) (snap tree : Id)
  | redactions (repo : String) (limit : Option ℤ) (after : Option Id)
  | landStatus (repo key : String)
  | landReplay (repo : String) (head : Id) (key : String) (baseHint : Option Id)
      (recordConflict : Bool)
  | ticketObject (ticket : Ticket Id) (repo : String) (id : Id)
  | ticketMembership (ticket : Ticket Id)
  | ticketEpoch (ticket : Ticket Id)

/-- The body of a 200. -/
inductive Payload
  | repos (page : RepoListResponse)
  | access (rows : List (String × Bool × Bool))
  | admitted
  | ref (target : Option Id) (version : ℕ)
  | changeset (body : ChangesetResponse Id)
  | root (id : Id)
  | log (page : LogResponse Id)
  | tree (entries : List (TreeEntryOut Id))
  | object (bytes : Bytes)
  | objects (body : BatchGetResponse Id)
  | snapshot (row : SnapshotRow Id)
  | redactions (page : RedactionListResponse Id)
  | landStatus (row : LandRow Id)
  | landDone (done : LandDone Id)
  | membership (epoch : ℕ) (ids : List Id)
  | epoch (epoch : ℕ)

/-- The answer of a read; `none` where a log's walk is still going and where a
land is no replay. -/
abbrev Answer := Option (Except (ApiError Id) (Payload Id))

end

section

variable {Id : Type} [Platform Id]

/-- The two logs of the log route. -/
def logRoute (cx : RepoCx Id) (index : PathIndex Id) (fuel : ℕ) (q : LogQuery Id) :
    Option (Except (ApiError Id) (LogResponse Id)) :=
  match q.path with
  | some path => some (pathLog cx index path q.limit q.cursor)
  | none => log cx fuel q

namespace Store

/-- A read of one repository, behind its gate. -/
def onRepo (s : Store Id) (gate : Except (ApiError Id) Unit) (repo : String)
    (read : RepoId → RepoCx Id → Answer Id) : Answer Id :=
  match gate, s.server.repoIdOr404 repo with
  | .error e, _ => some (.error e)
  | .ok (), .error e => some (.error e)
  | .ok (), .ok r => read r (s.server.cx r)

/-- A read behind the read gate. -/
def gated (s : Store Id) (auth : AuthedPrincipal) (repo : String)
    (read : RepoId → RepoCx Id → Answer Id) : Answer Id :=
  s.onRepo (s.accounts.repoReadGate auth repo) repo read

/-- The route of a read. -/
def answer (s : Store Id) (auth : AuthedPrincipal) : Read Id → Answer Id
  | .repos limit after => some ((s.accounts.listRepos auth limit after).map .repos)
  | .access repo => some ((s.accounts.listAccess auth repo).map .access)
  | .writable repo => some ((s.accounts.repoWriteGate auth repo).map fun _ => .admitted)
  | .ref repo name => s.gated auth repo fun _ cx =>
      some ((getRef cx name).map fun (target, version) => .ref target version)
  | .changeset repo id => s.gated auth repo fun _ cx => some ((getChangeset cx id).map .changeset)
  | .root repo id => s.gated auth repo fun _ cx => some ((getRoot cx id).map .root)
  | .log repo fuel q => s.gated auth repo fun r cx =>
      (logRoute cx (s.index r) fuel q).map fun page => page.map .log
  | .tree repo id => s.gated auth repo fun _ cx => some ((getRepoTree cx id).map .tree)
  | .object repo id => s.gated auth repo fun _ cx => some ((getRaw cx id).map .object)
  | .objects repo ids => s.gated auth repo fun _ cx => some ((getBatch cx ids).map .objects)
  | .snapshot repo snap => s.gated auth repo fun _ cx =>
      some ((loadOwnedUnexpired cx s.server.nowNs snap auth.principal).map .snapshot)
  | .snapshotObject repo snap oid => s.gated auth repo fun _ cx =>
      some ((snapshotGetBlob cx s.server.ephemeral s.server.nowNs auth.principal snap oid).map
        .object)
  | .snapshotTree repo snap tree => s.gated auth repo fun _ cx =>
      some ((getSnapshotTree cx s.server.nowNs auth.principal snap tree).map .tree)
  | .redactions repo limit after => s.gated auth repo fun _ cx =>
      some ((listRedactions cx auth limit after).map .redactions)
  | .landStatus repo key =>
      s.onRepo (s.accounts.repoReadGate auth repo *> s.accounts.repoWriteGate auth repo) repo
        fun _ cx => some ((landStatus cx auth.principal key).map .landStatus)
  | .landReplay repo head key baseHint recordConflict =>
      s.onRepo (s.accounts.repoWriteGate auth repo) repo fun _ cx =>
        (landReplay cx
          { repoName := repo
            principal := auth.principal
            scope := auth.scopePath
            head
            key
            baseHint
            recordConflict
            nowNs := s.server.nowNs }).map fun done => done.map .landDone
  | .ticketObject ticket repo id => some ((s.server.getRawTicket ticket repo id).map .object)
  | .ticketMembership ticket =>
      some ((s.server.membership ticket).map fun (epoch, ids) => .membership epoch ids)
  | .ticketEpoch ticket => some ((s.server.epoch ticket).map .epoch)

end Store

end

end Naatre
