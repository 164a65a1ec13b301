import Naatre.Core.Plain
import Naatre.Lib.Disk
import Naatre.Server.Schema
import Naatre.Server.State

/-!
Backup and restore (`naatre-server/src/backup.rs`).

A file is whatever bytes it holds: what SQLite, SHA-256, the JSON codec and the
text of a dump make of them are the `BackupTools`. What lies outside the data
directory (the lock, the Postgres database, the bucket) is the `BackupWorld`.
I/O that fails is not modelled, but for what a missing file causes.
-/

namespace Naatre

open Lib

/-! ### Configuration and manifest -/

inductive MetaKind
  | sqlite
  | postgres
  deriving DecidableEq, Repr

def MetaKind.text : MetaKind → String
  | .sqlite => "sqlite"
  | .postgres => "postgres"

inductive BlobKind
  | fs
  | s3
  deriving DecidableEq, Repr

def BlobKind.text : BlobKind → String
  | .fs => "fs"
  | .s3 => "s3"

/-- `BackendConfig`; the parser refuses Postgres files for each repository, and
gives Postgres a parsed DSN. -/
structure BackendConfig where
  metaKind : MetaKind
  blob : BlobKind
  layout : Layout
  postgres_single : metaKind = .postgres → layout = .singleDb

structure ArtifactChecksum where
  path : String
  sha256 : String
  deriving DecidableEq, Repr

structure BackupCounts where
  changesets : ℕ
  objects : ℕ
  deriving DecidableEq, Repr

structure BackupManifest where
  format : ℕ
  naatreVersion : String
  createdNs : ℤ
  metaText : String
  blobText : String
  schemaVersion : ℤ
  counts : BackupCounts
  objects : List String
  artifacts : List ArtifactChecksum
  deriving DecidableEq, Repr

def manifestFormat : ℕ := 1
def sqliteDump : String := "naatre.db"
def pgDump : String := "postgres.sql"
def dbFile : String := "naatre.db"
def catalogFile : String := "catalog.db"
def reposDir : String := "repos"
def objectsDir : String := "objects"
def manifestFile : String := "manifest.json"

/-! ### Errors -/

inductive StoreError
  | schemaFuture (found supported : ℤ)
  | versionNotInteger (text : String)
  | lockHeld
  | dataDirUninitialized
  | mismatch (onDisk configured : String)
  | layoutMismatch (onDisk configured : Layout)
  | incompleteMigration
  /-- the driver's own error -/
  | db
  deriving DecidableEq, Repr

inductive BackupError
  | store (e : StoreError)
  | sqlite
  | io (path : List String)
  | outputExists
  | partialLeftover
  | manifest (why : String)
  | unsupportedFormat (got : ℕ)
  | checksumMismatch (path : String)
  | comboMismatch (manifestMeta manifestBlob configuredMeta configuredBlob : String)
  | targetInitialized (found : String)
  | targetNotEmpty (found : String)
  | toolFailed (tool : String)
  | objectsMissing (missing : List String) (waiver : String) (rejectedWaiver : Bool)
  | uninitialized
  | tooNew (found supported : ℤ)
  deriving DecidableEq, Repr

/-! ### Outside -/

def isHexLower (c : Char) : Bool :=
  ('0' ≤ c && c ≤ '9') || ('a' ≤ c && c ≤ 'f')

def isHexDigit (c : Char) : Bool := isHexLower c || ('A' ≤ c && c ≤ 'F')

/-- What the libraries make of a file's bytes. -/
structure BackupTools (Id : Type) [Platform Id] (File : Type) where
  /-- the rows of a database file with the log beside it; `none` where the file
  is no database -/
  read : File → Option File → Option (Database Id)
  /-- `VACUUM INTO` -/
  vacuum : Database Id → File
  /-- the file and its log after a commit that leaves these rows -/
  commit : File → Option File → Database Id → File × Option File
  /-- what a migration's SQL does, of the shared list and of the catalog's -/
  sharedSql : ℕ → Database Id → Database Id
  catalogSql : ℕ → Database Id → Database Id
  sha256 : File → String
  /-- the first 16 hex characters of the SHA256 over the ids -/
  waiverDigest : List String → String
  toJson : BackupManifest → File
  fromJson : File → Option BackupManifest
  /-- the lines of a text file; `none` is one that is not UTF-8 -/
  lines : File → List (Option String)
  read_vacuum : ∀ db, read (vacuum db) none = some db
  read_commit : ∀ file log db, read (commit file log db).1 (commit file log db).2 = some db
  sha256_hex : ∀ file,
    (sha256 file).toList.length = 64 ∧ (sha256 file).toList.all isHexDigit = true
  fromJson_toJson : ∀ m, fromJson (toJson m) = some m

structure BackupWorld (File : Type) where
  /-- another process holds the data directory -/
  locked : Bool
  nowNs : ℤ
  naatreVersion : String
  pgConnects : Bool
  /-- whether the Postgres database carries the schema; `none` where the query
  fails -/
  pgInitialized : Option Bool
  /-- what `pg_dump` writes; `none` where it fails -/
  pgDumped : Option File
  /-- the replay by `psql`, and the open after it, succeed -/
  psql : Bool
  pgOpens : Bool
  /-- the bucket's ids; `none` where it does not answer -/
  bucket : Option (List String)

section

variable {Id : Type} [Platform Id] {File : Type}

/-! ### Versions and migrations -/

def maxSupported : ℕ := 13
def catalogMaxSupported : ℕ := 2

def digitValue (c : Char) : ℕ := c.toNat - '0'.toNat

/-- `parse::<i64>`: a sign and digits, in range. -/
def parseI64 (text : String) : Option ℤ :=
  let digits (cs : List Char) : Option ℕ :=
    if cs ≠ [] ∧ cs.all Char.isDigit then
      some (cs.foldl (fun n c => 10 * n + digitValue c) 0)
    else none
  let inRange (n : ℤ) : Option ℤ := if -(2 ^ 63) ≤ n ∧ n < 2 ^ 63 then some n else none
  match text.toList with
  | '-' :: cs => (digits cs).bind fun n => inRange (-n)
  | '+' :: cs => (digits cs).bind fun n => inRange n
  | cs => (digits cs).bind fun n => inRange n

namespace Database

/-- `INSERT OR REPLACE INTO meta` of the version. -/
def setVersion (db : Database Id) (version : ℕ) : Database Id :=
  let rows : List (String × String) := db .metaRows
  Function.update db .metaRows
    (rows.filter (fun row => row.1 ≠ schemaVersion) ++ [(schemaVersion, toString version)])

/-- `apply_from`: each missing migration, with its version. -/
def applyFrom (sql : ℕ → Database Id → Database Id) (supported : ℕ) (current : ℤ)
    (db : Database Id) : Database Id :=
  let missing : List ℕ := (List.range' 1 supported).filter fun v => decide (current < Int.ofNat v)
  missing.foldl (fun db v => (sql v db).setVersion v) db

/-- `migrate`, for either list. -/
def migrateTo (sql : ℕ → Database Id → Database Id) (supported : ℕ) (db : Database Id) :
    Except StoreError (Database Id) :=
  match db.metaGet schemaVersion with
  | none => .ok (db.applyFrom sql supported 0)
  | some text =>
      match parseI64 text with
      | none => .error (.versionNotInteger text)
      | some current =>
          if (supported : ℤ) < current then .error (.schemaFuture current supported)
          else .ok (db.applyFrom sql supported current)

end Database

namespace BackupTools

variable (tools : BackupTools Id File)

def migrate (db : Database Id) : Except StoreError (Database Id) :=
  db.migrateTo tools.sharedSql maxSupported

def migrateCatalog (db : Database Id) : Except StoreError (Database Id) :=
  db.migrateTo tools.catalogSql catalogMaxSupported

/-- `Store::open` and `Store::open_catalog` on a file that is there. -/
def openPrimary (layout : Layout) (file : File) (log : Option File) :
    Except StoreError (Database Id) :=
  match tools.read file log with
  | none => .error .db
  | some db =>
      match layout with
      | .singleDb => tools.migrate db
      | .dbPerRepo =>
          match tools.migrateCatalog db with
          | .error e => .error e
          | .ok catalog => if catalog.adopted then .ok catalog else .error .incompleteMigration

end BackupTools

/-! ### The data directory -/

def walOf (path : List String) : List String :=
  path.dropLast ++ (path.getLast?.map fun name => name ++ "-wal").toList

/-- The file a configured store opens first. -/
def primaryPath : Layout → List String
  | .singleDb => [dbFile]
  | .dbPerRepo => [catalogFile]

def repoDbPath (id : RepoId) : List String := [reposDir, toString id ++ ".db"]

/-- `shard_path`, as the components below the object root. -/
def shardPath (hex : String) : List String :=
  [String.ofList (hex.toList.take 2), String.ofList ((hex.toList.drop 2).take 2),
    String.ofList (hex.toList.drop 4)]

/-- `Id::from_hex` accepts. -/
def isHexId (s : String) : Bool := decide (s.toList.length = 64) && s.toList.all isHexLower

def sortText (l : List String) : List String := l.insertionSort (· ≤ ·)

/-- `Cas::ids`, sorted. -/
def casIds (data : Disk File) : List String :=
  let shards := (data.filterMap fun e =>
    match e.1 with
    | dir :: a :: b :: c :: _ => if dir = objectsDir then some (a, b, c) else none
    | _ => none).dedup
  sortText ((shards.map fun (a, b, c) => a ++ b ++ c).filter fun hex => isHexId hex)

/-- `store_has_adopted_marker`. -/
def hasAdoptedMarker (tools : BackupTools Id File) (data : Disk File) : Bool :=
  ((data.get [catalogFile]).bind fun file =>
    tools.read file (data.get (walOf [catalogFile]))).any fun db => db.adopted

def layoutOf (data : Disk File) : Layout :=
  if data.stands [catalogFile] then .dbPerRepo else .singleDb

/-- `check_data_dir_backend`. -/
def checkDataDirBackend (tools : BackupTools Id File) (data : Disk File) (cfg : BackendConfig) :
    Except StoreError Unit := do
  match cfg.metaKind with
  | .sqlite =>
      match cfg.layout, layoutOf data with
      | .dbPerRepo, .singleDb => .error (.layoutMismatch .singleDb .dbPerRepo)
      | .singleDb, .dbPerRepo => .error (.layoutMismatch .dbPerRepo .singleDb)
      | .dbPerRepo, .dbPerRepo =>
          if hasAdoptedMarker tools data then .ok () else .error .incompleteMigration
      | .singleDb, .singleDb =>
          if data.stands [dbFile] then .ok () else .error .dataDirUninitialized
  | .postgres =>
      if data.stands [dbFile] then .error (.mismatch "sqlite (naatre.db present)" "postgres")
      else .ok ()
  if cfg.blob = .s3 ∧ data.hasEntries [objectsDir] then
    .error (.mismatch "fs (objects/ has data)" "s3")
  else .ok ()

/-! ### Artifact paths -/

def is2Hex (s : String) : Bool := decide (s.toList.length = 2) && s.toList.all isHexLower

/-- `valid_artifact_path`. -/
def validArtifactPath (path : String) : Bool :=
  if path = sqliteDump ∨ path = pgDump then true
  else
    match stripPre "repos/" path with
    | some rest =>
        match stripSuf ".db" rest with
        | none => false
        | some name => decide (name ≠ "") && name.toList.all Char.isDigit
    | none =>
        match stripPre "objects/" path with
        | none => false
        | some rest =>
            match components rest with
            | [a, b, c] =>
                is2Hex a && is2Hex b && decide (c.toList.length = 60) && c.toList.all isHexLower
            | _ => false

/-- `load_manifest`. -/
def loadManifest (tools : BackupTools Id File) (backupDir : Disk File) :
    Except BackupError BackupManifest := do
  match backupDir.get [manifestFile] with
  | none =>
      .error (.manifest ("no manifest.json — a torn or foreign directory is refused (the manifest " ++
        "is written last, so an interrupted backup has none)"))
  | some file =>
  match tools.fromJson file with
  | none => .error (.manifest "manifest.json does not parse as a naatre backup manifest")
  | some manifest =>
  if manifest.format ≠ manifestFormat then .error (.unsupportedFormat manifest.format)
  else if manifest.objects.any fun hex => !isHexId hex then
    .error (.manifest "manifest lists an id that is not 64 lowercase hex characters")
  else if manifest.artifacts.any fun a =>
      decide (a.sha256.toList.length ≠ 64) || !a.sha256.toList.all isHexDigit then
    .error (.manifest "an artifact line does not carry a 64-hex SHA256")
  else
    match (manifest.artifacts.map fun a => a.path).find? fun p => !validArtifactPath p with
    | none => .ok manifest
    | some bad =>
        if bad.toList.head? = some '/' then
          .error (.manifest "an artifact path is absolute")
        else if (components bad).any fun c => decide (c = ".." ∨ c = ".") then
          .error (.manifest "an artifact path climbs with .. or .")
        else
          .error (.manifest ("an artifact path is outside the manifest grammar (naatre.db, " ++
            "postgres.sql, objects/<2hex>/<2hex>/<62hex>)"))

/-! ### Backup -/

/-- `trim_start_matches` of one pattern, `fuel` times at most. -/
def trimStartMatches (pre : String) : ℕ → String → String
  | 0, s => s
  | fuel + 1, s =>
      match stripPre pre s with
      | none => s
      | some rest => trimStartMatches pre fuel rest

/-- The id an object's artifact path spells. -/
def artifactHex (path : String) : String :=
  String.ofList ((trimStartMatches "objects/" path.toList.length path).toList.filter
    fun c => decide (c ≠ '/'))

def objectArtifactPath (hex : String) : String := joinSlash (objectsDir :: shardPath hex)

structure BackupReport where
  metaKind : MetaKind
  blob : BlobKind
  schemaVersion : ℤ
  counts : BackupCounts
  dumpFile : Option String
  bucketCopyDuty : Bool
  missing : List String
  deriving DecidableEq

/-- `BackupSession`: the dumps, and what the second half works with. -/
structure BackupSession (File : Type) where
  dest : Disk File
  ids : List String
  changesets : ℕ
  schemaVersion : ℤ

/-- `rusqlite::Connection::open` of a repository's file and a read of it: a
missing file has no tables. -/
def readRepoDb (tools : BackupTools Id File) (data : Disk File) (id : RepoId) :
    Option (Database Id) :=
  (data.get (repoDbPath id)).bind fun file => tools.read file (data.get (walOf (repoDbPath id)))

/-- The repositories of the registry, by id. -/
def registryIds (catalog : Database Id) : List RepoId :=
  ((catalog .repos : List RegistryRow).map fun row => row.id).insertionSort (· ≤ ·)

def schemaVersionOf (db : Database Id) : ℤ := ((db.metaGet Database.schemaVersion).bind parseI64).getD 0

/-- `dump_sqlite` of every registered repository. -/
def dumpRepos (tools : BackupTools Id File) (data : Disk File) :
    List RepoId → Disk File → Except BackupError (Disk File)
  | [], dest => .ok dest
  | id :: ids, dest =>
      match readRepoDb tools data id with
      | none => .error .sqlite
      | some db => dumpRepos tools data ids (dest.put (repoDbPath id) (tools.vacuum db))

/-- The changesets of every registered repository. -/
def countChangesets (tools : BackupTools Id File) (data : Disk File) :
    List RepoId → Except BackupError ℕ
  | [] => .ok 0
  | id :: ids =>
      match readRepoDb tools data id with
      | none => .error .sqlite
      | some db => (countChangesets tools data ids).map fun total => (db .changesets).length + total

/-- The snapshot of `backup_begin`, once the store is open on `db`. -/
def dumpStore (tools : BackupTools Id File) (cfg : BackendConfig) (data : Disk File)
    (db : Database Id) : Except BackupError (Disk File × ℕ) := do
  let dest : Disk File := []
  match cfg.layout with
  | .singleDb => .ok (dest.put [sqliteDump] (tools.vacuum db), (db .changesets).length)
  | .dbPerRepo =>
      let changesets ← countChangesets tools data (registryIds db)
      let dest ← dumpRepos tools data (registryIds db) (dest.put [sqliteDump] (tools.vacuum db))
      .ok (dest, changesets)

/-- `backup_begin`; `destTaken` says whether the destination exists, and whether
it holds a manifest. -/
def backupBegin (tools : BackupTools Id File) (world : BackupWorld File) (cfg : BackendConfig)
    (data : Disk File) (destTaken : Option Bool) : Except BackupError (BackupSession File) := do
  (checkDataDirBackend tools data cfg).mapError .store
  if world.locked then .error (.store .lockHeld)
  if cfg.metaKind = .postgres then
    match world.pgConnects, world.pgInitialized with
    | false, _ | _, none => .error (.store .db)
    | true, some false => .error .uninitialized
    | true, some true => .ok ()
  match destTaken with
  | some true => .error .outputExists
  | some false => .error .partialLeftover
  | none => .ok ()
  let ids ← match cfg.blob with
    | .fs => .ok (casIds data)
    | .s3 => match world.bucket with
      | none => .error (.store .db)
      | some ids => .ok (sortText ids)
  match cfg.metaKind with
  | .sqlite =>
      match data.get (primaryPath cfg.layout) with
      | none => .error (.store .db)
      | some file =>
          let db ← (tools.openPrimary cfg.layout file
            (data.get (walOf (primaryPath cfg.layout)))).mapError .store
          let (dest, changesets) ← dumpStore tools cfg data db
          .ok { dest, ids, changesets, schemaVersion := schemaVersionOf db }
  | .postgres =>
      match world.pgDumped with
      | none => .error (.toolFailed "pg_dump")
      | some dump =>
          .ok { dest := Disk.put [] [pgDump] dump, ids, changesets := 0, schemaVersion := maxSupported }

/-- The copy of the objects: the destination, their artifacts and those found
missing. -/
def copyOut (tools : BackupTools Id File) (data : Disk File) :
    List String → Disk File × List ArtifactChecksum × List String →
      Except BackupError (Disk File × List ArtifactChecksum × List String)
  | [], state => .ok state
  | hex :: ids, (dest, artifacts, missing) =>
      let path := objectsDir :: shardPath hex
      match data.get path with
      | some file =>
          let artifact : ArtifactChecksum := ⟨objectArtifactPath hex, tools.sha256 file⟩
          copyOut tools data ids (dest.put path file, artifacts ++ [artifact], missing)
      | none =>
          if data.stands path then .error (.io path)
          else copyOut tools data ids (dest, artifacts, missing ++ [hex])

/-- The artifacts of the repositories' files in the destination, by path. -/
def repoArtifacts (tools : BackupTools Id File) (dest : Disk File) : List ArtifactChecksum :=
  let names := sortText ((dest.filterMap fun e =>
    match e.1 with
    | [dir, name] => if dir = reposDir then some name else none
    | _ => none).filter fun name => (stripSuf ".db" name).isSome)
  names.filterMap fun name => (dest.get [reposDir, name]).map fun file =>
    (⟨joinSlash [reposDir, name], tools.sha256 file⟩ : ArtifactChecksum)

def sortArtifacts (artifacts : List ArtifactChecksum) : List ArtifactChecksum :=
  artifacts.insertionSort fun a b => a.path ≤ b.path

/-- `backup_finish`: the backup directory and the report. -/
def backupFinish (tools : BackupTools Id File) (world : BackupWorld File) (cfg : BackendConfig)
    (data : Disk File) (session : BackupSession File) :
    Except BackupError (Disk File × BackupReport) := do
  let copied ← match cfg.blob with
    | .fs => copyOut tools data session.ids (session.dest, [], [])
    | .s3 => .ok (session.dest, [], [])
  let (dest, objects, missing) := copied
  let dumpName := match cfg.metaKind with
    | .sqlite => sqliteDump
    | .postgres => pgDump
  match dest.get [dumpName] with
  | none => .error (.io [dumpName])
  | some dump =>
      let artifacts := sortArtifacts (objects ++ [⟨dumpName, tools.sha256 dump⟩] ++
        if cfg.layout = .dbPerRepo then repoArtifacts tools dest else [])
      let carried := match cfg.blob with
        | .fs => (artifacts.filter fun a => (stripPre "objects/" a.path).isSome).map
            fun a => artifactHex a.path
        | .s3 => session.ids
      let manifest : BackupManifest :=
        { format := manifestFormat
          naatreVersion := world.naatreVersion
          createdNs := world.nowNs
          metaText := cfg.metaKind.text
          blobText := cfg.blob.text
          schemaVersion := session.schemaVersion
          counts := ⟨session.changesets, carried.length⟩
          objects := carried
          artifacts := artifacts }
      .ok (dest.put [manifestFile] (tools.toJson manifest),
        { metaKind := cfg.metaKind
          blob := cfg.blob
          schemaVersion := manifest.schemaVersion
          counts := manifest.counts
          dumpFile := if cfg.metaKind = .postgres then some pgDump else none
          bucketCopyDuty := decide (cfg.blob = .s3)
          missing := missing })

/-- `backup`. -/
def backup (tools : BackupTools Id File) (world : BackupWorld File) (cfg : BackendConfig)
    (data : Disk File) (destTaken : Option Bool) : Except BackupError (Disk File × BackupReport) := do
  let session ← backupBegin tools world cfg data destTaken
  backupFinish tools world cfg data session

/-! ### The checks of a restore -/

def sidecars : List (List String) := [[dbFile ++ "-wal"], [dbFile ++ "-shm"]]

/-- The combination of backends agrees. -/
def comboGuard (cfg : BackendConfig) (manifest : BackupManifest) : Except BackupError Unit :=
  if manifest.metaText ≠ cfg.metaKind.text ∨ manifest.blobText ≠ cfg.blob.text then
    .error (.comboMismatch manifest.metaText manifest.blobText cfg.metaKind.text cfg.blob.text)
  else .ok ()

/-- A target that holds `naatre.db`. -/
def initializedGuard (cfg : BackendConfig) (root : Disk File) (force : Bool) :
    Except BackupError Unit :=
  if root.stands [dbFile] then
    match cfg.metaKind with
    | .sqlite => if force then .ok () else .error (.targetInitialized "naatre.db present")
    | .postgres => .error (.store (.mismatch "sqlite (naatre.db present)" "postgres"))
  else .ok ()

/-- What is found in the target, for the error and for the mismatch. -/
def notEmpty (cfg : BackendConfig) (root : Disk File) : Option (String × String) :=
  if root.hasEntries [objectsDir] then some ("objects/ holds data", "fs (objects/ holds data)")
  else if sidecars.any fun p => root.stands p then
    some ("a SQLite WAL/SHM sidecar sits beside a missing naatre.db",
      "fs (a SQLite WAL/SHM sidecar sits beside a missing naatre.db)")
  else if cfg.layout = .dbPerRepo ∧ root.hasEntries [reposDir] then
    some ("a repos/ dir holding entries sits in the target (a previous              " ++
        "restore's or migration's per-repo files)",
      "fs (a repos/ dir holding entries sits in the target)")
  else none

def notEmptyGuard (cfg : BackendConfig) (root : Disk File) (force : Bool) :
    Except BackupError Unit :=
  match notEmpty cfg root with
  | none => .ok ()
  | some (found, onDisk) =>
      match cfg.blob with
      | .s3 => .error (.store (.mismatch onDisk "s3"))
      | .fs => if force then .ok () else .error (.targetNotEmpty found)

/-- `postgres_initialized`, which takes a failed query for an empty target. -/
def postgresGuard (world : BackupWorld File) (cfg : BackendConfig) : Except BackupError Unit :=
  match cfg.metaKind with
  | .sqlite => .ok ()
  | .postgres =>
      if !world.pgConnects then .error (.store .db)
      else if world.pgInitialized = some true then
        .error (.targetInitialized ("the postgres schema carries the naatre schema " ++
          "(drop it first — the drop IS the wipe; --force does not apply here)"))
      else .ok ()

def artifactGuard (cfg : BackendConfig) (manifest : BackupManifest) : Except BackupError Unit :=
  if cfg.blob = .fs ∧ manifest.objects.any fun hex =>
      !manifest.artifacts.any fun a => decide (a.path = objectArtifactPath hex) then
    .error (.manifest "the manifest lists an object without an artifact checksum")
  else .ok ()

/-- `trim` and `split(',')`. -/
def trimText (s : String) : String :=
  String.ofList ((s.toList.dropWhile Accounts.isWhiteSpace).reverse.dropWhile Accounts.isWhiteSpace).reverse

/-- `waiver_covers`. -/
def waiverCovers (tools : BackupTools Id File) (arg : String) (missing : List String) : Bool :=
  let arg := trimText arg
  decide (arg = tools.waiverDigest missing) ||
    decide ((sortText (((arg.toList.splitOn ',').map fun id => trimText (String.ofList id)))).dedup =
      missing)

/-- The presence gate of an S3 target: the ids waived. -/
def presenceGate (tools : BackupTools Id File) (world : BackupWorld File) (cfg : BackendConfig)
    (manifest : BackupManifest) (allowMissing : Option String) :
    Except BackupError (List String) :=
  match cfg.blob with
  | .fs => .ok []
  | .s3 =>
      match world.bucket with
      | none => .error (.store .db)
      | some present =>
          let missing := (sortText (manifest.objects.filter fun hex => decide (hex ∉ present))).dedup
          if missing = [] then .ok []
          else if allowMissing.any fun arg => waiverCovers tools arg missing then .ok missing
          else .error (.objectsMissing missing (tools.waiverDigest missing) allowMissing.isSome)

def backupIsSplit (manifest : BackupManifest) : Bool :=
  manifest.artifacts.any fun a => (stripPre "repos/" a.path).isSome

/-- The layout of the target, against that of the artifacts. -/
def layoutGuard (cfg : BackendConfig) (manifest : BackupManifest) : Except BackupError Unit :=
  match cfg.layout, backupIsSplit manifest with
  | .dbPerRepo, false =>
      .error (.manifest ("the backup is a single-DB snapshot but the target config selects layout " ++
        "= \"db-per-repo\" — set [layout] mode = \"single-db\" (or take the backup again after " ++
        "the migration)"))
  | .singleDb, true =>
      .error (.manifest ("the backup is a db-per-repo snapshot but the target config selects the " ++
        "single-DB layout — set [layout] mode = \"db-per-repo\""))
  | _, _ => .ok ()

/-- Every artifact copied into the staging directory and checked there. -/
def stageArtifacts (tools : BackupTools Id File) (backupDir : Disk File) :
    List ArtifactChecksum → Disk File → Except BackupError (Disk File)
  | [], stage => .ok stage
  | a :: artifacts, stage =>
      match backupDir.get (components a.path) with
      | none =>
          .error (.manifest "the manifest lists an artifact the backup directory does not carry")
      | some file =>
          if tools.sha256 file ≠ a.sha256 then .error (.checksumMismatch a.path)
          else stageArtifacts tools backupDir artifacts (stage.put (components a.path) file)

/-- `staged_sqlite_version`. -/
def stagedSqliteVersion (tools : BackupTools Id File) (file : Option File) :
    Except BackupError ℤ :=
  match file.bind fun file => tools.read file none with
  | none => .error .sqlite
  | some db =>
      match db.metaGet Database.schemaVersion with
      | none =>
          .error (.manifest "the SQLite snapshot carries no schema_version row (corrupt or foreign)")
      | some text =>
          match parseI64 text with
          | none => .error (.manifest "the SQLite snapshot's schema_version is not an integer")
          | some v => .ok v

/-- A text holds another. -/
def containsText (part s : String) : Bool := s.toList.tails.any fun t => part.toList.isPrefixOf t

/-- `staged_pg_version`: the version row of the dump's `meta` block. -/
def stagedPgVersion : List (Option String) → Bool → Except BackupError ℤ
  | [], _ =>
      .error (.manifest "the dump carries no readable schema_version row (corrupt or foreign dump)")
  | none :: rest, inMeta => stagedPgVersion rest inMeta
  | some line :: rest, true =>
      if line = "\\." then stagedPgVersion rest false
      else
        match stripPre "schema_version\t" line with
        | none => stagedPgVersion rest true
        | some text =>
            match parseI64 (trimText text) with
            | none => .error (.manifest "the dump's schema_version is not an integer")
            | some v => .ok v
  | some line :: rest, false =>
      stagedPgVersion rest ((stripPre "COPY " line).isSome &&
        (containsText ".meta (" line || (stripPre "COPY meta (" line).isSome))

/-- The version the staged dump claims, within what is supported. -/
def versionGuard (tools : BackupTools Id File) (cfg : BackendConfig) (stage : Disk File) :
    Except BackupError Unit := do
  let staged ← match cfg.metaKind with
    | .sqlite => stagedSqliteVersion tools (stage.get [sqliteDump])
    | .postgres =>
        match stage.get [pgDump] with
        | none => .error (.io [pgDump])
        | some dump => stagedPgVersion (tools.lines dump) false
  if (maxSupported : ℤ) < staged then .error (.tooNew staged maxSupported) else .ok ()

/-- Everything a restore checks before it writes to the target: the manifest, the
ids waived and the staged files. -/
def restoreChecks (tools : BackupTools Id File) (world : BackupWorld File) (cfg : BackendConfig)
    (root backupDir : Disk File) (force : Bool) (allowMissing : Option String) :
    Except BackupError (BackupManifest × List String × Disk File) := do
  let manifest ← loadManifest tools backupDir
  comboGuard cfg manifest
  initializedGuard cfg root force
  notEmptyGuard cfg root force
  postgresGuard world cfg
  artifactGuard cfg manifest
  let waived ← presenceGate tools world cfg manifest allowMissing
  layoutGuard cfg manifest
  let stage ← stageArtifacts tools backupDir manifest.artifacts []
  versionGuard tools cfg stage
  if world.locked then .error (.store .lockHeld)
  .ok (manifest, waived, stage)

/-! ### The write phase of a restore -/

/-- The target and the staging directory while a restore writes, and the paths
it has written or removed. -/
structure RestoreState (File : Type) where
  target : Disk File
  stage : Disk File
  written : List (List String)

namespace RestoreState

def putFile (st : RestoreState File) (path : List String) (file : File) : RestoreState File :=
  { st with target := st.target.put path file, written := st.written ++ [path] }

def removeFile (st : RestoreState File) (path : List String) : RestoreState File :=
  if st.target.stands path then
    { st with target := st.target.remove path, written := st.written ++ [path] }
  else st

def removeDir (st : RestoreState File) (path : List String) : RestoreState File :=
  { st with
    target := st.target.removeAll path
    written := st.written ++ (st.target.map Prod.fst).filter fun p => path.isPrefixOf p }

/-- `rename` out of the staging directory. -/
def moveFile (st : RestoreState File) (src dst : List String) : Option (RestoreState File) :=
  (st.stage.get src).map fun file => { st.putFile dst file with stage := st.stage.remove src }

/-- A commit of rows through the connection on a file. -/
def commit (tools : BackupTools Id File) (st : RestoreState File) (path : List String)
    (db : Database Id) : RestoreState File :=
  match st.target.get path with
  | none => st
  | some file =>
      let committed := tools.commit file (st.target.get (walOf path)) db
      let st := st.putFile path committed.1
      match committed.2 with
      | some log => st.putFile (walOf path) log
      | none => st.removeFile (walOf path)

end RestoreState

/-- The name of a repository's artifact. -/
def repoArtifactName (path : String) : Option String :=
  (stripPre "repos/" path).bind (stripSuf ".db")

/-- The repositories' files, moved in the order of the manifest. -/
def moveRepos : List ArtifactChecksum → RestoreState File →
    RestoreState File × Option BackupError
  | [], st => (st, none)
  | a :: artifacts, st =>
      match repoArtifactName a.path with
      | none => moveRepos artifacts st
      | some name =>
          let dst := [reposDir, name ++ ".db"]
          match st.moveFile (components a.path) dst with
          | none => (st, some (.io dst))
          | some st' => moveRepos artifacts st'

/-- The database files of a SQLite restore. -/
def moveDatabases (cfg : BackendConfig) (manifest : BackupManifest) (st : RestoreState File) :
    RestoreState File × Option BackupError :=
  let st := sidecars.foldl RestoreState.removeFile st
  match st.moveFile [sqliteDump] (primaryPath cfg.layout) with
  | none => (st, some (.io (primaryPath cfg.layout)))
  | some st =>
      match cfg.layout with
      | .singleDb => (st, none)
      | .dbPerRepo => moveRepos manifest.artifacts (st.removeDir [reposDir])

/-- The objects, copied out of the staging directory. -/
def copyObjects : List String → RestoreState File → RestoreState File × Option BackupError
  | [], st => (st, none)
  | hex :: ids, st =>
      let path := objectsDir :: shardPath hex
      match st.stage.get path with
      | none => (st, some (.io path))
      | some file => copyObjects ids (st.putFile path file)

def jsonStrings (l : List String) : String :=
  "[" ++ String.intercalate "," (l.map fun s => "\"" ++ s ++ "\"") ++ "]"

/-- The details of the restore's audit row. -/
def restoreAuditDetails (cfg : BackendConfig) (manifest : BackupManifest) (waived : List String) :
    String :=
  "\x7b\"blob\":\"" ++ cfg.blob.text ++ "\",\"created_ns\":" ++ toString manifest.createdNs ++
    ",\"format\":" ++ toString manifestFormat ++ ",\"meta\":\"" ++ cfg.metaKind.text ++
    "\",\"objects_restored\":" ++ toString manifest.objects.length ++ ",\"waived_ids\":" ++
    jsonStrings waived ++ "\x7d"

structure RestoreReport where
  metaKind : MetaKind
  blob : BlobKind
  schemaVersion : ℤ
  counts : BackupCounts
  objectsPresent : ℕ
  forced : Bool
  createdNs : ℤ
  waived : List String
  deriving DecidableEq

/-- What a restore leaves of its target, and its answer; `written` is empty
where it was refused before its write phase. -/
structure RestoreResult (File : Type) where
  target : Disk File
  written : List (List String)
  answer : Except BackupError RestoreReport

def RestoreState.stop (st : RestoreState File) (e : BackupError) : RestoreResult File :=
  ⟨st.target, st.written, .error e⟩

/-- The objects a restore copies. -/
def restoredIds (cfg : BackendConfig) (manifest : BackupManifest) : List String :=
  if cfg.blob = .fs then manifest.objects else []

/-- The objects, the audit row and the answer, once the store is open. -/
def restoreRest (tools : BackupTools Id File) (world : BackupWorld File) (cfg : BackendConfig)
    (manifest : BackupManifest) (waived : List String) (force : Bool)
    (opened : Option (Database Id)) (st : RestoreState File) : RestoreResult File :=
  match copyObjects (restoredIds cfg manifest) st with
  | (st, some e) => st.stop e
  | (st, none) =>
      if (restoredIds cfg manifest).any fun hex =>
          !st.target.stands (objectsDir :: shardPath hex) then
        st.stop (.manifest "a moved object is not present in the target CAS (filesystem error)")
      else
        let st := match opened with
          | none => st
          | some db => st.commit tools (primaryPath cfg.layout) (db.auditAppend world.nowNs.toNat
              "admin" "restore" (restoreAuditDetails cfg manifest waived))
        ⟨st.target, st.written, .ok
          { metaKind := cfg.metaKind
            blob := cfg.blob
            schemaVersion := manifest.schemaVersion
            counts := manifest.counts
            objectsPresent := manifest.objects.length
            forced := force
            createdNs := manifest.createdNs
            waived := waived }⟩

/-- The write phase; the lock's own file is left out. -/
def restoreWrite (tools : BackupTools Id File) (world : BackupWorld File) (cfg : BackendConfig)
    (root : Disk File) (force : Bool) (manifest : BackupManifest) (waived : List String)
    (stage : Disk File) : RestoreResult File :=
  let st : RestoreState File := ⟨root, stage, []⟩
  match cfg.metaKind with
  | .postgres =>
      if !world.psql then st.stop (.toolFailed "psql")
      else if !world.pgOpens then st.stop (.store .db)
      else restoreRest tools world cfg manifest waived force none st
  | .sqlite =>
      match moveDatabases cfg manifest st with
      | (st, some e) => st.stop e
      | (st, none) =>
          let path := primaryPath cfg.layout
          match st.target.get path with
          | none => st.stop (.io path)
          | some file =>
              match tools.openPrimary cfg.layout file (st.target.get (walOf path)) with
              | .error e => st.stop (.store e)
              | .ok db =>
                  restoreRest tools world cfg manifest waived force (some db)
                    (st.commit tools path db)

/-- `restore`. -/
def restore (tools : BackupTools Id File) (world : BackupWorld File) (cfg : BackendConfig)
    (root backupDir : Disk File) (force : Bool) (allowMissing : Option String) :
    RestoreResult File :=
  match restoreChecks tools world cfg root backupDir force allowMissing with
  | .error e => ⟨root, [], .error e⟩
  | .ok (manifest, waived, stage) =>
      restoreWrite tools world cfg root force manifest waived stage

end

/-! ### Plain files -/

/-- A file that is what it holds. -/
inductive PlainFile
  | database (db : Database PlainId)
  | manifest (m : BackupManifest)
  | text (lines : List (Option String))

/-- Tools over such files: a log holds the rows after it, a commit leaves none. -/
def plainTools : BackupTools PlainId PlainFile where
  read
    | .database _, some (.database db) => some db
    | .database db, _ => some db
    | _, _ => none
  vacuum := .database
  commit := fun _ _ db => (.database db, none)
  sharedSql := fun _ db => db
  catalogSql := fun _ db => db
  sha256 := fun _ => String.ofList (List.replicate 64 '0')
  waiverDigest := fun ids => toString ids.length
  toJson := .manifest
  fromJson
    | .manifest m => some m
    | _ => none
  lines
    | .text lines => lines
    | _ => []
  read_vacuum := fun _ => rfl
  read_commit := fun _ _ _ => rfl
  sha256_hex := fun _ => by decide
  fromJson_toJson := fun _ => rfl

/-- Nothing outside: no lock, no Postgres, no bucket. -/
def plainWorld : BackupWorld PlainFile where
  locked := false
  nowNs := 0
  naatreVersion := "1"
  pgConnects := false
  pgInitialized := none
  pgDumped := none
  psql := false
  pgOpens := false
  bucket := none

/-- Files in the data directory, a catalog and one for each repository. -/
def splitConfig : BackendConfig where
  metaKind := .sqlite
  blob := .fs
  layout := .dbPerRepo
  postgres_single := MetaKind.noConfusion

/-- A catalog of these repositories. -/
def plainCatalog (repos : List RegistryRow) : Database PlainId
  | .metaRows => [(Database.schemaVersion, "2"), (Database.adoptedMarker, "1")]
  | .repos => repos
  | _ => []

end Naatre
