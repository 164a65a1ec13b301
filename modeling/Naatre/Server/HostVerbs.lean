import Naatre.Server.Audit
import Naatre.Server.Reads

/-!
The host-local verbs (`naatre-cli/src/host.rs`, `import::run_backend`): what
each of them writes and into which file of the data directory, and what it
prints. The server reads one of these files, or the catalog and the files of
the repositories.
-/

namespace Naatre

/-- A metadata file of a data directory. -/
inductive DbFile
  | naatre
  | catalog
  | repo (r : RepoId)
  deriving DecidableEq, Repr

namespace Layout

/-- The file of the global tables: what `ServerState::open_backend` serves, and
`ImportDb::open` opens. -/
def catalogFile : Layout → DbFile
  | .singleDb => .naatre
  | .dbPerRepo => .catalog

/-- The file of a repository's rows. -/
def repoFile : Layout → RepoId → DbFile
  | .singleDb, _ => .naatre
  | .dbPerRepo, r => .repo r

/-- Every file a server reads. -/
def servedFiles (layout : Layout) (repos : List RepoId) : List DbFile :=
  layout.catalogFile :: repos.map layout.repoFile

end Layout

/-- `Store::open_backend` without Postgres: `Store::open`, whatever the layout. -/
def openBackend : DbFile := .naatre

/-- A key of the verify list. -/
structure VerifyKey where
  id : String
  current : Bool
  deriving DecidableEq, Repr

section

variable (Id : Type) [Platform Id]

/-- A data directory with no process on it. -/
structure HostDir where
  server : Server Id
  accounts : DbFile → Accounts
  /-- `audit_log` of each file -/
  log : DbFile → List (AuditEntry Id)
  /-- `cache_keys.json` -/
  verify : Option (List VerifyKey)
  /-- the key of the signing file -/
  signing : Option String

/-- A verb with its arguments, and what it draws or meets. -/
inductive Verb
  /-- `token --new-admin`, with the hash of the token it mints -/
  | newAdminToken (blake3 : Bytes)
  | import (name : String) (git : GitRepo) (opts : ImportOptions) (head : GitOid) (stop : ℕ)
  | redact (repo : String) (id : Id) (kind : RedactionKind) (reason : String)
  /-- a pass to its end, with the details of the rows it leaves -/
  | gc (steps : ℕ) (collected purged : Option String)
  /-- with the id of the pair it generates -/
  | cacheKeyInit (keyId : String)
  | cacheKeyRotate (keyId : String)
  | cacheKeyDrop (keyId : String)

/-- What a verb that ended with exit code 0 told the operator. -/
inductive Printed
  | adminToken (blake3 : Bytes)
  /-- the changesets it created, and the tip where it moved `main` -/
  | imported (r : RepoId) (ids : List Id) (tip : Option Id)
  | redacted (r : RepoId) (kind : RedactionKind) (id : Id)
  | collected (rows : List (RepoId × Id))
  | cacheKey (keyId : String)

/-- What a verb did: what it printed, the audit rows it wrote with their files,
and the files it had open for writing. -/
structure Ran where
  printed : Printed Id
  audited : List (DbFile × AuditEntry Id)
  wrote : List DbFile

end

section

variable {Id : Type} [Platform Id]

/-- A `details_json`; the values are texts of JSON. -/
def jsonObject (fields : List (String × String)) : String :=
  "\x7b" ++ String.intercalate "," (fields.map fun field => quoted field.1 ++ ":" ++ field.2) ++
    "\x7d"

def MainOutcome.text : MainOutcome → String
  | .unchanged => "unchanged"
  | .set => "set"
  | .refused => "refused"
  | .fastForwarded => "fast-forwarded"

namespace HostDir

def layout (d : HostDir Id) : Layout := d.server.layout

def nowNs (d : HostDir Id) : ℕ := d.server.nowNs

/-- The log after rows went into their files. -/
def logged (d : HostDir Id) (rows : List (DbFile × AuditEntry Id)) :
    DbFile → List (AuditEntry Id) :=
  fun f => d.log f ++ (rows.filter fun row => decide (row.1 = f)).map (·.2)

/-- A host-local row: its actor is `admin`. -/
def adminRow (d : HostDir Id) (details : AuditDetails Id) : AuditEntry Id :=
  ⟨d.nowNs, "admin", details⟩

/-! ### Tokens -/

/-- `new_admin_token`. -/
def newAdminToken (d : HostDir Id) (blake3 : Bytes) : Option (HostDir Id × Ran Id) :=
  ((d.accounts openBackend).tokenCreate "admin" .admin blake3 none none d.nowNs).map
    fun accounts =>
      let audited := [(openBackend, d.adminRow (.other "new_admin" (jsonObject [])))]
      ({ d with
          accounts := fun f => if f = openBackend then accounts else d.accounts f
          log := d.logged audited },
        ⟨.adminToken blake3, audited, [openBackend]⟩)

/-! ### Imports -/

/-- The id an insert into the registry draws. -/
def nextRepoId (repos : List (RepoId × String)) : RepoId :=
  (repos.map (·.1)).foldl max 0 + 1

/-- The target repository, created where it is absent. -/
def importTarget (d : HostDir Id) (name : String) :
    RepoId × Server Id × List (DbFile × AuditEntry Id) :=
  match d.server.repos.find? (fun repo => decide (repo.2 = name)) with
  | some repo => (repo.1, d.server, [])
  | none =>
      let r := nextRepoId d.server.repos
      (r, { d.server with repos := d.server.repos ++ [(r, name)] },
        [(d.layout.catalogFile,
          d.adminRow (.other "repo_create" (jsonObject [("repo", quoted name)])))])

/-- `finish`. -/
def importDetails (name : String) (head : GitOid) (report : ImportReport) : AuditDetails Id :=
  .other "import" (jsonObject
    [("repo", quoted name), ("git_head", toString head), ("status", quoted "ok"),
      ("imported", toString report.imported), ("skipped", toString report.skipped.length),
      ("cascaded", toString report.cascaded.length), ("main", quoted report.main.text)])

/-- `run_backend` that reports `ok`. A changeset's row goes with it, on the
repository's connection. -/
def importGit (d : HostDir Id) (name : String) (git : GitRepo) (opts : ImportOptions)
    (head : GitOid) (stop : ℕ) : Option (HostDir Id × Ran Id) :=
  let (r, server, created) := d.importTarget name
  match runBackend d.nowNs (server.cx r) git opts head stop with
  | (.error _, _) => none
  | (.ok report, cx) =>
      if report.aborted then none
      else
        let rows := cx.db.changesets.drop (server.dbs r).changesets.length
        let tip :=
          if report.main = .set ∨ report.main = .fastForwarded then
            (refGet cx.db "main").bind (·.target)
          else none
        let cat := d.layout.catalogFile
        let audited :=
          created ++
            rows.map (fun row => (d.layout.repoFile r,
              d.adminRow (.changesetCreate name row.id row.generation (some "import")))) ++
            tip.toList.map (fun target =>
              (cat, d.adminRow (.refMove name "main" target "import"))) ++
            [(cat, d.adminRow (importDetails name head report))]
        some
          ({ d with
              server := server.put r cx
              log := d.logged audited },
            ⟨.imported r (rows.map (·.id)) tip, audited, [cat, d.layout.repoFile r]⟩)

/-! ### Redactions -/

/-- `redact`: the presence probe, the mark, and its row. -/
def redact (d : HostDir Id) (repo : String) (id : Id) (kind : RedactionKind) (reason : String) :
    Option (HostDir Id × Ran Id) :=
  if reason.toList.all Accounts.isWhiteSpace then none
  else
    match d.server.repos.find? (fun row => decide (row.2 = repo)) with
    | none => none
    | some (r, _) =>
        if !redactionTargetPresent (d.server.cx r) id kind then none
        else
          let files := d.layout.servedFiles d.server.repoIds
          let cat := d.layout.catalogFile
          let marked := redactionMark (d.server.dbs r) id kind d.nowNs
          let done := fun (audited : List (DbFile × AuditEntry Id)) =>
            some
              ({ d with
                  server := d.server.put r { d.server.cx r with db := marked.2 }
                  log := d.logged audited },
                (⟨.redacted r kind id, audited, files⟩ : Ran Id))
          match marked.1 with
          | .inserted => done [(cat, d.adminRow (.redact repo id kind reason false))]
          | .rearmed => done [(cat, d.adminRow (.redact repo id kind reason true))]
          | .existing => done []
          | .kindMismatch => none

/-! ### The collector -/

/-- A pass to its end, `none` where it is still going. -/
def gcLoop : ℕ → Server Id → Option (Server Id)
  | 0, s => if s.gc.isNone then some s else none
  | n + 1, s => if s.gc.isNone then some s else s.gcStep.bind (gcLoop n)

/-- The changesets a pass took away. -/
def collectedRows (s s' : Server Id) : List (RepoId × Id) :=
  s.repoIds.flatMap fun r =>
    (((s.dbs r).changesets.map (·.id)).filter fun id =>
      (changesetGet (s'.dbs r) id).isNone).map (r, ·)

/-- `gc`. A pass that collected or purged something leaves a row of it. -/
def gc (d : HostDir Id) (steps : ℕ) (collected purged : Option String) :
    Option (HostDir Id × Ran Id) :=
  (gcLoop steps d.server.gcStart).map fun s' =>
    let row := fun action details =>
      (d.layout.catalogFile, (⟨d.nowNs, "system", .other action details⟩ : AuditEntry Id))
    let audited := collected.toList.map (row "gc") ++ purged.toList.map (row "redact_purge")
    ({ d with
        server := s'
        log := d.logged audited },
      ⟨.collected (collectedRows d.server s'), audited, d.layout.servedFiles d.server.repoIds⟩)

/-! ### Cache keys -/

/-- `VerifyKeys::parse`, of entries whose ids are those of their keys. -/
def parseKeys (keys : List VerifyKey) : Option (List VerifyKey) :=
  if keys = [] ∨ ¬(keys.map (·.id)).Nodup then none else some keys

/-- The row of a key verb, written through `Store::open_backend`. -/
def keyRow (d : HostDir Id) (action : String) (fields : List (String × String)) :
    List (DbFile × AuditEntry Id) :=
  [(openBackend, d.adminRow (.other action (jsonObject fields)))]

/-- `key_store_write`: the files first, then the row. -/
def keyStoreWrite (d : HostDir Id) (keys : List VerifyKey) (keyId action : String)
    (fields : List (String × String)) : Option (HostDir Id × Ran Id) :=
  (parseKeys keys).map fun keys =>
    let audited := d.keyRow action fields
    ({ d with
        log := d.logged audited
        verify := some keys
        signing := some keyId },
      ⟨.cacheKey keyId, audited, [openBackend]⟩)

/-- `cache_key_init`; where both files stand it repairs the row instead. -/
def cacheKeyInit (d : HostDir Id) (keyId : String) : Option (HostDir Id × Ran Id) :=
  match d.verify, d.signing with
  | some keys, some _ =>
      (keys.find? (·.current)).map fun key =>
        let stood := (d.log openBackend).any fun row =>
          match row.details with
          | .other action _ => decide (action = "cache_key_init")
          | _ => false
        let audited := if stood then [] else
          d.keyRow "cache_key_init" [("key_id", quoted key.id), ("repaired", "true")]
        ({ d with log := d.logged audited }, ⟨.cacheKey key.id, audited, [openBackend]⟩)
  | _, _ =>
      d.keyStoreWrite [⟨keyId, true⟩] keyId "cache_key_init" [("key_id", quoted keyId)]

/-- `cache_key_rotate`: the keys of the list retire. -/
def cacheKeyRotate (d : HostDir Id) (keyId : String) : Option (HostDir Id × Ran Id) :=
  d.verify.bind fun old =>
    d.keyStoreWrite (⟨keyId, true⟩ :: old.map fun key => { key with current := false }) keyId
      "cache_key_rotate"
      [("key_id", quoted keyId),
        ("retired", "[" ++ String.intercalate "," (old.map fun key => quoted key.id) ++ "]")]

/-- `cache_key_drop`, of a retired key. -/
def cacheKeyDrop (d : HostDir Id) (keyId : String) : Option (HostDir Id × Ran Id) :=
  d.verify.bind fun keys =>
    (keys.find? fun key => decide (key.id = keyId)).bind fun dropped =>
      if dropped.current then none
      else
        (parseKeys (keys.filter fun key => decide (key.id ≠ keyId))).map fun remaining =>
          let audited := d.keyRow "cache_key_drop" [("key_id", quoted keyId)]
          ({ d with
              log := d.logged audited
              verify := some remaining },
            ⟨.cacheKey keyId, audited, [openBackend]⟩)

/-! ### Sequences -/

/-- One verb; `none` where it ends with another exit code than 0. -/
def run (d : HostDir Id) : Verb Id → Option (HostDir Id × Ran Id)
  | .newAdminToken blake3 => d.newAdminToken blake3
  | .import name git opts head stop => d.importGit name git opts head stop
  | .redact repo id kind reason => d.redact repo id kind reason
  | .gc steps collected purged => d.gc steps collected purged
  | .cacheKeyInit keyId => d.cacheKeyInit keyId
  | .cacheKeyRotate keyId => d.cacheKeyRotate keyId
  | .cacheKeyDrop keyId => d.cacheKeyDrop keyId

/-- Time passes. -/
def wait (d : HostDir Id) (ns : ℕ) : HostDir Id :=
  { d with server := { d.server with nowNs := d.server.nowNs + ns } }

/-- Verbs one after the other, each some time after the one before. -/
def runAll (d : HostDir Id) : List (ℕ × Verb Id) → Option (HostDir Id × List (Ran Id))
  | [] => some (d, [])
  | (ns, verb) :: verbs =>
      ((d.wait ns).run verb).bind fun done =>
        (done.1.runAll verbs).map fun rest => (rest.1, done.2 :: rest.2)

end HostDir

/-! ### What the operator was told -/

section

variable (Id : Type)

/-- What stands by what the verbs printed, each on top of the ones before. -/
structure Expected where
  tokens : List Bytes
  changesets : List (RepoId × Id)
  mains : List (RepoId × Id)
  redacted : List (RepoId × RedactionKind × Id)

end

/-- A later import moves `main` on, and a pass takes changesets away. -/
def Expected.after (x : Expected Id) : Printed Id → Expected Id
  | .adminToken blake3 => { x with tokens := x.tokens ++ [blake3] }
  | .imported r ids tip =>
      { x with
        changesets := x.changesets ++ ids.map (r, ·)
        mains :=
          match tip with
          | none => x.mains
          | some target => (r, target) :: x.mains.filter fun main => decide (main.1 ≠ r) }
  | .redacted r kind id => { x with redacted := x.redacted ++ [(r, kind, id)] }
  | .collected rows =>
      { x with changesets := x.changesets.filter fun row => decide (row ∉ rows) }
  | .cacheKey _ => x

def expected (ran : List (Ran Id)) : Expected Id :=
  ran.foldl (fun x done => x.after done.printed) ⟨[], [], [], []⟩

/-- The server on `d` serves what the verbs since `d₀` reported, and reads every
file they wrote. -/
structure Serves (d₀ d : HostDir Id) (ran : List (Ran Id)) : Prop where
  tokens : ∀ blake3 ∈ (expected ran).tokens, ∀ nowNs,
    (d.accounts d.layout.catalogFile).authenticate nowNs blake3 =
      (.ok ⟨"admin", .admin, none⟩ : Except (ApiError Id) AuthedPrincipal)
  changesets : ∀ row ∈ (expected ran).changesets,
    (∃ body, getChangeset (d.server.cx row.1) row.2 = .ok body) ∨
      ∃ kind, (row.1, kind, row.2) ∈ (expected ran).redacted
  mains : ∀ main ∈ (expected ran).mains, ∃ version,
    getRef (d.server.cx main.1) "main" = .ok (some main.2, version)
  redacted : ∀ row ∈ (expected ran).redacted,
    match row.2.1 with
    | .changeset => getChangeset (d.server.cx row.1) row.2.2 =
        .error (changesetRedacted (d.server.cx row.1) row.2.2)
    | .blob => ∃ e, getRaw (d.server.cx row.1) row.2.2 = .error e ∧ e.code = .objectRedacted
  audited : ∀ auth : AuthedPrincipal, auth.role = .admin → ∀ limit : Option ℤ,
    (parseLimit limit : Except (ApiError Empty) ℕ).isOk →
      ∃ rows, (∀ rows', Lib.Follow (fun cursor =>
          (auditRoute (d.log d.layout.catalogFile) auth limit cursor).toOption) none rows' ↔
            rows' = rows) ∧
        (d₀.log d.layout.catalogFile ++ ran.flatMap fun done => done.audited.map (·.2)).Subperm
          (rows.map (·.entry))
  files : ∀ done ∈ ran, ∀ f ∈ done.wrote, f ∈ d.layout.servedFiles d.server.repoIds

end

end Naatre
