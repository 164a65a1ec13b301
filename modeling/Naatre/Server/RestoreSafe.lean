import Naatre.Core.Plain
import Naatre.Server.RestoreSteps

/-!
When a restore is safe (`backup.rs` `restore`).

The guards name `naatre.db`, its log and the filled directories; the catalog, its
log and the versions of the other files are not looked at. `restore_safe_iff`
says exactly when that does no harm.
-/

namespace Naatre

open Lib

section

variable {Id : Type} [Platform Id] {File : Type}

/-! ### What is asked of a restore -/

/-- The database files of the stores a directory holds: the single database, and
an adopted catalog with the files of its repositories. -/
def storeFiles (tools : BackupTools Id File) (root : Disk File) : List (List String) :=
  (if root.stands [dbFile] then [[dbFile]] else []) ++
    if hasAdoptedMarker tools root then
      [catalogFile] :: (root.map Prod.fst).filter fun p => [reposDir].isPrefixOf p
    else []

/-- The version a file of the backup claims. -/
def claimedVersion (tools : BackupTools Id File) (file : File) : Option ℤ :=
  (tools.read file none).bind fun db => (db.metaGet Database.schemaVersion).bind parseI64

/-- The newest schema this binary supports in an artifact of the backup, where it
is a database file. -/
def supportedVersion (layout : Layout) (path : String) : Option ℕ :=
  if path = sqliteDump then
    match layout with
    | .singleDb => some maxSupported
    | .dbPerRepo => some catalogMaxSupported
  else if (repoArtifactName path).isSome then some maxSupported
  else none

/-- A database file of the backup is newer than this binary. -/
def NewerFile (tools : BackupTools Id File) (cfg : BackendConfig) (backupDir : Disk File)
    (a : ArtifactChecksum) : Prop :=
  match cfg.metaKind with
  | .sqlite => ∃ supported, supportedVersion cfg.layout a.path = some supported ∧
      ∃ file v, backupDir.get (components a.path) = some file ∧
        claimedVersion tools file = some v ∧ (supported : ℤ) < v
  | .postgres => a.path = pgDump ∧ ∃ file v, backupDir.get [pgDump] = some file ∧
      stagedPgVersion (tools.lines file) false = .ok v ∧ (maxSupported : ℤ) < v

/-- The database files of the target hold the rows of the backup, opened, and one
audit row: nothing of a log that was left beside them. -/
def RestoredExactly (tools : BackupTools Id File) (world : BackupWorld File) (cfg : BackendConfig)
    (manifest : BackupManifest) (backupDir target : Disk File) : Prop :=
  (∃ file db waived, backupDir.get [sqliteDump] = some file ∧
      tools.openPrimary cfg.layout file none = .ok db ∧
      RestoreState.view tools target (primaryPath cfg.layout) =
        some (restoredRows world cfg manifest waived db)) ∧
    (cfg.layout = .dbPerRepo → ∀ a ∈ manifest.artifacts, ∀ name,
      repoArtifactName a.path = some name →
        RestoreState.view tools target (repoDst name) =
          (backupDir.get (components a.path)).bind fun file => tools.read file none)

structure RestoreSafe (tools : BackupTools Id File) (world : BackupWorld File)
    (cfg : BackendConfig) (root backupDir : Disk File) (force : Bool) (r : RestoreResult File) :
    Prop where
  /-- a restore refused before its write phase leaves the target -/
  untouched : r.written = [] → ∀ p, r.target.get p = root.get p
  /-- without `--force` no file of an initialised store is written -/
  kept : force = false → ∀ p ∈ storeFiles tools root, p ∉ r.written
  /-- a restore that succeeds shows the backup's rows only -/
  exactly : ∀ manifest, loadManifest tools backupDir = .ok manifest → ∀ report,
    r.answer = .ok report → cfg.metaKind = .sqlite →
      RestoredExactly tools world cfg manifest backupDir r.target
  /-- a backup with a database file newer than this binary is refused before any
  write -/
  notNewer : ∀ manifest, loadManifest tools backupDir = .ok manifest →
    (∃ a ∈ manifest.artifacts, NewerFile tools cfg backupDir a) →
      r.written = [] ∧ ∃ e, r.answer = .error e

/-- What the checks leave open, in a directory of a catalog and its files: an
adopted catalog stands in the target of an unforced restore, a file other than by
the version read from the catalog's is too new, the catalog is newer than its own
list, or a log beside the old catalog changes what the restored one opens as. -/
structure RestoreSound (tools : BackupTools Id File) (root backupDir : Disk File) (force : Bool)
    (manifest : BackupManifest) : Prop where
  free : force = true ∨ hasAdoptedMarker tools root = false
  versions : ∀ a ∈ manifest.artifacts, ∀ supported,
    supportedVersion .dbPerRepo a.path = some supported →
      ∀ file v, backupDir.get (components a.path) = some file →
        claimedVersion tools file = some v → v ≤ supported
  log : (repoPaths manifest.artifacts).Nodup → ∀ file db,
    backupDir.get [sqliteDump] = some file →
      tools.openPrimary .dbPerRepo file (root.get (walOf [catalogFile])) = .ok db →
        tools.openPrimary .dbPerRepo file none = .ok db

/-! ### One restore -/

theorem auditAppend_injective {db db' : Database Id} {tsNs : ℕ}
    {principal action details details' : String}
    (h : db.auditAppend tsNs principal action details =
      db'.auditAppend tsNs principal action details') : db = db' := by
  funext table
  have htable := congrFun h table
  unfold Database.auditAppend at htable
  by_cases ht : table = .auditLog
  · subst ht
    rw [Database.insert_self, Database.insert_self] at htable
    exact (List.append_inj' htable rfl).1
  · rw [Database.insert_of_ne _ _ ht, Database.insert_of_ne _ _ ht] at htable
    exact htable

section

variable {tools : BackupTools Id File} {world : BackupWorld File} {cfg : BackendConfig}
  {root backupDir stage : Disk File} {force : Bool} {allowMissing : Option String}
  {manifest : BackupManifest} {waived : List String}

/-- A refused restore is safe. -/
theorem RestoreSafe.refused (e : BackupError) :
    RestoreSafe tools world cfg root backupDir force ⟨root, [], .error e⟩ where
  untouched _ _ := rfl
  kept _ _ _ := List.not_mem_nil
  exactly _ _ _ h _ := by cases h
  notNewer _ _ _ := ⟨rfl, e, rfl⟩

theorem claimedVersion_of_staged {file : File} {v w : ℤ}
    (hv : stagedSqliteVersion tools (some file) = .ok v) (hw : claimedVersion tools file = some w) :
    v = w := by
  unfold claimedVersion at hw
  obtain ⟨db, hdb, hparse⟩ := Option.bind_eq_some_iff.mp hw
  obtain ⟨text, htext, hparse⟩ := Option.bind_eq_some_iff.mp hparse
  simp only [stagedSqliteVersion, Option.bind_some, hdb, htext, hparse] at hv
  cases hv
  rfl

/-- An accepted SQLite restore into one database finds no newer file. -/
theorem RestoreAccepted.notNewer_single
    (h : RestoreAccepted tools world cfg root backupDir force allowMissing manifest waived stage)
    (hsqlite : cfg.metaKind = .sqlite) (hlayout : cfg.layout = .singleDb) :
    ¬∃ a ∈ manifest.artifacts, NewerFile tools cfg backupDir a := by
  rintro ⟨a, ha, hnewer⟩
  simp only [NewerFile, hsqlite, hlayout] at hnewer
  obtain ⟨supported, hsupported, file, v, hfile, hclaimed, hlt⟩ := hnewer
  unfold supportedVersion at hsupported
  split_ifs at hsupported with hdump hrepo
  · cases hsupported
    obtain ⟨file', v', -, hfile', hv', hle⟩ := h.dump hsqlite
    have hpath : components a.path = [sqliteDump] := by
      rw [hdump]
      decide
    rw [hpath, hfile'] at hfile
    cases hfile
    rw [claimedVersion_of_staged hv' hclaimed] at hle
    exact absurd hlt (not_lt.mpr hle)
  · have hsplit : backupIsSplit manifest = true := by
      refine List.any_eq_true.mpr ⟨a, ha, ?_⟩
      obtain ⟨name, hname⟩ := Option.isSome_iff_exists.mp hrepo
      obtain ⟨rest, hrest, -⟩ := Option.bind_eq_some_iff.mp hname
      rw [hrest]
      rfl
    have hguard := h.layout
    simp only [layoutGuard, hlayout, hsplit] at hguard
    cases hguard

/-- Neither does an accepted Postgres restore. -/
theorem RestoreAccepted.notNewer_postgres
    (h : RestoreAccepted tools world cfg root backupDir force allowMissing manifest waived stage)
    (hpostgres : cfg.metaKind = .postgres) :
    ¬∃ a ∈ manifest.artifacts, NewerFile tools cfg backupDir a := by
  rintro ⟨a, ha, hnewer⟩
  simp only [NewerFile, hpostgres] at hnewer
  obtain ⟨hdump, file, v, hfile, hv, hlt⟩ := hnewer
  have hpath : components a.path = [pgDump] := by
    rw [hdump]
    decide
  have hget := (h.stagedRepo ha).1
  rw [hpath, hfile] at hget
  have hversion := h.version
  simp only [versionGuard, hpostgres, Lib.bind_eq_ok, hget, hv] at hversion
  obtain ⟨w, hw, hle⟩ := hversion
  cases hw
  rw [if_pos hlt] at hle
  cases hle

/-- The files of an initialised store that an accepted, unforced restore meets lie
beside what it writes, but for a catalog that a catalog replaces. -/
theorem RestoreAccepted.kept
    (h : RestoreAccepted tools world cfg root backupDir false allowMissing manifest waived stage)
    (hfree : cfg.metaKind = .sqlite → cfg.layout = .dbPerRepo → hasAdoptedMarker tools root = false)
    {p : List String} (hp : p ∈ storeFiles tools root) :
    ¬(InObjects p ∨ cfg.metaKind = .sqlite ∧
      (DatabasePaths cfg.layout p ∨ p = walOf (primaryPath cfg.layout))) := by
  have hnot : root.stands [dbFile] = false := by
    by_contra hstands
    have hguard := h.initialized
    unfold initializedGuard at hguard
    rw [if_pos (Bool.not_eq_false _ ▸ hstands)] at hguard
    split at hguard <;> cases hguard
  simp only [storeFiles, hnot, Bool.false_eq_true, if_false, List.nil_append] at hp
  split_ifs at hp with hmarker
  swap
  · exact absurd hp List.not_mem_nil
  have hcases : p = [catalogFile] ∨ [reposDir].isPrefixOf p = true := by
    rcases List.mem_cons.mp hp with rfl | hp
    · exact .inl rfl
    · exact .inr (List.mem_filter.mp hp).2
  rintro (⟨rest, rfl⟩ | ⟨hsqlite, hwritten⟩)
  · rcases hcases with heq | hpre
    · injection heq with hname
      exact absurd hname (by decide)
    · exact absurd hpre (by simp [List.isPrefixOf, reposDir, objectsDir])
  · cases hlayout : cfg.layout with
    | dbPerRepo =>
        rw [hfree hsqlite hlayout] at hmarker
        cases hmarker
    | singleDb =>
        rw [hlayout] at hwritten
        have hhead : p.head? = some catalogFile ∨ p.head? = some reposDir := by
          rcases hcases with rfl | hpre
          · exact .inl rfl
          · obtain ⟨rest, rfl⟩ := List.isPrefixOf_iff_prefix.mp hpre
            exact .inr rfl
        have hsingle : p = [dbFile ++ "-wal"] ∨ p = [dbFile ++ "-shm"] ∨ p = [dbFile] := by
          rcases hwritten with (hside | hprimary | ⟨hsplit, -⟩) | hwal
          · rcases List.mem_cons.mp hside with h | h
            · exact .inl h
            · exact .inr (.inl (List.mem_singleton.mp h))
          · exact .inr (.inr hprimary)
          · cases hsplit
          · exact .inl hwal
        rcases hsingle with rfl | rfl | rfl <;> exact absurd hhead (by decide)

/-- An accepted Postgres restore is safe. -/
theorem RestoreAccepted.safe_postgres
    (h : RestoreAccepted tools world cfg root backupDir force allowMissing manifest waived stage)
    (hpostgres : cfg.metaKind = .postgres) :
    RestoreSafe tools world cfg root backupDir force
      (restoreWrite tools world cfg root force manifest waived stage) := by
  have hwritten := @restoreWrite_postgres _ _ _ tools world cfg manifest waived force root stage
    hpostgres
  refine ⟨fun hnone p => ?_, fun hforce p hp hmem => ?_, fun _ _ _ _ hsqlite => ?_,
    fun m hm hnewer => ?_⟩
  · unfold restoreWrite at hnone ⊢
    simp only [hpostgres] at hnone ⊢
    split at hnone
    next hpsql => rw [if_pos hpsql]; rfl
    next hpsql =>
      rw [if_neg hpsql]
      split at hnone
      next hopens => rw [if_pos hopens]; rfl
      next hopens =>
        rw [if_neg hopens]
        obtain ⟨report, st', hrest, hwrites, -⟩ := @restoreRest_of_staged _ _ _ tools world cfg
          manifest waived force none ⟨root, stage, []⟩ fun hex hhex => (h.stagedObjects hex hhex).2
        rw [hrest] at hnone ⊢
        have hnone : st'.written = [] := hnone
        exact hwrites.recorded p (by rw [hnone]; exact List.not_mem_nil)
  · subst hforce
    have hkept := h.kept (fun hsqlite => by rw [hpostgres] at hsqlite; cases hsqlite) hp
    exact hkept (.inl (hwritten p hmem))
  · rw [hpostgres] at hsqlite
    cases hsqlite
  · rw [h.load] at hm
    cases hm
    exact absurd hnewer (h.notNewer_postgres hpostgres)

/-- An accepted SQLite restore is safe where what the checks leave open does not
occur. -/
theorem RestoreAccepted.safe_sqlite
    (h : RestoreAccepted tools world cfg root backupDir force allowMissing manifest waived stage)
    (hsqlite : cfg.metaKind = .sqlite)
    (hsound : cfg.layout = .dbPerRepo → RestoreSound tools root backupDir force manifest) :
    RestoreSafe tools world cfg root backupDir force
      (restoreWrite tools world cfg root force manifest waived stage) := by
  obtain ⟨file, v, hfile, hdump, -, -⟩ := h.dump hsqlite
  obtain ⟨hprimary, hwritten⟩ := @restoreWrite_written _ _ _ tools world cfg manifest waived force
    root stage hsqlite file hfile
  refine ⟨fun hnone => ?_, fun hforce p hp hmem => ?_, fun m hm report hanswer _ => ?_,
    fun m hm hnewer => ?_⟩
  · rw [hnone] at hprimary
    exact absurd hprimary List.not_mem_nil
  · subst hforce
    have hfree : cfg.metaKind = .sqlite → cfg.layout = .dbPerRepo →
        hasAdoptedMarker tools root = false :=
      fun _ hlayout => (hsound hlayout).free.resolve_left Bool.false_ne_true
    refine h.kept hfree hp ?_
    rcases hwritten p hmem with hp | hp | hp
    · exact .inr ⟨hsqlite, .inl hp⟩
    · exact .inl hp
    · exact .inr ⟨hsqlite, .inr hp⟩
  · rw [h.load] at hm
    cases hm
    obtain ⟨hnodup, db, hopen⟩ := restoreWrite_ok hsqlite hfile hanswer
    have hrestored := restoreWrite_opened h hsqlite hfile hnodup hopen
    -- no log of the old file is left, or it changes nothing
    have halone : tools.openPrimary cfg.layout file none = .ok db := by
      cases hlayout : cfg.layout with
      | singleDb =>
          rw [hlayout] at hopen
          exact hopen
      | dbPerRepo =>
          rw [hlayout] at hopen
          exact (hsound hlayout).log (hnodup hlayout) file db hdump hopen
    exact ⟨⟨file, db, waived, hdump, halone, hrestored.primary⟩, hrestored.repos⟩
  · rw [h.load] at hm
    cases hm
    cases hlayout : cfg.layout with
    | singleDb => exact absurd hnewer (h.notNewer_single hsqlite hlayout)
    | dbPerRepo =>
        obtain ⟨a, ha, hnewer⟩ := hnewer
        simp only [NewerFile, hsqlite, hlayout] at hnewer
        obtain ⟨supported, hsupported, file', v', hfile', hv', hlt⟩ := hnewer
        exact absurd hlt (not_lt.mpr
          ((hsound hlayout).versions a ha supported hsupported file' v' hfile' hv'))

end

/-- A restore is safe exactly where its checks refuse it, or the store is not a
catalog with its files, or what the checks leave open does not occur. -/
theorem restore_safe_iff (tools : BackupTools Id File) (world : BackupWorld File)
    (cfg : BackendConfig) (root backupDir : Disk File) (force : Bool)
    (allowMissing : Option String) :
    RestoreSafe tools world cfg root backupDir force
        (restore tools world cfg root backupDir force allowMissing) ↔
      (cfg.metaKind = .sqlite → cfg.layout = .dbPerRepo → ∀ manifest waived stage,
        restoreChecks tools world cfg root backupDir force allowMissing =
            .ok (manifest, waived, stage) →
          RestoreSound tools root backupDir force manifest) := by
  constructor
  · intro hsafe hsqlite hlayout manifest waived stage hchecks
    have h := restoreChecks_ok.mp hchecks
    have hrun : restore tools world cfg root backupDir force allowMissing =
        restoreWrite tools world cfg root force manifest waived stage := by
      simp only [restore, hchecks]
    rw [hrun] at hsafe
    obtain ⟨file, v, hfile, hdump, -, -⟩ := h.dump hsqlite
    obtain ⟨hprimary, -⟩ := @restoreWrite_written _ _ _ tools world cfg manifest waived force root
      stage hsqlite file hfile
    rw [hlayout] at hprimary
    refine ⟨?_, fun a ha supported hsupported file' v' hfile' hv' => ?_,
      fun hnodup file' db hfile' hopen => ?_⟩
    · cases force with
      | true => exact .inl rfl
      | false =>
          right
          by_contra hmarker
          have hmarker : hasAdoptedMarker tools root = true := by simpa using hmarker
          refine hsafe.kept rfl [catalogFile] ?_ hprimary
          simp only [storeFiles, hmarker, if_true]
          exact List.mem_append_right _ List.mem_cons_self
    · by_contra hlt
      have hnewer : NewerFile tools cfg backupDir a := by
        simp only [NewerFile, hsqlite, hlayout]
        exact ⟨supported, hsupported, file', v', hfile', hv', not_le.mp hlt⟩
      rw [(hsafe.notNewer manifest h.load ⟨a, ha, hnewer⟩).1] at hprimary
      exact List.not_mem_nil hprimary
    · rw [hdump] at hfile'
      cases hfile'
      have hopen' : tools.openPrimary cfg.layout file (leftoverLog cfg.layout root) = .ok db := by
        rw [hlayout]
        exact hopen
      have hrestored := restoreWrite_opened h hsqlite hfile (fun _ => hnodup) hopen'
      obtain ⟨report, hanswer⟩ := hrestored.answer
      obtain ⟨⟨file', db', waived', hfile', hopen'', hview⟩, -⟩ :=
        hsafe.exactly manifest h.load report hanswer hsqlite
      rw [hdump] at hfile'
      cases hfile'
      rw [hrestored.primary, Option.some.injEq] at hview
      rw [auditAppend_injective hview, ← hlayout]
      exact hopen''
  · intro hsound
    cases hchecks : restoreChecks tools world cfg root backupDir force allowMissing with
    | error e =>
        have hrun : restore tools world cfg root backupDir force allowMissing =
            ⟨root, [], .error e⟩ := by
          simp only [restore, hchecks]
        rw [hrun]
        exact RestoreSafe.refused e
    | ok checked =>
        obtain ⟨manifest, waived, stage⟩ := checked
        have h := restoreChecks_ok.mp hchecks
        have hrun : restore tools world cfg root backupDir force allowMissing =
            restoreWrite tools world cfg root force manifest waived stage := by
          simp only [restore, hchecks]
        rw [hrun]
        cases hmeta : cfg.metaKind with
        | postgres => exact h.safe_postgres hmeta
        | sqlite => exact h.safe_sqlite hmeta fun hlayout => hsound hmeta hlayout _ _ _ hchecks

end

/-! ### A catalog without repositories -/

namespace Overwritten

/-- A store just initialised: an adopted catalog, no repository, no object. -/
def root : Disk PlainFile := [([catalogFile], .file (.database (plainCatalog [])))]

/-- The backup of a store with one repository. -/
def backupDir : Disk PlainFile :=
  match backup plainTools plainWorld splitConfig
      [([catalogFile], .file (.database (plainCatalog [⟨1, "r", 0⟩]))),
        ([reposDir, "1.db"], .file (.database (.migrated "13")))] none with
  | .ok (dest, _) => dest
  | .error _ => []

end Overwritten

open Overwritten in
/-- It is restored over without `--force`. -/
theorem unforced_restore_overwrites :
    ¬RestoreSafe plainTools plainWorld splitConfig root backupDir false
      (restore plainTools plainWorld splitConfig root backupDir false none) := by
  intro hsafe
  have hstore : [catalogFile] ∈ storeFiles plainTools root := by decide +kernel
  have hwritten : [catalogFile] ∈
      (restore plainTools plainWorld splitConfig root backupDir false none).written := by
    decide +kernel
  exact hsafe.kept rfl [catalogFile] hstore hwritten

end Naatre
