import Mathlib.Data.List.Sort
import Naatre.Core.Plain
import Naatre.Lib.Table
import Naatre.Server.AdoptSteps

/-!
What a server reads before and after an adoption. The grants of `repo_access`
are on none of the three lists: `adopt_reads_iff` says that every read answers
the same exactly where no grant names a repository.
-/

namespace Naatre

section

variable {Id : Type} [Platform Id]

/-! ### One repository -/

/-- What the reads of a repository look at is the same. -/
structure RepoCx.Same (cx cx' : RepoCx Id) : Prop where
  id : cx'.id = cx.id
  name : cx'.name = cx.name
  cas : cx'.cas = cx.cas
  trees : cx'.trees = cx.trees
  db : cx'.db = cx.db
  snapshots : ∀ snap, snapshotGet cx' snap = snapshotGet cx snap

/-- The answer of a settled key is read off its row. -/
theorem landReplay_congr {cx cx' : RepoCx Id} (hdb : cx'.db = cx.db) (cmd : LandCommand Id) :
    landReplay cx' cmd = landReplay cx cmd := by
  rw [landReplay, landReplay, hdb]
  cases hrow : landGet cx.db cmd.principal cmd.key with
  | none => rfl
  | some row =>
      have hrow' : landGet cx'.db cmd.principal cmd.key = some row := hdb ▸ hrow
      simp only [Option.map_some, execute, landInTxn, hrow, hrow']
      cases row.state with
      | pending => rfl
      | done | conflicted =>
          cases row.head with
          | none => rfl
          | some settled =>
              dsimp only
              by_cases hhead : settled = cmd.head
              · rw [if_neg (not_not.mpr hhead), if_neg (not_not.mpr hhead)]
                cases row.result <;> rfl
              · rw [if_pos hhead, if_pos hhead]

/-- Two contexts of a repository that differ in what no read looks at. -/
theorem RepoCx.Same.eq {cx cx' : RepoCx Id} (h : cx.Same cx') :
    cx' = { cx with catIsDb := cx'.catIsDb, cat := cx'.cat, snapshots := cx'.snapshots } := by
  obtain ⟨hid, hname, hcas, htrees, hdb, -⟩ := h
  cases cx
  cases cx'
  cases hid
  cases hname
  cases hcas
  cases htrees
  cases hdb
  rfl

theorem loadOwnedUnexpired_congr {cx cx' : RepoCx Id} (h : cx.Same cx') (nowNs : ℕ) (snap : Id)
    (principal : String) :
    loadOwnedUnexpired cx' nowNs snap principal = loadOwnedUnexpired cx nowNs snap principal := by
  rw [loadOwnedUnexpired, loadOwnedUnexpired, h.snapshots]

theorem snapshotGetBlob_congr {cx cx' : RepoCx Id} (h : cx.Same cx') (ephemeral : List (SnapDir Id))
    (nowNs : ℕ) (principal : String) (snap oid : Id) :
    snapshotGetBlob cx' ephemeral nowNs principal snap oid =
      snapshotGetBlob cx ephemeral nowNs principal snap oid := by
  rw [snapshotGetBlob, snapshotGetBlob, h.db, h.name, loadOwnedUnexpired_congr h]

theorem getSnapshotTree_congr {cx cx' : RepoCx Id} (h : cx.Same cx') (nowNs : ℕ)
    (principal : String) (snap tree : Id) :
    getSnapshotTree cx' nowNs principal snap tree = getSnapshotTree cx nowNs principal snap tree := by
  rw [getSnapshotTree, getSnapshotTree, loadOwnedUnexpired_congr h, h.trees, listTree, listTree,
    h.trees, h.db]

end

/-! ### The gates -/

namespace Accounts

section

variable {Id : Type} {a b : Accounts}

/-- No grant names a repository of the registry. -/
def Ungranted (a : Accounts) : Prop := ∀ grant ∈ a.access, ∀ row ∈ a.repos, row.1 ≠ grant.repoId

/-- The same registry, and no grants. -/
structure Ungated (a b : Accounts) : Prop where
  byName : ∀ name, b.repoIdByName name = a.repoIdByName name
  list : ∀ afterId limit, b.reposList afterId limit = a.reposList afterId limit
  access : b.access = []

theorem Ungranted.not_private (h : a.Ungranted) {row : RepoId × String}
    (hrow : row ∈ a.repos) : a.accessIsPrivate row.1 = false := by
  rw [accessIsPrivate, List.any_eq_false]
  intro grant hgrant
  exact fun heq => h grant hgrant row hrow (of_decide_eq_true heq).symm

theorem Ungranted.not_private_of_name (h : a.Ungranted) {name : String} {r : RepoId}
    (hr : a.repoIdByName name = some r) : a.accessIsPrivate r = false := by
  obtain ⟨row, hrow, rfl⟩ := Option.map_eq_some_iff.mp hr
  exact h.not_private (List.mem_of_find?_eq_some hrow)

theorem Ungated.not_private (h : a.Ungated b) (r : RepoId) :
    b.accessIsPrivate r = false := by
  rw [accessIsPrivate, h.access]
  rfl

theorem repoIdOr404_congr (h : a.Ungated b) (repo : String) :
    (b.repoIdOr404 repo : Except (ApiError Id) RepoId) = a.repoIdOr404 repo := by
  rw [repoIdOr404, repoIdOr404, h.byName]

theorem repoReadGate_congr (h : a.Ungated b) (hfree : a.Ungranted) (auth : AuthedPrincipal)
    (repo : String) :
    (b.repoReadGate auth repo : Except (ApiError Id) Unit) = a.repoReadGate auth repo := by
  rw [repoReadGate, repoReadGate, repoIdOr404_congr h]
  cases hr : a.repoIdByName repo with
  | none => simp only [repoIdOr404, hr]; rfl
  | some r =>
      simp only [repoIdOr404, hr, bind, Except.bind, h.not_private, hfree.not_private_of_name hr,
        Bool.not_false, if_true]

theorem repoWriteGate_congr (h : a.Ungated b) (hfree : a.Ungranted) (auth : AuthedPrincipal)
    (repo : String) :
    (b.repoWriteGate auth repo : Except (ApiError Id) Unit) = a.repoWriteGate auth repo := by
  rw [repoWriteGate, repoWriteGate, repoIdOr404_congr h]
  cases hr : a.repoIdByName repo with
  | none => simp only [repoIdOr404, hr]; rfl
  | some r =>
      simp only [repoIdOr404, hr, repoWriteGateSync, bind, Except.bind, h.not_private,
        hfree.not_private_of_name hr, Bool.not_false, if_true]

theorem listRepos_congr (h : a.Ungated b) (hfree : a.Ungranted) (auth : AuthedPrincipal)
    (limit : Option ℤ) (after : ℕ) :
    (b.listRepos auth limit after : Except (ApiError Id) RepoListResponse) =
      a.listRepos auth limit after := by
  have hvisible : ∀ n, (a.reposList after n).filter (fun row =>
      decide (auth.role = .admin) || !(b.accessVisibility row.1 auth.principal).1 ||
        (b.accessVisibility row.1 auth.principal).2) =
      (a.reposList after n).filter fun row =>
        decide (auth.role = .admin) || !(a.accessVisibility row.1 auth.principal).1 ||
          (a.accessVisibility row.1 auth.principal).2 := by
    intro n
    refine List.filter_congr fun row hrow => ?_
    have hmem : row ∈ a.repos :=
      (List.mem_filter.mp ((List.mem_insertionSort _).mp (List.mem_of_mem_take hrow))).1
    simp only [accessVisibility, h.not_private, hfree.not_private hmem, Bool.not_false, Bool.or_true,
      Bool.true_or]
  simp only [listRepos, h.list]
  cases hlimit : (parseLimit limit : Except (ApiError Id) ℕ) with
  | error e => rfl
  | ok n =>
      have hrows := hvisible (n + 1)
      simp only [bind, Except.bind]
      rw [hrows]

theorem listAccess_congr (h : a.Ungated b) (hfree : a.Ungranted) (auth : AuthedPrincipal)
    (repo : String) :
    (b.listAccess auth repo : Except (ApiError Id) (List (String × Bool × Bool))) =
      a.listAccess auth repo := by
  rw [listAccess, listAccess, repoReadGate_congr h hfree, repoIdOr404_congr h]
  cases hr : a.repoIdByName repo with
  | none => simp only [repoIdOr404, hr]; rfl
  | some r =>
      have hlist : b.accessList r = a.accessList r := by
        have hnone : (a.access.filter fun row => decide (row.repoId = r)) = [] := by
          have hprivate := hfree.not_private_of_name hr
          rw [accessIsPrivate, List.any_eq_false] at hprivate
          exact List.filter_eq_nil_iff.mpr hprivate
        rw [accessList, accessList, hnone, h.access]
        rfl
      simp only [repoIdOr404, hr, bind, Except.bind, hlist]

end

end Accounts

/-! ### The reads -/

section

variable {Id : Type} [Platform Id]

/-- Two stores that answer alike. -/
structure Store.Same (a b : Store Id) : Prop where
  nowNs : b.server.nowNs = a.server.nowNs
  ephemeral : b.server.ephemeral = a.server.ephemeral
  byName : ∀ name, b.server.repoIdByName name = a.server.repoIdByName name
  accounts : a.accounts.Ungated b.accounts
  cx : ∀ name r, a.server.repoIdByName name = some r → (a.server.cx r).Same (b.server.cx r)
  index : ∀ name r, a.server.repoIdByName name = some r → b.index r = a.index r

namespace Store.Same

variable {a b : Store Id}

theorem repoIdOr404 (h : a.Same b) (repo : String) :
    b.server.repoIdOr404 repo = a.server.repoIdOr404 repo := by
  rw [Server.repoIdOr404, Server.repoIdOr404, h.byName]

theorem onRepo (h : a.Same b) (gate : Except (ApiError Id) Unit) (repo : String)
    {read read' : RepoId → RepoCx Id → Answer Id}
    (hread : ∀ r, a.server.repoIdByName repo = some r →
      read' r (b.server.cx r) = read r (a.server.cx r)) :
    b.onRepo gate repo read' = a.onRepo gate repo read := by
  unfold Store.onRepo
  rw [h.repoIdOr404]
  cases gate with
  | error e => rfl
  | ok u =>
      cases hr : a.server.repoIdByName repo with
      | none => simp only [Server.repoIdOr404, hr]
      | some r =>
          simp only [Server.repoIdOr404, hr]
          exact hread r hr

theorem gated (h : a.Same b) (hfree : a.accounts.Ungranted) (auth : AuthedPrincipal)
    (repo : String) {read read' : RepoId → RepoCx Id → Answer Id}
    (hread : ∀ r, a.server.repoIdByName repo = some r →
      read' r (b.server.cx r) = read r (a.server.cx r)) :
    b.gated auth repo read' = a.gated auth repo read := by
  rw [Store.gated, Store.gated, Accounts.repoReadGate_congr h.accounts hfree]
  exact h.onRepo _ repo hread

theorem dbs (h : a.Same b) {repo : String} {r : RepoId}
    (hr : a.server.repoIdByName repo = some r) : b.server.dbs r = a.server.dbs r := (h.cx repo r hr).db

theorem ticket (h : a.Same b) (t : Ticket Id) :
    b.server.authenticateTicket t = a.server.authenticateTicket t := by
  rw [Server.authenticateTicket, Server.authenticateTicket, h.nowNs]

/-- Every read answers the same where no grant names a repository. -/
theorem answer (h : a.Same b) (hfree : a.accounts.Ungranted) (auth : AuthedPrincipal)
    (q : Read Id) : b.answer auth q = a.answer auth q := by
  cases q with
  | repos limit after =>
      simp only [Store.answer]
      rw [Accounts.listRepos_congr h.accounts hfree]
  | access repo =>
      simp only [Store.answer]
      rw [Accounts.listAccess_congr h.accounts hfree]
  | writable repo =>
      simp only [Store.answer]
      rw [Accounts.repoWriteGate_congr h.accounts hfree]
  | ref repo name | changeset repo id | root repo id | tree repo id | object repo id
  | objects repo ids | redactions repo limit after =>
      refine h.gated hfree auth repo fun r hr => ?_
      rw [(h.cx repo r hr).eq]
      rfl
  | log repo fuel q =>
      refine h.gated hfree auth repo fun r hr => ?_
      rw [(h.cx repo r hr).eq, h.index repo r hr]
      rfl
  | snapshot repo snap =>
      refine h.gated hfree auth repo fun r hr => ?_
      rw [h.nowNs, loadOwnedUnexpired_congr (h.cx repo r hr)]
  | snapshotObject repo snap oid =>
      refine h.gated hfree auth repo fun r hr => ?_
      rw [h.nowNs, h.ephemeral, snapshotGetBlob_congr (h.cx repo r hr)]
  | snapshotTree repo snap tree =>
      refine h.gated hfree auth repo fun r hr => ?_
      rw [h.nowNs, getSnapshotTree_congr (h.cx repo r hr)]
  | landStatus repo key =>
      simp only [Store.answer]
      rw [Accounts.repoReadGate_congr h.accounts hfree, Accounts.repoWriteGate_congr h.accounts hfree]
      refine h.onRepo _ repo fun r hr => ?_
      rw [(h.cx repo r hr).eq]
      rfl
  | landReplay repo head key baseHint recordConflict =>
      simp only [Store.answer]
      rw [Accounts.repoWriteGate_congr h.accounts hfree]
      refine h.onRepo _ repo fun r hr => ?_
      rw [h.nowNs, landReplay_congr (h.cx repo r hr).db]
  | ticketObject ticket repo id =>
      simp only [Store.answer, Server.getRawTicket, h.ticket, h.repoIdOr404]
      cases hr : a.server.repoIdByName repo with
      | none => simp only [Server.repoIdOr404, hr]; rfl
      | some r =>
          have hraw : getRaw (b.server.cx r) id = getRaw (a.server.cx r) id := by
            rw [(h.cx repo r hr).eq]
            rfl
          simp only [Server.repoIdOr404, hr, bind, Except.bind, h.dbs hr, hraw]
  | ticketMembership ticket =>
      simp only [Store.answer, Server.membership, h.ticket, h.repoIdOr404]
      cases hr : a.server.repoIdByName ticket.repo with
      | none => simp only [Server.repoIdOr404, hr]; rfl
      | some r =>
          have hmembers : cacheMembership (b.server.cx r) ticket.rootTree =
              cacheMembership (a.server.cx r) ticket.rootTree := by
            rw [(h.cx _ r hr).eq]
            rfl
          simp only [Server.repoIdOr404, hr, bind, Except.bind, h.dbs hr, hmembers]
  | ticketEpoch ticket =>
      simp only [Store.answer, Server.epoch, h.ticket, h.repoIdOr404]
      cases hr : a.server.repoIdByName ticket.repo with
      | none => simp only [Server.repoIdOr404, hr]; rfl
      | some r => simp only [Server.repoIdOr404, hr, bind, Except.bind, h.dbs hr]

end Store.Same

/-! ### The rows before and after -/

omit [Platform Id] in
theorem rowsOf_filter {α : Type} (rows : List (InRepo α)) (id : RepoId) :
    Database.rowsOf (rows.filter fun row => decide (some row.repoId = some id)) id =
      Database.rowsOf rows id := by
  rw [Database.rowsOf, Database.rowsOf, List.filter_filter]
  refine congrArg _ (List.filter_congr fun row _ => ?_)
  rw [Bool.and_eq_left_iff_imp]
  exact fun h => decide_eq_true (congrArg some (of_decide_eq_true h))

namespace RepoCopied

variable {src db : Database Id} {id : RepoId}

theorem tables (h : RepoCopied src id db) : db.tables id = src.tables id := by
  have hchangesets : Database.rowsOf (db .changesets) id = Database.rowsOf (src .changesets) id :=
    (congrArg (Database.rowsOf · id) (h.own .changesets (by decide))).trans (rowsOf_filter _ id)
  have hparents : Database.rowsOf (db .changesetParents) id =
      Database.rowsOf (src .changesetParents) id :=
    (congrArg (Database.rowsOf · id) (h.own .changesetParents (by decide))).trans
      (rowsOf_filter _ id)
  have hchanges : Database.rowsOf (db .fileChanges) id = Database.rowsOf (src .fileChanges) id :=
    (congrArg (Database.rowsOf · id) (h.own .fileChanges (by decide))).trans (rowsOf_filter _ id)
  have hrefs : Database.rowsOf (db .refs) id = Database.rowsOf (src .refs) id :=
    (congrArg (Database.rowsOf · id) (h.own .refs (by decide))).trans (rowsOf_filter _ id)
  have hlands : Database.rowsOf (db .lands) id = Database.rowsOf (src .lands) id :=
    (congrArg (Database.rowsOf · id) (h.own .lands (by decide))).trans (rowsOf_filter _ id)
  have hredactions : Database.rowsOf (db .redactions) id = Database.rowsOf (src .redactions) id :=
    (congrArg (Database.rowsOf · id) (h.own .redactions (by decide))).trans (rowsOf_filter _ id)
  have hblobs : Database.rowsOf (db .repoBlobs) id = Database.rowsOf (src .repoBlobs) id :=
    (congrArg (Database.rowsOf · id) (h.own .repoBlobs (by decide))).trans (rowsOf_filter _ id)
  have hgit : Database.rowsOf (db .gitMap) id = Database.rowsOf (src .gitMap) id :=
    (congrArg (Database.rowsOf · id) (h.own .gitMap (by decide))).trans (rowsOf_filter _ id)
  have htrees : Database.rowsOf (db .repoTrees) id = Database.rowsOf (src .repoTrees) id :=
    congrArg (Database.rowsOf · id) (h.whole .repoTrees (by decide))
  have hrow : db.changesetRow id = src.changesetRow id := by
    funext cs
    rw [Database.changesetRow, Database.changesetRow, hparents, hchanges]
  rw [Database.tables, Database.tables, hchangesets, hrow, hrefs, hlands, hredactions, hblobs, hgit,
    htrees]

theorem treeRows (h : RepoCopied src id db) : db.treeRows = src.treeRows := by
  rw [Database.treeRows, Database.treeRows, h.whole .trees (by decide),
    h.whole .treeEntries (by decide)]

theorem snapshots (h : RepoCopied src id db) (snap : Id) :
    (db .snapshots : List (SnapshotRow Id)).find? (fun row =>
      decide (row.repoId = id) && decide (row.id = snap)) =
    (src .snapshots : List (SnapshotRow Id)).find? (fun row =>
      decide (row.repoId = id) && decide (row.id = snap)) := by
  have hrows : (db .snapshots : List (SnapshotRow Id)) =
      (src .snapshots : List (SnapshotRow Id)).filter fun row => decide (some row.repoId = some id) :=
    h.own .snapshots (by decide)
  rw [hrows, List.find?_filter]
  refine congrArg (List.find? · _) (funext fun row => ?_)
  by_cases hrepo : row.repoId = id <;> simp [hrepo]

theorem deriveRows (h : RepoCopied src id db) :
    (db .deriveState : List (DeriveRow Id)).filter (fun row => decide (row.key.repoId = id)) =
      (src .deriveState : List (DeriveRow Id)).filter fun row => decide (row.key.repoId = id) := by
  have hrows : (db .deriveState : List (DeriveRow Id)) =
      (src .deriveState : List (DeriveRow Id)).filter fun row =>
        decide (some row.key.repoId = some id) := h.own .deriveState (by decide)
  rw [hrows, List.filter_filter]
  refine List.filter_congr fun row _ => ?_
  rw [Bool.and_eq_left_iff_imp]
  exact fun h => decide_eq_true (congrArg some (of_decide_eq_true h))

theorem history (h : RepoCopied src id db) :
    Database.rowsOf (db .pathHistory) id = Database.rowsOf (src .pathHistory) id :=
  (congrArg (Database.rowsOf · id) (h.own .pathHistory (by decide))).trans (rowsOf_filter _ id)

end RepoCopied

/-- What the keys of the registry and of `meta` say of a single database. -/
structure Database.Single (src : Database Id) : Prop where
  ids : ((src .repos : List RegistryRow).map (·.id)).Nodup
  names : ((src .repos : List RegistryRow).map (·.name)).Nodup
  unmarked : src.adopted = false

omit [Platform Id] in
theorem lookup_filter_ne (rows : List (String × String)) {key version : String}
    (h : key ≠ version) :
    (rows.filter fun row => decide (row.1 ≠ version)).lookup key = rows.lookup key := by
  rw [Lib.lookup_eq_find, Lib.lookup_eq_find, List.find?_filter]
  refine congrArg (Option.map Prod.snd) (congrArg (List.find? · rows) (funext fun row => ?_))
  by_cases hkey : row.1 = key
  · simp [hkey, h]
  · simp [hkey]

namespace Adopted

variable {src catalog : Database Id} {files : RepoId → Option (Database Id)}

/-- A marker of the source is one of the catalog. -/
theorem metaGet (h : Adopted src catalog files) {key : String}
    (hversion : key ≠ Database.schemaVersion) (hmarker : key ≠ Database.adoptedMarker) :
    catalog.metaGet key = src.metaGet key := by
  obtain ⟨value, hmarkers⟩ := h.markers
  rw [hmarkers, List.cons_append, List.lookup_cons, beq_false_of_ne hversion]
  dsimp only
  rw [List.lookup_append, List.lookup_cons, beq_false_of_ne hmarker]
  show (List.lookup key (metaMarkers src)).or none = _
  rw [Option.or_none]
  exact lookup_filter_ne (src .metaRows) hversion

theorem marked (h : Adopted src catalog files) : catalog.adopted = true := by
  obtain ⟨value, hmarkers⟩ := h.markers
  rw [Database.adopted, hmarkers, Option.isSome_iff_ne_none, ne_eq, List.lookup_eq_none_iff]
  intro hnone
  have hlast := hnone (Database.adoptedMarker, value)
    (List.mem_append_right _ List.mem_cons_self)
  simp at hlast

theorem registry_perm (h : Adopted src catalog files) :
    catalog.accounts.repos.Perm src.accounts.repos := by
  have hrows : catalog.accounts.repos =
      (registry src).map fun row : RegistryRow => (row.id, row.name) :=
    congrArg (List.map fun row : RegistryRow => (row.id, row.name)) h.repos
  rw [hrows]
  exact (List.perm_insertionSort _ _).map _

theorem ungated (h : Adopted src catalog files) (hsrc : src.Single) :
    src.accounts.Ungated catalog.accounts where
  byName := by
    intro name
    have hnames : (catalog.accounts.repos.map Prod.snd).Nodup := by
      refine (h.registry_perm.map _).nodup_iff.mpr ?_
      rw [Database.accounts, List.map_map]
      exact hsrc.names
    rw [Accounts.repoIdByName, Accounts.repoIdByName, Lib.find_perm h.registry_perm hnames]
  list := by
    intro afterId limit
    have hids : (src.accounts.repos.map Prod.fst).Nodup := by
      rw [Database.accounts, List.map_map]
      exact hsrc.ids
    refine congrArg (List.take limit) ?_
    refine List.Perm.eq_of_pairwise (fun x y hx hy hxy hyx => ?_)
      (List.pairwise_insertionSort _ _) (List.pairwise_insertionSort _ _) ?_
    · have hx := (List.mem_filter.mp ((List.mem_insertionSort _).mp hx)).1
      have hy := (List.mem_filter.mp ((List.mem_insertionSort _).mp hy)).1
      exact List.inj_on_of_nodup_map hids (h.registry_perm.mem_iff.mp hx) hy (le_antisymm hxy hyx)
    · refine (List.perm_insertionSort _ _).trans ((h.registry_perm.filter _).trans ?_)
      exact (List.perm_insertionSort _ _).symm
  access := h.access

/-- A token resolves as before. -/
theorem authenticate (h : Adopted src catalog files) (nowNs : ℕ) (blake3 : Bytes) :
    (catalog.accounts.authenticate nowNs blake3 : Except (ApiError Id) AuthedPrincipal) =
      src.accounts.authenticate nowNs blake3 := by
  have htokens : catalog.accounts.tokens = src.accounts.tokens := h.tables .tokens (by decide)
  have hprincipals : catalog.accounts.principals = src.accounts.principals :=
    h.tables .principals (by decide)
  rw [Accounts.authenticate, Accounts.authenticate, Accounts.authLookup, Accounts.authLookup,
    htokens, hprincipals]

theorem ids (h : Adopted src catalog files) (hsrc : src.Single) :
    (catalog.accounts.repos.map Prod.fst).Nodup := by
  refine (h.registry_perm.map _).nodup_iff.mpr ?_
  rw [Database.accounts, List.map_map]
  exact hsrc.ids

/-- The file of a registered repository. -/
theorem file_of_name (h : Adopted src catalog files) {name : String} {r : RepoId}
    (hr : src.accounts.repoIdByName name = some r) :
    ∃ db, files r = some db ∧ RepoCopied src r db := by
  obtain ⟨row, hrow, rfl⟩ := Option.map_eq_some_iff.mp hr
  obtain ⟨entry, hentry, rfl⟩ := List.mem_map.mp (List.mem_of_find?_eq_some hrow)
  exact h.files entry ((List.mem_insertionSort _).mpr hentry)

/-- The two stores of an adoption. -/
theorem same (h : Adopted src catalog files) (hsrc : src.Single) (dir : DataDir Id)
    (nowNs graceNs : ℕ) :
    (dir.store .singleDb nowNs graceNs src fun _ => src).Same
      (dir.store .dbPerRepo nowNs graceNs catalog fun r => (files r).getD (.migrated "13")) where
  nowNs := rfl
  ephemeral := rfl
  byName := (h.ungated hsrc).byName
  accounts := h.ungated hsrc
  cx := by
    intro name r hr
    obtain ⟨db, hdb, hcopied⟩ := h.file_of_name hr
    have hfile : (files r).getD (.migrated "13") = db := by
      rw [hdb]
      rfl
    refine ⟨rfl, ?_, rfl, ?_, ?_, ?_⟩
    · exact congrArg (Option.getD · "") (Lib.lookup_perm h.registry_perm (h.ids hsrc) r)
    · show ((files r).getD (.migrated "13")).treeRows = src.treeRows
      rw [hfile, hcopied.treeRows]
    · show ((files r).getD (.migrated "13")).tables r = src.tables r
      rw [hfile, hcopied.tables]
    · intro snap
      show ((files r).getD (.migrated "13") .snapshots : List (SnapshotRow Id)).find? _ =
        (src .snapshots : List (SnapshotRow Id)).find? _
      rw [hfile]
      exact hcopied.snapshots snap
  index := by
    intro name r hr
    obtain ⟨db, hdb, hcopied⟩ := h.file_of_name hr
    have hfile : (files r).getD (.migrated "13") = db := by
      rw [hdb]
      rfl
    have hkinds : catalog.deriveKindId Database.kindPathHistory =
        src.deriveKindId Database.kindPathHistory := by
      rw [Database.deriveKindId, Database.deriveKindId, h.tables .deriveKinds (by decide)]
    have hbackfill : catalog.metaGet
        (Database.deriveBackfillMarkerKey Database.kindPathHistory) =
        src.metaGet (Database.deriveBackfillMarkerKey Database.kindPathHistory) :=
      h.metaGet (by decide) (by decide)
    show catalog.pathIndex ((files r).getD (.migrated "13")) r = src.pathIndex src r
    rw [hfile, Database.pathIndex, Database.pathIndex, PathIndex.mk.injEq]
    exact ⟨hkinds, congrArg Option.isSome hbackfill, hcopied.deriveRows, hcopied.history⟩

end Adopted

/-! ### The adoption -/

/-- Every token and every read of every principal, after the adoption as before
it. -/
def ReadsKept (dir dir' : DataDir Id) : Prop :=
  ∀ nowNs graceNs a, dir.openSingle nowNs graceNs = some a →
    ∃ b, dir'.openSplit nowNs graceNs = some b ∧
      (∀ blake3, (b.accounts.authenticate nowNs blake3 : Except (ApiError Id) AuthedPrincipal) =
        a.accounts.authenticate nowNs blake3) ∧
      ∀ auth q, b.answer auth q = a.answer auth q

/-- A grant is listed for an admin. -/
theorem ungranted_of_answers {a b : Store Id}
    (hnames : (a.accounts.repos.map Prod.snd).Nodup)
    (h : ∀ auth q, b.answer auth q = a.answer auth q)
    (hsame : a.accounts.Ungated b.accounts) : a.accounts.Ungranted := by
  intro grant hgrant row hrow heq
  have hname : a.accounts.repoIdByName row.2 = some row.1 := by
    rw [Accounts.repoIdByName, Lib.find_of_nodup hnames hrow]
    rfl
  have hlist : ∀ c : Accounts, c.repoIdByName row.2 = some row.1 →
      (c.listAccess ⟨"", .admin, none⟩ row.2 : Except (ApiError Id) _) =
        .ok (c.accessList row.1) := by
    intro c hc
    simp only [Accounts.listAccess, Accounts.repoReadGate, Accounts.repoIdOr404, hc,
      Accounts.requireRole, bind, Except.bind, if_true]
    rfl
  -- an admin's listing of the grants
  have hadmin := h ⟨"", .admin, none⟩ (.access row.2)
  simp only [Store.answer, hlist a.accounts hname,
    hlist b.accounts ((hsame.byName row.2).trans hname), Except.map, Option.some.injEq,
    Except.ok.injEq, Payload.access.injEq] at hadmin
  have hmem : (grant.principal, grant.read, grant.write) ∈ a.accounts.accessList row.1 :=
    List.mem_map.mpr ⟨grant, (List.mem_insertionSort _).mpr
      (List.mem_filter.mpr ⟨hgrant, decide_eq_true heq.symm⟩), rfl⟩
  rw [← hadmin, Accounts.accessList, hsame.access] at hmem
  cases hmem

/-- How an adoption of a single database ends. -/
theorem adoptDbPerRepo_ends {dir : DataDir Id} {src : Database Id} (hsrc : dir.naatreDb = some src)
    (cfg : AdoptConfig) (clock : AdoptClock) (faults : AdoptFaults) :
    (∃ t, takeSteps clock src faults.steps 0 ⟨dir, [], ⟨[], [], false⟩⟩ (adoptSteps src) =
        (t, none) ∧ adoptDbPerRepo cfg clock faults dir = (.adopted t.report, t.dir)) ∨
      ∃ e dir', adoptDbPerRepo cfg clock faults dir = (e, dir') ∧ (∀ report, e ≠ .adopted report) ∧
        (dir' = dir ∨ ∃ t stop,
          takeSteps clock src faults.steps 0 ⟨dir, [], ⟨[], [], false⟩⟩ (adoptSteps src) =
            (t, some stop) ∧ (dir' = t.dir ∨ dir' = cleanup faults t.dir)) := by
  rw [adoptDbPerRepo, hsrc]
  by_cases hpostgres : cfg.postgres = true
  · rw [if_pos hpostgres]
    exact .inr ⟨_, _, rfl, fun _ => by simp, .inl rfl⟩
  rw [if_neg hpostgres]
  dsimp only
  cases dir.catalogDb with
  | some catalog => exact .inr ⟨_, _, rfl, fun _ => by simp, .inl rfl⟩
  | none =>
      dsimp only
      split_ifs
      · exact .inr ⟨_, _, rfl, fun _ => by simp, .inl rfl⟩
      · exact .inr ⟨_, _, rfl, fun _ => by simp, .inl rfl⟩
      · exact .inr ⟨_, _, rfl, fun _ => by simp, .inl rfl⟩
      · split
        next t hrun => exact .inl ⟨t, hrun, rfl⟩
        next t step hrun =>
          exact .inr ⟨_, _, rfl, fun _ => by simp, .inr ⟨t, _, hrun, .inl rfl⟩⟩
        next t step hrun =>
          exact .inr ⟨_, _, rfl, fun _ => by simp, .inr ⟨t, _, hrun, .inr rfl⟩⟩

/-- The marker is written last, and by its own step alone. -/
theorem adoptSteps_markless {src : Database Id}
    (hkeys : ∀ row ∈ metaMarkers src, row.1 ≠ Database.adoptedMarker) :
    ∃ steps, adoptSteps src = steps ++ [.adoptedMarker] ∧ ∀ step ∈ steps, step.Markless := by
  have hlast : ([.openSplit, .fsck, .adoptedMarker] : List AdoptStep) =
      [.openSplit, .fsck] ++ [.adoptedMarker] := rfl
  rw [adoptSteps, hlast, ← List.append_assoc]
  refine ⟨_, rfl, fun step hstep => ?_⟩
  simp only [List.mem_append, List.mem_cons, List.mem_map, List.not_mem_nil, or_false] at hstep
  rcases hstep with ((((((rfl | rfl | rfl | rfl | rfl) | hrepo) | ⟨table, htable, rfl⟩) | rfl) |
    ⟨row, hrow, rfl⟩) | ⟨table, -, rfl⟩) | rfl | rfl
  case inl.inl.inl.inl.inl.inr =>
    obtain ⟨row, -, hrow⟩ := List.mem_flatMap.mp hrepo
    exact adoptRepo_markless row step hrow
  case inl.inl.inl.inl.inr =>
    have hne : table ≠ .metaRows := by
      rintro rfl
      revert htable
      decide
    exact hne
  case inl.inl.inr => exact hkeys row hrow
  all_goals trivial

/-- The steps before the marker's keep a catalog unmarked. -/
theorem stopped_unmarked {dir : DataDir Id} {src : Database Id} {clock : AdoptClock}
    {faults : ℕ → Option Lib.Fault} {t : AdoptState Id} {stop : AdoptStep × Lib.Fault}
    (hsingle : src.Single) (hcatalog : (dir.catalogDb.any fun catalog => catalog.adopted) = false)
    (h : takeSteps clock src faults 0 ⟨dir, [], ⟨[], [], false⟩⟩ (adoptSteps src) =
      (t, some stop)) : Unmarked dir t := by
  have hkeys : ∀ row ∈ metaMarkers src, row.1 ≠ Database.adoptedMarker := by
    intro row hrow heq
    have hnone : List.lookup Database.adoptedMarker (src .metaRows : List (String × String)) = none :=
      Option.isNone_iff_eq_none.mp (by
        rw [← Option.not_isSome, Bool.not_eq_true']
        exact hsingle.unmarked)
    have hne := List.lookup_eq_none_iff.mp hnone row (List.mem_filter.mp hrow).1
    simp [heq] at hne
  obtain ⟨steps, hsteps, hmarkless⟩ := adoptSteps_markless hkeys
  rw [hsteps] at h
  exact takeSteps_unmarked hmarkless h ⟨rfl, hcatalog⟩

/-- What an adoption leaves: a stopped one the source and no marked catalog, and
one that ends well a store that answers as before exactly where no grant names a
repository. -/
theorem adopt_reads_iff {dir : DataDir Id} {src : Database Id} (hsrc : dir.naatreDb = some src)
    (hsingle : src.Single) (hcatalog : (dir.catalogDb.any fun catalog => catalog.adopted) = false)
    (cfg : AdoptConfig) (clock : AdoptClock) (faults : AdoptFaults) :
    match adoptDbPerRepo cfg clock faults dir with
    | (.adopted _, dir') =>
        dir'.naatreDb = dir.naatreDb ∧ (ReadsKept dir dir' ↔ src.accounts.Ungranted)
    | (_, dir') =>
        dir'.naatreDb = dir.naatreDb ∧ (dir'.catalogDb.any fun catalog => catalog.adopted) = false := by
  rcases adoptDbPerRepo_ends hsrc cfg clock faults with
    ⟨t, hrun, hend⟩ | ⟨e, dir', hend, hne, hdir⟩
  · rw [hend]
    obtain ⟨catalog, files, hholds, hadopted⟩ :=
      adopted_of_taken rfl hsingle.ids (taken_of_takeSteps hrun)
    have hdir : t.dir = { dir with catalogDb := some catalog, repos := some files } := hholds
    have hsame := fun nowNs graceNs => hadopted.same hsingle dir nowNs graceNs
    have hsplit : ∀ nowNs graceNs, t.dir.openSplit nowNs graceNs = some (dir.store .dbPerRepo nowNs
        graceNs catalog fun r => (files r).getD (.migrated "13")) := by
      intro nowNs graceNs
      rw [hdir, DataDir.openSplit, Option.any_some, hadopted.marked]
      rfl
    refine ⟨by rw [hdir], fun hreads => ?_, fun hfree nowNs graceNs a ha => ?_⟩
    · have hopen : dir.openSingle 0 0 = some (dir.store .singleDb 0 0 src fun _ => src) := by
        rw [DataDir.openSingle, hsrc]
        rfl
      obtain ⟨b, hb, -, hanswers⟩ := hreads 0 0 _ hopen
      cases (hsplit 0 0).symm.trans hb
      refine ungranted_of_answers ?_ hanswers (hsame 0 0).accounts
      show (src.accounts.repos.map Prod.snd).Nodup
      rw [Database.accounts, List.map_map]
      exact hsingle.names
    · rw [DataDir.openSingle, hsrc] at ha
      cases ha
      exact ⟨_, hsplit nowNs graceNs, hadopted.authenticate nowNs,
        (hsame nowNs graceNs).answer hfree⟩
  · rw [hend]
    have hkept : dir'.naatreDb = dir.naatreDb ∧
        (dir'.catalogDb.any fun catalog => catalog.adopted) = false := by
      rcases hdir with rfl | ⟨t, stop, hrun, hdir⟩
      · exact ⟨rfl, hcatalog⟩
      · have ht := stopped_unmarked hsingle hcatalog hrun
        rcases hdir with rfl | rfl
        · exact ht
        · refine ⟨ht.1, ?_⟩
          rw [cleanup]
          dsimp only
          split_ifs
          · exact ht.2
          · rfl
    cases e with
    | adopted report => exact absurd rfl (hne report)
    | failed e => exact hkept
    | crashed => exact hkept

end

/-! ### A private repository -/

namespace PrivateRepo

/-- A repository that only `bob` was granted, and a token of `eve`. -/
def single : Database PlainId
  | .repos => [(⟨1, "secret", 5⟩ : RegistryRow)]
  | .principals => [(⟨"bob", .reader, 6⟩ : PrincipalRow), (⟨"eve", .reader, 7⟩ : PrincipalRow)]
  | .tokens => [(⟨1, "eve", [1], none, none, false⟩ : TokenRow)]
  | .repoAccess => [(⟨1, "bob", true, false⟩ : AccessRow)]
  | .metaRows => [(Database.schemaVersion, "13")]
  | _ => []

def dir : DataDir PlainId := ⟨false, false, [], [], some single, none, none⟩

/-- The same store without the grant. -/
def openSingle : Database PlainId
  | .repoAccess => []
  | table => single table

def openDir : DataDir PlainId := ⟨false, false, [], [], some openSingle, none, none⟩

def cfg : AdoptConfig := ⟨false, "data"⟩

def clock : AdoptClock := ⟨10, 0, 8⟩

def noFaults : AdoptFaults := ⟨fun _ => none, false, none, [], none⟩

/-- The repositories the token's principal is shown. -/
def shown (store : Store PlainId) : Option (List (RepoId × String)) :=
  match (store.accounts.authenticate 10 [1] : Except (ApiError PlainId) AuthedPrincipal) with
  | .error _ => none
  | .ok auth =>
      match store.answer auth (.repos none 0) with
      | some (.ok (.repos page)) => some page.repos
      | _ => none

theorem open_keys : openSingle.Single := ⟨by decide, by decide, by decide⟩

/-- `eve` is shown no repository before the adoption, and the private one after. -/
def opensPrivate : Bool :=
  match adoptDbPerRepo cfg clock noFaults dir with
  | (.adopted _, dir') =>
      match dir.openSingle 10 0, dir'.openSplit 10 0 with
      | some a, some b => decide (shown a = some []) && decide (shown b = some [(1, "secret")])
      | _, _ => false
  | _ => false

end PrivateRepo

open PrivateRepo in
/-- The adoption of the store without a grant ends well, and every read answers
as before. -/
theorem adopt_reads_iff_private : ∃ report dir', adoptDbPerRepo cfg clock noFaults openDir =
    (.adopted report, dir') ∧ ReadsKept openDir dir' := by
  have hok : (match (adoptDbPerRepo cfg clock noFaults openDir).1 with
      | .adopted _ => true
      | _ => false) = true := by
    decide +kernel
  have hends := @adopt_reads_iff _ _ openDir _ rfl open_keys rfl cfg clock noFaults
  have hfree : openSingle.accounts.Ungranted := fun _ hgrant => absurd hgrant List.not_mem_nil
  cases hrun : adoptDbPerRepo cfg clock noFaults openDir with
  | mk e dir' =>
      rw [hrun] at hok hends
      cases e with
      | adopted report => exact ⟨report, dir', rfl, hends.2.mpr hfree⟩
      | failed e => cases hok
      | crashed => cases hok

open PrivateRepo in
/-- Before the adoption `eve` is shown no repository, after it the private one. -/
theorem adopt_opens_private_repo : ∃ report dir', adoptDbPerRepo cfg clock noFaults dir =
    (.adopted report, dir') ∧ ¬ReadsKept dir dir' := by
  have hok : opensPrivate = true := by decide +kernel
  unfold opensPrivate at hok
  cases hrun : adoptDbPerRepo cfg clock noFaults dir with
  | mk e dir' =>
      rw [hrun] at hok
      cases e with
      | failed e => cases hok
      | crashed => cases hok
      | adopted report =>
          refine ⟨report, dir', rfl, fun hreads => ?_⟩
          dsimp only at hok
          split at hok
          next a b ha hb =>
            obtain ⟨b', hb', hauth, hanswers⟩ := hreads 10 0 a ha
            cases hb.symm.trans hb'
            obtain ⟨hnone, hsecret⟩ := Bool.and_eq_true_iff.mp hok
            have hsame : shown b = shown a := by
              rw [shown, shown, hauth]
              simp only [hanswers]
            rw [hsame, of_decide_eq_true hnone] at hsecret
            cases of_decide_eq_true hsecret
          next => cases hok

end Naatre
