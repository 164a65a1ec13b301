import Naatre.Core.Plain
import Naatre.Server.AuditTrail
import Naatre.Server.HostVerbs
import Naatre.Server.RefValidity

/-!
A server started on a data directory serves what the verbs on it reported
exactly when each of them wrote into a file the server reads.
-/

namespace Naatre

/-! ### Accounts -/

namespace Accounts

variable {s s' : Accounts}

theorem principalUpsert_find (s : Accounts) (name : String) (role : Role) (createdNs : ℕ) :
    ∃ row, (s.principalUpsert name role createdNs).principals.find?
      (fun row => decide (row.name = name)) = some row ∧ row.role = role := by
  rw [principalUpsert]
  cases hexists : s.principalExists name with
  | true =>
      rw [principalExists] at hexists
      obtain ⟨row, hrow⟩ := Option.isSome_iff_exists.mp
        ((List.find?_isSome (p := fun row : PrincipalRow => decide (row.name = name))).mpr
          (by simpa using hexists))
      have hsame : (fun row : PrincipalRow => decide (row.name = name)) ∘
          (fun row => if row.name = name then { row with role := role } else row) =
            fun row => decide (row.name = name) := by
        funext row
        simp only [Function.comp_apply]
        split_ifs <;> rfl
      have hname : row.name = name := by simpa using List.find?_some hrow
      refine ⟨{ row with role := role }, ?_, rfl⟩
      rw [if_pos rfl, List.find?_map, hsame, hrow, Option.map_some, if_pos hname]
  | false =>
      have habsent : s.principals.find? (fun row => decide (row.name = name)) = none := by
        rw [List.find?_eq_none]
        rw [principalExists, List.any_eq_false] at hexists
        exact hexists
      refine ⟨⟨name, role, createdNs⟩, ?_, rfl⟩
      simp [habsent, List.find?_append]

/-- An unrevoked token of an admin, without an end or a scope. -/
def Minted (s : Accounts) (blake3 : Bytes) : Prop :=
  ∃ id, s.authLookup blake3 = some (⟨id, "admin", blake3, none, none, false⟩, .admin)

theorem Minted.authenticates {blake3 : Bytes} (h : s.Minted blake3) (nowNs : ℕ) {Id : Type} :
    s.authenticate nowNs blake3 = (.ok ⟨"admin", .admin, none⟩ : Except (ApiError Id) _) := by
  obtain ⟨id, hlookup⟩ := h
  rw [authenticate, hlookup]
  rfl

/-- A mint of an admin token keeps the ones before. -/
theorem tokenCreate_minted {blake3 : Bytes} {nowNs : ℕ}
    (h : s.tokenCreate "admin" .admin blake3 none none nowNs = some s') {b : Bytes}
    (hb : s.Minted b ∨ b = blake3) : s'.Minted b := by
  obtain ⟨row, hrow, hrole⟩ := principalUpsert_find s "admin" .admin nowNs
  have htokens := tokenCreate_tokens h
  rw [tokenCreate, tokenInsert] at h
  split_ifs at h with hstands
  rw [Option.some.injEq] at h
  have hprincipals : s'.principals = (s.principalUpsert "admin" .admin nowNs).principals := by
    rw [← h]
  have hadmin : ∀ token : TokenRow, token.principal = "admin" →
      s'.tokens.find? (fun row => decide (row.blake3 = b)) = some token →
      s'.authLookup b = some (token, .admin) := by
    intro token hprincipal hfind
    rw [authLookup, hfind, Option.bind_some, hprincipal, hprincipals, hrow, Option.map_some, hrole]
  rcases hb with ⟨id, hlookup⟩ | rfl
  · rw [authLookup, Option.bind_eq_some_iff] at hlookup
    obtain ⟨token, hfind, hmap⟩ := hlookup
    rw [Option.map_eq_some_iff] at hmap
    obtain ⟨principal, -, heq⟩ := hmap
    have htoken : token = ⟨id, "admin", b, none, none, false⟩ := congrArg Prod.fst heq
    refine ⟨id, htoken ▸ hadmin token (by rw [htoken]) ?_⟩
    rw [htokens, List.find?_append, hfind, Option.some_or]
  · refine ⟨s.nextTokenId, hadmin ⟨s.nextTokenId, "admin", b, none, none, false⟩ rfl ?_⟩
    have hfresh : s.tokens.find? (fun row => decide (row.blake3 = b)) = none := by
      rw [List.find?_eq_none]
      intro token htoken hhash
      exact hstands (List.any_eq_true.mpr ⟨token, htoken, hhash⟩)
    rw [htokens, List.find?_append, hfresh, Option.none_or]
    simp

end Accounts

section

variable {Id : Type} [Platform Id]

/-! ### Imports -/

/-- An import appends the rows of its commits, none of them tombstoned. -/
theorem Imported.appended {nowNs : ℕ} {cx cx' : RepoCx Id} {ps : List (PreparedCommit Id)}
    (h : Imported nowNs cx ps cx') :
    ∃ rows, cx'.db.changesets = cx.db.changesets ++ rows ∧ rows.length = ps.length ∧
      ∀ row ∈ rows, redactionActive cx.db row.id = false := by
  induction h with
  | nil => exact ⟨[], (List.append_nil _).symm, rfl, fun row hrow => absurd hrow List.not_mem_nil⟩
  | cons hcommit _ ih =>
      obtain ⟨c⟩ := hcommit
      obtain ⟨rows, hrows, hlength, hfree⟩ := ih
      obtain ⟨cas, cat, hstored⟩ := c.puts.frame
      obtain ⟨-, hmid⟩ := changesetInsertRows_some c.insert_ok
      have hfirst := congrArg (fun cx => cx.db.changesets) hmid
      simp only [hstored] at hfirst
      refine ⟨_ :: rows, by rw [hrows, hfirst, List.append_assoc, List.singleton_append],
        congrArg (· + 1) hlength, fun row hrow => ?_⟩
      rcases List.mem_cons.mp hrow with rfl | hrow
      · exact c.cs_free
      · rw [← hfree row hrow, redactionActive_of_eq c.tables.2.2.1]

/-- The graft left `main` where it was, or at a target. -/
theorem graftMain_main {db db' : RepoTables Id} {mainRow : Option (RefRow Id)}
    {mainOid : Option GitOid} {importable : List (PreparedCommit Id)} {head : GitOid}
    {main : MainOutcome} (h : graftMain db mainRow mainOid importable head = .ok (main, db')) :
    (¬(main = .set ∨ main = .fastForwarded) ∧ db' = db) ∨
      ((main = .set ∨ main = .fastForwarded) ∧
        ∃ row target, refGet db' "main" = some row ∧ row.target = some target) := by
  rcases graftMain_reports h with ⟨hmain, rfl⟩ | ⟨rfl, habsent, p, -, rfl⟩ |
    ⟨rfl, p, -, current, oldOid, previousTip, hcurrent, -, -, -, rfl⟩
  · refine .inl ⟨?_, rfl⟩
    rcases hmain with rfl | rfl <;> decide
  · refine .inr ⟨.inl rfl, ⟨"main", some p.csId, 1, importPrincipal⟩, p.csId, ?_, rfl⟩
    rw [refGet] at habsent ⊢
    simp [List.find?_append, habsent]
  · refine .inr ⟨.inr rfl, { current with
      target := some p.csId
      version := current.version + 1
      lastPrincipal := importPrincipal }, p.csId, ?_, rfl⟩
    rw [refGet_map rfl (fun row => by split_ifs <;> rfl), hcurrent, Option.map_some,
      if_pos (refGet_some hcurrent).2]

/-- A run that reports `ok`: its rows are appended, none of them tombstoned, and
only `main` moves among the refs. -/
structure ImportedOk (cx cx' : RepoCx Id) (report : ImportReport) (new : List (PreparedCommit Id)) :
    Prop where
  appended : ∃ rows, cx'.db.changesets = cx.db.changesets ++ rows ∧ rows.length = new.length ∧
    ∀ row ∈ rows, redactionActive cx.db row.id = false
  redactions : cx'.db.redactions = cx.db.redactions
  main : (¬(report.main = .set ∨ report.main = .fastForwarded) ∧ cx'.db.refs = cx.db.refs) ∨
    ((report.main = .set ∨ report.main = .fastForwarded) ∧
      ∃ row target, refGet cx'.db "main" = some row ∧ row.target = some target)

/-- The commits an import finds to write: those its scan of the batch keeps. -/
def newCommits (cx : RepoCx Id) (git : GitRepo) (opts : ImportOptions) (head : GitOid) :
    List (PreparedCommit Id) :=
  match collectAncestors git (fun oid => (cx.db.gitMap.lookup oid).isSome) head with
  | none => []
  | some batch =>
      match batch.foldlM (scanCommit git opts cx.id cx.db) .start with
      | .error _ => []
      | .ok scan => scan.importable

theorem runBackend_importedOk {nowNs : ℕ} {cx cx' : RepoCx Id} {git : GitRepo}
    {opts : ImportOptions} {head : GitOid} {stop : ℕ} {report : ImportReport}
    (h : runBackend nowNs cx git opts head stop = (.ok report, cx'))
    (hran : report.aborted = false) :
    ImportedOk cx cx' report (newCommits cx git opts head) := by
  have hnone : ∀ {new : List (PreparedCommit Id)} {main : MainOutcome} {n : ℕ}
      {skipped : List (GitOid × String)} {cascaded : List GitOid}, new = [] → main = .unchanged →
      ImportedOk cx cx ⟨n, skipped, cascaded, main, false⟩ new := by
    rintro new main n skipped cascaded rfl rfl
    exact ⟨⟨[], (List.append_nil _).symm, rfl, fun row hrow => absurd hrow List.not_mem_nil⟩, rfl,
      .inl ⟨by simp, rfl⟩⟩
  unfold runBackend at h
  rw [newCommits]
  split at h
  · cases h
  · next hbatch =>
    rw [hbatch]
    cases h
    exact hnone rfl rfl
  next batch hne hbatch =>
  rw [hbatch]
  simp only at h
  split at h
  · cases h
  · cases h; cases hran
  split at h
  · cases h
  next scan hscan =>
  simp only [hscan]
  by_cases hoffending : scan.offending ≠ [] ∧ ¬opts.skipUnsupported
  · rw [if_pos hoffending] at h
    cases h
    cases hran
  rw [if_neg hoffending] at h
  cases himport : importCommits nowNs cx (scan.importable.take stop) with
  | error e =>
      rw [himport] at h
      cases h
  | ok last =>
      have himported := importCommits_cases.1 _ himport
      rw [himport] at h
      simp only at h
      split_ifs at h with hstop hempty
      · cases h
      · rw [hempty, List.take_nil] at himported
        cases himported
        cases h
        exact hnone hempty rfl
      split at h
      · cases h
      next main db hgraft =>
      cases h
      rw [List.take_of_length_le (Nat.le_of_not_lt hstop)] at himported
      obtain ⟨refs, rfl⟩ := (graftMain_cases hgraft).refs_only
      obtain ⟨hrefs, -, hredactions, -⟩ := himported.tables
      refine ⟨himported.appended, hredactions, ?_⟩
      rcases graftMain_main hgraft with ⟨hkept, hsame⟩ | hmoved
      · exact .inl ⟨hkept, (congrArg (·.refs) hsame).trans hrefs⟩
      · exact .inr hmoved

/-! ### What the operator was told stands -/

/-- What a verb that printed `p` did to the tables of the repositories. -/
structure Reports (s s' : Server Id) (p : Printed Id) : Prop where
  repos : s.repoIds ⊆ s'.repoIds
  active : ∀ r id, redactionActive (s'.dbs r) id ↔
    redactionActive (s.dbs r) id ∨ ∃ kind, p = .redacted r kind id
  kept : ∀ r ∈ s.repoIds, ∀ id, (changesetGet (s.dbs r) id).isSome →
    (changesetGet (s'.dbs r) id).isSome ∨ ∃ rows, p = .collected rows ∧ (r, id) ∈ rows
  mains : ∀ r, refGet (s'.dbs r) "main" = refGet (s.dbs r) "main" ∨
    ∃ ids target, p = .imported r ids (some target)
  imported : ∀ r ids tip, p = .imported r ids tip → r ∈ s'.repoIds ∧
    (∀ id ∈ ids, (changesetGet (s'.dbs r) id).isSome ∧ redactionActive (s.dbs r) id = false) ∧
    ∀ target, tip = some target →
      ∃ row, refGet (s'.dbs r) "main" = some row ∧ row.target = some target

/-- The tables of a verb that touched none. -/
theorem Reports.of_eq (s : Server Id) {p : Printed Id}
    (hp : (∃ b, p = .adminToken b) ∨ ∃ keyId, p = .cacheKey keyId) : Reports s s p where
  repos := List.Subset.refl _
  active r id := by
    refine ⟨.inl, fun h => h.elim (fun hold => hold) ?_⟩
    rintro ⟨kind, rfl⟩
    simp at hp
  kept r _ id h := .inl h
  mains r := .inl rfl
  imported r ids tip h := by
    subst h
    simp at hp

/-- Everything expected is there, and masked where a later verb redacted it. -/
structure Stands (x : Expected Id) (s : Server Id) : Prop where
  changesets : ∀ row ∈ x.changesets, row.1 ∈ s.repoIds ∧
    (changesetGet (s.dbs row.1) row.2).isSome ∧
    (redactionActive (s.dbs row.1) row.2 → ∃ kind, (row.1, kind, row.2) ∈ x.redacted)
  mains : ∀ main ∈ x.mains, ∃ row,
    refGet (s.dbs main.1) "main" = some row ∧ row.target = some main.2
  redacted : ∀ row ∈ x.redacted, redactionActive (s.dbs row.1) row.2.2

namespace Expected

theorem mem_after_changesets {x : Expected Id} {p : Printed Id} {row : RepoId × Id}
    (h : row ∈ (x.after p).changesets) :
    (row ∈ x.changesets ∧ ∀ rows, p = .collected rows → row ∉ rows) ∨
      ∃ ids tip, p = .imported row.1 ids tip ∧ row.2 ∈ ids := by
  cases p with
  | imported r ids tip =>
      rcases List.mem_append.mp h with h | h
      · exact .inl ⟨h, by simp⟩
      · obtain ⟨id, hid, rfl⟩ := List.mem_map.mp h
        exact .inr ⟨ids, tip, rfl, hid⟩
  | collected rows =>
      have hkept := List.mem_filter.mp h
      exact .inl ⟨hkept.1, by simpa using hkept.2⟩
  | _ => exact .inl ⟨h, by simp⟩

theorem mem_after_mains {x : Expected Id} {p : Printed Id} {main : RepoId × Id}
    (h : main ∈ (x.after p).mains) :
    (∃ ids, p = .imported main.1 ids (some main.2)) ∨
      (main ∈ x.mains ∧ ∀ ids target, p ≠ .imported main.1 ids (some target)) := by
  cases p with
  | imported r ids tip =>
      cases tip with
      | none => exact .inr ⟨h, by simp⟩
      | some target =>
          rcases List.mem_cons.mp h with rfl | h
          · exact .inl ⟨ids, rfl⟩
          · obtain ⟨hold, hother⟩ := List.mem_filter.mp h
            refine .inr ⟨hold, fun ids' target' heq => ?_⟩
            cases heq
            simp at hother
  | _ => exact .inr ⟨h, by simp⟩

theorem mem_after_redacted {x : Expected Id} {p : Printed Id}
    {row : RepoId × RedactionKind × Id} :
    row ∈ (x.after p).redacted ↔ row ∈ x.redacted ∨ p = .redacted row.1 row.2.1 row.2.2 := by
  cases p with
  | redacted r kind id =>
      obtain ⟨r', kind', id'⟩ := row
      simp [after, eq_comm]
  | _ => simp [after]

end Expected

/-- What stood before a verb, and what it printed, stands after it. -/
theorem Stands.after {x : Expected Id} {s s' : Server Id} {p : Printed Id} (h : Stands x s)
    (hp : Reports s s' p) : Stands (x.after p) s' where
  changesets row hrow := by
    have hmasked : redactionActive (s'.dbs row.1) row.2 →
        (redactionActive (s.dbs row.1) row.2 → ∃ kind, (row.1, kind, row.2) ∈ x.redacted) →
        ∃ kind, (row.1, kind, row.2) ∈ (x.after p).redacted := by
      intro hactive hbefore
      rcases (hp.active row.1 row.2).mp hactive with hold | ⟨kind, hkind⟩
      · obtain ⟨kind, hkind⟩ := hbefore hold
        exact ⟨kind, Expected.mem_after_redacted.mpr (.inl hkind)⟩
      · exact ⟨kind, Expected.mem_after_redacted.mpr (.inr hkind)⟩
    rcases Expected.mem_after_changesets hrow with ⟨hold, hkept⟩ | ⟨ids, tip, himported, hid⟩
    · obtain ⟨hrepo, hget, hredacted⟩ := h.changesets row hold
      refine ⟨hp.repos hrepo, ?_, fun hactive => hmasked hactive hredacted⟩
      rcases hp.kept row.1 hrepo row.2 hget with hstill | ⟨rows, hrows, hgone⟩
      · exact hstill
      · exact absurd hgone (hkept rows hrows)
    · obtain ⟨hrepo, hrows, -⟩ := hp.imported row.1 ids tip himported
      obtain ⟨hget, hfree⟩ := hrows row.2 hid
      exact ⟨hrepo, hget, fun hactive => hmasked hactive fun hold => by simp [hfree] at hold⟩
  mains main hmain := by
    rcases Expected.mem_after_mains hmain with ⟨ids, himported⟩ | ⟨hold, hother⟩
    · exact (hp.imported main.1 ids _ himported).2.2 main.2 rfl
    · rcases hp.mains main.1 with hsame | ⟨ids, target, himported⟩
      · rw [hsame]
        exact h.mains main hold
      · exact absurd himported (hother ids target)
  redacted row hrow := by
    rw [hp.active]
    rcases Expected.mem_after_redacted.mp hrow with hold | hredacted
    · exact .inl (h.redacted row hold)
    · exact .inr ⟨row.2.1, hredacted⟩

/-! ### The verbs -/

namespace HostDir

/-- A verb writes only what a server on the directory reads. -/
def OnServed (d : HostDir Id) : Verb Id → Prop
  | .import name git opts head _ =>
      d.layout = .singleDb ∨
        newCommits ((d.importTarget name).2.1.cx (d.importTarget name).1) git opts head = []
  | .redact _ _ _ _ | .gc _ _ _ => True
  | .newAdminToken _ | .cacheKeyInit _ | .cacheKeyRotate _ | .cacheKeyDrop _ =>
      d.layout = .singleDb

/-- What a verb that ended with exit code 0 did to the directory. -/
structure VerbRan (d d' : HostDir Id) (verb : Verb Id) (ran : Ran Id) : Prop where
  layout : d'.layout = d.layout
  reports : Reports d.server d'.server ran.printed
  log : d'.log = d.logged ran.audited
  minted : d.OnServed verb → ∀ b,
    (d.accounts d.layout.catalogFile).Minted b ∨ ran.printed = .adminToken b →
      (d'.accounts d.layout.catalogFile).Minted b
  served : ∀ repos, d'.server.repoIds ⊆ repos →
    (((∀ row ∈ ran.audited, row.1 = d.layout.catalogFile) ∧
      ∀ f ∈ ran.wrote, f ∈ d.layout.servedFiles repos) ↔ d.OnServed verb)

/-- The file `Store::open_backend` opens is served in the first layout only. -/
theorem openBackend_served (layout : Layout) (repos : List RepoId) :
    openBackend ∈ layout.servedFiles repos ↔ layout = .singleDb := by
  cases layout <;> simp [openBackend, Layout.servedFiles, Layout.catalogFile, Layout.repoFile]

theorem mem_servedFiles {layout : Layout} {repos repos' : List RepoId} (h : repos ⊆ repos')
    {f : DbFile} (hf : f ∈ layout.servedFiles repos) : f ∈ layout.servedFiles repos' := by
  rcases List.mem_cons.mp hf with rfl | hf
  · exact List.mem_cons_self
  · exact List.mem_cons_of_mem _ (List.map_subset _ h hf)

omit [Platform Id] in
/-- A verb on the file `Store::open_backend` opens. -/
theorem backend_served {layout : Layout} {repos : List RepoId} {ran : Ran Id}
    (haudited : ∀ row ∈ ran.audited, row.1 = openBackend) (hwrote : ran.wrote = [openBackend]) :
    ((∀ row ∈ ran.audited, row.1 = layout.catalogFile) ∧
      ∀ f ∈ ran.wrote, f ∈ layout.servedFiles repos) ↔ layout = .singleDb := by
  rw [hwrote, List.forall_mem_singleton, openBackend_served]
  refine ⟨And.right, fun h => ⟨fun row hrow => ?_, h⟩⟩
  rw [haudited row hrow, h]
  rfl

variable {d d' : HostDir Id} {ran : Ran Id}

theorem newAdminToken_ran {blake3 : Bytes} (h : d.newAdminToken blake3 = some (d', ran)) :
    VerbRan d d' (.newAdminToken blake3) ran := by
  rw [newAdminToken, Option.map_eq_some_iff] at h
  obtain ⟨accounts, hcreate, h⟩ := h
  cases h
  refine ⟨rfl, .of_eq _ (.inl ⟨_, rfl⟩), rfl, fun hserved b hb => ?_, fun repos _ =>
    backend_served (by simp) rfl⟩
  have hfile : d.layout.catalogFile = openBackend := by
    rw [show d.layout = .singleDb from hserved]
    rfl
  rw [hfile] at hb ⊢
  simp only [if_pos]
  exact Accounts.tokenCreate_minted hcreate (hb.imp_right fun heq => by
    rw [Printed.adminToken.injEq] at heq
    exact heq.symm)

/-- A verb on the cache keys alone. -/
theorem keys_ran {verb : Verb Id} (hverb : d.OnServed verb ↔ d.layout = .singleDb)
    (hserver : d'.server = d.server) (haccounts : d'.accounts = d.accounts)
    (hlog : d'.log = d.logged ran.audited) (hprinted : ∃ keyId, ran.printed = .cacheKey keyId)
    (haudited : ∀ row ∈ ran.audited, row.1 = openBackend) (hwrote : ran.wrote = [openBackend]) :
    VerbRan d d' verb ran where
  layout := by rw [layout, hserver, layout]
  reports := hserver ▸ .of_eq _ (.inr hprinted)
  log := hlog
  minted _ b hb := by
    obtain ⟨keyId, hkey⟩ := hprinted
    rw [haccounts]
    exact hb.elim (fun hold => hold) fun hnew => by simp [hkey] at hnew
  served repos _ := (backend_served haudited hwrote).trans hverb.symm

theorem keyStoreWrite_ran {verb : Verb Id} (hverb : d.OnServed verb ↔ d.layout = .singleDb)
    {keys : List VerifyKey} {keyId action : String} {fields : List (String × String)}
    (h : d.keyStoreWrite keys keyId action fields = some (d', ran)) : VerbRan d d' verb ran := by
  rw [keyStoreWrite, Option.map_eq_some_iff] at h
  obtain ⟨keys, -, h⟩ := h
  cases h
  exact keys_ran hverb rfl rfl rfl ⟨_, rfl⟩ (by simp [keyRow]) rfl

theorem cacheKeyInit_ran {keyId : String} (h : d.cacheKeyInit keyId = some (d', ran)) :
    VerbRan d d' (.cacheKeyInit keyId) ran := by
  unfold cacheKeyInit at h
  split at h
  · rw [Option.map_eq_some_iff] at h
    obtain ⟨key, -, h⟩ := h
    cases h
    refine keys_ran Iff.rfl rfl rfl rfl ⟨_, rfl⟩ ?_ rfl
    simp only
    split_ifs
    · exact fun row hrow => absurd hrow List.not_mem_nil
    · simp [keyRow]
  · exact keyStoreWrite_ran Iff.rfl h

theorem cacheKeyRotate_ran {keyId : String} (h : d.cacheKeyRotate keyId = some (d', ran)) :
    VerbRan d d' (.cacheKeyRotate keyId) ran := by
  rw [cacheKeyRotate, Option.bind_eq_some_iff] at h
  obtain ⟨old, -, h⟩ := h
  exact keyStoreWrite_ran Iff.rfl h

theorem cacheKeyDrop_ran {keyId : String} (h : d.cacheKeyDrop keyId = some (d', ran)) :
    VerbRan d d' (.cacheKeyDrop keyId) ran := by
  simp only [cacheKeyDrop, Option.bind_eq_some_iff] at h
  obtain ⟨keys, -, dropped, -, h⟩ := h
  split_ifs at h
  rw [Option.map_eq_some_iff] at h
  obtain ⟨remaining, -, h⟩ := h
  cases h
  exact keys_ran Iff.rfl rfl rfl rfl ⟨_, rfl⟩ (by simp [keyRow]) rfl

/-! ### Redactions -/

/-- A mark that is no mismatch tombstones its id and no other. -/
theorem redactionMark_active {db : RepoTables Id} {id : Id} {kind : RedactionKind} {markedNs : ℕ}
    (h : (redactionMark db id kind markedNs).1 ≠ .kindMismatch) (x : Id) :
    redactionActive (redactionMark db id kind markedNs).2 x ↔ redactionActive db x ∨ x = id := by
  unfold redactionMark at h ⊢
  split at h
  · simp only [redactionActive, List.any_append, List.any_cons, List.any_nil, Bool.or_false,
      Bool.or_eq_true, decide_eq_true_eq]
    exact or_congr_right eq_comm
  next existing hexisting =>
    have hid : existing.objectId = id := by simpa using List.find?_some hexisting
    have hactive : redactionActive db id :=
      List.any_eq_true.mpr ⟨existing, List.mem_of_find?_eq_some hexisting, decide_eq_true hid⟩
    have hold : redactionActive db x ∨ x = id ↔ redactionActive db x :=
      ⟨fun hx => hx.elim (fun hx => hx) fun hx => hx ▸ hactive, .inl⟩
    rw [hold]
    split_ifs at h ⊢ with hkind hpurged
    · exact absurd rfl h
    · simp only [redactionActive, List.any_map]
      refine Bool.eq_iff_iff.mp (congrArg (List.any db.redactions) ?_)
      funext row
      simp only [Function.comp_apply]
      split_ifs <;> rfl
    · exact Iff.rfl

theorem redactionMark_reports {s : Server Id} {r : RepoId} {id : Id} {kind : RedactionKind}
    {markedNs : ℕ} (h : (redactionMark (s.dbs r) id kind markedNs).1 ≠ .kindMismatch) :
    Reports s (s.put r { s.cx r with db := (redactionMark (s.dbs r) id kind markedNs).2 })
      (.redacted r kind id) := by
  obtain ⟨redactions, hmark⟩ := redactionMark_db (s.dbs r) id kind markedNs
  refine ⟨List.Subset.refl _, fun r' x => ?_, fun r' _ x hget => .inl ?_, fun r' => .inl ?_, ?_⟩
  · rw [Server.dbs_put]
    split_ifs with hr
    · subst hr
      rw [redactionMark_active h]
      exact or_congr_right ⟨fun hx => ⟨kind, hx ▸ rfl⟩, fun ⟨_, hx⟩ => (by cases hx; rfl)⟩
    · refine ⟨.inl, fun hx => hx.elim (fun hx => hx) ?_⟩
      rintro ⟨_, hx⟩
      cases hx
      exact absurd rfl hr
  · rw [Server.dbs_put]
    split_ifs with hr
    · rw [hmark, ← hr]
      exact hget
    · exact hget
  · rw [Server.dbs_put]
    split_ifs with hr
    · rw [hmark, ← hr]
      rfl
    · rfl
  · intro r' ids tip heq
    cases heq

theorem redact_ran {repo : String} {id : Id} {kind : RedactionKind} {reason : String}
    (h : d.redact repo id kind reason = some (d', ran)) :
    VerbRan d d' (.redact repo id kind reason) ran := by
  unfold redact at h
  split_ifs at h
  split at h
  · cases h
  next r name hrepo =>
  split_ifs at h
  have hdone : ∀ audited : List (DbFile × AuditEntry Id),
      (redactionMark (d.server.dbs r) id kind d.nowNs).1 ≠ .kindMismatch →
      (∀ row ∈ audited, row.1 = d.layout.catalogFile) →
      some
        ({ d with
            server := d.server.put r
              { d.server.cx r with db := (redactionMark (d.server.dbs r) id kind d.nowNs).2 }
            log := d.logged audited },
          (⟨.redacted r kind id, audited, d.layout.servedFiles d.server.repoIds⟩ : Ran Id)) =
        some (d', ran) → VerbRan d d' (.redact repo id kind reason) ran := by
    intro audited hmark haudited heq
    cases heq
    exact ⟨rfl, redactionMark_reports hmark, rfl,
      fun _ b hb => hb.elim (fun hold => hold) (by simp),
      fun repos hrepos => ⟨fun _ => trivial, fun _ =>
        ⟨haudited, fun f hf => mem_servedFiles hrepos hf⟩⟩⟩
  simp only at h
  split at h
  next hmark => exact hdone _ (by rw [hmark]; decide) (by simp) h
  next hmark => exact hdone _ (by rw [hmark]; decide) (by simp) h
  next hmark => exact hdone _ (by rw [hmark]; decide) (by simp) h
  · cases h

/-! ### The collector -/

theorem gcLoop_collected {n : ℕ} {s s' : Server Id} (h : gcLoop n s = some s') :
    s.Collected s' ∧ s'.repos = s.repos ∧ s'.layout = s.layout := by
  induction n generalizing s with
  | zero =>
      rw [gcLoop] at h
      split_ifs at h
      cases h
      exact ⟨.of_dbs rfl, rfl, rfl⟩
  | succ n ih =>
      rw [gcLoop] at h
      split_ifs at h
      · cases h
        exact ⟨.of_dbs rfl, rfl, rfl⟩
      · rw [Option.bind_eq_some_iff] at h
        obtain ⟨mid, hstep, hrest⟩ := h
        rw [Server.gcStep, Option.map_eq_some_iff] at hstep
        obtain ⟨pass, -, hmid⟩ := hstep
        have hframe := s.gcPassStep_frame pass
        have hcollected := s.gcPassStep_collected pass
        obtain ⟨htail, hrepos, hlayout⟩ := ih hrest
        rw [← hmid] at htail hrepos hlayout
        exact ⟨hcollected.trans htail, hrepos.trans hframe.repos, hlayout.trans hframe.layout⟩

/-- A pass takes away only what it reports. -/
theorem gcLoop_reports {n : ℕ} {s s' : Server Id} (h : gcLoop n s.gcStart = some s') :
    Reports s s' (.collected (collectedRows s s')) := by
  obtain ⟨hcollected, hrepos, -⟩ := gcLoop_collected h
  have hids : s'.repoIds = s.repoIds := congrArg (List.map Prod.fst) hrepos
  refine ⟨hids ▸ List.Subset.refl _, fun r x => ?_, fun r hr x hget => ?_, fun r => .inl ?_, ?_⟩
  · rw [(hcollected r).redactionActive]
    exact ⟨.inl, fun hx => hx.elim (fun hx => hx) (by simp)⟩
  · cases hstill : (changesetGet (s'.dbs r) x).isSome with
    | true => exact .inl rfl
    | false =>
        refine .inr ⟨_, rfl, List.mem_flatMap.mpr ⟨r, hr, List.mem_map.mpr ⟨x, ?_, rfl⟩⟩⟩
        rw [List.mem_filter]
        exact ⟨changesetGet_isSome.mp hget, by simpa using hstill⟩
  · rw [refGet, (hcollected r).refs]
    rfl
  · intro r ids tip heq
    cases heq

theorem gc_ran {steps : ℕ} {collected purged : Option String}
    (h : d.gc steps collected purged = some (d', ran)) :
    VerbRan d d' (.gc steps collected purged) ran := by
  rw [gc, Option.map_eq_some_iff] at h
  obtain ⟨s', hloop, h⟩ := h
  cases h
  obtain ⟨-, hrepos, hlayout⟩ := gcLoop_collected hloop
  have hids : s'.repoIds = d.server.repoIds := congrArg (List.map Prod.fst) hrepos
  refine ⟨hlayout, gcLoop_reports hloop, rfl, fun _ b hb => hb.elim (fun hold => hold) (by simp),
    fun repos hsub => ⟨fun _ => trivial, fun _ => ⟨?_, fun f hf => ?_⟩⟩⟩
  · intro row hrow
    simp only [List.mem_append, List.mem_map] at hrow
    rcases hrow with ⟨_, -, rfl⟩ | ⟨_, -, rfl⟩ <;> rfl
  · exact mem_servedFiles (hids ▸ hsub) hf

/-! ### Imports -/

/-- The target of an import is registered, and no table changes for it. -/
structure Targeted (d : HostDir Id) (r : RepoId) (server : Server Id)
    (created : List (DbFile × AuditEntry Id)) : Prop where
  known : r ∈ server.repoIds
  repos : d.server.repoIds ⊆ server.repoIds
  dbs : server.dbs = d.server.dbs
  layout : server.layout = d.server.layout
  created_file : ∀ row ∈ created, row.1 = d.layout.catalogFile

theorem importTarget_targeted (d : HostDir Id) (name : String) :
    Targeted d (d.importTarget name).1 (d.importTarget name).2.1 (d.importTarget name).2.2 := by
  rw [importTarget]
  split
  next repo hrepo =>
    exact ⟨List.mem_map_of_mem (List.mem_of_find?_eq_some hrepo), List.Subset.refl _, rfl, rfl,
      by simp⟩
  · refine ⟨?_, ?_, rfl, rfl, by simp⟩
    · simp [Server.repoIds]
    · rw [Server.repoIds, Server.repoIds, List.map_append]
      exact List.subset_append_left _ _

theorem imported_reports {s server : Server Id} {r : RepoId} {cx : RepoCx Id}
    {report : ImportReport} {new : List (PreparedCommit Id)} (hknown : r ∈ server.repoIds)
    (hrepos : s.repoIds ⊆ server.repoIds) (hdbs : server.dbs = s.dbs)
    (hok : ImportedOk (server.cx r) cx report new) :
    Reports s (server.put r cx)
      (.imported r ((cx.db.changesets.drop (server.dbs r).changesets.length).map (·.id))
        (if report.main = .set ∨ report.main = .fastForwarded then
          (refGet cx.db "main").bind (·.target)
        else none)) := by
  obtain ⟨rows, happended, -, hfree⟩ := hok.appended
  have hdrop : cx.db.changesets.drop (server.dbs r).changesets.length = rows := by
    rw [happended]
    exact List.drop_left
  rw [hdrop]
  refine ⟨hrepos, fun r' x => ?_, fun r' _ x hget => .inl ?_, fun r' => ?_, ?_⟩
  · have hsame : redactionActive ((server.put r cx).dbs r') x = redactionActive (s.dbs r') x := by
      rw [Server.dbs_put]
      split_ifs with hr
      · rw [hr, redactionActive_of_eq hok.redactions, ← hdbs]
        rfl
      · rw [hdbs]
    rw [hsame]
    exact ⟨.inl, fun hx => hx.elim (fun hx => hx) (by simp)⟩
  · rw [Server.dbs_put]
    split_ifs with hr
    · rw [hr, ← hdbs] at hget
      obtain ⟨row, hrow⟩ := Option.isSome_iff_exists.mp hget
      exact Option.isSome_iff_exists.mpr ⟨row, RepoTables.Keeps.of_append happended _ _ hrow⟩
    · rwa [hdbs]
  · rw [Server.dbs_put]
    split_ifs with hr hmain
    · obtain ⟨hkept, -⟩ | ⟨-, row, target, hrow, htarget⟩ := hok.main
      · exact absurd hmain hkept
      · refine .inr ⟨rows.map (·.id), target, ?_⟩
        rw [hrow, Option.bind_some, htarget, hr]
    · obtain ⟨-, hrefs⟩ | ⟨hmoved, -⟩ := hok.main
      · left
        rw [hr, refGet, hrefs, ← hdbs]
        rfl
      · exact absurd hmoved hmain
    · exact .inl (by rw [hdbs])
    · exact .inl (by rw [hdbs])
  · intro r' ids tip heq
    cases heq
    have hput : (server.put r cx).dbs r = cx.db := by rw [Server.dbs_put, if_pos rfl]
    rw [hput]
    refine ⟨hknown, fun x hx => ?_, fun target htip => ?_⟩
    · obtain ⟨row, hrow, rfl⟩ := List.mem_map.mp hx
      refine ⟨changesetGet_isSome.mpr (List.mem_map_of_mem ?_), ?_⟩
      · rw [happended]
        exact List.mem_append_right _ hrow
      · rw [← hdbs]
        exact hfree row hrow
    · split_ifs at htip
      exact Option.bind_eq_some_iff.mp htip

theorem importGit_ran {name : String} {git : GitRepo} {opts : ImportOptions} {head : GitOid}
    {stop : ℕ} (h : d.importGit name git opts head stop = some (d', ran)) :
    VerbRan d d' (.import name git opts head stop) ran := by
  have ht := d.importTarget_targeted name
  have hserved : d.OnServed (.import name git opts head stop) ↔ d.layout = .singleDb ∨
      newCommits ((d.importTarget name).2.1.cx (d.importTarget name).1) git opts head = [] :=
    Iff.rfl
  unfold importGit at h
  generalize d.importTarget name = target at h ht hserved
  obtain ⟨r, server, created⟩ := target
  simp only at h ht hserved
  split at h
  · cases h
  next report cx hrun =>
  by_cases haborted : report.aborted
  · rw [if_pos haborted] at h
    cases h
  rw [if_neg haborted] at h
  cases h
  have hok := runBackend_importedOk hrun (by simpa using haborted)
  refine ⟨ht.layout, imported_reports ht.known ht.repos ht.dbs hok, rfl,
    fun _ b hb => hb.elim (fun hold => hold) (by simp), fun repos hrepos => ?_⟩
  have hr : r ∈ repos := hrepos ht.known
  rw [hserved]
  obtain ⟨rows, happended, hlength, -⟩ := hok.appended
  have hdrop : cx.db.changesets.drop (server.dbs r).changesets.length = rows := by
    rw [happended]
    exact List.drop_left
  simp only [hdrop]
  constructor
  · rintro ⟨haudited, -⟩
    cases hlayout : d.layout with
    | singleDb => exact .inl rfl
    | dbPerRepo =>
        right
        rw [← List.length_eq_zero_iff, ← hlength, List.length_eq_zero_iff]
        refine List.eq_nil_iff_forall_not_mem.mpr fun row hrow => ?_
        -- the row of a changeset goes to the file of its repository
        have hfile := haudited _ (List.mem_append_left _ (List.mem_append_left _
          (List.mem_append_right _ (List.mem_map_of_mem hrow))))
        rw [hlayout] at hfile
        cases hfile
  · intro hcase
    refine ⟨fun row hrow => ?_, fun f hf => ?_⟩
    · simp only [List.mem_append, List.mem_map, List.mem_singleton] at hrow
      rcases hrow with ((hrow | ⟨row', hrow', rfl⟩) | ⟨_, -, rfl⟩) | rfl
      · exact ht.created_file row hrow
      · rcases hcase with hsingle | hnew
        · rw [hsingle]
          rfl
        · rw [hnew, List.length_nil, List.length_eq_zero_iff] at hlength
          rw [hlength] at hrow'
          exact absurd hrow' List.not_mem_nil
      · rfl
      · rfl
    · rcases List.mem_cons.mp hf with rfl | hf
      · exact List.mem_cons_self
      · rw [List.mem_singleton.mp hf]
        exact List.mem_cons_of_mem _ (List.mem_map_of_mem hr)

/-! ### Sequences -/

theorem run_ran {verb : Verb Id} (h : d.run verb = some (d', ran)) : VerbRan d d' verb ran := by
  cases verb with
  | newAdminToken => exact newAdminToken_ran h
  | «import» => exact importGit_ran h
  | redact => exact redact_ran h
  | gc => exact gc_ran h
  | cacheKeyInit => exact cacheKeyInit_ran h
  | cacheKeyRotate => exact cacheKeyRotate_ran h
  | cacheKeyDrop => exact cacheKeyDrop_ran h

/-- Every verb of a sequence meets `p` on the directory it finds. -/
def Along (p : HostDir Id → Verb Id → Prop) : HostDir Id → List (ℕ × Verb Id) → Prop
  | _, [] => True
  | d, (ns, verb) :: verbs =>
      p (d.wait ns) verb ∧ ∀ d' ran, (d.wait ns).run verb = some (d', ran) → Along p d' verbs

/-- What a sequence did to the directory. -/
structure AllRan (d d' : HostDir Id) (verbs : List (ℕ × Verb Id)) (rans : List (Ran Id)) :
    Prop where
  layout : d'.layout = d.layout
  repos : d.server.repoIds ⊆ d'.server.repoIds
  log : ∀ f, d'.log f =
    d.log f ++ ((rans.flatMap (·.audited)).filter fun row => decide (row.1 = f)).map (·.2)
  stands : ∀ x, Stands x d.server →
    Stands (rans.foldl (fun x done => x.after done.printed) x) d'.server
  minted : d.Along OnServed verbs → ∀ x : Expected Id,
    (∀ b ∈ x.tokens, (d.accounts d.layout.catalogFile).Minted b) →
      ∀ b ∈ (rans.foldl (fun x done => x.after done.printed) x).tokens,
        (d'.accounts d.layout.catalogFile).Minted b
  served : ∀ repos, d'.server.repoIds ⊆ repos →
    (((∀ done ∈ rans, ∀ row ∈ done.audited, row.1 = d.layout.catalogFile) ∧
      ∀ done ∈ rans, ∀ f ∈ done.wrote, f ∈ d.layout.servedFiles repos) ↔
        d.Along OnServed verbs)

theorem mem_after_tokens {x : Expected Id} {p : Printed Id} {b : Bytes} :
    b ∈ (x.after p).tokens ↔ b ∈ x.tokens ∨ p = .adminToken b := by
  cases p with
  | adminToken => simp [Expected.after, eq_comm]
  | _ => simp [Expected.after]

theorem runAll_ran {verbs : List (ℕ × Verb Id)} {rans : List (Ran Id)}
    (h : d.runAll verbs = some (d', rans)) : AllRan d d' verbs rans := by
  induction verbs generalizing d rans with
  | nil =>
      cases h
      exact ⟨rfl, List.Subset.refl _, fun f => by simp, fun x hx => hx, fun _ x hx => hx,
        fun repos _ => by simp [Along]⟩
  | cons entry verbs ih =>
      obtain ⟨ns, verb⟩ := entry
      rw [runAll, Option.bind_eq_some_iff] at h
      obtain ⟨⟨mid, ran⟩, hrun, h⟩ := h
      rw [Option.map_eq_some_iff] at h
      obtain ⟨⟨last, rest⟩, hrest, heq⟩ := h
      cases heq
      have hfirst := run_ran hrun
      have htail := ih hrest
      have hlayout : mid.layout = d.layout := hfirst.layout
      have halong : d.Along OnServed ((ns, verb) :: verbs) ↔
          (d.wait ns).OnServed verb ∧ mid.Along OnServed verbs := by
        refine ⟨fun h => ⟨h.1, h.2 mid ran hrun⟩, fun h => ⟨h.1, fun d' ran' hrun' => ?_⟩⟩
        rw [hrun] at hrun'
        cases hrun'
        exact h.2
      refine ⟨htail.layout.trans hlayout, fun r hr => htail.repos (hfirst.reports.repos hr),
        fun f => ?_, fun x hx => htail.stands _ (Stands.after ?_ hfirst.reports),
        fun hserved x hx => ?_, fun repos hrepos => ?_⟩
      · rw [htail.log, hfirst.log, logged, List.flatMap_cons, List.filter_append, List.map_append,
          List.append_assoc]
        rfl
      · exact ⟨hx.changesets, hx.mains, hx.redacted⟩
      · obtain ⟨hverb, hverbs⟩ := halong.mp hserved
        rw [← hlayout]
        refine htail.minted hverbs _ fun b hb => ?_
        rw [hlayout]
        exact hfirst.minted hverb b ((mem_after_tokens.mp hb).imp_left (hx b))
      · rw [halong, ← hfirst.served repos fun r hr => hrepos (htail.repos hr),
          ← htail.served repos hrepos, hlayout]
        simp only [List.forall_mem_cons]
        exact ⟨fun ⟨⟨ha, has⟩, hw, hws⟩ => ⟨⟨ha, hw⟩, has, hws⟩,
          fun ⟨⟨ha, hw⟩, has, hws⟩ => ⟨⟨ha, has⟩, hw, hws⟩⟩

end HostDir

/-- The audit list holds every row the verbs wrote, exactly when each went into
the served file. -/
theorem audited_iff {d₀ d : HostDir Id} {verbs : List (ℕ × Verb Id)} {ran : List (Ran Id)}
    (h : HostDir.AllRan d₀ d verbs ran) :
    (d₀.log d.layout.catalogFile ++ ran.flatMap fun done => done.audited.map (·.2)).Subperm
        ((auditRows (d.log d.layout.catalogFile)).reverse.map (·.entry)) ↔
      ∀ done ∈ ran, ∀ row ∈ done.audited, row.1 = d₀.layout.catalogFile := by
  have hall : (∀ done ∈ ran, ∀ row ∈ done.audited, row.1 = d₀.layout.catalogFile) ↔
      ∀ row ∈ ran.flatMap (·.audited), decide (row.1 = d₀.layout.catalogFile) = true := by
    simp only [List.mem_flatMap, decide_eq_true_eq]
    exact ⟨fun h row ⟨done, hdone, hrow⟩ => h done hdone row hrow,
      fun h done hdone row hrow => h row ⟨done, hdone, hrow⟩⟩
  have hmap : (ran.flatMap fun done => done.audited.map (·.2)) =
      (ran.flatMap (·.audited)).map (·.2) := List.map_flatMap.symm
  rw [List.map_reverse, auditRows_entries, h.layout, h.log, hmap, hall]
  constructor
  · intro hlisted
    have hle := hlisted.length_le
    simp only [List.length_reverse, List.length_append, List.length_map] at hle
    refine List.length_filter_eq_length_iff.mp (le_antisymm (List.length_filter_le _ _) ?_)
    omega
  · intro hserved
    rw [List.filter_eq_self.mpr hserved]
    exact (List.reverse_perm _).symm.subperm

/-- Host verbs run one after the other leave a directory whose server serves
everything they reported, exactly when each wrote into files the server reads. -/
theorem host_serves_iff {d₀ d : HostDir Id} {verbs : List (ℕ × Verb Id)} {ran : List (Ran Id)}
    (h : d₀.runAll verbs = some (d, ran)) :
    Serves d₀ d ran ↔ d₀.Along HostDir.OnServed verbs := by
  have hran := HostDir.runAll_ran h
  rw [← hran.served _ (List.Subset.refl _)]
  constructor
  · intro hserves
    refine ⟨?_, hran.layout ▸ hserves.files⟩
    obtain ⟨rows, hfollow, hlisted⟩ :=
      hserves.audited ⟨"admin", .admin, none⟩ rfl none (by decide)
    rw [← (hfollow _).mp ((follow_audit rfl (by decide) _).mpr rfl)] at hlisted
    exact (audited_iff hran).mp hlisted
  · rintro ⟨haudited, hfiles⟩
    have halong := (hran.served _ (List.Subset.refl _)).mp ⟨haudited, hfiles⟩
    have hstands : Stands (expected ran) d.server := hran.stands _
      ⟨fun _ h => absurd h List.not_mem_nil, fun _ h => absurd h List.not_mem_nil,
        fun _ h => absurd h List.not_mem_nil⟩
    have hminted := hran.minted halong ⟨[], [], [], []⟩ fun _ h => absurd h List.not_mem_nil
    refine ⟨fun b hb nowNs => ?_, fun row hrow => ?_, fun main hmain => ?_, fun row hrow => ?_,
      fun auth hadmin limit hlimit => ?_, hran.layout ▸ hfiles⟩
    · rw [hran.layout]
      exact (hminted b hb).authenticates nowNs
    · obtain ⟨-, hget, hmasked⟩ := hstands.changesets row hrow
      by_cases hactive : redactionActive (d.server.dbs row.1) row.2
      · exact .inr (hmasked hactive)
      · obtain ⟨found, hfound⟩ := Option.isSome_iff_exists.mp hget
        have hrow' : changesetGet (d.server.cx row.1).db row.2 = some found := hfound
        have hfree : redactionActive (d.server.cx row.1).db row.2 = false := by simpa using hactive
        left
        simp only [getChangeset, hfree, hrow', Bool.false_eq_true, if_false]
        exact ⟨_, rfl⟩
    · obtain ⟨ref, href, htarget⟩ := hstands.mains main hmain
      have href' : refGet (d.server.cx main.1).db "main" = some ref := href
      refine ⟨ref.version, ?_⟩
      rw [getRef, href']
      simp [htarget]
    · have hactive : redactionActive (d.server.cx row.1).db row.2.2 = true :=
        hstands.redacted row hrow
      obtain ⟨r, kind, id⟩ := row
      cases kind with
      | changeset => simp only at hactive ⊢; rw [getChangeset, if_pos hactive]
      | blob =>
          simp only at hactive ⊢
          rw [getRaw, if_pos hactive]
          exact ⟨_, rfl, rfl⟩
    · exact ⟨_, fun rows' => follow_audit hadmin hlimit rows', (audited_iff hran).mpr haudited⟩

end

namespace HostRun

/-- A directory just initialised, with a repository. -/
def start (layout : Layout) : HostDir PlainId where
  server := .boot layout [(1, "r")] 0 0
  accounts := fun _ => ⟨[(1, "r")], [], [], []⟩
  log := fun _ => []
  verify := none
  signing := none

/-- One commit with one file. -/
def commit : GitRepo :=
  [⟨1, [], "ann", "first", 5, .entry "a" (.blob .regular 11 [97, 10]) .empty⟩]

/-- An admin token, an import, a redaction in it, a collection, then the cache
keys. -/
def verbs : List (ℕ × Verb PlainId) :=
  [(5, .newAdminToken [7]), (5, .import "r" commit ⟨false, false⟩ 1 1),
    (5, .redact "r" (Platform.blobId [97, 10]) .blob "leak"), (5, .gc 20 none none),
    (5, .cacheKeyInit "k"), (5, .cacheKeyRotate "l"), (5, .cacheKeyDrop "k")]

/-- In one file a verb writes only what the server reads. -/
theorem along_single {d : HostDir PlainId} (hlayout : d.layout = .singleDb)
    (verbs : List (ℕ × Verb PlainId)) : d.Along HostDir.OnServed verbs := by
  induction verbs generalizing d with
  | nil => trivial
  | cons first verbs ih =>
      obtain ⟨ns, verb⟩ := first
      refine ⟨?_, fun mid done hmid => ih ((HostDir.run_ran hmid).layout.trans hlayout)⟩
      cases verb with
      | «import» name git opts head stop => exact .inl hlayout
      | redact repo id kind reason => trivial
      | gc steps collected purged => trivial
      | newAdminToken blake3 => exact hlayout
      | cacheKeyInit keyId => exact hlayout
      | cacheKeyRotate keyId => exact hlayout
      | cacheKeyDrop keyId => exact hlayout

/-- In one file, the server serves what all of them reported. -/
theorem host_serves_iff_single : ∃ d ran, (start .singleDb).runAll verbs = some (d, ran) ∧
    Serves (start .singleDb) d ran := by
  obtain ⟨⟨d, ran⟩, hrun⟩ := Option.isSome_iff_exists.mp
    (show ((start .singleDb).runAll verbs).isSome by decide +kernel)
  exact ⟨d, ran, hrun, (host_serves_iff hrun).mpr (along_single rfl verbs)⟩

/-- With the catalog apart, the token does not authenticate, and a file nobody
reads appears. -/
theorem token_unserved : ∃ d ran, (start .dbPerRepo).runAll [(5, .newAdminToken [7])] =
      some (d, ran) ∧
    ((d.accounts d.layout.catalogFile).authenticate 5 [7] :
      Except (ApiError PlainId) AuthedPrincipal).isOk = false ∧
    ¬ Serves (start .dbPerRepo) d ran := by
  refine ⟨_, _, rfl, by decide +kernel, fun h => ?_⟩
  have hread := h.files _ List.mem_cons_self _ List.mem_cons_self
  revert hread
  decide +kernel

end HostRun

end Naatre
