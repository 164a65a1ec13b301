import Naatre.Core.Plain
import Naatre.Lib.Table
import Naatre.Server.Audit
import Naatre.Server.Tables

/-!
The audit trail: in the one database the pages an admin follows tell what
happened, each thing once, in every run. With a database for each repository
they do so until a changeset is inserted, whose row stays in the repository's
own file.
-/

namespace Naatre

/-! ### The listing -/

section

variable {Id : Type}

theorem auditRows_pairwise (log : List (AuditEntry Id)) :
    (auditRows log).Pairwise fun a b => a.id < b.id := by
  rw [auditRows, List.pairwise_map]
  suffices h : ∀ n, (log.zipIdx n).Pairwise fun a b => a.2 + 1 < b.2 + 1 from h 0
  induction log with
  | nil => exact fun _ => .nil
  | cons entry log ih =>
      intro n
      rw [List.zipIdx_cons, List.pairwise_cons]
      refine ⟨fun row hrow => ?_, ih (n + 1)⟩
      have hle := (List.mem_zipIdx hrow).1
      simp only
      omega

theorem auditRows_entries (log : List (AuditEntry Id)) :
    (auditRows log).map (·.entry) = log := by
  rw [auditRows, List.map_map]
  exact List.zipIdx_map_fst 0 log

theorem auditRows_effects (log : List (AuditEntry Id)) :
    (auditRows log).filterMap AuditRow.effect = log.filterMap AuditEntry.effect := by
  conv_rhs => rw [← auditRows_entries log]
  rw [List.filterMap_map]
  rfl

/-- What remains of the log behind a cursor, newest first. -/
def auditBehind (log : List (AuditEntry Id)) (before : Option ℕ) : List (AuditRow Id) :=
  ((auditRows log).filter (fun row => before.all (fun id => decide (row.id < id)))).reverse

theorem auditBehind_pairwise (log : List (AuditEntry Id)) (before : Option ℕ) :
    (auditBehind log before).Pairwise fun a b => decide (b.id < a.id) = true := by
  rw [auditBehind, List.pairwise_reverse]
  exact ((auditRows_pairwise log).filter _).imp fun h => decide_eq_true h

theorem auditRoute_front {log : List (AuditEntry Id)} {auth : AuthedPrincipal}
    (hadmin : auth.role = .admin) {limit : Option ℤ} {n : ℕ}
    (hlimit : parseLimit limit = (.ok n : Except (ApiError Empty) ℕ)) (before : Option ℕ) :
    auditRoute log auth limit before =
      .ok (Lib.Page.front AuditRow.id n (auditBehind log before)) := by
  have hrole : Accounts.requireRole auth .admin = (.ok () : Except (ApiError Empty) Unit) := by
    rw [Accounts.requireRole, hadmin]
    rfl
  have hlist : auditList log before (n + 1) = (auditBehind log before).take (n + 1) := rfl
  have hmore : n < ((auditBehind log before).take (n + 1)).length ↔
      n < (auditBehind log before).length := by
    rw [List.length_take]
    omega
  have htake : ((auditBehind log before).take (n + 1)).take n = (auditBehind log before).take n := by
    rw [List.take_take, Nat.min_eq_left (Nat.le_succ n)]
  rw [auditRoute, hrole, hlimit]
  simp only [bind, Except.bind, pure, Except.pure, hlist, htake, hmore, decide_eq_true_eq,
    Lib.Page.front]

/-- What remains behind a cursor that an earlier page answered. -/
def AuditServes (log : List (AuditEntry Id)) (cursor : Option ℕ) (rows : List (AuditRow Id)) :
    Prop :=
  rows = auditBehind log cursor

theorem auditServes_resume {log : List (AuditEntry Id)} {cursor : Option ℕ}
    {rows rest : List (AuditRow Id)} {row : AuditRow Id}
    (h : AuditServes log cursor (rows ++ row :: rest)) : AuditServes log (some row.id) rest := by
  rw [AuditServes] at h ⊢
  have hordered := auditBehind_pairwise log cursor
  rw [← h] at hordered
  have hbehind := Lib.filter_behind (fun a b : AuditRow Id => decide (b.id < a.id))
    (fun a b hab => by simp only [decide_eq_true_eq] at hab; exact decide_eq_false (by omega))
    hordered
  -- behind the row lies what has a smaller id, and the cursor is above it
  have hmem : row ∈ auditBehind log cursor := h ▸ List.mem_append_right _ List.mem_cons_self
  rw [auditBehind, List.mem_reverse, List.mem_filter] at hmem
  rw [← hbehind, h, auditBehind, auditBehind, ← List.filter_reverse, List.filter_filter,
    ← List.filter_reverse]
  refine List.filter_congr fun r _ => ?_
  cases cursor with
  | none => simp
  | some id =>
      have habove := hmem.2
      simp only [Option.all_some, decide_eq_true_eq] at habove ⊢
      by_cases hlt : r.id < row.id
      · simp [hlt, hlt.trans habove]
      · simp [hlt]

/-- The pages an admin follows are the rows of the catalog, newest first. -/
theorem follow_audit {log : List (AuditEntry Id)} {auth : AuthedPrincipal}
    (hadmin : auth.role = .admin) {limit : Option ℤ}
    (hlimit : (parseLimit limit : Except (ApiError Empty) ℕ).isOk) (rows : List (AuditRow Id)) :
    Lib.Follow (fun cursor => (auditRoute log auth limit cursor).toOption) none rows ↔
      rows = (auditRows log).reverse := by
  cases hparse : (parseLimit limit : Except (ApiError Empty) ℕ) with
  | error e =>
      rw [hparse] at hlimit
      cases hlimit
  | ok n =>
      have hpaged : Lib.Paged (fun cursor => (auditRoute log auth limit cursor).toOption)
          AuditRow.id n (AuditServes log) :=
        { answer := fun {cursor _} hserves => by
            rw [auditRoute_front hadmin hparse, hserves]
            rfl
          resume := auditServes_resume }
      have hall : AuditServes log none (auditRows log).reverse := by
        rw [AuditServes, auditBehind]
        congr 1
        exact (List.filter_eq_self.mpr fun _ _ => rfl).symm
      exact hpaged.follow_iff (parseLimit_pos hparse) hall

end

/-! ### Accounts -/

namespace Accounts

variable {s s' : Accounts} {Id : Type}

theorem nextTokenId_fresh (s : Accounts) : ∀ row ∈ s.tokens, row.id ≠ s.nextTokenId := by
  intro row hrow
  have hle : ∀ (ids : List ℕ) (n : ℕ), n ≤ ids.foldl max n ∧ ∀ id ∈ ids, id ≤ ids.foldl max n := by
    intro ids
    induction ids with
    | nil => exact fun n => ⟨le_rfl, fun id hid => absurd hid List.not_mem_nil⟩
    | cons id ids ih =>
        intro n
        obtain ⟨hstart, hrest⟩ := ih (max n id)
        rw [List.foldl_cons]
        refine ⟨(le_max_left n id).trans hstart, fun id' hid' => ?_⟩
        rcases List.mem_cons.mp hid' with rfl | hid'
        · exact (le_max_right n id').trans hstart
        · exact hrest id' hid'
  have hrow' := (hle (s.tokens.map (fun row => row.id)) 0).2 _ (List.mem_map_of_mem hrow)
  rw [nextTokenId]
  omega

theorem tokenCreate_tokens {principal : String} {role : Role} {blake3 : Bytes}
    {expiresNs : Option ℕ} {scopePath : Option String} {nowNs : ℕ}
    (h : s.tokenCreate principal role blake3 expiresNs scopePath nowNs = some s') :
    s'.tokens =
      s.tokens ++ [⟨s.nextTokenId, principal, blake3, expiresNs, scopePath, false⟩] := by
  rw [tokenCreate, tokenInsert] at h
  split_ifs at h
  exact Option.some.inj h ▸ rfl

/-- A mint adds one token. -/
theorem effects_createToken {principal : String} {role : Role} {blake3 : Bytes}
    {expiresNs : Option ℕ} {scopePath : Option String} {nowNs : ℕ}
    (h : s.tokenCreate principal role blake3 expiresNs scopePath nowNs = some s') :
    s'.tokens.filter (fun row => decide (row ∉ s.tokens)) =
      [⟨s.nextTokenId, principal, blake3, expiresNs, scopePath, false⟩] := by
  rw [tokenCreate_tokens h]
  refine Lib.filter_added (fun row hrow => by simp [hrow]) fun row hrow => ?_
  rw [List.mem_singleton] at hrow
  rw [decide_eq_true_eq]
  exact fun hold => nextTokenId_fresh s row hold (hrow ▸ rfl)

/-- A deletion takes the principal and the tokens counted with it. -/
theorem principalDelete_gone {name : String} {n : ℕ} (h : s.principalDelete name = some (n, s')) :
    s.principalExists name ∧ ¬s'.principalExists name ∧ n = s.tokens.length - s'.tokens.length := by
  rw [principalDelete] at h
  split_ifs at h with hstands
  obtain ⟨rfl, rfl⟩ := Prod.mk.inj (Option.some.inj h)
  refine ⟨hstands, by simp [principalExists], ?_⟩
  have hsplit := List.length_eq_length_filter_add (l := s.tokens)
    (fun row : TokenRow => decide (row.principal = name))
  simp only [decide_not] at hsplit ⊢
  omega

theorem accessClear_gone (s : Accounts) (r : RepoId) (principal : String) :
    ((s.accessClear r principal).accessRow r principal).isNone := by
  rw [accessRow, Option.isNone_iff_eq_none, List.find?_eq_none]
  intro row hrow
  have hkept := (List.mem_filter.mp hrow).2
  simpa using hkept

/-- The row of an accepted request tells what it did. -/
theorem handleAudited_effects {call : AccountCall} {pseudo : String}
    {row : Option (AuditEntry Id)} (h : s.handleAudited call pseudo = .ok (s', row)) :
    row.toList.filterMap AuditEntry.effect = s.effects s' pseudo call.request := by
  rw [handleAudited, Lib.bind_eq_ok] at h
  obtain ⟨auth, hauth, h⟩ := h
  rw [Lib.bind_eq_ok] at h
  obtain ⟨s'', hhandle, h⟩ := h
  obtain ⟨rfl, rfl⟩ := Prod.mk.inj (Except.ok.inj h)
  rw [handle, Lib.bind_eq_ok] at hhandle
  obtain ⟨auth', -, hhandle⟩ := hhandle
  rw [auditEntry]
  cases hrequest : call.request with
  | createToken body blake3 =>
      rw [hrequest] at hhandle
      obtain ⟨role, scopePath, expiresNs, hcreate⟩ := createToken_ok hhandle
      rw [effects, effects_createToken hcreate]
      rfl
  | revokeToken id =>
      simp only [effects]
      cases s.tokens.find? (fun row => decide (row.id = id) && !row.revoked) <;> rfl
  | deletePrincipal name =>
      rw [hrequest] at hhandle
      obtain ⟨n, hdelete⟩ := deletePrincipal_ok hhandle
      obtain ⟨hstood, hgone, rfl⟩ := principalDelete_gone hdelete
      simp only [effects, hdelete, if_pos (And.intro hstood hgone)]
      rfl
  | setAccess repo body => rfl
  | revokeAccess repo principal =>
      rw [hrequest] at hhandle
      obtain ⟨r, hrepo, rfl⟩ := revokeAccess_ok hhandle
      have hremoved : (s.accessRevoke r principal).1 = (s.accessRow r principal).isSome := rfl
      simp only [effects, hrepo, Option.bind_some, hremoved, accessClear_gone, and_true]
      by_cases hstood : (s.accessRow r principal).isSome = true
      · simp only [if_pos hstood]
        rfl
      · simp only [if_neg hstood]
        rfl

end Accounts

/-- A deletion rewrites names, and no row tells less for it. -/
theorem AuditEntry.scrub_effect {Id : Type} (name pseudo : String) (row : AuditEntry Id) :
    (row.scrub name pseudo).effect = row.effect := by
  rw [scrub]
  split_ifs
  · rw [effect, effect]
    cases row.details <;> rfl
  · rfl

theorem Accounts.scrubbed_effect {Id : Type} (pseudo : String) (request : AccountRequest)
    (row : AuditEntry Id) : (scrubbed pseudo request row).effect = row.effect := by
  cases request with
  | deletePrincipal name => exact row.scrub_effect name pseudo
  | _ => rfl

/-! ### The repositories' tables -/

section

variable {Id : Type} [Platform Id]

theorem NodeStep.changesets_prefix {cmd : LandCommand Id} {st st' : LandState Id} {node : Id}
    {o : NodeOutcome} (h : NodeStep cmd st node o st') :
    st.cx.db.changesets <+: st'.cx.db.changesets := by
  cases h with
  | dropped => exact List.prefix_rfl
  | adopted m canonical hencode hgate hid stored hput =>
      obtain ⟨cas, cat, written, rfl⟩ := putBlobs_ok hput
      exact List.prefix_rfl
  | inserted m canonical hencode hgate hid stored st' hput hinsert =>
      obtain ⟨cas, cat, written, rfl⟩ := putBlobs_ok hput
      obtain ⟨rootTreeId, size, trees, cx, -, hrow, rfl⟩ := landInsert_ok hinsert
      exact ⟨_, (changesetInsertRows_rows hrow).symm⟩

theorem LandTrace.changesets_prefix {cmd : LandCommand Id} {st st' : LandState Id}
    {chain : List Id} {os : List NodeOutcome} (h : LandTrace cmd st chain os st') :
    st.cx.db.changesets <+: st'.cx.db.changesets := by
  induction h with
  | nil => exact List.prefix_rfl
  | cons hnode _ ih => exact hnode.changesets_prefix.trans ih

theorem LandSuccess.changesets_prefix {cx cx' : RepoCx Id} {cmd : LandCommand Id}
    {done : LandDone Id} (h : LandSuccess cx cmd done cx') :
    cx.db.changesets <+: cx'.db.changesets := by
  cases h with
  | replay => exact List.prefix_rfl
  | contained => exact List.prefix_rfl
  | rebased f hout b =>
      obtain ⟨os, hos⟩ := landTrace_exists b.loop
      exact hos.changesets_prefix

/-- What was appended is what is new. -/
theorem insertedRows_of_prefix {db db' : RepoTables Id}
    (hids : (db'.changesets.map (fun row => row.id)).Nodup)
    (hextends : db.changesets <+: db'.changesets) :
    insertedRows db db' = db'.changesets.drop db.changesets.length := by
  obtain ⟨added, hadded⟩ := hextends
  rw [← hadded, List.map_append] at hids
  obtain ⟨-, -, hcross⟩ := List.nodup_append.mp hids
  rw [insertedRows, ← hadded, List.drop_left]
  refine Lib.filter_added (fun row hrow => ?_) fun row hrow => ?_
  · exact decide_eq_false (not_not.mpr (List.mem_map_of_mem hrow))
  · exact decide_eq_true fun hold => hcross _ hold _ (List.mem_map_of_mem hrow) rfl

theorem insertedRows_of_sublist {db db' : RepoTables Id}
    (h : db'.changesets.Sublist db.changesets) : insertedRows db db' = [] := by
  rw [insertedRows, List.filter_eq_nil_iff]
  intro row hrow
  simpa using ⟨row, h.subset hrow, rfl⟩

theorem settledRows_of_eq {db db' : RepoTables Id} (h : db'.lands = db.lands) :
    settledRows db db' = [] := by
  rw [settledRows, h, List.filter_eq_nil_iff]
  intro row hrow
  simpa using hrow

/-- A settled key has a row of its own. -/
theorem settledRows_landSettle {db mid : RepoTables Id} {principal key : String} {head base : Id}
    {state : LandStatus} {result : LandResult Id} (hfree : landGet db principal key = none)
    (hmid : mid.lands = (landInsertPending db principal key head).lands) :
    settledRows db (landSettle mid principal key head base state result) =
      [⟨principal, key, state, some head, some base, some result⟩] := by
  have hpending : (⟨principal, key, .pending, some head, none, none⟩ : LandRow Id).keyed
      principal key = true := by simp [LandRow.keyed]
  have hothers : ∀ row ∈ db.lands, row.keyed principal key = false := by
    intro row hrow
    rw [landGet] at hfree
    simpa using List.find?_eq_none.mp hfree row hrow
  have hstands : (landGet mid principal key).isSome := by
    rw [landGet, hmid, landInsertPending, List.find?_isSome]
    exact ⟨_, List.mem_append_right _ (List.mem_singleton_self _), hpending⟩
  have hkept : db.lands.map (fun row => if row.keyed principal key then
      (⟨principal, key, state, some head, some base, some result⟩ : LandRow Id) else row) =
      db.lands := by
    refine (List.map_congr_left fun row hrow => ?_).trans (List.map_id _)
    simp [hothers row hrow]
  simp only [settledRows, landSettle, if_pos hstands, hmid, landInsertPending, List.map_append,
    hkept, List.map_singleton, hpending, if_true]
  refine Lib.filter_added (fun row hrow => by simpa using hrow) fun row hrow => ?_
  rw [List.mem_singleton.mp hrow, decide_eq_true_eq]
  intro hold
  have hkeyed := hothers _ hold
  simp [LandRow.keyed] at hkeyed

/-- The row of a land that settled its key. -/
theorem LandSuccess.settledRows {cx cx' : RepoCx Id} {cmd : LandCommand Id} {done : LandDone Id}
    (h : LandSuccess cx cmd done cx') :
    (Naatre.settledRows cx.db cx'.db).filterMap (LandRow.effect cx.name) =
      if (landGet cx.db cmd.principal cmd.key).isNone then
        [.landed cx.name cmd.key cmd.head done.landed done.rebased done.conflicts]
      else [] := by
  cases h with
  | replay row result hrow hstate hhead hresult =>
      rw [settledRows_of_eq rfl, hrow]
      rfl
  | contained f hin =>
      simp only [settle]
      rw [settledRows_landSettle f.key_free (rfl : f.pending.db.lands = _), f.key_free]
      split_ifs <;> simp_all [LandRow.effect]
  | rebased f hout b =>
      have hlands : b.movedDb.lands =
          (landInsertPending cx.db cmd.principal cmd.key cmd.head).lands := b.tables.2.1
      simp only [settle]
      rw [settledRows_landSettle f.key_free hlands, f.key_free]
      split_ifs <;> simp_all [LandRow.effect]

theorem repoEffects_nil {db db' : RepoTables Id} (repo : String)
    (hrows : db'.changesets.Sublist db.changesets) (hlands : db'.lands = db.lands) :
    repoEffects repo db db' = [] := by
  rw [repoEffects, insertedRows_of_sublist hrows, settledRows_of_eq hlands]
  rfl

/-! ### What each request appends -/

/-- All the rows of a request. -/
def Appends.all (rows : Appends Id) : List (AuditEntry Id) := rows.work ++ rows.own.toList

/-- A request's own row tells of something else than its changesets. -/
structure Appends.Sorted (rows : Appends Id) : Prop where
  work : ∀ row ∈ rows.work, ∃ effect, row.effect = some effect ∧ effect.isInserted = true
  own : ∀ row ∈ rows.own, ∃ effect, row.effect = some effect ∧ effect.isInserted = false

omit [Platform Id] in
theorem Appends.sorted_nil : (⟨[], none⟩ : Appends Id).Sorted :=
  ⟨fun _ h => absurd h List.not_mem_nil, fun _ h => by cases h⟩

theorem createAppends_sorted (cx : RepoCx Id) (p : PreparedCreate Id) :
    (createAppends cx p).Sorted := by
  rw [createAppends]
  split
  · exact Appends.sorted_nil
  · refine ⟨fun row hrow => ?_, fun _ h => by cases h⟩
    rw [List.mem_singleton.mp hrow]
    exact ⟨_, rfl, rfl⟩

theorem landAppends_sorted (cx : RepoCx Id) (cmd : LandCommand Id) :
    (landAppends cx cmd).Sorted := by
  rw [landAppends]
  split
  · exact Appends.sorted_nil
  · refine ⟨fun row hrow => ?_, fun row hrow => ?_⟩
    · obtain ⟨changeset, -, rfl⟩ := List.mem_map.mp hrow
      exact ⟨_, rfl, rfl⟩
    · simp only at hrow
      split_ifs at hrow
      · cases hrow
        exact ⟨_, rfl, rfl⟩
      · cases hrow

theorem casRefAppends_sorted (cx : RepoCx Id) (nowNs : ℕ) (req : RefRequest Id) :
    (casRefAppends cx nowNs req).Sorted := by
  rw [casRefAppends]
  split
  · exact Appends.sorted_nil
  · refine ⟨fun _ h => absurd h List.not_mem_nil, fun row hrow => ?_⟩
    cases hrow
    exact ⟨_, rfl, rfl⟩

theorem markAppends_sorted (cx : RepoCx Id) (nowNs : ℕ) (principal : String) (id : Id)
    (kind : RedactionKind) (reason : String) :
    (markAppends cx nowNs principal id kind reason).Sorted := by
  rw [markAppends]
  split <;> first
    | exact Appends.sorted_nil
    | refine ⟨fun _ h => absurd h List.not_mem_nil, fun row hrow => ?_⟩
      cases hrow
      exact ⟨_, rfl, rfl⟩

theorem appends_sorted (s : Server Id) (e : Event Id) : (e.appends s).2.Sorted := by
  cases e with
  | createWrite i =>
      simp only [Event.appends]
      split
      · exact createAppends_sorted _ _
      · exact Appends.sorted_nil
  | land r cmd => exact landAppends_sorted _ _
  | casRef r req => exact casRefAppends_sorted _ _ _
  | _ => exact Appends.sorted_nil

/-- A create's row tells of the changeset it inserts, if it inserts one. -/
theorem createAppends_effects {cx : RepoCx Id} {p : PreparedCreate Id} (hwf : TablesWf cx.db)
    {cx' : RepoCx Id} {done : ChangesetCreated Id} (h : persist cx p = .ok (done, cx')) :
    (createAppends cx p).all.filterMap AuditEntry.effect = repoEffects cx.name cx.db cx'.db := by
  obtain ⟨w⟩ := persist_ok h
  have hwf' := TablesWf.insert w.insert_ok rfl hwf
  have hrows := changesetInsertRows_rows w.insert_ok
  have hlands := (changesetInsertRows_tables w.insert_ok).2.1
  obtain ⟨hid, hgeneration⟩ := persist_done h
  rw [repoEffects, settledRows_of_eq hlands, insertedRows_of_prefix hwf'.ids ⟨_, hrows.symm⟩, hrows,
    List.drop_left, createAppends, h]
  simp only [hid, hgeneration]
  rfl

/-- The rows of a land tell of what it inserted and of its key. -/
theorem landAppends_effects {cx : RepoCx Id} {cmd : LandCommand Id} (hwf : TablesWf cx.db) :
    (landAppends cx cmd).all.filterMap AuditEntry.effect =
      repoEffects cx.name cx.db (execute cx cmd).2.db := by
  rcases execute_cases cx cmd with ⟨done, hdone, hland⟩ | ⟨e, cas, cat, herror, -, hcx⟩
  · obtain ⟨cx', hexecute⟩ : ∃ cx', execute cx cmd = (.ok done, cx') :=
      ⟨_, Prod.ext_iff.mpr ⟨hdone, rfl⟩⟩
    rw [hexecute] at hland ⊢
    have hrows := insertedRows_of_prefix (hland.tablesWf hwf).ids hland.changesets_prefix
    have hlands := hland.settledRows
    rw [repoEffects, hlands, hrows, landAppends, hexecute, Appends.all, List.filterMap_append,
      List.filterMap_map]
    congr 1
    · exact congrFun List.filterMap_eq_map _
    · simp only
      split_ifs <;> rfl
  · have hexecute : execute cx cmd = (.error e, (execute cx cmd).2) :=
      Prod.ext_iff.mpr ⟨herror, rfl⟩
    rw [repoEffects_nil cx.name (hcx ▸ List.Sublist.refl _) (hcx ▸ rfl), landAppends, hexecute]
    rfl

theorem casRefAppends_effects (s : Server Id) (r : RepoId) (req : RefRequest Id) :
    (casRefAppends (s.cx r) s.nowNs req).all.filterMap AuditEntry.effect =
      (Event.casRef r req).written s := by
  rw [casRefAppends, Event.written]
  cases hcas : casRef (s.cx r).name (s.dbs r) req with
  | error e =>
      rw [show casRef (s.cx r).name (s.cx r).db req = .error e from hcas]
      rfl
  | ok done =>
      obtain ⟨done, db⟩ := done
      rw [show casRef (s.cx r).name (s.cx r).db req = .ok (done, db) from hcas]
      obtain ⟨-, -, hwritten⟩ := casRef_ok hcas
      cases hwritten <;> rfl

theorem markAppends_effects (cx : RepoCx Id) (nowNs : ℕ) (principal : String) (id : Id)
    (kind : RedactionKind) (reason : String) :
    (markAppends cx nowNs principal id kind reason).all.filterMap AuditEntry.effect =
      markEffects cx.name cx.db nowNs id kind reason := by
  rw [markAppends, markEffects]
  cases (redactionMark cx.db id kind nowNs).1 <;> rfl

/-! ### One step of the server -/

namespace Server

/-- A step that adds nothing to any repository. -/
theorem effects_nil {s s' : Server Id}
    (h : ∀ r, (s'.dbs r).changesets.Sublist (s.dbs r).changesets ∧
      (s'.dbs r).lands = (s.dbs r).lands) : s.effects s' = [] := by
  rw [effects, List.flatMap_eq_nil_iff]
  exact fun repo _ => repoEffects_nil repo.2 (h repo.1).1 (h repo.1).2

/-- A step that touches one repository. -/
theorem effects_one {s s' : Server Id} (hids : (s.repos.map Prod.fst).Nodup) {r : RepoId}
    (hr : r ∈ s.repoIds) (hother : ∀ r', r' ≠ r → s'.dbs r' = s.dbs r') :
    s.effects s' = repoEffects (s.cx r).name (s.dbs r) (s'.dbs r) := by
  obtain ⟨⟨r', name⟩, hrepo, hfst⟩ := List.mem_map.mp hr
  simp only at hfst
  subst hfst
  have hname : (s.cx r').name = name := by
    simp only [cx, Lib.lookup_of_nodup hids hrepo, Option.getD_some]
  rw [effects, Lib.flatMap_of_nodup hids hrepo, hname]
  intro repo _ hne
  rw [hother repo.1 hne]
  exact repoEffects_nil repo.2 (List.Sublist.refl _) rfl

/-- The repositories of the creates in flight are registered. -/
theorem creates_known_of_reach {ok : Server Id → Event Id → Prop} {s : Server Id}
    (h : Reach ok s) : ∀ pending ∈ s.creates, pending.1 ∈ s.repoIds := by
  refine Lib.Reach.invariant (I := fun s => ∀ pending ∈ s.creates, pending.1 ∈ s.repoIds) ?_ ?_ h
  · rintro s ⟨layout, repos, nowNs, graceNs, -, rfl⟩ pending hpending
    exact absurd hpending List.not_mem_nil
  · intro s e s' _ hknown _ he
    have hrepos : s'.repoIds = s.repoIds := congrArg (List.map Prod.fst) (step_config he).2.1
    rw [hrepos]
    intro pending hpending
    have hevent := (step_serve he).1
    cases step_cases he with
    | createLookup r req metas p =>
        rcases List.mem_append.mp hpending with hpending | hpending
        · exact hknown pending hpending
        · rw [List.mem_singleton.mp hpending]
          simpa [Event.known] using hevent
    | createWrite i r p cx => exact hknown pending (List.mem_of_mem_eraseIdx hpending)
    | createRefused i r p => exact hknown pending (List.mem_of_mem_eraseIdx hpending)
    | sgcStep i pass =>
        refine hknown pending ?_
        rw [← (sgcPassStep_frame s pass).creates]
        exact hpending
    | gcStep pass =>
        refine hknown pending ?_
        rw [← (gcPassStep_frame s pass).creates]
        exact hpending
    | crash => exact absurd hpending List.not_mem_nil
    | _ => exact hknown pending hpending

theorem repos_nodup_of_reach {ok : Server Id → Event Id → Prop} {s : Server Id}
    (h : Reach ok s) : (s.repos.map Prod.fst).Nodup := by
  refine Lib.Reach.invariant (I := fun s => (s.repos.map Prod.fst).Nodup) ?_ ?_ h
  · rintro s ⟨layout, repos, nowNs, graceNs, hids, rfl⟩
    exact hids
  · intro s e s' _ hids _ he
    rw [(step_config he).2.1]
    exact hids

/-- The rows of a request tell what it did. -/
theorem appends_effects {s s' : Server Id} {e : Event Id} (hs : Reach (fun _ _ => True) s)
    (hapart : Books.apart e = false) (he : s.step e = some s') :
    (e.appends s).2.all.filterMap AuditEntry.effect = s.effects s' ++ e.written s := by
  have hids := repos_nodup_of_reach hs
  have hwf := tablesWf_of_reach hs
  have hknown := (step_serve he).1
  have hserve := (step_serve he).2
  -- what is neither a create's write nor a land adds no row of either table
  have hquiet : (∀ i, e ≠ .createWrite i) → (∀ r cmd, e ≠ .land r cmd) → s.effects s' = [] := by
    intro hcreate hland
    refine effects_nil fun r => ?_
    have hdb := step_db he r
    generalize s'.dbs r = db' at hdb
    cases hdb with
    | unchanged => exact ⟨List.Sublist.refl _, rfl⟩
    | createWrite i => exact absurd rfl (hcreate i)
    | land cmd => exact absurd rfl (hland r cmd)
    | importGit => cases hapart
    | casRef req done db hmain hredacted hwritten =>
        cases hwritten <;> exact ⟨List.Sublist.refl _, rfl⟩
    | mark => cases hapart
    | gcStep db hcollected => exact ⟨hcollected.changesets, hcollected.lands⟩
  cases e with
  | createWrite i =>
      simp only [serve, createWriteStep, Option.map_eq_some_iff] at hserve
      obtain ⟨⟨r, p⟩, hpending, hserve⟩ := hserve
      have hr := creates_known_of_reach hs _ (List.mem_of_getElem? hpending)
      simp only [Event.appends, hpending, Event.written, List.append_nil]
      -- the write sees what the create's slot leaves
      have hcx : Server.cx { s with creates := s.creates.eraseIdx i } r = s.cx r := rfl
      simp only [hcx] at hserve
      cases hpersist : persist (s.cx r) p with
      | error e =>
          rw [hpersist] at hserve
          rw [effects_nil fun r' => by rw [← hserve]; exact ⟨List.Sublist.refl _, rfl⟩,
            createAppends, hpersist]
          rfl
      | ok done =>
          obtain ⟨done, cx⟩ := done
          rw [hpersist] at hserve
          rw [effects_one hids hr fun r' hne => by rw [← hserve]; exact put_dbs_of_ne _ cx hne,
            createAppends_effects (hwf r) hpersist, ← hserve, put_dbs_self]
          rfl
  | land r cmd =>
      simp only [serve, Option.some.injEq] at hserve
      have hr : r ∈ s.repoIds := by simpa [Event.known] using hknown
      rw [effects_one hids hr fun r' hne => by rw [← hserve]; exact put_dbs_of_ne _ _ hne,
        ← hserve, landStep, put_dbs_self]
      simp only [Event.written, List.append_nil, Event.appends]
      exact landAppends_effects (hwf r)
  | casRef r req =>
      rw [hquiet (fun _ h => by cases h) (fun _ _ h => by cases h), List.nil_append]
      exact casRefAppends_effects s r req
  | importGit => cases hapart
  | mark => cases hapart
  | crash => cases hapart
  | _ =>
      rw [hquiet (fun _ h => by cases h) (fun _ _ h => by cases h)]
      rfl

/-- A mark adds neither changesets nor lands. -/
theorem mark_effects {s s' : Server Id} {r : RepoId} {id : Id} {kind : RedactionKind}
    (he : s.step (.mark r id kind) = some s') : s.effects s' = [] := by
  refine effects_nil fun r' => ?_
  have hdb := step_db he r'
  generalize s'.dbs r' = db' at hdb
  cases hdb with
  | unchanged => exact ⟨List.Sublist.refl _, rfl⟩
  | mark =>
      obtain ⟨redactions, hmark⟩ := redactionMark_db (s.dbs r) id kind s.nowNs
      rw [hmark]
      exact ⟨List.Sublist.refl _, rfl⟩

end Server

/-! ### Every run -/

omit [Platform Id] in
/-- The rows that go to the catalog are those of everything but changesets. -/
theorem Appends.Sorted.own_effects {rows : Appends Id} (h : rows.Sorted) :
    rows.own.toList.filterMap AuditEntry.effect =
      (rows.all.filterMap AuditEntry.effect).filter (fun effect => !effect.isInserted) := by
  rw [all, List.filterMap_append, List.filter_append]
  have hwork : (rows.work.filterMap AuditEntry.effect).filter
      (fun effect => !effect.isInserted) = [] := by
    rw [List.filter_eq_nil_iff]
    intro effect heffect
    obtain ⟨row, hrow, htells⟩ := List.mem_filterMap.mp heffect
    obtain ⟨effect', htells', hinserted⟩ := h.work row hrow
    obtain rfl := Option.some.inj (htells.symm.trans htells')
    simp [hinserted]
  have hown : (rows.own.toList.filterMap AuditEntry.effect).filter
      (fun effect => !effect.isInserted) = rows.own.toList.filterMap AuditEntry.effect := by
    rw [List.filter_eq_self]
    intro effect heffect
    obtain ⟨row, hrow, htells⟩ := List.mem_filterMap.mp heffect
    obtain ⟨effect', htells', hother⟩ := h.own row (Option.mem_toList.mp hrow)
    obtain rfl := Option.some.inj (htells.symm.trans htells')
    simp [hother]
  rw [hwork, hown, List.nil_append]

omit [Platform Id] in
/-- No account request inserts a changeset. -/
theorem Accounts.effects_not_inserted {s s' : Accounts} {pseudo : String}
    {request : AccountRequest} {effect : Effect Id} (h : effect ∈ s.effects s' pseudo request) :
    effect.isInserted = false := by
  cases request with
  | createToken body blake3 =>
      obtain ⟨row, -, rfl⟩ := List.mem_map.mp h
      rfl
  | revokeToken id => exact absurd h List.not_mem_nil
  | deletePrincipal name =>
      rw [effects] at h
      split_ifs at h
      · rw [List.mem_singleton.mp h]
        rfl
      · exact absurd h List.not_mem_nil
  | setAccess repo body =>
      rw [List.mem_singleton.mp h]
      rfl
  | revokeAccess repo principal =>
      rw [effects] at h
      split at h
      · split_ifs at h
        · rw [List.mem_singleton.mp h]
          rfl
        · exact absurd h List.not_mem_nil
      · exact absurd h List.not_mem_nil

namespace Books

/-- The part of what happened that has its row in the catalog. -/
def catalogued (layout : Layout) (history : List (Effect Id)) : List (Effect Id) :=
  match layout with
  | .singleDb => history
  | .dbPerRepo => history.filter (fun effect => !effect.isInserted)

omit [Platform Id] in
theorem catalogued_append (layout : Layout) (history effects : List (Effect Id)) :
    catalogued layout (history ++ effects) =
      catalogued layout history ++ catalogued layout effects := by
  cases layout with
  | singleDb => rfl
  | dbPerRepo => exact List.filter_append _ _

/-- What holds in every run. -/
structure Inv (b : Books Id) : Prop where
  server : Server.Reach (fun _ _ => True) b.server
  told : (b.catalog.all.filterMap AuditEntry.effect).Perm
    (catalogued b.server.layout b.history)
  pending_told : ∀ row ∈ b.catalog.pending, ∃ effect, row.effect = some effect
  single : b.server.layout = .singleDb → b.catalog.pending = []

theorem inv_start {b : Books Id} (h : b.Start) : b.Inv := by
  obtain ⟨hserver, hpending, hfiled, hhistory⟩ := h
  refine ⟨.start hserver, ?_, fun row hrow => ?_, fun _ => hpending⟩
  · rw [Lib.Outbox.all_of_pending_nil hpending, hfiled, hhistory]
    cases b.server.layout <;> exact List.Perm.refl _
  · rw [hpending] at hrow
    exact absurd hrow List.not_mem_nil

omit [Platform Id] in
/-- What is posted beside its effects keeps the log in step. -/
theorem told_post {o : Lib.Outbox (AuditEntry Id)} {layout : Layout}
    {history effects : List (Effect Id)} {now later : List (AuditEntry Id)}
    (htold : (o.all.filterMap AuditEntry.effect).Perm (catalogued layout history))
    (hrows : (now ++ later).filterMap AuditEntry.effect = catalogued layout effects) :
    ((o.post now later).all.filterMap AuditEntry.effect).Perm
      (catalogued layout (history ++ effects)) := by
  refine ((o.post_all now later).filterMap _).trans ?_
  rw [List.filterMap_append, hrows, catalogued_append]
  exact htold.append_right _

theorem inv_commit {b : Books Id} (hinv : b.Inv) {s' : Server Id} {r : RepoId} {rows : Appends Id}
    {effects : List (Effect Id)} (hserver : Server.Reach (fun _ _ => True) s')
    (hlayout : s'.layout = b.server.layout) (hsorted : rows.Sorted)
    (heffects : rows.all.filterMap AuditEntry.effect = effects) :
    (b.commit s' r rows effects).Inv := by
  cases hl : b.server.layout with
  | singleDb =>
      have hcommit : b.commit s' r rows effects =
          { b with
            server := s'
            catalog := b.catalog.post (rows.work ++ rows.own.toList) []
            history := b.history ++ effects } := by
        rw [commit, hl]
      have hpending : (b.catalog.post (rows.work ++ rows.own.toList) []).pending = [] := by
        rw [Lib.Outbox.post, hinv.single hl]
        rfl
      rw [hcommit]
      refine ⟨hserver, ?_, fun row hrow => ?_, fun _ => hpending⟩
      · have htold := hinv.told
        simp only
        rw [hlayout]
        refine told_post htold ?_
        rw [List.append_nil, hl]
        exact heffects
      · simp only at hrow
        rw [hpending] at hrow
        exact absurd hrow List.not_mem_nil
  | dbPerRepo =>
      have hcommit : b.commit s' r rows effects =
          { b with
            server := s'
            catalog := b.catalog.post [] rows.own.toList
            repoLogs := fun r' => if r' = r then b.repoLogs r ++ rows.work else b.repoLogs r'
            history := b.history ++ effects } := by
        rw [commit, hl]
      rw [hcommit]
      refine ⟨hserver, ?_, fun row hrow => ?_, fun hsingle => ?_⟩
      · simp only
        rw [hlayout]
        refine told_post hinv.told ?_
        rw [List.nil_append, hl, hsorted.own_effects, heffects]
        rfl
      · rcases List.mem_append.mp hrow with hrow | hrow
        · exact hinv.pending_told row hrow
        · obtain ⟨effect, htells, -⟩ := hsorted.own row (Option.mem_toList.mp hrow)
          exact ⟨effect, htells⟩
      · simp only at hsingle
        rw [hlayout, hl] at hsingle
        cases hsingle

theorem inv_account {b : Books Id} (hinv : b.Inv) (call : AccountCall) (pseudo : String) :
    (b.accountStep call pseudo).Inv := by
  unfold accountStep
  split
  next => exact hinv
  next accounts row haccepted =>
    have heffects := Accounts.handleAudited_effects haccepted
    have hcatalogued : catalogued b.server.layout
        (b.accounts.effects accounts pseudo call.request : List (Effect Id)) =
          b.accounts.effects accounts pseudo call.request := by
      cases b.server.layout with
      | singleDb => rfl
      | dbPerRepo =>
          refine List.filter_eq_self.mpr fun effect heffect => ?_
          simp [Accounts.effects_not_inserted heffect]
    refine ⟨hinv.server, ?_, ?_, ?_⟩
    · refine told_post ?_ ?_
      · rw [Lib.Outbox.rewrite_all (Accounts.scrubbed_effect pseudo call.request)]
        exact hinv.told
      · rw [List.append_nil, heffects, hcatalogued]
    · simpa [Lib.Outbox.post, Lib.Outbox.rewrite] using hinv.pending_told
    · simpa [Lib.Outbox.post, Lib.Outbox.rewrite] using hinv.single

theorem inv_step {b b' : Books Id} {e : BooksEvent Id} (hinv : b.Inv) (hok : b.BetweenRequests e)
    (he : b.step e = some b') : b'.Inv := by
  cases e with
  | request e =>
      rw [step, requestStep] at he
      split_ifs at he with hapart
      obtain ⟨s', hstep, rfl⟩ := Option.map_eq_some_iff.mp he
      exact inv_commit hinv (.next hinv.server trivial hstep) (Server.step_config hstep).1
        (appends_sorted _ _) (Server.appends_effects hinv.server (by simpa using hapart) hstep)
  | mark r principal id kind reason =>
      obtain ⟨s', hstep, rfl⟩ := Option.map_eq_some_iff.mp he
      refine inv_commit hinv (.next hinv.server trivial hstep) (Server.step_config hstep).1
        (markAppends_sorted _ _ _ _ _ _) ?_
      rw [Server.mark_effects hstep]
      exact markAppends_effects _ _ _ _ _ _
  | account call pseudo =>
      obtain rfl := Option.some.inj he
      exact inv_account hinv call pseudo
  | deliver i =>
      obtain ⟨catalog, hdeliver, rfl⟩ := Option.map_eq_some_iff.mp he
      have hperm := Lib.Outbox.deliver_all hdeliver
      obtain ⟨row, hrow, rfl⟩ := Option.map_eq_some_iff.mp hdeliver
      refine ⟨hinv.server, (hperm.filterMap _).trans hinv.told, fun row hrow => ?_, fun hsingle => ?_⟩
      · exact hinv.pending_told row (List.mem_of_mem_eraseIdx hrow)
      · rw [hinv.single hsingle] at hrow
        cases hrow
  | other tsNs principal action details =>
      obtain rfl := Option.some.inj he
      refine ⟨hinv.server, ?_, ?_, ?_⟩
      · have hnone : catalogued b.server.layout ([] : List (Effect Id)) = [] := by
          cases b.server.layout <;> rfl
        rw [← List.append_nil b.history]
        exact told_post hinv.told hnone.symm
      · simpa [Lib.Outbox.post] using hinv.pending_told
      · simpa [Lib.Outbox.post] using hinv.single
  | crash =>
      rw [step, Option.map_eq_some_iff] at he
      obtain ⟨s', hstep, rfl⟩ := he
      have hlayout := (Server.step_config hstep).1
      -- nothing is on its way when the process stops
      have hpending : b.catalog.pending = [] := by
        cases hl : b.server.layout with
        | singleDb => exact hinv.single hl
        | dbPerRepo => exact hok hl
      refine ⟨.next hinv.server trivial hstep, ?_, fun row hrow => ?_, fun _ => rfl⟩
      · simp only
        rw [hlayout, Lib.Outbox.lose_all hpending]
        exact hinv.told
      · exact absurd hrow List.not_mem_nil

theorem inv_of_reach {b : Books Id} (h : Reach b) : b.Inv :=
  Lib.Reach.invariant (I := Inv) (fun _ hstart => inv_start hstart)
    (fun _ _ _ _ hinv hok he => inv_step hinv hok he) h

/-- The pages tell what the catalog's log does. -/
theorem told_iff_perm (b : Books Id) :
    b.Told ↔ (b.catalog.filed.filterMap AuditEntry.effect).Perm b.history := by
  have heffects : (auditRows b.catalog.filed).reverse.filterMap AuditRow.effect =
      (b.catalog.filed.filterMap AuditEntry.effect).reverse := by
    rw [List.filterMap_reverse, auditRows_effects]
  constructor
  · intro h
    obtain ⟨rows, hrows, hperm⟩ := h ⟨"admin", .admin, none⟩ rfl none rfl
    obtain rfl := (follow_audit rfl rfl _).mp ((hrows rows).mpr rfl)
    rw [heffects] at hperm
    exact (List.reverse_perm _).symm.trans hperm
  · intro h auth hadmin limit hlimit
    refine ⟨(auditRows b.catalog.filed).reverse, follow_audit hadmin hlimit, ?_⟩
    rw [heffects]
    exact (List.reverse_perm _).trans h

/-- The audit list tells what happened exactly in the one database, and
elsewhere as long as no changeset was inserted and no row is on its way. -/
theorem audit_told_iff {b : Books Id} (h : Reach b) :
    b.Told ↔ b.server.layout = .singleDb ∨
      b.catalog.pending = [] ∧ ∀ effect ∈ b.history, effect.isInserted = false := by
  have hinv := inv_of_reach h
  have htold := hinv.told
  rw [told_iff_perm]
  cases hl : b.server.layout with
  | singleDb =>
      rw [hl, Lib.Outbox.all_of_pending_nil (hinv.single hl)] at htold
      exact iff_of_true htold (.inl rfl)
  | dbPerRepo =>
      rw [hl, catalogued, Lib.Outbox.all, List.filterMap_append] at htold
      simp only [reduceCtorEq, false_or]
      constructor
      · intro hperm
        -- the catalog has no room for a row on its way beside all that happened
        have hlength := htold.length_eq
        rw [List.length_append, hperm.length_eq] at hlength
        have hle := List.length_filter_le (fun effect : Effect Id => !effect.isInserted) b.history
        have hnone : (b.catalog.pending.filterMap AuditEntry.effect).length = 0 := by omega
        have hall : (b.history.filter fun effect => !effect.isInserted).length =
            b.history.length := by omega
        refine ⟨List.eq_nil_iff_forall_not_mem.mpr fun row hrow => ?_, fun effect heffect => ?_⟩
        · obtain ⟨effect, htells⟩ := hinv.pending_told row hrow
          have hmem := List.mem_filterMap.mpr ⟨row, hrow, htells⟩
          rw [List.length_eq_zero_iff.mp hnone] at hmem
          exact absurd hmem List.not_mem_nil
        · simpa using List.length_filter_eq_length_iff.mp hall effect heffect
      · rintro ⟨hpending, hnone⟩
        rw [hpending, List.filterMap_nil, List.append_nil] at htold
        refine htold.trans (List.Perm.of_eq ?_)
        exact List.filter_eq_self.mpr fun effect heffect => by simp [hnone effect heffect]

end Books

end

/-! ### A create in a file of its own -/

namespace Books.OwnFile

/-- One repository, in a layout. -/
def start (layout : Layout) : Books PlainId where
  server := Server.boot layout [(1, "r")] 100 10
  accounts := ⟨[(1, "r")], [], [], []⟩
  catalog := ⟨[⟨90, "admin", .other "init" "\x7b\x7d"⟩], []⟩
  repoLogs := fun _ => []
  history := []

/-- A changeset that adds one file. -/
def request : CreateRequest PlainId where
  repoName := "r"
  principal := "ann"
  scope := none
  parents := []
  author := "ann"
  message := "add"
  timestampNs := some 7
  changes := [⟨⟨[], "a"⟩, .add, some (Platform.blobId [97, 10]), some 2, some false⟩]

def created : List (BooksEvent PlainId) :=
  [.request (.putBytes 1 [97, 10]), .request (.record 1 [97, 10]),
    .request (.createLookup 1 request), .request (.createWrite 0)]

theorem start_start (layout : Layout) : (start layout).Start :=
  ⟨⟨layout, [(1, "r")], 100, 10, by decide, rfl⟩, rfl, rfl, rfl⟩

theorem created_between (b : Books PlainId) : ∀ e ∈ created, b.BetweenRequests e := by
  simp [created, BetweenRequests]

end Books.OwnFile

namespace Books

open OwnFile in
/-- In the one database the list an admin reads tells of the create. -/
theorem audit_told_iff_created : ∃ b, Lib.exec step (start .singleDb) created = some b ∧
    (b.server.dbs 1).changesets.length = 1 ∧ b.history ≠ [] ∧ b.Told := by
  have hrun : (Lib.exec step (start .singleDb) created).any (fun b =>
      decide ((b.server.dbs 1).changesets.length = 1) && !b.history.isEmpty &&
        decide (b.server.layout = .singleDb)) = true := by
    decide +kernel
  obtain ⟨b, hb, hholds⟩ := (Option.any_eq_true _ _).mp hrun
  simp only [Bool.and_eq_true, Bool.not_eq_true', List.isEmpty_eq_false_iff, decide_eq_true_eq]
    at hholds
  obtain ⟨⟨hlength, hhistory⟩, hlayout⟩ := hholds
  have hreach : Reach b := Lib.Reach.exec (.start (start_start .singleDb)) created_between hb
  exact ⟨b, hb, hlength, hhistory, (audit_told_iff hreach).mpr (.inl hlayout)⟩

open OwnFile in
/-- In a file of its own the repository has its changeset, and the list an admin
reads tells nothing of it. -/
theorem create_untold : ∃ b, Lib.exec step (start .dbPerRepo) created = some b ∧ Reach b ∧
    b.catalog.pending = [] ∧ (b.server.dbs 1).changesets ≠ [] ∧ ¬b.Told := by
  have hrun : (Lib.exec step (start .dbPerRepo) created).any (fun b =>
      b.catalog.pending.isEmpty && !(b.server.dbs 1).changesets.isEmpty &&
        (b.catalog.filed.filterMap AuditEntry.effect).isEmpty && !b.history.isEmpty) = true := by
    decide +kernel
  obtain ⟨b, hb, hholds⟩ := (Option.any_eq_true _ _).mp hrun
  simp only [Bool.and_eq_true, Bool.not_eq_true', List.isEmpty_iff, List.isEmpty_eq_false_iff]
    at hholds
  obtain ⟨⟨⟨hpending, hrows⟩, hsilent⟩, hhistory⟩ := hholds
  refine ⟨b, hb, Lib.Reach.exec (.start (start_start .dbPerRepo)) created_between hb, hpending,
    hrows, fun htold => ?_⟩
  rw [told_iff_perm, hsilent, List.nil_perm] at htold
  exact hhistory htold

end Books

end Naatre
