import Naatre.Lib.Table
import Naatre.Server.Import
import Naatre.Server.RouteSteps

/-!
What the importer's steps do: the puts of one commit, its rows, the commits of
a run, and the graft.
-/

namespace Naatre

section

variable {Id : Type} [Platform Id]

/-! ### Blob writes -/

/-- One recorded put, behind its tombstone probe. -/
def PutStep (nowNs : ℕ) (cx cx' : RepoCx Id) : Prop :=
  ∃ content, putRecorded nowNs cx content = .ok cx'

/-- Recorded puts, one after the other. -/
abbrev Puts (nowNs : ℕ) : RepoCx Id → RepoCx Id → Prop := Relation.ReflTransGen (PutStep nowNs)

/-- A put touches the blob store and the catalog. -/
theorem putRecorded_ok {nowNs : ℕ} {cx cx' : RepoCx Id} {content : Bytes}
    (h : putRecorded nowNs cx content = .ok cx') :
    redactionActive cx.db (Platform.blobId content) = false ∧
      ∃ cas, casPut cx.cas content = some cas ∧
        cx' =
          { cx with
            cas := cas
            cat := objectRowUpsert cx.cat (Platform.blobId content) content.length nowNs } := by
  unfold putRecorded at h
  simp only at h
  split_ifs at h with hredacted
  split at h
  · cases h
  next cas hcas =>
  cases h
  exact ⟨by simpa using hredacted, cas, hcas, rfl⟩

theorem putRecorded_error {nowNs : ℕ} {cx cx' : RepoCx Id} {content : Bytes}
    {e : ImportError Id} (h : putRecorded nowNs cx content = .error (e, cx')) : cx' = cx := by
  unfold putRecorded at h
  simp only at h
  split_ifs at h
  · simp only [Except.error.injEq, Prod.mk.injEq] at h
    exact h.2.symm
  · split at h
    · simp only [Except.error.injEq, Prod.mk.injEq] at h
      exact h.2.symm
    · cases h

/-- Puts leave everything but the blob store and the catalog. -/
theorem Puts.frame {nowNs : ℕ} {cx cx' : RepoCx Id} (h : Puts nowNs cx cx') :
    ∃ cas cat, cx' = { cx with cas := cas, cat := cat } := by
  induction h with
  | refl => exact ⟨cx.cas, cx.cat, rfl⟩
  | tail _ hstep ih =>
      obtain ⟨cas, cat, rfl⟩ := ih
      obtain ⟨content, hput⟩ := hstep
      obtain ⟨-, cas', -, rfl⟩ := putRecorded_ok hput
      exact ⟨_, _, rfl⟩

/-- The puts of a list of contents, up to the one that failed. -/
theorem putAll_cases {nowNs : ℕ} {cx : RepoCx Id} {contents : List Bytes} :
    (∀ cx', contents.foldlM (putRecorded nowNs) cx = .ok cx' → Puts nowNs cx cx') ∧
      ∀ e cx', contents.foldlM (putRecorded nowNs) cx = .error (e, cx') → Puts nowNs cx cx' := by
  induction contents generalizing cx with
  | nil =>
      refine ⟨fun cx' h => ?_, fun e cx' h => ?_⟩
      · simp only [List.foldlM_nil, pure, Except.pure, Except.ok.injEq] at h
        exact h ▸ .refl
      · simp [List.foldlM_nil, pure, Except.pure] at h
  | cons content contents ih =>
      refine ⟨fun cx' h => ?_, fun e cx' h => ?_⟩
      · rw [List.foldlM_cons, Lib.bind_eq_ok] at h
        obtain ⟨mid, hmid, hrest⟩ := h
        exact .head ⟨content, hmid⟩ (ih.1 cx' hrest)
      · rw [List.foldlM_cons] at h
        match hmid : putRecorded nowNs cx content with
        | .ok mid =>
            rw [hmid] at h
            exact .head ⟨content, hmid⟩ (ih.2 e cx' h)
        | .error (e', mid) =>
            rw [hmid] at h
            simp only [bind, Except.bind, Except.error.injEq, Prod.mk.injEq] at h
            rw [← h.2, putRecorded_error hmid]

mutual

/-- Building a tree only puts blobs. -/
theorem buildTreeInto_puts {nowNs : ℕ} : (tree : GitTree) → ∀ (cx : RepoCx Id) node,
    (∀ built cx', buildTreeInto nowNs cx node tree = .ok (built, cx') → Puts nowNs cx cx') ∧
      ∀ e cx', buildTreeInto nowNs cx node tree = .error (e, cx') → Puts nowNs cx cx'
  | .empty => by
      intro cx node
      refine ⟨fun built cx' h => ?_, fun e cx' h => ?_⟩
      · simp only [buildTreeInto, Except.ok.injEq, Prod.mk.injEq] at h
        exact h.2 ▸ .refl
      · simp [buildTreeInto] at h
  | .entry name entry rest => by
      intro cx node
      refine ⟨fun built cx' h => ?_, fun e cx' h => ?_⟩
      · rw [buildTreeInto, Lib.bind_eq_ok] at h
        obtain ⟨⟨first, mid⟩, hentry, h⟩ := h
        exact ((buildTreeEntry_puts entry cx).1 _ _ hentry).trans
          ((buildTreeInto_puts rest mid _).1 _ _ h)
      · rw [buildTreeInto] at h
        match hentry : buildTreeEntry nowNs cx entry with
        | .error (e', mid) =>
            rw [hentry] at h
            simp only [bind, Except.bind, Except.error.injEq, Prod.mk.injEq] at h
            exact h.2 ▸ (buildTreeEntry_puts entry cx).2 _ _ hentry
        | .ok (first, mid) =>
            rw [hentry] at h
            exact ((buildTreeEntry_puts entry cx).1 _ _ hentry).trans
              ((buildTreeInto_puts rest mid _).2 _ _ h)

theorem buildTreeEntry_puts {nowNs : ℕ} : (entry : GitEntry) → ∀ (cx : RepoCx Id),
    (∀ built cx', buildTreeEntry nowNs cx entry = .ok (built, cx') → Puts nowNs cx cx') ∧
      ∀ e cx', buildTreeEntry nowNs cx entry = .error (e, cx') → Puts nowNs cx cx'
  | .dir _ tree => by
      intro cx
      refine ⟨fun built cx' h => ?_, fun e cx' h => ?_⟩
      · rw [buildTreeEntry, Lib.bind_eq_ok] at h
        obtain ⟨⟨node, mid⟩, hnode, h⟩ := h
        simp only [pure, Except.pure, Except.ok.injEq, Prod.mk.injEq] at h
        exact h.2 ▸ (buildTreeInto_puts tree cx _).1 _ _ hnode
      · rw [buildTreeEntry] at h
        match hnode : buildTreeInto nowNs cx .empty tree with
        | .error (e', mid) =>
            rw [hnode] at h
            simp only [bind, Except.bind, Except.error.injEq, Prod.mk.injEq] at h
            exact h.2 ▸ (buildTreeInto_puts tree cx _).2 _ _ hnode
        | .ok (node, mid) => simp [hnode, bind, Except.bind, pure, Except.pure] at h
  | .blob mode oid content => by
      intro cx
      refine ⟨fun built cx' h => ?_, fun e cx' h => ?_⟩
      · rw [buildTreeEntry] at h
        split_ifs at h with hmode
        rw [Lib.bind_eq_ok] at h
        obtain ⟨mid, hput, h⟩ := h
        simp only [pure, Except.pure, Except.ok.injEq, Prod.mk.injEq] at h
        exact h.2 ▸ .single ⟨content, hput⟩
      · rw [buildTreeEntry] at h
        split_ifs at h with hmode
        · simp only [Except.error.injEq, Prod.mk.injEq] at h
          exact h.2 ▸ .refl
        · match hput : putRecorded nowNs cx content with
          | .error (e', mid) =>
              rw [hput] at h
              simp only [bind, Except.bind, Except.error.injEq, Prod.mk.injEq] at h
              rw [← h.2, putRecorded_error hput]
          | .ok mid => simp [hput, bind, Except.bind, pure, Except.pure] at h

end

/-! ### One commit -/

/-- What the import of one commit wrote. -/
structure CommitImported (nowNs : ℕ) (cx : RepoCx Id) (p : PreparedCommit Id)
    (cx' : RepoCx Id) where
  diffed : RepoCx Id
  stored : RepoCx Id
  node : MemNode Id
  rootTreeId : Id
  size : ℕ
  trees : List (TreeRow Id)
  cs_free : redactionActive cx.db p.csId = false
  diff_ok : p.contents.foldlM (putRecorded nowNs) cx = .ok diffed
  build_ok : buildTreeNode nowNs diffed p.gitTree = .ok (node, stored)
  collect_ok : node.collect = .ok (rootTreeId, size, trees)
  insert_ok : changesetInsertRows stored
    { id := p.csId
      canonical := p.canonical
      generation := p.generation
      principal := importPrincipal
      rootTreeId := rootTreeId
      blobs := changeBlobs p.canonical.cs.changes
      trees := trees
      gitMapOid := some p.gitOid } = some cx'

theorem CommitImported.puts {nowNs : ℕ} {cx cx' : RepoCx Id} {p : PreparedCommit Id}
    (c : CommitImported nowNs cx p cx') : Puts nowNs cx c.stored :=
  (putAll_cases.1 _ c.diff_ok).trans ((buildTreeInto_puts p.gitTree _ _).1 _ _ c.build_ok)

theorem importCommit_ok {nowNs : ℕ} {cx cx' : RepoCx Id} {p : PreparedCommit Id}
    (h : importCommit nowNs cx p = .ok cx') : Nonempty (CommitImported nowNs cx p cx') := by
  unfold importCommit at h
  split_ifs at h with hcs
  split at h
  · cases h
  next diffed hdiff =>
  split at h
  · cases h
  next node stored hbuild =>
  split at h
  · cases h
  next rootTreeId size trees hcollect =>
  split at h
  · cases h
  next cx' hinsert =>
  cases h
  exact ⟨⟨diffed, stored, node, rootTreeId, size, trees, by simpa using hcs, hdiff, hbuild,
    hcollect, hinsert⟩⟩

theorem importCommit_error {nowNs : ℕ} {cx cx' : RepoCx Id} {p : PreparedCommit Id}
    {e : ImportError Id} (h : importCommit nowNs cx p = .error (e, cx')) :
    Puts nowNs cx cx' := by
  unfold importCommit at h
  split_ifs at h with hcs
  · cases h; exact .refl
  split at h
  next a hdiff =>
    obtain ⟨e', mid⟩ := a
    cases h
    exact putAll_cases.2 _ _ hdiff
  next diffed hdiff =>
  have hputs := putAll_cases.1 _ hdiff
  split at h
  next a hbuild =>
    obtain ⟨e', mid⟩ := a
    cases h
    exact hputs.trans ((buildTreeInto_puts p.gitTree _ _).2 _ _ hbuild)
  next node stored hbuild =>
  have hputs := hputs.trans ((buildTreeInto_puts p.gitTree _ _).1 _ _ hbuild)
  split at h
  · cases h; exact hputs
  split at h
  · cases h; exact hputs
  · cases h

/-- The commits of a run, imported one after the other. -/
inductive Imported (nowNs : ℕ) : RepoCx Id → List (PreparedCommit Id) → RepoCx Id → Prop
  | nil (cx : RepoCx Id) : Imported nowNs cx [] cx
  | cons {cx mid cx' : RepoCx Id} {p : PreparedCommit Id} {ps : List (PreparedCommit Id)} :
      Nonempty (CommitImported nowNs cx p mid) → Imported nowNs mid ps cx' →
      Imported nowNs cx (p :: ps) cx'

/-- An import keeps every changeset. -/
theorem Imported.keeps {nowNs : ℕ} {cx cx' : RepoCx Id} {ps : List (PreparedCommit Id)}
    (h : Imported nowNs cx ps cx') : cx.db.Keeps cx'.db := by
  induction h with
  | nil => exact .refl _
  | cons hcommit _ ih =>
      obtain ⟨c⟩ := hcommit
      obtain ⟨cas, cat, hstored⟩ := c.puts.frame
      have hkeeps := changesetInsertRows_keeps c.insert_ok
      rw [hstored] at hkeeps
      exact hkeeps.trans ih

/-- What the import of one commit leaves of the other tables. -/
theorem CommitImported.tables {nowNs : ℕ} {cx cx' : RepoCx Id} {p : PreparedCommit Id}
    (c : CommitImported nowNs cx p cx') :
    cx'.db.refs = cx.db.refs ∧ cx'.db.lands = cx.db.lands ∧
      cx'.db.redactions = cx.db.redactions ∧ cx.db.gitMap ⊆ cx'.db.gitMap := by
  obtain ⟨cas, cat, hstored⟩ := c.puts.frame
  have htables := changesetInsertRows_tables c.insert_ok
  rw [hstored] at htables
  exact htables

theorem Imported.tables {nowNs : ℕ} {cx cx' : RepoCx Id} {ps : List (PreparedCommit Id)}
    (h : Imported nowNs cx ps cx') :
    cx'.db.refs = cx.db.refs ∧ cx'.db.lands = cx.db.lands ∧
      cx'.db.redactions = cx.db.redactions ∧ cx.db.gitMap ⊆ cx'.db.gitMap := by
  induction h with
  | nil => exact ⟨rfl, rfl, rfl, List.Subset.refl _⟩
  | cons hcommit _ ih =>
      obtain ⟨c⟩ := hcommit
      obtain ⟨hrefs, hlands, hredactions, hgit⟩ := c.tables
      obtain ⟨hrefs', hlands', hredactions', hgit'⟩ := ih
      exact ⟨hrefs'.trans hrefs, hlands'.trans hlands, hredactions'.trans hredactions,
        fun _ hrow => hgit' (hgit hrow)⟩

/-- Every commit of the list has its row. -/
theorem Imported.rows {nowNs : ℕ} {cx cx' : RepoCx Id} {ps : List (PreparedCommit Id)}
    (h : Imported nowNs cx ps cx') {p : PreparedCommit Id} (hp : p ∈ ps) :
    ∃ row, changesetGet cx'.db p.csId = some row ∧ row.canonical = p.canonical ∧
      row.parents = p.canonical.cs.parents ∧ row.generation = p.generation := by
  induction h with
  | nil => exact absurd hp List.not_mem_nil
  | cons hcommit hrest ih =>
      rcases List.mem_cons.mp hp with rfl | hp
      · obtain ⟨c⟩ := hcommit
        obtain ⟨hfresh, hcx⟩ := changesetInsertRows_some c.insert_ok
        have hget := changesetGet_append_new (congrArg (fun c => c.db.changesets) hcx) hfresh
        exact ⟨_, hrest.keeps _ _ hget, rfl, rfl, rfl⟩
      · exact ih hp

/-- The commits imported are the first ones, and an error leaves only puts
behind them. -/
theorem importCommits_cases {nowNs : ℕ} {cx : RepoCx Id} {ps : List (PreparedCommit Id)} :
    (∀ cx', importCommits nowNs cx ps = .ok cx' → Imported nowNs cx ps cx') ∧
      ∀ e cx', importCommits nowNs cx ps = .error (e, cx') →
        ∃ k mid, Imported nowNs cx (ps.take k) mid ∧ Puts nowNs mid cx' := by
  induction ps generalizing cx with
  | nil =>
      refine ⟨fun cx' h => ?_, fun e cx' h => ?_⟩
      · simp only [importCommits, Except.ok.injEq] at h
        exact h ▸ .nil cx
      · simp [importCommits] at h
  | cons p ps ih =>
      refine ⟨fun cx' h => ?_, fun e cx' h => ?_⟩
      · rw [importCommits] at h
        split at h
        · cases h
        next mid hmid => exact .cons (importCommit_ok hmid) (ih.1 cx' h)
      · rw [importCommits] at h
        split at h
        next a hmid =>
          cases h
          exact ⟨0, cx, .nil cx, importCommit_error hmid⟩
        next mid hmid =>
          obtain ⟨k, last, hlast, hputs⟩ := ih.2 e cx' h
          exact ⟨k + 1, last, .cons (importCommit_ok hmid) hlast, hputs⟩

/-! ### The run -/

/-- The scan of a run that got that far. -/
structure Scanned (cx : RepoCx Id) (git : GitRepo) (opts : ImportOptions) (head : GitOid) where
  batch : List GitCommit
  scan : ScanState Id
  batch_ok : collectAncestors git (fun oid => (cx.db.gitMap.lookup oid).isSome) head = some batch
  scan_ok : batch.foldlM (scanCommit git opts cx.id cx.db) .start = .ok scan

/-- A run's stores: untouched; or the first commits of its batch imported, with
puts of a failed one behind them; or the whole batch and the graft. -/
inductive RunBackend (nowNs : ℕ) (cx : RepoCx Id) (git : GitRepo) (opts : ImportOptions)
    (head : GitOid) : RepoCx Id → Prop
  | untouched : RunBackend nowNs cx git opts head cx
  | commits (sc : Scanned cx git opts head) (k : ℕ) (mid cx' : RepoCx Id)
      (himported : Imported nowNs cx (sc.scan.importable.take k) mid)
      (hputs : Puts nowNs mid cx') : RunBackend nowNs cx git opts head cx'
  | grafted (sc : Scanned cx git opts head) (last : RepoCx Id) (main : MainOutcome)
      (db : RepoTables Id)
      (himported : Imported nowNs cx sc.scan.importable last)
      (hgraft : graftMain last.db (refGet cx.db "main") (mainGitOid cx.db) sc.scan.importable
        head = .ok (main, db)) :
      RunBackend nowNs cx git opts head { last with db := db }

theorem runBackend_cases (nowNs : ℕ) (cx : RepoCx Id) (git : GitRepo) (opts : ImportOptions)
    (head : GitOid) (stop : ℕ) :
    RunBackend nowNs cx git opts head (runBackend nowNs cx git opts head stop).2 := by
  unfold runBackend
  split
  · exact .untouched
  · exact .untouched
  next batch hne hbatch =>
  simp only
  split
  · exact .untouched
  · exact .untouched
  split
  · exact .untouched
  next scan hscan =>
  split
  · exact .untouched
  let sc : Scanned cx git opts head := ⟨batch, scan, hbatch, hscan⟩
  split
  next e cx' himport =>
    obtain ⟨k, mid, himported, hputs⟩ := importCommits_cases.2 _ _ himport
    rw [List.take_take] at himported
    exact .commits sc _ mid cx' himported hputs
  next last himport =>
    have himported := importCommits_cases.1 _ himport
    split_ifs with hstop hnone
    · exact .commits sc stop last last himported .refl
    · exact .commits sc stop last last himported .refl
    · rw [List.take_of_length_le (by omega)] at himported
      split
      · exact .commits sc scan.importable.length last last
          (by rw [List.take_length]; exact himported) .refl
      next main db hgraft => exact .grafted sc last main db himported hgraft

/-! ### The graft -/

/-- The best commit is one of the list, or the best of before. -/
theorem bestHead_mem {head : GitOid} {ps : List (PreparedCommit Id)} {i : ℕ}
    {best : Option ((ℕ × Bool × ℕ) × Id)} {found : (ℕ × Bool × ℕ) × Id}
    (h : bestHead head ps i best = some found) :
    best = some found ∨ ∃ p ∈ ps, p.csId = found.2 := by
  induction ps generalizing i best with
  | nil => exact .inl h
  | cons p ps ih =>
      simp only [bestHead] at h
      rcases ih h with hbest | ⟨q, hq, hcs⟩
      · split_ifs at hbest
        · cases hbest
          exact .inr ⟨p, List.mem_cons_self, rfl⟩
        · exact .inl hbest
      · exact .inr ⟨q, List.mem_cons_of_mem _ hq, hcs⟩

/-- The best commit above the previous tip is one of the list that descends
from it. -/
theorem chainDescending_mem {db : RepoTables Id} {previousTip : Id} {head : GitOid}
    {ps : List (PreparedCommit Id)} {i : ℕ} {best : Option ((ℕ × Bool × ℕ) × Id)}
    {found : (ℕ × Bool × ℕ) × Id}
    (h : chainDescending db previousTip head ps i best = some (some found)) :
    best = some found ∨
      ∃ p ∈ ps, p.csId = found.2 ∧ descendsFrom db p previousTip = some true := by
  induction ps generalizing i best with
  | nil =>
      simp only [chainDescending, Option.some.injEq] at h
      exact .inl h
  | cons p ps ih =>
      simp only [chainDescending] at h
      split at h
      · cases h
      next hno =>
        rcases ih h with hbest | ⟨q, hq, hrest⟩
        · exact .inl hbest
        · exact .inr ⟨q, List.mem_cons_of_mem _ hq, hrest⟩
      next hyes =>
        rcases ih h with hbest | ⟨q, hq, hrest⟩
        · split_ifs at hbest
          · cases hbest
            exact .inr ⟨p, List.mem_cons_self, rfl, hyes⟩
          · exact .inl hbest
        · exact .inr ⟨q, List.mem_cons_of_mem _ hq, hrest⟩

/-- What the graft did with `main`: nothing, or it set it to a commit of the
batch, or moved it to one that descends from the tip it had mapped before. -/
inductive Grafted (db : RepoTables Id) (mainOid : Option GitOid)
    (importable : List (PreparedCommit Id)) : RepoTables Id → Prop
  | unchanged : Grafted db mainOid importable db
  | set (p : PreparedCommit Id) (hp : p ∈ importable) (habsent : refGet db "main" = none) :
      Grafted db mainOid importable
        { db with refs := db.refs ++ [⟨"main", some p.csId, 1, importPrincipal⟩] }
  | moved (p : PreparedCommit Id) (hp : p ∈ importable) (current : RefRow Id)
      (hcurrent : refGet db "main" = some current) (oldOid : GitOid) (previousTip : Id)
      (hoid : mainOid = some oldOid) (hmap : db.gitMap.lookup oldOid = some previousTip)
      (hdescends : descendsFrom db p previousTip = some true) :
      Grafted db mainOid importable
        { db with refs := db.refs.map (fun row =>
            if row.name = "main" then
              { row with
                target := some p.csId
                version := current.version + 1
                lastPrincipal := importPrincipal }
            else row) }

theorem importRefMove_ok {db db' : RepoTables Id} {expected : Option ℕ} {target : Id}
    (h : importRefMove db expected target = .ok db') :
    (refGet db "main" = none ∧
        db' = { db with refs := db.refs ++ [⟨"main", some target, 1, importPrincipal⟩] }) ∨
      ∃ current, refGet db "main" = some current ∧
        db' = { db with refs := db.refs.map (fun row =>
          if row.name = "main" then
            { row with
              target := some target
              version := current.version + 1
              lastPrincipal := importPrincipal }
          else row) } := by
  unfold importRefMove refCas at h
  match expected, hcurrent : refGet db "main" with
  | none, none =>
      simp only [hcurrent, Except.ok.injEq] at h
      exact .inl ⟨rfl, h.symm⟩
  | none, some current => simp [hcurrent] at h
  | some version, none => simp [hcurrent] at h
  | some version, some current =>
      by_cases hversion : current.version = version
      · simp only [hcurrent, hversion, ne_eq, not_true_eq_false, if_false, Except.ok.injEq] at h
        exact .inr ⟨current, rfl, by rw [← h, hversion]⟩
      · simp [hcurrent, hversion] at h

/-- What the graft reports, beside what it did. -/
theorem graftMain_reports {db db' : RepoTables Id} {mainRow : Option (RefRow Id)}
    {mainOid : Option GitOid} {importable : List (PreparedCommit Id)} {head : GitOid}
    {main : MainOutcome} (h : graftMain db mainRow mainOid importable head = .ok (main, db')) :
    ((main = .unchanged ∨ main = .refused) ∧ db' = db) ∨
      (main = .set ∧ refGet db "main" = none ∧ ∃ p ∈ importable,
        db' = { db with refs := db.refs ++ [⟨"main", some p.csId, 1, importPrincipal⟩] }) ∨
      main = .fastForwarded ∧ ∃ p ∈ importable, ∃ current oldOid previousTip,
        refGet db "main" = some current ∧ mainOid = some oldOid ∧
        db.gitMap.lookup oldOid = some previousTip ∧
        descendsFrom db p previousTip = some true ∧
        db' = { db with refs := db.refs.map (fun row =>
          if row.name = "main" then
            { row with
              target := some p.csId
              version := current.version + 1
              lastPrincipal := importPrincipal }
          else row) } := by
  unfold graftMain at h
  split at h
  · split at h
    · cases h
    next target htarget =>
      rw [Lib.map_eq_ok] at h
      obtain ⟨moved, hmove, heq⟩ := h
      obtain ⟨hmain, rfl⟩ := Prod.mk.inj heq
      obtain ⟨found, hfound, rfl⟩ := Option.map_eq_some_iff.mp htarget
      obtain ⟨p, hp, hcs⟩ := (bestHead_mem hfound).resolve_left (by simp)
      rcases importRefMove_ok hmove with ⟨habsent, rfl⟩ | ⟨current, hcurrent, rfl⟩
      · rw [← hcs]
        exact .inr (.inl ⟨hmain.symm, habsent, p, hp, rfl⟩)
      · simp [importRefMove, refCas, hcurrent] at hmove
  · split at h
    · simp only [Except.ok.injEq, Prod.mk.injEq] at h
      exact .inl ⟨.inr h.1.symm, h.2.symm⟩
    next oldOid =>
      split at h
      next previousTip row hmap hrow =>
        split at h
        · cases h
        · simp only [Except.ok.injEq, Prod.mk.injEq] at h
          exact .inl ⟨.inl h.1.symm, h.2.symm⟩
        next target htarget =>
          rw [Lib.map_eq_ok] at h
          obtain ⟨moved, hmove, heq⟩ := h
          obtain ⟨hmain, rfl⟩ := Prod.mk.inj heq
          obtain ⟨found, hfound, heq⟩ := Option.map_eq_some_iff.mp htarget
          obtain ⟨found', rfl, rfl⟩ := Option.map_eq_some_iff.mp heq
          obtain ⟨p, hp, hcs, hdescends⟩ := (chainDescending_mem hfound).resolve_left (by simp)
          rcases importRefMove_ok hmove with ⟨habsent, rfl⟩ | ⟨current, hcurrent, rfl⟩
          · simp [hrow] at habsent
          · rw [← hcs]
            exact .inr (.inr ⟨hmain.symm, p, hp, current, oldOid, previousTip, hcurrent, rfl, hmap,
              hdescends, rfl⟩)
      · cases h

theorem graftMain_cases {db db' : RepoTables Id} {mainRow : Option (RefRow Id)}
    {mainOid : Option GitOid} {importable : List (PreparedCommit Id)} {head : GitOid}
    {main : MainOutcome} (h : graftMain db mainRow mainOid importable head = .ok (main, db')) :
    Grafted db mainOid importable db' := by
  rcases graftMain_reports h with ⟨-, rfl⟩ | ⟨-, habsent, p, hp, rfl⟩ |
    ⟨-, p, hp, current, oldOid, previousTip, hcurrent, hoid, hmap, hdescends, rfl⟩
  · exact .unchanged
  · exact .set p hp habsent
  · exact .moved p hp current hcurrent oldOid previousTip hoid hmap hdescends

/-- The graft moves a ref and touches nothing else. -/
theorem Grafted.refs_only {db db' : RepoTables Id} {mainOid : Option GitOid}
    {importable : List (PreparedCommit Id)} (h : Grafted db mainOid importable db') :
    ∃ refs, db' = { db with refs := refs } := by
  cases h with
  | unchanged => exact ⟨db.refs, rfl⟩
  | set => exact ⟨_, rfl⟩
  | moved => exact ⟨_, rfl⟩

theorem RunBackend.keeps {nowNs : ℕ} {cx cx' : RepoCx Id} {git : GitRepo}
    {opts : ImportOptions} {head : GitOid} (h : RunBackend nowNs cx git opts head cx') :
    cx.db.Keeps cx'.db := by
  cases h with
  | untouched => exact .refl _
  | commits sc k mid cx' himported hputs =>
      obtain ⟨cas, cat, rfl⟩ := hputs.frame
      exact himported.keeps
  | grafted sc last main db himported hgraft =>
      obtain ⟨refs, rfl⟩ := (graftMain_cases hgraft).refs_only
      exact himported.keeps.trans (.of_eq rfl)

/-- A walk that finds its target reached it from the stack. -/
theorem descendsLoop_true {db : RepoTables Id} {target : Id} {fuel : ℕ} {stack seen : List Id}
    (h : descendsLoop db target fuel stack seen = some true) :
    ∃ x ∈ stack, Relation.ReflTransGen (Lib.Edge (parentsOf db)) x target := by
  induction fuel, stack, seen using descendsLoop.induct db target with
  | case1 => simp [descendsLoop] at h
  | case2 => simp [descendsLoop] at h
  | case3 fuel stack seen => exact ⟨target, List.mem_cons_self, .refl⟩
  | case4 fuel cs stack seen hne hseen ih =>
      simp only [descendsLoop, hne, if_false, hseen, if_true] at h
      obtain ⟨x, hx, hpath⟩ := ih h
      exact ⟨x, List.mem_cons_of_mem _ hx, hpath⟩
  | case5 fuel cs stack seen hne hseen hnone =>
      simp [descendsLoop, hne, hseen, hnone] at h
  | case6 fuel cs stack seen hne hseen parents hparents ih =>
      simp only [descendsLoop, hne, if_false, hseen, hparents] at h
      obtain ⟨x, hx, hpath⟩ := ih h
      rcases List.mem_append.mp hx with hx | hx
      · exact ⟨cs, List.mem_cons_self, .head (.of_succ hparents (List.mem_reverse.mp hx)) hpath⟩
      · exact ⟨x, List.mem_cons_of_mem _ hx, hpath⟩

/-- What the git id of `main` says of the tables it was read from. -/
theorem mainGitOid_some {db : RepoTables Id} {oid : GitOid} (h : mainGitOid db = some oid) :
    ∃ row target, refGet db "main" = some row ∧ row.target = some target ∧
      (oid, target) ∈ db.gitMap := by
  unfold mainGitOid at h
  split at h
  · cases h
  next target htarget =>
    obtain ⟨row, hrow, htarget⟩ := Option.bind_eq_some_iff.mp htarget
    obtain ⟨pair, hpair, rfl⟩ := Option.map_eq_some_iff.mp h
    have hcs : pair.2 = target := by simpa using List.find?_some hpair
    exact ⟨row, target, hrow, htarget, hcs ▸ List.mem_of_find?_eq_some hpair⟩

/-! ### The scan -/

/-- A commit that passed the scan: every parent resolved, and the generation
counted from theirs. -/
structure PreparedReady (git : GitRepo) (opts : ImportOptions) (repoId : RepoId)
    (db : RepoTables Id) (batch : List (GitOid × Id × ℕ)) (c : GitCommit)
    (p : PreparedCommit Id) where
  parents : List Id
  generations : List ℕ
  oid_eq : p.gitOid = c.oid
  tree_eq : p.gitTree = c.tree
  repo_eq : p.canonical.cs.repoId = repoId
  parents_eq : p.canonical.cs.parents = parents
  conflicts_eq : p.canonical.cs.conflicts = []
  parents_ok : c.parents.mapM (resolveParent db.gitMap batch) = some parents
  generations_ok : c.parents.mapM (parentGeneration db db.gitMap batch) = some generations
  generation_eq : p.generation = generations.foldl (fun g parent => max g (parent + 1)) 0

theorem prepareCommit_ready {git : GitRepo} {opts : ImportOptions} {repoId : RepoId}
    {db : RepoTables Id} {batch : List (GitOid × Id × ℕ)} {c : GitCommit} {p : PreparedCommit Id}
    (h : prepareCommit git opts repoId db db.gitMap batch c = .ok (.ready p)) :
    Nonempty (PreparedReady git opts repoId db batch c p) := by
  unfold prepareCommit at h
  split at h
  · cases h
  split at h
  · cases h
  split at h
  · cases h
  next parents hparents =>
  simp only at h
  split at h
  · cases h
  next canonical hencode =>
  split at h
  · cases h
  next generations hgenerations =>
  have hcs := Changeset.encode_ok hencode
  cases h
  exact ⟨⟨parents, generations, rfl, rfl, by rw [hcs], by rw [hcs], by rw [hcs], hparents,
    hgenerations, rfl⟩⟩

/-- What the scan does with one commit. -/
theorem scanCommit_ok {git : GitRepo} {opts : ImportOptions} {repoId : RepoId}
    {db : RepoTables Id} {st st' : ScanState Id} {c : GitCommit}
    (h : scanCommit git opts repoId db st c = .ok st') :
    (st'.importable = st.importable ∧ st'.batch = st.batch) ∨
      ∃ p, Nonempty (PreparedReady git opts repoId db st.batch c p) ∧
        st'.importable = st.importable ++ [p] ∧
        st'.batch = (c.oid, p.csId, p.generation) :: st.batch := by
  unfold scanCommit at h
  split at h
  · cases h
  next p hready =>
    cases h
    exact .inr ⟨p, prepareCommit_ready hready, rfl, rfl⟩
  · cases h
    exact .inl ⟨rfl, rfl⟩
  · cases h
    exact .inl ⟨rfl, rfl⟩

/-! ### Parents of a batch -/

omit [Platform Id] in
/-- The commits collected are the unmapped ones: the walk stops at a mapped
commit before it enters it. -/
theorem collectLoop_unmapped {git : GitRepo} {mapped : GitOid → Bool} {fuel : ℕ}
    {stack : List GitFrame} {visited : List GitOid} {out batch : List GitCommit}
    (h : collectLoop git mapped fuel stack visited out = some batch)
    (hstack : ∀ c, .emit c ∈ stack → mapped c.oid = false)
    (hout : ∀ c ∈ out, mapped c.oid = false) : ∀ c ∈ batch, mapped c.oid = false := by
  induction fuel, stack, visited, out using collectLoop.induct git mapped with
  | case1 => simp [collectLoop] at h
  | case2 =>
      simp only [collectLoop, Option.some.injEq] at h
      exact h ▸ hout
  | case3 fuel c stack visited out ih =>
      simp only [collectLoop] at h
      refine ih h (fun c' hc' => hstack c' (List.mem_cons_of_mem _ hc')) fun c' hc' => ?_
      rcases List.mem_append.mp hc' with hc' | hc'
      · exact hout c' hc'
      · exact List.mem_singleton.mp hc' ▸ hstack c List.mem_cons_self
  | case4 fuel oid stack visited out hskip ih =>
      simp only [collectLoop, hskip, if_true] at h
      exact ih h (fun c' hc' => hstack c' (List.mem_cons_of_mem _ hc')) hout
  | case5 fuel oid stack visited out hskip hnone =>
      simp [collectLoop, hskip, hnone] at h
  | case6 fuel oid stack visited out hskip c hfind ih =>
      simp only [collectLoop, hskip, if_false, hfind] at h
      refine ih h (fun c' hc' => ?_) hout
      simp only [List.mem_append, List.mem_reverse, List.mem_map, List.mem_cons,
        GitFrame.emit.injEq] at hc'
      rcases hc' with ⟨p, -, hp⟩ | rfl | hc'
      · cases hp
      · have hoid : c'.oid = oid := by simpa using List.find?_some hfind
        rw [hoid]
        simpa using (not_or.mp hskip).2
      · exact hstack c' (List.mem_cons_of_mem _ hc')

/-- The generation of a stored changeset. -/
def generationOf (db : RepoTables Id) (id : Id) : Option ℕ :=
  (changesetGet db id).map (·.generation)

/-- The parents of a batch commit are rows of the repository or commits before
it in the batch, and its generation is counted from theirs. -/
def ParentsResolved (db : RepoTables Id) (before : List (PreparedCommit Id))
    (p : PreparedCommit Id) : Prop :=
  ∃ gens, List.Forall₂ (fun parent g => generationOf db parent = some g ∨
      ∃ q ∈ before, q.csId = parent ∧ q.generation = g) p.canonical.cs.parents gens ∧
    p.generation = gens.foldl (fun g parent => max g (parent + 1)) 0

/-- Every commit of the list is resolved by those before it. -/
def BatchResolved (db : RepoTables Id) (ps : List (PreparedCommit Id)) : Prop :=
  ∀ before p after, ps = before ++ p :: after → ParentsResolved db before p

theorem BatchResolved.take {db : RepoTables Id} {ps : List (PreparedCommit Id)}
    (h : BatchResolved db ps) (k : ℕ) : BatchResolved db (ps.take k) := by
  intro before p after heq
  refine h before p (after ++ ps.drop k) ?_
  calc ps = ps.take k ++ ps.drop k := (List.take_append_drop k ps).symm
    _ = before ++ p :: (after ++ ps.drop k) := by rw [heq]; simp

theorem BatchResolved.append {db : RepoTables Id} {ps : List (PreparedCommit Id)}
    {p : PreparedCommit Id} (h : BatchResolved db ps) (hp : ParentsResolved db ps p) :
    BatchResolved db (ps ++ [p]) :=
  Lib.EachBehind.append h hp

/-- What the scan keeps of the commits it passed. -/
structure ScanSound (db : RepoTables Id) (st : ScanState Id) : Prop where
  resolved : BatchResolved db st.importable
  unmapped : ∀ row ∈ st.batch, db.gitMap.lookup row.1 = none
  known : ∀ row ∈ st.batch, ∃ q ∈ st.importable, q.csId = row.2.1 ∧ q.generation = row.2.2

/-- A git parent resolves to one changeset for the id and for the generation:
a batch commit is not mapped. -/
theorem PreparedReady.resolved {git : GitRepo} {opts : ImportOptions} {repoId : RepoId}
    {db : RepoTables Id} {st : ScanState Id} {c : GitCommit} {p : PreparedCommit Id}
    (ready : PreparedReady git opts repoId db st.batch c p) (hst : ScanSound db st) :
    ParentsResolved db st.importable p := by
  refine ⟨ready.generations, ?_, ready.generation_eq⟩
  rw [ready.parents_eq]
  refine Lib.forall₂_join (Lib.forall₂_of_mapM ready.parents_ok)
    (Lib.forall₂_of_mapM ready.generations_ok) fun oid _ parent g hparent hg => ?_
  unfold resolveParent at hparent
  unfold parentGeneration at hg
  cases hbatch : st.batch.lookup oid with
  | none =>
      cases hmap : db.gitMap.lookup oid with
      | none => simp [hmap, hbatch] at hparent
      | some cs =>
          simp only [hmap, Option.some.injEq] at hparent
          simp only [hbatch, hmap, Option.bind_eq_bind, Option.bind_some, Option.pure_def,
            Option.bind_eq_some_iff, Option.some.injEq] at hg
          obtain ⟨row, hrow, hgen⟩ := hg
          rw [hparent] at hrow
          exact .inl (by rw [generationOf, hrow, Option.map_some, hgen])
  | some found =>
      have hrow : (oid, found) ∈ st.batch := Lib.mem_of_lookup hbatch
      have hmap := hst.unmapped _ hrow
      simp only [hmap, hbatch, Option.map_some, Option.some.injEq] at hparent
      simp only [hbatch, Option.some.injEq] at hg
      obtain ⟨q, hq, hcs, hgen⟩ := hst.known _ hrow
      exact .inr ⟨q, hq, hcs.trans hparent, hgen.trans hg⟩

/-- The commits of a run's batch resolve one after the other. -/
theorem Scanned.resolved {cx : RepoCx Id} {git : GitRepo} {opts : ImportOptions} {head : GitOid}
    (sc : Scanned cx git opts head) : BatchResolved cx.db sc.scan.importable := by
  have hunmapped := collectLoop_unmapped sc.batch_ok (by simp) (by simp)
  have hsound : ScanSound cx.db sc.scan := by
    refine Lib.foldlM_invariant (I := ScanSound cx.db) sc.scan_ok ?_ ?_
    · exact ⟨fun before p after h => by simp [ScanState.start] at h, by simp [ScanState.start],
        by simp [ScanState.start]⟩
    · intro st c hc st' hst hstep
      rcases scanCommit_ok hstep with ⟨himportable, hbatch⟩ | ⟨p, ⟨ready⟩, himportable, hbatch⟩
      · exact ⟨himportable ▸ hst.resolved, hbatch ▸ hst.unmapped,
          by rw [hbatch, himportable]; exact hst.known⟩
      · refine ⟨himportable ▸ hst.resolved.append (ready.resolved hst), ?_, ?_⟩
        · rw [hbatch]
          intro row hrow
          rcases List.mem_cons.mp hrow with rfl | hrow
          · simpa using hunmapped c hc
          · exact hst.unmapped row hrow
        · rw [hbatch, himportable]
          intro row hrow
          rcases List.mem_cons.mp hrow with rfl | hrow
          · exact ⟨p, by simp, rfl, rfl⟩
          · obtain ⟨q, hq, hrest⟩ := hst.known row hrow
            exact ⟨q, List.mem_append_left _ hq, hrest⟩
  exact hsound.resolved

end

end Naatre
