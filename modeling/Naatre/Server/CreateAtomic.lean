import Naatre.Core.Plain
import Naatre.Lib.Session
import Naatre.Server.DeriveSteps
import Naatre.Server.Routes
import Naatre.Server.Schema

/-!
The write of a create, statement by statement (`routes/changesets.rs` `persist`,
`db.rs` `changeset_insert`, `derive.rs` `enqueue_changeset`).

`changeset_insert` opens and commits a transaction of its own, and the queue's
statements follow it, each on its own. A deriver is whatever answer its call
gives; its own storage is not kept here.
-/

namespace Naatre

section

variable (Id : Type) [Platform Id]

/-- One statement of the write. -/
inductive CreateStatement
  | insert (table : Table) (row : table.Row Id)
  | insertIgnore (table : Table) (row : table.Row Id)
  | replace (table : Table) (row : table.Row Id)
  | audit (tsNs : ℕ) (principal action detailsJson : String)
  | enqueuePending (key : DeriveKey Id)
  | insertDone (key : DeriveKey Id) (output : Bytes) (parents : List Id)
  /-- the upsert of `derive_poison_now` -/
  | poisonRow (key : DeriveKey Id)
  /-- the upsert of `derive_fail_attempt` -/
  | failRow (key : DeriveKey Id)
  | report (key : DeriveKey Id) (reason : String) (tsNs : ℕ)
  /-- the report of `derive_fail_attempt`, at the last attempt -/
  | reportLast (key : DeriveKey Id) (reason : String) (tsNs : ℕ)

end

section

variable {Id : Type} [Platform Id]

/-! ### Statements -/

/-- Two rows of one primary key, for the tables a create inserts into. -/
def Table.sameKey : (table : Table) → table.Row Id → table.Row Id → Bool
  | .changesets => fun (a b : InRepo (ChangesetColumns Id)) => decide (a.row.id = b.row.id)
  | .changesetParents => fun (a b : InRepo (ParentColumns Id)) =>
      decide (a.repoId = b.repoId ∧ a.row.cs = b.row.cs ∧ a.row.ord = b.row.ord)
  | .fileChanges => fun (a b : InRepo (ChangeColumns Id)) =>
      decide (a.repoId = b.repoId ∧ a.row.cs = b.row.cs ∧ a.row.change.path = b.row.change.path)
  | .repoBlobs => fun (a b : InRepo Id) => decide (a.repoId = b.repoId ∧ a.row = b.row)
  | .trees => fun (a b : TreeColumns Id) => decide (a.id = b.id)
  | .treeEntries => fun (a b : EntryColumns Id) =>
      decide (a.treeId = b.treeId ∧ a.entry.name = b.entry.name)
  | .repoTrees => fun (a b : InRepo Id) => decide (a.repoId = b.repoId ∧ a.row = b.row)
  | _ => fun _ _ => false

namespace Database

/-- A row of this primary key stands. -/
def hasKey (db : Database Id) (table : Table) (row : table.Row Id) : Bool :=
  (db table).any fun r => table.sameKey row r

def deriveRows (db : Database Id) : List (DeriveRow Id) := db .deriveState

def setDeriveRows (db : Database Id) (rows : List (DeriveRow Id)) : Database Id :=
  Function.update db .deriveState rows

def addReport (db : Database Id) (report : DeriveReport Id) : Database Id :=
  db.insert .deriveReports [report]

/-- `changeset_exists`. -/
def hasChangeset (db : Database Id) (cs : Id) : Bool :=
  (db .changesets : List (InRepo (ChangesetColumns Id))).any fun row => decide (row.row.id = cs)

end Database

/-- What a statement does; `none` where it fails. -/
def CreateStatement.exec (db : Database Id) : CreateStatement Id → Option (Database Id)
  | .insert table row => if db.hasKey table row then none else some (db.insert table [row])
  | .insertIgnore table row =>
      if db.hasKey table row then some db else some (db.insert table [row])
  | .replace table row =>
      some (Function.update db table ((db table).filter (fun r => !table.sameKey row r) ++ [row]))
  | .audit tsNs principal action detailsJson =>
      some (db.auditAppend tsNs principal action detailsJson)
  | .enqueuePending key => some (db.setDeriveRows (deriveEnqueuePending db.deriveRows key))
  | .insertDone key output parents =>
      let taint := collapseTaint (deriveParentOutputs db.deriveRows key.kind key.repoId parents)
      (deriveStateInsertDone db.deriveRows key output taint).map db.setDeriveRows
  | .poisonRow key => some (db.setDeriveRows (deriveUpsert db.deriveRows { key, state := .poison }
      fun row => { row with state := .poison, leaseExpiresNs := none }))
  | .failRow key =>
      if db.hasChangeset key.cs then
        let attempts := ((deriveGet db.deriveRows key).map (·.attempts)).getD 0 + 1
        let state : DeriveState := if deriveMaxAttempts ≤ attempts then .poison else .pending
        some (db.setDeriveRows (deriveUpsert db.deriveRows { key, state, attempts }
          fun row => { row with state, leaseExpiresNs := none, attempts }))
      else some db
  | .report key reason tsNs => some (db.addReport ⟨key, reason, tsNs⟩)
  | .reportLast key reason tsNs =>
      if db.hasChangeset key.cs ∧
          (deriveGet db.deriveRows key).any (fun row => decide (row.state = .poison)) then
        some (db.addReport ⟨key, reason, tsNs⟩)
      else some db

/-! ### The program -/

/-- `changeset_insert_rows`, in order. -/
def changesetInsertStatements (repoId : RepoId) (repoName : String) (rec : ChangesetInsert Id) :
    List (CreateStatement Id) :=
  let changeset : InRepo (ChangesetColumns Id) :=
    ⟨repoId, ⟨rec.id, rec.canonical, rec.generation, rec.principal, rec.rootTreeId⟩⟩
  let parent := fun (p : Id × ℕ) => (⟨repoId, ⟨rec.id, p.1, p.2⟩⟩ : InRepo (ParentColumns Id))
  let change := fun c => (⟨repoId, ⟨rec.id, c⟩⟩ : InRepo (ChangeColumns Id))
  let member := fun id => (⟨repoId, id⟩ : InRepo Id)
  let treeWrite : TreeRow Id → List (CreateStatement Id) := fun t =>
    [CreateStatement.insertIgnore .trees (⟨t.id, repoId, t.canonical⟩ : TreeColumns Id)] ++
      t.canonical.tree.entries.map
        (fun e => CreateStatement.replace .treeEntries (⟨t.id, e⟩ : EntryColumns Id)) ++
      [CreateStatement.insertIgnore .repoTrees (member t.id)]
  [CreateStatement.insert .changesets changeset] ++
    rec.canonical.cs.parents.zipIdx.map
      (fun p => CreateStatement.insert .changesetParents (parent p)) ++
    rec.canonical.cs.changes.map (fun c => CreateStatement.insert .fileChanges (change c)) ++
    rec.blobs.map (fun id => CreateStatement.insertIgnore .repoBlobs (member id)) ++
    rec.trees.flatMap treeWrite ++
    [CreateStatement.audit rec.canonical.cs.timestampNs rec.principal "changeset_create"
      ("\x7b\"changeset\":\"" ++ Platform.toHex rec.id ++ "\",\"generation\":" ++
        toString rec.generation ++ ",\"repo\":\"" ++ repoName ++ "\"\x7d")]

/-- One registered kind: its id, and the answer of its deriver where it is
eager. -/
abbrev KindCall := ℕ × Option DeriveOutcome

def KindCall.key (repoId : RepoId) (cs : Id) (kind : KindCall) : DeriveKey Id :=
  ⟨kind.1, repoId, cs⟩

/-- The statement that gives a kind its row. -/
def KindCall.rowStatement (repoId : RepoId) (cs : Id) (parents : List Id) (kind : KindCall) :
    CreateStatement Id :=
  let key : DeriveKey Id := kind.key repoId cs
  match kind.2 with
  | none => .enqueuePending key
  | some (.ok output) =>
      if deriveMaxOutputBytes < output.length then .poisonRow key
      else .insertDone key output parents
  | some (.walkBudget _) => .poisonRow key
  | some (.walkDeadline _) | some (.fail _) => .failRow key

/-- The report that follows it. -/
def KindCall.reports (repoId : RepoId) (cs : Id) (nowNs : ℕ) (kind : KindCall) :
    List (CreateStatement Id) :=
  let key : DeriveKey Id := kind.key repoId cs
  match kind.2 with
  | none => []
  | some (.ok output) =>
      if deriveMaxOutputBytes < output.length then
        [.report key (sizeCapReason output.length) nowNs]
      else []
  | some (.walkBudget budget) => [.report key (walkBudgetReason budget) nowNs]
  | some (.walkDeadline reason) => [.report key reason nowNs]
  | some (.fail reason) => [.reportLast key reason nowNs]

/-- `enqueue_changeset`. -/
def enqueueStatements (repoId : RepoId) (rec : ChangesetInsert Id) (kinds : List KindCall) :
    List (CreateStatement Id) :=
  kinds.flatMap fun kind =>
    kind.rowStatement repoId rec.id rec.canonical.cs.parents ::
      kind.reports repoId rec.id rec.canonical.cs.timestampNs

/-- The checks of `persist`, and what it then inserts. -/
def createRecord (cx : RepoCx Id) (p : PreparedCreate Id) :
    Except (ApiError Id) (ChangesetInsert Id) :=
  let blobs := changeBlobs p.canonical.cs.changes
  if redactionActive cx.db p.csId then
    .error (.new .objectRedacted ("changeset " ++ Platform.toHex p.csId ++
      " is redacted in this repo; recreating it is refused"))
  else
  let redacted := redactionsActiveAmong cx.db blobs
  if redacted ≠ [] then
    .error (.new .objectRedacted
      ("blobs are redacted in this repo; referencing them is refused: " ++
        String.intercalate ", " (redacted.map Platform.toHex)))
  else
  let missing := missingBlobs cx blobs
  if missing ≠ [] then
    .error ((ApiError.new .validation
      "referenced blobs are missing; upload them first").withDetails (.missingBlobs missing))
  else match MemNode.load cx.trees p.parentRoot with
  | .error e => .error (mapDeriveCreate e)
  | .ok parent =>
  match parent.apply p.canonical.cs.changes with
  | .error e => .error (dualityError e)
  | .ok node =>
  match node.collect with
  | .error e => .error (mapDeriveCreate e)
  | .ok (rootTreeId, _, trees) => .ok
      { id := p.csId
        canonical := p.canonical
        generation := p.generation
        principal := p.principal
        rootTreeId := rootTreeId
        blobs := blobs
        trees := trees
        gitMapOid := none }

/-- What the write works with beside its database file. -/
structure CreateEnv (Id : Type) where
  id : RepoId
  name : String
  catIsDb : Bool
  cas : List (Id × Bytes)
  cat : Catalog Id

def CreateEnv.cx (env : CreateEnv Id) (db : Database Id) : RepoCx Id where
  id := env.id
  name := env.name
  catIsDb := env.catIsDb
  cas := env.cas
  cat := env.cat
  trees := db.treeRows
  snapshots := db .snapshots
  db := db.tables env.id

/-- The file the write leaves, and its answer; `none` where the process stopped.
An open transaction does not outlive either. -/
def createAnswer (rec : ChangesetInsert Id) :
    Lib.Session (Database Id) × Option Lib.Fault →
      Database Id × Option (Except (ApiError Id) (ChangesetCreated Id))
  | (s, none) => (s.committed, some (.ok ⟨rec.id, rec.rootTreeId, rec.generation⟩))
  | (s, some .error) => (s.committed, some (.error .internal))
  | (s, some .crash) => (s.committed, none)

/-- The write of a create. -/
def runPersist (env : CreateEnv Id) (db : Database Id) (p : PreparedCreate Id)
    (kinds : List KindCall) (faults : ℕ → Option Lib.Fault) :
    Database Id × Option (Except (ApiError Id) (ChangesetCreated Id)) :=
  match createRecord (env.cx db) p with
  | .error e => (db, some (.error e))
  | .ok rec =>
      let steps := Lib.transaction (changesetInsertStatements env.id env.name rec) ++
        (enqueueStatements env.id rec kinds).map .run
      createAnswer rec (Lib.runSession CreateStatement.exec faults 0 ⟨db, none⟩ steps)

/-! ### What a create stores -/

/-- What a create stores of its changeset, beside the queue. -/
structure CreateRows (repoId : RepoId) (rec : ChangesetInsert Id) (db : Database Id) : Prop where
  changeset : (⟨repoId, ⟨rec.id, rec.canonical, rec.generation, rec.principal, rec.rootTreeId⟩⟩ :
    InRepo (ChangesetColumns Id)) ∈ (db .changesets : List (InRepo (ChangesetColumns Id)))
  parents : ∀ p ∈ rec.canonical.cs.parents.zipIdx,
    (⟨repoId, ⟨rec.id, p.1, p.2⟩⟩ : InRepo (ParentColumns Id)) ∈
      (db .changesetParents : List (InRepo (ParentColumns Id)))
  changes : ∀ c ∈ rec.canonical.cs.changes,
    (⟨repoId, ⟨rec.id, c⟩⟩ : InRepo (ChangeColumns Id)) ∈
      (db .fileChanges : List (InRepo (ChangeColumns Id)))
  blobs : ∀ id ∈ rec.blobs, (⟨repoId, id⟩ : InRepo Id) ∈ (db .repoBlobs : List (InRepo Id))
  trees : ∀ t ∈ rec.trees, ∃ row ∈ (db .trees : List (TreeColumns Id)), row.id = t.id
  entries : ∀ t ∈ rec.trees, ∀ e ∈ t.canonical.tree.entries,
    ∃ row ∈ (db .treeEntries : List (EntryColumns Id)), row.treeId = t.id ∧ row.entry.name = e.name
  repoTrees : ∀ t ∈ rec.trees, (⟨repoId, t.id⟩ : InRepo Id) ∈ (db .repoTrees : List (InRepo Id))

/-- Everything a create stores: each registered kind has its row as well. -/
structure CreateStored (repoId : RepoId) (rec : ChangesetInsert Id) (kinds : List KindCall)
    (db : Database Id) : Prop extends CreateRows repoId rec db where
  queue : ∀ kind ∈ kinds, (deriveGet db.deriveRows (kind.key repoId rec.id)).isSome

/-- Everything a create stores is there or the file is as it was, and it is as it
was where the create answers an error. -/
def CreateAtomic (env : CreateEnv Id) (p : PreparedCreate Id) (kinds : List KindCall)
    (before after : Database Id) (answer : Option (Except (ApiError Id) (ChangesetCreated Id))) :
    Prop :=
  ((∃ rec, createRecord (env.cx before) p = .ok rec ∧ CreateStored env.id rec kinds after) ∨
      after = before) ∧
    ∀ e, answer = some (.error e) → after = before

/-- No row of its key stands in the way of an eager deriver's insert. -/
def CreateStatement.Free (db : Database Id) : CreateStatement Id → Prop
  | .insertDone key _ _ => deriveGet db.deriveRows key = none
  | _ => True

/-- The transaction does not commit (a fault meets it, or a primary key stands in
its way); or after it every statement succeeds up to the end, or up to a stop of
the process that comes when each registered kind has its row. -/
def CreateUnbroken (repoId : RepoId) (repoName : String) (rec : ChangesetInsert Id)
    (kinds : List KindCall) (db : Database Id) (faults : ℕ → Option Lib.Fault) : Prop :=
  let inserts := changesetInsertStatements repoId repoName rec
  let queue := enqueueStatements repoId rec kinds
  (inserts.foldlM CreateStatement.exec db = none ∨
      ∃ i < inserts.length + 2, faults i ≠ none) ∨
    ∃ k ≤ queue.length, (∀ i < k, faults (inserts.length + 2 + i) = none) ∧
      (∀ st ∈ queue.take k, st.Free db) ∧
      (k < queue.length → faults (inserts.length + 2 + k) = some .crash) ∧
      ∀ kind ∈ kinds,
        kind.rowStatement repoId rec.id rec.canonical.cs.parents ∈ queue.take k ∨
          (deriveGet db.deriveRows (kind.key repoId rec.id)).isSome

/-! ### The inserts -/

namespace Database

theorem mem_insert {db : Database Id} {table table' : Table} {rows : List (table.Row Id)}
    {row : table'.Row Id} (h : row ∈ db table') : row ∈ db.insert table rows table' := by
  by_cases ht : table' = table
  · subst ht
    rw [insert_self]
    exact List.mem_append_left _ h
  · rw [insert_of_ne db rows ht]
    exact h

theorem mem_insert_self {db : Database Id} {table : Table} {row : table.Row Id} :
    row ∈ db.insert table [row] table := by
  rw [insert_self]
  exact List.mem_append_right _ (List.mem_singleton_self row)

@[simp] theorem deriveRows_setDeriveRows (db : Database Id) (rows : List (DeriveRow Id)) :
    (db.setDeriveRows rows).deriveRows = rows :=
  Function.update_self (β := fun table : Table => List (table.Row Id)) Table.deriveState rows db

theorem setDeriveRows_of_ne (db : Database Id) (rows : List (DeriveRow Id)) {table : Table}
    (h : table ≠ .deriveState) : db.setDeriveRows rows table = db table :=
  Function.update_of_ne h ..

theorem addReport_of_ne (db : Database Id) (report : DeriveReport Id) {table : Table}
    (h : table ≠ .deriveReports) : db.addReport report table = db table :=
  Function.update_of_ne h ..

@[simp] theorem deriveRows_addReport (db : Database Id) (report : DeriveReport Id) :
    (db.addReport report).deriveRows = db.deriveRows :=
  addReport_of_ne db report Table.noConfusion

end Database

theorem Table.eq_of_sameKey {a b : InRepo Id}
    (h : decide (a.repoId = b.repoId ∧ a.row = b.row) = true) : a = b := by
  obtain ⟨hrepo, hrow⟩ := of_decide_eq_true h
  cases a
  cases b
  cases hrepo
  cases hrow
  rfl

theorem Table.sameKey_treeEntries {a b : EntryColumns Id} :
    Table.sameKey .treeEntries a b = true ↔ a.treeId = b.treeId ∧ a.entry.name = b.entry.name :=
  decide_eq_true_iff

namespace CreateStatement

/-- The statements of the transaction: rows are added, and only a row of
`tree_entries` is replaced. -/
def Insertion : CreateStatement Id → Prop
  | .insert table _ | .insertIgnore table _ => table ≠ .treeEntries ∧ table ≠ .deriveState
  | .replace table _ => table = .treeEntries
  | .audit _ _ _ _ => True
  | _ => False

/-- What an insertion leaves stored. -/
def Holds (db : Database Id) : CreateStatement Id → Prop
  | .insert table row => row ∈ db table
  | .insertIgnore table row => row ∈ db table ∨ ∃ r ∈ db table, table.sameKey row r = true
  | .replace table row => row ∈ db table ∨ ∃ r ∈ db table, table.sameKey row r = true
  | _ => True

theorem exec_holds {db db' : Database Id} {st : CreateStatement Id}
    (h : exec db st = some db') : st.Holds db' := by
  cases st with
  | insert table row =>
      simp only [exec] at h
      split at h
      next => cases h
      next =>
        cases h
        exact Database.mem_insert_self
  | insertIgnore table row =>
      simp only [exec] at h
      split at h
      next hkey =>
        cases h
        exact .inr (List.any_eq_true.mp hkey)
      next =>
        cases h
        exact .inl Database.mem_insert_self
  | replace table row =>
      cases h
      left
      rw [Function.update_self]
      exact List.mem_append_right _ (List.mem_singleton_self _)
  | _ => trivial

/-- A row stays, but for one of `tree_entries`. -/
theorem exec_mem {db db' : Database Id} {st : CreateStatement Id} (hst : st.Insertion)
    (h : exec db st = some db') {table : Table} (ht : table ≠ .treeEntries) {row : table.Row Id}
    (hrow : row ∈ db table) : row ∈ db' table := by
  cases st with
  | insert table' row' =>
      simp only [exec] at h
      split at h
      next => cases h
      next =>
        cases h
        exact Database.mem_insert hrow
  | insertIgnore table' row' =>
      simp only [exec] at h
      split at h
      next =>
        cases h
        exact hrow
      next =>
        cases h
        exact Database.mem_insert hrow
  | replace table' row' =>
      cases h
      have hst : table' = .treeEntries := hst
      rw [Function.update_of_ne (hst ▸ ht)]
      exact hrow
  | audit =>
      cases h
      exact Database.mem_insert hrow
  | _ => exact hst.elim

/-- An entry of a tree stays, up to its replacement by one of its name. -/
theorem exec_entry {db db' : Database Id} {st : CreateStatement Id} (hst : st.Insertion)
    (h : exec db st = some db') {row : EntryColumns Id}
    (hrow : ∃ r ∈ (db .treeEntries : List (EntryColumns Id)),
      row.treeId = r.treeId ∧ row.entry.name = r.entry.name) :
    ∃ r ∈ (db' .treeEntries : List (EntryColumns Id)),
      row.treeId = r.treeId ∧ row.entry.name = r.entry.name := by
  obtain ⟨r, hr, hid, hname⟩ := hrow
  cases st with
  | insert table' row' =>
      simp only [exec] at h
      split at h
      next => cases h
      next =>
        cases h
        exact ⟨r, Database.mem_insert hr, hid, hname⟩
  | insertIgnore table' row' =>
      simp only [exec] at h
      split at h
      next =>
        cases h
        exact ⟨r, hr, hid, hname⟩
      next =>
        cases h
        exact ⟨r, Database.mem_insert hr, hid, hname⟩
  | replace table' row' =>
      cases h
      have hst : table' = .treeEntries := hst
      subst hst
      rw [Function.update_self]
      by_cases hsame : Table.sameKey .treeEntries row' r = true
      · obtain ⟨hid', hname'⟩ := Table.sameKey_treeEntries.mp hsame
        exact ⟨row', List.mem_append_right _ (List.mem_singleton_self _),
          hid.trans hid'.symm, hname.trans hname'.symm⟩
      · exact ⟨r, List.mem_append_left _ (List.mem_filter.mpr ⟨hr, by simpa using hsame⟩),
          hid, hname⟩
  | audit =>
      cases h
      exact ⟨r, Database.mem_insert hr, hid, hname⟩
  | _ => exact hst.elim


theorem Holds.mono {db db' : Database Id} {st st' : CreateStatement Id} (hst : st.Insertion)
    (hexec : exec db st = some db') (hst' : st'.Insertion) (h : st'.Holds db) :
    st'.Holds db' := by
  cases st' with
  | insert table row => exact exec_mem hst hexec hst'.1 h
  | insertIgnore table row =>
      rcases h with h | ⟨r, hr, hkey⟩
      · exact .inl (exec_mem hst hexec hst'.1 h)
      · exact .inr ⟨r, exec_mem hst hexec hst'.1 hr, hkey⟩
  | replace table row =>
      have htable : table = .treeEntries := hst'
      subst htable
      right
      have hentry : ∃ r ∈ (db .treeEntries : List (EntryColumns Id)),
          EntryColumns.treeId row = r.treeId ∧ (EntryColumns.entry row).name = r.entry.name := by
        rcases h with h | ⟨r, hr, hkey⟩
        · exact ⟨row, h, rfl, rfl⟩
        · exact ⟨r, hr, Table.sameKey_treeEntries.mp hkey⟩
      obtain ⟨r, hr, hkey⟩ := exec_entry hst hexec hentry
      exact ⟨r, hr, Table.sameKey_treeEntries.mpr hkey⟩
  | _ => trivial

/-- What stood before a run of insertions, and what each of them inserts, stands
after it. -/
theorem foldlM_holds {statements : List (CreateStatement Id)}
    (hall : ∀ st ∈ statements, st.Insertion) {db db' : Database Id}
    (h : statements.foldlM exec db = some db') :
    (∀ st ∈ statements, st.Holds db') ∧
      ∀ st : CreateStatement Id, st.Insertion → st.Holds db → st.Holds db' := by
  induction statements generalizing db with
  | nil =>
      cases h
      exact ⟨fun st hst => absurd hst List.not_mem_nil, fun st _ hold => hold⟩
  | cons st statements ih =>
      rw [List.foldlM_cons] at h
      obtain ⟨db₁, hexec, hrest⟩ := Option.bind_eq_some_iff.mp h
      have hst := hall st List.mem_cons_self
      obtain ⟨hnew, hold⟩ := ih (fun st hst => hall st (List.mem_cons_of_mem _ hst)) hrest
      refine ⟨fun st' hst' => ?_, fun st' hins hholds => ?_⟩
      · rcases List.mem_cons.mp hst' with rfl | hst'
        · exact hold st' hst (exec_holds hexec)
        · exact hnew st' hst'
      · exact hold st' hins (hholds.mono hst hexec hins)

theorem exec_deriveRows {db db' : Database Id} {st : CreateStatement Id} (hst : st.Insertion)
    (h : exec db st = some db') : db'.deriveRows = db.deriveRows := by
  have hne : ∀ {table : Table} (rows : List (table.Row Id)), table ≠ .deriveState →
      (db.insert table rows).deriveRows = db.deriveRows :=
    fun rows ht => Database.insert_of_ne db rows ht.symm
  cases st with
  | insert table row =>
      simp only [exec] at h
      split at h
      next => cases h
      next =>
        cases h
        exact hne [row] hst.2
  | insertIgnore table row =>
      simp only [exec] at h
      split at h
      next =>
        cases h
        rfl
      next =>
        cases h
        exact hne [row] hst.2
  | replace table row =>
      cases h
      have hst : table = .treeEntries := hst
      subst hst
      exact Function.update_of_ne (fun h => by cases h) _ _
  | audit =>
      cases h
      exact hne _ (fun h => by cases h)
  | _ => exact hst.elim

theorem foldlM_deriveRows {statements : List (CreateStatement Id)}
    (hall : ∀ st ∈ statements, st.Insertion) {db db' : Database Id}
    (h : statements.foldlM exec db = some db') : db'.deriveRows = db.deriveRows := by
  induction statements generalizing db with
  | nil =>
      cases h
      rfl
  | cons st statements ih =>
      rw [List.foldlM_cons] at h
      obtain ⟨db₁, hexec, hrest⟩ := Option.bind_eq_some_iff.mp h
      rw [ih (fun st hst => hall st (List.mem_cons_of_mem _ hst)) hrest,
        exec_deriveRows (hall st List.mem_cons_self) hexec]

end CreateStatement

theorem changesetInsertStatements_insertion (repoId : RepoId) (repoName : String)
    (rec : ChangesetInsert Id) :
    ∀ st ∈ changesetInsertStatements repoId repoName rec, st.Insertion := by
  intro st hst
  simp only [changesetInsertStatements, List.mem_append, List.mem_singleton, List.mem_map,
    List.mem_flatMap] at hst
  rcases hst with ((((rfl | ⟨p, -, rfl⟩) | ⟨c, -, rfl⟩) | ⟨id, -, rfl⟩) |
    ⟨t, -, (rfl | ⟨e, -, rfl⟩) | rfl⟩) | rfl
  all_goals simp [CreateStatement.Insertion]

/-- A transaction that commits stores every row of the changeset, which was not
there before. -/
theorem changesetInsertStatements_stored {repoId : RepoId} {repoName : String}
    {rec : ChangesetInsert Id} {db db' : Database Id}
    (h : (changesetInsertStatements repoId repoName rec).foldlM CreateStatement.exec db =
      some db') :
    CreateRows repoId rec db' ∧ ¬CreateRows repoId rec db ∧ db'.deriveRows = db.deriveRows := by
  have hins := changesetInsertStatements_insertion repoId repoName rec
  have hholds := (CreateStatement.foldlM_holds hins h).1
  have hmem : ∀ st, st ∈ changesetInsertStatements repoId repoName rec → st.Holds db' := hholds
  simp only [changesetInsertStatements, List.mem_append, List.mem_singleton, List.mem_map,
    List.mem_flatMap] at hmem
  refine ⟨?_, fun hrows => ?_, CreateStatement.foldlM_deriveRows hins h⟩
  · constructor
    case changeset => exact hmem _ (.inl (.inl (.inl (.inl (.inl rfl)))))
    case parents =>
      intro p hp
      exact hmem _ (.inl (.inl (.inl (.inl (.inr ⟨p, hp, rfl⟩)))))
    case changes =>
      intro c hc
      exact hmem _ (.inl (.inl (.inl (.inr ⟨c, hc, rfl⟩))))
    case blobs =>
      intro id hid
      rcases hmem _ (.inl (.inl (.inr ⟨id, hid, rfl⟩))) with hrow | ⟨r, hr, hkey⟩
      · exact hrow
      · exact Table.eq_of_sameKey hkey ▸ hr
    case trees =>
      intro t ht
      rcases hmem _ (.inl (.inr ⟨t, ht, .inl (.inl rfl)⟩)) with hrow | ⟨r, hr, hkey⟩
      · exact ⟨_, hrow, rfl⟩
      · exact ⟨r, hr, (of_decide_eq_true hkey).symm⟩
    case entries =>
      intro t ht e he
      rcases hmem _ (.inl (.inr ⟨t, ht, .inl (.inr ⟨e, he, rfl⟩)⟩)) with hrow | ⟨r, hr, hkey⟩
      · exact ⟨_, hrow, rfl, rfl⟩
      · obtain ⟨hid, hname⟩ := Table.sameKey_treeEntries.mp hkey
        exact ⟨r, hr, hid.symm, hname.symm⟩
    case repoTrees =>
      intro t ht
      rcases hmem _ (.inl (.inr ⟨t, ht, .inr rfl⟩)) with hrow | ⟨r, hr, hkey⟩
      · exact hrow
      · exact Table.eq_of_sameKey hkey ▸ hr
  · have hfirst : ∃ db₁, CreateStatement.exec db (.insert .changesets (⟨repoId, ⟨rec.id,
        rec.canonical, rec.generation, rec.principal, rec.rootTreeId⟩⟩ :
          InRepo (ChangesetColumns Id))) = some db₁ := by
      obtain ⟨db₁, hexec, -⟩ := Option.bind_eq_some_iff.mp h
      exact ⟨db₁, hexec⟩
    obtain ⟨db₁, hexec⟩ := hfirst
    simp only [CreateStatement.exec] at hexec
    split at hexec
    next => cases hexec
    next hfree =>
      refine hfree (List.any_eq_true.mpr ⟨_, hrows.changeset, ?_⟩)
      exact decide_eq_true rfl

/-! ### The queue -/

namespace CreateStatement

/-- The key a statement gives a row of the queue. -/
def rowKey : CreateStatement Id → Option (DeriveKey Id)
  | .enqueuePending key | .insertDone key _ _ | .poisonRow key | .failRow key => some key
  | _ => none

/-- The queue's statements for one changeset. -/
def OfQueue (cs : Id) : CreateStatement Id → Prop
  | .enqueuePending key | .insertDone key _ _ | .poisonRow key | .failRow key => key.cs = cs
  | .report _ _ _ | .reportLast _ _ _ => True
  | _ => False

/-- A statement of the queue fails by itself only on a row in its way. -/
theorem exec_isSome {cs : Id} {st : CreateStatement Id} (hst : st.OfQueue cs)
    (db : Database Id) : (exec db st).isSome ↔ st.Free db := by
  cases st with
  | insertDone key output parents =>
      simp only [exec, Option.isSome_map, deriveStateInsertDone, Free]
      cases deriveGet db.deriveRows key with
      | none => simp
      | some row => simp
  | failRow key =>
      simp only [exec]
      split <;> exact ⟨fun _ => trivial, fun _ => rfl⟩
  | reportLast key reason tsNs =>
      simp only [exec]
      split <;> exact ⟨fun _ => trivial, fun _ => rfl⟩
  | enqueuePending | poisonRow | report => exact ⟨fun _ => trivial, fun _ => rfl⟩
  | _ => exact hst.elim

/-- The queue's statements write the queue and its reports alone. -/
theorem exec_frame {cs : Id} {db db' : Database Id} {st : CreateStatement Id}
    (hst : st.OfQueue cs) (h : exec db st = some db') {table : Table}
    (hstate : table ≠ .deriveState) (hreports : table ≠ .deriveReports) :
    db' table = db table := by
  have hrows := fun rows => Database.setDeriveRows_of_ne db rows hstate
  have hreport := fun report => Database.addReport_of_ne db report hreports
  cases st with
  | enqueuePending key =>
      cases h
      exact hrows _
  | insertDone key output parents =>
      obtain ⟨rows, -, rfl⟩ := Option.map_eq_some_iff.mp h
      exact hrows rows
  | poisonRow key =>
      cases h
      exact hrows _
  | failRow key =>
      simp only [exec] at h
      split at h
      next =>
        cases h
        exact hrows _
      next =>
        cases h
        rfl
  | report key reason tsNs =>
      cases h
      exact hreport _
  | reportLast key reason tsNs =>
      simp only [exec] at h
      split at h
      next =>
        cases h
        exact hreport _
      next =>
        cases h
        rfl
  | _ => exact hst.elim

/-- The keys of the queue after a statement: those before it, and its own. -/
theorem exec_keys {cs : Id} {db db' : Database Id} {st : CreateStatement Id}
    (hst : st.OfQueue cs) (hcs : db.hasChangeset cs = true) (h : exec db st = some db')
    (k : DeriveKey Id) :
    (deriveGet db'.deriveRows k).isSome ↔
      (deriveGet db.deriveRows k).isSome ∨ st.rowKey = some k := by
  have hupsert : ∀ (row : DeriveRow Id) set, (deriveGet (deriveUpsert db.deriveRows row set) k).isSome ↔
      (deriveGet db.deriveRows k).isSome ∨ some row.key = some k := by
    intro row set
    rw [deriveGet_upsert]
    by_cases hk : k = row.key
    · rw [if_pos hk, hk]
      simp
    · rw [if_neg hk]
      simp [Ne.symm hk]
  cases st with
  | enqueuePending key =>
      cases h
      rw [Database.deriveRows_setDeriveRows, deriveEnqueuePending, deriveGet_insertIgnore]
      by_cases hk : k = key
      · rw [if_pos hk, hk]
        simp [rowKey]
      · rw [if_neg hk]
        simp [rowKey, Ne.symm hk]
  | insertDone key output parents =>
      obtain ⟨rows, hrows, rfl⟩ := Option.map_eq_some_iff.mp h
      rw [Database.deriveRows_setDeriveRows]
      unfold deriveStateInsertDone at hrows
      split at hrows
      next => cases hrows
      next hfree =>
        cases hrows
        rw [deriveGet_append (Option.not_isSome_iff_eq_none.mp hfree)]
        by_cases hk : k = key
        · rw [if_pos hk, hk]
          simp [rowKey]
        · rw [if_neg hk]
          simp [rowKey, Ne.symm hk]
  | poisonRow key =>
      cases h
      rw [Database.deriveRows_setDeriveRows]
      exact hupsert _ _
  | failRow key =>
      have hkey : db.hasChangeset key.cs = true := by
        rw [show key.cs = cs from hst, hcs]
      simp only [exec, hkey, if_true] at h
      cases h
      rw [Database.deriveRows_setDeriveRows]
      exact hupsert _ _
  | report key reason tsNs =>
      cases h
      simp [rowKey]
  | reportLast key reason tsNs =>
      simp only [exec] at h
      split at h
      next =>
        cases h
        simp [rowKey]
      next =>
        cases h
        simp [rowKey]
  | _ => exact hst.elim

theorem hasChangeset_of_exec {cs : Id} {db db' : Database Id} {st : CreateStatement Id}
    (hst : st.OfQueue cs) (h : exec db st = some db') :
    db'.hasChangeset cs = db.hasChangeset cs := by
  rw [Database.hasChangeset, Database.hasChangeset,
    exec_frame hst h Table.noConfusion Table.noConfusion]

theorem foldlM_frame {cs : Id} {statements : List (CreateStatement Id)}
    (hall : ∀ st ∈ statements, st.OfQueue cs) {db db' : Database Id}
    (h : statements.foldlM exec db = some db') {table : Table}
    (hstate : table ≠ .deriveState) (hreports : table ≠ .deriveReports) :
    db' table = db table := by
  induction statements generalizing db with
  | nil =>
      cases h
      rfl
  | cons st statements ih =>
      rw [List.foldlM_cons] at h
      obtain ⟨db₁, hexec, hrest⟩ := Option.bind_eq_some_iff.mp h
      rw [ih (fun st hst => hall st (List.mem_cons_of_mem _ hst)) hrest,
        exec_frame (hall st List.mem_cons_self) hexec hstate hreports]

theorem foldlM_keys {cs : Id} {statements : List (CreateStatement Id)}
    (hall : ∀ st ∈ statements, st.OfQueue cs) {db db' : Database Id}
    (hcs : db.hasChangeset cs = true) (h : statements.foldlM exec db = some db')
    (k : DeriveKey Id) :
    (deriveGet db'.deriveRows k).isSome ↔
      (deriveGet db.deriveRows k).isSome ∨ k ∈ statements.filterMap rowKey := by
  induction statements generalizing db with
  | nil =>
      cases h
      simp
  | cons st statements ih =>
      rw [List.foldlM_cons] at h
      obtain ⟨db₁, hexec, hrest⟩ := Option.bind_eq_some_iff.mp h
      have hst := hall st List.mem_cons_self
      have hcs₁ : db₁.hasChangeset cs = true := by rw [hasChangeset_of_exec hst hexec, hcs]
      rw [ih (fun st hst => hall st (List.mem_cons_of_mem _ hst)) hcs₁ hrest,
        exec_keys hst hcs hexec, List.filterMap_cons]
      cases st.rowKey with
      | none => simp
      | some key =>
          rw [List.mem_cons, Option.some.injEq, or_assoc, eq_comm (a := key)]

/-- Statements of distinct keys succeed together where each is free beforehand. -/
theorem foldlM_isSome {cs : Id} {statements : List (CreateStatement Id)}
    (hall : ∀ st ∈ statements, st.OfQueue cs) (hnodup : (statements.filterMap rowKey).Nodup)
    {db : Database Id} (hcs : db.hasChangeset cs = true) :
    (statements.foldlM exec db).isSome ↔ ∀ st ∈ statements, st.Free db := by
  induction statements generalizing db with
  | nil => exact ⟨fun _ st hst => absurd hst List.not_mem_nil, fun _ => rfl⟩
  | cons st statements ih =>
      rw [List.foldlM_cons, List.forall_mem_cons]
      have hst := hall st List.mem_cons_self
      have hrest := fun st hst => hall st (List.mem_cons_of_mem _ hst)
      cases hexec : exec db st with
      | none =>
          have hnot : ¬st.Free db := by
            rw [← exec_isSome hst db, hexec]
            exact Bool.noConfusion
          exact ⟨fun h => Bool.noConfusion h, fun h => absurd h.1 hnot⟩
      | some db₁ =>
          have hfree : st.Free db := by
            rw [← exec_isSome hst db, hexec]
            rfl
          have hcs₁ : db₁.hasChangeset cs = true := by rw [hasChangeset_of_exec hst hexec, hcs]
          have hnodup' : (statements.filterMap rowKey).Nodup :=
            hnodup.sublist ((List.sublist_cons_self st statements).filterMap _)
          have hsame : ∀ st' ∈ statements, st'.Free db₁ ↔ st'.Free db := by
            intro st' hst'
            cases st' with
            | insertDone key output parents =>
                have hne : st.rowKey ≠ some key := fun hkey => by
                  rw [List.filterMap_cons_some hkey] at hnodup
                  exact (List.nodup_cons.mp hnodup).1 (List.mem_filterMap.mpr ⟨_, hst', rfl⟩)
                have hkeys := exec_keys hst hcs hexec key
                rw [or_iff_left hne] at hkeys
                rw [Free, Free, ← Option.not_isSome_iff_eq_none, ← Option.not_isSome_iff_eq_none,
                  hkeys]
            | _ => exact Iff.rfl
          show (statements.foldlM exec db₁).isSome ↔ _
          rw [ih hrest hnodup' hcs₁, and_iff_right hfree]
          exact forall₂_congr hsame

end CreateStatement

section

variable {repoId : RepoId} {rec : ChangesetInsert Id} {kinds : List KindCall}

theorem rowKey_rowStatement (cs : Id) (parents : List Id) (kind : KindCall) :
    (kind.rowStatement repoId cs parents).rowKey = some (kind.key repoId cs) := by
  unfold KindCall.rowStatement
  split
  · rfl
  · split <;> rfl
  · rfl
  · rfl
  · rfl

theorem rowKey_reports {cs : Id} {nowNs : ℕ} {kind : KindCall} {st : CreateStatement Id}
    (h : st ∈ kind.reports repoId cs nowNs) : st.rowKey = none := by
  unfold KindCall.reports at h
  split at h
  · cases h
  · split at h
    · rw [List.mem_singleton.mp h]
      rfl
    · cases h
  all_goals
    rw [List.mem_singleton.mp h]
    rfl

theorem enqueueStatements_ofQueue :
    ∀ st ∈ enqueueStatements repoId rec kinds, st.OfQueue rec.id := by
  intro st hst
  obtain ⟨kind, -, hst⟩ := List.mem_flatMap.mp hst
  rcases List.mem_cons.mp hst with rfl | hst
  · unfold KindCall.rowStatement
    split
    · rfl
    · split <;> rfl
    · rfl
    · rfl
    · rfl
  · unfold KindCall.reports at hst
    split at hst
    · cases hst
    · split at hst
      · rw [List.mem_singleton.mp hst]
        trivial
      · cases hst
    all_goals
      rw [List.mem_singleton.mp hst]
      trivial

theorem filterMap_rowKey_enqueue :
    (enqueueStatements repoId rec kinds).filterMap CreateStatement.rowKey =
      kinds.map fun kind => kind.key repoId rec.id := by
  unfold enqueueStatements
  induction kinds with
  | nil => rfl
  | cons kind kinds ih =>
      rw [List.flatMap_cons, List.filterMap_append, ih, List.filterMap_cons,
        rowKey_rowStatement, List.map_cons,
        List.filterMap_eq_nil_iff.mpr fun st hst => rowKey_reports hst]
      rfl

omit [Platform Id] in
theorem key_injective {kinds : List KindCall} (hkinds : (kinds.map Prod.fst).Nodup) {kind kind'}
    (hkind : kind ∈ kinds) (hkind' : kind' ∈ kinds) {cs : Id}
    (h : kind.key repoId cs = kind'.key repoId cs) : kind = kind' :=
  List.inj_on_of_nodup_map hkinds hkind hkind' (congrArg DeriveKey.kind h)

/-- The keys of distinct kinds are distinct. -/
theorem nodup_rowKeys (hkinds : (kinds.map Prod.fst).Nodup) :
    ((enqueueStatements repoId rec kinds).filterMap CreateStatement.rowKey).Nodup := by
  rw [filterMap_rowKey_enqueue]
  have hnodup : kinds.Nodup := hkinds.of_map _
  exact hnodup.map_on fun kind hkind kind' hkind' h => key_injective hkinds hkind hkind' h

/-- A kind's key comes from its own statement. -/
theorem mem_rowKeys_take (hkinds : (kinds.map Prod.fst).Nodup) {kind : KindCall}
    (hkind : kind ∈ kinds) (k : ℕ) :
    kind.key repoId rec.id ∈
        ((enqueueStatements repoId rec kinds).take k).filterMap CreateStatement.rowKey ↔
      kind.rowStatement repoId rec.id rec.canonical.cs.parents ∈
        (enqueueStatements repoId rec kinds).take k := by
  rw [List.mem_filterMap]
  constructor
  · rintro ⟨st, hst, hkey⟩
    obtain ⟨kind', hkind', hof⟩ := List.mem_flatMap.mp (List.mem_of_mem_take hst)
    rcases List.mem_cons.mp hof with rfl | hreport
    · rw [rowKey_rowStatement, Option.some.injEq] at hkey
      rw [key_injective hkinds hkind hkind' hkey.symm]
      exact hst
    · rw [rowKey_reports hreport] at hkey
      cases hkey
  · exact fun hst => ⟨_, hst, rowKey_rowStatement _ _ kind⟩

end

/-! ### The whole write -/

theorem CreateRows.congr {repoId : RepoId} {rec : ChangesetInsert Id} {db db' : Database Id}
    (h : CreateRows repoId rec db)
    (hsame : ∀ table : Table, table ≠ .deriveState → table ≠ .deriveReports →
      db' table = db table) : CreateRows repoId rec db' where
  changeset := hsame .changesets Table.noConfusion Table.noConfusion ▸ h.changeset
  parents := hsame .changesetParents Table.noConfusion Table.noConfusion ▸ h.parents
  changes := hsame .fileChanges Table.noConfusion Table.noConfusion ▸ h.changes
  blobs := hsame .repoBlobs Table.noConfusion Table.noConfusion ▸ h.blobs
  trees := hsame .trees Table.noConfusion Table.noConfusion ▸ h.trees
  entries := hsame .treeEntries Table.noConfusion Table.noConfusion ▸ h.entries
  repoTrees := hsame .repoTrees Table.noConfusion Table.noConfusion ▸ h.repoTrees

theorem CreateRows.hasChangeset {repoId : RepoId} {rec : ChangesetInsert Id} {db : Database Id}
    (h : CreateRows repoId rec db) : db.hasChangeset rec.id = true :=
  List.any_eq_true.mpr ⟨_, h.changeset, decide_eq_true rfl⟩

theorem CreateStatement.Free.congr {db db' : Database Id} (h : db'.deriveRows = db.deriveRows)
    (st : CreateStatement Id) : st.Free db' ↔ st.Free db := by
  cases st with
  | insertDone key output parents => rw [Free, Free, h]
  | _ => exact Iff.rfl

theorem createAnswer_fst (rec : ChangesetInsert Id)
    (r : Lib.Session (Database Id) × Option Lib.Fault) : (createAnswer rec r).1 = r.1.committed := by
  obtain ⟨s, fault⟩ := r
  cases fault with
  | none => rfl
  | some fault => cases fault <;> rfl

section

variable {env : CreateEnv Id} {db : Database Id} {p : PreparedCreate Id} {kinds : List KindCall}
  {faults : ℕ → Option Lib.Fault} {rec : ChangesetInsert Id}

/-- The write stops in its transaction and leaves the file, or goes on to the
queue's statements. -/
theorem runPersist_cases (hrec : createRecord (env.cx db) p = .ok rec) :
    let inserts := changesetInsertStatements env.id env.name rec
    ((inserts.foldlM CreateStatement.exec db = none ∨ ∃ i < inserts.length + 2, faults i ≠ none) ∧
        (runPersist env db p kinds faults).1 = db) ∨
      ¬(inserts.foldlM CreateStatement.exec db = none ∨
          ∃ i < inserts.length + 2, faults i ≠ none) ∧
        ∃ db₁, inserts.foldlM CreateStatement.exec db = some db₁ ∧
          runPersist env db p kinds faults =
            createAnswer rec (Lib.runSession CreateStatement.exec faults (inserts.length + 2)
              ⟨db₁, none⟩ ((enqueueStatements env.id rec kinds).map .run)) := by
  simp only [runPersist, hrec]
  rw [Lib.runSession_append, Lib.length_transaction, Nat.zero_add]
  rcases @Lib.runSession_transaction _ _ CreateStatement.exec faults db 0
      (changesetInsertStatements env.id env.name rec) with hdone | hstop
  · obtain ⟨db₁, hfold, hclean, hrun⟩ := hdone
    right
    refine ⟨?_, db₁, hfold, ?_⟩
    · rintro (hnone | ⟨i, hi, hfault⟩)
      · rw [hnone] at hfold
        cases hfold
      · have hclean := hclean i hi
        rw [Nat.zero_add] at hclean
        exact hfault hclean
    · rw [hrun]
  · obtain ⟨hwhy, s', fault, hrun, hsame⟩ := hstop
    left
    simp only [Nat.zero_add] at hwhy
    refine ⟨hwhy, ?_⟩
    rw [hrun, createAnswer_fst, hsame]

/-- After a part of the queue's statements every kind has its row exactly where
its own statement is in that part, or the row was there. -/
theorem queue_take (hkinds : (kinds.map Prod.fst).Nodup) {db₁ db₂ : Database Id}
    (hrows : CreateRows env.id rec db₁) (hsame : db₁.deriveRows = db.deriveRows) {k : ℕ}
    (h : ((enqueueStatements env.id rec kinds).take k).foldlM CreateStatement.exec db₁ =
      some db₂) :
    CreateRows env.id rec db₂ ∧
      ((∀ kind ∈ kinds, (deriveGet db₂.deriveRows (kind.key env.id rec.id)).isSome) ↔
        ∀ kind ∈ kinds,
          kind.rowStatement env.id rec.id rec.canonical.cs.parents ∈
              (enqueueStatements env.id rec kinds).take k ∨
            (deriveGet db.deriveRows (kind.key env.id rec.id)).isSome) := by
  have hqueue : ∀ st ∈ (enqueueStatements env.id rec kinds).take k, st.OfQueue rec.id :=
    fun st hst => enqueueStatements_ofQueue st (List.mem_of_mem_take hst)
  refine ⟨hrows.congr fun table hstate hreports =>
    CreateStatement.foldlM_frame hqueue h hstate hreports, forall₂_congr fun kind hkind => ?_⟩
  rw [CreateStatement.foldlM_keys hqueue hrows.hasChangeset h, hsame,
    mem_rowKeys_take hkinds hkind, or_comm]

/-- A part of the queue's statements succeeds exactly where no row stands in the
way of one of them. -/
theorem queue_take_isSome (hkinds : (kinds.map Prod.fst).Nodup) {db₁ : Database Id}
    (hrows : CreateRows env.id rec db₁) (hsame : db₁.deriveRows = db.deriveRows) (k : ℕ) :
    (((enqueueStatements env.id rec kinds).take k).foldlM CreateStatement.exec db₁).isSome ↔
      ∀ st ∈ (enqueueStatements env.id rec kinds).take k, st.Free db := by
  have hqueue : ∀ st ∈ (enqueueStatements env.id rec kinds).take k, st.OfQueue rec.id :=
    fun st hst => enqueueStatements_ofQueue st (List.mem_of_mem_take hst)
  have hnodup : (((enqueueStatements env.id rec kinds).take k).filterMap
      CreateStatement.rowKey).Nodup :=
    (nodup_rowKeys hkinds).sublist ((List.take_sublist k _).filterMap _)
  rw [CreateStatement.foldlM_isSome hqueue hnodup hrows.hasChangeset]
  exact forall₂_congr fun st _ => CreateStatement.Free.congr hsame st

/-- Past its commit an atomic create goes on to a row for each kind. -/
theorem CreateAtomic.unbroken (hkinds : (kinds.map Prod.fst).Nodup)
    (hrec : createRecord (env.cx db) p = .ok rec) {db₁ : Database Id}
    (hfold : (changesetInsertStatements env.id env.name rec).foldlM CreateStatement.exec db =
      some db₁)
    (hrun : runPersist env db p kinds faults =
      createAnswer rec (Lib.runSession CreateStatement.exec faults
        ((changesetInsertStatements env.id env.name rec).length + 2) ⟨db₁, none⟩
        ((enqueueStatements env.id rec kinds).map .run)))
    (hatomic : CreateAtomic env p kinds db (runPersist env db p kinds faults).1
      (runPersist env db p kinds faults).2) :
    CreateUnbroken env.id env.name rec kinds db faults := by
  obtain ⟨hrows, hnot, hderive⟩ := changesetInsertStatements_stored hfold
  obtain ⟨k, hk, db₂, htake, hclean, hend⟩ := @Lib.runSession_statements _ _
    CreateStatement.exec faults db₁
    ((changesetInsertStatements env.id env.name rec).length + 2)
    (enqueueStatements env.id rec kinds)
  obtain ⟨hrows₂, hkeys⟩ := queue_take hkinds hrows hderive htake
  have hne : db₂ ≠ db := fun heq => hnot (heq ▸ hrows₂)
  have hafter : (runPersist env db p kinds faults).1 = db₂ := by
    rw [hrun, createAnswer_fst]
    rcases hend with ⟨-, hdone⟩ | ⟨-, -, fault, hstop, -⟩
    · rw [hdone]
    · rw [hstop]
  rw [hafter] at hatomic
  have hstored : CreateStored env.id rec kinds db₂ := by
    rcases hatomic.1 with ⟨rec', h, hstored⟩ | heq
    · rw [hrec] at h
      cases h
      exact hstored
    · exact absurd heq hne
  refine .inr ⟨k, hk, hclean, ?_, fun hlt => ?_, hkeys.mp hstored.queue⟩
  · refine (queue_take_isSome hkinds hrows hderive k).mp ?_
    rw [htake]
    rfl
  · rcases hend with ⟨hlen, -⟩ | ⟨st, -, fault, hstop, hwhy⟩
    · exact absurd hlt (hlen ▸ Nat.lt_irrefl _)
    · -- an error would answer one with the changeset's rows left
      have hcrash : fault = .crash := by
        cases fault with
        | crash => rfl
        | error =>
            refine absurd (hatomic.2 .internal ?_) hne
            rw [hrun, hstop]
            rfl
      rcases hwhy with hfault | ⟨herror, -⟩
      · rw [hfault, hcrash]
      · rw [hcrash] at herror
        cases herror

/-- A write that goes on to a row for each kind stores everything and answers no
error. -/
theorem CreateUnbroken.atomic (hkinds : (kinds.map Prod.fst).Nodup)
    (hrec : createRecord (env.cx db) p = .ok rec) {db₁ : Database Id}
    (hfold : (changesetInsertStatements env.id env.name rec).foldlM CreateStatement.exec db =
      some db₁) {k : ℕ} (hk : k ≤ (enqueueStatements env.id rec kinds).length)
    (hclean : ∀ i < k,
      faults ((changesetInsertStatements env.id env.name rec).length + 2 + i) = none)
    (hfree : ∀ st ∈ (enqueueStatements env.id rec kinds).take k, st.Free db)
    (hcrash : k < (enqueueStatements env.id rec kinds).length →
      faults ((changesetInsertStatements env.id env.name rec).length + 2 + k) = some .crash)
    (hall : ∀ kind ∈ kinds,
      kind.rowStatement env.id rec.id rec.canonical.cs.parents ∈
          (enqueueStatements env.id rec kinds).take k ∨
        (deriveGet db.deriveRows (kind.key env.id rec.id)).isSome)
    (hrun : runPersist env db p kinds faults =
      createAnswer rec (Lib.runSession CreateStatement.exec faults
        ((changesetInsertStatements env.id env.name rec).length + 2) ⟨db₁, none⟩
        ((enqueueStatements env.id rec kinds).map .run))) :
    CreateAtomic env p kinds db (runPersist env db p kinds faults).1
      (runPersist env db p kinds faults).2 := by
  obtain ⟨hrows, -, hderive⟩ := changesetInsertStatements_stored hfold
  obtain ⟨db₂, htake⟩ := Option.isSome_iff_exists.mp
    ((queue_take_isSome hkinds hrows hderive k).mpr hfree)
  obtain ⟨hrows₂, hkeys⟩ := queue_take hkinds hrows hderive htake
  have hstored : CreateStored env.id rec kinds db₂ := ⟨hrows₂, hkeys.mpr hall⟩
  have hlen : ((enqueueStatements env.id rec kinds).take k).length = k :=
    List.length_take_of_le hk
  have hdone := @Lib.runSession_clean _ _ CreateStatement.exec faults db₁ db₂
    ((changesetInsertStatements env.id env.name rec).length + 2)
    ((enqueueStatements env.id rec kinds).take k) htake (fun j hj => hclean j (hlen ▸ hj))
  have hsplit : (enqueueStatements env.id rec kinds).map Lib.SessionStep.run =
      ((enqueueStatements env.id rec kinds).take k).map .run ++
        ((enqueueStatements env.id rec kinds).drop k).map .run := by
    rw [← List.map_append, List.take_append_drop]
  -- the rest is empty, or the process stops before it
  rw [hrun, hsplit, Lib.runSession_append, hdone, List.length_map, hlen]
  rcases Nat.lt_or_ge k (enqueueStatements env.id rec kinds).length with hlt | hge
  · rw [List.drop_eq_getElem_cons hlt, List.map_cons]
    simp only [Lib.runSession, hcrash hlt]
    exact ⟨.inl ⟨rec, hrec, hstored⟩, fun e h => by cases h⟩
  · rw [List.drop_eq_nil_of_le hge]
    exact ⟨.inl ⟨rec, hrec, hstored⟩, fun e h => by cases h⟩

/-- A create is atomic exactly where its transaction does not commit, or nothing
stops the queue's statements short of a row for each kind. -/
theorem create_atomic_iff (env : CreateEnv Id) (db : Database Id) (p : PreparedCreate Id)
    {kinds : List KindCall} (hkinds : (kinds.map Prod.fst).Nodup)
    (faults : ℕ → Option Lib.Fault) :
    CreateAtomic env p kinds db (runPersist env db p kinds faults).1
        (runPersist env db p kinds faults).2 ↔
      ∀ rec, createRecord (env.cx db) p = .ok rec →
        CreateUnbroken env.id env.name rec kinds db faults := by
  cases hrec : createRecord (env.cx db) p with
  | error e =>
      have hrun : runPersist env db p kinds faults = (db, some (.error e)) := by
        simp only [runPersist, hrec]
      rw [hrun]
      exact ⟨fun _ rec h => (by cases h), fun _ => ⟨.inr rfl, fun _ _ => rfl⟩⟩
  | ok rec =>
      rcases runPersist_cases hrec with ⟨hwhy, hsame⟩ | ⟨hthrough, db₁, hfold, hrun⟩
      · refine ⟨fun _ rec' h => ?_, fun _ => ?_⟩
        · cases h
          exact .inl hwhy
        · rw [hsame]
          exact ⟨.inr rfl, fun _ _ => rfl⟩
      · refine ⟨fun hatomic rec' h => ?_, fun hunbroken => ?_⟩
        · cases h
          exact hatomic.unbroken hkinds hrec hfold hrun
        · rcases hunbroken rec rfl with hstop | ⟨k, hk, hclean, hfree, hcrash, hall⟩
          · exact absurd hstop hthrough
          · exact CreateUnbroken.atomic hkinds hrec hfold hk hclean hfree hcrash hall hrun

end

end

/-! ### A stop past the commit -/

namespace Stopped

/-- One file of one byte, whose blob is stored. -/
def env : CreateEnv PlainId where
  id := 1
  name := "r"
  catIsDb := true
  cas := [(Platform.blobId [97], [97])]
  cat := ⟨[⟨Platform.blobId [97], 1, 0⟩], []⟩

def request : CreateRequest PlainId where
  repoName := "r"
  principal := "ann"
  scope := none
  parents := []
  author := "ann"
  message := "add"
  timestampNs := some 7
  changes := [⟨⟨[], "a"⟩, .add, some (Platform.blobId [97]), some 1, some false⟩]

def db : Database PlainId := Database.migrated "8"

/-- The process stops after the commit, which is step 8. -/
def faults (i : ℕ) : Option Lib.Fault := if i = 9 then some .crash else none

/-- The changeset has its row, and the queue none. -/
def torn (after : Database PlainId) : Bool :=
  !(after .changesets : List (InRepo (ChangesetColumns PlainId))).isEmpty &&
    after.deriveRows.isEmpty

end Stopped

open Stopped in
theorem create_atomic_iff_stopped : ∃ p, createPrepare 1 5 request [] = .ok p ∧
    (CreateAtomic env p [(1, none)] db (runPersist env db p [(1, none)] faults).1
        (runPersist env db p [(1, none)] faults).2 ↔
      ∀ rec, createRecord (env.cx db) p = .ok rec →
        CreateUnbroken env.id env.name rec [(1, none)] db faults) := by
  have hprepare : (createPrepare 1 5 request []).toOption.isSome = true := by decide +kernel
  cases hp : createPrepare 1 5 request [] with
  | error e =>
      rw [hp] at hprepare
      cases hprepare
  | ok p => exact ⟨p, rfl, create_atomic_iff env db p (by decide) faults⟩

open Stopped in
/-- A stop past the commit leaves the changeset without its queue row. -/
theorem stopped_create_torn : ∃ p, createPrepare 1 5 request [] = .ok p ∧
    ¬CreateAtomic env p [(1, none)] db (runPersist env db p [(1, none)] faults).1
      (runPersist env db p [(1, none)] faults).2 := by
  have hrun : (createPrepare 1 5 request []).toOption.any (fun p =>
      torn (runPersist env db p [(1, none)] faults).1) = true := by
    decide +kernel
  cases hp : createPrepare 1 5 request [] with
  | error e =>
      rw [hp] at hrun
      cases hrun
  | ok p =>
      rw [hp] at hrun
      obtain ⟨hrow, hqueue⟩ := Bool.and_eq_true_iff.mp hrun
      refine ⟨p, rfl, fun hatomic => ?_⟩
      rcases hatomic.1 with ⟨rec, -, hstored⟩ | hsame
      · have hkey := hstored.queue (1, none) (List.mem_singleton_self _)
        rw [List.isEmpty_iff.mp hqueue] at hkey
        cases hkey
      · rw [hsame] at hrow
        cases hrow

end Naatre
