import Naatre.Server.DeriveQueue

/-!
The log reads (`naatre-server/src/routes/history.rs` and their statements in
`db.rs`): the first-parent chain, and the history of one path off its derived
index or, where that kind is not registered, off the file changes.

Ids, limits and cursors arrive as text; a text that is none is refused before
anything here, and a cursor is kept as the id it names.
-/

namespace Naatre

section

variable {Id : Type} [Platform Id]

/-- One `/log` entry, the columns of a `LogRow`. -/
structure LogEntry (Id : Type) where
  id : Id
  author : String
  message : String
  timestampNs : ℕ
  generation : ℕ
  principal : String
  deriving DecidableEq

def ChangesetRow.logEntry (row : ChangesetRow Id) : LogEntry Id :=
  { id := row.id
    author := row.canonical.cs.author
    message := row.canonical.cs.message
    timestampNs := row.canonical.cs.timestampNs
    generation := row.generation
    principal := row.principal }

/-- A page of either log. `degraded` and `poisonedCs` belong to a path's. -/
structure LogResponse (Id : Type) where
  entries : List (LogEntry Id)
  nextCursor : Option Id
  hasMore : Bool
  degraded : Bool
  poisonedCs : List Id
  deriving DecidableEq

structure LogQuery (Id : Type) where
  start : Option Id
  limit : Option ℤ
  cursor : Option Id
  path : Option Path

/-- `parse_limit`. -/
def parseLimit (limit : Option ℤ) : Except (ApiError Id) ℕ :=
  match limit with
  | none => .ok 50
  | some n =>
      if n < 1 then .error (.new .validation "limit must be at least 1")
      else if 200 < n then .error (.new .validation "limit must be at most 200")
      else .ok n.toNat

omit [Platform Id] in
theorem parseLimit_pos {limit : Option ℤ} {n : ℕ}
    (h : parseLimit limit = (.ok n : Except (ApiError Id) ℕ)) : 1 ≤ n := by
  unfold parseLimit at h
  split at h
  · cases h
    omega
  · split_ifs at h with hlow hhigh
    cases h
    omega

/-- The page of the `limit + 1` rows a read fetched. -/
def logResponse (limit : ℕ) (rows : List (LogEntry Id)) (poisonedCs : List Id) : LogResponse Id :=
  let hasMore := decide (limit < rows.length)
  let rows' := rows.take limit
  { entries := rows'
    nextCursor := if hasMore then rows'.getLast?.map (·.id) else none
    hasMore
    degraded := !poisonedCs.isEmpty
    poisonedCs }

/-! ### The first-parent chain -/

/-- `log_chain`, at most `fuel` nodes of it. Tombstoned changesets drop out. -/
def logChain (db : RepoTables Id) (limit : ℕ) :
    ℕ → Id → List (LogEntry Id) → Option (List (LogEntry Id))
  | 0, _, _ => none
  | fuel + 1, current, rows =>
      match changesetGet db current with
      | none => some rows
      | some row =>
          let rows := if redactionActive db current then rows else rows ++ [row.logEntry]
          if redactionActive db current = false ∧ limit ≤ rows.length then some rows
          else match row.parents.head? with
            | some next => logChain db limit fuel next rows
            | none => some rows

/-- Where the walk starts, `none` for an empty page. -/
def logStart (cx : RepoCx Id) (q : LogQuery Id) : Except (ApiError Id) (Option Id) :=
  match q.cursor, q.start with
  | some cursor, _ =>
      match changesetGet cx.db cursor with
      | none => .error (.new .notFound "cursor id is not in this repo")
      | some row => .ok row.parents.head?
  | none, some id =>
      if (changesetGet cx.db id).isNone then .error (.new .notFound "from id is not in this repo")
      else if redactionActive cx.db id then
        .error (.new .objectRedacted
          ("changeset " ++ Platform.toHex id ++ " is redacted in " ++ cx.name))
      else .ok (some id)
  | none, none => .ok ((refGet cx.db "main").bind (·.target))

/-- `log` without a path; `none` where the walk is still going. -/
def log (cx : RepoCx Id) (fuel : ℕ) (q : LogQuery Id) :
    Option (Except (ApiError Id) (LogResponse Id)) :=
  match parseLimit q.limit with
  | .error e => some (.error e)
  | .ok limit =>
      match logStart cx q with
      | .error e => some (.error e)
      | .ok none => some (.ok (logResponse limit [] []))
      | .ok (some start) =>
          (logChain cx.db (limit + 1) fuel start []).map fun rows => .ok (logResponse limit rows [])

/-! ### The history of a path -/

/-- One row of `path_history`. -/
structure HistoryRow (Id : Type) where
  path : Path
  gen : ℕ
  cs : Id
  op : Op
  deriving DecidableEq

/-- An `OR IGNORE` insert under the key of path, generation and changeset. -/
def pathHistoryInsert (history : List (HistoryRow Id)) (row : HistoryRow Id) :
    List (HistoryRow Id) :=
  if history.any (fun h => decide (h.path = row.path ∧ h.gen = row.gen ∧ h.cs = row.cs)) then
    history
  else history ++ [row]

/-- `path_history_put`. -/
def pathHistoryPut (history : List (HistoryRow Id)) (generation : ℕ) (cs : Id)
    (changes : List (FileChange Id)) : List (HistoryRow Id) :=
  changes.foldl
    (fun history c => pathHistoryInsert history ⟨c.path, generation, cs, c.op⟩) history

/-- `PathHistoryDeriver::derive`; it fails where the changeset is gone. -/
def derivePathHistory (db : RepoTables Id) (history : List (HistoryRow Id)) (cs : Id) :
    List (HistoryRow Id) :=
  match changesetGet db cs with
  | none => history
  | some row => pathHistoryPut history row.generation cs (fileChangesList db cs)

/-- A tombstone of the changeset, as the anti-joins of the two statements test it. -/
def changesetMarked (db : RepoTables Id) (cs : Id) : Bool :=
  db.redactions.any fun r => decide (r.objectId = cs ∧ r.kind = .changeset)

/-- The order of a path's history: generation descending, id ascending. -/
def newerFirst (a b : ℕ × Id) : Prop := b.1 < a.1 ∨ a.1 = b.1 ∧ a.2 ≤ b.2

instance (a b : ℕ × Id) : Decidable (newerFirst a b) :=
  inferInstanceAs (Decidable (b.1 < a.1 ∨ a.1 = b.1 ∧ a.2 ≤ b.2))

/-- `ORDER BY` generation descending, id ascending, of rows with these columns. -/
def newestFirst {ρ : Type} (columns : ρ → ℕ × Id) (rows : List ρ) : List ρ :=
  rows.insertionSort fun a b => newerFirst (columns a) (columns b)

/-- Behind the cursor row. -/
def behind (after : Option (ℕ × Id)) (gen : ℕ) (cs : Id) : Bool :=
  match after with
  | none => true
  | some (g, c) => decide (gen < g ∨ gen = g ∧ c < cs)

/-- `path_history_page`: the derived index joined with the changesets. -/
def pathHistoryPage (db : RepoTables Id) (history : List (HistoryRow Id)) (path : Path)
    (after : Option (ℕ × Id)) (limit : ℕ) : List (LogEntry Id) :=
  let joined := (history.filter fun h => decide (h.path = path) && behind after h.gen h.cs &&
    !changesetMarked db h.cs).filterMap fun h => (changesetGet db h.cs).map (h, ·)
  ((newestFirst (fun e => (e.1.gen, e.1.cs)) joined).take limit).map fun e => e.2.logEntry

/-- `path_history_scan`: the file changes joined with the changesets. -/
def pathHistoryScan (db : RepoTables Id) (path : Path) (after : Option (ℕ × Id)) (limit : ℕ) :
    List (LogEntry Id) :=
  let joined := db.changesets.flatMap fun row =>
    (row.changes.filter fun c => decide (c.path = path) && behind after row.generation row.id &&
      !changesetMarked db row.id).map fun _ => row
  ((newestFirst (fun row => (row.generation, row.id)) joined).take limit).map
    ChangesetRow.logEntry

/-- What the derived read of a repository finds: the id of the registered
kind, its completion marker, its queue and its index. -/
structure PathIndex (Id : Type) where
  kind : Option ℕ
  backfillDone : Bool
  rows : List (DeriveRow Id)
  history : List (HistoryRow Id)

/-- `derive_repo_pending`. -/
def deriveRepoPending (rows : List (DeriveRow Id)) (kind : ℕ) (repoId : RepoId) : Bool :=
  rows.any fun row => decide (row.key.kind = kind ∧ row.key.repoId = repoId ∧
    (row.state = .pending ∨ row.state = .deriving))

/-- `derive_poison_touching_path`. -/
def derivePoisonTouchingPath (db : RepoTables Id) (rows : List (DeriveRow Id)) (kind : ℕ)
    (repoId : RepoId) (path : Path) : List Id :=
  (rows.filter fun row => decide (row.key.kind = kind ∧ row.key.repoId = repoId ∧
    row.state = .poison) && (fileChangesList db row.key.cs).any fun c => decide (c.path = path)).map
      (·.key.cs)

def derivationPending (what : String) : ApiError Id :=
  { code := .derivationPending
    message := what ++ " is still being derived; retry shortly"
    retryable := true
    details := .none }

/-- The row a cursor resumes behind. -/
def cursorRow (db : RepoTables Id) (cursor : Option Id) :
    Except (ApiError Id) (Option (ℕ × Id)) :=
  match cursor with
  | none => .ok none
  | some id =>
      match changesetGet db id with
      | none => .error (.new .notFound "cursor id is not in this repo")
      | some row => .ok (some (row.generation, id))

/-- `path_log`. -/
def pathLog (cx : RepoCx Id) (index : PathIndex Id) (path : Path) (limit : Option ℤ)
    (cursor : Option Id) : Except (ApiError Id) (LogResponse Id) :=
  match parseLimit limit with
  | .error e => .error e
  | .ok limit =>
      match cursorRow cx.db cursor with
      | .error e => .error e
      | .ok after =>
          match index.kind with
          | some kind =>
              if !index.backfillDone || deriveRepoPending index.rows kind cx.id then
                .error (derivationPending "path history")
              else
                .ok (logResponse limit (pathHistoryPage cx.db index.history path after (limit + 1))
                  (derivePoisonTouchingPath cx.db index.rows kind cx.id path))
          | none => .ok (logResponse limit (pathHistoryScan cx.db path after (limit + 1)) [])

end

end Naatre
