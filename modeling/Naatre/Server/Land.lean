import Naatre.Lib.Walk
import Naatre.Server.Db
import Naatre.Server.Merge

/-!
The land (`naatre-server/src/land.rs`): one write transaction that rebases a
head's first-parent chain onto `main`, moves `main` and settles the
idempotency key.

An abort carries the stores as they stood when it was raised: the transaction
rolls the rows back, blob-store writes stay, and on the split the catalog's
object rows stay with them.
-/

namespace Naatre

def resolutionRecipe : String :=
  "to record the conflict on main as a conflicted changeset, " ++
  "re-land with the same key and `naatre land --record-conflict` (the API request " ++
  "field \"record_conflict\": true for non-CLI clients) — or resolve instead: " ++
  "materialize the conflicted main (naatre sync), edit the resolved content, " ++
  "and `naatre resolve <path>` (or fetch the conflict blobs " ++
  "GET /v1/repos/\x7br\x7d/objects/\x7bid\x7d and build a resolution changeset on head's " ++
  "parent), then re-land with the same key"

def resolutionRecipeRefused : String :=
  "this conflict cannot be recorded: the merged result " ++
  "is not a consistent tree (a file and a directory at the same path) — resolve it instead: " ++
  "materialize the conflicted main (naatre sync), edit the resolved content, " ++
  "and `naatre resolve <path>` (or fetch the conflict blobs " ++
  "GET /v1/repos/\x7br\x7d/objects/\x7bid\x7d and build a resolution changeset on head's " ++
  "parent), then re-land with the same key " ++
  "(record_conflict: true does not apply here)"

/-- One land request, resolved by the route. -/
structure LandCommand (Id : Type) where
  repoName : String
  principal : String
  scope : Option String
  head : Id
  key : String
  baseHint : Option Id
  recordConflict : Bool
  nowNs : ℕ

/-- A settled land. -/
structure LandDone (Id : Type) where
  landed : Id
  main : Id
  rebased : ℕ
  note : Option String
  conflicts : List Path
  deriving DecidableEq

/-- `authz::scope_allows`. -/
def scopeAllows (scope : Option String) (path : String) : Bool :=
  scope.all fun p =>
    decide (path = p) || (p.toList ++ ['/']).isPrefixOf path.toList

section

variable {Id : Type} [Platform Id]

/-- An error and the stores at the point it was raised. -/
structure LandAbort (Id : Type) [Platform Id] where
  error : ApiError Id
  cx : RepoCx Id

/-- The loop variables of the rebase. -/
structure LandState (Id : Type) [Platform Id] where
  cx : RepoCx Id
  tipId : Id
  tipGen : ℕ
  tipTree : MemNode Id
  rebased : ℕ
  writtenBlobs : List Id

/-! ### Errors -/

def redactedConflict (id : Id) : ApiError Id :=
  (ApiError.new .redactedBase "the land's base chain crosses a redacted changeset").withDetails
    (.redacted id)

/-- `redacted_blob_error`: `more` counts the further tombstoned ids. -/
def redactedBlobError (repo : String) (blob : Id) (more : ℕ) (conflictedContent : Bool) :
    ApiError Id :=
  let guidance := if conflictedContent then
      " A side of this conflict is redacted in this repo, so the land can " ++
      "neither record nor merge it — remove or rewrite the conflicting edit " ++
      "at that path, or resolve with the admin who holds the redaction."
    else ""
  let head := "blob " ++ Platform.toHex blob ++ " is redacted in " ++ repo ++
    "; referencing it is refused"
  ApiError.new .objectRedacted
    (if more = 0 then head ++ guidance
      else head ++ " (+" ++ toString more ++ " more redacted ids)" ++ guidance)

def PathConflict.entry (c : PathConflict Id) : ConflictEntry Id :=
  ⟨c.path, c.reason, c.baseBlob, c.oursBlob, c.theirsBlob⟩

/-- `conflict_error`: every path conflict plus the resolution recipe. -/
def conflictError (conflicts : List (PathConflict Id)) (recipe : String) : ApiError Id :=
  (ApiError.new .refConflict
    (toString conflicts.length ++ " conflicting path(s) while rebasing onto main")).withDetails
    (.conflicts (conflicts.map (·.entry)) recipe)

/-- `merge_error`. -/
def mergeError (db : RepoTables Id) (repoName : String) (recipe : String) :
    MergeError Id → ApiError Id
  | .conflicts list => conflictError list recipe
  | .fetch id =>
      if id ∈ redactionsActiveAmong db [id] then redactedBlobError repoName id 0 true
      else .internal

def mapDerive : DeriveError Id → ApiError Id
  | .core .encodeTooLarge => .new .tooLarge "merged tree exceeds the 16 MiB canonical cap"
  | _ => .internal

def loadTree (cx : RepoCx Id) (rootTreeId : Id) : Except (ApiError Id) (MemNode Id) :=
  (MemNode.load cx.trees (some rootTreeId)).mapError mapDerive

/-! ### Settling -/

/-- `rep_paths_of`: the conflict paths a changeset carries. -/
def repPathsOf (db : RepoTables Id) (id : Id) : List Path :=
  match changesetGet db id with
  | some row => row.canonical.cs.conflicts.map (·.path)
  | none => []

/-- `settle`. -/
def settle (cx : RepoCx Id) (cmd : LandCommand Id) (base landed : Id) (rebased : ℕ)
    (note : Option String) (conflicts : List Path) : LandDone Id × RepoCx Id :=
  let state := if conflicts = [] then .done else .conflicted
  (⟨landed, landed, rebased, note, conflicts⟩,
    { cx with
      db := landSettle cx.db cmd.principal cmd.key cmd.head base state
        ⟨landed, rebased, note, conflicts⟩ })

/-- `replay`. -/
def replay (result : LandResult Id) : LandDone Id :=
  ⟨result.landed, result.landed, result.rebased, result.note, result.conflicts⟩

/-! ### The chain -/

def parentsOf (db : RepoTables Id) (id : Id) : Option (List Id) :=
  (changesetGet db id).map (·.parents)

/-- Enough steps for a walk over every parent edge of the repository. -/
def walkFuel (db : RepoTables Id) (seeds : ℕ) : ℕ :=
  seeds + (db.changesets.map (·.parents.length)).sum + 1

/-- Everything reachable from `main`; `none` where a changeset is referenced
but missing. -/
def inMain (db : RepoTables Id) (main : Id) : Option (List Id) :=
  Lib.walk (parentsOf db) (walkFuel db 1) [main] []

/-- The first-parent walk from the head down to the first changeset contained
in main: the chain, newest first, and the exit node. A chain without a repeat
is no longer than the table. -/
def chainWalk (db : RepoTables Id) (contained : List Id) :
    ℕ → Id → Except (ApiError Id) (List Id × Id)
  | 0, _ => .error .internal
  | fuel + 1, cursor =>
      if cursor ∈ contained then .ok ([], cursor)
      else if redactionActive db cursor then .error (redactedConflict cursor)
      else match changesetGet db cursor with
        | none => .error (.new .notFound "head is not a changeset of this repo")
        | some row =>
            match row.parents with
            | [] => .error (.new .validation "head shares no history with main")
            | next :: _ => do
                let (chain, exit) ← chainWalk db contained fuel next
                pure (cursor :: chain, exit)

/-- The first change of the chain outside the token's scope. -/
def scopeOffender (db : RepoTables Id) (scope : Option String) (chain : List Id) :
    Option Path :=
  (chain.flatMap fun cs => (fileChangesList db cs).map (·.path)).find?
    (fun p => !scopeAllows scope p.text)

def landNote (db : RepoTables Id) (cmd : LandCommand Id) : Option String :=
  match cmd.baseHint, changesetGet db cmd.head with
  | some hint, some row =>
      if row.parents.head? ≠ some hint then
        some ("request base " ++ Platform.toHex hint ++ " is not head's parent (" ++
          ((row.parents.head?.map Platform.toHex).getD "<none>") ++
          "); the server rebased onto its merge-base with main")
      else none
  | _, _ => none

/-! ### One node of the rebase -/

/-- What one node is rebased from: its row, its tree and the tree of its own
first parent. -/
structure NodeInput (Id : Type) [Platform Id] where
  row : ChangesetRow Id
  tree : MemNode Id
  parentTree : MemNode Id

def landInput (cx : RepoCx Id) (node : Id) : Except (ApiError Id) (NodeInput Id) :=
  match changesetGet cx.db node with
  | none => .error .internal
  | some row => do
      let tree ← loadTree cx row.rootTreeId
      let parentTree ← match row.parents with
        | [] => pure .empty
        | p :: _ => match changesetGet cx.db p with
          | none => .error .internal
          | some pRow => loadTree cx pRow.rootTreeId
      pure ⟨row, tree, parentTree⟩

/-- The merge of one node onto the tip: the merged tree and the conflicts it
recorded. -/
def landMerge (cmd : LandCommand Id) (cx : RepoCx Id) (tipTree : MemNode Id)
    (input : NodeInput Id) : Except (ApiError Id) (MergedTree Id × List (PathConflict Id)) :=
  let fetchBlob := casGet cx.cas
  if cmd.recordConflict then
    match mergeTreesRecording fetchBlob input.parentTree tipTree input.tree with
    | .error e => .error (mergeError cx.db cmd.repoName resolutionRecipeRefused e)
    | .ok rec =>
        match rec.oversized with
        | (path, size) :: _ =>
            .error ((ApiError.new .tooLarge
              ("materialized conflict markers for " ++ quoted path.text ++ " would be " ++
                toString size ++
                " bytes — over the blob limit; resolve the conflict instead")).withDetails
              (.oversized path size))
        | [] => .ok (rec.tree, rec.conflicts)
  else
    match mergeTrees fetchBlob input.parentTree tipTree input.tree with
    | .error e => .error (mergeError cx.db cmd.repoName resolutionRecipe e)
    | .ok merged => .ok (merged, [])

/-- The ids the tombstone gate probes: the blobs written or referenced, the
inputs of every line merge and marker, the sides and bases of the carried
reps, and the new changeset. -/
def gateIds (blobs : List Id) (merged : MergedTree Id) (cs : Changeset Id) (newId : Id) :
    List Id :=
  blobs ++ merged.newBlobs.map (·.1) ++ merged.inputIds
    ++ cs.conflicts.flatMap (fun rep => rep.base.toList ++ rep.sides) ++ [newId]

/-- The answer of the tombstone gate, `none` where it lets the node pass. -/
def gateError (db : RepoTables Id) (repoName : String) (merged : MergedTree Id)
    (cs : Changeset Id) (newId : Id) : Option (ApiError Id) :=
  let offenders := redactionsActiveAmong db (gateIds (changeBlobs cs.changes) merged cs newId)
  if newId ∈ offenders then
    some (.new .objectRedacted
      ("changeset " ++ Platform.toHex newId ++ " is redacted in " ++ repoName ++
        "; recreating it is refused"))
  else match offenders with
    | [] => none
    | blob :: more =>
        let conflictedContent := offenders.any (fun id => decide (id ∈ merged.inputIds) ||
          cs.conflicts.any (fun rep => decide (rep.base = some id) || decide (id ∈ rep.sides)))
        some (redactedBlobError repoName blob more.length conflictedContent)

/-- The merged blobs go into the CAS, each with its `objects` row, before any
row that references them. -/
def putBlobs (nowNs : ℕ) (st : LandState Id) : List (Id × Bytes) → Except (LandAbort Id) (LandState Id)
  | [] => .ok st
  | (blob, bytes) :: rest =>
      if blob ∈ st.writtenBlobs then putBlobs nowNs st rest
      else match casPut st.cx.cas bytes with
        | none => .error ⟨.internal, st.cx⟩
        | some cas =>
            putBlobs nowNs
              { st with
                cx :=
                  { st.cx with
                    cas := cas
                    cat := objectRowUpsert st.cx.cat blob bytes.length nowNs }
                writtenBlobs := st.writtenBlobs ++ [blob] } rest

/-- The rebased changeset of one node. -/
def rebasedChangeset (cx : RepoCx Id) (tipId : Id) (node : Changeset Id)
    (delta : List (FileChange Id)) (reps : List (ConflictRep Id)) : Changeset Id where
  repoId := cx.id
  parents := [tipId]
  author := node.author
  message := node.message
  timestampNs := node.timestampNs
  changes := delta
  conflicts := reps

/-- Inserts the rebased changeset on top of the tip. -/
def landInsert (cmd : LandCommand Id) (st : LandState Id) (canonical : Canonical Id)
    (merged : MergedTree Id) : Except (LandAbort Id) (LandState Id) :=
  let newId := Platform.changesetId canonical
  match merged.node.collect with
  | .error e => .error ⟨mapDerive e, st.cx⟩
  | .ok (rootTreeId, _, trees) =>
      match changesetInsertRows st.cx
          { id := newId
            canonical := canonical
            generation := st.tipGen + 1
            principal := cmd.principal
            rootTreeId := rootTreeId
            blobs := changeBlobs canonical.cs.changes
            trees := trees
            gitMapOid := none } with
      | none => .error ⟨.internal, st.cx⟩
      | some cx =>
          .ok { st with
            cx := cx
            tipId := newId
            tipGen := st.tipGen + 1
            tipTree := merged.node
            rebased := st.rebased + 1 }

/-- One round of the rebase loop. -/
def landNode (cmd : LandCommand Id) (st : LandState Id) (node : Id) :
    Except (LandAbort Id) (LandState Id) :=
  match landInput st.cx node with
  | .error e => .error ⟨e, st.cx⟩
  | .ok input =>
  match landMerge cmd st.cx st.tipTree input with
  | .error e => .error ⟨e, st.cx⟩
  | .ok (merged, reconflicted) =>
      let reps := carry input.row.canonical.cs.conflicts (reconflicted.filterMap contentRep)
      let delta := deltaBetween st.tipTree merged.node
      -- the change is already contained: the node is dropped from the chain
      if delta = [] ∧ reps = [] then .ok st
      else
        match (rebasedChangeset st.cx st.tipId input.row.canonical.cs delta reps).encode with
        | .error .encodeTooLarge =>
            .error ⟨.new .tooLarge "rebased changeset exceeds the 16 MiB canonical cap", st.cx⟩
        | .error _ => .error ⟨.internal, st.cx⟩
        | .ok canonical =>
            let newId := Platform.changesetId canonical
            match gateError st.cx.db cmd.repoName merged canonical.cs newId with
            | some e => .error ⟨e, st.cx⟩
            | none =>
                match putBlobs cmd.nowNs st merged.newBlobs with
                | .error a => .error a
                | .ok st =>
                    -- fast-forward: the node is exactly on top of the tip;
                    -- the generation counter stays where it was
                    if newId = node then .ok { st with tipId := node, tipTree := input.tree }
                    else landInsert cmd st canonical merged

/-! ### The transaction -/

/-- The rebase proper, for a head not contained in main. -/
def landRebase (cx : RepoCx Id) (cmd : LandCommand Id) (oldMain : Id) (contained : List Id) :
    Except (LandAbort Id) (LandDone Id × RepoCx Id) :=
  let note := landNote cx.db cmd
  match chainWalk cx.db contained (cx.db.changesets.length + 1) cmd.head with
  | .error e => .error ⟨e, cx⟩
  | .ok (newestFirst, exit) =>
  if redactionActive cx.db exit then .error ⟨redactedConflict exit, cx⟩
  else
    let chain := newestFirst.reverse
    match scopeOffender cx.db cmd.scope chain with
    | some p =>
        .error ⟨(ApiError.new .forbidden "path is outside this token's scope").withDetails
          (.path p), cx⟩
    | none =>
    match changesetGet cx.db oldMain with
    | none => .error ⟨.internal, cx⟩
    | some mainRow =>
    match loadTree cx mainRow.rootTreeId with
    | .error e => .error ⟨e, cx⟩
    | .ok tipTree =>
    match chain.foldlM (landNode cmd) ⟨cx, oldMain, mainRow.generation, tipTree, 0, []⟩ with
    | .error a => .error a
    | .ok st =>
        let (moved, db) := mainCasMove st.cx.db oldMain st.tipId cmd.principal
        if moved = 0 then
          .error ⟨.new .refConflict "main moved while landing (stale CAS)", st.cx⟩
        else
          .ok (settle { st.cx with db := db } cmd oldMain st.tipId st.rebased note
            (repPathsOf db st.tipId))

/-- The land past its idempotency probe, the pending row inserted. -/
def landPending (cx : RepoCx Id) (cmd : LandCommand Id) :
    Except (LandAbort Id) (LandDone Id × RepoCx Id) :=
  match refGet cx.db "main" with
  | none => .error ⟨.new .validation "repo has no main to land onto", cx⟩
  | some row =>
  match row.target with
  | none => .error ⟨.internal, cx⟩
  | some oldMain =>
  if redactionActive cx.db oldMain then .error ⟨redactedConflict oldMain, cx⟩
  else
    match inMain cx.db oldMain with
    | none => .error ⟨.internal, cx⟩
    | some contained =>
        if cmd.head = oldMain ∨ cmd.head ∈ contained then
          .ok (settle cx cmd oldMain oldMain 0 none (repPathsOf cx.db oldMain))
        else landRebase cx cmd oldMain contained

/-- `land_in_txn`. -/
def landInTxn (cx : RepoCx Id) (cmd : LandCommand Id) :
    Except (LandAbort Id) (LandDone Id × RepoCx Id) :=
  match landGet cx.db cmd.principal cmd.key with
  | some row =>
      match row.state with
      | .pending =>
          .error ⟨{ ApiError.new .writerBusy "land for this key is in flight" with
            retryable := true }, cx⟩
      | .done | .conflicted =>
          match row.head with
          | none => .error ⟨.internal, cx⟩
          | some settled =>
              if settled ≠ cmd.head then
                .error ⟨(ApiError.new .idempotencyKeySettled
                  "this land key is settled with a different head").withDetails
                  (.settled settled ("/v1/repos/" ++ cmd.repoName ++ "/land/" ++ cmd.key)), cx⟩
              else match row.result with
                | none => .error ⟨.internal, cx⟩
                | some result => .ok (replay result, cx)
  | none =>
      if redactionActive cx.db cmd.head then .error ⟨redactedConflict cmd.head, cx⟩
      else
        landPending
          { cx with db := landInsertPending cx.db cmd.principal cmd.key cmd.head } cmd

/-- What a rollback leaves of the stores of an aborted transaction. -/
def RepoCx.rollback (cx aborted : RepoCx Id) : RepoCx Id :=
  { cx with
    cas := aborted.cas
    cat := if cx.catIsDb then cx.cat else aborted.cat }

/-- `execute`: COMMIT on success, ROLLBACK on every error. -/
def execute (cx : RepoCx Id) (cmd : LandCommand Id) :
    Except (ApiError Id) (LandDone Id) × RepoCx Id :=
  match landInTxn cx cmd with
  | .ok (done, cx') => (.ok done, cx')
  | .error a => (.error a.error, cx.rollback a.cx)

end

end Naatre
