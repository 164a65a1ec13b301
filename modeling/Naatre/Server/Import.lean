import Naatre.Lib.Utf8
import Naatre.Server.Routes

/-!
Git import (`naatre-server/src/import.rs`): the scan of a batch of commits,
the import of one commit, and the graft of `main`.

What the importer reads through the git library is a `GitCommit`: its texts are
decoded, the signature is trimmed and `\r\n` in the message is replaced; the
names of its tree are raw. The run holds the data directory's lock, so no other writer is
active; it can stop after any number of commits.
-/

namespace Naatre

/-! ### The git side -/

/-- A name in a git tree: bytes without a slash, an encoding or not. -/
structure GitName where
  bytes : Bytes
  no_slash : 0x2F ∉ bytes
  deriving DecidableEq

/-- `to_str_lossy`. -/
def GitName.text (name : GitName) : String := String.ofList (Lib.decodeLossy name.bytes)

/-- The name that is the encoding of a text. -/
def GitName.ofText (s : String) : GitName :=
  if h : 0x2F ∉ Lib.encodeChars s.toList then ⟨_, h⟩ else ⟨[], List.not_mem_nil⟩

instance : Coe String GitName := ⟨GitName.ofText⟩

inductive GitMode
  | regular
  | exec
  | symlink
  | gitlink
  | other (mode : ℕ)
  deriving DecidableEq, Repr

mutual

/-- A tree entry that is not a tree, or a subtree under its git id. -/
inductive GitEntry
  | blob (mode : GitMode) (oid : GitOid) (content : Bytes)
  | dir (oid : GitOid) (tree : GitTree)

/-- A git tree, its entries in name order. -/
inductive GitTree
  | empty
  | entry (name : GitName) (e : GitEntry) (rest : GitTree)

end

structure GitCommit where
  oid : GitOid
  parents : List GitOid
  author : String
  message : String
  /-- author time in seconds, negative before 1970 -/
  seconds : ℤ
  tree : GitTree

abbrev GitRepo := List GitCommit

/-- `find_commit`. -/
def GitRepo.find (git : GitRepo) (oid : GitOid) : Option GitCommit :=
  List.find? (fun c => decide (c.oid = oid)) git

/-- `{oid}`: forty hex digits. -/
def gitHex (oid : GitOid) : String :=
  let digits := Nat.toDigits 16 oid
  String.ofList (List.replicate (40 - digits.length) '0' ++ digits)

/-- One changed path between two git trees. -/
structure DiffEntry where
  path : Path
  op : Op
  /-- mode, git blob and content of the new side; absent on a delete -/
  side : Option (GitMode × GitOid × Bytes)
  deriving DecidableEq

namespace GitTree

def get (name : GitName) : GitTree → Option GitEntry
  | .empty => none
  | .entry n e rest => if n = name then some e else rest.get name

mutual

/-- `emit_entry` below the directory `dirs`; every file of a new subtree is an
add. -/
def emitEntry (dirs : List String) (name : GitName) : GitEntry → List DiffEntry
  | .blob mode oid content => [⟨⟨dirs, name.text⟩, .add, some (mode, oid, content)⟩]
  | .dir _ tree => emitTree (dirs ++ [name.text]) tree

def emitTree (dirs : List String) : GitTree → List DiffEntry
  | .empty => []
  | .entry name e rest => emitEntry dirs name e ++ emitTree dirs rest

end

mutual

/-- `delete_entry`. -/
def deleteEntry (dirs : List String) (name : GitName) : GitEntry → List DiffEntry
  | .blob _ _ _ => [⟨⟨dirs, name.text⟩, .del, none⟩]
  | .dir _ tree => deleteTree (dirs ++ [name.text]) tree

def deleteTree (dirs : List String) : GitTree → List DiffEntry
  | .empty => []
  | .entry name e rest => deleteEntry dirs name e ++ deleteTree dirs rest

end

/-- The entries of `old` that `new` has no entry for. -/
def deleteMissing (dirs : List String) (new : GitTree) : GitTree → List DiffEntry
  | .empty => []
  | .entry name e rest =>
      (if (new.get name).isNone then deleteEntry dirs name e else [])
        ++ deleteMissing dirs new rest

mutual

/-- What the entry of the new side changes, against the old side's entry. -/
def diffEntry (dirs : List String) (name : GitName) (old : Option GitEntry) :
    GitEntry → List DiffEntry
  | .blob mode oid content =>
      match old with
      | none => emitEntry dirs name (.blob mode oid content)
      | some (.dir o tree) =>
          deleteEntry dirs name (.dir o tree) ++ emitEntry dirs name (.blob mode oid content)
      | some (.blob oldMode oldOid _) =>
          if oldOid ≠ oid ∨ oldMode ≠ mode then
            [⟨⟨dirs, name.text⟩, .mod, some (mode, oid, content)⟩]
          else []
  | .dir oid tree =>
      match old with
      | none => emitEntry dirs name (.dir oid tree)
      | some (.blob m o c) =>
          deleteEntry dirs name (.blob m o c) ++ emitEntry dirs name (.dir oid tree)
      | some (.dir oldOid oldTree) =>
          if oldOid = oid then []
          else
            deleteMissing (dirs ++ [name.text]) tree oldTree
              ++ diffTree (dirs ++ [name.text]) oldTree tree

/-- The entries of the new side. -/
def diffTree (dirs : List String) (old : GitTree) : GitTree → List DiffEntry
  | .empty => []
  | .entry name e rest => diffEntry dirs name (old.get name) e ++ diffTree dirs old rest

end

/-- `tree_diff`, sorted by path bytes at the boundary. -/
def diff (old : Option GitTree) (new : GitTree) : List DiffEntry :=
  let old := old.getD .empty
  (deleteMissing [] new old ++ diffTree [] old new).insertionSort
    (fun a b => a.path.before b.path = true)

end GitTree

/-- A frame of the ancestor walk. -/
inductive GitFrame
  | enter (oid : GitOid)
  | emit (c : GitCommit)

/-- The loop of `collect_ancestors`: parents before children. `none` where a
commit cannot be read. -/
def collectLoop (git : GitRepo) (mapped : GitOid → Bool) :
    ℕ → List GitFrame → List GitOid → List GitCommit → Option (List GitCommit)
  | 0, _, _, _ => none
  | _ + 1, [], _, out => some out
  | fuel + 1, .emit c :: stack, visited, out =>
      collectLoop git mapped fuel stack visited (out ++ [c])
  | fuel + 1, .enter oid :: stack, visited, out =>
      if oid ∈ visited ∨ mapped oid then collectLoop git mapped fuel stack visited out
      else match git.find oid with
        | none => none
        | some c =>
            collectLoop git mapped fuel
              ((c.parents.map .enter).reverse ++ .emit c :: stack) (oid :: visited) out

/-- Enough steps for a walk that enters every parent link of the source. -/
def gitFuel (git : GitRepo) : ℕ :=
  2 * git.length + (git.map (fun c => c.parents.length)).sum + 2

/-- `collect_ancestors`. -/
def collectAncestors (git : GitRepo) (mapped : GitOid → Bool) (head : GitOid) :
    Option (List GitCommit) :=
  collectLoop git mapped (gitFuel git) [.enter head] [] []

/-- The loop of `is_ancestor`. -/
def isAncestorLoop (git : GitRepo) (ancestor : GitOid) :
    ℕ → List GitOid → List GitOid → Option Bool
  | 0, _, _ => none
  | _ + 1, [], _ => some false
  | fuel + 1, oid :: stack, seen =>
      match git.find oid with
      | none => none
      | some c =>
          if ancestor ∈ c.parents then some true
          else
            let fresh := (c.parents.filter (· ∉ seen)).dedup
            isAncestorLoop git ancestor fuel (fresh.reverse ++ stack) (fresh ++ seen)

/-- `is_ancestor`. -/
def isAncestor (git : GitRepo) (ancestor head : GitOid) : Option Bool :=
  if ancestor = head then some true
  else isAncestorLoop git ancestor (gitFuel git) [head] []

/-! ### The text codec -/

/-- The character rule `check_text` enforces. -/
def offendsTextRule (c : Char) : Bool := (isCc c || isCf c) && c != '\n' && c != '\t'

/-- `escape_text_lossless`, with the characters it escaped. -/
def escapeTextLossless (s : String) : String × List Char :=
  if !s.toList.any offendsTextRule then (s, [])
  else
    (String.join (s.toList.map fun c =>
        if c = '\\' then "\\\\"
        else if offendsTextRule c then
          "\\u\x7b" ++ String.ofList (Nat.toDigits 16 c.toNat) ++ "\x7d"
        else c.toString),
      s.toList.filter offendsTextRule)

/-- What `sanitize_pair` makes of one text: every offending character is
replaced. -/
def sanitizeText (s : String) : String :=
  String.ofList (s.toList.map fun c => if offendsTextRule c then '\ufffd' else c)

/-- The two switches of an import. -/
structure ImportOptions where
  skipUnsupported : Bool
  sanitize : Bool

section

variable {Id : Type} [Platform Id]

/-! ### The scan -/

/-- The abort of an import; its texts go to the terminal only. -/
inductive ImportError (Id : Type)
  | source
  | internal
  | store
  | redacted (id : Id)
  deriving DecidableEq

/-- A batch commit that passed the scan. -/
structure PreparedCommit (Id : Type) [Platform Id] where
  gitOid : GitOid
  gitTree : GitTree
  canonical : Canonical Id
  /-- the contents of the added and modified files, in entry order -/
  contents : List Bytes
  generation : ℕ

def PreparedCommit.csId (p : PreparedCommit Id) : Id := Platform.changesetId p.canonical

inductive Prepared (Id : Type) [Platform Id]
  | ready (p : PreparedCommit Id)
  | unsupported (reasons : List String)
  | parentMissing

def modeReason (p : Path) : GitMode → Option String
  | .regular | .exec => none
  | .symlink => some (quoted p.text ++ ": symlink entry (mode 120000) is not supported")
  | .gitlink =>
      some (quoted p.text ++ ": gitlink (submodule) entry (mode 160000) is not supported")
  | .other mode =>
      some (quoted p.text ++ ": unsupported mode " ++ String.ofList (Nat.toDigits 8 mode))

/-- `validate_entry`: the reason an entry is refused. -/
def validateEntry (nfc : String → String) (e : DiffEntry) : Option String :=
  match e.path.validate nfc with
  | .error err => some (quoted e.path.text ++ ": " ++ err.message)
  | .ok () =>
      match e.side with
      | none => none
      | some (mode, oid, content) =>
          match modeReason e.path mode with
          | some reason => some reason
          | none =>
              if blobLimit < content.length then
                some ("blob " ++ gitHex oid ++ " for path " ++ quoted e.path.text ++ " is " ++
                  toString content.length ++ " bytes (limit " ++ toString blobLimit ++ ")")
              else none

/-- `PreparedEntry::to_file_change`. -/
def DiffEntry.fileChange (e : DiffEntry) : FileChange Id where
  path := e.path
  op := e.op
  blob := e.side.map (fun s => Platform.blobId s.2.2)
  size := e.side.map (fun s => s.2.2.length)
  exec := e.side.map (fun s => decide (s.1 = .exec))

/-- The tree the diff starts from, none for a root commit; the outer `none`
where the first parent cannot be read. -/
def firstParentTree (git : GitRepo) (c : GitCommit) : Option (Option GitTree) :=
  match c.parents with
  | [] => some none
  | p :: _ => (git.find p).map (fun parent => some parent.tree)

/-- The commit's own content problems, and its entries that passed. -/
def scanReasons (git : GitRepo) (c : GitCommit) : Except (ImportError Id)
    (List DiffEntry × List String) :=
  let octopus := if 2 < c.parents.length then
      ["octopus commit: " ++ toString c.parents.length ++ " parents (naatre allows 2)"] else []
  let repeats := (c.parents.zip c.parents.tail).filterMap fun pair =>
    if pair.1 = pair.2 then some "duplicate parent entry" else none
  match firstParentTree git c with
  | none => .error .source
  | some parentTree =>
      let diff := GitTree.diff parentTree c.tree
      let nfc := Platform.nfc Id
      let entries := diff.filter (fun e => (validateEntry nfc e).isNone)
      let paths := entries.map (fun e => e.path)
      let fold := match checkCaseFoldDuplicates (Platform.lower Id) paths with
        | .error e => [e.message]
        | .ok () => []
      let many := if maxEntries < entries.length then
          [toString entries.length ++ " entries in one commit (limit " ++
            toString maxEntries ++ ")"] else []
      .ok (entries, octopus ++ repeats ++ diff.filterMap (validateEntry nfc) ++ fold ++ many)

/-- Where a git parent resolves: the stored map, else the batch scanned so
far. -/
def resolveParent (gitMap : List (GitOid × Id)) (batch : List (GitOid × Id × ℕ))
    (parent : GitOid) : Option Id :=
  match gitMap.lookup parent with
  | some cs => some cs
  | none => (batch.lookup parent).map (·.1)

/-- The generation a git parent contributes: the batch first, else the stored
row of the mapped changeset. -/
def parentGeneration (db : RepoTables Id) (gitMap : List (GitOid × Id))
    (batch : List (GitOid × Id × ℕ)) (parent : GitOid) : Option ℕ :=
  match batch.lookup parent with
  | some (_, generation) => some generation
  | none => do
      let cs ← gitMap.lookup parent
      let row ← changesetGet db cs
      pure row.generation

/-- `prepare_commit`. -/
def prepareCommit (git : GitRepo) (opts : ImportOptions) (repoId : RepoId) (db : RepoTables Id)
    (gitMap : List (GitOid × Id)) (batch : List (GitOid × Id × ℕ)) (c : GitCommit) :
    Except (ImportError Id) (Prepared Id) :=
  match scanReasons git c with
  | .error e => .error e
  | .ok (entries, reasons) =>
  if reasons ≠ [] then .ok (.unsupported reasons)
  else match c.parents.mapM (resolveParent gitMap batch) with
  | none => .ok .parentMissing
  | some parents =>
      let clean := if opts.sanitize then fun s => (escapeTextLossless s).1 else sanitizeText
      let cs : Changeset Id :=
        { repoId := repoId
          parents := parents
          author := clean c.author
          message := clean c.message
          timestampNs := if c.seconds < 0 then 0 else
            min (c.seconds.toNat * 1000000000) (2 ^ 64 - 1)
          changes := entries.map (·.fileChange)
          conflicts := [] }
      match cs.encode with
      | .error _ => .error .source
      | .ok canonical =>
          match c.parents.mapM (parentGeneration db gitMap batch) with
          | none => .error .internal
          | some generations =>
              .ok (.ready
                { gitOid := c.oid
                  gitTree := c.tree
                  canonical := canonical
                  contents := entries.filterMap (fun e => e.side.map (·.2.2))
                  generation := generations.foldl (fun g parent => max g (parent + 1)) 0 })

/-- The scan's accumulators. -/
structure ScanState (Id : Type) [Platform Id] where
  importable : List (PreparedCommit Id)
  batch : List (GitOid × Id × ℕ)
  offending : List (GitOid × String)
  parentMissing : List GitOid

def ScanState.start : ScanState Id := ⟨[], [], [], []⟩

def scanCommit (git : GitRepo) (opts : ImportOptions) (repoId : RepoId) (db : RepoTables Id)
    (st : ScanState Id) (c : GitCommit) : Except (ImportError Id) (ScanState Id) :=
  match prepareCommit git opts repoId db db.gitMap st.batch c with
  | .error e => .error e
  | .ok (.ready p) =>
      .ok { st with
        importable := st.importable ++ [p]
        batch := (c.oid, p.csId, p.generation) :: st.batch }
  | .ok (.unsupported reasons) =>
      .ok { st with offending := st.offending ++ reasons.map (c.oid, ·) }
  | .ok .parentMissing => .ok { st with parentMissing := st.parentMissing ++ [c.oid] }

/-! ### One commit -/

/-- `put_recorded` behind its tombstone probe. -/
def putRecorded (nowNs : ℕ) (cx : RepoCx Id) (content : Bytes) :
    Except (ImportError Id × RepoCx Id) (RepoCx Id) :=
  let id := Platform.blobId content
  if redactionActive cx.db id then .error (.redacted id, cx)
  else match casPut cx.cas content with
    | none => .error (.store, cx)
    | some cas =>
        .ok { cx with cas := cas, cat := objectRowUpsert cx.cat id content.length nowNs }

mutual

/-- The loop of `build_tree_node`: every blob is put before its entry goes in,
and an entry of the same text gives way. -/
def buildTreeInto (nowNs : ℕ) (cx : RepoCx Id) (node : MemNode Id) :
    GitTree → Except (ImportError Id × RepoCx Id) (MemNode Id × RepoCx Id)
  | .empty => .ok (node, cx)
  | .entry name e rest => do
      let (entry, cx) ← buildTreeEntry nowNs cx e
      buildTreeInto nowNs cx (node.insert name.text entry) rest

def buildTreeEntry (nowNs : ℕ) (cx : RepoCx Id) :
    GitEntry → Except (ImportError Id × RepoCx Id) (MemEntry Id × RepoCx Id)
  | .dir _ tree => do
      let (node, cx) ← buildTreeInto nowNs cx .empty tree
      pure (.dir node, cx)
  | .blob mode _ content =>
      if mode ≠ .regular ∧ mode ≠ .exec then .error (.internal, cx)
      else do
        let cx ← putRecorded nowNs cx content
        pure (.file (Platform.blobId content) content.length (decide (mode = .exec)), cx)

end

/-- `build_tree_node`. -/
def buildTreeNode (nowNs : ℕ) (cx : RepoCx Id) (tree : GitTree) :
    Except (ImportError Id × RepoCx Id) (MemNode Id × RepoCx Id) :=
  buildTreeInto nowNs cx .empty tree

/-- The principal of host-local imports. -/
def importPrincipal : String := "admin"

/-- `import_commit`. -/
def importCommit (nowNs : ℕ) (cx : RepoCx Id) (p : PreparedCommit Id) :
    Except (ImportError Id × RepoCx Id) (RepoCx Id) :=
  if redactionActive cx.db p.csId then .error (.redacted p.csId, cx)
  else match p.contents.foldlM (putRecorded nowNs) cx with
  | .error a => .error a
  | .ok cx =>
  match buildTreeNode nowNs cx p.gitTree with
  | .error a => .error a
  | .ok (node, cx) =>
  match node.collect with
  | .error _ => .error (.internal, cx)
  | .ok (rootTreeId, _, trees) =>
  match changesetInsertRows cx
      { id := p.csId
        canonical := p.canonical
        generation := p.generation
        principal := importPrincipal
        rootTreeId := rootTreeId
        blobs := changeBlobs p.canonical.cs.changes
        trees := trees
        gitMapOid := some p.gitOid } with
  | none => .error (.internal, cx)
  | some cx => .ok cx

/-- The commits in order; an error ends the run where it stands. -/
def importCommits (nowNs : ℕ) (cx : RepoCx Id) :
    List (PreparedCommit Id) → Except (ImportError Id × RepoCx Id) (RepoCx Id)
  | [] => .ok cx
  | p :: ps =>
      match importCommit nowNs cx p with
      | .error a => .error a
      | .ok cx => importCommits nowNs cx ps

/-! ### The graft -/

/-- The order of `(generation, is HEAD, index)`. -/
def graftBefore (a b : ℕ × Bool × ℕ) : Bool :=
  decide (a.1 < b.1) || (decide (a.1 = b.1) &&
    ((!a.2.1 && b.2.1) || (decide (a.2.1 = b.2.1) && decide (a.2.2 < b.2.2))))

/-- The best of the commits `keep` holds of, by `(generation, is HEAD, index)`,
the index counted from `i` on. -/
def bestHead (head : GitOid) : List (PreparedCommit Id) → ℕ →
    Option ((ℕ × Bool × ℕ) × Id) → Option ((ℕ × Bool × ℕ) × Id)
  | [], _, best => best
  | p :: ps, i, best =>
      let key := (p.generation, decide (p.gitOid = head), i)
      bestHead head ps (i + 1)
        (if best.all (fun b => graftBefore b.1 key) then some (key, p.csId) else best)

/-- `longest_chain_head`. -/
def longestChainHead (head : GitOid) (importable : List (PreparedCommit Id)) : Option Id :=
  (bestHead head importable 0 none).map (·.2)

/-- The loop of `descends_from`; `none` where a parent's row is missing. -/
def descendsLoop (db : RepoTables Id) (target : Id) : ℕ → List Id → List Id → Option Bool
  | 0, _, _ => none
  | _ + 1, [], _ => some false
  | fuel + 1, cs :: stack, seen =>
      if cs = target then some true
      else if cs ∈ seen then descendsLoop db target fuel stack seen
      else match parentsOf db cs with
        | none => none
        | some parents => descendsLoop db target fuel (parents.reverse ++ stack) (cs :: seen)

/-- `descends_from`. -/
def descendsFrom (db : RepoTables Id) (p : PreparedCommit Id) (target : Id) : Option Bool :=
  let parents := p.canonical.cs.parents
  descendsLoop db target (walkFuel db parents.length) parents.reverse []

/-- The loop of `chain_descending_from`. -/
def chainDescending (db : RepoTables Id) (previousTip : Id) (head : GitOid) :
    List (PreparedCommit Id) → ℕ → Option ((ℕ × Bool × ℕ) × Id) →
    Option (Option ((ℕ × Bool × ℕ) × Id))
  | [], _, best => some best
  | p :: ps, i, best =>
      match descendsFrom db p previousTip with
      | none => none
      | some false => chainDescending db previousTip head ps (i + 1) best
      | some true =>
          let key := (p.generation, decide (p.gitOid = head), i)
          chainDescending db previousTip head ps (i + 1)
            (if best.all (fun b => graftBefore b.1 key) then some (key, p.csId) else best)

/-- `chain_descending_from`. -/
def chainDescendingFrom (db : RepoTables Id) (importable : List (PreparedCommit Id))
    (previousTip : Id) (head : GitOid) : Option (Option Id) :=
  (chainDescending db previousTip head importable 0 none).map (·.map (·.2))

inductive MainOutcome
  | unchanged
  | set
  | refused
  | fastForwarded
  deriving DecidableEq, Repr

/-- `ref_move`: under the lock the compare-and-swap cannot lose. -/
def importRefMove (db : RepoTables Id) (expected : Option ℕ) (target : Id) :
    Except (ImportError Id) (RepoTables Id) :=
  match refCas db "main" target expected importPrincipal with
  | (.created, db) | (.updated _, db) => .ok db
  | _ => .error .internal

/-- `graft_main`; `mainRow` and `mainGitOid` were read before the scan. -/
def graftMain (db : RepoTables Id) (mainRow : Option (RefRow Id)) (mainGitOid : Option GitOid)
    (importable : List (PreparedCommit Id)) (head : GitOid) :
    Except (ImportError Id) (MainOutcome × RepoTables Id) :=
  match mainRow with
  | none =>
      match longestChainHead head importable with
      | none => .error .internal
      | some target => (importRefMove db none target).map (.set, ·)
  | some _ =>
      match mainGitOid with
      | none => .ok (.refused, db)
      | some oldOid =>
          match db.gitMap.lookup oldOid, refGet db "main" with
          | some previousTip, some row =>
              match chainDescendingFrom db importable previousTip head with
              | none => .error .internal
              | some none => .ok (.unchanged, db)
              | some (some target) =>
                  (importRefMove db (some row.version) target).map (.fastForwarded, ·)
          | _, _ => .error .internal

/-! ### The run -/

structure ImportReport where
  imported : ℕ
  skipped : List (GitOid × String)
  cascaded : List GitOid
  main : MainOutcome
  aborted : Bool
  deriving DecidableEq

/-- The git oid `main` maps to. -/
def mainGitOid (db : RepoTables Id) : Option GitOid :=
  match (refGet db "main").bind (·.target) with
  | none => none
  | some target => (db.gitMap.find? (fun row => decide (row.2 = target))).map (·.1)

/-- The report's `skipped`: one entry per oid, its first reason. -/
def firstReasons : List (GitOid × String) → List GitOid → List (GitOid × String)
  | [], _ => []
  | (oid, reason) :: rest, seen =>
      if oid ∈ seen then firstReasons rest seen
      else (oid, reason) :: firstReasons rest (oid :: seen)

/-- `run_backend` past the registry, stopped after `stop` commits where that is
fewer than the batch holds. -/
def runBackend (nowNs : ℕ) (cx : RepoCx Id) (git : GitRepo) (opts : ImportOptions)
    (head : GitOid) (stop : ℕ) : Except (ImportError Id) ImportReport × RepoCx Id :=
  match collectAncestors git (fun oid => (cx.db.gitMap.lookup oid).isSome) head with
  | none => (.error .source, cx)
  | some [] => (.ok ⟨0, [], [], .unchanged, false⟩, cx)
  | some batch =>
  let mainRow := refGet cx.db "main"
  let mainOid := mainGitOid cx.db
  match (match mainOid with
    | none => some true
    | some old => isAncestor git old head) with
  | none => (.error .source, cx)
  | some false => (.ok ⟨0, [], [], .unchanged, true⟩, cx)
  | some true =>
  match batch.foldlM (scanCommit git opts cx.id cx.db) .start with
  | .error e => (.error e, cx)
  | .ok scan =>
  if scan.offending ≠ [] ∧ ¬ opts.skipUnsupported then
    (.ok ⟨0, scan.offending, [], .unchanged, true⟩, cx)
  else
    let skipped := firstReasons scan.offending []
    match importCommits nowNs cx (scan.importable.take stop) with
    | .error (e, cx) => (.error e, cx)
    | .ok cx =>
        if stop < scan.importable.length then (.error .internal, cx)
        else if scan.importable = [] then
          (.ok ⟨0, skipped, scan.parentMissing, .unchanged, false⟩, cx)
        else
          match graftMain cx.db mainRow mainOid scan.importable head with
          | .error e => (.error e, cx)
          | .ok (main, db) =>
              (.ok ⟨scan.importable.length, skipped, scan.parentMissing, main, false⟩,
                { cx with db := db })

end

end Naatre
