import Naatre.Client.Vfs
import Naatre.Core.Marker
import Naatre.Core.Plain
import Naatre.Server.CreateCompletes
import Naatre.Server.CreateFrame
import Naatre.Server.TombstoneGate
import Naatre.Server.TreeSteps

/-!
The flush of a writable mount (`naatre-cli/src/vfs.rs` `flush`) against the
server's create.

The staged files go up as one changeset on the pinned one. The checks of
`create` do not meet every rule of the server: `flush_exact_iff` says which
overlays come out as the pinned tree with the staged files in it.
-/

namespace Naatre.Client

namespace Vfs

section

variable {Id : Type} [Platform Id]

/-! ### Flush -/

/-- The overlay in the order of its `BTreeMap`. -/
def stagedInOrder (m : Mount Id) : List (Path × ℕ × ℕ) :=
  m.staged.insertionSort fun s t => s.1.text ≤ t.1.text

/-- `pinned_contains`. -/
def pinnedContains (tree : Source Id) (pin : MountPin Id) (dirs : Dirs Id) (p : Path) :
    Except (VfsError Id) Bool × Dirs Id :=
  match ensureDir tree pin p.dirs.reverse dirs with
  | (.ok entries, dirs) => (.ok (child entries p.leaf).isSome, dirs)
  | (.error (.notFound _), dirs) => (.ok false, dirs)
  | (.error e, dirs) => (.error e, dirs)

/-- The server's answer to a PUT of an object. -/
def putObject (nowNs : ℕ) (cx : RepoCx Id) (bytes : Bytes) : Except (ApiError Id) (RepoCx Id) :=
  match putBytes cx bytes with
  | .error e => .error e
  | .ok cx =>
      match recordObject cx (Platform.blobId bytes) bytes.length nowNs with
      | (.error e, _) => .error e
      | (.ok _, cx) => .ok cx

/-- Where the loop of `flush` stands. -/
structure FlushState (Id : Type) [Platform Id] where
  dirs : Dirs Id
  cx : RepoCx Id
  uploaded : List Id
  changes : List (FileChange Id)

/-- One round of the loop of `flush`. -/
def flushOne (nowNs : ℕ) (m : Mount Id) (st : FlushState Id) (s : Path × ℕ × ℕ) :
    Except (VfsError Id) (FlushState Id) :=
  match m.shadow.lookup s.2.1 with
  | none => .error (.localError ("reading the shadow copy of " ++ s.1.text))
  | some bytes =>
  let blob := Platform.blobId bytes
  match pinnedContains (serverTree st.cx.trees) m.pin st.dirs s.1 with
  | (.error e, _) => .error e
  | (.ok contains, dirs) =>
  let change : FileChange Id :=
    { path := s.1
      op := if contains then .mod else .add
      blob := some blob
      size := some bytes.length
      exec := some false }
  if blob ∈ st.uploaded then .ok { st with dirs := dirs, changes := st.changes ++ [change] }
  else match putObject nowNs st.cx bytes with
  | .error e => .error (.http e)
  | .ok cx => .ok ⟨dirs, cx, blob :: st.uploaded, st.changes ++ [change]⟩

def flushMessage (m : Mount Id) (files : ℕ) : String :=
  "mount flush: " ++ toString files ++ " file(s) staged from a writable mount of " ++ m.repo ++
    " at " ++ Platform.toHex m.pin.changeset

/-- Whose token a flush goes with, and the clocks of the client and of the
server. -/
structure FlushCall where
  principal : String
  scope : Option String
  timestampNs : ℕ
  nowNs : ℕ

/-- The body of the POST, with the caller's token. -/
def flushRequest (call : FlushCall) (m : Mount Id) (changes : List (FileChange Id)) :
    CreateRequest Id where
  repoName := m.repo
  principal := call.principal
  scope := call.scope
  parents := [m.pin.changeset]
  author := "naatre mount"
  message := flushMessage m changes.length
  timestampNs := some call.timestampNs
  changes := changes

/-- The server's answer to the POST. -/
def createChangeset (nowNs : ℕ) (cx : RepoCx Id) (req : CreateRequest Id) :
    Except (ApiError Id) (ChangesetCreated Id × RepoCx Id) := do
  let metas ← createLookup cx.db req
  let p ← createPrepare cx.id nowNs req metas
  persist cx p

structure FlushOutcome (Id : Type) where
  changeset : Id
  rootTree : Id
  files : ℕ
  deriving DecidableEq

/-- `flush`, and what it leaves of the server. -/
def flush (call : FlushCall) (m : Mount Id) (cx : RepoCx Id) :
    Except (VfsError Id) (Option (FlushOutcome Id) × RepoCx Id) :=
  if !m.writable then .error .readOnly
  else if (stagedInOrder m).isEmpty then .ok (none, cx)
  else match (stagedInOrder m).foldlM (flushOne call.nowNs m) ⟨m.dirs, cx, [], []⟩ with
  | .error e => .error e
  | .ok st =>
  match createChangeset call.nowNs st.cx (flushRequest call m st.changes) with
  | .error e => .error (.http e)
  | .ok (created, cx) => .ok (some ⟨created.id, created.rootTreeId, st.changes.length⟩, cx)

/-! ### What a flush should do -/

def stagedPaths (m : Mount Id) : List Path := (stagedInOrder m).map Prod.fst

/-- A staged file: its bytes, without the exec bit. -/
def stagedFile (m : Mount Id) (p : Path) : Option (FileMeta Id) :=
  (buffer m p).map fun bytes => ⟨Platform.blobId bytes, bytes.length, false⟩

/-- The staged files in order. -/
def stagedFiles (m : Mount Id) : Files Id :=
  (stagedPaths m).filterMap fun p => (stagedFile m p).map fun file => (p, file)

/-- The flush is accepted, and the new changeset's tree is the pinned one with
the staged files in it. -/
def FlushExact (call : FlushCall) (m : Mount Id) (cx : RepoCx Id) (parent : MemNode Id) : Prop :=
  ∃ done cx', flush call m cx = .ok (done, cx') ∧
    if m.staged = [] then done = none ∧ cx' = cx
    else ∃ outcome row node, done = some outcome ∧ outcome.files = m.staged.length ∧
      changesetGet cx'.db outcome.changeset = some row ∧ row.rootTreeId = outcome.rootTree ∧
      MemNode.load cx'.trees (some outcome.rootTree) = .ok node ∧
      ∀ p, filesAt node p = (stagedFile m p).or (filesAt parent p)

/-- The change of a staged path. -/
def stagedChange (m : Mount Id) (parent : MemNode Id) (p : Path) : FileChange Id where
  path := p
  op := if (parent.lookup p).isSome then .mod else .add
  blob := (stagedFile m p).map fun file => file.blob
  size := (stagedFile m p).map fun file => file.size
  exec := (stagedFile m p).map fun file => file.exec

/-- The changeset of the staged files. -/
def stagedChangeset (call : FlushCall) (m : Mount Id) (cx : RepoCx Id) (parent : MemNode Id) :
    Changeset Id :=
  (flushRequest call m ((stagedPaths m).map (stagedChange m parent))).changeset cx.id call.nowNs

/-- The overlays the server takes: no staged path is a directory of the pinned
tree, no two of one directory fold alike, the token's scope has them all, the
caps are kept, and the changeset is not stored yet. -/
structure FlushFits (call : FlushCall) (m : Mount Id) (cx : RepoCx Id) (parent : MemNode Id) :
    Prop where
  files : ∀ p ∈ stagedPaths m, ¬MemEntry.IsDir (parent.lookup p)
  folds : FoldsApart (Platform.lower Id) (stagedPaths m)
  scope : ∀ p ∈ stagedPaths m, scopeAllows call.scope p.text = true
  blobs : ∀ p bytes, buffer m p = some bytes → bytes.length ≤ blobLimit
  count : m.staged.length ≤ maxEntries
  encoded : (stagedChangeset call m cx parent).encodedLen ≤ maxObjectBytes
  tree : (parent.overlaid (stagedFiles m)).Fits
  fresh : ∀ canonical : Canonical Id, canonical.cs = stagedChangeset call m cx parent →
    changesetGet cx.db (Platform.changesetId canonical) = none

/-! ### Text -/

theorem checkText_iff {s : String} : checkText s = .ok () ↔
    ∀ c ∈ s.toList, ((isCc c || isCf c) && c != '\n' && c != '\t') = false := by
  unfold checkText
  constructor
  · intro h
    split at h
    next => cases h
    next hnone => exact findCharIndex_none hnone
  · intro h
    have hnone : ∀ (cs : List Char) (index : ℕ),
        (∀ c ∈ cs, ((isCc c || isCf c) && c != '\n' && c != '\t') = false) →
        findCharIndex (fun c => (isCc c || isCf c) && c != '\n' && c != '\t') cs index = none := by
      intro cs
      induction cs with
      | nil => exact fun _ _ => rfl
      | cons c cs ih =>
          intro index hcs
          rw [findCharIndex, hcs c List.mem_cons_self, if_neg Bool.false_ne_true]
          exact ih _ fun d hd => hcs d (List.mem_cons_of_mem _ hd)
    rw [hnone _ _ h]

theorem checkText_append {s t : String} (hs : checkText s = .ok ()) (ht : checkText t = .ok ()) :
    checkText (s ++ t) = .ok () := by
  rw [checkText_iff] at hs ht ⊢
  intro c hc
  rw [String.toList_append] at hc
  exact (List.mem_append.mp hc).elim (hs c) (ht c)

theorem checkText_nat (n : ℕ) : checkText (toString n) = .ok () := by
  rw [checkText_iff]
  intro c hc
  have hdigit : c.isDigit = true := by
    have htext : (toString n).toList = Nat.toDigits 10 n := Nat.toList_repr
    rw [htext] at hc
    exact Nat.isDigit_of_mem_toDigits (by decide) (by decide) hc
  have hrange : 48 ≤ c.toNat ∧ c.toNat ≤ 57 := by
    rw [Char.isDigit, Bool.and_eq_true, decide_eq_true_eq, decide_eq_true_eq] at hdigit
    exact hdigit
  have hcc : isCc c = false := by
    simp only [isCc, Bool.or_eq_false_iff, Bool.and_eq_false_iff, decide_eq_false_iff_not]
    omega
  have hcf : isCf c = false := by
    simp only [isCf, cfRanges, List.any_cons, List.any_nil, Bool.or_false, Bool.or_eq_false_iff,
      Bool.and_eq_false_iff, decide_eq_false_iff_not]
    omega
  rw [hcc, hcf]
  rfl

theorem checkText_flushMessage {m : Mount Id} (hrepo : checkText m.repo = .ok ())
    (hhex : checkText (Platform.toHex m.pin.changeset) = .ok ()) (files : ℕ) :
    checkText (flushMessage m files) = .ok () := by
  unfold flushMessage
  refine checkText_append (checkText_append (checkText_append (checkText_append
    (checkText_append ?_ (checkText_nat files)) ?_) hrepo) ?_) hhex <;> decide

/-! ### The staged changes -/

section

variable {trees : List (TreeRow Id)} {parent : MemNode Id} {m : Mount Id}

omit [Platform Id] in
theorem mem_stagedPaths {p : Path} : p ∈ stagedPaths m ↔ p ∈ m.staged.map Prod.fst := by
  rw [stagedPaths, List.mem_map, List.mem_map]
  simp only [stagedInOrder, List.mem_insertionSort]

omit [Platform Id] in
theorem length_stagedPaths : (stagedPaths m).length = m.staged.length := by
  rw [stagedPaths, List.length_map, stagedInOrder, List.length_insertionSort]

theorem stagedFile_some (h : Overlay trees parent m) {p : Path} (hp : p ∈ stagedPaths m) :
    ∃ bytes, buffer m p = some bytes ∧
      stagedFile m p = some ⟨Platform.blobId bytes, bytes.length, false⟩ := by
  obtain ⟨bytes, hbytes⟩ := Option.isSome_iff_exists.mp
    ((h.covers p).mpr (mem_stagedPaths.mp hp))
  exact ⟨bytes, hbytes, by rw [stagedFile, hbytes]; rfl⟩

theorem stagedFile_none (h : Overlay trees parent m) {p : Path} (hp : p ∉ stagedPaths m) :
    stagedFile m p = none := by
  have hnone : buffer m p = none := by
    rw [← Option.not_isSome_iff_eq_none, h.covers p]
    exact fun hmem => hp (mem_stagedPaths.mpr hmem)
  rw [stagedFile, hnone]
  rfl

theorem admitted_of_staged (h : Overlay trees parent m) {p : Path} (hp : p ∈ stagedPaths m) :
    Admitted parent p := by
  obtain ⟨s, hs, rfl⟩ := List.mem_map.mp (mem_stagedPaths.mp hp)
  exact h.staged s hs

/-- The staged paths ascend strictly: two of them differ in their texts. -/
theorem stagedPaths_ascend (h : Overlay trees parent m) :
    (stagedPaths m).Pairwise fun p q => p.text < q.text := by
  have hnodup : (stagedPaths m).Nodup := by
    rw [stagedPaths]
    exact ((List.perm_insertionSort _ m.staged).map _).nodup_iff.mpr h.keys
  have hsorted : (stagedPaths m).Pairwise fun p q => p.text ≤ q.text := by
    rw [stagedPaths, List.pairwise_map]
    have htotal : Std.Total fun s t : Path × ℕ × ℕ => s.1.text ≤ t.1.text :=
      ⟨fun s t => le_total _ _⟩
    have htrans : IsTrans (Path × ℕ × ℕ) fun s t => s.1.text ≤ t.1.text :=
      ⟨fun _ _ _ => le_trans⟩
    exact List.pairwise_insertionSort _ m.staged
  refine (hsorted.and hnodup).imp_of_mem fun hp hq hle => ?_
  refine lt_of_le_of_ne hle.1 fun heq => hle.2 ?_
  exact Path.text_inj (admitted_of_staged h hp).split (admitted_of_staged h hq).split heq

theorem stagedChange_file (h : Overlay trees parent m) {p : Path} (hp : p ∈ stagedPaths m) :
    (stagedChange m parent p).file = stagedFile m p ∧ (stagedChange m parent p).op ≠ .del ∧
      (stagedChange m parent p).payloadOk = true := by
  obtain ⟨bytes, -, hfile⟩ := stagedFile_some h hp
  unfold stagedChange FileChange.file FileChange.payloadOk
  rw [hfile]
  cases (parent.lookup p).isSome <;> exact ⟨rfl, by simp, rfl⟩

/-- A staged path that is no pinned directory is written. -/
theorem stagedChange_writes (h : Overlay trees parent m) {p : Path} (hp : p ∈ stagedPaths m)
    (hdir : ¬MemEntry.IsDir (parent.lookup p)) {file : FileMeta Id}
    (hfile : stagedFile m p = some file) : (stagedChange m parent p).Writes parent file := by
  obtain ⟨hwritten, hop, -⟩ := stagedChange_file h hp
  have hadmitted := admitted_of_staged h hp
  refine ⟨?_, hwritten.trans hfile, hop, fun hmod => ?_, fun hadd => ?_, fun ds d hprefix => ?_⟩
  · exact Path.depth_of_valid hadmitted.valid
  · show (MemEntry.toFile (parent.lookup p)).isSome
    cases hlookup : parent.lookup p with
    | none =>
        simp only [stagedChange, hlookup, Option.isSome_none, Bool.false_eq_true, if_false] at hmod
        cases hmod
    | some e =>
        cases e with
        | file blob size exec => rfl
        | dir node => exact absurd ⟨node, hlookup⟩ hdir
  · show parent.lookup p = none
    cases hlookup : parent.lookup p with
    | none => rfl
    | some e =>
        simp only [stagedChange, hlookup, Option.isSome_some, if_true] at hadd
        cases hadd
  · obtain ⟨node, hnode⟩ := hadmitted.dir
    obtain ⟨rest, hrest⟩ := hprefix
    have hdirs : p.dirs = ds ++ [d] ++ rest := hrest.symm
    rw [hdirs] at hnode
    rw [nodeAt_append] at hnode
    obtain ⟨child, hchild, -⟩ := Option.bind_eq_some_iff.mp hnode
    rw [nodeAt_snoc, ← lookupIn_nodeAt] at hchild
    split at hchild
    next found hfound => exact ⟨found, hfound⟩
    next => cases hchild

end

/-! ### Uploads -/

/-- The server has the blob: its row and its bytes. -/
def Present (cx : RepoCx Id) (id : Id) : Prop :=
  cx.cat.objects.any (fun row => decide (row.objectId = id)) = true ∧ (casGet cx.cas id).isSome

theorem missingBlobs_of_present {cx : RepoCx Id} {blobs : List Id}
    (h : ∀ id ∈ blobs, Present cx id) : missingBlobs cx blobs = [] := by
  have hrows : objectsMissing cx.cat blobs = [] := by
    refine List.filter_eq_nil_iff.mpr fun id hid => ?_
    rw [(h id hid).1]
    exact Bool.false_ne_true
  rw [missingBlobs, hrows, List.nil_append]
  refine List.filter_eq_nil_iff.mpr fun id hid => ?_
  rw [Option.isNone_eq_false_iff.mpr (h id hid).2, Bool.false_and]
  exact Bool.false_ne_true

theorem any_objectRowUpsert (cat : Catalog Id) (blob : Id) (size nowNs : ℕ) (id : Id) :
    (objectRowUpsert cat blob size nowNs).objects.any (fun row => decide (row.objectId = id)) =
      (cat.objects.any (fun row => decide (row.objectId = id)) || decide (blob = id)) := by
  unfold objectRowUpsert
  dsimp only
  split
  next hthere =>
    rw [List.any_map]
    have hsame : ((fun row : ObjectRow Id => decide (row.objectId = id)) ∘ fun row =>
        if row.objectId = blob then ⟨blob, size, nowNs⟩ else row) =
        fun row => decide (row.objectId = id) := by
      funext row
      show decide ((if row.objectId = blob then (⟨blob, size, nowNs⟩ : ObjectRow Id)
        else row).objectId = id) = _
      split
      next heq => rw [heq]
      next => rfl
    rw [hsame]
    by_cases hid : blob = id
    · subst hid
      rw [hthere, Bool.true_or]
    · rw [decide_eq_false hid, Bool.or_false]
  next => rw [List.any_append, List.any_cons, List.any_nil, Bool.or_false]

theorem casPut_present {cas cas' : List (Id × Bytes)} {bytes : Bytes}
    (h : casPut cas bytes = some cas') : (casGet cas' (Platform.blobId bytes)).isSome ∧
      ∀ id, (casGet cas id).isSome → (casGet cas' id).isSome := by
  unfold casPut at h
  split_ifs at h with hlarge hthere
  · cases h
    exact ⟨hthere, fun _ hid => hid⟩
  · cases h
    have hget : ∀ id, casGet (cas ++ [(Platform.blobId bytes, bytes)]) id =
        (casGet cas id).or (List.lookup id [(Platform.blobId bytes, bytes)]) := by
      intro id
      rw [casGet, List.lookup_append]
      rfl
    refine ⟨?_, fun id hid => ?_⟩
    · rw [hget, Option.isSome_or, List.lookup_cons, beq_self_eq_true]
      exact Bool.or_true _
    · rw [hget, Option.isSome_or, hid, Bool.true_or]

/-- What a PUT that is answered leaves. -/
structure Put (bytes : Bytes) (cx cx' : RepoCx Id) : Prop where
  cap : bytes.length ≤ blobLimit
  db : cx'.db = cx.db
  trees : cx'.trees = cx.trees
  id : cx'.id = cx.id
  new : Present cx' (Platform.blobId bytes)
  keeps : ∀ id, Present cx id → Present cx' id

theorem putObject_iff {nowNs : ℕ} {cx : RepoCx Id} {bytes : Bytes}
    (hfree : ∀ id, redactionActive cx.db id = false) :
    ((∃ cx', putObject nowNs cx bytes = .ok cx') ↔ bytes.length ≤ blobLimit) ∧
      ∀ cx', putObject nowNs cx bytes = .ok cx' → Put bytes cx cx' := by
  unfold putObject putBytes
  by_cases hlarge : blobLimit < bytes.length
  · simp [hlarge]
  · obtain ⟨cas, hcas⟩ : ∃ cas, casPut cx.cas bytes = some cas := by
      rw [casPut, if_neg hlarge]
      split_ifs
      · exact ⟨_, rfl⟩
      · exact ⟨_, rfl⟩
    obtain ⟨hnew, hkeep⟩ := casPut_present hcas
    have hnone : (casGet cas (Platform.blobId bytes)).isNone = false :=
      Option.isNone_eq_false_iff.mpr hnew
    simp only [hlarge, if_false, hfree, Bool.false_eq_true, hcas, recordObject, hnone]
    refine ⟨iff_of_true ⟨_, rfl⟩ (not_lt.mp hlarge), fun cx' h => ?_⟩
    cases h
    refine ⟨not_lt.mp hlarge, rfl, rfl, rfl, ⟨?_, hnew⟩, fun id hid => ⟨?_, hkeep id hid.2⟩⟩
    · show (objectRowUpsert _ _ _ _).objects.any _ = true
      rw [any_objectRowUpsert, decide_eq_true rfl, Bool.or_true]
    · show (objectRowUpsert _ _ _ _).objects.any _ = true
      rw [any_objectRowUpsert, hid.1, Bool.true_or]

/-! ### The loop -/

section

variable {parent : MemNode Id} {m : Mount Id} {cx : RepoCx Id}

/-- Where the loop stands after some of the staged paths. -/
structure Uploading (cx : RepoCx Id) (m : Mount Id) (parent : MemNode Id) (done : List Path)
    (st : FlushState Id) : Prop where
  db : st.cx.db = cx.db
  trees : st.cx.trees = cx.trees
  id : st.cx.id = cx.id
  loaded : Loaded cx.trees parent st.dirs
  changes : st.changes = done.map (stagedChange m parent)
  present : ∀ p ∈ done, ∀ bytes, buffer m p = some bytes → Present st.cx (Platform.blobId bytes)
  capped : ∀ p ∈ done, ∀ bytes, buffer m p = some bytes → bytes.length ≤ blobLimit
  uploaded : ∀ bytes, Platform.blobId bytes ∈ st.uploaded →
    bytes.length ≤ blobLimit ∧ Present st.cx (Platform.blobId bytes)

/-- The server says of a staged path whether it is in the pinned tree. -/
theorem pinnedContains_staged {trees : List (TreeRow Id)} {pin : MountPin Id}
    (hpin : Pinned trees pin parent) {dirs : Dirs Id} (hdirs : Loaded trees parent dirs) {p : Path}
    (hp : Admitted parent p) : ∃ dirs', Loaded trees parent dirs' ∧
      pinnedContains (serverTree trees) pin dirs p = (.ok (parent.lookup p).isSome, dirs') := by
  obtain ⟨node, hnode⟩ := hp.dir
  have hnode' : nodeAt parent p.dirs.reverse.reverse = some node := by
    rw [List.reverse_reverse]
    exact hnode
  obtain ⟨entries, hentries⟩ := ensureDir_pinned hpin p.dirs.reverse hdirs hnode'
  obtain ⟨hloaded, hlists⟩ := ensureDir_loaded hpin (fun _ _ h => h) p.dirs.reverse hdirs
  have hlists := hlists entries hentries
  rw [List.reverse_reverse] at hlists
  have hchild := hlists.child p.leaf
  have hsome : (child entries p.leaf).isSome = (parent.lookup p).isSome := by
    rw [MemNode.lookup]
    split at hchild
    next hnone =>
      rw [hnone, hchild]
      rfl
    next e he =>
      rw [he]
      obtain ⟨-, hfile⟩ | ⟨found, fuel, -, hfound, -⟩ := hchild
      · cases hlookup : parent.lookupIn p.dirs p.leaf with
        | none =>
            rw [hlookup] at hfile
            cases hfile
        | some entry => rfl
      · rw [hfound]
        rfl
  cases hensure : ensureDir (serverTree trees) pin p.dirs.reverse dirs with
  | mk result dirs' =>
      rw [hensure] at hentries hloaded
      have hresult : result = .ok entries := hentries
      subst hresult
      refine ⟨dirs', hloaded, ?_⟩
      simp only [pinnedContains, hensure, hsome]

theorem flushOne_iff {nowNs : ℕ} (h : Overlay cx.trees parent m) (hpin : Pinned cx.trees m.pin parent)
    (hfree : ∀ id, redactionActive cx.db id = false) {done : List Path} {st : FlushState Id}
    (hst : Uploading cx m parent done st) {s : Path × ℕ × ℕ} (hs : s ∈ m.staged) :
    ((∃ st', flushOne nowNs m st s = .ok st') ↔
        ∀ bytes, buffer m s.1 = some bytes → bytes.length ≤ blobLimit) ∧
      ∀ st', flushOne nowNs m st s = .ok st' → Uploading cx m parent (done ++ [s.1]) st' := by
  have hmem : s.1 ∈ stagedPaths m := mem_stagedPaths.mpr (List.mem_map_of_mem hs)
  obtain ⟨bytes, hbytes, hfile⟩ := stagedFile_some h hmem
  obtain ⟨dirs', hloaded, hcontains⟩ :=
    pinnedContains_staged hpin hst.loaded (admitted_of_staged h hmem)
  have hshadow : m.shadow.lookup s.2.1 = some bytes := (h.shadow s hs).trans hbytes
  have hchange : (⟨s.1, if (parent.lookup s.1).isSome then .mod else .add,
      some (Platform.blobId bytes), some bytes.length, some false⟩ : FileChange Id) =
        stagedChange m parent s.1 := by
    unfold stagedChange
    rw [hfile]
    rfl
  have hcap : (∀ found, buffer m s.1 = some found → found.length ≤ blobLimit) ↔
      bytes.length ≤ blobLimit := by
    rw [hbytes]
    exact ⟨fun hall => hall bytes rfl, fun hle found hfound => Option.some.inj hfound ▸ hle⟩
  -- what the state after this path needs of the server
  have hnext : ∀ cx' uploaded, bytes.length ≤ blobLimit → cx'.db = cx.db → cx'.trees = cx.trees →
      cx'.id = cx.id → Present cx' (Platform.blobId bytes) →
      (∀ id, Present st.cx id → Present cx' id) →
      (∀ id ∈ uploaded, id ∈ st.uploaded ∨ id = Platform.blobId bytes) →
      Uploading cx m parent (done ++ [s.1])
        ⟨dirs', cx', uploaded, st.changes ++ [stagedChange m parent s.1]⟩ := by
    intro cx' uploaded hle hdb htrees hid hnew hkeeps huploaded
    have hlast : ∀ p ∈ done ++ [s.1], p ∈ done ∨ p = s.1 := fun p hp =>
      (List.mem_append.mp hp).imp_right List.mem_singleton.mp
    refine ⟨hdb, htrees, hid, hloaded, ?_, fun p hp found hfound => ?_, fun p hp found hfound => ?_,
      fun found hfound => ?_⟩
    · show st.changes ++ _ = _
      rw [hst.changes, List.map_append, List.map_singleton]
    · rcases hlast p hp with hp | rfl
      · exact hkeeps _ (hst.present p hp found hfound)
      · rw [hbytes] at hfound
        cases hfound
        exact hnew
    · rcases hlast p hp with hp | rfl
      · exact hst.capped p hp found hfound
      · rw [hbytes] at hfound
        cases hfound
        exact hle
    · rcases huploaded _ hfound with hold | heq
      · exact ⟨(hst.uploaded found hold).1, hkeeps _ (hst.uploaded found hold).2⟩
      · rw [Platform.blobId_inj heq]
        exact ⟨hle, hnew⟩
  rw [hcap]
  unfold flushOne
  simp only [hshadow, hst.trees, hcontains, hchange]
  by_cases hseen : Platform.blobId bytes ∈ st.uploaded
  · obtain ⟨hle, hnew⟩ := hst.uploaded bytes hseen
    simp only [hseen, if_true]
    refine ⟨iff_of_true ⟨_, rfl⟩ hle, fun st' hok => ?_⟩
    cases hok
    exact hnext st.cx st.uploaded hle hst.db hst.trees hst.id hnew (fun _ hid => hid)
      fun id hid => .inl hid
  · simp only [hseen, if_false]
    have hfree' : ∀ id, redactionActive st.cx.db id = false := fun id => by
      rw [hst.db]
      exact hfree id
    obtain ⟨hiff, hput⟩ := @putObject_iff _ _ nowNs st.cx bytes hfree'
    rw [← hiff]
    cases hrun : putObject nowNs st.cx bytes with
    | error e => simp
    | ok cx' =>
        have hp := hput cx' hrun
        refine ⟨iff_of_true ⟨_, rfl⟩ ⟨_, rfl⟩, fun st' hok => ?_⟩
        cases hok
        refine hnext cx' _ hp.cap (hp.db.trans hst.db) (hp.trees.trans hst.trees)
          (hp.id.trans hst.id) hp.new hp.keeps fun id hid => ?_
        exact (List.mem_cons.mp hid).symm

/-- The uploads go through exactly when every staged file is within the cap. -/
theorem flushLoop_iff {nowNs : ℕ} (h : Overlay cx.trees parent m)
    (hpin : Pinned cx.trees m.pin parent) (hfree : ∀ id, redactionActive cx.db id = false)
    {rest : List (Path × ℕ × ℕ)} (hrest : ∀ s ∈ rest, s ∈ m.staged) {done : List Path}
    {st : FlushState Id} (hst : Uploading cx m parent done st) :
    ((∃ st', rest.foldlM (flushOne nowNs m) st = .ok st') ↔
        ∀ s ∈ rest, ∀ bytes, buffer m s.1 = some bytes → bytes.length ≤ blobLimit) ∧
      ∀ st', rest.foldlM (flushOne nowNs m) st = .ok st' →
        Uploading cx m parent (done ++ rest.map Prod.fst) st' := by
  induction rest generalizing done st with
  | nil =>
      refine ⟨iff_of_true ⟨st, rfl⟩ fun s hs => absurd hs List.not_mem_nil, fun st' hok => ?_⟩
      cases hok
      rw [List.map_nil, List.append_nil]
      exact hst
  | cons s rest ih =>
      obtain ⟨hone, hnext⟩ := @flushOne_iff _ _ _ _ _ nowNs h hpin hfree done st hst s
        (hrest s List.mem_cons_self)
      have hrest := fun t ht => hrest t (List.mem_cons_of_mem _ ht)
      rw [List.forall_mem_cons, ← hone, List.foldlM_cons]
      refine ⟨⟨?_, ?_⟩, fun st' hok => ?_⟩
      · rintro ⟨st', hok⟩
        obtain ⟨mid, hmid, hok⟩ := Lib.bind_eq_ok.mp hok
        exact ⟨⟨mid, hmid⟩, (ih hrest (hnext mid hmid)).1.mp ⟨st', hok⟩⟩
      · rintro ⟨⟨mid, hmid⟩, hall⟩
        obtain ⟨st', hok⟩ := (ih hrest (hnext mid hmid)).1.mpr hall
        exact ⟨st', Lib.bind_eq_ok.mpr ⟨mid, hmid, hok⟩⟩
      · obtain ⟨mid, hmid, hok⟩ := Lib.bind_eq_ok.mp hok
        have hlast := (ih hrest (hnext mid hmid)).2 st' hok
        rw [List.append_assoc, List.singleton_append] at hlast
        exact hlast

end

/-! ### The create -/

section

variable {parent : MemNode Id} {m : Mount Id} {cx : RepoCx Id} {call : FlushCall}
  {row : ChangesetRow Id}

theorem createLookup_flush (hpin : changesetGet cx.db m.pin.changeset = some row)
    (changes : List (FileChange Id)) :
    createLookup cx.db (flushRequest call m changes) =
      match (changes.map fun c => c.path).find? fun p => !scopeAllows call.scope p.text with
      | some p =>
          .error ((ApiError.new .forbidden "path is outside this token's scope").withDetails
            (.path p))
      | none => .ok [(row.generation, row.rootTreeId)] := by
  have hmissing : [m.pin.changeset].filter (fun p => (changesetGet cx.db p).isNone) = [] := by
    rw [List.filter_cons, hpin]
    rfl
  have hmetas : [m.pin.changeset].filterMap (fun p =>
      (changesetGet cx.db p).map fun row => (row.generation, row.rootTreeId)) =
      [(row.generation, row.rootTreeId)] := by
    rw [List.filterMap_cons, hpin]
    rfl
  unfold createLookup
  simp only [flushRequest]
  cases (changes.map fun c => c.path).find? fun p => !scopeAllows call.scope p.text with
  | some p => rfl
  | none =>
      simp only [List.length_singleton, lt_irrefl, if_false, hmissing, ne_eq, not_true_eq_false,
        hmetas]

theorem flushRequest_formed {trees : List (TreeRow Id)} (h : Overlay trees parent m)
    (hne : m.staged ≠ []) (hrepo : checkText m.repo = .ok ())
    (hhex : checkText (Platform.toHex m.pin.changeset) = .ok ()) :
    (flushRequest call m ((stagedPaths m).map (stagedChange m parent))).Formed := by
  have hpaths : ((stagedPaths m).map (stagedChange m parent)).map (fun c => c.path) =
      stagedPaths m := by
    rw [List.map_map]
    exact List.map_id _
  refine ⟨fun c hc => ?_, ?_, fun c hc => ?_, ?_, checkText_flushMessage hrepo hhex _,
    by show 1 ≤ maxParents; decide, fun hnil => hne ?_⟩
  · obtain ⟨p, hp, rfl⟩ := List.mem_map.mp hc
    exact (stagedChange_file h hp).2.2
  · show pathsAscend (((stagedPaths m).map (stagedChange m parent)).map fun c => c.path) = true
    rw [hpaths, pathsAscend, decide_eq_true_eq]
    have htrans : IsTrans Path fun p q => p.text < q.text :=
      ⟨fun _ _ _ hab hbc => lt_trans hab hbc⟩
    exact List.isChain_iff_pairwise.mpr (stagedPaths_ascend h)
  · obtain ⟨p, hp, rfl⟩ := List.mem_map.mp hc
    exact (admitted_of_staged h hp).valid
  · show checkText "naatre mount" = .ok ()
    decide
  · have hnone : stagedPaths m = [] := List.map_eq_nil_iff.mp hnil
    rw [← List.length_eq_zero_iff, ← length_stagedPaths, hnone]
    rfl

/-- The file of a staged path, any file for another. -/
def fileOf (m : Mount Id) (p : Path) : FileMeta Id :=
  (stagedFile m p).getD ⟨Platform.blobId [], 0, false⟩

theorem stagedFiles_eq {trees : List (TreeRow Id)} (h : Overlay trees parent m) :
    stagedFiles m = ((stagedPaths m).map (stagedChange m parent)).map
      fun c => (c.path, fileOf m c.path) := by
  rw [stagedFiles, List.map_map, ← List.filterMap_eq_map]
  refine List.filterMap_congr fun p hp => ?_
  obtain ⟨bytes, -, hfile⟩ := stagedFile_some h hp
  simp only [Function.comp_apply, stagedChange, fileOf, hfile, Option.map_some, Option.getD_some]

theorem stagedChanges_ordered {trees : List (TreeRow Id)} (h : Overlay trees parent m) :
    ((stagedPaths m).map (stagedChange m parent)).Pairwise FileChange.Ordered := by
  rw [List.pairwise_map]
  refine (stagedPaths_ascend h).imp fun {p q} hlt => ?_
  have hpaths : (stagedChange m parent p).path.text < (stagedChange m parent q).path.text := hlt
  exact FileChange.ordered_of_lt hpaths

/-- The staged changes apply where no staged path is a pinned directory, and
nowhere else. -/
theorem apply_staged {trees : List (TreeRow Id)} (h : Overlay trees parent m)
    (hsorted : parent.Sorted) :
    ((∀ p ∈ stagedPaths m, ¬MemEntry.IsDir (parent.lookup p)) →
      parent.apply ((stagedPaths m).map (stagedChange m parent)) =
        .ok (parent.overlaid (stagedFiles m))) ∧
    ∀ node, parent.apply ((stagedPaths m).map (stagedChange m parent)) = .ok node →
      (∀ p ∈ stagedPaths m, ¬MemEntry.IsDir (parent.lookup p)) ∧
        ∀ p, filesAt node p = (stagedFile m p).or (filesAt parent p) := by
  have horder := stagedChanges_ordered h
  have hadd : ∀ c ∈ (stagedPaths m).map (stagedChange m parent), c.op = .add →
      parent.lookup c.path = none := by
    intro c hc hop
    obtain ⟨p, hp, rfl⟩ := List.mem_map.mp hc
    show parent.lookup p = none
    cases hlookup : parent.lookup p with
    | none => rfl
    | some e =>
        simp only [stagedChange, hlookup, Option.isSome_some, if_true] at hop
        cases hop
  refine ⟨fun hdirs => ?_, fun node happly => ⟨fun p hp hdir => ?_, fun p => ?_⟩⟩
  · rw [stagedFiles_eq h]
    refine apply_writes hsorted horder fun c hc => ?_
    obtain ⟨p, hp, rfl⟩ := List.mem_map.mp hc
    obtain ⟨bytes, -, hfile⟩ := stagedFile_some h hp
    refine stagedChange_writes h hp (hdirs p hp) (hfile.trans ?_)
    show _ = some (fileOf m p)
    rw [fileOf, hfile]
    rfl
  · -- a directory is sent as a change of a file
    have hframed := apply_framed hsorted horder happly hadd
    have hmod : (stagedChange m parent p).op ≠ .add := by
      obtain ⟨child, hchild⟩ := hdir
      simp only [stagedChange, hchild, Option.isSome_some, if_true]
      decide
    obtain ⟨file, hfile⟩ := hframed.changed _ (List.mem_map_of_mem hp) hmod
    have hnone : filesAt parent p = none := by
      rw [filesAt_eq_lookup hsorted]
      exact MemEntry.toFile_of_isDir hdir
    have hfile : filesAt parent p = some file := hfile
    rw [hnone] at hfile
    cases hfile
  · have happlied := apply_applied hsorted horder (fun c hc hop hdir => by
      obtain ⟨child, hchild⟩ := hdir
      rw [hadd c hc hop] at hchild
      cases hchild) happly
    rw [filesAt_eq_lookup happlied.sorted, happlied.files, filesAt_eq_lookup hsorted]
    by_cases hp : p ∈ stagedPaths m
    · have hc : stagedChange m parent p ∈ (stagedPaths m).map (stagedChange m parent) :=
        List.mem_map_of_mem hp
      have hwritten : changed ((stagedPaths m).map (stagedChange m parent))
          (fun q => MemEntry.toFile (parent.lookup q)) (stagedChange m parent p).path =
            (stagedChange m parent p).file := changed_of_mem horder hc
      obtain ⟨bytes, -, hfile⟩ := stagedFile_some h hp
      rw [show (stagedChange m parent p).path = p from rfl, (stagedChange_file h hp).1, hfile]
        at hwritten
      rw [hwritten, hfile, Option.some_or]
    · rw [changed_of_fresh, stagedFile_none h hp, Option.none_or]
      intro c hc heq
      obtain ⟨q, hq, rfl⟩ := List.mem_map.mp hc
      exact hp (heq ▸ hq)

/-- What the create asks of the overlay. -/
structure CreateFits (call : FlushCall) (m : Mount Id) (cx : RepoCx Id) (parent : MemNode Id) :
    Prop where
  files : ∀ p ∈ stagedPaths m, ¬MemEntry.IsDir (parent.lookup p)
  folds : FoldsApart (Platform.lower Id) (stagedPaths m)
  scope : ∀ p ∈ stagedPaths m, scopeAllows call.scope p.text = true
  count : m.staged.length ≤ maxEntries
  encoded : (stagedChangeset call m cx parent).encodedLen ≤ maxObjectBytes
  tree : (parent.overlaid (stagedFiles m)).Fits
  fresh : ∀ canonical : Canonical Id, canonical.cs = stagedChangeset call m cx parent →
    changesetGet cx.db (Platform.changesetId canonical) = none

/-- The new changeset's tree, as the server stores it. -/
structure Created (m : Mount Id) (parent : MemNode Id) (created : ChangesetCreated Id)
    (cx' : RepoCx Id) (row : ChangesetRow Id) (node : MemNode Id) : Prop where
  stored : changesetGet cx'.db created.id = some row
  root : row.rootTreeId = created.rootTreeId
  load : MemNode.load cx'.trees (some created.rootTreeId) = .ok node
  files : ∀ p, filesAt node p = (stagedFile m p).or (filesAt parent p)

/-- The create after the uploads. -/
theorem createChangeset_iff (h : Overlay cx.trees parent m) (hne : m.staged ≠ [])
    (hwf : TreesWf cx.trees) (hrow : changesetGet cx.db m.pin.changeset = some row)
    (hload : MemNode.load cx.trees (some row.rootTreeId) = .ok parent)
    (hfree : ∀ id, redactionActive cx.db id = false) (hrepo : checkText m.repo = .ok ())
    (hhex : checkText (Platform.toHex m.pin.changeset) = .ok ()) {st : FlushState Id}
    (hst : Uploading cx m parent (stagedPaths m) st) :
    ((∃ created cx', createChangeset call.nowNs st.cx (flushRequest call m st.changes) =
        .ok (created, cx')) ↔ CreateFits call m cx parent) ∧
      ∀ created cx', createChangeset call.nowNs st.cx (flushRequest call m st.changes) =
        .ok (created, cx') → ∃ row node, Created m parent created cx' row node := by
  have hsorted := load_sorted hwf hload
  have hformed := @flushRequest_formed _ _ parent m call _ h hne hrepo hhex
  have hpaths : ((stagedPaths m).map (stagedChange m parent)).map (fun c => c.path) =
      stagedPaths m := by
    rw [List.map_map]
    exact List.map_id _
  have hscopes : createLookup st.cx.db (flushRequest call m st.changes) =
      match (stagedPaths m).find? fun p => !scopeAllows call.scope p.text with
      | some p =>
          .error ((ApiError.new .forbidden "path is outside this token's scope").withDetails
            (.path p))
      | none => .ok [(row.generation, row.rootTreeId)] := by
    rw [hst.db, createLookup_flush hrow, hst.changes, hpaths]
  have hprepare := createPrepare_iff hformed cx.id call.nowNs [(row.generation, row.rootTreeId)]
  have hcount : ((stagedPaths m).map (stagedChange m parent)).length = m.staged.length := by
    rw [List.length_map, length_stagedPaths]
  -- a prepared create is the staged changeset, and nothing stands in its way
  have hprepared : ∀ p, createPrepare cx.id call.nowNs
      (flushRequest call m ((stagedPaths m).map (stagedChange m parent)))
        [(row.generation, row.rootTreeId)] = .ok p →
      p.canonical.cs = stagedChangeset call m cx parent ∧ p.Clear st.cx ∧
        MemNode.load st.cx.trees p.parentRoot = .ok parent := by
    intro p hp
    obtain ⟨hcs, -, hparent⟩ := createPrepare_ok hp
    have hblobs : ∀ id ∈ changeBlobs p.canonical.cs.changes, Present st.cx id := by
      intro id hid
      rw [hcs, changeBlobs, mem_membersInsert] at hid
      obtain ⟨c, hc, hblob⟩ := List.mem_filterMap.mp (hid.resolve_left List.not_mem_nil)
      obtain ⟨q, hq, rfl⟩ := List.mem_map.mp hc
      obtain ⟨bytes, hbytes, hfile⟩ := stagedFile_some h hq
      rw [if_neg (stagedChange_file h hq).2.1] at hblob
      simp only [stagedChange, hfile, Option.map_some, Option.some.injEq] at hblob
      exact hblob ▸ hst.present q hq bytes hbytes
    have hfree' : ∀ id, redactionActive st.cx.db id = false := fun id => by
      rw [hst.db]
      exact hfree id
    refine ⟨hcs, ⟨hfree' _, ?_, missingBlobs_of_present hblobs⟩, ?_⟩
    · have hnone : (changeBlobs p.canonical.cs.changes).dedup.filter (redactionActive st.cx.db) =
          [] := by
        refine List.filter_eq_nil_iff.mpr fun id _ => ?_
        rw [hfree' id]
        exact Bool.false_ne_true
      rw [redactionsActiveAmong, hnone]
      rfl
    · rw [hst.trees, hparent]
      exact hload
  have hframe : ∀ p : PreparedCreate Id, p.canonical.cs = stagedChangeset call m cx parent →
      ∀ canonical : Canonical Id, canonical.cs = stagedChangeset call m cx parent →
        canonical = p.canonical := by
    intro p hp canonical hcanonical
    obtain ⟨cs, henc⟩ := canonical
    have hcs : cs = p.canonical.cs := hcanonical.trans hp.symm
    subst hcs
    rfl
  obtain ⟨happly, happlied⟩ := apply_staged h hsorted
  unfold createChangeset
  simp only [Lib.bind_eq_ok]
  refine ⟨⟨?_, fun hfits => ?_⟩, ?_⟩
  · rintro ⟨created, cx', metas, hlookup, p, hp, hpersist⟩
    rw [hscopes] at hlookup
    split at hlookup
    next => cases hlookup
    next hallowed =>
      cases hlookup
      rw [hst.id, hst.changes] at hp
      obtain ⟨hcs, hclear, hparent⟩ := hprepared p hp
      obtain ⟨hfold, hentries, hlen⟩ := hprepare.mp ⟨p, hp⟩
      obtain ⟨hnew, node, hnode, hfits⟩ :=
        (persist_iff hclear hparent hsorted).mp ⟨created, cx', hpersist⟩
      rw [hcs] at hnode
      have hdirs := (happlied node hnode).1
      have heq := hnode.symm.trans (happly hdirs)
      cases heq
      refine ⟨hdirs, hpaths ▸ hfold, fun q hq => ?_, hcount ▸ hentries, hlen, hfits,
        fun canonical hcanonical => ?_⟩
      · simpa using List.find?_eq_none.mp hallowed q hq
      · rw [hframe p hcs canonical hcanonical, ← hst.db]
        exact hnew
  · obtain ⟨p, hp⟩ := hprepare.mpr ⟨hpaths.symm ▸ hfits.folds, hcount.symm ▸ hfits.count,
      hfits.encoded⟩
    obtain ⟨hcs, hclear, hparent⟩ := hprepared p hp
    have hallowed : (stagedPaths m).find? (fun p => !scopeAllows call.scope p.text) = none := by
      refine List.find?_eq_none.mpr fun q hq => ?_
      rw [hfits.scope q hq]
      exact Bool.false_ne_true
    obtain ⟨done, cx', hpersist⟩ := (persist_iff hclear hparent hsorted).mpr
      ⟨by rw [hst.db]; exact hfits.fresh _ hcs, _, by rw [hcs]; exact happly hfits.files, hfits.tree⟩
    refine ⟨done, cx', [(row.generation, row.rootTreeId)], ?_, p, ?_, hpersist⟩
    · rw [hscopes, hallowed]
    · rw [hst.id, hst.changes]
      exact hp
  · rintro created cx' ⟨metas, hlookup, p, hp, hpersist⟩
    rw [hscopes] at hlookup
    split at hlookup
    next => cases hlookup
    next hallowed =>
      cases hlookup
      rw [hst.id, hst.changes] at hp
      obtain ⟨hcs, hclear, hparent⟩ := hprepared p hp
      obtain ⟨w⟩ := persist_ok hpersist
      have hanswer := w.answer
      rw [hpersist] at hanswer
      cases hanswer
      have hstored := w.parent_ok
      rw [hparent] at hstored
      cases hstored
      have hnode := w.apply_ok
      rw [hcs] at hnode
      obtain ⟨hfresh, hcx⟩ := changesetInsertRows_some w.insert_ok
      have hrows : cx'.db.changesets = st.cx.db.changesets ++ _ :=
        congrArg (fun cx => cx.db.changesets) hcx
      have htrees : cx'.trees = treesInsert st.cx.trees w.trees :=
        congrArg (fun cx => cx.trees) hcx
      refine ⟨_, w.node, changesetGet_append_new hrows hfresh, rfl, ?_, (happlied w.node hnode).2⟩
      rw [htrees]
      exact load_collect w.collect_ok (hst.trees ▸ hwf)

end

/-- A flush is accepted with the right tree exactly where the overlay fits. -/
theorem flush_exact_iff {ok : Server Id → Event Id → Prop} {s : Server Id} (hreach : Server.Reach ok s)
    {r : RepoId} {m : Mount Id} {row : ChangesetRow Id} {parent : MemNode Id}
    (hmounted : Mounted (s.cx r).trees m)
    (hrow : changesetGet (s.cx r).db m.pin.changeset = some row)
    (hroot : row.rootTreeId = m.pin.rootTree)
    (hload : MemNode.load (s.cx r).trees (some m.pin.rootTree) = .ok parent)
    (hfree : ∀ id, redactionActive (s.cx r).db id = false)
    (hrepo : checkText m.repo = .ok ())
    (hhex : checkText (Platform.toHex m.pin.changeset) = .ok ()) (call : FlushCall) :
    FlushExact call m (s.cx r) parent ↔ m.staged = [] ∨ FlushFits call m (s.cx r) parent := by
  have hwf : TreesWf (s.cx r).trees := Server.treesWf_of_reach hreach _
  generalize s.cx r = cx at *
  have hsorted := load_sorted hwf hload
  have hpinned : Pinned cx.trees m.pin parent := ⟨_, hload⟩
  have h := overlay_of_mounted hmounted hpinned
  by_cases hempty : m.staged = []
  · refine iff_of_true ⟨none, cx, ?_, ?_⟩ (.inl hempty)
    · have hnil : (stagedInOrder m).isEmpty = true := by
        rw [stagedInOrder, hempty]
        rfl
      simp only [flush, h.writable, Bool.not_true, Bool.false_eq_true, if_false, hnil, if_true]
    · rw [if_pos hempty]
      exact ⟨rfl, rfl⟩
  have hnonempty : (stagedInOrder m).isEmpty = false := by
    rw [List.isEmpty_eq_false_iff]
    intro hnil
    refine hempty (List.length_eq_zero_iff.mp ?_)
    rw [← length_stagedPaths, stagedPaths, hnil]
    rfl
  obtain ⟨hloop, hnext⟩ := @flushLoop_iff _ _ _ _ _ call.nowNs h hpinned hfree (stagedInOrder m)
    (fun t ht => (List.mem_insertionSort _).mp ht) [] ⟨m.dirs, cx, [], []⟩
    ⟨rfl, rfl, rfl, h.loaded, rfl, fun _ hp => absurd hp List.not_mem_nil,
      fun _ hp => absurd hp List.not_mem_nil, fun _ hb => absurd hb List.not_mem_nil⟩
  have hblobs : (∀ t ∈ stagedInOrder m, ∀ bytes, buffer m t.1 = some bytes →
      bytes.length ≤ blobLimit) ↔ ∀ p bytes, buffer m p = some bytes → bytes.length ≤ blobLimit := by
    refine ⟨fun hall p bytes hbytes => ?_, fun hall t _ bytes hbytes => hall t.1 bytes hbytes⟩
    have hp : p ∈ stagedPaths m := mem_stagedPaths.mpr ((h.covers p).mp (by rw [hbytes]; rfl))
    obtain ⟨t, ht, rfl⟩ := List.mem_map.mp hp
    exact hall t ht bytes hbytes
  rw [hblobs] at hloop
  have hcreate := fun st hst => @createChangeset_iff _ _ parent m cx call row h hempty hwf hrow
    (hroot ▸ hload) hfree hrepo hhex st hst
  have hflush : flush call m cx =
      match (stagedInOrder m).foldlM (flushOne call.nowNs m) ⟨m.dirs, cx, [], []⟩ with
      | .error e => .error e
      | .ok st =>
      match createChangeset call.nowNs st.cx (flushRequest call m st.changes) with
      | .error e => .error (.http e)
      | .ok (created, cx) => .ok (some ⟨created.id, created.rootTreeId, st.changes.length⟩, cx) := by
    simp only [flush, h.writable, Bool.not_true, Bool.false_eq_true, if_false, hnonempty]
  rw [or_iff_right hempty]
  constructor
  · rintro ⟨done, cx', hok, -⟩
    rw [hflush] at hok
    split at hok
    next => cases hok
    next st hst =>
      split at hok
      next => cases hok
      next created cx'' hcreated =>
        have hfits := (hcreate st (hnext st hst)).1.mp ⟨created, cx'', hcreated⟩
        exact ⟨hfits.files, hfits.folds, hfits.scope, hloop.mp ⟨st, hst⟩, hfits.count,
          hfits.encoded, hfits.tree, hfits.fresh⟩
  · intro hfits
    obtain ⟨st, hst⟩ := hloop.mpr hfits.blobs
    have huploaded := hnext st hst
    obtain ⟨hiff, hcreated⟩ := hcreate st huploaded
    obtain ⟨created, cx', hok⟩ := hiff.mpr ⟨hfits.files, hfits.folds, hfits.scope, hfits.count,
      hfits.encoded, hfits.tree, hfits.fresh⟩
    obtain ⟨row', node, hdone⟩ := hcreated created cx' hok
    refine ⟨some ⟨created.id, created.rootTreeId, st.changes.length⟩, cx', ?_, ?_⟩
    · rw [hflush, hst]
      dsimp only
      rw [hok]
    · rw [if_neg hempty]
      refine ⟨_, row', node, rfl, ?_, hdone.stored, hdone.root, hdone.load, hdone.files⟩
      show st.changes.length = _
      rw [huploaded.changes, List.length_map]
      exact length_stagedPaths

end

/-! ### A file over a directory -/

namespace OverDir

open Server.AddOverDir

/-- A mount of the imported commit with its file `d/x`, where one call made the
file `name`. -/
def mounted (s : Server PlainId) (name : String) : Option (Mount PlainId) :=
  match (s.dbs 1).changesets with
  | [] => none
  | row :: _ =>
      Lib.exec step ⟨"r", ⟨row.id, row.rootTreeId⟩, true, [], [], [], [], []⟩
        [.create (serverTree (s.cx 1).trees) "" name, .stage 0]

def flushCall : FlushCall := ⟨"ann", none, 7, 8⟩

/-- The server and the mount, with a property of the two. -/
def holds (name : String) (check : Server PlainId → Mount PlainId → Bool) : Bool :=
  (Lib.exec Server.step start imported).any fun s =>
    (mounted s name).any fun m =>
      (s.cx 1).db.redactions.isEmpty && !m.staged.isEmpty &&
        (match checkText m.repo, checkText (Platform.toHex m.pin.changeset) with
          | .ok (), .ok () => true
          | _, _ => false) &&
        (match changesetGet (s.cx 1).db m.pin.changeset with
          | none => false
          | some row => decide (row.rootTreeId = m.pin.rootTree)) &&
        (match MemNode.load (s.cx 1).trees (some m.pin.rootTree) with
          | .error _ => false
          | .ok _ => true) &&
        check s m

/-- A server and a mount as a flush meets them. -/
structure Ready (s : Server PlainId) (m : Mount PlainId) (row : ChangesetRow PlainId)
    (parent : MemNode PlainId) : Prop where
  reach : Server.Reach (fun _ _ => True) s
  mounted : Mounted (s.cx 1).trees m
  stored : changesetGet (s.cx 1).db m.pin.changeset = some row
  root : row.rootTreeId = m.pin.rootTree
  load : MemNode.load (s.cx 1).trees (some m.pin.rootTree) = .ok parent
  free : ∀ id, redactionActive (s.cx 1).db id = false
  repo : checkText m.repo = .ok ()
  hex : checkText (Platform.toHex m.pin.changeset) = .ok ()
  staged : m.staged ≠ []

theorem ready_of_holds {name : String} {check : Server PlainId → Mount PlainId → Bool}
    (h : holds name check = true) :
    ∃ s m row parent, Ready s m row parent ∧ check s m = true := by
  obtain ⟨s, hs, h⟩ := (Option.any_eq_true _ _).mp h
  obtain ⟨m, hm, h⟩ := (Option.any_eq_true _ _).mp h
  simp only [Bool.and_eq_true] at h
  obtain ⟨⟨⟨⟨⟨hfree, hstaged⟩, htexts⟩, hrow⟩, hload⟩, hcheck⟩ := h
  have hstart : Server.Init start := ⟨.singleDb, [(1, "r")], 100, 10, by decide, rfl⟩
  have hreach : Server.Reach (fun _ _ => True) s := Lib.Reach.exec (.start hstart) (by simp) hs
  have hmounted : Mounted (s.cx 1).trees m := by
    unfold mounted at hm
    split at hm
    next => cases hm
    next row rest hrows =>
      refine Lib.Reach.exec (.start ⟨rfl, rfl, rfl, rfl, rfl, rfl⟩) (fun _ e he => ?_) hm
      rw [List.mem_cons, List.mem_singleton] at he
      rcases he with rfl | rfl
      · exact fun _ _ h => h
      · trivial
  split at hrow
  next => cases hrow
  next row hstored =>
    split at hload
    next => cases hload
    next parent hparent =>
      split at htexts
      next hrepo hhex =>
        refine ⟨s, m, row, parent, ⟨hreach, hmounted, hstored, of_decide_eq_true hrow, hparent,
          fun id => ?_, hrepo, hhex, fun hnil => ?_⟩, hcheck⟩
        · rw [redactionActive, List.isEmpty_iff.mp hfree]
          rfl
        · rw [hnil] at hstaged
          cases hstaged
      next => cases htexts

/-- The flush makes a changeset. -/
def flushed (s : Server PlainId) (m : Mount PlainId) : Bool :=
  match flush flushCall m (s.cx 1) with
  | .ok (some _, _) => true
  | _ => false

end OverDir

open OverDir in
/-- The flush of a new file `e` is exact, and so its overlay fits. -/
theorem flush_exact_iff_new_file : ∃ s m row parent, Ready s m row parent ∧
    (∃ done cx', flush flushCall m (s.cx 1) = .ok (some done, cx')) ∧
    (FlushExact flushCall m (s.cx 1) parent ↔
      m.staged = [] ∨ FlushFits flushCall m (s.cx 1) parent) := by
  have hholds : holds "e" flushed = true := by decide +kernel
  obtain ⟨s, m, row, parent, hready, hok⟩ := ready_of_holds hholds
  refine ⟨s, m, row, parent, hready, ?_, flush_exact_iff hready.reach hready.mounted hready.stored
    hready.root hready.load hready.free hready.repo hready.hex flushCall⟩
  unfold flushed at hok
  split at hok
  next done cx' hflush => exact ⟨done, cx', hflush⟩
  next => cases hok

open OverDir in
/-- A file named as the directory `d` is made and staged, and the server refuses
the flush. -/
theorem flush_over_dir_refused : ∃ s m row parent, Ready s m row parent ∧
    ¬FlushExact flushCall m (s.cx 1) parent := by
  have hholds : holds "d" (fun s m =>
      match flush flushCall m (s.cx 1) with
      | .ok _ => false
      | .error _ => true) = true := by
    decide +kernel
  obtain ⟨s, m, row, parent, hready, herror⟩ := ready_of_holds hholds
  refine ⟨s, m, row, parent, hready, fun ⟨done, cx', hok, _⟩ => ?_⟩
  rw [hok] at herror
  cases herror

end Vfs

end Naatre.Client
