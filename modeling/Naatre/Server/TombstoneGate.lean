import Mathlib.Data.List.Infix
import Naatre.Core.Plain
import Naatre.Server.TreeSteps

/-!
The tombstone gate of the writers. Each of them probes the tombstones over ids
of its own; together they let no later step name a tombstoned id again, nor
compute a blob from its content.
-/

namespace Naatre

section

variable {Id : Type} [Platform Id]

/-! ### The ids of a row -/

theorem mem_membersInsert {rows ids : List Id} {x : Id} :
    x ∈ membersInsert rows ids ↔ x ∈ rows ∨ x ∈ ids := by
  induction ids generalizing rows with
  | nil => simp [membersInsert]
  | cons id ids ih =>
      have hstep : membersInsert rows (id :: ids) =
          membersInsert (if id ∈ rows then rows else rows ++ [id]) ids := rfl
      rw [hstep, ih, List.mem_cons]
      split_ifs with hid
      · constructor
        · rintro (h | h)
          · exact .inl h
          · exact .inr (.inr h)
        · rintro (h | rfl | h)
          · exact .inl h
          · exact .inl hid
          · exact .inr h
      · rw [List.mem_append, List.mem_singleton, or_assoc]

/-- The changes of a frame carry their payload. -/
theorem Canonical.payloadOk (canonical : Canonical Id) :
    ∀ c ∈ canonical.cs.changes, c.payloadOk = true := by
  have h := canonical.encodable
  unfold Changeset.encodeError at h
  split at h
  · cases h
  split at h
  · cases h
  split at h
  · cases h
  split at h
  · cases h
  next hall => simpa using hall

/-- A Del names no blob: the blobs of a frame's changes are those an Add or a
Mod names. -/
theorem mem_changeBlobs {canonical : Canonical Id} {x : Id}
    (h : x ∈ canonical.cs.changes.filterMap (fun c => c.blob)) :
    x ∈ changeBlobs canonical.cs.changes := by
  obtain ⟨c, hc, hblob⟩ := List.mem_filterMap.mp h
  refine mem_membersInsert.mpr (.inr (List.mem_filterMap.mpr ⟨c, hc, ?_⟩))
  have hpayload := canonical.payloadOk c hc
  by_cases hdel : c.op = .del
  · rw [FileChange.payloadOk, if_pos hdel, hblob] at hpayload
    simp at hpayload
  · rw [if_neg hdel, hblob]

/-- A row names no tombstoned id. -/
structure RowFree (db : RepoTables Id) (row : ChangesetRow Id) : Prop where
  id : redactionActive db row.id = false
  blobs : ∀ b ∈ row.blobs, redactionActive db b = false
  reps : ∀ b ∈ repBlobs row.canonical.cs, redactionActive db b = false

/-- The rows of a table stayed or name no tombstoned id. -/
def RowsFree (db db' : RepoTables Id) : Prop :=
  ∀ row ∈ db'.changesets, row ∈ db.changesets ∨ RowFree db row

theorem RowsFree.of_subset {db db' : RepoTables Id} (h : db'.changesets ⊆ db.changesets) :
    RowsFree db db' := fun _ hrow => .inl (h hrow)

theorem Persisted.rowsFree {cx cx' : RepoCx Id} {p : PreparedCreate Id} (w : Persisted cx p cx')
    (hreps : p.canonical.cs.conflicts = []) : RowsFree cx.db cx'.db := by
  obtain ⟨-, hcx⟩ := changesetInsertRows_some w.insert_ok
  intro row hrow
  rw [hcx] at hrow
  rcases List.mem_append.mp hrow with hrow | hrow
  · exact .inl hrow
  · rw [List.mem_singleton.mp hrow]
    refine .inr ⟨w.cs_free, fun b hb => ?_, fun b hb => ?_⟩
    · exact redactionsActiveAmong_eq_nil w.blobs_free b (mem_changeBlobs hb)
    · simp only [repBlobs, ChangesetInsert.row, hreps, List.flatMap_nil] at hb
      exact absurd hb List.not_mem_nil

/-- The row a gated round inserts names no tombstoned id. -/
theorem gate_rowFree {db : RepoTables Id} {repoName : String} {merged : MergedTree Id}
    {canonical : Canonical Id} {row : ChangesetRow Id}
    (h : gateError db repoName merged canonical.cs (Platform.changesetId canonical) = none)
    (hid : row.id = Platform.changesetId canonical) (hcanonical : row.canonical = canonical)
    (hchanges : row.changes = canonical.cs.changes) : RowFree db row := by
  have hgate := gateError_none h
  simp only [gateIds, List.mem_append, List.mem_singleton] at hgate
  refine ⟨?_, fun b hb => ?_, fun b hb => ?_⟩
  · exact hgate row.id (.inr hid)
  · rw [ChangesetRow.blobs, hchanges] at hb
    exact hgate b (.inl (.inl (.inl (.inl (mem_changeBlobs hb)))))
  · rw [repBlobs, hcanonical] at hb
    exact hgate b (.inl (.inr hb))

/-- A round inserts no row that names a tombstoned id, and its tip is not
tombstoned. -/
theorem NodeStep.rowsFree {cmd : LandCommand Id} {st st' : LandState Id} {node : Id}
    {o : NodeOutcome} (h : NodeStep cmd st node o st')
    (htip : redactionActive st.cx.db st.tipId = false) :
    RowsFree st.cx.db st'.cx.db ∧ redactionActive st'.cx.db st'.tipId = false := by
  rw [redactionActive_of_eq h.tables.2.2.1]
  cases h with
  | dropped => exact ⟨.of_subset (List.Subset.refl _), htip⟩
  | adopted m canonical hencode hgate hid stored hput =>
      obtain ⟨cas, cat, written, rfl⟩ := putBlobs_ok hput
      refine ⟨.of_subset (List.Subset.refl _), ?_⟩
      exact gateError_none hgate node (by simp [gateIds, hid])
  | inserted m canonical hencode hgate hid stored st' hput hinsert =>
      obtain ⟨cas, cat, written, rfl⟩ := putBlobs_ok hput
      obtain ⟨rootTreeId, size, trees, cx, -, hrow, rfl⟩ := landInsert_ok hinsert
      obtain ⟨-, rfl⟩ := changesetInsertRows_some hrow
      refine ⟨fun row hmem => ?_, gateError_none hgate _ (by simp [gateIds])⟩
      rcases List.mem_append.mp hmem with hmem | hmem
      · exact .inl hmem
      · rw [List.mem_singleton.mp hmem]
        exact .inr (gate_rowFree hgate rfl rfl rfl)

theorem RowFree.of_eq {db db' : RepoTables Id} (h : db'.redactions = db.redactions)
    {row : ChangesetRow Id} (hrow : RowFree db' row) : RowFree db row := by
  obtain ⟨hid, hblobs, hreps⟩ := hrow
  simp only [redactionActive_of_eq h] at hid hblobs hreps
  exact ⟨hid, hblobs, hreps⟩

theorem LandTrace.rowsFree {cmd : LandCommand Id} {st st' : LandState Id} {chain : List Id}
    {os : List NodeOutcome} (h : LandTrace cmd st chain os st')
    (htip : redactionActive st.cx.db st.tipId = false) :
    RowsFree st.cx.db st'.cx.db ∧ redactionActive st'.cx.db st'.tipId = false := by
  induction h with
  | nil => exact ⟨.of_subset (List.Subset.refl _), htip⟩
  | cons hnode _ ih =>
      obtain ⟨hfirst, htip'⟩ := hnode.rowsFree htip
      obtain ⟨hrest, hlast⟩ := ih htip'
      refine ⟨fun row hrow => ?_, hlast⟩
      rcases hrest row hrow with hold | hnew
      · exact hfirst row hold
      · exact .inr (hnew.of_eq hnode.tables.2.2.1)

/-! ### Objects -/

theorem mem_objectRowUpsert {cat : Catalog Id} {id : Id} {size touchedNs : ℕ} {row : ObjectRow Id}
    (h : row ∈ (objectRowUpsert cat id size touchedNs).objects) :
    row ∈ cat.objects ∨ row.objectId = id := by
  unfold objectRowUpsert at h
  simp only at h
  split_ifs at h
  · obtain ⟨old, hold, rfl⟩ := List.mem_map.mp h
    split_ifs with hid
    · exact .inr rfl
    · exact .inl hold
  · rcases List.mem_append.mp h with h | h
    · exact .inl h
    · exact .inr (by rw [List.mem_singleton.mp h])

/-- Blob writes touch no row of a blob that is not free. -/
theorem BlobWrites.objects {nowNs : ℕ} {free : Id → Prop}
    {a b : List (Id × Bytes) × Catalog Id} (h : BlobWrites nowNs free a b) {row : ObjectRow Id}
    (hrow : row ∈ b.2.objects) (hfree : ¬ free row.objectId) : row ∈ a.2.objects := by
  induction h with
  | refl => exact hrow
  | tail _ hstep ih =>
      obtain ⟨bytes, cas, hid, -, rfl⟩ := hstep
      rcases mem_objectRowUpsert hrow with hold | hnew
      · exact ih hold
      · exact absurd (hnew ▸ hid) hfree

theorem LandSuccess.objects {cx cx' : RepoCx Id} {cmd : LandCommand Id} {done : LandDone Id}
    (h : LandSuccess cx cmd done cx') {row : ObjectRow Id} (hrow : row ∈ cx'.cat.objects)
    (hactive : redactionActive cx.db row.objectId) : row ∈ cx.cat.objects := by
  cases h with
  | replay => exact hrow
  | contained => exact hrow
  | rebased f hout b =>
      obtain ⟨os, hos⟩ := landTrace_exists b.loop
      have hstart : redactionActive b.start.cx.db row.objectId = true := hactive
      refine BlobWrites.objects hos.writes hrow ?_
      rw [hstart]
      decide

/-! ### Refs -/

/-- The refs of a table that name a tombstoned id were there before. -/
def RefsFree (db db' : RepoTables Id) : Prop :=
  ∀ ref ∈ db'.refs, ∀ target, ref.target = some target → redactionActive db target = true →
    ref ∈ db.refs

theorem RefsFree.of_eq {db db' : RepoTables Id} (h : db'.refs = db.refs) : RefsFree db db' :=
  fun _ href _ _ _ => h ▸ href

/-- A ref write whose new target is not tombstoned. -/
theorem RefsFree.of_map {db db' : RepoTables Id} (new : Id) (hit : RefRow Id → Bool)
    (move : RefRow Id → RefRow Id) (hrefs : db'.refs = db.refs.map (fun row =>
      if hit row then move row else row))
    (hmove : ∀ row, (move row).target = some new) (hnew : redactionActive db new = false) :
    RefsFree db db' := by
  intro ref href target htarget hactive
  rw [hrefs] at href
  obtain ⟨row, hrow, rfl⟩ := List.mem_map.mp href
  split_ifs at htarget ⊢
  · rw [hmove, Option.some.injEq] at htarget
    rw [← htarget, hnew] at hactive
    cases hactive
  · exact hrow

theorem RefWritten.refsFree {db db' : RepoTables Id} {req : RefRequest Id} {done : RefResponse Id}
    (h : RefWritten db req done db') (hnew : redactionActive db req.target = false) :
    RefsFree db db' := by
  cases h with
  | created =>
      intro ref href target htarget hactive
      rcases List.mem_append.mp href with href | href
      · exact href
      · rw [List.mem_singleton.mp href, Option.some.injEq] at htarget
        rw [← htarget, hnew] at hactive
        cases hactive
  | moved current =>
      refine RefsFree.of_map req.target (fun row => decide (row.name = req.name)) (fun row =>
        { row with
          target := some req.target
          version := current.version + 1
          lastPrincipal := req.principal }) ?_ (fun _ => rfl) hnew
      simp only [decide_eq_true_eq]

/-- What a land leaves of the rows and refs that name a tombstoned id. -/
theorem LandSuccess.free {cx cx' : RepoCx Id} {cmd : LandCommand Id} {done : LandDone Id}
    (h : LandSuccess cx cmd done cx') : RowsFree cx.db cx'.db ∧ RefsFree cx.db cx'.db := by
  cases h with
  | replay => exact ⟨.of_subset (List.Subset.refl _), .of_eq rfl⟩
  | contained => exact ⟨.of_subset (List.Subset.refl _), .of_eq rfl⟩
  | rebased f hout b =>
      obtain ⟨os, hos⟩ := landTrace_exists b.loop
      obtain ⟨hrows, htip⟩ := hos.rowsFree f.main_ok
      have hredactions : b.final.cx.db.redactions = cx.db.redactions := b.tables.2.2.1
      have hstart : ∀ row, RowFree b.start.cx.db row → RowFree cx.db row := fun _ hrow =>
        RowFree.of_eq (show b.start.cx.db.redactions = cx.db.redactions from rfl) hrow
      have hrows' : RowsFree cx.db b.final.cx.db := fun row hrow =>
        Or.imp_right (hstart row) (hrows row hrow)
      refine ⟨hrows', ?_⟩
      rw [redactionActive_of_eq hredactions] at htip
      refine RefsFree.of_map b.final.tipId
        (fun row => decide (row.name = "main") && decide (row.target = some f.oldMain))
        (fun row =>
          { row with
            target := some b.final.tipId
            version := row.version + 1
            lastPrincipal := cmd.principal }) ?_ (fun _ => rfl) htip
      have hrefs : b.final.cx.db.refs = cx.db.refs := b.tables.1
      rw [← hrefs]
      rfl

/-! ### Merge inputs -/

/-- A round of a rebase that writes: the merge it starts from passed the gate
with everything that flows into the blobs it makes. -/
theorem NodeMerge.inputs_free {cmd : LandCommand Id} {st st' : LandState Id} {node : Id}
    (m : NodeMerge cmd st node) (hround : landNode cmd st node = .ok st')
    (hkept : ¬ (m.delta = [] ∧ m.reps = [])) {p : Path} {bytes : Bytes} {inputs : List Id}
    (hcomputed : Computed (casGet st.cx.cas) (if cmd.recordConflict then .record else .refuse) p
      ((flattenFiles m.input.parentTree).lookup p) ((flattenFiles st.tipTree).lookup p)
      ((flattenFiles m.input.tree).lookup p) bytes inputs) :
    ∀ id ∈ inputs, redactionActive st.cx.db id = false := by
  obtain ⟨rec, ⟨merge⟩, hmerged, -⟩ := landMerge_ok m.merge_ok
  have htracked := merge.tracked hcomputed
  rw [← hmerged] at htracked
  have hgated : ∀ (m' : NodeMerge cmd st node) (canonical : Canonical Id),
      gateError st.cx.db cmd.repoName m'.merged canonical.cs (Platform.changesetId canonical) =
        none → ∀ id ∈ inputs, redactionActive st.cx.db id = false := by
    intro m' canonical hgate id hid
    rw [m'.subsingleton m] at hgate
    refine gateError_none hgate id ?_
    simp only [gateIds, List.mem_append]
    exact .inl (.inl (.inr (htracked hid)))
  obtain ⟨o, hstep⟩ := landNode_step hround
  cases hstep with
  | dropped m' hdelta hreps =>
      rw [m'.subsingleton m] at hdelta hreps
      exact absurd ⟨hdelta, hreps⟩ hkept
  | adopted m' canonical hencode hgate => exact hgated m' canonical hgate
  | inserted m' canonical hencode hgate => exact hgated m' canonical hgate

/-! ### Snapshots -/

theorem mem_closureBlobs {trees : List (TreeRow Id)} {root x : Id} :
    x ∈ closureBlobs trees root ↔
      ∃ t ∈ treeClosure trees [root], ∃ row, treeGet trees t = some row ∧ x ∈ row.files := by
  simp only [closureBlobs, List.mem_dedup, List.mem_flatMap, List.mem_filterMap]
  constructor
  · rintro ⟨row, ⟨t, ht, hrow⟩, hx⟩
    exact ⟨t, ht, row, hrow, hx⟩
  · rintro ⟨t, ht, row, hrow, hx⟩
    exact ⟨row, ⟨t, ht, hrow⟩, hx⟩

/-- The blobs below a root are the same in every store that holds its
closure. -/
theorem TreesWf.closureBlobs_inserted {trees rows : List (TreeRow Id)} (h : TreesWf trees)
    (hrows : TreesWf rows) (hclosed : TreesClosed rows) {root x : Id}
    (hroot : (treeGet rows root).isSome) :
    x ∈ closureBlobs (treesInsert trees rows) root ↔ x ∈ closureBlobs rows root := by
  have hseeds : ∀ s ∈ [root], (treeGet rows s).isSome := by
    intro s hs
    rwa [List.mem_singleton.mp hs]
  have hget : ∀ t ∈ treeClosure rows [root],
      treeGet (treesInsert trees rows) t = treeGet rows t := by
    intro t ht
    obtain ⟨row, hrow⟩ := Option.isSome_iff_exists.mp (hclosed.closure hseeds ht)
    obtain ⟨hmem, rfl⟩ := treeGet_some hrow
    rw [hrow, h.get_inserted hrows.rows hmem]
  rw [mem_closureBlobs, mem_closureBlobs]
  constructor
  · rintro ⟨t, ht, row, hrow, hx⟩
    have ht' := (h.closure_inserted hrows hclosed hseeds).mp ht
    exact ⟨t, ht', row, by rwa [← hget t ht'], hx⟩
  · rintro ⟨t, ht, row, hrow, hx⟩
    exact ⟨t, (h.closure_inserted hrows hclosed hseeds).mpr ht, row, by rwa [hget t ht], hx⟩

/-- The closure of a snapshot that was written names no tombstoned blob. -/
theorem SnapshotWritten.closure_free {cx cx' : RepoCx Id} {ephemeral : List (SnapDir Id)}
    {nowNs : ℕ} {req : SnapshotRequest Id} {p : PreparedSnapshot Id} {done : SnapshotCreated Id}
    (hprepare : snapshotPrepare req = .ok p)
    (h : SnapshotWritten cx ephemeral nowNs req p done cx') (hwf : TreesWf cx.trees) :
    ∀ row ∈ cx'.snapshots, row ∈ cx.snapshots ∨ (row.repoId = cx.id ∧
      ∀ x ∈ closureBlobs cx'.trees row.treeId, redactionActive cx.db x = false) := by
  cases h with
  | existing => exact fun _ hrow => .inl hrow
  | created habsent hfree hredacted hpresent =>
      intro row hrow
      rcases List.mem_append.mp hrow with hrow | hrow
      · exact .inl hrow
      · rw [List.mem_singleton.mp hrow]
        obtain ⟨-, hroot, -, hblobs⟩ := snapshotPrepare_ok hprepare
        obtain ⟨hrows, hclosed⟩ := snapshotPrepare_trees hprepare
        refine .inr ⟨rfl, fun x hx => ?_⟩
        rw [hwf.closureBlobs_inserted hrows hclosed hroot, ← hblobs] at hx
        exact redactionsActiveAmong_eq_nil hredacted x hx

/-! ### Runs -/

namespace Server

/-- The repository a step acts on. -/
def Event.repo (s : Server Id) : Event Id → Option RepoId
  | .createLookup r _ | .land r _ | .importGit r _ _ _ _ | .casRef r _ | .putBytes r _
  | .record r _ | .mark r _ _ | .snapshotPut r _ _ | .snapshotPost r _ => some r
  | .createWrite i => (s.creates[i]?).map (fun p => p.1)
  | .tick _ | .sgcStart | .sgcStep _ | .gcStart | .gcStep | .crash => none

/-- The import of a git history. -/
def Event.isImport : Event Id → Bool
  | .importGit _ _ _ _ _ => true
  | _ => false

/-- A create in flight carries no conflict representation. -/
theorem creates_no_reps {ok : Server Id → Event Id → Prop} {s : Server Id} (h : Reach ok s)
    {r : RepoId} {p : PreparedCreate Id} (hp : (r, p) ∈ s.creates) :
    p.canonical.cs.conflicts = [] := by
  have hinv : ∀ r p, (r, p) ∈ s.creates → p.canonical.cs.conflicts = [] := by
    refine Lib.Reach.invariant
      (I := fun s => ∀ r p, (r, p) ∈ s.creates → p.canonical.cs.conflicts = []) ?_ ?_ h
    · rintro s ⟨layout, repos, nowNs, graceNs, -, rfl⟩ r p hp
      exact absurd hp List.not_mem_nil
    · intro s e s' _ hinv _ hstep r p hp
      rcases step_creates hstep hp with hold | ⟨req, metas, -, -, hprepare⟩
      · exact hinv r p hold
      · rw [(createPrepare_ok hprepare).1]
  exact hinv r p hp

/-- The tombstones a step finds stay, in their order. -/
theorem DbStep.tombstoned {s : Server Id} {r : RepoId} {e : Event Id} {db : RepoTables Id}
    (h : DbStep s r e db) : (s.dbs r).tombstoned <+: db.tombstoned := by
  have hsame : ∀ {db' : RepoTables Id}, db'.redactions = (s.dbs r).redactions →
      (s.dbs r).tombstoned <+: db'.tombstoned := by
    intro db' heq
    rw [RepoTables.tombstoned, RepoTables.tombstoned, heq]
  cases h with
  | unchanged => exact List.prefix_rfl
  | createWrite i p cx hpending hpersist =>
      obtain ⟨w⟩ := hpersist
      exact hsame (changesetInsertRows_tables w.insert_ok).2.2.1
  | land cmd done cx hland =>
      cases hland with
      | replay => exact List.prefix_rfl
      | contained => exact List.prefix_rfl
      | rebased f hout b => exact hsame b.tables.2.2.1
  | importGit git opts head stop cx hquiescent hrun =>
      cases hrun with
      | untouched => exact List.prefix_rfl
      | commits sc k mid cx' himported hputs =>
          obtain ⟨cas, cat, rfl⟩ := hputs.frame
          exact hsame himported.tables.2.2.1
      | grafted sc last main db himported hgraft =>
          obtain ⟨refs, rfl⟩ := (graftMain_cases hgraft).refs_only
          exact hsame himported.tables.2.2.1
  | casRef req done db hmain hredacted hwritten => cases hwritten <;> exact List.prefix_rfl
  | mark id kind => exact redactionMark_tombstoned _ _ _ _
  | gcStep db hcollected =>
      have hids : db.tombstoned = (s.dbs r).tombstoned := by
        have hpairs := congrArg (List.map Prod.fst) hcollected.redactions
        rwa [List.map_map, List.map_map] at hpairs
      rw [hids]

/-- A tombstone stands after every step. -/
theorem DbStep.active {s : Server Id} {r : RepoId} {e : Event Id} {db : RepoTables Id}
    (h : DbStep s r e db) {x : Id} (hactive : redactionActive (s.dbs r) x) :
    redactionActive db x :=
  redactionActive_iff.mpr (h.tombstoned.subset (redactionActive_iff.mp hactive))

theorem active_of_later {ok : Server Id → Event Id → Prop} {s s' : Server Id}
    (h : Lib.Later step ok s s') {r : RepoId} {x : Id} (hactive : redactionActive (s.dbs r) x) :
    redactionActive (s'.dbs r) x := by
  induction h with
  | refl => exact hactive
  | tail _ hstep ih =>
      obtain ⟨e, -, he⟩ := hstep
      exact (step_db he r).active ih

/-- What a step keeps of a tombstone of repository `r`. -/
structure TombstoneKept (s : Server Id) (e : Event Id) (s' : Server Id) (r : RepoId) (id : Id) :
    Prop where
  stands : redactionActive (s'.dbs r) id
  /-- no row inserted has the id or names it as a file's blob or in a conflict -/
  changesets : ∀ row ∈ (s'.dbs r).changesets, row ∈ (s.dbs r).changesets ∨
    (row.id ≠ id ∧ id ∉ row.blobs ∧ id ∉ repBlobs row.canonical.cs)
  /-- a step through the repository records no `objects` row for it -/
  objects : Event.repo s e = some r →
    ∀ row ∈ s'.cat.objects, row.objectId = id → row ∈ s.cat.objects
  /-- no snapshot inserted has it in its closure -/
  snapshots : ∀ row ∈ s'.snapshots (s'.file r), row ∈ s.snapshots (s.file r) ∨
    (row.repoId = r → id ∉ closureBlobs (s'.trees (s'.file r)) row.treeId)
  /-- a ref that targets it did before -/
  refs : ∀ ref ∈ (s'.dbs r).refs, ref.target = some id → ref ∈ (s.dbs r).refs
  /-- a land's round that writes computes no blob from its content -/
  computed : ∀ cmd, e = .land r cmd → ∀ (f : FreshLand (s.cx r) { cmd with nowNs := s.nowNs })
    (b : Rebase f.pending { cmd with nowNs := s.nowNs } f.oldMain f.contained)
    (before after : List Id) (node : Id) (st st' : LandState Id),
    b.chain = before ++ node :: after →
    before.foldlM (landNode { cmd with nowNs := s.nowNs }) b.start = .ok st →
    landNode { cmd with nowNs := s.nowNs } st node = .ok st' →
    ∀ m : NodeMerge { cmd with nowNs := s.nowNs } st node, ¬ (m.delta = [] ∧ m.reps = []) →
    ∀ p bytes inputs,
      Computed (casGet st.cx.cas) (if cmd.recordConflict then .record else .refuse) p
        ((flattenFiles m.input.parentTree).lookup p) ((flattenFiles st.tipTree).lookup p)
        ((flattenFiles m.input.tree).lookup p) bytes inputs →
      id ∉ inputs

theorem DbStep.free {s : Server Id} {r : RepoId} {e : Event Id} {db : RepoTables Id}
    (h : DbStep s r e db) (himport : Event.isImport e = false)
    (hreps : ∀ p, (r, p) ∈ s.creates → p.canonical.cs.conflicts = []) :
    RowsFree (s.dbs r) db ∧ RefsFree (s.dbs r) db := by
  cases h with
  | unchanged => exact ⟨.of_subset (List.Subset.refl _), .of_eq rfl⟩
  | createWrite i p cx hpending hpersist =>
      obtain ⟨w⟩ := hpersist
      exact ⟨w.rowsFree (hreps p (List.mem_of_getElem? hpending)),
        .of_eq (changesetInsertRows_tables w.insert_ok).1⟩
  | land cmd done cx hland => exact hland.free
  | importGit => cases himport
  | casRef req done db hmain hredacted hwritten =>
      have hrefs := hwritten.refsFree hredacted
      refine ⟨.of_subset ?_, hrefs⟩
      cases hwritten <;> exact List.Subset.refl _
  | mark id kind =>
      obtain ⟨redactions, hmark⟩ := redactionMark_db (s.dbs r) id kind s.nowNs
      rw [hmark]
      exact ⟨.of_subset (List.Subset.refl _), .of_eq rfl⟩
  | gcStep db hcollected => exact ⟨.of_subset hcollected.changesets.subset, .of_eq hcollected.refs⟩

/-- The `objects` rows a step through a repository leaves of its tombstoned
blobs. -/
theorem step_objects {s s' : Server Id} {e : Event Id} (h : s.step e = some s') {r : RepoId}
    (hrepo : Event.repo s e = some r) (himport : Event.isImport e = false) {row : ObjectRow Id}
    (hrow : row ∈ s'.cat.objects) (hactive : redactionActive (s.dbs r) row.objectId) :
    row ∈ s.cat.objects := by
  cases step_cases h with
  | land r' cmd done cx hland =>
      obtain rfl := Option.some.inj hrepo
      exact hland.objects hrow hactive
  | landAborted r' cmd cas cat hwrites =>
      obtain rfl := Option.some.inj hrepo
      simp only [put_cat] at hrow
      split_ifs at hrow
      · exact hrow
      · exact hwrites.objects hrow (by rw [hactive]; decide)
  | createWrite i r' p cx hpending hpersist =>
      obtain ⟨w⟩ := hpersist
      obtain ⟨-, hcx⟩ := changesetInsertRows_some w.insert_ok
      rw [put_cat, hcx] at hrow
      exact hrow
  | importGit => cases himport
  | recorded r' bytes hfree =>
      obtain rfl := Option.some.inj hrepo
      rcases mem_objectRowUpsert hrow with hold | hnew
      · exact hold
      · rw [hnew, hfree] at hactive
        cases hactive
  | snapshotPost r' req p done cx hprepare hwritten => cases hwritten <;> exact hrow
  | sgcStep | gcStep => cases hrepo
  | _ => exact hrow

/-- The snapshot rows of a file after a step: those of before, or one whose
closure names no tombstoned blob. -/
theorem step_snapshots_free {s s' : Server Id} {e : Event Id} (h : s.step e = some s')
    {f : RepoId} (hwf : TreesWf (s.trees f)) :
    ∀ row ∈ s'.snapshots f, row ∈ s.snapshots f ∨
      ∀ x ∈ closureBlobs (s'.trees f) row.treeId,
        redactionActive (s.dbs row.repoId) x = false := by
  intro row hrow
  by_cases hpost : ∃ r req, e = .snapshotPost r req
  · obtain ⟨r, req, rfl⟩ := hpost
    cases step_cases h with
    | refused => exact .inl hrow
    | snapshotPost _ _ p done cx hprepare hwritten =>
        rw [snapshots_put] at hrow
        split_ifs at hrow with hf
        · rw [hf] at hwf
          rcases hwritten.closure_free hprepare hwf row hrow with hold | ⟨hrepo, hfree⟩
          · exact .inl (hf ▸ hold)
          · rw [hrepo, trees_put, if_pos hf]
            exact .inr hfree
        · exact .inl hrow
  · have hsub := step_snapshots_sublist h (fun r req heq => hpost ⟨r, req, heq⟩) f
    exact .inl (hsub.subset hrow)

/-- Once an id is tombstoned in a repository, whatever the run did in between,
no step other than an import inserts a changeset under it or naming it, records
its `objects` row through the repository, writes a snapshot that holds it, aims
a ref at it, or computes a blob from its content; and the tombstone stands. -/
theorem tombstone_kept_of_reach {ok : Server Id → Event Id → Prop} {s₀ s s' : Server Id}
    {e : Event Id} (h : Reach ok s₀) {r : RepoId} {id : Id}
    (hmarked : redactionActive (s₀.dbs r) id) (hlater : Lib.Later step ok s₀ s)
    (himport : Event.isImport e = false) (hstep : s.step e = some s') :
    TombstoneKept s e s' r id := by
  have hreach := h.later hlater
  have hactive := active_of_later hlater hmarked
  have hne : ∀ x, redactionActive (s.dbs r) x = false → id ≠ x := by
    rintro x hx rfl
    rw [hx] at hactive
    cases hactive
  have hfree := (step_db hstep r).free himport fun p hp => creates_no_reps hreach hp
  refine
    { stands := (step_db hstep r).active hactive
      changesets := fun row hrow => (hfree.1 row hrow).imp_right fun hnew => ⟨?_, ?_, ?_⟩
      objects := fun hrepo row hrow hid =>
        step_objects hstep hrepo himport hrow (by rw [hid]; exact hactive)
      snapshots := fun row hrow => ?_
      refs := fun ref href htarget => hfree.2 ref href id htarget hactive
      computed := ?_ }
  · exact (hne _ hnew.id).symm
  · exact fun hid => hne _ (hnew.blobs id hid) rfl
  · exact fun hid => hne _ (hnew.reps id hid) rfl
  · rw [step_file hstep] at hrow ⊢
    refine (step_snapshots_free hstep (treesWf_of_reach hreach _) row hrow).imp_right ?_
    rintro hclosure rfl hid
    exact hne _ (hclosure id hid) rfl
  · intro cmd _ f b before after node st st' _ hbefore hround m hkept p bytes inputs hcomputed hid
    obtain ⟨os, hos⟩ := landTrace_exists hbefore
    have hinput := m.inputs_free hround hkept hcomputed id hid
    rw [redactionActive_of_eq hos.tables.2.2.1] at hinput
    exact hne id hinput rfl

end Server

end

/-! ### A marked blob -/

namespace Server.MarkedBlob

def start : Server PlainId := boot .dbPerRepo [(1, "r")] 100 10

def blob : PlainId := Platform.blobId [98, 10]

/-- An upload, its mark, and a create that names the blob. -/
def marked : List (Event PlainId) :=
  [.putBytes 1 [98, 10], .record 1 [98, 10], .mark 1 blob .blob,
    .createLookup 1
      { repoName := "r"
        principal := "ann"
        scope := none
        parents := []
        author := "ann"
        message := "edit"
        timestampNs := some 7
        changes := [⟨⟨[], "a"⟩, .add, some blob, some 2, some false⟩] }]

end Server.MarkedBlob

namespace Server

open MarkedBlob in
/-- The write of the create keeps the blob out. -/
theorem tombstone_kept_of_reach_marked : ∃ s s', Lib.exec step start marked = some s ∧
    s.step (.createWrite 0) = some s' ∧ TombstoneKept s (.createWrite 0) s' 1 blob := by
  have hrun : (Lib.exec step start marked).any (fun s =>
      redactionActive (s.dbs 1) blob && (s.step (.createWrite 0)).isSome) = true := by
    decide +kernel
  obtain ⟨s, hs, hboth⟩ := (Option.any_eq_true _ _).mp hrun
  rw [Bool.and_eq_true] at hboth
  obtain ⟨hmarked, hsome⟩ := hboth
  obtain ⟨s', hs'⟩ := Option.isSome_iff_exists.mp hsome
  have hstart : Init start := ⟨.dbPerRepo, [(1, "r")], 100, 10, by decide, rfl⟩
  have hreach : Reach (fun _ _ => True) s := Lib.Reach.exec (.start hstart) (by simp) hs
  exact ⟨s, s', hs, hs', tombstone_kept_of_reach hreach hmarked .refl rfl hs'⟩

end Server

end Naatre
