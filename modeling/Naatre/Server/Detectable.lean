import Naatre.Core.MarkerSides
import Naatre.Server.CasSteps
import Naatre.Server.ContentRep

/-!
Recorded conflicts and the marker detector. Whatever a run lands on `main`, the
tree of a conflicted changeset holds, at the path of each of its conflict
representations, the rendering of that representation. The detector accepts it
exactly when the versions the conflict was recorded from are readable.
-/

namespace Naatre

section

variable {Id : Type} [Platform Id]

/-! ### Representations -/

/-- The tree of the row holds the rendering of the representation. -/
structure Rendered (cx : RepoCx Id) (row : ChangesetRow Id) (rep : ConflictRep Id) : Prop where
  two : rep.TwoSided
  path_ok : rep.path.validate (Platform.nfc Id) = .ok ()
  file : ∃ tree file bytes, loadTree cx row.rootTreeId = .ok tree ∧
    filesAt tree rep.path = some file ∧ casGet cx.cas file.blob = some bytes ∧
    markerBytes rep (casGet cx.cas) = .ok bytes

theorem Rendered.extend {cx cx' : RepoCx Id} {row : ChangesetRow Id} {rep : ConflictRep Id}
    (h : Rendered cx row rep) (hext : cx.Extends cx') : Rendered cx' row rep := by
  obtain ⟨tree, file, bytes, htree, hfile, hbytes, hrendered⟩ := h.file
  exact ⟨h.two, h.path_ok, tree, file, bytes, hext.loadTree htree, hfile,
    hext.blobs _ bytes hbytes, markerBytes_more hext.blobs hrendered⟩

/-- What the detector says of the file at a representation's path. -/
theorem Rendered.detected [HexIds Id] {cx : RepoCx Id} {row : ChangesetRow Id}
    {rep : ConflictRep Id} (h : Rendered cx row rep) :
    ∃ tree file bytes, loadTree cx row.rootTreeId = .ok tree ∧
      filesAt tree rep.path = some file ∧ casGet cx.cas file.blob = some bytes ∧
      (markerShaped bytes = true ↔ rep.Readable (casGet cx.cas)) := by
  obtain ⟨tree, file, bytes, htree, hfile, hbytes, hmarkers⟩ := h.file
  exact ⟨tree, file, bytes, htree, hfile, hbytes,
    markerShaped_markerBytes h.two h.path_ok hmarkers⟩

/-- A conflict recorded over the rendering of another is not readable. -/
theorem Rendered.not_readable [HexIds Id] {cx : RepoCx Id} {row : ChangesetRow Id}
    {rep rep' : ConflictRep Id} (h : Rendered cx row rep) {tree : MemNode Id}
    (htree : loadTree cx row.rootTreeId = .ok tree) {file : FileMeta Id}
    (hfile : filesAt tree rep.path = some file) (hside : file.blob ∈ rep'.sides) :
    ¬ rep'.Readable (casGet cx.cas) := by
  obtain ⟨tree', file', bytes, htree', hfile', hbytes, hmarkers⟩ := h.file
  obtain rfl := Except.ok.inj (htree.symm.trans htree')
  obtain rfl := Option.some.inj (hfile.symm.trans hfile')
  have hnested := not_quiet_markerBytes h.two h.path_ok hmarkers
  intro hread
  cases hsides : rep'.sides with
  | nil => simp [hsides] at hside
  | cons first others =>
      rw [hsides] at hside
      rcases List.mem_cons.mp hside with heq | hmem
      · exact hnested (hread.first first (by rw [hsides]; rfl) bytes (heq ▸ hbytes)).1
      · refine hnested (hread.others file.blob ?_ bytes hbytes).1
        rw [hsides]
        exact List.mem_append_right _ hmem

/-! ### One round -/

/-- The blobs a land wrote so far are stored. -/
def Written (st : LandState Id) : Prop :=
  ∀ id ∈ st.writtenBlobs, (casGet st.cx.cas id).isSome

/-- Every blob of a merge ends up stored: it was written, or skipped because
an earlier round wrote it. -/
theorem putBlobs_stored {nowNs : ℕ} {st st' : LandState Id} {blobs : List (Id × Bytes)}
    (h : putBlobs nowNs st blobs = .ok st') (hblobs : BlobsNamed blobs)
    (hnamed : CasNamed st.cx.cas) (hwritten : Written st) :
    Written st' ∧ CasNamed st'.cx.cas ∧ FindsMore (casGet st.cx.cas) (casGet st'.cx.cas) ∧
      ∀ b ∈ blobs, (casGet st'.cx.cas b.1).isSome := by
  induction blobs generalizing st with
  | nil =>
      simp only [putBlobs, Except.ok.injEq] at h
      subst h
      exact ⟨hwritten, hnamed, fun _ _ h => h, fun b hb => absurd hb List.not_mem_nil⟩
  | cons b rest ih =>
      obtain ⟨blob, bytes⟩ := b
      have hname : blob = Platform.blobId bytes := hblobs _ List.mem_cons_self
      have hrest : BlobsNamed rest := fun b hb => hblobs b (List.mem_cons_of_mem _ hb)
      have hkept : ∀ {cas cas' : List (Id × Bytes)} {id : Id},
          FindsMore (casGet cas) (casGet cas') → (casGet cas id).isSome →
          (casGet cas' id).isSome := by
        intro cas cas' id hmore hsome
        obtain ⟨found, hfound⟩ := Option.isSome_iff_exists.mp hsome
        rw [hmore id found hfound, Option.isSome_some]
      simp only [putBlobs] at h
      split_ifs at h with hskip
      · obtain ⟨hwritten', hnamed', hmore, hstored⟩ := ih h hrest hnamed hwritten
        refine ⟨hwritten', hnamed', hmore, List.forall_mem_cons.mpr ⟨?_, hstored⟩⟩
        exact hkept hmore (hwritten blob hskip)
      · split at h
        · cases h
        next cas hput =>
          have hfound := casPut_get hput hnamed
          have hmid := casPut_findsMore hput
          obtain ⟨hwritten', hnamed', hmore, hstored⟩ := ih h hrest (casPut_named hput hnamed) (by
            intro id hid
            rcases List.mem_append.mp hid with hid | hid
            · exact hkept hmid (hwritten id hid)
            · rw [List.mem_singleton.mp hid, hname]
              exact Option.isSome_iff_exists.mpr ⟨bytes, hfound⟩)
          refine ⟨hwritten', hnamed', fun id found hold => hmore id found (hmid id found hold),
            List.forall_mem_cons.mpr ⟨?_, hstored⟩⟩
          exact hkept hmore (by rw [hname, hfound, Option.isSome_some])

/-- A representation a round makes at a path its own node carries none at: the
merge holds its rendering there. -/
theorem NodeMerge.rendered {cmd : LandCommand Id} {st : LandState Id} {node : Id}
    (m : NodeMerge cmd st node) (hclean : m.input.row.canonical.cs.conflicts = [])
    {rep : ConflictRep Id} (hrep : rep ∈ m.reps) :
    rep.TwoSided ∧ rep.path.validate (Platform.nfc Id) = .ok () ∧
      ∃ file bytes, filesAt m.merged.node rep.path = some file ∧
        file.blob = Platform.blobId bytes ∧ markerBytes rep (casGet st.cx.cas) = .ok bytes ∧
        file.blob ∈ m.merged.newBlobs.map (fun b => b.1) := by
  obtain ⟨rec, ⟨merge⟩, hmerged, hreconflicted, hoversized⟩ := landMerge_ok m.merge_ok
  rw [NodeMerge.reps, mem_carry, hclean, List.nil_append] at hrep
  obtain ⟨c, hc, hcontent⟩ := List.mem_filterMap.mp (repAt_path hrep).2
  rw [hreconflicted] at hc
  split_ifs at hc with hrecord
  · obtain ⟨rep', bytes, hrep', hbytes, hfile, hblob⟩ := merge.recorded c hc
    obtain rfl := Option.some.inj (hcontent.symm.trans hrep')
    obtain ⟨htwo, hpath⟩ := contentRep_twoSided hcontent
    refine ⟨htwo, hpath, ⟨Platform.blobId bytes, bytes.length, c.exec⟩, bytes, ?_, rfl, hbytes, ?_⟩
    · rw [hmerged, contentRep_some hcontent, (merge.filesAt_node (hoversized hrecord) _).1]
      exact Lib.lookup_of_nodup (merge.filesAt_node (hoversized hrecord) c.path).2 hfile
    · rw [hmerged, merge.newBlobs]
      exact hblob
  · exact absurd hc List.not_mem_nil

/-- Every conflicted row lies below the tip, and holds its renderings. -/
def ConflictsBelow (cx : RepoCx Id) (tip : Id) : Prop :=
  ∀ row ∈ cx.db.changesets, ∀ rep ∈ row.canonical.cs.conflicts,
    Rendered cx row rep ∧ Ancestor cx.db row.id tip

theorem ConflictsBelow.extend {cx cx' : RepoCx Id} {tip tip' : Id} (h : ConflictsBelow cx tip)
    (hext : cx.Extends cx') (hrows : cx'.db.changesets = cx.db.changesets)
    (htip : Ancestor cx'.db tip tip') : ConflictsBelow cx' tip' := by
  intro row hrow rep hrep
  obtain ⟨hrendered, hbelow⟩ := h row (hrows ▸ hrow) rep hrep
  exact ⟨hrendered.extend hext, htip.trans (hbelow.keep hext.rows)⟩

/-- What the loop needs of its state to render what it records. -/
structure LoopReady (st : LandState Id) : Prop where
  tables : TablesWf st.cx.db
  trees : TreesWf st.cx.trees
  named : CasNamed st.cx.cas
  written : Written st
  stored : (changesetGet st.cx.db st.tipId).isSome
  below : ConflictsBelow st.cx st.tipId

theorem NodeStep.loopReady {cmd : LandCommand Id} {st st' : LandState Id} {node : Id}
    {o : NodeOutcome} (h : NodeStep cmd st node o st') (hready : LoopReady st)
    (hclean : ∀ row, changesetGet st.cx.db node = some row → row.canonical.cs.conflicts = []) :
    LoopReady st' := by
  have hext := h.extends
  have hwf' := h.tablesWf hready.tables
  have htrees' := h.treesGrow.wf hready.trees
  obtain ⟨hstored', hchain⟩ := h.tipAbove hready.tables ⟨hready.stored, .refl⟩
  cases h with
  | dropped => exact hready
  | adopted m canonical hencode hgate hid stored hput =>
      obtain ⟨hwritten, hnamed, -, -⟩ :=
        putBlobs_stored hput (landMerge_named m.merge_ok) hready.named hready.written
      obtain ⟨cas, cat, written, rfl⟩ := putBlobs_ok hput
      exact ⟨hwf', htrees', hnamed, hwritten, hstored',
        hready.below.extend hext rfl hchain.ancestor⟩
  | inserted m canonical hencode hgate hid stored st' hput hinsert =>
      obtain ⟨hwritten, hnamed, hmore, hblobs⟩ :=
        putBlobs_stored hput (landMerge_named m.merge_ok) hready.named hready.written
      obtain ⟨cas, cat, written, rfl⟩ := putBlobs_ok hput
      obtain ⟨rootTreeId, size, trees, cx, hcollect, hrow, rfl⟩ := landInsert_ok hinsert
      obtain ⟨hfresh, rfl⟩ := changesetInsertRows_some hrow
      refine ⟨hwf', htrees', hnamed, hwritten, hstored', fun row hmem rep hrep => ?_⟩
      rcases List.mem_append.mp hmem with hmem | hmem
      · obtain ⟨hrendered, hbelow⟩ := hready.below row hmem rep hrep
        exact ⟨hrendered.extend hext, hchain.ancestor.trans (hbelow.keep hext.rows)⟩
      · -- the new row carries what its round recorded
        obtain rfl := List.mem_singleton.mp hmem
        have hrep : rep ∈ m.reps := by
          have hconflicts := congrArg Changeset.conflicts (Changeset.encode_ok hencode)
          exact (show canonical.cs.conflicts = m.reps from hconflicts) ▸ hrep
        obtain ⟨htwo, hpath, file, bytes, hfile, hblob, hbytes, hnew⟩ :=
          m.rendered (hclean _ (landInput_ok m.input_ok).1) hrep
        refine ⟨⟨htwo, hpath, m.merged.node, file, bytes, ?_, hfile, ?_, markerBytes_more hmore hbytes⟩,
          .refl⟩
        · exact loadTree_ok.mpr (load_collect hcollect hready.trees)
        · obtain ⟨b, hb, hid⟩ := List.mem_map.mp hnew
          obtain ⟨found, hfound⟩ := Option.isSome_iff_exists.mp (hblobs b hb)
          rw [hid] at hfound
          have heq : found = bytes :=
            Platform.blobId_inj ((hnamed _ found hfound).trans hblob)
          exact heq ▸ hfound

theorem LandTrace.loopReady {cmd : LandCommand Id} {st st' : LandState Id} {chain : List Id}
    {os : List NodeOutcome} (h : LandTrace cmd st chain os st') (hready : LoopReady st)
    (hclean : ∀ node ∈ chain, ∃ row, changesetGet st.cx.db node = some row ∧
      row.canonical.cs.conflicts = []) : LoopReady st' := by
  induction h with
  | nil => exact hready
  | cons hnode _ ih =>
      obtain ⟨⟨row, hrow, hnone⟩, hrest⟩ := List.forall_mem_cons.mp hclean
      have hready' := hnode.loopReady hready fun found hfound =>
        Option.some.inj (hrow.symm.trans hfound) ▸ hnone
      refine ih hready' fun node hmem => ?_
      obtain ⟨row, hrow, hnone⟩ := hrest node hmem
      exact ⟨row, hnode.keeps node row hrow, hnone⟩

/-! ### The land -/

/-- `id` is an ancestor of what `main` names. -/
def OnMain (db : RepoTables Id) (id : Id) : Prop :=
  ∃ row main, refGet db "main" = some row ∧ row.target = some main ∧ Ancestor db id main

/-- What a step does to `main`: it stays, or moves up. -/
def MainMoved (db db' : RepoTables Id) : Prop :=
  ∀ before, refGet db "main" = some before →
    ∃ after, refGet db' "main" = some after ∧ (after = before ∨ RefMoved db' before after)

theorem RefsMoved.main {db db' : RepoTables Id} (h : RefsMoved db db') : MainMoved db db' := h "main"

theorem MainMoved.of_eq {db db' : RepoTables Id} (h : refGet db' "main" = refGet db "main") :
    MainMoved db db' :=
  fun before hbefore => ⟨before, h.trans hbefore, .inl rfl⟩

theorem OnMain.moved {db db' : RepoTables Id} {id : Id} (h : OnMain db id) (hkeeps : db.Keeps db')
    (hmoved : MainMoved db db') : OnMain db' id := by
  obtain ⟨row, main, hrow, hmain, hbelow⟩ := h
  obtain ⟨after, hafter, rfl | hmove⟩ := hmoved row hrow
  · exact ⟨after, main, hafter, hmain, hbelow.keep hkeeps⟩
  · obtain ⟨old, new, hold, hnew, habove⟩ := hmove.target
    obtain rfl := Option.some.inj (hmain.symm.trans hold)
    exact ⟨after, new, hafter, hnew, habove.trans (hbelow.keep hkeeps)⟩

/-- Every conflicted row is on `main`, and holds its renderings. -/
def ConflictsOnMain (cx : RepoCx Id) : Prop :=
  ∀ row ∈ cx.db.changesets, ∀ rep ∈ row.canonical.cs.conflicts,
    Rendered cx row rep ∧ OnMain cx.db row.id

/-- A land renders what it records: a conflicted changeset is on `main`, so
the chain of the head carries none. -/
theorem LandSuccess.conflictsOnMain {cx cx' : RepoCx Id} {cmd : LandCommand Id} {done : LandDone Id}
    (h : LandSuccess cx cmd done cx') (hwf : TablesWf cx.db) (htrees : TreesWf cx.trees)
    (hnamed : CasNamed cx.cas) (hmain : ConflictsOnMain cx) : ConflictsOnMain cx' := by
  have hmoved := (h.refsMoved hwf).main
  cases h with
  | replay => exact hmain
  | contained f hin =>
      have hext : cx.Extends (settle f.pending cmd f.oldMain f.oldMain 0 none
          (repPathsOf f.pending.db f.oldMain)).2 :=
        ⟨.of_eq rfl, .refl _, fun _ _ h => h⟩
      intro row hrow rep hrep
      obtain ⟨hrendered, hon⟩ := hmain row hrow rep hrep
      exact ⟨hrendered.extend hext, hon.moved hext.rows hmoved⟩
  | rebased f hout b =>
      obtain ⟨os, hos⟩ := landTrace_exists b.loop
      have hbelow : ConflictsBelow f.pending f.oldMain := by
        intro row hrow rep hrep
        obtain ⟨hrendered, mainRow, main, href, htarget, hbelow⟩ := hmain row hrow rep hrep
        obtain rfl := Option.some.inj (f.main_ref.symm.trans href)
        obtain rfl := Option.some.inj (f.main_target.symm.trans htarget)
        exact ⟨hrendered.extend ⟨.of_eq rfl, .refl _, fun _ _ h => h⟩, hbelow.keep (.of_eq rfl)⟩
      have hchain := chainWalk_ok (show inMain f.pending.db f.oldMain = some f.contained from
        f.contained_ok) b.chain_ok
      have hstart : LoopReady b.start :=
        ⟨hwf.of_eq rfl rfl, htrees, hnamed, fun id hid => absurd hid List.not_mem_nil,
          Option.isSome_iff_exists.mpr ⟨b.mainRow, b.main_ok⟩, hbelow⟩
      have hfinal := hos.loopReady hstart (by
        intro node hnode
        obtain ⟨houtside, row, hrow⟩ := hchain.stored (List.mem_reverse.mp hnode)
        refine ⟨row, hrow, List.eq_nil_iff_forall_not_mem.mpr fun rep hrep => houtside ?_⟩
        obtain ⟨hmem, rfl⟩ := changesetGet_some hrow
        exact (hbelow row hmem rep hrep).2)
      have hget := refGet_map (show (settle { b.final.cx with db := b.movedDb } cmd f.oldMain
          b.final.tipId b.final.rebased (landNote f.pending.db cmd)
          (repPathsOf b.movedDb b.final.tipId)).2.db.refs = cx.db.refs.map _ from
        congrArg _ b.tables.1) (fun row => by split_ifs <;> rfl) "main"
      rw [show refGet cx.db "main" = some f.mainRow from f.main_ref, Option.map_some] at hget
      intro row hrow rep hrep
      obtain ⟨hrendered, hbelow⟩ := hfinal.below row hrow rep hrep
      refine ⟨hrendered.extend ⟨.of_eq rfl, .refl _, fun _ _ h => h⟩, _, b.final.tipId, hget, ?_,
        hbelow.keep (.of_eq rfl)⟩
      have hname : f.mainRow.name = "main" := (refGet_some f.main_ref).2
      simp [hname, f.main_target]

/-! ### The other writers -/

/-- The rows an import adds are those of its commits. -/
theorem Imported.row_cases {nowNs : ℕ} {cx cx' : RepoCx Id} {ps : List (PreparedCommit Id)}
    (h : Imported nowNs cx ps cx') {row : ChangesetRow Id} (hrow : row ∈ cx'.db.changesets) :
    row ∈ cx.db.changesets ∨ ∃ p ∈ ps, row.canonical = p.canonical := by
  induction h with
  | nil => exact .inl hrow
  | cons hcommit _ ih =>
      obtain ⟨c⟩ := hcommit
      rcases ih hrow with hmid | ⟨p, hp, hcanonical⟩
      · obtain ⟨cas, cat, hstored⟩ := c.puts.frame
        rw [changesetInsertRows_rows c.insert_ok] at hmid
        rcases List.mem_append.mp hmid with hold | hnew
        · rw [hstored] at hold
          exact .inl hold
        · exact .inr ⟨_, List.mem_cons_self, by rw [List.mem_singleton.mp hnew]; rfl⟩
      · exact .inr ⟨p, List.mem_cons_of_mem _ hp, hcanonical⟩

/-- An imported commit carries no conflict. -/
theorem Scanned.conflicts_nil {cx : RepoCx Id} {git : GitRepo} {opts : ImportOptions}
    {head : GitOid} (sc : Scanned cx git opts head) :
    ∀ p ∈ sc.scan.importable, p.canonical.cs.conflicts = [] := by
  refine Lib.foldlM_invariant
    (I := fun st => ∀ p ∈ st.importable, p.canonical.cs.conflicts = []) sc.scan_ok ?_ ?_
  · exact fun p hp => absurd hp List.not_mem_nil
  · intro st c _ st' hnone hc
    rcases scanCommit_ok hc with ⟨hsame, -⟩ | ⟨p, ⟨ready⟩, happend, -⟩
    · rwa [hsame]
    · rw [happend]
      intro q hq
      rcases List.mem_append.mp hq with hq | hq
      · exact hnone q hq
      · rw [List.mem_singleton.mp hq]
        exact ready.conflicts_eq

/-- An import adds no conflicted row. -/
theorem RunBackend.conflicted {nowNs : ℕ} {cx cx' : RepoCx Id} {git : GitRepo}
    {opts : ImportOptions} {head : GitOid} (h : RunBackend nowNs cx git opts head cx')
    {row : ChangesetRow Id} (hrow : row ∈ cx'.db.changesets) {rep : ConflictRep Id}
    (hrep : rep ∈ row.canonical.cs.conflicts) : row ∈ cx.db.changesets := by
  have hcommits : ∀ {ps : List (PreparedCommit Id)},
      (∃ p ∈ ps, row.canonical = p.canonical) → (∀ p ∈ ps, p.canonical.cs.conflicts = []) →
      False := by
    rintro ps ⟨p, hp, hcanonical⟩ hnone
    rw [hcanonical, hnone p hp] at hrep
    exact List.not_mem_nil hrep
  cases h with
  | untouched => exact hrow
  | commits sc k mid cx' himported hputs =>
      obtain ⟨cas, cat, rfl⟩ := hputs.frame
      exact (himported.row_cases hrow).resolve_right fun hp =>
        hcommits hp fun p hmem => sc.conflicts_nil p (List.mem_of_mem_take hmem)
  | grafted sc last main db himported hgraft =>
      obtain ⟨refs, rfl⟩ := (graftMain_cases hgraft).refs_only
      exact (himported.row_cases hrow).resolve_right fun hp => hcommits hp sc.conflicts_nil

/-- A ref write leaves `main`. -/
theorem RefWritten.main_eq {db db' : RepoTables Id} {req : RefRequest Id} {done : RefResponse Id}
    (h : RefWritten db req done db') (hname : req.name ≠ "main") :
    refGet db' "main" = refGet db "main" := by
  cases h with
  | created =>
      rw [refGet, List.find?_append]
      simp [hname, refGet]
  | moved current =>
      rw [refGet_map rfl (fun row => by split_ifs <;> rfl) "main"]
      cases hmain : refGet db "main" with
      | none => rfl
      | some row =>
          have hrow := (refGet_some hmain).2
          rw [Option.map_some, if_neg (by rw [hrow]; exact hname.symm)]

/-! ### Runs -/

namespace Server

/-- No collector runs. -/
def Recording (_ : Server Id) : Event Id → Prop
  | .gcStep | .sgcStep _ => False
  | _ => True

instance (s : Server Id) : (e : Event Id) → Decidable (Recording s e)
  | .gcStep | .sgcStep _ => .isFalse id
  | .tick _ | .createLookup _ _ | .createWrite _ | .land _ _ | .importGit _ _ _ _ _ | .casRef _ _
  | .putBytes _ _ | .record _ _ | .mark _ _ _ | .snapshotPut _ _ _ | .snapshotPost _ _ | .sgcStart
  | .gcStart | .crash => .isTrue trivial

theorem step_extends {s s' : Server Id} {e : Event Id} (h : s.step e = some s')
    (hok : Recording s e) (r : RepoId) : (s.cx r).Extends (s'.cx r) where
  rows := (step_db h r).keeps (by rintro rfl; exact hok)
  trees := by
    show TreesGrow (s.trees (s.file r)) (s'.trees (s'.file r))
    rw [step_file h r]
    exact step_treesGrow h (by rintro rfl; exact hok) (by rintro i rfl; exact hok) (s.file r)
  blobs := (step_cas h (by rintro rfl; exact hok)).findsMore

/-- No create in flight carries a conflict. -/
def CreatesClean (s : Server Id) : Prop :=
  ∀ r p, (r, p) ∈ s.creates → p.canonical.cs.conflicts = []

theorem createsClean_of_reach {ok : Server Id → Event Id → Prop} {s : Server Id}
    (h : Reach ok s) : s.CreatesClean := by
  refine Lib.Reach.invariant ?_ (fun s e s' _ hclean _ he r p hp => ?_) h
  · rintro s ⟨layout, repos, nowNs, graceNs, -, rfl⟩ r p hp
    exact absurd hp List.not_mem_nil
  · rcases step_creates he hp with hold | ⟨req, metas, -, -, hprepare⟩
    · exact hclean r p hold
    · rw [(createPrepare_ok hprepare).1]

/-- Only a land adds a conflicted row, and `main` moves up only. -/
theorem DbStep.conflicted {s : Server Id} {r : RepoId} {e : Event Id} {db : RepoTables Id}
    (h : DbStep s r e db) (hok : Recording s e) (hland : ∀ cmd, e ≠ .land r cmd)
    (hwf : TablesWf (s.dbs r)) (hclean : s.CreatesClean) :
    (∀ row ∈ db.changesets, row.canonical.cs.conflicts ≠ [] → row ∈ (s.dbs r).changesets) ∧
      MainMoved (s.dbs r) db := by
  cases h with
  | unchanged => exact ⟨fun row hrow _ => hrow, .of_eq rfl⟩
  | createWrite i p cx hpending hpersist =>
      obtain ⟨w⟩ := hpersist
      have hrefs := (changesetInsertRows_tables w.insert_ok).1
      refine ⟨fun row hrow hconflicted => ?_, (RefsMoved.of_eq hrefs).main⟩
      rw [changesetInsertRows_rows w.insert_ok] at hrow
      rcases List.mem_append.mp hrow with hrow | hrow
      · exact hrow
      · rw [List.mem_singleton.mp hrow] at hconflicted
        exact absurd (hclean r p (List.mem_of_getElem? hpending)) hconflicted
  | land cmd => exact absurd rfl (hland cmd)
  | importGit git opts head stop cx hquiescent hrun =>
      refine ⟨fun row hrow hconflicted => ?_, (hrun.refsMoved hwf).main⟩
      obtain ⟨rep, hrep⟩ := List.exists_mem_of_ne_nil _ hconflicted
      exact hrun.conflicted hrow hrep
  | casRef req done db hmain hredacted hwritten =>
      refine ⟨fun row hrow _ => ?_, .of_eq (hwritten.main_eq hmain)⟩
      cases hwritten <;> exact hrow
  | mark id kind =>
      obtain ⟨redactions, hmark⟩ := redactionMark_db (s.dbs r) id kind s.nowNs
      rw [hmark]
      exact ⟨fun row hrow _ => hrow, .of_eq rfl⟩
  | gcStep => exact absurd hok not_false

theorem conflictsOnMain_of_reach {s : Server Id} (h : Reach Recording s) (r : RepoId) :
    ConflictsOnMain (s.cx r) := by
  refine Lib.Reach.invariant (I := fun s => ConflictsOnMain (s.cx r)) ?_
    (fun s e s' hs hmain hok he => ?_) h
  · rintro s ⟨layout, repos, nowNs, graceNs, -, rfl⟩ row hrow
    exact absurd hrow List.not_mem_nil
  · have hext := step_extends he hok r
    have hwf := tablesWf_of_reach hs r
    -- a step that adds no conflicted row keeps every rendering
    have hkept : (∀ row ∈ (s'.dbs r).changesets, row.canonical.cs.conflicts ≠ [] →
        row ∈ (s.dbs r).changesets) → MainMoved (s.dbs r) (s'.dbs r) →
        ConflictsOnMain (s'.cx r) := by
      intro hrows hmoved row hrow rep hrep
      obtain ⟨hrendered, hon⟩ :=
        hmain row (hrows row hrow (List.ne_nil_of_mem hrep)) rep hrep
      exact ⟨hrendered.extend hext, hon.moved hext.rows hmoved⟩
    by_cases hland : ∃ cmd, e = .land r cmd
    · obtain ⟨cmd, rfl⟩ := hland
      cases step_cases he with
      | refused => exact hmain
      | landAborted _ _ cas cat =>
          have hdb : (s.put r { s.cx r with
              cas := cas, cat := if s.layout = .singleDb then s.cat else cat }).dbs r = s.dbs r :=
            if_pos rfl
          rw [hdb] at hkept
          exact hkept (fun row hrow _ => hrow) (.of_eq rfl)
      | land _ _ done cx hsuccess =>
          have hlanded := hsuccess.conflictsOnMain hwf (treesWf_of_reach hs _)
            (casNamed_of_reach hs) hmain
          have hdb : ((s.put r cx).cx r).db = cx.db := if_pos rfl
          have htrees : ((s.put r cx).cx r).trees = cx.trees := if_pos rfl
          intro row hrow rep hrep
          rw [hdb] at hrow ⊢
          obtain ⟨hrendered, hon⟩ := hlanded row hrow rep hrep
          exact ⟨hrendered.extend ⟨.of_eq (by rw [hdb]), htrees ▸ .refl _, fun _ _ h => h⟩, hon⟩
    · obtain ⟨hrows, hmoved⟩ := (step_db he r).conflicted hok
        (fun cmd hcmd => hland ⟨cmd, hcmd⟩) hwf (createsClean_of_reach hs)
      exact hkept hrows hmoved

/-- In every run without a collector's step, for every changeset and every
representation it carries: its tree holds a file at the path, and the detector
accepts the file's content exactly when the versions the conflict was recorded
from are readable. -/
theorem conflicts_detectable_of_reach [HexIds Id] {s : Server Id} (h : Reach Recording s)
    {r : RepoId} {row : ChangesetRow Id} (hrow : row ∈ (s.dbs r).changesets)
    {rep : ConflictRep Id} (hrep : rep ∈ row.canonical.cs.conflicts) :
    ∃ tree file bytes, loadTree (s.cx r) row.rootTreeId = .ok tree ∧
      filesAt tree rep.path = some file ∧ casGet s.cas file.blob = some bytes ∧
      (markerShaped bytes = true ↔ rep.Readable (casGet s.cas)) := by
  exact (conflictsOnMain_of_reach h r row hrow rep hrep).1.detected

end Server

end

/-! ### A conflict over a conflict -/

namespace Server.NestedConflict

open BuriedConflict (start upload imported lastOf command)

/-- A new file `n` on the imported commit. -/
def addition (bytes : Bytes) : CreateRequest PlainId where
  repoName := "r"
  principal := "ann"
  scope := none
  parents := [lastOf imported]
  author := "ann"
  message := "add"
  timestampNs := some 7
  changes := [⟨⟨[], "n"⟩, .add, some (Platform.blobId bytes), some 2, some false⟩]

/-- The changeset an addition becomes. -/
def headOf (bytes : Bytes) : PlainId :=
  match createPrepare 1 0 (addition bytes) [(0, [])] with
  | .ok p => p.csId
  | .error _ => []

/-- An addition is created and landed. -/
def landed (bytes : Bytes) (key : String) : List (Event PlainId) :=
  [.createLookup 1 (addition bytes), .createWrite 0, .land 1 (command (headOf bytes) key)]

/-- Two additions of `n`: the second one lands as a conflict without a base, which
no line diff is asked about. -/
def recorded : List (Event PlainId) :=
  imported ++ landed [98, 10] "first" ++ landed [99, 10] "second"

/-- A third addition of `n`, landed over the conflict. -/
def nested : List (Event PlainId) := recorded ++ landed [100, 10] "third"

/-- No line begins with one of the four prefixes. -/
def plain (content : Bytes) : Bool :=
  (lines content).all fun line =>
    [openerPrefix, dividerPrefix, basePrefix, closerPrefix].all fun p => !p.isPrefixOf line

/-- Whether a changeset carries a conflict one of whose sides is the file at the
path of another recorded conflict. -/
def overConflict (s : Server PlainId) : Bool :=
  (s.dbs 1).changesets.any fun row => row.canonical.cs.conflicts.any fun rep =>
    match loadTree (s.cx 1) row.rootTreeId with
    | .error _ => false
    | .ok tree => (filesAt tree rep.path).any fun file =>
        (s.dbs 1).changesets.any fun row' => row'.canonical.cs.conflicts.any fun rep' =>
          decide (file.blob ∈ rep'.sides)

end Server.NestedConflict

namespace Server

open BuriedConflict (start imported upload) in
open NestedConflict in
/-- The second of two additions lands as a conflict. -/
theorem conflicts_detectable_of_reach_recorded :
    ∃ s row rep, Lib.execIf step Recording start recorded = some s ∧ row ∈ (s.dbs 1).changesets ∧
      rep ∈ row.canonical.cs.conflicts ∧
      ∃ tree file bytes, loadTree (s.cx 1) row.rootTreeId = .ok tree ∧
        filesAt tree rep.path = some file ∧ casGet s.cas file.blob = some bytes ∧
        (markerShaped bytes = true ↔ rep.Readable (casGet s.cas)) := by
  have hrun : (Lib.execIf step Recording start recorded).any (fun s =>
      (s.dbs 1).changesets.any fun row => row.canonical.cs.conflicts.any fun _ => true) = true := by
    decide +kernel
  obtain ⟨s, hs, hholds⟩ := (Option.any_eq_true _ _).mp hrun
  obtain ⟨row, hrow, hreps⟩ := List.any_eq_true.mp hholds
  obtain ⟨rep, hrep, -⟩ := List.any_eq_true.mp hreps
  have hstart : Init start := ⟨.dbPerRepo, [(1, "r")], 100, 10, by decide, rfl⟩
  exact ⟨s, row, rep, hs, hrow, hrep,
    conflicts_detectable_of_reach (Lib.Reach.execIf (.start hstart) hs) hrow hrep⟩

open BuriedConflict (start imported upload) in
open NestedConflict in
/-- Three additions of one file, none with a marker line, land one after the other:
the detector does not see the conflict of the third. -/
theorem nested_conflict :
    (∀ e ∈ nested, ∀ bytes, e = .putBytes 1 bytes → plain bytes = true) ∧
    ∃ s row rep tree file bytes, Lib.execIf step Recording start nested = some s ∧
      row ∈ (s.dbs 1).changesets ∧ rep ∈ row.canonical.cs.conflicts ∧
      loadTree (s.cx 1) row.rootTreeId = .ok tree ∧ filesAt tree rep.path = some file ∧
      casGet s.cas file.blob = some bytes ∧ markerShaped bytes = false := by
  constructor
  · intro e he bytes heq
    subst heq
    simp only [nested, recorded, landed, imported, upload,
      List.mem_append, List.mem_cons, List.not_mem_nil, or_false, reduceCtorEq, false_or,
      Event.putBytes.injEq, true_and] at he
    rcases he with (rfl | rfl) | rfl <;> decide
  · have hrun : (Lib.execIf step Recording start nested).any overConflict = true := by
      decide +kernel
    obtain ⟨s, hs, hover⟩ := (Option.any_eq_true _ _).mp hrun
    have hstart : Init start := ⟨.dbPerRepo, [(1, "r")], 100, 10, by decide, rfl⟩
    have hrendered := conflictsOnMain_of_reach (Lib.Reach.execIf (.start hstart) hs) 1
    obtain ⟨row, hrow, hreps⟩ := List.any_eq_true.mp hover
    obtain ⟨rep, hrep, htree⟩ := List.any_eq_true.mp hreps
    split at htree
    · cases htree
    next tree htree' =>
      obtain ⟨file, hfile, hrows⟩ := (Option.any_eq_true _ _).mp htree
      obtain ⟨row', hrow', hreps'⟩ := List.any_eq_true.mp hrows
      obtain ⟨rep', hrep', hside⟩ := List.any_eq_true.mp hreps'
      have hblind := (hrendered row hrow rep hrep).1.not_readable htree' hfile
        (of_decide_eq_true hside)
      obtain ⟨tree', file', bytes, htree', hfile', hbytes, hiff⟩ :=
        (hrendered row' hrow' rep' hrep').1.detected
      refine ⟨s, row', rep', tree', file', bytes, hs, hrow', hrep', htree', hfile', hbytes, ?_⟩
      rw [← Bool.not_eq_true, hiff]
      exact hblind

end Server

end Naatre
