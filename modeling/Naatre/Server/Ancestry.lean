import Naatre.Server.LandChain

/-!
No changeset is its own ancestor. A parent was stored, or at least looked up,
before its child was, and a frame names its parents: in the order in which the
frames of a repository were first written every parent comes before its
children, whatever was collected in between.
-/

namespace Naatre

section

variable {Id : Type} [Platform Id]

/-- The frames a repository ever stored, in order, with every parent before its
children. -/
structure Grounded (past : List (Canonical Id)) : Prop where
  parents : ∀ pre f post, past = pre ++ f :: post →
    ∀ p ∈ f.cs.parents, p ∈ pre.map Platform.changesetId

/-- Every row is of a frame of the list. -/
def WrittenIn (past : List (Canonical Id)) (db : RepoTables Id) : Prop :=
  ∀ row ∈ db.changesets, row.canonical ∈ past

theorem Grounded.nil : Grounded ([] : List (Canonical Id)) :=
  ⟨fun pre f post heq => by simp at heq⟩

theorem Grounded.snoc {past : List (Canonical Id)} {f : Canonical Id} (h : Grounded past)
    (hf : ∀ p ∈ f.cs.parents, p ∈ past.map Platform.changesetId) : Grounded (past ++ [f]) :=
  ⟨Lib.EachBehind.append h.parents hf⟩

/-- An order of the frames in which every parent comes first. -/
theorem Grounded.rank {past : List (Canonical Id)} (h : Grounded past) :
    ∃ rank : Id → ℕ, ∀ f ∈ past, ∀ p ∈ f.cs.parents, rank p < rank (Platform.changesetId f) := by
  refine ⟨fun id => (past.map Platform.changesetId).idxOf id, fun f hf p hp => ?_⟩
  show (past.map Platform.changesetId).idxOf p <
    (past.map Platform.changesetId).idxOf (Platform.changesetId f)
  -- the first frame with this id is the frame itself
  have hmem : Platform.changesetId f ∈ past.map Platform.changesetId := List.mem_map_of_mem hf
  have hlt := List.idxOf_lt_length_of_mem hmem
  have hget := List.getElem_idxOf hlt
  generalize (past.map Platform.changesetId).idxOf (Platform.changesetId f) = i at hlt hget ⊢
  rw [List.length_map] at hlt
  rw [List.getElem_map] at hget
  have hsplit : past = past.take i ++ f :: past.drop (i + 1) := by
    rw [← Platform.changesetId_inj hget, List.getElem_cons_drop hlt, List.take_append_drop]
  have hbefore := h.parents _ _ _ hsplit p hp
  have hindex := List.idxOf_lt_length_of_mem hbefore
  rw [List.length_map, List.length_take] at hindex
  rw [hsplit, List.map_append, List.idxOf_append_of_mem hbefore]
  omega

/-- The order in which every parent comes before its children. -/
def RankedBy (db : RepoTables Id) (rank : Id → ℕ) : Prop :=
  ∀ row ∈ db.changesets, ∀ p ∈ row.parents, rank p < rank row.id

theorem Grounded.ranked {past : List (Canonical Id)} (h : Grounded past) {db : RepoTables Id}
    (hdb : WrittenIn past db) (hwf : TablesWf db) : ∃ rank, RankedBy db rank := by
  obtain ⟨rank, hrank⟩ := h.rank
  refine ⟨rank, fun row hrow p hp => ?_⟩
  rw [(hwf.rows row hrow).id]
  exact hrank row.canonical (hdb row hrow) p ((hwf.rows row hrow).parents ▸ hp)

/-- A stored changeset's id is that of a frame of the list. -/
theorem WrittenIn.id_mem {past : List (Canonical Id)} {db : RepoTables Id} (h : WrittenIn past db)
    (hwf : TablesWf db) {id : Id} (hid : (changesetGet db id).isSome) :
    id ∈ past.map Platform.changesetId := by
  obtain ⟨row, hrow⟩ := Option.isSome_iff_exists.mp hid
  obtain ⟨hmem, rfl⟩ := changesetGet_some hrow
  rw [(hwf.rows row hmem).id]
  exact List.mem_map_of_mem (h row hmem)

theorem WrittenIn.of_eq {past : List (Canonical Id)} {db db' : RepoTables Id}
    (h : WrittenIn past db) (heq : db'.changesets = db.changesets) : WrittenIn past db' :=
  fun row hrow => h row (heq ▸ hrow)

/-- The frames after some steps: the list grew and still holds every row. -/
def Grown (past : List (Canonical Id)) (db : RepoTables Id) : Prop :=
  ∃ past', past <+: past' ∧ Grounded past' ∧ WrittenIn past' db

theorem Grown.refl {past : List (Canonical Id)} {db : RepoTables Id} (h : Grounded past)
    (hdb : WrittenIn past db) : Grown past db := ⟨past, List.prefix_refl past, h, hdb⟩

theorem Grown.trans {past past' : List (Canonical Id)} {db : RepoTables Id} (h : past <+: past')
    (h' : Grown past' db) : Grown past db := by
  obtain ⟨last, hpre, hgrounded, hdb⟩ := h'
  exact ⟨last, h.trans hpre, hgrounded, hdb⟩

theorem Grown.of_eq {past : List (Canonical Id)} {db db' : RepoTables Id} (h : Grown past db)
    (heq : db'.changesets = db.changesets) : Grown past db' := by
  obtain ⟨past', hpre, hgrounded, hdb⟩ := h
  exact ⟨past', hpre, hgrounded, hdb.of_eq heq⟩

/-- A new row whose parents were written before. -/
theorem WrittenIn.insert {past : List (Canonical Id)} {cx cx' : RepoCx Id}
    {rec : ChangesetInsert Id} (h : changesetInsertRows cx rec = some cx')
    (hdb : WrittenIn past cx.db) : WrittenIn (past ++ [rec.canonical]) cx'.db := by
  obtain ⟨-, hcx⟩ := changesetInsertRows_some h
  have hrows : cx'.db.changesets = cx.db.changesets ++ [rec.row] := by rw [hcx]
  intro row hrow
  rw [hrows] at hrow
  rcases List.mem_append.mp hrow with hrow | hrow
  · exact List.mem_append_left _ (hdb row hrow)
  · rw [List.mem_singleton.mp hrow]
    exact List.mem_append_right _ List.mem_cons_self

/-! ### The writers -/

theorem LandTrace.grown {cmd : LandCommand Id} {st st' : LandState Id} {chain : List Id}
    {os : List NodeOutcome} (h : LandTrace cmd st chain os st') (hwf : TablesWf st.cx.db)
    (htip : (changesetGet st.cx.db st.tipId).isSome) {past : List (Canonical Id)}
    (hpast : Grounded past) (hdb : WrittenIn past st.cx.db) : Grown past st'.cx.db := by
  induction h generalizing past with
  | nil => exact .refl hpast hdb
  | @cons st mid st' node nodes o os hnode _ ih =>
      have htip' := (hnode.tipAbove hwf ⟨htip, .refl⟩).stored
      have hwf' := hnode.tablesWf hwf
      cases hnode with
      | dropped => exact ih hwf' htip' hpast hdb
      | adopted m canonical hencode hgate hid stored hput =>
          obtain ⟨cas, cat, written, rfl⟩ := putBlobs_ok hput
          exact ih hwf' htip' hpast hdb
      | inserted m canonical hencode hgate hid stored st' hput hinsert =>
          obtain ⟨cas, cat, written, rfl⟩ := putBlobs_ok hput
          obtain ⟨rootTreeId, size, trees, cx, -, hrow, rfl⟩ := landInsert_ok hinsert
          have hparents : canonical.cs.parents = [st.tipId] :=
            congrArg Changeset.parents (Changeset.encode_ok hencode)
          have hgrounded : Grounded (past ++ [canonical]) := by
            refine hpast.snoc fun p hp => ?_
            rw [hparents, List.mem_singleton] at hp
            rw [hp]
            exact hdb.id_mem hwf htip
          exact .trans (List.prefix_append past [canonical])
            (ih hwf' htip' hgrounded (WrittenIn.insert hrow hdb))

theorem LandSuccess.grown {cx cx' : RepoCx Id} {cmd : LandCommand Id} {done : LandDone Id}
    (h : LandSuccess cx cmd done cx') (hwf : TablesWf cx.db) {past : List (Canonical Id)}
    (hpast : Grounded past) (hdb : WrittenIn past cx.db) : Grown past cx'.db := by
  cases h with
  | replay => exact .refl hpast hdb
  | contained => exact .refl hpast (hdb.of_eq rfl)
  | rebased f hout b =>
      obtain ⟨os, hos⟩ := landTrace_exists b.loop
      have hwf' : TablesWf b.start.cx.db := hwf.of_eq rfl rfl
      have htip : (changesetGet b.start.cx.db b.start.tipId).isSome := by
        rw [show changesetGet b.start.cx.db b.start.tipId = _ from b.main_ok]
        rfl
      exact (hos.grown hwf' htip hpast (hdb.of_eq rfl)).of_eq rfl

theorem Imported.grown {nowNs : ℕ} {db : RepoTables Id} {cx cx' : RepoCx Id}
    {ps : List (PreparedCommit Id)} (h : Imported nowNs cx ps cx')
    (before : List (PreparedCommit Id))
    (hresolved : ∀ mid p after, ps = mid ++ p :: after → ParentsResolved db (before ++ mid) p)
    {past : List (Canonical Id)} (hpast : Grounded past) (hdb : WrittenIn past cx.db)
    (hstored : ∀ id, (changesetGet db id).isSome → id ∈ past.map Platform.changesetId)
    (hbefore : ∀ q ∈ before, q.csId ∈ past.map Platform.changesetId) : Grown past cx'.db := by
  induction h generalizing before past with
  | nil => exact .refl hpast hdb
  | @cons cx mid cx' p ps hcommit _ ih =>
      obtain ⟨c⟩ := hcommit
      obtain ⟨cas, cat, hputs⟩ := c.puts.frame
      have hdb' : WrittenIn past c.stored.db := by rw [hputs]; exact hdb
      have hgrounded : Grounded (past ++ [p.canonical]) := by
        refine hpast.snoc fun parent hparent => ?_
        obtain ⟨gens, hgens, -⟩ := hresolved [] p ps rfl
        obtain ⟨g, -, hg⟩ := Lib.forall₂_left hgens hparent
        rcases hg with hg | ⟨q, hq, rfl, -⟩
        · obtain ⟨row, hrow, -⟩ := Option.map_eq_some_iff.mp hg
          exact hstored parent (Option.isSome_iff_exists.mpr ⟨row, hrow⟩)
        · rw [List.append_nil] at hq
          exact hbefore q hq
      have hmem {id : Id} (hid : id ∈ past.map Platform.changesetId) :
          id ∈ (past ++ [p.canonical]).map Platform.changesetId := by
        rw [List.map_append]
        exact List.mem_append_left _ hid
      refine .trans (List.prefix_append past [p.canonical])
        (ih (before ++ [p]) (fun m q after heq => ?_) hgrounded (WrittenIn.insert c.insert_ok hdb')
          (fun id hid => hmem (hstored id hid)) fun q hq => ?_)
      · have hq := hresolved (p :: m) q after (by simp [heq])
        simpa using hq
      · rcases List.mem_append.mp hq with hq | hq
        · exact hmem (hbefore q hq)
        · rw [List.mem_singleton.mp hq, List.map_append]
          exact List.mem_append_right _ List.mem_cons_self

theorem RunBackend.grown {nowNs : ℕ} {cx cx' : RepoCx Id} {git : GitRepo}
    {opts : ImportOptions} {head : GitOid} (h : RunBackend nowNs cx git opts head cx')
    (hwf : TablesWf cx.db) {past : List (Canonical Id)} (hpast : Grounded past)
    (hdb : WrittenIn past cx.db) : Grown past cx'.db := by
  have hstored : ∀ id, (changesetGet cx.db id).isSome → id ∈ past.map Platform.changesetId :=
    fun id hid => hdb.id_mem hwf hid
  cases h with
  | untouched => exact .refl hpast hdb
  | commits sc k mid cx' himported hputs =>
      obtain ⟨cas, cat, rfl⟩ := hputs.frame
      exact himported.grown [] (sc.resolved.take k) hpast hdb hstored (by simp)
  | grafted sc last main db himported hgraft =>
      have hlast := himported.grown [] sc.resolved hpast hdb hstored (by simp)
      obtain ⟨refs, rfl⟩ := (graftMain_cases hgraft).refs_only
      exact hlast.of_eq rfl

/-! ### Runs -/

namespace Server

/-- A repository's frames in the order of their writing: its rows are among
them, and so are the parents of the creates in flight. -/
def AncestryInv (s : Server Id) : Prop :=
  ∀ r, ∃ past : List (Canonical Id), Grounded past ∧ WrittenIn past (s.dbs r) ∧
    ∀ p, (r, p) ∈ s.creates → ∀ q ∈ p.canonical.cs.parents, q ∈ past.map Platform.changesetId

theorem AncestryInv.step {s s' : Server Id} {e : Event Id} (hinv : AncestryInv s)
    (hwf : ∀ r, TablesWf (s.dbs r)) (h : s.step e = some s') : AncestryInv s' := by
  intro r
  obtain ⟨past, hpast, hdb, hcreates⟩ := hinv r
  have hgrown : Grown past (s'.dbs r) := by
    have hstep := step_db h r
    generalize s'.dbs r = db at hstep
    cases hstep with
    | unchanged => exact .refl hpast hdb
    | createWrite i p cx hpending hpersist =>
        obtain ⟨w⟩ := hpersist
        have hparents := hcreates p (List.mem_of_getElem? hpending)
        exact ⟨_, List.prefix_append past [p.canonical], hpast.snoc hparents,
          WrittenIn.insert w.insert_ok hdb⟩
    | land cmd done cx hland => exact hland.grown (hwf r) hpast hdb
    | importGit git opts head stop cx hquiescent hrun => exact hrun.grown (hwf r) hpast hdb
    | casRef req done db hmain hredacted hwritten =>
        cases hwritten <;> exact .refl hpast (hdb.of_eq rfl)
    | mark id kind =>
        obtain ⟨redactions, hmark⟩ := redactionMark_db (s.dbs r) id kind s.nowNs
        rw [hmark]
        exact .refl hpast (hdb.of_eq rfl)
    | gcStep db hcollected =>
        exact .refl hpast fun row hrow => hdb row (hcollected.changesets.subset hrow)
  obtain ⟨past', hpre, hpast', hdb'⟩ := hgrown
  refine ⟨past', hpast', hdb', fun p hp q hq => ?_⟩
  have hsub : past.map Platform.changesetId ⊆ past'.map Platform.changesetId :=
    (hpre.map _).subset
  rcases step_creates h hp with hold | ⟨req, metas, -, hlookup, hprepare⟩
  · exact hsub (hcreates p hold q hq)
  · obtain ⟨-, hparents, -⟩ := createLookup_ok hlookup
    rw [(createPrepare_ok hprepare).1] at hq
    exact hsub (hdb.id_mem (hwf r) (hparents q hq))

theorem ancestryInv_of_reach {ok : Server Id → Event Id → Prop} {s : Server Id} (h : Reach ok s) :
    AncestryInv s := by
  refine Lib.Reach.invariant ?_ (fun s e s' hs hinv _ he =>
    hinv.step (tablesWf_of_reach hs) he) h
  rintro s ⟨layout, repos, nowNs, graceNs, -, rfl⟩ r
  exact ⟨[], .nil, fun _ hrow => absurd hrow List.not_mem_nil,
    fun _ hp => absurd hp List.not_mem_nil⟩

/-- In every reachable state the parents of the changesets of a repository come
before them in one order. -/
theorem ranked_of_reach {ok : Server Id → Event Id → Prop} {s : Server Id} (h : Reach ok s)
    (r : RepoId) : ∃ rank, RankedBy (s.dbs r) rank := by
  obtain ⟨past, hpast, hdb, -⟩ := ancestryInv_of_reach h r
  exact hpast.ranked hdb (tablesWf_of_reach h r)

end Server

end

end Naatre
