import Naatre.Server.LandReport
import Naatre.Server.RefValidity
import Naatre.Server.ThreeWay
import Naatre.Server.TreeLoad

/-!
The history a land makes. `main` moves up a first-parent chain of new
changesets, and its tree is the fold of the three-way merge over the chain of
the head, where a node that adds nothing to the tip is left out.
-/

namespace Naatre

section

variable {Id : Type} [Platform Id]

/-! ### Stores that hold more -/

/-- Everything `cx` holds, `cx'` holds. -/
structure RepoCx.Extends (cx cx' : RepoCx Id) : Prop where
  rows : cx.db.Keeps cx'.db
  trees : TreesGrow cx.trees cx'.trees
  blobs : FindsMore (casGet cx.cas) (casGet cx'.cas)

theorem RepoCx.Extends.refl (cx : RepoCx Id) : cx.Extends cx :=
  ⟨.refl _, .refl _, fun _ _ h => h⟩

theorem RepoCx.Extends.trans {a b c : RepoCx Id} (hab : a.Extends b) (hbc : b.Extends c) :
    a.Extends c :=
  ⟨hab.rows.trans hbc.rows, hab.trees.trans hbc.trees,
    fun id bytes h => hbc.blobs id bytes (hab.blobs id bytes h)⟩

theorem casPut_findsMore {cas cas' : List (Id × Bytes)} {bytes : Bytes}
    (h : casPut cas bytes = some cas') : FindsMore (casGet cas) (casGet cas') := by
  intro id found hfound
  unfold casPut at h
  split_ifs at h
  · obtain rfl := Option.some.inj h
    exact hfound
  · obtain rfl := Option.some.inj h
    rw [casGet, List.lookup_append]
    rw [casGet] at hfound
    rw [hfound, Option.some_or]

theorem BlobWrites.findsMore {nowNs : ℕ} {free : Id → Prop}
    {a b : List (Id × Bytes) × Catalog Id} (h : BlobWrites nowNs free a b) :
    FindsMore (casGet a.1) (casGet b.1) := by
  induction h with
  | refl => exact fun _ _ h => h
  | tail _ hwrite ih =>
      obtain ⟨bytes, cas, -, hput, rfl⟩ := hwrite
      exact fun id found hfound => casPut_findsMore hput id found (ih id found hfound)

theorem NodeStep.extends {cmd : LandCommand Id} {st st' : LandState Id} {node : Id}
    {o : NodeOutcome} (h : NodeStep cmd st node o st') : st.cx.Extends st'.cx :=
  ⟨h.keeps, h.treesGrow, h.writes.findsMore⟩

theorem LandTrace.extends {cmd : LandCommand Id} {st st' : LandState Id} {chain : List Id}
    {os : List NodeOutcome} (h : LandTrace cmd st chain os st') : st.cx.Extends st'.cx :=
  ⟨h.keeps, h.treesGrow, h.writes.findsMore⟩

theorem loadTree_ok {cx : RepoCx Id} {root : Id} {node : MemNode Id} :
    loadTree cx root = .ok node ↔ MemNode.load cx.trees (some root) = .ok node := by
  unfold loadTree
  cases MemNode.load cx.trees (some root) <;> simp [Except.mapError]

theorem RepoCx.Extends.loadTree {cx cx' : RepoCx Id} (h : cx.Extends cx') {root : Id}
    {node : MemNode Id} (hload : loadTree cx root = .ok node) : loadTree cx' root = .ok node :=
  loadTree_ok.mpr (h.trees.load (loadTree_ok.mp hload))

/-- A round reads the same of its node later on. -/
theorem RepoCx.Extends.landInput {cx cx' : RepoCx Id} (h : cx.Extends cx') {node : Id}
    {input : NodeInput Id} (hinput : landInput cx node = .ok input) :
    landInput cx' node = .ok input := by
  obtain ⟨hrow, htree, hparent⟩ := landInput_ok hinput
  unfold Naatre.landInput
  simp only [h.rows node _ hrow, h.loadTree htree]
  rcases hparent with ⟨hroot, hempty⟩ | ⟨p, pRow, hhead, hpRow, hparentTree⟩
  · rw [hroot]
    simp only [bind, Except.bind, pure, Except.pure, ← hempty]
  · obtain ⟨rest, hparents⟩ : ∃ rest, input.row.parents = p :: rest := by
      cases hlist : input.row.parents with
      | nil => simp [hlist] at hhead
      | cons q rest =>
          rw [hlist, List.head?_cons, Option.some.injEq] at hhead
          exact ⟨rest, by rw [hhead]⟩
    rw [hparents]
    simp only [h.rows p _ hpRow, h.loadTree hparentTree, bind, Except.bind, pure, Except.pure]

/-! ### One node -/

def LandCommand.mode (cmd : LandCommand Id) : OnConflict :=
  if cmd.recordConflict then .record else .refuse

/-- A refusing merge that went through had no conflict. -/
theorem MergedAt.not_conflicting {fetchBlob : Id → Option Bytes} {p : Path}
    {b o t r : Option (FileMeta Id)} (h : MergedAt fetchBlob .refuse p b o t r) :
    ¬ Conflicting fetchBlob b o t := by
  rintro ⟨hd, hconflict⟩
  cases h with
  | agreed heq => exact hd.1 heq
  | theirs _ heq => exact hd.2.1 heq
  | ours _ _ heq => exact hd.2.2 heq
  | computed bytes inputs hc =>
      cases hc with
      | lines _ sides _ hmerged =>
          rw [hconflict sides] at hmerged
          cases hmerged
      | markers _ _ hon => cases hon

/-- A node whose merge leaves every content and mode as the tip has them, that
carries no conflict and makes none. -/
structure AddsNothing (fetchBlob : Id → Option Bytes) (carried : List (ConflictRep Id))
    (base ours theirs merged : FileMap Id) : Prop where
  same : SameContent ours merged
  carried : carried = []
  settled : ∀ p, ¬ Conflicting fetchBlob (base p) (ours p) (theirs p)

namespace NodeMerge

variable {cmd : LandCommand Id} {st : LandState Id} {node : Id}

theorem threeWay (m : NodeMerge cmd st node) {fetchBlob : Id → Option Bytes}
    (hmore : FindsMore (casGet st.cx.cas) fetchBlob) :
    ThreeWay fetchBlob cmd.mode (filesAt m.input.parentTree) (filesAt st.tipTree)
        (filesAt m.input.tree) (filesAt m.merged.node) ∧
      ∀ p, p ∈ m.reconflicted.map (fun c => c.path) ↔ Conflicting fetchBlob
        (filesAt m.input.parentTree p) (filesAt st.tipTree p) (filesAt m.input.tree p) := by
  obtain ⟨rec, ⟨merge⟩, hmerged, hreconflicted, hoversized⟩ := landMerge_ok m.merge_ok
  rw [hmerged]
  by_cases hrecord : cmd.recordConflict = true
  · have hmode : cmd.mode = .record := if_pos hrecord
    rw [if_pos hrecord] at merge hreconflicted
    rw [hmode, hreconflicted]
    exact merge.threeWay hmore (hoversized hrecord)
  · have hmode : cmd.mode = .refuse := if_neg hrecord
    rw [if_neg hrecord] at merge hreconflicted
    rw [hmode, hreconflicted]
    have hmerge := (merge.threeWay hmore merge.oversized_refuse).1
    exact ⟨hmerge, fun p => ⟨fun hp => absurd hp List.not_mem_nil,
      fun hp => absurd hp (hmerge p).not_conflicting⟩⟩

/-- A round drops its node exactly when the node adds nothing. -/
theorem addsNothing_iff (m : NodeMerge cmd st node) {fetchBlob : Id → Option Bytes}
    (hmore : FindsMore (casGet st.cx.cas) fetchBlob) :
    AddsNothing fetchBlob m.input.row.canonical.cs.conflicts (filesAt m.input.parentTree)
        (filesAt st.tipTree) (filesAt m.input.tree) (filesAt m.merged.node) ↔
      m.delta = [] ∧ m.reps = [] := by
  have hpaths := (m.threeWay hmore).2
  rw [NodeMerge.delta, deltaBetween_eq_nil]
  constructor
  · rintro ⟨hsame, hcarried, hsettled⟩
    refine ⟨hsame, ?_⟩
    have hnone : m.reconflicted = [] := by
      refine List.eq_nil_iff_forall_not_mem.mpr fun c hc => ?_
      exact hsettled c.path ((hpaths c.path).mp (List.mem_map_of_mem hc))
    rw [NodeMerge.reps, carry_eq_nil, hnone]
    exact ⟨hcarried, rfl⟩
  · rintro ⟨hsame, hreps⟩
    refine ⟨hsame, (carry_eq_nil.mp hreps).1, fun p hp => ?_⟩
    obtain ⟨c, hc, -⟩ := List.mem_map.mp ((hpaths p).mpr hp)
    have hmem := m.mem_reps hc
    rw [hreps] at hmem
    exact absurd hmem List.not_mem_nil

end NodeMerge

/-- The tree the loop carries is the one the tip is stored with. -/
def TipStored (st : LandState Id) : Prop :=
  ∃ row, changesetGet st.cx.db st.tipId = some row ∧ loadTree st.cx row.rootTreeId = .ok st.tipTree

/-- An adopted node lies on the tip, so its own parent's tree is the tip's. -/
theorem NodeMerge.adopted_parentTree {cmd : LandCommand Id} {st : LandState Id} {node : Id}
    (m : NodeMerge cmd st node) (hwf : TablesWf st.cx.db) (htip : TipStored st)
    {canonical : Canonical Id} (hencode : m.rebased.encode = .ok canonical)
    (hid : Platform.changesetId canonical = node) : m.input.parentTree = st.tipTree := by
  obtain ⟨-, row, hrow, hhead⟩ := m.adopted_parent hwf hencode hid
  obtain ⟨hinput, -, hparent⟩ := landInput_ok m.input_ok
  obtain rfl : row = m.input.row := Option.some.inj (hrow.symm.trans hinput)
  obtain ⟨tipRow, htipRow, htipTree⟩ := htip
  rcases hparent with ⟨hroot, -⟩ | ⟨p, pRow, hp, hpRow, hparentTree⟩
  · rw [hroot] at hhead
    cases hhead
  · obtain rfl : p = st.tipId := Option.some.inj (hp.symm.trans hhead)
    obtain rfl : pRow = tipRow := Option.some.inj (hpRow.symm.trans htipRow)
    exact Except.ok.inj (hparentTree.symm.trans htipTree)

theorem NodeStep.tipStored {cmd : LandCommand Id} {st st' : LandState Id} {node : Id}
    {o : NodeOutcome} (h : NodeStep cmd st node o st') (htrees : TreesWf st.cx.trees)
    (htip : TipStored st) : TipStored st' := by
  cases h with
  | dropped => exact htip
  | adopted m canonical hencode hgate hid stored hput =>
      obtain ⟨cas, cat, written, rfl⟩ := putBlobs_ok hput
      obtain ⟨hrow, htree, -⟩ := landInput_ok m.input_ok
      exact ⟨m.input.row, hrow, htree⟩
  | inserted m canonical hencode hgate hid stored st' hput hinsert =>
      obtain ⟨cas, cat, written, rfl⟩ := putBlobs_ok hput
      obtain ⟨rootTreeId, size, trees, cx, hcollect, hrow, rfl⟩ := landInsert_ok hinsert
      obtain ⟨hfresh, hcx⟩ := changesetInsertRows_some hrow
      have hget := changesetGet_append_new (congrArg (fun c => c.db.changesets) hcx) hfresh
      have htreesEq : cx.trees = treesInsert st.cx.trees trees := by rw [hcx]
      refine ⟨_, hget, loadTree_ok.mpr ?_⟩
      rw [htreesEq]
      exact load_collect hcollect htrees

/-! ### The fold -/

/-- The left fold of the three-way merge over a chain, oldest node first: a
node's tree over the tree of its own first parent onto the tip, a node that
adds nothing left out. -/
inductive MergeFold (cx : RepoCx Id) (on : OnConflict) : FileMap Id → List Id → FileMap Id → Prop
  | nil (tip : FileMap Id) : MergeFold cx on tip [] tip
  | merged {tip merged result : FileMap Id} {node : Id} {nodes : List Id} (input : NodeInput Id)
      (hinput : landInput cx node = .ok input)
      (hmerge : ThreeWay (casGet cx.cas) on (filesAt input.parentTree) tip (filesAt input.tree)
        merged)
      (hadds : ¬ AddsNothing (casGet cx.cas) input.row.canonical.cs.conflicts
        (filesAt input.parentTree) tip (filesAt input.tree) merged)
      (hrest : MergeFold cx on merged nodes result) : MergeFold cx on tip (node :: nodes) result
  | leftOut {tip merged result : FileMap Id} {node : Id} {nodes : List Id} (input : NodeInput Id)
      (hinput : landInput cx node = .ok input)
      (hmerge : ThreeWay (casGet cx.cas) on (filesAt input.parentTree) tip (filesAt input.tree)
        merged)
      (hnothing : AddsNothing (casGet cx.cas) input.row.canonical.cs.conflicts
        (filesAt input.parentTree) tip (filesAt input.tree) merged)
      (hrest : MergeFold cx on tip nodes result) : MergeFold cx on tip (node :: nodes) result

/-- What a round did to the tip's tree: a node that adds nothing left it, any
other one's merge became it. -/
theorem NodeStep.tipTree {cmd : LandCommand Id} {st st' : LandState Id} {node : Id}
    {o : NodeOutcome} (h : NodeStep cmd st node o st') (hwf : TablesWf st.cx.db)
    (htip : TipStored st) :
    ∃ m : NodeMerge cmd st node,
      (m.delta = [] ∧ m.reps = []) ∧ st'.tipTree = st.tipTree ∨
        ¬ (m.delta = [] ∧ m.reps = []) ∧ filesAt st'.tipTree = filesAt m.merged.node := by
  cases h with
  | dropped m hdelta hreps => exact ⟨m, .inl ⟨⟨hdelta, hreps⟩, rfl⟩⟩
  | adopted m canonical hencode hgate hid stored hput hkept =>
      have hmerge := (m.threeWay (show FindsMore (casGet st.cx.cas) (casGet st.cx.cas) from
        fun _ _ h => h)).1
      rw [m.adopted_parentTree hwf htip hencode hid] at hmerge
      exact ⟨m, .inr ⟨hkept, (ThreeWay.theirs _ _ _ _).unique hmerge⟩⟩
  | inserted m canonical hencode hgate hid stored st' hput hinsert hkept =>
      obtain ⟨rootTreeId, size, trees, cx, hcollect, hrow, rfl⟩ := landInsert_ok hinsert
      exact ⟨m, .inr ⟨hkept, rfl⟩⟩

/-- A run of the loop folds the merge over its nodes, read from any store that
holds what it left. -/
theorem LandTrace.fold {cmd : LandCommand Id} {st st' : LandState Id} {chain : List Id}
    {os : List NodeOutcome} (h : LandTrace cmd st chain os st') (hwf : TablesWf st.cx.db)
    (htrees : TreesWf st.cx.trees) (htip : TipStored st) {cx' : RepoCx Id}
    (hext : st'.cx.Extends cx') :
    MergeFold cx' cmd.mode (filesAt st.tipTree) chain (filesAt st'.tipTree) ∧ TipStored st' := by
  induction h with
  | nil => exact ⟨.nil _, htip⟩
  | @cons st mid st' node nodes o os hnode hrest ih =>
      have hstart : st.cx.Extends cx' := hnode.extends.trans (hrest.extends.trans hext)
      have htip' : TipStored mid := hnode.tipStored htrees htip
      obtain ⟨hfold, hfinal⟩ :=
        ih (hnode.tablesWf hwf) (hnode.treesGrow.wf htrees) htip' hext
      refine ⟨?_, hfinal⟩
      have hmore : FindsMore (casGet st.cx.cas) (casGet cx'.cas) := hstart.blobs
      obtain ⟨m, hround⟩ := hnode.tipTree hwf htip
      have hinput : landInput cx' node = .ok m.input := hstart.landInput m.input_ok
      have hmerge := (m.threeWay hmore).1
      rcases hround with ⟨hnothing, htree⟩ | ⟨hkept, htree⟩
      · rw [htree] at hfold
        exact .leftOut m.input hinput hmerge ((m.addsNothing_iff hmore).mpr hnothing) hfold
      · rw [htree] at hfold
        exact .merged m.input hinput hmerge (fun hnothing =>
          hkept ((m.addsNothing_iff hmore).mp hnothing)) hfold

/-! ### The chain -/

/-- The chain of a head above `main`, newest node first: first parents down to
the first one `main` already descends from. -/
inductive HeadChain (db : RepoTables Id) (main : Id) : Id → List Id → Prop
  | stop {exit : Id} (hin : Ancestor db exit main) : HeadChain db main exit []
  | node {node parent : Id} {rest : List Id} (hout : ¬ Ancestor db node main)
      (hparent : FirstParent db node parent) (hrest : HeadChain db main parent rest) :
      HeadChain db main node (node :: rest)

theorem HeadChain.of_eq {db db' : RepoTables Id} (hdb : db'.changesets = db.changesets)
    {main head : Id} {chain : List Id} (h : HeadChain db main head chain) :
    HeadChain db' main head chain := by
  induction h with
  | stop hin => exact .stop (hin.keep (.of_eq hdb))
  | node hout hparent _ ih =>
      exact .node (fun hanc => hout (hanc.keep (.of_eq hdb.symm))) (hparent.keep (.of_eq hdb)) ih

theorem HeadChain.stored {db : RepoTables Id} {main head node : Id} {chain : List Id}
    (h : HeadChain db main head chain) (hnode : node ∈ chain) :
    ¬ Ancestor db node main ∧ ∃ row, changesetGet db node = some row := by
  induction h with
  | stop => exact absurd hnode List.not_mem_nil
  | node hout hparent _ ih =>
      rcases List.mem_cons.mp hnode with rfl | hnode
      · obtain ⟨row, hrow, -⟩ := hparent
        exact ⟨hout, row, hrow⟩
      · exact ih hnode

theorem mem_inMain {db : RepoTables Id} {main id : Id} {contained : List Id}
    (h : inMain db main = some contained) : id ∈ contained ↔ Ancestor db id main := by
  rw [Lib.mem_walk_iff h]
  simp [Ancestor]

theorem chainWalk_ok {db : RepoTables Id} {main cursor exit : Id} {contained chain : List Id}
    (hin : inMain db main = some contained) {fuel : ℕ}
    (h : chainWalk db contained fuel cursor = .ok (chain, exit)) : HeadChain db main cursor chain := by
  induction fuel generalizing cursor chain with
  | zero => simp [chainWalk] at h
  | succ fuel ih =>
      rw [chainWalk] at h
      split_ifs at h with hcontained hredacted
      · obtain ⟨rfl, rfl⟩ := Prod.mk.inj (Except.ok.inj h)
        exact .stop ((mem_inMain hin).mp hcontained)
      split at h
      · cases h
      next row hrow =>
        split at h
        · cases h
        next next rest hparents =>
          rw [Lib.bind_eq_ok] at h
          obtain ⟨⟨below, exit'⟩, hbelow, h⟩ := h
          simp only [pure, Except.pure, Except.ok.injEq, Prod.mk.injEq] at h
          obtain ⟨rfl, rfl⟩ := h
          have hparent : FirstParent db cursor next := ⟨row, hrow, by rw [hparents]; rfl⟩
          exact .node (fun hanc => hcontained ((mem_inMain hin).mpr hanc)) hparent (ih hbelow)

/-! ### The rows a land inserts -/

/-- A run of the loop adds one changeset for each node it counts, each above
the changeset it started from. -/
theorem LandTrace.inserts {cmd : LandCommand Id} {st st' : LandState Id} {base : Id}
    {chain : List Id} {os : List NodeOutcome} (h : LandTrace cmd st chain os st')
    (hwf : TablesWf st.cx.db) (htip : TipAbove base st) :
    ∃ rows, st'.cx.db.changesets = st.cx.db.changesets ++ rows ∧
      st'.rebased = st.rebased + rows.length ∧
      ∀ row ∈ rows, OnChain st'.cx.db base row.id := by
  induction h with
  | nil => exact ⟨[], by simp, by simp, by simp⟩
  | @cons st mid st' node nodes o os hnode hrest ih =>
      have htip' : TipAbove base mid := hnode.tipAbove hwf htip
      obtain ⟨rows, hrows, hcount, hchain⟩ := ih (hnode.tablesWf hwf) htip'
      have hround : ∃ new, mid.cx.db.changesets = st.cx.db.changesets ++ new ∧
          mid.rebased = st.rebased + new.length ∧ ∀ row ∈ new, row.id = mid.tipId := by
        cases hnode with
        | dropped => exact ⟨[], by simp, by simp, by simp⟩
        | adopted m canonical hencode hgate hid stored hput =>
            obtain ⟨cas, cat, written, rfl⟩ := putBlobs_ok hput
            exact ⟨[], by simp, by simp, by simp⟩
        | inserted m canonical hencode hgate hid stored st' hput hinsert =>
            obtain ⟨cas, cat, written, rfl⟩ := putBlobs_ok hput
            obtain ⟨rootTreeId, size, trees, cx, hcollect, hrow, rfl⟩ := landInsert_ok hinsert
            obtain ⟨-, rfl⟩ := changesetInsertRows_some hrow
            refine ⟨[_], rfl, rfl, fun row hrow => ?_⟩
            rw [List.mem_singleton.mp hrow]
            rfl
      obtain ⟨new, hnew, hcount', hids⟩ := hround
      refine ⟨new ++ rows, by rw [hrows, hnew, List.append_assoc], ?_, fun row hrow => ?_⟩
      · rw [hcount, hcount', List.length_append]
        omega
      · rcases List.mem_append.mp hrow with hrow | hrow
        · rw [hids row hrow]
          exact htip'.chain.keep hrest.keeps
        · exact hchain row hrow

/-! ### The land -/

/-- What a land that settles its key does to the history. -/
structure LandLinear (cx : RepoCx Id) (cmd : LandCommand Id) (done : LandDone Id)
    (cx' : RepoCx Id) (oldMain : Id) : Prop where
  /-- `main` moved from the old tip to the landed one -/
  moved : (refGet cx.db "main").bind (fun row => row.target) = some oldMain ∧
    (refGet cx'.db "main").bind (fun row => row.target) = some done.main
  linear : OnChain cx'.db oldMain done.main
  /-- `rebased` counts the new rows, which all lie above the old tip -/
  inserted : ∃ rows, cx'.db.changesets = cx.db.changesets ++ rows ∧ done.rebased = rows.length ∧
    ∀ row ∈ rows, OnChain cx'.db oldMain row.id
  /-- the landed tree is the fold of the merge over the head's chain; over the
  empty chain the landed changeset is the old one -/
  folded : ∃ chain, HeadChain cx.db oldMain cmd.head chain ∧
    (chain = [] ∧ done.main = oldMain ∧ cx'.trees = cx.trees ∨
      ∃ oldRow newRow tip result,
        changesetGet cx.db oldMain = some oldRow ∧ loadTree cx oldRow.rootTreeId = .ok tip ∧
        changesetGet cx'.db done.main = some newRow ∧ loadTree cx' newRow.rootTreeId = .ok result ∧
        MergeFold cx' cmd.mode (filesAt tip) chain.reverse (filesAt result))

theorem Rebase.linear {cx : RepoCx Id} {cmd : LandCommand Id} (f : FreshLand cx cmd)
    (b : Rebase f.pending cmd f.oldMain f.contained) (hwf : TablesWf cx.db)
    (htrees : TreesWf cx.trees) :
    LandLinear cx cmd
      (settle { b.final.cx with db := b.movedDb } cmd f.oldMain b.final.tipId b.final.rebased
        (landNote f.pending.db cmd) (repPathsOf b.movedDb b.final.tipId)).1
      (settle { b.final.cx with db := b.movedDb } cmd f.oldMain b.final.tipId b.final.rebased
        (landNote f.pending.db cmd) (repPathsOf b.movedDb b.final.tipId)).2 f.oldMain := by
  have hstart : TablesWf b.start.cx.db := show TablesWf f.pending.db from hwf.of_eq rfl rfl
  obtain ⟨os, hos⟩ := landTrace_exists b.loop
  have htip := b.tipAbove (show TablesWf f.pending.db from hwf.of_eq rfl rfl)
  obtain ⟨rows, hrows, hcount, hchain⟩ := hos.inserts hstart (show TipAbove f.oldMain b.start from
    ⟨Option.isSome_iff_exists.mpr ⟨b.mainRow, b.main_ok⟩, .refl⟩)
  have hrefs : b.movedDb.refs = cx.db.refs.map _ := congrArg _ b.tables.1
  have hmain := refGet_map hrefs (fun row => by split_ifs <;> rfl) "main"
  have hin : inMain f.pending.db f.oldMain = some f.contained := f.contained_ok
  have hext : b.final.cx.Extends
      (settle { b.final.cx with db := b.movedDb } cmd f.oldMain b.final.tipId b.final.rebased
        (landNote f.pending.db cmd) (repPathsOf b.movedDb b.final.tipId)).2 :=
    ⟨.of_eq rfl, .refl _, fun _ _ h => h⟩
  obtain ⟨hfold, row, hrow, htree⟩ := hos.fold hstart htrees ⟨b.mainRow, b.main_ok, b.tree_ok⟩ hext
  refine ⟨⟨?_, ?_⟩, htip.chain.keep (.of_eq rfl), ⟨rows, hrows, ?_, ?_⟩, ?_⟩
  · rw [f.main_ref, Option.bind_some, f.main_target]
  · have hname : f.mainRow.name = "main" := (refGet_some f.main_ref).2
    have hget : refGet (settle { b.final.cx with db := b.movedDb } cmd f.oldMain b.final.tipId
        b.final.rebased (landNote f.pending.db cmd)
        (repPathsOf b.movedDb b.final.tipId)).2.db "main" = refGet b.movedDb "main" := rfl
    rw [hget, hmain, f.main_ref, Option.map_some, Option.bind_some]
    simp [hname, f.main_target, settle]
  · have hstarted : b.start.rebased = 0 := rfl
    rw [hstarted, Nat.zero_add] at hcount
    exact hcount
  · exact fun row hrow => (hchain row hrow).keep (.of_eq rfl)
  · have hchainOk := (chainWalk_ok hin b.chain_ok).of_eq (show cx.db.changesets =
      f.pending.db.changesets from rfl)
    exact ⟨b.newestFirst, hchainOk, .inr ⟨b.mainRow, row, b.tipTree, b.final.tipTree, b.main_ok,
      b.tree_ok, hrow, htree, hfold⟩⟩

/-- A land that settles its key is linear. -/
theorem LandSuccess.linear {cx cx' : RepoCx Id} {cmd : LandCommand Id} {done : LandDone Id}
    (h : LandSuccess cx cmd done cx') (hwf : TablesWf cx.db) (htrees : TreesWf cx.trees)
    (hfresh : landGet cx.db cmd.principal cmd.key = none) :
    ∃ oldMain, LandLinear cx cmd done cx' oldMain := by
  cases h with
  | replay row result hrow => simp [hrow] at hfresh
  | contained f hin =>
      have hmain : (refGet cx.db "main").bind (fun row => row.target) = some f.oldMain := by
        rw [f.main_ref, Option.bind_some, f.main_target]
      have hhead : Ancestor cx.db cmd.head f.oldMain := by
        rcases hin with heq | hmem
        · exact heq ▸ .refl
        · exact (mem_inMain f.contained_ok).mp hmem
      exact ⟨f.oldMain, ⟨hmain, hmain⟩, .refl, ⟨[], by simp [settle, FreshLand.pending, landSettle,
        landInsertPending], rfl, by simp⟩, [], .stop hhead, .inl ⟨rfl, rfl, rfl⟩⟩
  | rebased f hout b => exact ⟨f.oldMain, b.linear f hwf htrees⟩

namespace Server

/-- Every land, in every run. One that settles its key moves `main` up a
first-parent chain of the rows it inserted to the fold of the merge over the
head's chain; a replay changes nothing; an error leaves every row of the
repository as it was. -/
theorem land_linear_of_reach {ok : Server Id → Event Id → Prop} {s : Server Id}
    (h : Reach ok s) {r : RepoId} {cmd : LandCommand Id} {answer : Except (ApiError Id) (LandDone Id)}
    {cx' : RepoCx Id} (hland : execute (s.cx r) cmd = (answer, cx')) :
    (∀ done, answer = .ok done → landGet (s.dbs r) cmd.principal cmd.key = none →
      ∃ oldMain, LandLinear (s.cx r) cmd done cx' oldMain) ∧
    (∀ done, answer = .ok done → (landGet (s.dbs r) cmd.principal cmd.key).isSome →
      cx' = s.cx r) ∧
    (∀ e, answer = .error e → cx'.db = s.dbs r ∧ cx'.trees = (s.cx r).trees) := by
  rcases execute_cases (s.cx r) cmd with ⟨done', hdone, hsuccess⟩ | ⟨e, cas, cat, herror, -, hcx⟩
  · rw [hland] at hdone hsuccess
    simp only at hdone hsuccess
    obtain rfl := hdone
    refine ⟨fun done hdone hfresh => ?_, fun done hdone hsome => ?_, fun _ he => absurd he (by simp)⟩
    · obtain rfl := Except.ok.inj hdone
      exact hsuccess.linear (tablesWf_of_reach h r) (treesWf_of_reach h _) hfresh
    · cases hsuccess with
      | replay => rfl
      | contained f => exact absurd (f.key_free ▸ hsome) (by simp)
      | rebased f => exact absurd (f.key_free ▸ hsome) (by simp)
  · rw [hland] at herror hcx
    simp only at herror hcx
    obtain rfl := herror
    refine ⟨fun _ hdone => absurd hdone (by simp), fun _ hdone => absurd hdone (by simp),
      fun _ _ => ?_⟩
    rw [hcx]
    exact ⟨rfl, rfl⟩

end Server

end

/-! ### A size the tip does not take over -/

namespace Server.StaleSize

open BuriedConflict

/-- A file `b` landed, then on the imported commit a `mod` of `a` to the content
and mode it has, with another size. -/
def added : List (Event PlainId) :=
  create imported (lastOf imported) "b" .add [98, 10]

/-- With `b` landed, a file `c` on the imported commit. -/
def forked : List (Event PlainId) :=
  create (added ++ [.land 1 (command (lastOf added) "first")]) (lastOf imported) "c" .add [99, 10]

/-- A land under a free key inserts a node of its own. -/
def inserts (s : Server PlainId) : Bool :=
  match execute (s.cx 1) (command (lastOf forked) "second") with
  | (.ok done, _) => decide (done.landed ≠ lastOf forked) &&
      (landGet (s.dbs 1) "ann" "second").isNone
  | (.error _, _) => false

def resized : List (Event PlainId) :=
  added ++ [.land 1 (command (lastOf added) "first"),
    .createLookup 1
      { repoName := "r"
        principal := "ann"
        scope := none
        parents := [lastOf imported]
        author := "ann"
        message := "size"
        timestampNs := some 8
        changes := [⟨⟨[], "a"⟩, .mod, some (Platform.blobId [97, 10]), some 99, some false⟩] },
    .createWrite 0]

/-- The head of the resizing chain, its one node. -/
def head : PlainId := lastOf resized

/-- The three-way merge of the one node onto `main`'s tree holds another size at
`a` than the landed tree. -/
def sizeLost (cx cx' : RepoCx PlainId) (done : LandDone PlainId) : Bool :=
  match landInput cx head, (refGet cx.db "main").bind (fun row => row.target) with
  | .ok input, some main =>
      match (changesetGet cx.db main).map (fun row => loadTree cx row.rootTreeId) with
      | some (.ok tip) =>
          match mergeTreesMode (casGet cx.cas) .refuse input.parentTree tip input.tree with
          | .ok merged =>
              decide ((filesAt merged.tree.node ⟨[], "a"⟩).map (fun m => m.size) = some 99) &&
                decide ((fileAt cx' done.main ⟨[], "a"⟩).map (fun m => m.size) = some 2)
          | .error _ => false
      | _ => false
  | _, _ => false

/-- The land loses the size, and another under a settled key ends in an error. -/
def lostThenSettled (s : Server PlainId) : Bool :=
  match execute (s.cx 1) (command head "second"), execute (s.cx 1) (command head "first") with
  | (.ok done, cx'), (.error _, cx'') => sizeLost (s.cx 1) cx' done &&
      (landGet cx''.db "ann" "first").any (fun row => decide (row.state = .done))
  | _, _ => false

end Server.StaleSize

namespace Server

open BuriedConflict StaleSize in
/-- The land of `c` is a rebase onto `b`, and linear. -/
theorem land_linear_of_reach_landed : ∃ s done cx' oldMain, Lib.exec step start forked = some s ∧
    execute (s.cx 1) (command (lastOf forked) "second") = (.ok done, cx') ∧
    done.landed ≠ lastOf forked ∧
    LandLinear (s.cx 1) (command (lastOf forked) "second") done cx' oldMain := by
  have hrun : (Lib.exec step start forked).any inserts = true := by decide +kernel
  obtain ⟨s, hs, hinserts⟩ := (Option.any_eq_true _ _).mp hrun
  unfold inserts at hinserts
  split at hinserts
  next done cx' hland =>
    obtain ⟨hother, hfree⟩ := Bool.and_eq_true_iff.mp hinserts
    have hstart : Init start := ⟨.dbPerRepo, [(1, "r")], 100, 10, by decide, rfl⟩
    have hreach : Reach (fun _ _ => True) s := Lib.Reach.exec (.start hstart) (by simp) hs
    obtain ⟨oldMain, hlinear⟩ := (land_linear_of_reach hreach hland).1 done rfl
      (Option.isNone_iff_eq_none.mp hfree)
    exact ⟨s, done, cx', oldMain, hs, hland, of_decide_eq_true hother, hlinear⟩
  next => cases hinserts

open BuriedConflict StaleSize in
/-- A node whose merge changes a size only is dropped, so the landed tree is not
the fold of the merge; and a land under a settled key with another head ends in
an error that leaves the key settled. -/
theorem stale_size : ∃ s done cx' e cx'', Lib.exec step start resized = some s ∧
    execute (s.cx 1) (command head "second") = (.ok done, cx') ∧ sizeLost (s.cx 1) cx' done = true ∧
    execute (s.cx 1) (command head "first") = (.error e, cx'') ∧
    (landGet cx''.db "ann" "first").any (fun row => decide (row.state = .done)) = true := by
  have hrun : (Lib.exec step start resized).any lostThenSettled = true := by decide +kernel
  obtain ⟨s, hs, hbad⟩ := (Option.any_eq_true _ _).mp hrun
  unfold lostThenSettled at hbad
  split at hbad
  next done cx' e cx'' hsecond hfirst =>
    obtain ⟨hlost, hsettled⟩ := Bool.and_eq_true_iff.mp hbad
    exact ⟨s, done, cx', e, cx'', hs, hsecond, hlost, hfirst, hsettled⟩
  next => cases hbad

end Server

end Naatre
