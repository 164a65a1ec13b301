import Naatre.Server.Tables

/-!
First-parent chains, and the tip of a land: whatever a round does with its
node, the tip is a stored changeset above the one the land started from.
-/

namespace Naatre

section

variable {Id : Type} [Platform Id]

/-- `parent` is the first parent of `child`. -/
def FirstParent (db : RepoTables Id) (child parent : Id) : Prop :=
  ∃ row, changesetGet db child = some row ∧ row.parents.head? = some parent

/-- `old` is reached from `new` along first parents. -/
def OnChain (db : RepoTables Id) (old new : Id) : Prop :=
  Relation.ReflTransGen (FirstParent db) new old

/-- `old` is an ancestor of `new`, or `new` itself. -/
def Ancestor (db : RepoTables Id) (old new : Id) : Prop :=
  Relation.ReflTransGen (Lib.Edge (parentsOf db)) new old

theorem FirstParent.edge {db : RepoTables Id} {child parent : Id}
    (h : FirstParent db child parent) : Lib.Edge (parentsOf db) child parent := by
  obtain ⟨row, hrow, hparent⟩ := h
  exact .of_succ (by rw [parentsOf, hrow, Option.map_some]) (List.mem_of_mem_head? hparent)

theorem OnChain.ancestor {db : RepoTables Id} {old new : Id} (h : OnChain db old new) :
    Ancestor db old new :=
  Relation.ReflTransGen.mono (fun _ _ => FirstParent.edge) _ _ h

theorem FirstParent.keep {db db' : RepoTables Id} (hkeeps : db.Keeps db') {child parent : Id}
    (h : FirstParent db child parent) : FirstParent db' child parent := by
  obtain ⟨row, hrow, hparent⟩ := h
  exact ⟨row, hkeeps child row hrow, hparent⟩

theorem OnChain.keep {db db' : RepoTables Id} (hkeeps : db.Keeps db') {old new : Id}
    (h : OnChain db old new) : OnChain db' old new :=
  Relation.ReflTransGen.mono (fun _ _ => FirstParent.keep hkeeps) _ _ h

theorem Ancestor.keep {db db' : RepoTables Id} (hkeeps : db.Keeps db') {old new : Id}
    (h : Ancestor db old new) : Ancestor db' old new := by
  refine Relation.ReflTransGen.mono (fun child parent hedge => ?_) _ _ h
  obtain ⟨parents, hparents, hmem⟩ := hedge
  obtain ⟨row, hrow, rfl⟩ := Option.map_eq_some_iff.mp hparents
  exact .of_succ (by rw [parentsOf, hkeeps child row hrow, Option.map_some]) hmem

/-! ### Rows of a loop -/

/-- An adopted node has the tip as its only parent. -/
theorem NodeMerge.adopted_parent {cmd : LandCommand Id} {st : LandState Id} {node : Id}
    (m : NodeMerge cmd st node) (hwf : TablesWf st.cx.db) {canonical : Canonical Id}
    (hencode : m.rebased.encode = .ok canonical) (hid : Platform.changesetId canonical = node) :
    m.input.row.canonical = canonical ∧ FirstParent st.cx.db node st.tipId := by
  have hrow := (landInput_ok m.input_ok).1
  have hcanonical : m.input.row.canonical = canonical := hwf.get_changesetId (by rw [hid, hrow])
  refine ⟨hcanonical, m.input.row, hrow, ?_⟩
  have hparents := (hwf.rows _ (changesetGet_some hrow).1).parents
  rw [hparents, hcanonical, Changeset.encode_ok hencode]
  rfl

/-- The tip is stored, and reached from the base along first parents. -/
structure TipAbove (base : Id) (st : LandState Id) : Prop where
  stored : (changesetGet st.cx.db st.tipId).isSome
  chain : OnChain st.cx.db base st.tipId

theorem NodeStep.tipAbove {cmd : LandCommand Id} {st st' : LandState Id} {node base : Id}
    {o : NodeOutcome} (h : NodeStep cmd st node o st') (hwf : TablesWf st.cx.db)
    (htip : TipAbove base st) : TipAbove base st' := by
  have hkeeps := h.keeps
  cases h with
  | dropped => exact htip
  | adopted m canonical hencode hgate hid stored hput =>
      obtain ⟨cas, cat, written, rfl⟩ := putBlobs_ok hput
      obtain ⟨-, hparent⟩ := m.adopted_parent hwf hencode hid
      exact ⟨by simp [(landInput_ok m.input_ok).1], .head hparent htip.chain⟩
  | inserted m canonical hencode hgate hid stored st' hput hinsert =>
      obtain ⟨cas, cat, written, rfl⟩ := putBlobs_ok hput
      obtain ⟨rootTreeId, size, trees, cx, -, hrow, rfl⟩ := landInsert_ok hinsert
      obtain ⟨hfresh, hcx⟩ := changesetInsertRows_some hrow
      have hget := changesetGet_append_new (congrArg (fun c => c.db.changesets) hcx)
        hfresh
      refine ⟨Option.isSome_iff_exists.mpr ⟨_, hget⟩, .head ⟨_, hget, ?_⟩ (htip.chain.keep hkeeps)⟩
      have hparents : canonical.cs.parents = [st.tipId] :=
        congrArg Changeset.parents (Changeset.encode_ok hencode)
      simp [ChangesetInsert.row, hparents]

theorem LandTrace.tipAbove {cmd : LandCommand Id} {st st' : LandState Id} {base : Id}
    {chain : List Id} {os : List NodeOutcome} (h : LandTrace cmd st chain os st')
    (hwf : TablesWf st.cx.db) (htip : TipAbove base st) : TipAbove base st' := by
  induction h with
  | nil => exact htip
  | cons hnode _ ih => exact ih (hnode.tablesWf hwf) (hnode.tipAbove hwf htip)

/-- The tip a land ends on lies above the main it started from. -/
theorem Rebase.tipAbove {cx : RepoCx Id} {cmd : LandCommand Id} {oldMain : Id}
    {contained : List Id} (b : Rebase cx cmd oldMain contained) (hwf : TablesWf cx.db) :
    TipAbove oldMain b.final := by
  obtain ⟨os, hos⟩ := landTrace_exists b.loop
  refine hos.tipAbove hwf ⟨?_, .refl⟩
  exact Option.isSome_iff_exists.mpr ⟨b.mainRow, b.main_ok⟩

end

end Naatre
