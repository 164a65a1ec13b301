import Naatre.Lib.Acyclic
import Naatre.Lib.Run
import Naatre.Lib.Table
import Naatre.Server.DeriveSteps

/-!
Progress of the derive queue. A pick only waits for parents that are pending or
leased, so in an acyclic graph some pending row is always eligible while nothing
is leased.
-/

namespace Naatre

section

variable {Id : Type} [DecidableEq Id]

/-! ### Parents -/

/-- `p` is a parent of `cs` in the repository. -/
def ParentOf (nodes : List (QueueNode Id)) (repoId : RepoId) (cs p : Id) : Prop :=
  p ∈ queueParents nodes repoId cs

/-- No changeset of a repository is an ancestor of its own. -/
def AcyclicNodes (nodes : List (QueueNode Id)) : Prop :=
  ∀ repoId, Lib.Acyclic (ParentOf nodes repoId)

theorem mem_queueParents {nodes : List (QueueNode Id)} {repoId : RepoId} {cs p : Id}
    (h : p ∈ queueParents nodes repoId cs) :
    ∃ n ∈ nodes, n.repoId = repoId ∧ n.id = cs ∧ p ∈ n.parents := by
  unfold queueParents at h
  generalize hfind : nodes.find? (fun n => decide (n.repoId = repoId ∧ n.id = cs)) = found at h
  cases found with
  | none => exact absurd h List.not_mem_nil
  | some n =>
      have hn : n.repoId = repoId ∧ n.id = cs := by simpa using List.find?_some hfind
      exact ⟨n, List.mem_of_find?_eq_some hfind, hn.1, hn.2, h⟩

/-- The parents of a stored changeset stay what they are. -/
theorem queueParents_append {nodes : List (QueueNode Id)} {node n : QueueNode Id} (hn : n ∈ nodes) :
    queueParents (nodes ++ [node]) n.repoId n.id = queueParents nodes n.repoId n.id := by
  rw [queueParents, queueParents, List.find?_append]
  have hsome : (nodes.find? fun m => decide (m.repoId = n.repoId ∧ m.id = n.id)).isSome :=
    List.find?_isSome.mpr ⟨n, hn, by simp⟩
  rw [Option.or_of_isSome hsome]

theorem queueParents_new {nodes : List (QueueNode Id)} {node : QueueNode Id}
    (hnew : ¬ (nodes.any fun n => decide (n.repoId = node.repoId ∧ n.id = node.id)) = true) :
    queueParents (nodes ++ [node]) node.repoId node.id = node.parents := by
  have hnone : nodes.find? (fun n => decide (n.repoId = node.repoId ∧ n.id = node.id)) = none := by
    refine List.find?_eq_none.mpr fun n hn hdec => hnew (List.any_eq_true.mpr ⟨n, hn, hdec⟩)
  rw [queueParents, List.find?_append, hnone, Option.none_or, List.find?_singleton]
  simp

theorem AcyclicNodes.of_rank {nodes : List (QueueNode Id)} (rank : Id → ℕ)
    (h : ∀ n ∈ nodes, ∀ p ∈ n.parents, rank p < rank n.id) : AcyclicNodes nodes := by
  intro repoId
  refine .of_rank rank fun cs p hp => ?_
  obtain ⟨n, hn, -, rfl, hparent⟩ := mem_queueParents hp
  exact h n hn p hparent

/-! ### The pick -/

theorem inFlight_eq_false {rows : List (DeriveRow Id)} {key : DeriveKey Id} :
    inFlight rows key = false ↔
      ∀ row, deriveGet rows key = some row → row.state = .done ∨ row.state = .poison := by
  rw [inFlight, Option.any_eq_false]
  refine forall₂_congr fun row _ => ?_
  cases row.state <;> simp

/-- What a pick returns: a pending row none of whose parents is in flight. -/
theorem derivePickNext_some {t : DeriveTables Id} {kind : ℕ} {repoId : RepoId} {cs : Id}
    (h : derivePickNext t kind = some (repoId, cs)) :
    ∃ row ∈ t.rows, row.key = ⟨kind, repoId, cs⟩ ∧ row.state = .pending ∧
      ∀ p ∈ queueParents t.nodes repoId cs, ∀ parent,
        deriveGet t.rows ⟨kind, repoId, p⟩ = some parent →
          parent.state = .done ∨ parent.state = .poison := by
  obtain ⟨row, hfind, heq⟩ := Option.map_eq_some_iff.mp h
  obtain ⟨rfl, rfl⟩ := Prod.mk.inj heq
  have hrow := List.find?_some hfind
  simp only [Bool.and_eq_true, decide_eq_true_eq, List.all_eq_true, Bool.not_eq_true'] at hrow
  obtain ⟨⟨rfl, hpending⟩, hparents⟩ := hrow
  exact ⟨row, List.mem_of_find?_eq_some hfind, rfl, hpending, fun p hp =>
    inFlight_eq_false.mp (hparents p hp)⟩

/-- A kind with a pending row and no lease has a row to pick: one of the pending
rows has no pending ancestor. -/
theorem derivePickNext_isSome {t : DeriveTables Id} (hacyclic : AcyclicNodes t.nodes) {kind : ℕ}
    (hpending : ∃ row ∈ t.rows, row.key.kind = kind ∧ row.state = .pending)
    (hleased : ∀ row ∈ t.rows, row.key.kind = kind → row.state ≠ .deriving) :
    (derivePickNext t kind).isSome := by
  obtain ⟨first, hfirst, hkind, hstate⟩ := hpending
  -- the pending changesets of one repository
  let waiting := (t.rows.filter fun row =>
    decide (row.key.kind = kind ∧ row.key.repoId = first.key.repoId ∧ row.state = .pending)).map
      fun row => row.key.cs
  have hmem : first.key.cs ∈ waiting := by
    refine List.mem_map_of_mem (List.mem_filter.mpr ⟨hfirst, ?_⟩)
    exact decide_eq_true ⟨hkind, rfl, hstate⟩
  obtain ⟨cs, hcs, hend⟩ := (hacyclic first.key.repoId).exists_end (List.ne_nil_of_mem hmem)
  obtain ⟨row, hrow, rfl⟩ := List.mem_map.mp hcs
  obtain ⟨hrow, hwait⟩ := List.mem_filter.mp hrow
  obtain ⟨hrowKind, hrepo, hrowState⟩ := of_decide_eq_true hwait
  rw [derivePickNext, Option.isSome_map, List.find?_isSome]
  refine ⟨row, hrow, ?_⟩
  simp only [Bool.and_eq_true, decide_eq_true_eq, List.all_eq_true, Bool.not_eq_true']
  refine ⟨⟨hrowKind, hrowState⟩, fun p hp => inFlight_eq_false.mpr fun parent hparent => ?_⟩
  have hkey : parent.key = { row.key with cs := p } := deriveGet_key hparent
  have hstored : parent ∈ t.rows := deriveGet_mem hparent
  match hparentState : parent.state with
  | .done => exact .inl rfl
  | .poison => exact .inr rfl
  | .deriving => exact absurd hparentState (hleased parent hstored (by rw [hkey]; exact hrowKind))
  | .pending =>
      refine absurd ?_ (hend p (List.mem_map.mpr ⟨parent, List.mem_filter.mpr ⟨hstored, ?_⟩, ?_⟩))
      · rw [ParentOf, ← hrepo]
        exact hp
      · rw [hkey]
        exact decide_eq_true ⟨hrowKind, hrepo, hparentState⟩
      · rw [hkey]

/-! ### All runs -/

namespace DeriveQueue

/-- The states of all runs. -/
abbrev Reachable : DeriveQueue Id → Prop := Lib.Reach Init step fun _ _ => True

/-- In every run the rows have distinct keys of stored changesets, and a leased
key has its row. -/
structure TablesWf (q : DeriveQueue Id) : Prop where
  wf : RowsWf q.tables
  rowed : ∀ key expires, (key, expires) ∈ held q.workers →
    ∃ row, deriveGet q.tables.rows key = some row

theorem TablesWf.step {q q' : DeriveQueue Id} {e : QueueEvent Id} (hinv : TablesWf q)
    (h : q.step e = some q') : TablesWf q' := by
  refine ⟨step_wf hinv.wf hinv.rowed h, fun key expires hmem => ?_⟩
  rcases step_held h with hsub | ⟨i, leased, rfl, -, -, -, ⟨row, hrow, -⟩, hperm⟩
  · obtain ⟨row, hrow⟩ := hinv.rowed key expires (hsub.subset hmem)
    have hstays := step_row hinv.wf h key
    rw [hrow] at hstays
    exact hstays.stays
  · rcases List.mem_cons.mp (hperm.mem_iff.mp hmem) with heq | hmem
    · cases heq
      exact ⟨row, hrow⟩
    · obtain ⟨row, hrow⟩ := hinv.rowed key expires hmem
      have hstays := step_row hinv.wf h key
      rw [hrow] at hstays
      exact hstays.stays

theorem tablesWf_of_reach {ok : DeriveQueue Id → QueueEvent Id → Prop} {q : DeriveQueue Id}
    (h : Lib.Reach Init step ok q) : TablesWf q := by
  refine Lib.Reach.invariant ?_ (fun s e s' _ hinv _ he => hinv.step he) h
  rintro s ⟨nowNs, leaseNs, rfl⟩
  exact ⟨⟨List.nodup_nil, fun _ _ hget => nomatch hget⟩, fun _ _ hin => nomatch hin⟩

/-- In every run over an acyclic graph: while a kind has a pending row and no
leased one, the pick returns a pending row whose parents are done, poisoned or
not queued. -/
theorem pick_progress_of_reach {q : DeriveQueue Id} (h : Reachable q)
    (hacyclic : AcyclicNodes q.tables.nodes) (kind : ℕ)
    (hpending : ∃ key row, deriveGet q.tables.rows key = some row ∧ key.kind = kind ∧
      row.state = .pending)
    (hleased : ∀ key row, deriveGet q.tables.rows key = some row → key.kind = kind →
      row.state ≠ .deriving) :
    ∃ repoId cs row, derivePickNext q.tables kind = some (repoId, cs) ∧
      deriveGet q.tables.rows ⟨kind, repoId, cs⟩ = some row ∧ row.state = .pending ∧
      ∀ p ∈ queueParents q.tables.nodes repoId cs, ∀ parent,
        deriveGet q.tables.rows ⟨kind, repoId, p⟩ = some parent →
          parent.state = .done ∨ parent.state = .poison := by
  have hkeys := (tablesWf_of_reach h).wf.keys
  have hget : ∀ row ∈ q.tables.rows, deriveGet q.tables.rows row.key = some row :=
    fun row hrow => Lib.find_of_nodup hkeys hrow
  have hsome : (derivePickNext q.tables kind).isSome := by
    refine derivePickNext_isSome hacyclic ?_ fun row hrow => hleased row.key row (hget row hrow)
    obtain ⟨key, row, hrow, hkind, hstate⟩ := hpending
    exact ⟨row, deriveGet_mem hrow, by rw [deriveGet_key hrow, hkind], hstate⟩
  obtain ⟨⟨repoId, cs⟩, hpick⟩ := Option.isSome_iff_exists.mp hsome
  obtain ⟨row, hrow, hkey, hstate, hparents⟩ := derivePickNext_some hpick
  exact ⟨repoId, cs, row, hpick, hkey ▸ hget row hrow, hstate, hparents⟩

end DeriveQueue

end

namespace DeriveQueue

/-! ### A parent without a row -/

/-- A changeset stored without a registry, and a create on top of it. -/
def rowless : List (QueueEvent ℕ) :=
  [.create ⟨1, 7, 0, []⟩ [], .create ⟨1, 8, 1, [7]⟩ [(0, none)]]

def fresh : DeriveQueue ℕ := ⟨0, 10, ⟨[], [], []⟩, []⟩

theorem pick_progress_of_reach_rowless : ∃ q, Lib.exec step fresh rowless = some q ∧
    ∃ repoId cs row, derivePickNext q.tables 0 = some (repoId, cs) ∧
      deriveGet q.tables.rows ⟨0, repoId, cs⟩ = some row ∧ row.state = .pending ∧
      ∀ p ∈ queueParents q.tables.nodes repoId cs, ∀ parent,
        deriveGet q.tables.rows ⟨0, repoId, p⟩ = some parent →
          parent.state = .done ∨ parent.state = .poison := by
  refine ⟨_, rfl, pick_progress_of_reach (Lib.Reach.exec (.start ⟨0, 10, rfl⟩)
    (fun _ _ _ => trivial) (show Lib.exec step fresh rowless = some _ from rfl)) ?_ 0 ?_ ?_⟩
  · exact .of_rank id (by decide)
  · exact ⟨⟨0, 1, 8⟩, _, rfl, rfl, rfl⟩
  · intro key row hrow _
    have hmem := deriveGet_mem hrow
    rw [List.mem_singleton.mp hmem]
    decide

/-- A row is pending and none is leased, and the pick returns the child before
its parent has a row. -/
theorem pick_before_parent : ∃ q, Lib.exec step fresh rowless = some q ∧
    (q.tables.rows.map (·.state) = [.pending]) ∧
    derivePickNext q.tables 0 = some (1, 8) ∧ queueParents q.tables.nodes 1 8 = [7] ∧
      (q.tables.nodes.any fun n => decide (n.repoId = 1 ∧ n.id = 7)) = true ∧
      deriveGet q.tables.rows ⟨0, 1, 7⟩ = none :=
  ⟨_, rfl, by decide, by decide, by decide, by decide, by decide⟩

end DeriveQueue

end Naatre
