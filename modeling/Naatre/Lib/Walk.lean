import Mathlib.Logic.Relation
import Mathlib.Algebra.Order.BigOperators.Group.List
import Mathlib.Algebra.Order.Group.Nat
import Mathlib.Algebra.Ring.Nat
import Mathlib.Data.List.Dedup

/-!
Breadth-first walks over a graph given by a successor function.

`walk` is the loop every ancestry query runs: a queue, a set of nodes seen, a
node expanded when it is first popped. A node without successors recorded
(`none`) ends the walk. The fuel a walk over a finite graph needs is bounded by
its edges, so that a walk that gives no answer met such a node.
-/

namespace Naatre.Lib

variable {α : Type*} [DecidableEq α]

/-- Nodes reached from the queue, in the order they were expanded. -/
def walk (succ : α → Option (List α)) : ℕ → List α → List α → Option (List α)
  | 0, _, _ => none
  | _ + 1, [], seen => some seen
  | fuel + 1, x :: queue, seen =>
      if x ∈ seen then walk succ fuel queue seen
      else match succ x with
        | none => none
        | some next => walk succ fuel (queue ++ next) (seen ++ [x])

/-- `y` is one of the successors of `x`. -/
def Edge (succ : α → Option (List α)) (x y : α) : Prop := ∃ next, succ x = some next ∧ y ∈ next

omit [DecidableEq α] in
theorem Edge.of_succ {succ : α → Option (List α)} {x y : α} {next : List α}
    (h : succ x = some next) (hy : y ∈ next) : Edge succ x y := ⟨next, h, hy⟩

/-- Soundness: the walk adds only nodes reachable from its queue. -/
theorem walk_sound {succ : α → Option (List α)} {fuel : ℕ} {queue seen out : List α}
    (h : walk succ fuel queue seen = some out) {y : α} (hy : y ∈ out) :
    y ∈ seen ∨ ∃ x ∈ queue, Relation.ReflTransGen (Edge succ) x y := by
  induction fuel, queue, seen using walk.induct succ with
  | case1 queue seen => simp [walk] at h
  | case2 fuel seen =>
      simp only [walk, Option.some.injEq] at h
      exact .inl (h ▸ hy)
  | case3 fuel x queue seen hx ih =>
      simp only [walk, hx, if_true] at h
      rcases ih h with hs | ⟨z, hz, hzy⟩
      · exact .inl hs
      · exact .inr ⟨z, List.mem_cons_of_mem _ hz, hzy⟩
  | case4 fuel x queue seen hx hnone => simp [walk, hx, hnone] at h
  | case5 fuel x queue seen hx next hnext ih =>
      simp only [walk, hx, if_false, hnext] at h
      rcases ih h with hs | ⟨z, hz, hzy⟩
      · rcases List.mem_append.mp hs with hs | hs
        · exact .inl hs
        · rw [List.mem_singleton.mp hs]
          exact .inr ⟨x, List.mem_cons_self, .refl⟩
      · rcases List.mem_append.mp hz with hz | hz
        · exact .inr ⟨z, List.mem_cons_of_mem _ hz, hzy⟩
        · exact .inr ⟨x, List.mem_cons_self, .head (.of_succ hnext hz) hzy⟩

/-- The walk keeps what it has seen and reaches its whole queue. -/
theorem walk_subset {succ : α → Option (List α)} {fuel : ℕ} {queue seen out : List α}
    (h : walk succ fuel queue seen = some out) : seen ⊆ out ∧ queue ⊆ out := by
  induction fuel, queue, seen using walk.induct succ with
  | case1 queue seen => simp [walk] at h
  | case2 fuel seen =>
      simp only [walk, Option.some.injEq] at h
      exact ⟨fun _ hx => h ▸ hx, by simp⟩
  | case3 fuel x queue seen hx ih =>
      simp only [walk, hx, if_true] at h
      obtain ⟨hs, hq⟩ := ih h
      exact ⟨hs, List.cons_subset.mpr ⟨hs hx, hq⟩⟩
  | case4 fuel x queue seen hx hnone => simp [walk, hx, hnone] at h
  | case5 fuel x queue seen hx next hnext ih =>
      simp only [walk, hx, if_false, hnext] at h
      obtain ⟨hs, hq⟩ := ih h
      refine ⟨fun z hz => hs (List.mem_append_left _ hz), List.cons_subset.mpr ⟨?_, ?_⟩⟩
      · exact hs (List.mem_append_right _ (List.mem_singleton_self x))
      · exact fun z hz => hq (List.mem_append_left _ hz)

/-- Every node of `seen` has its successors among `seen` or the queue. -/
def Frontier (succ : α → Option (List α)) (queue seen : List α) : Prop :=
  ∀ x ∈ seen, ∃ next, succ x = some next ∧ ∀ y ∈ next, y ∈ seen ∨ y ∈ queue

/-- The nodes of a finished walk are closed under successors. -/
theorem walk_closed {succ : α → Option (List α)} {fuel : ℕ} {queue seen out : List α}
    (h : walk succ fuel queue seen = some out) (hf : Frontier succ queue seen) :
    Frontier succ [] out := by
  induction fuel, queue, seen using walk.induct succ with
  | case1 queue seen => simp [walk] at h
  | case2 fuel seen =>
      simp only [walk, Option.some.injEq] at h
      exact h ▸ hf
  | case3 fuel x queue seen hx ih =>
      simp only [walk, hx, if_true] at h
      refine ih h fun z hz => ?_
      obtain ⟨next, hnext, hall⟩ := hf z hz
      refine ⟨next, hnext, fun y hy => ?_⟩
      rcases hall y hy with h' | h'
      · exact .inl h'
      · rcases List.mem_cons.mp h' with rfl | h'
        · exact .inl hx
        · exact .inr h'
  | case4 fuel x queue seen hx hnone => simp [walk, hx, hnone] at h
  | case5 fuel x queue seen hx next hnext ih =>
      simp only [walk, hx, if_false, hnext] at h
      refine ih h fun z hz => ?_
      rcases List.mem_append.mp hz with hz | hz
      · obtain ⟨nz, hnz, hall⟩ := hf z hz
        refine ⟨nz, hnz, fun y hy => ?_⟩
        rcases hall y hy with h' | h'
        · exact .inl (List.mem_append_left _ h')
        · rcases List.mem_cons.mp h' with rfl | h'
          · exact .inl (List.mem_append_right _ (List.mem_singleton_self _))
          · exact .inr (List.mem_append_left _ h')
      · rw [List.mem_singleton.mp hz]
        exact ⟨next, hnext, fun y hy => .inr (List.mem_append_right _ hy)⟩

/-- A finished walk is exactly the set of nodes reachable from its seeds. -/
theorem mem_walk_iff {succ : α → Option (List α)} {fuel : ℕ} {seeds out : List α}
    (h : walk succ fuel seeds [] = some out) {y : α} :
    y ∈ out ↔ ∃ x ∈ seeds, Relation.ReflTransGen (Edge succ) x y := by
  constructor
  · intro hy
    rcases walk_sound h hy with hs | hx
    · exact absurd hs List.not_mem_nil
    · exact hx
  · rintro ⟨x, hx, hxy⟩
    have hclosed := walk_closed h (fun z hz => absurd hz List.not_mem_nil)
    induction hxy with
    | refl => exact (walk_subset h).2 hx
    | tail _ hyz ih =>
        obtain ⟨next, hnext, hall⟩ := hclosed _ ih
        obtain ⟨next', hnext', hmem⟩ := hyz
        rw [hnext, Option.some.injEq] at hnext'
        rcases hall _ (hnext' ▸ hmem) with h' | h'
        · exact h'
        · exact absurd h' List.not_mem_nil

/-! ### Fuel -/

/-- The number of successors of a node. -/
def outDegree (succ : α → Option (List α)) (x : α) : ℕ := ((succ x).map List.length).getD 0

/-- What is left to do: the queue, and the successors of every node of `nodes`
not yet expanded. -/
def walkBudget (succ : α → Option (List α)) (nodes queue seen : List α) : ℕ :=
  queue.length + ((nodes.filter (· ∉ seen)).map (outDegree succ)).sum

theorem walkBudget_expand {succ : α → Option (List α)} {nodes queue seen next : List α} {x : α}
    (hnodup : nodes.Nodup) (hmem : next ≠ [] → x ∈ nodes) (hx : x ∉ seen)
    (hnext : succ x = some next) :
    walkBudget succ nodes (queue ++ next) (seen ++ [x]) + 1 ≤
      walkBudget succ nodes (x :: queue) seen := by
  have hdeg : outDegree succ x = next.length := by simp [outDegree, hnext]
  have hsum : ((nodes.filter (· ∉ seen ++ [x])).map (outDegree succ)).sum + next.length ≤
      ((nodes.filter (· ∉ seen)).map (outDegree succ)).sum := by
    by_cases hin : x ∈ nodes
    · have hfilter : nodes.filter (· ∉ seen ++ [x]) = (nodes.filter (· ∉ seen)).erase x := by
        rw [(hnodup.filter _).erase_eq_filter, List.filter_filter]
        refine List.filter_congr fun z _ => ?_
        by_cases hz : z ∈ seen <;> by_cases hzx : z = x <;> simp [hz, hzx]
      have hxin : x ∈ nodes.filter (· ∉ seen) := List.mem_filter.mpr ⟨hin, by simpa using hx⟩
      have hperm := (List.perm_cons_erase hxin).map (outDegree succ)
      have heq := hperm.sum_nat
      rw [List.map_cons, List.sum_cons, hdeg] at heq
      rw [hfilter]
      omega
    · have hnil : next = [] := by
        by_contra hne
        exact hin (hmem hne)
      have hfilter : nodes.filter (· ∉ seen ++ [x]) = nodes.filter (· ∉ seen) := by
        refine List.filter_congr fun z hz => ?_
        have hzx : z ≠ x := fun h => hin (h ▸ hz)
        simp [hzx]
      rw [hfilter, hnil]
      simp
  simp only [walkBudget, List.length_append, List.length_cons]
  omega

/-- Enough fuel: a walk all of whose nodes have their successors recorded
finishes. `nodes` lists every node that has any. -/
theorem walk_fuel {succ : α → Option (List α)} {nodes : List α} (hnodup : nodes.Nodup)
    (hmem : ∀ x next, succ x = some next → next ≠ [] → x ∈ nodes)
    {fuel : ℕ} {queue seen : List α} (hfuel : walkBudget succ nodes queue seen < fuel)
    (hsome : ∀ x ∈ queue, ∀ y, Relation.ReflTransGen (Edge succ) x y → (succ y).isSome) :
    (walk succ fuel queue seen).isSome := by
  induction fuel, queue, seen using walk.induct succ with
  | case1 queue seen => omega
  | case2 fuel seen => simp [walk]
  | case3 fuel x queue seen hx ih =>
      simp only [walk, hx, if_true]
      refine ih ?_ fun z hz => hsome z (List.mem_cons_of_mem _ hz)
      simp only [walkBudget, List.length_cons] at hfuel ⊢
      omega
  | case4 fuel x queue seen hx hnone =>
      have := hsome x List.mem_cons_self x .refl
      simp [hnone] at this
  | case5 fuel x queue seen hx next hnext ih =>
      simp only [walk, hx, if_false, hnext]
      refine ih ?_ ?_
      · have : walkBudget succ nodes (queue ++ next) (seen ++ [x]) + 1 ≤ _ :=
          walkBudget_expand hnodup (hmem x next hnext) hx hnext
        omega
      · intro z hz y hzy
        rcases List.mem_append.mp hz with hz | hz
        · exact hsome z (List.mem_cons_of_mem _ hz) y hzy
        · exact hsome x List.mem_cons_self y (.head (.of_succ hnext hz) hzy)

/-! ### Graphs kept as a table of rows -/

section Table

variable {ρ : Type*} (key : ρ → α) (next : ρ → List α)

/-- The successors the first row of a key records. -/
def rowNext (rows : List ρ) (x : α) : Option (List α) :=
  (rows.find? (fun row => decide (key row = x))).map next

theorem rowNext_cons (row : ρ) (rows : List ρ) (x : α) :
    rowNext key next (row :: rows) x =
      if key row = x then some (next row) else rowNext key next rows x := by
  by_cases h : key row = x <;> simp [rowNext, h]

theorem rowNext_isSome {rows : List ρ} {x : α} :
    (rowNext key next rows x).isSome ↔ x ∈ rows.map key := by
  simp [rowNext, List.find?_isSome]

/-- A single node counts at most once in a list without repeats. -/
theorem sum_single_le {nodes : List α} (hnodup : nodes.Nodup) (x : α) (n : ℕ) :
    (nodes.map (fun y => if x = y then n else 0)).sum ≤ n := by
  induction nodes with
  | nil => simp
  | cons y nodes ih =>
      obtain ⟨hy, hrest⟩ := List.nodup_cons.mp hnodup
      rw [List.map_cons, List.sum_cons]
      by_cases hxy : x = y
      · have hzero : (nodes.map (fun z => if x = z then n else 0)).sum = 0 := by
          refine List.sum_eq_zero fun m hm => ?_
          obtain ⟨z, hz, rfl⟩ := List.mem_map.mp hm
          have hne : x ≠ z := fun h => hy (hxy ▸ h ▸ hz)
          rw [if_neg hne]
        rw [if_pos hxy, hzero]
        omega
      · rw [if_neg hxy]
        have := ih hrest
        omega

/-- The edges of the nodes are no more than the edges of the rows. -/
theorem sum_rowNext_le (succ : α → Option (List α)) (rows : List ρ)
    (hsucc : ∀ x, outDegree succ x ≤ outDegree (rowNext key next rows) x)
    {nodes : List α} (hnodup : nodes.Nodup) :
    (nodes.map (outDegree succ)).sum ≤ (rows.map (fun row => (next row).length)).sum := by
  refine (List.sum_le_sum fun x _ => hsucc x).trans ?_
  clear hsucc
  induction rows with
  | nil =>
      have hzero : outDegree (rowNext key next []) = fun _ => 0 := rfl
      rw [hzero]
      simp
  | cons row rows ih =>
      have hle : ∀ x ∈ nodes, outDegree (rowNext key next (row :: rows)) x ≤
          (if key row = x then (next row).length else 0) +
            outDegree (rowNext key next rows) x := by
        intro x _
        by_cases h : key row = x <;> simp [outDegree, rowNext_cons, h]
      refine (List.sum_le_sum hle).trans ?_
      rw [List.sum_map_add, List.map_cons, List.sum_cons]
      exact Nat.add_le_add (sum_single_le hnodup _ _) ih

/-- A walk over a table finishes within one step for each seed and each
recorded edge, when no node it meets lacks its successors. -/
theorem walk_table_isSome {succ : α → Option (List α)} {rows : List ρ}
    (hsucc : ∀ x next', succ x = some next' → next' ≠ [] →
      rowNext key next rows x = some next')
    {seeds : List α}
    (hsome : ∀ x ∈ seeds, ∀ y, Relation.ReflTransGen (Edge succ) x y → (succ y).isSome) :
    (walk succ (seeds.length + (rows.map (fun row => (next row).length)).sum + 1)
      seeds []).isSome := by
  refine walk_fuel (List.nodup_dedup (rows.map key)) ?_ ?_ hsome
  · intro x next' hx hne
    rw [List.mem_dedup, ← rowNext_isSome key next]
    simp [hsucc x next' hx hne]
  · have hdeg : ∀ x, outDegree succ x ≤ outDegree (rowNext key next rows) x := by
      intro x
      match hx : succ x with
      | none => simp [outDegree, hx]
      | some [] => simp [outDegree, hx]
      | some (y :: ys) => simp [outDegree, hx, hsucc x _ hx (by simp)]
    have := sum_rowNext_le key next succ rows hdeg (List.nodup_dedup (rows.map key))
    simp only [walkBudget, List.not_mem_nil, not_false_eq_true, decide_true, List.filter_true]
    omega

end Table

end Naatre.Lib
