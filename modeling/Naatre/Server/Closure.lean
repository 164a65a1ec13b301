import Naatre.Lib.Walk
import Naatre.Server.TreeDerive

/-!
Reachability between tree rows: the recursive statements over `tree_entries`
(`tree_in_closure`, the live set of the collectors) and the walk over a posted
closure.
-/

namespace Naatre

section

variable {Id : Type} [Platform Id]

def TreeRow.dirs (row : TreeRow Id) : List Id :=
  (row.entries.filter (fun e => decide (e.kind = .dir))).map (fun e => e.object)

def TreeRow.files (row : TreeRow Id) : List Id :=
  (row.entries.filter (fun e => decide (e.kind = .file))).map (fun e => e.object)

/-- The children a walk finds below an id; an id without a row has none. -/
def childTrees (trees : List (TreeRow Id)) (id : Id) : List Id :=
  ((treeGet trees id).map (fun row => row.dirs)).getD []

/-- The tree ids reachable from `seeds`, the seeds included. -/
def treeClosure (trees : List (TreeRow Id)) (seeds : List Id) : List Id :=
  (Lib.walk (fun id => some (childTrees trees id))
    (seeds.length + (trees.map (fun row => row.dirs.length)).sum + 1) seeds []).getD []

/-- `child` is a sub-directory of the stored tree `parent`. -/
def TreeChild (trees : List (TreeRow Id)) (parent child : Id) : Prop :=
  child ∈ childTrees trees parent

theorem treeGet_some {trees : List (TreeRow Id)} {id : Id} {row : TreeRow Id}
    (h : treeGet trees id = some row) : row ∈ trees ∧ row.id = id :=
  ⟨List.mem_of_find?_eq_some h, by simpa using List.find?_some h⟩

theorem treeGet_isSome {trees : List (TreeRow Id)} {id : Id} :
    (treeGet trees id).isSome ↔ id ∈ trees.map (fun row => row.id) := by
  simp [treeGet, List.find?_isSome]

/-- The closure is exactly what the seeds reach. -/
theorem mem_treeClosure {trees : List (TreeRow Id)} {seeds : List Id} {id : Id} :
    id ∈ treeClosure trees seeds ↔
      ∃ s ∈ seeds, Relation.ReflTransGen (TreeChild trees) s id := by
  have hedge : Lib.Edge (fun id => some (childTrees trees id)) = TreeChild trees := by
    funext x y
    simp [Lib.Edge, TreeChild]
  have hrow : ∀ x next, some (childTrees trees x) = some next → next ≠ [] →
      Lib.rowNext (fun row : TreeRow Id => row.id) (fun row => row.dirs) trees x = some next := by
    intro x next hx hne
    rw [Option.some.injEq] at hx
    cases hget : treeGet trees x with
    | none => exact absurd (by simp [← hx, childTrees, hget]) hne
    | some row =>
        rw [← hx, childTrees, hget]
        rw [treeGet] at hget
        rw [Lib.rowNext, hget]
        rfl
  have hsome : (Lib.walk _ (seeds.length + _ + 1) seeds []).isSome :=
    Lib.walk_table_isSome (fun row : TreeRow Id => row.id) (fun row => row.dirs) hrow
      (fun _ _ _ _ => rfl)
  obtain ⟨out, hout⟩ := Option.isSome_iff_exists.mp hsome
  rw [treeClosure, hout, Option.getD_some, Lib.mem_walk_iff hout, hedge]

theorem subset_treeClosure {trees : List (TreeRow Id)} {seeds : List Id} :
    seeds ⊆ treeClosure trees seeds :=
  fun id hid => mem_treeClosure.mpr ⟨id, hid, .refl⟩

/-- The closure holds the children of its trees. -/
theorem treeClosure_child {trees : List (TreeRow Id)} {seeds : List Id} {parent child : Id}
    (hparent : parent ∈ treeClosure trees seeds) (hchild : TreeChild trees parent child) :
    child ∈ treeClosure trees seeds := by
  obtain ⟨s, hs, hpath⟩ := mem_treeClosure.mp hparent
  exact mem_treeClosure.mpr ⟨s, hs, hpath.tail hchild⟩

end

end Naatre
