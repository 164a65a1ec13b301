import Mathlib.Logic.Relation
import Mathlib.Order.WellFoundedSet

/-!
Acyclic relations: a rank that falls along every edge, an end in every finite
set, and the steps of a function that follows the edges.
-/

namespace Naatre.Lib

variable {α : Type*} {r r' : α → α → Prop}

/-- No edges lead from an element back to it. -/
def Acyclic (r : α → α → Prop) : Prop := ∀ x, ¬ Relation.TransGen r x x

theorem Acyclic.mono (hsub : ∀ x y, r x y → r' x y) (h : Acyclic r') : Acyclic r :=
  fun x hpath => h x (Relation.TransGen.mono hsub _ _ hpath)

theorem Acyclic.of_rank (rank : α → ℕ) (h : ∀ x y, r x y → rank y < rank x) : Acyclic r := by
  have hfalls : ∀ x y, Relation.TransGen r x y → rank y < rank x := by
    intro x y hpath
    induction hpath with
    | single hstep => exact h _ _ hstep
    | tail _ hstep ih => exact (h _ _ hstep).trans ih
  exact fun x hpath => lt_irrefl _ (hfalls x x hpath)

/-- Some element of a finite set has no edge into the set. -/
theorem Acyclic.exists_end (h : Acyclic r) {l : List α} (hne : l ≠ []) :
    ∃ x ∈ l, ∀ y ∈ l, ¬ r x y := by
  have htrans : IsTrans α (fun y x => Relation.TransGen r x y) :=
    ⟨fun _ _ _ hyx hzy => hzy.trans hyx⟩
  have hirrefl : Std.Irrefl (fun y x => Relation.TransGen r x y) := ⟨h⟩
  have hstrict : IsStrictOrder α (fun y x => Relation.TransGen r x y) := {}
  have hwf : Set.WellFoundedOn {x | x ∈ l} (fun y x => Relation.TransGen r x y) :=
    l.finite_toSet.wellFoundedOn
  obtain ⟨a, ha⟩ := List.exists_mem_of_ne_nil l hne
  obtain ⟨⟨x, hx⟩, -, hmin⟩ := WellFounded.has_min hwf Set.univ ⟨⟨a, ha⟩, trivial⟩
  exact ⟨x, hx, fun y hy hedge => hmin ⟨y, hy⟩ trivial (.single hedge)⟩

end Naatre.Lib
