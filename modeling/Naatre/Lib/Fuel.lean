import Naatre.Lib.Acyclic

/-!
Loops and recursions that carry fuel.

`Settles` says what a loop answers with every fuel from some point on; its rules
follow the loop one iteration at a time. `Acyclic.fuel_induct` is the induction
for a recursion that goes down the edges of an acyclic relation: fuel for every
node that has edges is enough, and the recursion then meets its own equation.
-/

namespace Naatre.Lib

/-! ### Answers that stay -/

section

variable {α β : Type*}

/-- `f` answers `a` with every fuel from some point on. -/
def Settles (f : ℕ → Option α) (a : α) : Prop := ∃ n, ∀ fuel ≥ n, f fuel = some a

namespace Settles

theorem now (a : α) : Settles (fun _ => some a) a := ⟨0, fun _ _ => rfl⟩

/-- One iteration of the loop, whose fuel it spends. -/
theorem step {f g : ℕ → Option α} {a : α} (h : ∀ fuel, f (fuel + 1) = g fuel)
    (hg : Settles g a) : Settles f a := by
  obtain ⟨n, hn⟩ := hg
  refine ⟨n + 1, fun fuel hfuel => ?_⟩
  obtain ⟨k, rfl⟩ : ∃ k, fuel = k + 1 := ⟨fuel - 1, by omega⟩
  rw [h, hn k (by omega)]

theorem bind {f : ℕ → Option α} {g : ℕ → α → Option β} {a : α} {b : β} (hf : Settles f a)
    (hg : Settles (fun fuel => g fuel a) b) : Settles (fun fuel => (f fuel).bind (g fuel)) b := by
  obtain ⟨n, hn⟩ := hf
  obtain ⟨k, hk⟩ := hg
  refine ⟨max n k, fun fuel hfuel => ?_⟩
  change (f fuel).bind (g fuel) = some b
  rw [hn fuel (le_trans (le_max_left n k) hfuel), Option.bind_some]
  exact hk fuel (le_trans (le_max_right n k) hfuel)

end Settles

end

/-! ### Recursion down the edges -/

section

variable {α β : Type*} {r : α → α → Prop}

/-- Down an acyclic relation whose edges start in `nodes`, that many levels are
enough. -/
theorem Acyclic.fuel_induct (hacyclic : Acyclic r) {nodes : List α}
    (hnodes : ∀ x y, r x y → x ∈ nodes) {P : ℕ → α → Prop} (hend : ∀ x, x ∉ nodes → P 0 x)
    (hstep : ∀ n x, (∀ y, r x y → P n y) → P (n + 1) x) {n : ℕ} (hn : nodes.length ≤ n) (x : α) :
    P n x := by
  -- the nodes above `x` are distinct, so that the fuel left covers the others
  have hdown : ∀ n (above : List α) x, above.Nodup → above ⊆ nodes →
      (∀ a ∈ above, Relation.TransGen r a x) → nodes.length ≤ n + above.length → P n x := by
    intro n
    induction n with
    | zero =>
        intro above x hnodup hsub habove hlen
        refine hend x fun hx => ?_
        have hfresh : x ∉ above := fun hmem => hacyclic x (habove x hmem)
        have hle := (List.nodup_cons.mpr ⟨hfresh, hnodup⟩).length_le_of_subset
          (List.cons_subset.mpr ⟨hx, hsub⟩)
        rw [List.length_cons] at hle
        omega
    | succ n ih =>
        intro above x hnodup hsub habove hlen
        refine hstep n x fun y hy => ih (x :: above) y ?_ ?_ ?_ ?_
        · exact List.nodup_cons.mpr ⟨fun hmem => hacyclic x (habove x hmem), hnodup⟩
        · exact List.cons_subset.mpr ⟨hnodes x y hy, hsub⟩
        · intro a ha
          rcases List.mem_cons.mp ha with rfl | ha
          · exact .single hy
          · exact (habove a ha).tail hy
        · rw [List.length_cons]
          omega
  exact hdown n [] x List.nodup_nil (List.nil_subset _) (by simp) (by simpa using hn)

/-- What holds of a node as soon as it holds of all it has an edge to. -/
theorem Acyclic.induct (hacyclic : Acyclic r) {nodes : List α} (hnodes : ∀ x y, r x y → x ∈ nodes)
    {P : α → Prop} (hstep : ∀ x, (∀ y, r x y → P y) → P x) (x : α) : P x :=
  hacyclic.fuel_induct hnodes (P := fun _ x => P x)
    (fun x hx => hstep x fun y hy => absurd (hnodes x y hy) hx) (fun _ => hstep)
    le_rfl x

/-- A recursion by fuel meets its own equation from the nodes' number on. -/
theorem Acyclic.fuel_eq (hacyclic : Acyclic r) {nodes : List α} (hnodes : ∀ x y, r x y → x ∈ nodes)
    {f : ℕ → α → β} {F : (α → β) → α → β} (hsucc : ∀ n x, f (n + 1) x = F (f n) x)
    (hlocal : ∀ g g' x, (∀ y, r x y → g y = g' y) → F g x = F g' x)
    (hend : ∀ g x, x ∉ nodes → F g x = f 0 x) {n : ℕ} (hn : nodes.length ≤ n) (x : α) :
    f n x = F (f n) x := by
  rw [← hsucc]
  refine hacyclic.fuel_induct hnodes (P := fun n x => f n x = f (n + 1) x) ?_ ?_ hn x
  · intro x hx
    rw [hsucc, hend _ x hx]
  · intro n x ih
    rw [hsucc, hsucc (n + 1)]
    exact hlocal _ _ x ih

end

end Naatre.Lib
