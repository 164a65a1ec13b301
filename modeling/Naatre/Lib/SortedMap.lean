import Mathlib.Data.List.Nodup
import Mathlib.Order.Lattice

/-!
Ordered maps kept as lists of entries with ascending keys.
-/

namespace Naatre.Lib

variable {κ β : Type*} [LinearOrder κ]

/-- Puts an entry at its key's place, in place of the one that is there. -/
def sortedInsert (k : κ) (b : β) : List (κ × β) → List (κ × β)
  | [] => [(k, b)]
  | x :: rest =>
      if k < x.1 then (k, b) :: x :: rest
      else if k = x.1 then (k, b) :: rest
      else x :: sortedInsert k b rest

/-- Puts the entries one after the other. -/
def sortedInsertAll (m l : List (κ × β)) : List (κ × β) :=
  l.foldl (fun m x => sortedInsert x.1 x.2 m) m

/-- The keys ascend. -/
def Ascends (m : List (κ × β)) : Prop := m.Pairwise fun x y => x.1 < y.1

theorem Ascends.keys {m : List (κ × β)} (h : Ascends m) : (m.map Prod.fst).Nodup := by
  rw [List.Nodup, List.pairwise_map]
  exact h.imp fun hlt => hlt.ne

theorem mem_sortedInsert {k : κ} {b : β} {m : List (κ × β)} (h : Ascends m) {x : κ × β} :
    x ∈ sortedInsert k b m ↔ x = (k, b) ∨ x ∈ m ∧ x.1 ≠ k := by
  induction m with
  | nil => simp [sortedInsert]
  | cons y rest ih =>
      obtain ⟨hfirst, hrest⟩ := List.pairwise_cons.mp h
      rw [sortedInsert]
      split_ifs with hlt heq
      · -- every key of the map lies above the new one
        have hother : ∀ z ∈ y :: rest, z.1 ≠ k := by
          intro z hz
          rcases List.mem_cons.mp hz with rfl | hz
          · exact hlt.ne'
          · exact (hlt.trans (hfirst z hz)).ne'
        rw [List.mem_cons]
        exact or_congr_right ⟨fun hx => ⟨hx, hother x hx⟩, fun hx => hx.1⟩
      · have hother : ∀ z ∈ rest, z.1 ≠ k := fun z hz => heq ▸ (hfirst z hz).ne'
        rw [List.mem_cons, List.mem_cons]
        refine or_congr_right ⟨fun hx => ⟨.inr hx, hother x hx⟩, fun hx => ?_⟩
        rcases hx.1 with rfl | hx'
        · exact absurd heq.symm hx.2
        · exact hx'
      · rw [List.mem_cons, ih hrest, List.mem_cons]
        constructor
        · rintro (rfl | rfl | ⟨hx, hne⟩)
          · exact .inr ⟨.inl rfl, fun h' => heq h'.symm⟩
          · exact .inl rfl
          · exact .inr ⟨.inr hx, hne⟩
        · rintro (rfl | ⟨rfl | hx, hne⟩)
          · exact .inr (.inl rfl)
          · exact .inl rfl
          · exact .inr (.inr ⟨hx, hne⟩)

theorem Ascends.insert {k : κ} {b : β} {m : List (κ × β)} (h : Ascends m) :
    Ascends (sortedInsert k b m) := by
  induction m with
  | nil => exact List.pairwise_singleton _ _
  | cons y rest ih =>
      obtain ⟨hfirst, hrest⟩ := List.pairwise_cons.mp h
      rw [sortedInsert]
      split_ifs with hlt heq
      · refine List.pairwise_cons.mpr ⟨fun z hz => ?_, h⟩
        rcases List.mem_cons.mp hz with rfl | hz
        · exact hlt
        · exact hlt.trans (hfirst z hz)
      · exact List.pairwise_cons.mpr ⟨fun z hz => heq ▸ hfirst z hz, hrest⟩
      · refine List.pairwise_cons.mpr ⟨fun z hz => ?_, ih hrest⟩
        rcases (mem_sortedInsert hrest).mp hz with rfl | ⟨hz, -⟩
        · exact lt_of_le_of_ne (not_lt.mp hlt) (Ne.symm heq)
        · exact hfirst z hz

/-- Entries with distinct keys are all there, beside what they did not replace. -/
theorem sortedInsertAll_spec {m l : List (κ × β)} (h : Ascends m)
    (hkeys : (l.map Prod.fst).Nodup) : Ascends (sortedInsertAll m l) ∧
      ∀ x, x ∈ sortedInsertAll m l ↔ x ∈ l ∨ x ∈ m ∧ x.1 ∉ l.map Prod.fst := by
  induction l generalizing m with
  | nil => exact ⟨h, fun x => by simp [sortedInsertAll]⟩
  | cons y rest ih =>
      obtain ⟨hy, hrest⟩ := List.nodup_cons.mp hkeys
      obtain ⟨hascends, hmem⟩ := ih (@Ascends.insert _ _ _ y.1 y.2 m h) hrest
      refine ⟨hascends, fun x => (hmem x).trans ?_⟩
      rw [mem_sortedInsert h, List.map_cons, List.mem_cons, List.mem_cons]
      constructor
      · rintro (hx | ⟨rfl | ⟨hx, hne⟩, hout⟩)
        · exact .inl (.inr hx)
        · exact .inl (.inl rfl)
        · exact .inr ⟨hx, not_or.mpr ⟨hne, hout⟩⟩
      · rintro ((rfl | hx) | ⟨hx, hout⟩)
        · exact .inr ⟨.inl rfl, hy⟩
        · exact .inl hx
        · rw [not_or] at hout
          exact .inr ⟨.inr ⟨hx, hout.1⟩, hout.2⟩

end Naatre.Lib
