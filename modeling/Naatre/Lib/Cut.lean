import Mathlib.Data.List.Pairwise
import Mathlib.Tactic.SplitIfs

/-!
A sequence cut after each end marker, the last part with or without one. The
parts that come out are exactly those that a concatenation gives back.
-/

namespace Naatre.Lib

variable {α : Type*} {marks : α → Bool}

/-- The parts of `l`, each up to and with its marker. -/
def cutAfter (marks : α → Bool) : List α → List (List α)
  | [] => []
  | a :: rest =>
      if marks a then [a] :: cutAfter marks rest
      else match cutAfter marks rest with
        | [] => [[a]]
        | part :: parts => (a :: part) :: parts

/-- The part ends in a marker. -/
def Marked (marks : α → Bool) (part : List α) : Prop := ∃ a, part.getLast? = some a ∧ marks a = true

/-- A part is not empty and has no marker before its end. -/
def IsPart (marks : α → Bool) (part : List α) : Prop :=
  part ≠ [] ∧ ∀ a ∈ part.dropLast, marks a = false

theorem cutAfter_eq_nil {l : List α} : cutAfter marks l = [] ↔ l = [] := by
  cases l with
  | nil => simp [cutAfter]
  | cons a rest =>
      rw [cutAfter]
      split_ifs
      · simp
      · split <;> simp

theorem flatten_cutAfter (l : List α) : (cutAfter marks l).flatten = l := by
  induction l with
  | nil => rfl
  | cons a rest ih =>
      rw [cutAfter]
      split_ifs
      · rw [List.flatten_cons, ih]
        rfl
      · split
        next hnil =>
          rw [cutAfter_eq_nil.mp hnil]
          rfl
        next part parts hparts =>
          rw [hparts, List.flatten_cons] at ih
          rw [List.flatten_cons, List.cons_append, ih]

theorem IsPart.cons {a : α} {part : List α} (ha : marks a = false) (h : IsPart marks part) :
    IsPart marks (a :: part) := by
  refine ⟨List.cons_ne_nil a part, fun b hb => ?_⟩
  rw [List.dropLast_cons_of_ne_nil h.1] at hb
  rcases List.mem_cons.mp hb with rfl | hb
  · exact ha
  · exact h.2 b hb

theorem marked_cons {a : α} {part : List α} (hpart : part ≠ []) :
    Marked marks (a :: part) ↔ Marked marks part := by
  rw [Marked, Marked, List.getLast?_cons_of_ne_nil hpart]

/-- Every part but the last is marked. -/
theorem cutAfter_parts (l : List α) : (∀ part ∈ cutAfter marks l, IsPart marks part) ∧
    (cutAfter marks l).Pairwise fun part _ => Marked marks part := by
  induction l with
  | nil => exact ⟨by simp [cutAfter], .nil⟩
  | cons a rest ih =>
      obtain ⟨hparts, hmarked⟩ := ih
      rw [cutAfter]
      split_ifs with ha
      · refine ⟨fun part hpart => ?_, List.pairwise_cons.mpr ⟨fun _ _ => ⟨a, rfl, ha⟩, hmarked⟩⟩
        rcases List.mem_cons.mp hpart with rfl | hpart
        · exact ⟨List.cons_ne_nil _ _, by simp⟩
        · exact hparts part hpart
      · rw [Bool.not_eq_true] at ha
        split
        next => exact ⟨by simp [IsPart], List.pairwise_singleton _ _⟩
        next part parts heq =>
          rw [heq] at hparts hmarked
          have hfirst := hparts part List.mem_cons_self
          obtain ⟨hhead, htail⟩ := List.pairwise_cons.mp hmarked
          refine ⟨fun p hp => ?_, List.pairwise_cons.mpr ⟨fun q hq => ?_, htail⟩⟩
          · rcases List.mem_cons.mp hp with rfl | hp
            · exact hfirst.cons ha
            · exact hparts p (List.mem_cons_of_mem _ hp)
          · exact (marked_cons hfirst.1).mpr (hhead q hq)

theorem cutAfter_part {part : List α} (hpart : IsPart marks part) :
    cutAfter marks part = [part] := by
  induction part with
  | nil => exact absurd rfl hpart.1
  | cons a part ih =>
      rw [cutAfter]
      by_cases hne : part = []
      · subst hne
        split_ifs <;> rfl
      · rw [IsPart, List.dropLast_cons_of_ne_nil hne] at hpart
        rw [if_neg (by simp [hpart.2 a List.mem_cons_self]),
          ih ⟨hne, fun b hb => hpart.2 b (List.mem_cons_of_mem _ hb)⟩]

theorem cutAfter_append {part : List α} (rest : List α) (hpart : IsPart marks part)
    (hmark : Marked marks part) : cutAfter marks (part ++ rest) = part :: cutAfter marks rest := by
  induction part with
  | nil => exact absurd rfl hpart.1
  | cons a part ih =>
      rw [List.cons_append, cutAfter]
      by_cases hne : part = []
      · subst hne
        obtain ⟨b, hb, hmark⟩ := hmark
        have hab : a = b := Option.some.inj hb
        rw [if_pos (hab ▸ hmark), List.nil_append]
      · rw [IsPart, List.dropLast_cons_of_ne_nil hne] at hpart
        rw [if_neg (by simp [hpart.2 a List.mem_cons_self]),
          ih ⟨hne, fun b hb => hpart.2 b (List.mem_cons_of_mem _ hb)⟩ ((marked_cons hne).mp hmark)]

/-- Parts that fit together are found again. -/
theorem cutAfter_flatten {parts : List (List α)} (hparts : ∀ part ∈ parts, IsPart marks part)
    (hmarked : parts.Pairwise fun part _ => Marked marks part) :
    cutAfter marks parts.flatten = parts := by
  induction parts with
  | nil => rfl
  | cons part parts ih =>
      obtain ⟨hhead, htail⟩ := List.pairwise_cons.mp hmarked
      have hpart := hparts part List.mem_cons_self
      have hrest := ih (fun p hp => hparts p (List.mem_cons_of_mem _ hp)) htail
      rw [List.flatten_cons]
      cases parts with
      | nil => rw [List.flatten_nil, List.append_nil, cutAfter_part hpart]
      | cons next parts =>
          rw [cutAfter_append _ hpart (hhead next List.mem_cons_self), hrest]

/-- The parts of a concatenation are its own exactly when they fit together. -/
theorem cutAfter_flatten_iff {parts : List (List α)} (hparts : ∀ part ∈ parts, IsPart marks part) :
    cutAfter marks parts.flatten = parts ↔ parts.Pairwise fun part _ => Marked marks part := by
  constructor
  · intro h
    rw [← h]
    exact (cutAfter_parts _).2
  · exact cutAfter_flatten hparts

end Naatre.Lib
