import Mathlib.Algebra.Order.Sub.Basic
import Mathlib.Data.List.Basic

/-!
Sliding windows over the times of what was admitted. Whoever admits only while
fewer than so many admissions are younger than the width of a window never has
more of them in any window of that width.
-/

namespace Naatre.Lib

variable {width cap : ℕ}

/-- The time lies less than `width` back. -/
def fresh (width now time : ℕ) : Bool := decide (now - time < width)

/-- The window of `width` from `start` on. -/
def inWindow (width start time : ℕ) : Bool := decide (start ≤ time ∧ time < start + width)

/-- No window holds more than `cap` of the times. -/
def Capped (width cap : ℕ) (times : List ℕ) : Prop :=
  ∀ start, (times.filter (inWindow width start)).length ≤ cap

theorem fresh_now (hwidth : 0 < width) (now : ℕ) : fresh width now now = true := by
  rw [fresh, decide_eq_true_eq, Nat.sub_self]
  exact hwidth

theorem fresh_of_later {now now' time : ℕ} (hlater : now ≤ now')
    (h : fresh width now' time = true) : fresh width now time = true := by
  rw [fresh, decide_eq_true_eq] at h ⊢
  omega

/-- What is dropped once would be dropped later. -/
theorem filter_fresh_later {now now' : ℕ} (hlater : now ≤ now') (times : List ℕ) :
    (times.filter (fresh width now)).filter (fresh width now') =
      times.filter (fresh width now') := by
  rw [List.filter_filter]
  refine List.filter_congr fun time _ => ?_
  by_cases h : fresh width now' time = true
  · rw [h, fresh_of_later hlater h, Bool.true_and]
  · rw [Bool.not_eq_true] at h
    rw [h, Bool.false_and]

theorem capped_nil : Capped width cap [] := fun _ => Nat.zero_le _

/-- One more may be admitted while fewer than `cap` are fresh. -/
theorem Capped.insert {times : List ℕ} {now : ℕ} (h : Capped width cap times)
    (hroom : (times.filter (fresh width now)).length < cap) : Capped width cap (times ++ [now]) := by
  intro start
  rw [List.filter_append, List.length_append]
  by_cases hnow : inWindow width start now = true
  · -- what the window holds is fresh by now
    have hsub : (times.filter (inWindow width start)).length ≤
        (times.filter (fresh width now)).length := by
      refine (List.monotone_filter_right _ fun time htime => ?_).length_le
      simp only [inWindow, fresh, decide_eq_true_eq] at hnow htime ⊢
      omega
    rw [List.filter_cons_of_pos hnow, List.filter_nil, List.length_singleton]
    omega
  · rw [List.filter_cons_of_neg hnow, List.filter_nil, List.length_nil, Nat.add_zero]
    exact h start

end Naatre.Lib
