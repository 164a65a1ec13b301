import Naatre.Lib.Acyclic
import Mathlib.Data.List.Perm.Subperm
import Mathlib.Tactic.Ring

/-!
Ancestors along a partial function, `up`, and what lies strictly between an
element and one of them. A climb of `2 * d + 1` steps is one step, a climb of
`d` to the middle and a climb of `d` from there.
-/

namespace Naatre.Lib

variable {α : Type*} {up up' : α → Option α}

/-- The element `n` steps above. -/
def ancestor (up : α → Option α) : ℕ → α → Option α
  | 0, a => some a
  | n + 1, a => (up a).bind (ancestor up n)

theorem ancestor_one (up : α → Option α) (a : α) : ancestor up 1 a = up a := by
  show (up a).bind some = up a
  rw [Option.bind_fun_some]

theorem ancestor_add (up : α → Option α) (m n : ℕ) (a : α) :
    ancestor up (m + n) a = (ancestor up m a).bind (ancestor up n) := by
  induction m generalizing a with
  | zero => rw [Nat.zero_add, ancestor, Option.bind_some]
  | succ m ih =>
      rw [Nat.succ_add, ancestor, ancestor, Option.bind_assoc]
      congr 1
      funext b
      exact ih b

/-- Below an ancestor there is one for each smaller number of steps. -/
theorem ancestor_le {m n : ℕ} {a b : α} (h : ancestor up n a = some b) (hle : m ≤ n) :
    ∃ x, ancestor up m a = some x ∧ ancestor up (n - m) x = some b := by
  rw [← Nat.add_sub_cancel' hle, ancestor_add] at h
  exact Option.bind_eq_some_iff.mp h

theorem ancestor_mono (hup : ∀ x y, up x = some y → up' x = some y) {n : ℕ} {a b : α}
    (h : ancestor up n a = some b) : ancestor up' n a = some b := by
  induction n generalizing a with
  | zero => exact h
  | succ n ih =>
      obtain ⟨x, hx, hrest⟩ := Option.bind_eq_some_iff.mp h
      exact Option.bind_eq_some_iff.mpr ⟨x, hup a x hx, ih hrest⟩

/-! ### What lies between -/

/-- `P` holds of what lies strictly between `a` and the element `n` steps
above. -/
def Between (up : α → Option α) (P : α → Prop) (n : ℕ) (a : α) : Prop :=
  ∀ i x, 0 < i → i < n → ancestor up i a = some x → P x

theorem between_one (up : α → Option α) (P : α → Prop) (a : α) : Between up P 1 a :=
  fun i _ hpos hlt => by omega

/-- Between an element and a far ancestor: its first ancestor, the middle one
and what lies between these two and between the middle and the far one. -/
theorem between_double {P : α → Prop} {d : ℕ} {a p mid : α} (hd : 0 < d) (hp : up a = some p)
    (hmid : ancestor up d p = some mid) :
    Between up P (2 * d + 1) a ↔ P p ∧ P mid ∧ Between up P d p ∧ Between up P d mid := by
  have hfirst : ∀ i, ancestor up (1 + i) a = ancestor up i p := by
    intro i
    rw [ancestor_add, ancestor_one, hp, Option.bind_some]
  have hsecond : ∀ i, ancestor up (1 + (d + i)) a = ancestor up i mid := by
    intro i
    rw [hfirst, ancestor_add, hmid, Option.bind_some]
  constructor
  · intro h
    refine ⟨?_, ?_, fun i x hpos hlt hx => ?_, fun i x hpos hlt hx => ?_⟩
    · exact h 1 p (by omega) (by omega) ((hfirst 0).trans rfl)
    · exact h (1 + (d + 0)) mid (by omega) (by omega) ((hsecond 0).trans rfl)
    · exact h (1 + i) x (by omega) (by omega) ((hfirst i).trans hx)
    · exact h (1 + (d + i)) x (by omega) (by omega) ((hsecond i).trans hx)
  · rintro ⟨hPp, hPmid, hlow, hhigh⟩ i x hpos hlt hx
    obtain rfl | ⟨j, hj, hjd, rfl⟩ | rfl | ⟨j, hj, hjd, rfl⟩ : i = 1 ∨
        (∃ j, 0 < j ∧ j < d ∧ i = 1 + j) ∨ i = 1 + (d + 0) ∨
        ∃ j, 0 < j ∧ j < d ∧ i = 1 + (d + j) := by
      rcases Nat.lt_trichotomy i (1 + d) with hlow | heq | hhigh
      · rcases Nat.lt_or_ge 1 i with h1 | h1
        · exact .inr (.inl ⟨i - 1, by omega, by omega, by omega⟩)
        · exact .inl (by omega)
      · exact .inr (.inr (.inl heq))
      · exact .inr (.inr (.inr ⟨i - (1 + d), by omega, by omega, by omega⟩))
    · rw [ancestor_one, hp] at hx
      exact Option.some.inj hx ▸ hPp
    · exact hlow j x hj hjd ((hfirst j).symm.trans hx)
    · have hx' : some mid = some x := (hsecond 0).symm.trans hx
      exact Option.some.inj hx' ▸ hPmid
    · exact hhigh j x hj hjd ((hsecond j).symm.trans hx)

/-! ### Acyclic climbs -/

theorem ancestor_path {n : ℕ} {a b : α} (h : ancestor up (n + 1) a = some b) :
    Relation.TransGen (fun x y => up x = some y) a b := by
  induction n generalizing a with
  | zero =>
      rw [Nat.zero_add, ancestor_one] at h
      exact .single h
  | succ n ih =>
      obtain ⟨x, hx, hrest⟩ := Option.bind_eq_some_iff.mp h
      exact .head hx (ih hrest)

/-- An acyclic climb has no more steps than there are elements to leave. -/
theorem ancestor_le_length (hacyclic : Acyclic fun x y => up x = some y) {l : List α}
    (hl : ∀ x y, up x = some y → x ∈ l) {n : ℕ} {a b : α} (h : ancestor up n a = some b) :
    n ≤ l.length := by
  let path := (List.range n).map fun i => (ancestor up i a).getD a
  have hstep : ∀ i < n, ∃ x, ancestor up i a = some x ∧ (ancestor up i a).getD a = x := by
    intro i hi
    obtain ⟨x, hx, -⟩ := ancestor_le h (Nat.le_of_lt hi)
    exact ⟨x, hx, by rw [hx, Option.getD_some]⟩
  have hlt : ∀ i j, i < j → j < n →
      (ancestor up i a).getD a ≠ (ancestor up j a).getD a := by
    intro i j hij hj heq
    obtain ⟨x, hx, hgetx⟩ := hstep i (by omega)
    obtain ⟨y, hy, hgety⟩ := hstep j hj
    have hsame : x = y := by rw [← hgetx, ← hgety, heq]
    obtain ⟨z, hz, hrest⟩ := ancestor_le hy (Nat.le_of_lt hij)
    obtain rfl : x = z := Option.some.inj (hx.symm.trans hz)
    obtain ⟨m, hm⟩ : ∃ m, j - i = m + 1 := ⟨j - i - 1, by omega⟩
    rw [hm, ← hsame] at hrest
    exact hacyclic x (ancestor_path hrest)
  have hnodup : path.Nodup := by
    refine List.nodup_range.map_on fun i hi j hj heq => ?_
    rw [List.mem_range] at hi hj
    rcases Nat.lt_trichotomy i j with h1 | h1 | h1
    · exact absurd heq (hlt i j h1 hj)
    · exact h1
    · exact absurd heq.symm (hlt j i h1 hi)
  have hsub : path ⊆ l := by
    intro x hx
    obtain ⟨i, hi, rfl⟩ := List.mem_map.mp hx
    rw [List.mem_range] at hi
    obtain ⟨y, hy, hrest⟩ := ancestor_le h (Nat.le_of_lt hi)
    obtain ⟨m, hm⟩ : ∃ m, n - i = m + 1 := ⟨n - i - 1, by omega⟩
    rw [hm] at hrest
    obtain ⟨z, hz, -⟩ := Option.bind_eq_some_iff.mp hrest
    rw [hy, Option.getD_some]
    exact hl y z hz
  have hlen := (hnodup.subperm hsub).length_le
  rwa [List.length_map, List.length_range] at hlen

end Naatre.Lib
