import Mathlib.Data.List.Basic

/-!
Numbers given to keys on first sight. A key keeps its number and no two keys
have one, whatever is numbered later; 0 is nobody's.
-/

namespace Naatre.Lib

variable {κ : Type*} [DecidableEq κ]

structure Interner (κ : Type*) [DecidableEq κ] where
  ids : List (κ × ℕ)
  keys : List (ℕ × κ)
  next : ℕ
  sound : ∀ k i, ids.lookup k = some i ↔ keys.lookup i = some k
  below : ∀ i k, keys.lookup i = some k → 0 < i ∧ i < next
  pos : 0 < next

namespace Interner

def idOf (t : Interner κ) (k : κ) : Option ℕ := t.ids.lookup k

def keyOf (t : Interner κ) (i : ℕ) : Option κ := t.keys.lookup i

/-- The table of one key, numbered 1. -/
def single (k : κ) : Interner κ where
  ids := [(k, 1)]
  keys := [(1, k)]
  next := 2
  sound k' i := by
    rw [List.lookup_cons, List.lookup_cons]
    by_cases hk : k' = k
    · by_cases hi : i = 1
      · simp [hk, hi]
      · simp [hk, beq_false_of_ne hi, Ne.symm hi]
    · by_cases hi : i = 1
      · simp [hi, beq_false_of_ne hk, Ne.symm hk]
      · simp [beq_false_of_ne hk, beq_false_of_ne hi]
  below i k' h := by
    rw [List.lookup_cons] at h
    split at h
    next heq =>
      rw [eq_of_beq heq]
      omega
    next => cases h
  pos := Nat.two_pos

/-- The number of a key, a new one when it has none. -/
def intern (t : Interner κ) (k : κ) : ℕ × Interner κ :=
  match hk : t.ids.lookup k with
  | some i => (i, t)
  | none =>
      (t.next,
        { ids := (k, t.next) :: t.ids
          keys := (t.next, k) :: t.keys
          next := t.next + 1
          sound := by
            have hfree : ∀ k', t.keys.lookup t.next ≠ some k' := fun k' h =>
              absurd (t.below t.next k' h).2 (Nat.lt_irrefl _)
            intro k' i
            rw [List.lookup_cons, List.lookup_cons]
            by_cases heq : k' = k
            · by_cases hi : i = t.next
              · simp [heq, hi]
              · have hno : t.keys.lookup i ≠ some k := by
                  rw [Ne, ← t.sound, hk]
                  exact Option.some_ne_none i |>.symm
                simp [heq, beq_false_of_ne hi, hno, Ne.symm hi]
            · by_cases hi : i = t.next
              · have hno : t.ids.lookup k' ≠ some t.next := by
                  rw [Ne, t.sound]
                  exact hfree k'
                simp [hi, beq_false_of_ne heq, hno, Ne.symm heq]
              · simp [beq_false_of_ne heq, beq_false_of_ne hi, t.sound]
          below := by
            intro i k' h
            rw [List.lookup_cons] at h
            split at h
            next heq =>
              rw [eq_of_beq heq]
              exact ⟨t.pos, Nat.lt_succ_self _⟩
            next =>
              have hbelow := t.below i k' h
              omega
          pos := Nat.succ_pos _ })

/-- Every key keeps its number. -/
def Extends (t t' : Interner κ) : Prop := ∀ k i, t.idOf k = some i → t'.idOf k = some i

theorem Extends.refl (t : Interner κ) : Extends t t := fun _ _ h => h

theorem Extends.trans {t t' t'' : Interner κ} (h : Extends t t') (h' : Extends t' t'') :
    Extends t t'' :=
  fun k i hk => h' k i (h k i hk)

/-- A numbered key has its number. -/
theorem idOf_intern (t : Interner κ) (k : κ) :
    (t.intern k).2.idOf k = some (t.intern k).1 := by
  unfold intern idOf
  split
  next i hk => exact hk
  next => rw [List.lookup_cons, beq_self_eq_true]

theorem extends_intern (t : Interner κ) (k : κ) : Extends t (t.intern k).2 := by
  intro k' i hk'
  unfold intern
  split
  next => exact hk'
  next hnone =>
    have hne : k' ≠ k := by
      rintro rfl
      rw [idOf, hnone] at hk'
      cases hk'
    rw [idOf, List.lookup_cons, beq_false_of_ne hne]
    exact hk'

theorem keyOf_of_idOf {t : Interner κ} {k : κ} {i : ℕ} (h : t.idOf k = some i) :
    t.keyOf i = some k := (t.sound k i).mp h

theorem idOf_pos {t : Interner κ} {k : κ} {i : ℕ} (h : t.idOf k = some i) : 0 < i :=
  (t.below i k (keyOf_of_idOf h)).1

/-- No two keys have one number. -/
theorem key_eq {t : Interner κ} {k k' : κ} {i : ℕ} (h : t.idOf k = some i)
    (h' : t.idOf k' = some i) : k = k' := by
  have hk := keyOf_of_idOf h
  rw [keyOf_of_idOf h'] at hk
  exact (Option.some.inj hk).symm

end Interner

end Naatre.Lib
