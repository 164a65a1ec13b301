import Mathlib.Algebra.Ring.Nat
import Mathlib.Data.List.Basic
import Mathlib.Logic.Function.Basic

/-!
Prefix-free codes: renderings as lists of numbers that can be split off the
front of any longer list. They compose over pairs and lists, and each is
injective. A list of numbers packs into one number.
-/

namespace Naatre.Lib

/-- A rendering that can be split off the front of any longer list. -/
structure PrefixCode (α : Type*) where
  encode : α → List ℕ
  split : ∀ a b r s, encode a ++ r = encode b ++ s → a = b ∧ r = s

namespace PrefixCode

variable {α β : Type*}

theorem injective (c : PrefixCode α) : Function.Injective c.encode := fun a b h =>
  (c.split a b [] [] (by rw [h])).1

/-- A number is its own rendering. -/
def nat : PrefixCode ℕ where
  encode := fun n => [n]
  split := fun a b r s h => by simpa using h

/-- Through an injection. -/
def comap (c : PrefixCode β) (f : α → β) (hf : Function.Injective f) : PrefixCode α where
  encode := fun a => c.encode (f a)
  split := fun a b r s h => by
    obtain ⟨hab, hrs⟩ := c.split _ _ r s h
    exact ⟨hf hab, hrs⟩

def pair (c : PrefixCode α) (d : PrefixCode β) : PrefixCode (α × β) where
  encode := fun p => c.encode p.1 ++ d.encode p.2
  split := fun p q r s h => by
    simp only [List.append_assoc] at h
    obtain ⟨h₁, h⟩ := c.split _ _ _ _ h
    obtain ⟨h₂, h⟩ := d.split _ _ _ _ h
    exact ⟨Prod.ext h₁ h₂, h⟩

/-- A list: one in front of every element, zero behind the last. -/
def encodeList (c : PrefixCode α) : List α → List ℕ
  | [] => [0]
  | a :: as => 1 :: (c.encode a ++ c.encodeList as)

theorem encodeList_split (c : PrefixCode α) (as bs : List α) (r s : List ℕ)
    (h : c.encodeList as ++ r = c.encodeList bs ++ s) : as = bs ∧ r = s := by
  induction as generalizing bs with
  | nil =>
      cases bs with
      | nil => simpa [encodeList] using h
      | cons b bs => simp [encodeList] at h
  | cons a as ih =>
      cases bs with
      | nil => simp [encodeList] at h
      | cons b bs =>
          simp only [encodeList, List.cons_append, List.cons.injEq, true_and,
            List.append_assoc] at h
          obtain ⟨rfl, hrest⟩ := c.split _ _ _ _ h
          obtain ⟨rfl, htail⟩ := ih bs hrest
          exact ⟨rfl, htail⟩

def list (c : PrefixCode α) : PrefixCode (List α) := ⟨c.encodeList, c.encodeList_split⟩

def option (c : PrefixCode α) : PrefixCode (Option α) :=
  c.list.comap Option.toList fun a b h => by cases a <;> cases b <;> simp_all

end PrefixCode

/-! ### Numbers -/

/-- A list as one number: each element behind its length in unary. -/
def pack : List ℕ → ℕ
  | [] => 0
  | n :: l => (2 * (pack l * 2 ^ (n.log2 + 1) + n) + 1) * 2 ^ (n.log2 + 1)

theorem pack_cons_pos (n : ℕ) (l : List ℕ) : 0 < pack (n :: l) :=
  Nat.mul_pos (Nat.succ_pos _) (Nat.two_pow_pos _)

theorem odd_mul_pow {x y s t : ℕ} (h : (2 * x + 1) * 2 ^ s = (2 * y + 1) * 2 ^ t) :
    s = t ∧ x = y := by
  induction s generalizing t with
  | zero =>
      cases t with
      | zero => exact ⟨rfl, by omega⟩
      | succ t =>
          rw [Nat.pow_succ, ← Nat.mul_assoc] at h
          generalize (2 * y + 1) * 2 ^ t = z at h
          omega
  | succ s ih =>
      cases t with
      | zero =>
          rw [Nat.pow_succ, ← Nat.mul_assoc] at h
          generalize (2 * x + 1) * 2 ^ s = z at h
          omega
      | succ t =>
          rw [Nat.pow_succ, Nat.pow_succ, ← Nat.mul_assoc, ← Nat.mul_assoc] at h
          obtain ⟨rfl, hxy⟩ := ih (Nat.eq_of_mul_eq_mul_right Nat.two_pos h)
          exact ⟨rfl, hxy⟩

theorem pack_injective : Function.Injective pack := by
  intro l
  induction l with
  | nil =>
      intro m h
      cases m with
      | nil => rfl
      | cons n m => exact absurd h (Nat.ne_of_lt (pack_cons_pos n m))
  | cons a l ih =>
      intro m h
      cases m with
      | nil => exact absurd h.symm (Nat.ne_of_lt (pack_cons_pos a l))
      | cons b m =>
          simp only [pack] at h
          obtain ⟨hlen, h⟩ := odd_mul_pow h
          rw [hlen] at h
          have ha : a < 2 ^ (b.log2 + 1) := hlen ▸ Nat.lt_log2_self
          have hb : b < 2 ^ (b.log2 + 1) := Nat.lt_log2_self
          have hmod := congrArg (· % 2 ^ (b.log2 + 1)) h
          simp only [Nat.mul_add_mod_self_right, Nat.mod_eq_of_lt ha, Nat.mod_eq_of_lt hb] at hmod
          subst hmod
          have hrest := Nat.eq_of_mul_eq_mul_right (Nat.two_pow_pos _) (Nat.add_right_cancel h)
          rw [ih hrest]

end Naatre.Lib
