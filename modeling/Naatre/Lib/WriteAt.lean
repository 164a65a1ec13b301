import Mathlib.Data.List.Induction

/-!
Writes at an offset, as POSIX has them: a write replaces the bytes it covers,
keeps the others and fills a gap behind the old end with zeros; a write of no
bytes has no effect.

A file is the list of its bytes, a write a pair of an offset and the bytes.
`getElem?_pwrites` reads a byte of the file after any number of writes.
-/

namespace Naatre.Lib

variable {α : Type*} (zero : α)

/-- One write. -/
def pwrite (l : List α) (w : ℕ × List α) : List α :=
  if w.2.isEmpty then l
  else
    l.take w.1 ++ List.replicate (w.1 - l.length) zero ++ w.2 ++ l.drop (w.1 + w.2.length)

/-- The end of the file after one write. -/
def endAfter (n : ℕ) (w : ℕ × List α) : ℕ :=
  if w.2.isEmpty then n else max n (w.1 + w.2.length)

/-- The byte a write puts at a position. -/
def byteOf (w : ℕ × List α) (i : ℕ) : Option α :=
  if w.1 ≤ i then w.2[i - w.1]? else none

/-- The byte of the last write that covers a position. -/
def lastByte (ws : List (ℕ × List α)) (i : ℕ) : Option α :=
  ws.foldl (fun last w => (byteOf w i).or last) none

/-! ### One write -/

theorem length_pwrite (l : List α) (w : ℕ × List α) :
    (pwrite zero l w).length = endAfter l.length w := by
  unfold pwrite endAfter
  split
  next => rfl
  next =>
    rw [List.length_append, List.length_append, List.length_append, List.length_take,
      List.length_replicate, List.length_drop]
    omega

/-- The bytes in front of a write. -/
theorem getElem?_pad (l : List α) {off i : ℕ} (h : i < off) :
    (l.take off ++ List.replicate (off - l.length) zero)[i]? = some ((l[i]?).getD zero) := by
  by_cases hi : i < l.length
  · have hlen : i < (l.take off).length := by
      rw [List.length_take]
      omega
    rw [List.getElem?_append_left hlen, List.getElem?_take, if_pos h, List.getElem?_eq_getElem hi,
      Option.getD_some]
  · have hge : (l.take off).length ≤ i := by
      rw [List.length_take]
      omega
    have hrest : i - (l.take off).length < off - l.length := by
      rw [List.length_take]
      omega
    rw [List.getElem?_append_right hge, List.getElem?_replicate, if_pos hrest,
      List.getElem?_eq_none (by omega), Option.getD_none]

theorem length_pad (l : List α) (off : ℕ) :
    (l.take off ++ List.replicate (off - l.length) zero).length = off := by
  rw [List.length_append, List.length_take, List.length_replicate]
  omega

/-- A byte of the file after one write. -/
theorem getElem?_pwrite (l : List α) (w : ℕ × List α) (i : ℕ) :
    (pwrite zero l w)[i]? =
      if i < endAfter l.length w then some ((byteOf w i).getD ((l[i]?).getD zero)) else none := by
  split
  next hend =>
    by_cases hempty : w.2.isEmpty
    · have hnil : w.2 = [] := List.isEmpty_iff.mp hempty
      rw [endAfter, if_pos hempty] at hend
      have hbyte : byteOf w i = none := by
        rw [byteOf, hnil]
        split <;> simp
      rw [pwrite, if_pos hempty, hbyte, Option.getD_none, List.getElem?_eq_getElem hend,
        Option.getD_some]
    · rw [endAfter, if_neg hempty] at hend
      rw [pwrite, if_neg hempty]
      rcases Nat.lt_or_ge i w.1 with hfront | hfront
      · have hbyte : byteOf w i = none := if_neg (by omega)
        rw [List.append_assoc _ w.2,
          List.getElem?_append_left (by rw [length_pad]; exact hfront), getElem?_pad zero l hfront,
          hbyte, Option.getD_none]
      · rw [List.append_assoc _ w.2,
          List.getElem?_append_right (by rw [length_pad]; exact hfront), length_pad]
        rcases Nat.lt_or_ge i (w.1 + w.2.length) with hin | hout
        · have hlt : i - w.1 < w.2.length := by omega
          rw [List.getElem?_append_left hlt, byteOf, if_pos hfront,
            List.getElem?_eq_getElem hlt, Option.getD_some]
        · have hge : w.2.length ≤ i - w.1 := by omega
          have hpos : w.1 + w.2.length + (i - w.1 - w.2.length) = i := by omega
          have hlt : i < l.length := by omega
          rw [List.getElem?_append_right hge, List.getElem?_drop, hpos, byteOf, if_pos hfront,
            List.getElem?_eq_none hge, Option.getD_none, List.getElem?_eq_getElem hlt,
            Option.getD_some]
  next hend =>
    apply List.getElem?_eq_none
    rw [length_pwrite]
    omega

/-! ### Any number of writes -/

theorem length_pwrites (l : List α) (ws : List (ℕ × List α)) :
    (ws.foldl (pwrite zero) l).length = ws.foldl endAfter l.length := by
  induction ws generalizing l with
  | nil => rfl
  | cons w ws ih => rw [List.foldl_cons, List.foldl_cons, ih, length_pwrite]

theorem le_endAfter (n : ℕ) (w : ℕ × List α) : n ≤ endAfter n w := by
  unfold endAfter
  split <;> omega

theorem lastByte_append (ws : List (ℕ × List α)) (w : ℕ × List α) (i : ℕ) :
    lastByte (ws ++ [w]) i = (byteOf w i).or (lastByte ws i) := by
  rw [lastByte, List.foldl_append]
  rfl

theorem byteOf_of_endAfter_le {n i : ℕ} {w : ℕ × List α} (h : endAfter n w ≤ i) :
    byteOf w i = none := by
  have hend : w.2.length ≤ i - w.1 ∨ ¬ w.1 ≤ i := by
    unfold endAfter at h
    split at h
    next hempty =>
      left
      rw [List.isEmpty_iff.mp hempty]
      exact Nat.zero_le _
    next => omega
  unfold byteOf
  split
  next hle => exact List.getElem?_eq_none (hend.resolve_right fun h => h hle)
  next => rfl

/-- No write covers a position behind the end. -/
theorem lastByte_of_end_le {n i : ℕ} {ws : List (ℕ × List α)} (h : ws.foldl endAfter n ≤ i) :
    lastByte ws i = none ∧ n ≤ i := by
  induction ws using List.reverseRecOn with
  | nil => exact ⟨rfl, h⟩
  | append_singleton ws w ih =>
      rw [List.foldl_append, List.foldl_cons, List.foldl_nil] at h
      obtain ⟨hlast, hn⟩ := ih (Nat.le_trans (le_endAfter _ w) h)
      refine ⟨?_, hn⟩
      rw [lastByte_append, byteOf_of_endAfter_le h, hlast]
      rfl

/-- A byte after all the writes is that of the last one to cover it, else the
old one, and zero behind the old end. -/
theorem getElem?_pwrites (l : List α) (ws : List (ℕ × List α)) (i : ℕ) :
    (ws.foldl (pwrite zero) l)[i]? =
      if i < ws.foldl endAfter l.length then
        some ((lastByte ws i).getD ((l[i]?).getD zero))
      else none := by
  induction ws using List.reverseRecOn with
  | nil =>
      show l[i]? = if i < l.length then some ((l[i]?).getD zero) else none
      by_cases h : i < l.length
      · rw [if_pos h, List.getElem?_eq_getElem h, Option.getD_some]
      · rw [if_neg h, List.getElem?_eq_none (Nat.le_of_not_lt h)]
  | append_singleton ws w ih =>
      rw [List.foldl_append, List.foldl_append, List.foldl_cons, List.foldl_nil, List.foldl_cons,
        List.foldl_nil, getElem?_pwrite, length_pwrites, lastByte_append, ih]
      by_cases hi : i < ws.foldl endAfter l.length
      · rw [if_pos hi]
        cases byteOf w i <;> rfl
      · -- a position behind the writes before is covered by none of them
        obtain ⟨hnone, hle⟩ := lastByte_of_end_le (Nat.le_of_not_lt hi)
        rw [if_neg hi, hnone, List.getElem?_eq_none hle, Option.or_none]

end Naatre.Lib
