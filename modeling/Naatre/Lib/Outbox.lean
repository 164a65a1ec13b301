import Mathlib.Data.List.Perm.Basic

/-!
A log whose entries are filed with the work they record, or posted with it and
filed later, one at a time.

What is filed or on its way is, up to order, what was posted. A stop loses what
is on its way.
-/

namespace Naatre.Lib

/-- The entries that stand, and those that are on their way. -/
structure Outbox (α : Type*) where
  filed : List α
  pending : List α

namespace Outbox

variable {α κ : Type*}

/-- Files `now` and leaves `later` on its way. -/
def post (o : Outbox α) (now later : List α) : Outbox α :=
  ⟨o.filed ++ now, o.pending ++ later⟩

/-- The `i`-th entry on its way is filed. -/
def deliver (o : Outbox α) (i : ℕ) : Option (Outbox α) :=
  (o.pending[i]?).map fun a => ⟨o.filed ++ [a], o.pending.eraseIdx i⟩

/-- What is on its way is lost. -/
def lose (o : Outbox α) : Outbox α := { o with pending := [] }

/-- Rewrites what is filed. -/
def rewrite (o : Outbox α) (f : α → α) : Outbox α := { o with filed := o.filed.map f }

/-- Everything that was posted and not lost. -/
def all (o : Outbox α) : List α := o.filed ++ o.pending

theorem all_of_pending_nil {o : Outbox α} (h : o.pending = []) : o.all = o.filed := by
  rw [all, h, List.append_nil]

theorem post_all (o : Outbox α) (now later : List α) :
    (o.post now later).all.Perm (o.all ++ (now ++ later)) := by
  simp only [all, post, List.append_assoc]
  refine List.Perm.append_left _ ?_
  rw [← List.append_assoc, ← List.append_assoc]
  exact List.Perm.append_right _ List.perm_append_comm

theorem deliver_all {o o' : Outbox α} {i : ℕ} (h : o.deliver i = some o') :
    o'.all.Perm o.all := by
  rw [deliver, Option.map_eq_some_iff] at h
  obtain ⟨a, ha, rfl⟩ := h
  obtain ⟨hi, rfl⟩ := List.getElem?_eq_some_iff.mp ha
  simp only [all, List.append_assoc]
  refine List.Perm.append_left _ ?_
  rw [List.singleton_append]
  exact List.getElem_cons_eraseIdx_perm hi

theorem lose_all {o : Outbox α} (h : o.pending = []) : o.lose.all = o.all := by
  rw [all, all, lose, h]

/-- What a rewriting keeps of an entry it keeps of the log. -/
theorem rewrite_all {key : α → Option κ} {f : α → α} (hkey : ∀ a, key (f a) = key a)
    (o : Outbox α) : (o.rewrite f).all.filterMap key = o.all.filterMap key := by
  have hcomp : key ∘ f = key := funext hkey
  rw [all, all, rewrite, List.filterMap_append, List.filterMap_append, List.filterMap_map, hcomp]

end Outbox

end Naatre.Lib
