import Mathlib.Data.List.Sort

/-!
Pages of the oldest elements of a list. The page over several lists may take
each list's own page first. A worker that takes pages and stops at the first one
it cannot clear gets to an element exactly when every page before is cleared.
-/

namespace Naatre.Lib

variable {α : Type*} (r : α → α → Prop) [DecidableRel r]

/-- An element that nothing goes behind stays last. -/
theorem insertionSort_append_last {l : List α} {o : α} (h : ∀ a ∈ l, r a o) :
    (l ++ [o]).insertionSort r = l.insertionSort r ++ [o] := by
  have hinsert : ∀ {s : List α} {a : α}, r a o →
      (s ++ [o]).orderedInsert r a = s.orderedInsert r a ++ [o] := by
    intro s a ha
    induction s with
    | nil => simp [ha]
    | cons b s ih =>
        rw [List.cons_append, List.orderedInsert_cons, List.orderedInsert_cons]
        split_ifs
        · rfl
        · rw [ih, List.cons_append]
  induction l with
  | nil => rfl
  | cons a l ih =>
      rw [List.cons_append, List.insertionSort_cons, List.insertionSort_cons,
        ih fun b hb => h b (List.mem_cons_of_mem _ hb), hinsert (h a List.mem_cons_self)]

section

variable [Std.Total r] [IsTrans α r] [Std.Antisymm r]

theorem insertionSort_congr {l l' : List α} (h : l.Perm l') :
    l.insertionSort r = l'.insertionSort r := by
  refine List.Perm.eq_of_pairwise' (r := r) (List.pairwise_insertionSort r l)
    (List.pairwise_insertionSort r l') ?_
  exact ((List.perm_insertionSort r l).trans h).trans (List.perm_insertionSort r l').symm

theorem filter_insertionSort (p : α → Bool) (l : List α) :
    (l.insertionSort r).filter p = (l.filter p).insertionSort r := by
  refine List.Perm.eq_of_pairwise' (r := r) ((List.pairwise_insertionSort r l).filter p)
    (List.pairwise_insertionSort r _) ?_
  exact ((List.perm_insertionSort r l).filter p).trans (List.perm_insertionSort r _).symm

omit [Std.Total r] [Std.Antisymm r] in
/-- The first elements of a sorted list come before whatever so many of its
elements come before. -/
theorem rel_of_mem_take {l t : List α} {d : α} {n : ℕ} (hsorted : l.Pairwise r)
    (hsub : t.Subperm l) (hn : n ≤ t.length) (ht : ∀ x ∈ t, r x d) {x : α}
    (hx : x ∈ l.take n) : r x d := by
  obtain ⟨i, hi, rfl⟩ := List.mem_take_iff_getElem.mp hx
  by_contra hnot
  -- from the element on nothing comes before `d`
  have hnone : (l.drop i).countP (fun y => decide (r y d)) = 0 := by
    refine List.countP_eq_zero.mpr fun y hy hyd => hnot ?_
    obtain ⟨j, hj, rfl⟩ := List.mem_drop_iff_getElem.mp hy
    have hyd : r l[i + j] d := of_decide_eq_true hyd
    rcases Nat.eq_zero_or_pos j with rfl | hpos
    · exact hyd
    · have hij : r l[i] l[i + j] :=
        List.pairwise_iff_getElem.mp hsorted i (i + j) (by omega) (by omega) (by omega)
      exact IsTrans.trans _ _ _ hij hyd
  have hall : t.countP (fun y => decide (r y d)) = t.length :=
    List.countP_eq_length.mpr fun y hy => decide_eq_true (ht y hy)
  have hle := hsub.countP_le (fun y => decide (r y d))
  rw [← List.take_append_drop i l, List.countP_append, hnone] at hle
  have htake := List.countP_le_length (p := fun y => decide (r y d)) (l := l.take i)
  rw [List.length_take] at htake
  omega

/-- The page over two lists takes the page of the first. -/
theorem take_insertionSort_append (n : ℕ) (a b : List α) :
    (((a.insertionSort r).take n ++ b).insertionSort r).take n =
      ((a ++ b).insertionSort r).take n := by
  by_cases hshort : (a.insertionSort r).length ≤ n
  · rw [List.take_of_length_le hshort]
    exact congrArg (List.take n)
      (insertionSort_congr r ((List.perm_insertionSort r a).append_right b))
  · let page := (a.insertionSort r).take n
    let rest := (a.insertionSort r).drop n
    let merged := (page ++ b).insertionSort r
    have hlen : page.length = n := by
      rw [List.length_take]
      omega
    have hpageRest : ∀ x ∈ page, ∀ d ∈ rest, r x d := by
      have hsorted := List.pairwise_insertionSort r a
      rw [← List.take_append_drop n (a.insertionSort r)] at hsorted
      exact (List.pairwise_append.mp hsorted).2.2
    have hsub : page.Subperm merged :=
      (List.sublist_append_left page b).subperm.trans
        (List.perm_insertionSort r (page ++ b)).symm.subperm
    have hsorted : (merged.take n ++ (merged.drop n ++ rest).insertionSort r).Pairwise r := by
      have hmerged := List.pairwise_insertionSort r (page ++ b)
      have hsplit := hmerged
      rw [← List.take_append_drop n ((page ++ b).insertionSort r)] at hsplit
      have hparts := List.pairwise_append.mp hsplit
      refine List.pairwise_append.mpr ⟨hparts.1, List.pairwise_insertionSort r _, ?_⟩
      intro x hx d hd
      rw [List.mem_insertionSort, List.mem_append] at hd
      rcases hd with hd | hd
      · exact hparts.2.2 x hx d hd
      · exact rel_of_mem_take r hmerged hsub hlen.ge (fun y hy => hpageRest y hy d hd) hx
    have hperm : (merged.take n ++ (merged.drop n ++ rest).insertionSort r).Perm (a ++ b) := by
      have hinner : (merged.take n ++ (merged.drop n ++ rest).insertionSort r).Perm
          (merged.take n ++ (merged.drop n ++ rest)) :=
        (List.perm_insertionSort r _).append_left _
      rw [← List.append_assoc, List.take_append_drop] at hinner
      have houter : (merged ++ rest).Perm (page ++ b ++ rest) :=
        (List.perm_insertionSort r (page ++ b)).append_right rest
      have hswap : (page ++ b ++ rest).Perm (page ++ rest ++ b) := by
        rw [List.append_assoc, List.append_assoc]
        exact List.perm_append_comm.append_left page
      have hjoin : (page ++ rest ++ b).Perm (a ++ b) := by
        rw [List.take_append_drop]
        exact (List.perm_insertionSort r a).append_right b
      exact ((hinner.trans houter).trans hswap).trans hjoin
    have heq : (a ++ b).insertionSort r =
        merged.take n ++ (merged.drop n ++ rest).insertionSort r :=
      List.Perm.eq_of_pairwise' (r := r) (List.pairwise_insertionSort r _) hsorted
        ((List.perm_insertionSort r _).trans hperm.symm)
    have hmerged : (merged.take n).length = n := by
      have hlong := hsub.length_le
      rw [List.length_take]
      omega
    rw [heq, List.take_left' hmerged]

/-- The page over many lists takes each list's own page. -/
theorem take_insertionSort_flatMap {β : Type*} (n : ℕ) (f : β → List α) (l : List β) :
    ((l.flatMap fun b => ((f b).insertionSort r).take n).insertionSort r).take n =
      ((l.flatMap f).insertionSort r).take n := by
  induction l with
  | nil => rfl
  | cons b l ih =>
      have hswap : ∀ x y : List α, (x ++ y).insertionSort r = (y ++ x).insertionSort r :=
        fun x y => insertionSort_congr r List.perm_append_comm
      rw [List.flatMap_cons, List.flatMap_cons, take_insertionSort_append, hswap,
        ← take_insertionSort_append, ih, take_insertionSort_append, hswap]

end

/-! ### Clearing pages -/

section

variable [DecidableEq α] {n : ℕ} {ok : α → Prop} {x : α} {l : List α}

/-- Taking pages of `n` off the list gets to `x`: every page before the one with
`x` holds `n` different elements that are all ok, and all their occurrences go
with them. -/
inductive PageReaches (n : ℕ) (ok : α → Prop) (x : α) : List α → Prop
  | here {l : List α} (hx : x ∈ l.take n) : PageReaches n ok x l
  | next {l : List α} (hlen : (l.take n).length = n) (hnodup : (l.take n).Nodup)
      (hok : ∀ y ∈ l.take n, ok y)
      (hrest : PageReaches n ok x (l.filter fun y => decide (y ∉ l.take n))) :
      PageReaches n ok x l

theorem PageReaches.not_of_stuck (hx : x ∉ l.take n)
    (hstuck : ¬ ((l.take n).length = n ∧ (l.take n).Nodup ∧ ∀ y ∈ l.take n, ok y)) :
    ¬ PageReaches n ok x l := by
  intro h
  cases h with
  | here hin => exact hx hin
  | next hlen hnodup hok _ => exact hstuck ⟨hlen, hnodup, hok⟩

theorem PageReaches.next_iff (hx : x ∉ l.take n) (hlen : (l.take n).length = n)
    (hnodup : (l.take n).Nodup) (hok : ∀ y ∈ l.take n, ok y) :
    PageReaches n ok x l ↔
      PageReaches n ok x (l.filter fun y => decide (y ∉ l.take n)) := by
  constructor
  · intro h
    cases h with
    | here hin => exact absurd hin hx
    | next _ _ _ hrest => exact hrest
  · exact .next hlen hnodup hok

end

end Naatre.Lib
