import Mathlib.Algebra.Ring.Nat
import Mathlib.Data.List.Nodup
import Mathlib.Data.List.Count

/-!
Pages of a list that grows between them. Every page is cut from the list as it
then is, and the next one resumes behind the last entry returned, or behind as
many entries as were returned.

A listing that resumes behind an entry returns what was there from its start
once. One that resumes at an index returns an entry again whenever the list
grows in front of it after it was passed.
-/

namespace Naatre.Lib

variable {α : Type*} [DecidableEq α]

/-- The list when a page of it is asked for, and how many entries the page
holds. -/
structure Round (α : Type*) where
  entries : List α
  size : ℕ

/-- Every round lists what was listed before it, in the same order. -/
inductive Growing : List α → List (Round α) → Prop
  | done {l : List α} : Growing l []
  | round {l : List α} {r : Round α} {rounds : List (Round α)} (hsub : l.Sublist r.entries)
      (hnodup : r.entries.Nodup) (hrest : Growing r.entries rounds) : Growing l (r :: rounds)

omit [DecidableEq α] in
/-- What was listed before may be less. -/
theorem Growing.of_sublist {l l' : List α} {rounds : List (Round α)} (hsub : l.Sublist l')
    (h : Growing l' rounds) : Growing l rounds := by
  cases h with
  | done => exact .done
  | round h hnodup hrest => exact .round (hsub.trans h) hnodup hrest

/-- The entries of the last round. -/
def lastEntries : List α → List (Round α) → List α
  | l, [] => l
  | _, r :: rounds => lastEntries r.entries rounds

/-! ### Resuming behind an entry -/

/-- What follows the first `y`. -/
def after (y : α) : List α → List α
  | [] => []
  | x :: xs => if x = y then xs else after y xs

/-- What remains at a cursor; at none, everything. -/
def behind : Option α → List α → List α
  | none, l => l
  | some y, l => after y l

/-- The pages up to the first that leaves nothing, and whether there is one. -/
def pagesByEntry : Option α → List (Round α) → List α × Bool
  | _, [] => ([], false)
  | cursor, r :: rounds =>
      let page := (behind cursor r.entries).take r.size
      if (behind cursor r.entries).length ≤ r.size then (page, true)
      else
        let more := pagesByEntry (page.getLast?.or cursor) rounds
        (page ++ more.1, more.2)

/-- The cursor lies in the list. -/
def Within (cursor : Option α) (l : List α) : Prop := ∀ y, cursor = some y → y ∈ l

theorem after_append {y : α} {front back : List α} (h : y ∉ front) :
    after y (front ++ y :: back) = back := by
  induction front with
  | nil => exact if_pos rfl
  | cons x front ih =>
      obtain ⟨hne, hfront⟩ := not_or.mp fun hor => h (List.mem_cons.mpr hor)
      rw [List.cons_append, after, if_neg (Ne.symm hne)]
      exact ih hfront

omit [DecidableEq α] in
theorem not_mem_front {y : α} {front back : List α} (h : (front ++ y :: back).Nodup) :
    y ∉ front := by
  intro hy
  exact List.disjoint_of_nodup_append h hy List.mem_cons_self

omit [DecidableEq α] in
/-- A list that contains another is cut at each entry of that as that is. -/
theorem sublist_split {y : α} {l front back : List α} (h : (front ++ y :: back).Sublist l) :
    ∃ front' back', l = front' ++ y :: back' ∧ front.Sublist front' ∧ back.Sublist back' := by
  obtain ⟨r₁, r₂, rfl, hfront, hrest⟩ := List.append_sublist_iff.mp h
  obtain ⟨s₁, s₂, rfl, hy, hback⟩ := List.cons_sublist_iff.mp hrest
  obtain ⟨t₁, t₂, rfl⟩ := List.append_of_mem hy
  refine ⟨r₁ ++ t₁, t₂ ++ s₂, by simp, ?_, ?_⟩
  · exact hfront.trans (List.sublist_append_left r₁ t₁)
  · exact hback.trans (List.sublist_append_right t₂ s₂)

/-- What remains at a cursor, of what was listed, does not change. -/
theorem count_behind {cursor : Option α} {l l' : List α} (hsub : l.Sublist l') (hnodup : l'.Nodup)
    (hcursor : Within cursor l) {x : α} (hx : x ∈ l) :
    (behind cursor l).count x = (behind cursor l').count x := by
  have hl : l.Nodup := hnodup.sublist hsub
  cases cursor with
  | none =>
      rw [behind, behind, List.count_eq_one_of_mem hl hx,
        List.count_eq_one_of_mem hnodup (hsub.subset hx)]
  | some y =>
      obtain ⟨front, back, rfl⟩ := List.append_of_mem (hcursor y rfl)
      obtain ⟨front', back', rfl, hfront, hback⟩ := sublist_split hsub
      rw [behind, behind, after_append (not_mem_front hl), after_append (not_mem_front hnodup)]
      obtain ⟨-, hnodup', hdisjoint⟩ := List.nodup_append.mp hnodup
      obtain ⟨hy, hback'⟩ := List.nodup_cons.mp hnodup'
      by_cases hmem : x ∈ back
      · rw [List.count_eq_one_of_mem (hback'.sublist hback) hmem,
          List.count_eq_one_of_mem hback' (hback.subset hmem)]
      · have hnot : x ∉ back' := by
          intro hx'
          rcases List.mem_append.mp hx with hx | hx
          · exact hdisjoint x (hfront.subset hx) x (List.mem_cons_of_mem y hx') rfl
          · rcases List.mem_cons.mp hx with rfl | hx
            · exact hy hx'
            · exact hmem hx
        rw [List.count_eq_zero_of_not_mem hmem, List.count_eq_zero_of_not_mem hnot]

omit [DecidableEq α] in
theorem getLast?_take_succ {l : List α} {n : ℕ} {y : α} (h : (l.take n).getLast? = some y) :
    ∃ front, l = front ++ y :: l.drop n := by
  obtain ⟨front, hfront⟩ := List.getLast?_eq_some_iff.mp h
  refine ⟨front, ?_⟩
  conv_lhs => rw [← List.take_append_drop n l, hfront, List.append_assoc]
  rfl

omit [DecidableEq α] in
theorem mem_of_behind [DecidableEq α] {cursor : Option α} {l : List α} {x : α}
    (h : x ∈ behind cursor l) : x ∈ l := by
  cases cursor with
  | none => exact h
  | some y =>
      change x ∈ after y l at h
      induction l with
      | nil => exact h
      | cons z l ih =>
          unfold after at h
          split at h
          next => exact List.mem_cons_of_mem z h
          next => exact List.mem_cons_of_mem z (ih h)

/-- Behind the last entry of a page is what the page left. -/
theorem behind_page {cursor : Option α} {l : List α} (hnodup : l.Nodup) (hcursor : Within cursor l)
    (n : ℕ) : behind (((behind cursor l).take n).getLast?.or cursor) l =
      (behind cursor l).drop n := by
  cases hlast : ((behind cursor l).take n).getLast? with
  | none =>
      rw [Option.none_or]
      rcases List.take_eq_nil_iff.mp (List.getLast?_eq_none_iff.mp hlast) with hzero | hnil
      · rw [hzero, List.drop_zero]
      · rw [hnil, List.drop_nil]
  | some y =>
      rw [Option.some_or]
      obtain ⟨front, hfront⟩ := getLast?_take_succ hlast
      obtain ⟨before, hbefore⟩ : ∃ before, l = before ++ behind cursor l := by
        cases cursor with
        | none => exact ⟨[], rfl⟩
        | some z =>
            obtain ⟨a, b, rfl⟩ := List.append_of_mem (hcursor z rfl)
            refine ⟨a ++ [z], ?_⟩
            rw [behind, after_append (not_mem_front hnodup), List.append_assoc]
            rfl
      have hl : l = (before ++ front) ++ y :: (behind cursor l).drop n := by
        rw [List.append_assoc, ← hfront]
        exact hbefore
      have hy : y ∉ before ++ front := not_mem_front (hl ▸ hnodup)
      conv_lhs => rw [hl]
      exact after_append hy

theorem within_page {cursor : Option α} {l : List α} (hcursor : Within cursor l) (n : ℕ) :
    Within (((behind cursor l).take n).getLast?.or cursor) l := by
  intro y hy
  rcases Option.or_eq_some_iff.mp hy with hlast | ⟨-, hcursor'⟩
  · exact mem_of_behind (List.mem_of_mem_take (List.mem_of_getLast? hlast))
  · exact hcursor y hcursor'

/-- Pages that end return what remained at the cursor as often as it was
there. -/
theorem count_pagesByEntry {cursor : Option α} {l : List α} {rounds : List (Round α)}
    (h : Growing l rounds) (hcursor : Within cursor l) {x : α} (hx : x ∈ l)
    (hend : (pagesByEntry cursor rounds).2 = true) :
    (pagesByEntry cursor rounds).1.count x = (behind cursor l).count x := by
  induction h generalizing cursor with
  | done => cases hend
  | @round l r rounds hsub hnodup _ ih =>
      have hwithin : Within cursor r.entries := fun y hy => hsub.subset (hcursor y hy)
      rw [count_behind hsub hnodup hcursor hx]
      unfold pagesByEntry at hend ⊢
      dsimp only at hend ⊢
      split
      next hall => rw [List.take_of_length_le hall]
      next hmore =>
        rw [if_neg hmore] at hend
        rw [List.count_append, ih (within_page hwithin r.size) (hsub.subset hx) hend,
          behind_page hnodup hwithin, ← List.count_append, List.take_append_drop]

/-- A cursor stays as far from the end of the list or gets farther from its
front. -/
theorem passed_le {cursor : Option α} {l l' : List α} (hsub : l.Sublist l') (hnodup : l'.Nodup)
    (hcursor : Within cursor l) :
    l.length + (behind cursor l').length ≤ l'.length + (behind cursor l).length := by
  cases cursor with
  | none =>
      rw [behind, behind]
      omega
  | some y =>
      obtain ⟨front, back, rfl⟩ := List.append_of_mem (hcursor y rfl)
      obtain ⟨front', back', rfl, hfront, -⟩ := sublist_split hsub
      rw [behind, behind, after_append (not_mem_front (hnodup.sublist hsub)),
        after_append (not_mem_front hnodup)]
      have hle := hfront.length_le
      simp only [List.length_append, List.length_cons]
      omega

/-- Pages that have not ended hold fewer entries than there are. -/
theorem sizes_lt_of_pagesByEntry {cursor : Option α} {l : List α} {rounds : List (Round α)}
    (h : Growing l rounds) (hcursor : Within cursor l) (hrounds : rounds ≠ [])
    (hopen : (pagesByEntry cursor rounds).2 = false) :
    l.length + (rounds.map Round.size).sum <
      (lastEntries l rounds).length + (behind cursor l).length := by
  induction h generalizing cursor with
  | done => exact absurd rfl hrounds
  | @round l r rounds hsub hnodup hrest ih =>
      have hwithin : Within cursor r.entries := fun y hy => hsub.subset (hcursor y hy)
      have hpassed := passed_le hsub hnodup hcursor
      unfold pagesByEntry at hopen
      dsimp only at hopen
      split at hopen
      next => cases hopen
      next hmore =>
        rw [List.map_cons, List.sum_cons, lastEntries]
        cases rounds with
        | nil =>
            rw [List.map_nil, List.sum_nil, lastEntries]
            omega
        | cons r' rounds =>
            have hlater := ih (within_page hwithin r.size) (List.cons_ne_nil r' rounds) hopen
            rw [behind_page hnodup hwithin, List.length_drop] at hlater
            omega

/-! ### Resuming at an index -/

/-- The pages up to the first empty one, and whether there is one. -/
def pagesByIndex : ℕ → List (Round α) → List α × Bool
  | _, [] => ([], false)
  | offset, r :: rounds =>
      let page := (r.entries.drop offset).take r.size
      if page = [] then ([], true)
      else
        let more := pagesByIndex (offset + page.length) rounds
        (page ++ more.1, more.2)

/-- What a page passed no later one finds ahead. -/
def Steady (x : α) : ℕ → List α → List (Round α) → Prop
  | _, _, [] => True
  | offset, l, r :: rounds =>
      (x ∈ l.take offset → x ∈ r.entries.take offset) ∧
        (((r.entries.drop offset).take r.size) ≠ [] →
          Steady x (offset + ((r.entries.drop offset).take r.size).length) r.entries rounds)

/-- How often a page finds ahead what an earlier one passed. -/
def pushedBack (x : α) : ℕ → List α → List (Round α) → ℕ
  | _, _, [] => 0
  | offset, l, r :: rounds =>
      (if x ∈ l.take offset ∧ x ∉ r.entries.take offset then 1 else 0) +
        if ((r.entries.drop offset).take r.size) = [] then 0
        else pushedBack x (offset + ((r.entries.drop offset).take r.size).length) r.entries rounds

theorem pushedBack_eq_zero (x : α) (offset : ℕ) (l : List α) (rounds : List (Round α)) :
    pushedBack x offset l rounds = 0 ↔ Steady x offset l rounds := by
  induction rounds generalizing offset l with
  | nil => exact iff_of_true rfl trivial
  | cons r rounds ih =>
      rw [pushedBack, Steady, Nat.add_eq_zero_iff]
      refine and_congr ?_ ?_
      · rw [ite_eq_right_iff, imp_iff_not Nat.one_ne_zero, not_and_not_right]
      · split
        next hempty => exact iff_of_true rfl fun hne => absurd hempty hne
        next hne => rw [ih, forall_prop_of_true hne]

/-- What is ahead of an offset: what was, and what is pushed back. -/
theorem count_drop {l l' : List α} (hsub : l.Sublist l') (hnodup : l'.Nodup) (offset : ℕ) {x : α}
    (hx : x ∈ l) : (l'.drop offset).count x =
      (l.drop offset).count x + if x ∈ l.take offset ∧ x ∉ l'.take offset then 1 else 0 := by
  have hone : ∀ {l : List α}, l.Nodup → x ∈ l →
      (l.take offset).count x + (l.drop offset).count x = 1 := by
    intro l hl hmem
    rw [← List.count_append, List.take_append_drop, List.count_eq_one_of_mem hl hmem]
  have hold := hone (hnodup.sublist hsub) hx
  have hnew := hone hnodup (hsub.subset hx)
  have hpos := hsub.drop offset
  have hle : (l.drop offset).count x ≤ (l'.drop offset).count x := hpos.count_le x
  split
  next hpushed =>
    rw [← List.count_pos_iff, ← List.count_pos_iff] at hpushed
    omega
  next hsteady =>
    rw [← List.count_pos_iff, ← List.count_pos_iff] at hsteady
    omega

/-- Pages that end return what was ahead of the offset, and once more what is
pushed back each time it is. -/
theorem count_pagesByIndex {offset : ℕ} {l : List α} {rounds : List (Round α)}
    (h : Growing l rounds) (hsizes : ∀ r ∈ rounds, 1 ≤ r.size) {x : α} (hx : x ∈ l)
    (hend : (pagesByIndex offset rounds).2 = true) :
    (pagesByIndex offset rounds).1.count x =
      (l.drop offset).count x + pushedBack x offset l rounds := by
  induction h generalizing offset with
  | done => cases hend
  | @round l r rounds hsub hnodup _ ih =>
      have hsize := hsizes r List.mem_cons_self
      have hdrop := count_drop hsub hnodup offset hx
      rw [pushedBack, ← Nat.add_assoc, ← hdrop]
      unfold pagesByIndex at hend ⊢
      dsimp only at hend ⊢
      split
      next hempty =>
        have hnil : r.entries.drop offset = [] := by
          rcases List.take_eq_nil_iff.mp hempty with hzero | hnil
          · omega
          · exact hnil
        rw [hnil]
        rfl
      next hpage =>
        rw [if_neg hpage] at hend
        have hrest := ih (fun r hr => hsizes r (List.mem_cons_of_mem _ hr)) (hsub.subset hx) hend
        have htake : r.entries.drop (offset + ((r.entries.drop offset).take r.size).length) =
            (r.entries.drop offset).drop r.size := by
          rw [List.drop_drop, List.length_take]
          rcases Nat.le_total r.size (r.entries.drop offset).length with hle | hle
          · rw [Nat.min_eq_left hle]
          · rw [Nat.min_eq_right hle]
            rw [List.length_drop] at hle ⊢
            rw [List.drop_eq_nil_of_le (by omega), List.drop_eq_nil_of_le (by omega)]
        rw [List.count_append, hrest, htake, ← Nat.add_assoc, ← List.count_append,
          List.take_append_drop]

omit [DecidableEq α] in
/-- Pages that have not ended are no more than there are entries. -/
theorem length_le_of_pagesByIndex {offset : ℕ} {l : List α} {rounds : List (Round α)}
    (h : Growing l rounds) (hrounds : rounds ≠ [])
    (hopen : (pagesByIndex offset rounds).2 = false) :
    offset + rounds.length ≤ (lastEntries l rounds).length := by
  induction h generalizing offset with
  | done => exact absurd rfl hrounds
  | @round l r rounds hsub hnodup hrest ih =>
      unfold pagesByIndex at hopen
      dsimp only at hopen
      split at hopen
      next => cases hopen
      next hpage =>
        have hlength : 0 < ((r.entries.drop offset).take r.size).length :=
          List.length_pos_of_ne_nil hpage
        rw [List.length_cons, lastEntries]
        cases rounds with
        | nil =>
            rw [List.length_take, List.length_drop] at hlength
            rw [List.length_nil, lastEntries]
            omega
        | cons r' rounds =>
            have hlater := ih (List.cons_ne_nil r' rounds) hopen
            omega

end Naatre.Lib
