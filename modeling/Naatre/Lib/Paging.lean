import Mathlib.Data.List.Basic
import Mathlib.Order.Lattice
import Mathlib.Order.Basic

/-!
Keyset pagination: a page holds at most so many entries and, when there are
more, the key of its last one; the next page resumes behind that key.

A server of pages is right about a list when every page it answers is the
front of what remains there, and what remains behind a key is what follows the
entry with that key.
-/

namespace Naatre.Lib

variable {α κ : Type*}

/-- One page: its entries and the key the next page resumes behind. -/
structure Page (α κ : Type*) where
  entries : List α
  next : Option κ

/-- The front of a list as a page. -/
def Page.front (key : α → κ) (limit : ℕ) (xs : List α) : Page α κ :=
  { entries := xs.take limit
    next := if limit < xs.length then (xs.take limit).getLast?.map key else none }

/-- The entries of the pages from `cursor` on, each resumed behind the one
before it. A page that is not answered ends nothing. -/
inductive Follow (page : Option κ → Option (Page α κ)) : Option κ → List α → Prop
  | last {cursor : Option κ} {p : Page α κ} (hpage : page cursor = some p)
      (hnext : p.next = none) : Follow page cursor p.entries
  | more {cursor : Option κ} {p : Page α κ} {next : κ} {rest : List α}
      (hpage : page cursor = some p) (hnext : p.next = some next)
      (hrest : Follow page (some next) rest) : Follow page cursor (p.entries ++ rest)

/-- The pages are determined by where they start. -/
theorem Follow.unique {page : Option κ → Option (Page α κ)} {cursor : Option κ} {xs ys : List α}
    (h : Follow page cursor xs) (h' : Follow page cursor ys) : xs = ys := by
  induction h generalizing ys with
  | last hpage hnext =>
      cases h' with
      | last hpage' hnext' =>
          rw [hpage] at hpage'
          cases hpage'
          rfl
      | more hpage' hnext' hrest' =>
          rw [hpage] at hpage'
          cases hpage'
          rw [hnext] at hnext'
          cases hnext'
  | more hpage hnext _ ih =>
      cases h' with
      | last hpage' hnext' =>
          rw [hpage] at hpage'
          cases hpage'
          rw [hnext] at hnext'
          cases hnext'
      | more hpage' hnext' hrest' =>
          rw [hpage] at hpage'
          cases hpage'
          rw [hnext] at hnext'
          cases hnext'
          rw [ih hrest']

/-- `Serves cursor xs` says that `xs` remains at the cursor. -/
structure Paged (page : Option κ → Option (Page α κ)) (key : α → κ) (limit : ℕ)
    (Serves : Option κ → List α → Prop) : Prop where
  answer : ∀ {cursor xs}, Serves cursor xs → page cursor = some (.front key limit xs)
  resume : ∀ {cursor xs y ys}, Serves cursor (xs ++ y :: ys) → Serves (some (key y)) ys

/-- The pages together are the list, whatever the limit. -/
theorem Paged.follow {page : Option κ → Option (Page α κ)} {key : α → κ} {limit : ℕ}
    {Serves : Option κ → List α → Prop} (h : Paged page key limit Serves) (hlimit : 1 ≤ limit)
    {cursor : Option κ} {xs : List α} (hxs : Serves cursor xs) : Follow page cursor xs := by
  -- what is left gets shorter with every page
  induction hn : xs.length using Nat.strongRecOn generalizing cursor xs with
  | _ n ih =>
  have hpage := h.answer hxs
  by_cases hlen : limit < xs.length
  · obtain ⟨init, y, hfront⟩ : ∃ init y, xs.take limit = init ++ [y] := by
      have hne : xs.take limit ≠ [] := by
        intro hnil
        have hzero := congrArg List.length hnil
        rw [List.length_take, List.length_nil] at hzero
        omega
      exact ⟨_, _, (List.dropLast_append_getLast hne).symm⟩
    have hsplit : xs = init ++ y :: xs.drop limit := by
      conv_lhs => rw [← List.take_append_drop limit xs, hfront, List.append_assoc]
      rfl
    have hrest : Serves (some (key y)) (xs.drop limit) := h.resume (hsplit ▸ hxs)
    have hnext : (Page.front key limit xs).next = some (key y) := by
      rw [Page.front, if_pos hlen, hfront, List.getLast?_append, List.getLast?_singleton]
      rfl
    have hshorter : (xs.drop limit).length < n := by
      rw [List.length_drop]
      omega
    have hfollow := Follow.more hpage hnext (ih _ hshorter hrest rfl)
    rwa [show (Page.front key limit xs).entries ++ xs.drop limit = xs from
      List.take_append_drop limit xs] at hfollow
  · have hall : (Page.front key limit xs).entries = xs := List.take_of_length_le (by omega)
    have hfollow := Follow.last hpage (if_neg hlen)
    rwa [hall] at hfollow

/-- Exactly the list, and in one way. -/
theorem Paged.follow_iff {page : Option κ → Option (Page α κ)} {key : α → κ} {limit : ℕ}
    {Serves : Option κ → List α → Prop} (h : Paged page key limit Serves) (hlimit : 1 ≤ limit)
    {cursor : Option κ} {xs ys : List α} (hxs : Serves cursor xs) :
    Follow page cursor ys ↔ ys = xs := by
  constructor
  · intro hys
    exact hys.unique (h.follow hlimit hxs)
  · rintro rfl
    exact h.follow hlimit hxs

/-- In a list in strict order what lies behind an entry is what follows it. -/
theorem filter_behind (lt : α → α → Bool) {xs ys : List α} {y : α}
    (hasymm : ∀ a b, lt a b = true → lt b a = false)
    (h : (xs ++ y :: ys).Pairwise fun a b => lt a b = true) :
    (xs ++ y :: ys).filter (lt y) = ys := by
  obtain ⟨-, hright, hcross⟩ := List.pairwise_append.mp h
  have hleft : xs.filter (lt y) = [] := by
    rw [List.filter_eq_nil_iff]
    intro x hx
    rw [hasymm x y (hcross x hx y List.mem_cons_self)]
    exact Bool.false_ne_true
  have hself : lt y y = false := by
    by_contra hne
    rw [Bool.not_eq_false] at hne
    rw [hasymm y y hne] at hne
    exact Bool.false_ne_true hne
  have hbehind : ys.filter (lt y) = ys :=
    List.filter_eq_self.mpr (List.pairwise_cons.mp hright).1
  rw [List.filter_append, List.filter_cons, if_neg (hself ▸ Bool.false_ne_true), hleft, hbehind,
    List.nil_append]

/-! ### Pages of what passes a filter -/

/-- The page behind `k` of a server that fetches one row more than a page holds
and filters afterwards: its cursor is the last row it returns, or else the last
it fetched. -/
def Page.screened [LinearOrder κ] (key : α → κ) (passes : α → Bool) (limit : ℕ) (k : κ)
    (l : List α) : Page α κ :=
  let raw := (l.filter fun x => decide (k < key x)).take (limit + 1)
  let rows := (raw.filter passes).take limit
  { entries := rows
    next :=
      if limit < raw.length then some ((rows.getLast?.map key).getD ((raw.getLast?.map key).getD k))
      else none }

section

variable [LinearOrder κ] {key : α → κ} {passes : α → Bool} {limit : ℕ} {l : List α}

/-- What lies behind an entry of what lies behind `k`. -/
theorem filter_behind_key (hsorted : l.Pairwise fun a b => key a < key b) {k : κ}
    {pre post : List α} {r : α} (h : l.filter (fun x => decide (k < key x)) = pre ++ r :: post) :
    l.filter (fun x => decide (key r < key x)) = post := by
  have hr : k < key r := by
    have hmem : r ∈ l.filter fun x => decide (k < key x) := by
      rw [h]
      exact List.mem_append_right _ List.mem_cons_self
    simpa using (List.mem_filter.mp hmem).2
  have hpairwise : (pre ++ r :: post).Pairwise fun a b => decide (key a < key b) = true := by
    rw [← h]
    exact (hsorted.imp fun hab => decide_eq_true hab).filter _
  calc l.filter (fun x => decide (key r < key x))
      = (l.filter fun x => decide (k < key x)).filter fun x => decide (key r < key x) := by
        rw [List.filter_filter]
        refine List.filter_congr fun x _ => ?_
        by_cases hx : key r < key x
        · simp [hx, hr.trans hx]
        · simp [hx]
    _ = post := by
        rw [h]
        exact filter_behind (fun a b => decide (key a < key b))
          (fun a b hab => by simpa using (of_decide_eq_true hab).le) hpairwise

variable (passes) in
/-- A page that is not the last one cuts the list at its cursor: what passes in
front of the cut is the page. -/
theorem Page.screened_cut (hlimit : 1 ≤ limit) {k : κ}
    (hmore : limit < ((l.filter fun x => decide (k < key x)).take (limit + 1)).length) :
    ∃ pre r post, l.filter (fun x => decide (k < key x)) = pre ++ r :: post ∧
      (Page.screened key passes limit k l).next = some (key r) ∧
      (Page.screened key passes limit k l).entries = (pre ++ [r]).filter passes := by
  obtain ⟨raw, hraw⟩ : ∃ raw, (l.filter fun x => decide (k < key x)).take (limit + 1) = raw :=
    ⟨_, rfl⟩
  obtain ⟨behind, hbehind⟩ : ∃ behind, l.filter (fun x => decide (k < key x)) = raw ++ behind :=
    ⟨_, by rw [← hraw, List.take_append_drop]⟩
  simp only [Page.screened, hraw] at hmore ⊢
  rw [if_pos hmore]
  rcases List.eq_nil_or_concat ((raw.filter passes).take limit) with hrows | ⟨init, r, hrows⟩
  · -- nothing fetched passes: the cursor is the last row fetched
    have hnone : raw.filter passes = [] := by
      rcases List.take_eq_nil_iff.mp hrows with hzero | hnil
      · omega
      · exact hnil
    obtain ⟨pre, r, rfl⟩ : ∃ pre r, raw = pre ++ [r] := by
      rcases List.eq_nil_or_concat raw with hnil | ⟨pre, r, hsnoc⟩
      · rw [hnil, List.length_nil] at hmore
        omega
      · exact ⟨pre, r, by simpa using hsnoc⟩
    refine ⟨pre, r, behind, ?_, ?_, ?_⟩
    · rw [hbehind, List.append_assoc, List.singleton_append]
    · simp only [hrows, List.getLast?_nil, Option.map_none, Option.getD_none,
        List.getLast?_concat, Option.map_some, Option.getD_some]
    · rw [hrows, hnone]
  · rw [List.concat_eq_append] at hrows
    have hfilter : raw.filter passes = init ++ (r :: (raw.filter passes).drop limit) := by
      conv_lhs => rw [← List.take_append_drop limit (raw.filter passes), hrows]
      rw [List.append_assoc, List.singleton_append]
    obtain ⟨front, rest, hsplit, hfront, hrest⟩ := List.filter_eq_append_iff.mp hfilter
    obtain ⟨hidden, post, rfl, hhidden, hpasses, -⟩ := List.filter_eq_cons_iff.mp hrest
    refine ⟨front ++ hidden, r, post ++ behind, ?_, ?_, ?_⟩
    · rw [hbehind, hsplit]
      simp only [List.append_assoc, List.cons_append]
    · simp [hrows]
    · have hnone : hidden.filter passes = [] := by
        rw [List.filter_eq_nil_iff]
        exact hhidden
      rw [hrows, List.filter_append, List.filter_append, hfront, hnone, List.append_nil,
        List.filter_cons_of_pos hpasses, List.filter_nil]

/-- Followed from `k` on, the pages are what passes behind `k`. -/
theorem follow_screened (hsorted : l.Pairwise fun a b => key a < key b) (hlimit : 1 ≤ limit)
    {page : Option κ → Option (Page α κ)} {start : κ}
    (hpage : ∀ cursor, page cursor = some (.screened key passes limit (cursor.getD start) l))
    (cursor : Option κ) :
    Follow page cursor
      ((l.filter fun x => decide (cursor.getD start < key x)).filter passes) := by
  -- what lies behind the cursor gets shorter with every page
  induction hn : (l.filter fun x => decide (cursor.getD start < key x)).length
    using Nat.strongRecOn generalizing cursor with
  | _ n ih =>
  by_cases hmore :
      limit < ((l.filter fun x => decide (cursor.getD start < key x)).take (limit + 1)).length
  · obtain ⟨pre, r, post, hcut, hnext, hentries⟩ :=
      Page.screened_cut passes hlimit hmore
    have hpost : l.filter (fun x => decide ((some (key r)).getD start < key x)) = post :=
      filter_behind_key hsorted hcut
    have hshorter : (l.filter fun x => decide ((some (key r)).getD start < key x)).length < n := by
      rw [hpost, ← hn, hcut, List.length_append, List.length_cons]
      omega
    have hfollow := Follow.more (hpage cursor) hnext (ih _ hshorter (some (key r)) rfl)
    rw [hentries, hpost, ← List.filter_append] at hfollow
    rwa [hcut, ← List.singleton_append (l := post), ← List.append_assoc]
  · have hall : (l.filter fun x => decide (cursor.getD start < key x)).take (limit + 1) =
        l.filter fun x => decide (cursor.getD start < key x) := by
      refine List.take_of_length_le ?_
      rw [List.length_take] at hmore
      omega
    have hfollow := Follow.last (hpage cursor) (if_neg hmore)
    rw [hall] at hmore
    have hshort : ((l.filter fun x => decide (cursor.getD start < key x)).filter passes).length ≤
        limit := Nat.le_trans (List.length_filter_le _ _) (Nat.le_of_not_lt hmore)
    rwa [Page.screened, hall, List.take_of_length_le hshort] at hfollow

end

end Naatre.Lib
