import Mathlib.Data.List.Nodup

/-!
Tables kept as lists of rows, one row for each key.
-/

namespace Naatre.Lib

variable {κ ρ β : Type*} [DecidableEq κ]

/-- The row of a key is the one found. -/
theorem find_of_nodup {key : ρ → κ} {rows : List ρ} (hkeys : (rows.map key).Nodup) {row : ρ}
    (hrow : row ∈ rows) : rows.find? (fun r => decide (key r = key row)) = some row := by
  obtain ⟨found, hfound⟩ := Option.isSome_iff_exists.mp
    (show (rows.find? (fun r => decide (key r = key row))).isSome from
      List.find?_isSome.mpr ⟨row, hrow, by simp⟩)
  have hmem := List.mem_of_find?_eq_some hfound
  have hkey : key found = key row := by simpa using List.find?_some hfound
  rw [hfound, List.inj_on_of_nodup_map hkeys hmem hrow hkey]

omit [DecidableEq κ] in
theorem mem_of_lookup [BEq κ] [LawfulBEq κ] {rows : List (κ × β)} {k : κ} {b : β}
    (h : rows.lookup k = some b) : (k, b) ∈ rows := by
  obtain ⟨front, back, hrows, -⟩ := List.lookup_eq_some_iff.mp h
  rw [hrows]
  exact List.mem_append_right _ List.mem_cons_self

theorem lookup_of_nodup {rows : List (κ × β)} (hkeys : (rows.map Prod.fst).Nodup) {k : κ} {b : β}
    (hrow : (k, b) ∈ rows) : rows.lookup k = some b := by
  induction rows with
  | nil => exact absurd hrow List.not_mem_nil
  | cons row rows ih =>
      obtain ⟨hfirst, hrest⟩ := List.nodup_cons.mp hkeys
      rcases List.mem_cons.mp hrow with rfl | hrow
      · simp
      · have hne : k ≠ row.1 := by
          rintro rfl
          exact hfirst (List.mem_map.mpr ⟨(row.1, b), hrow, rfl⟩)
        rw [List.lookup_cons, beq_false_of_ne hne]
        exact ih hrest hrow

omit [DecidableEq κ] in
/-- What names the key of its row is picked once. -/
theorem nodup_picked {γ : Type*} {rows : List (κ × β)} (hkeys : (rows.map Prod.fst).Nodup)
    {pick : κ × β → Option γ} (key : γ → κ) (hpick : ∀ row c, pick row = some c → row.1 = key c) :
    (rows.filterMap pick).Nodup := by
  refine (List.pairwise_map.mp hkeys).filterMap pick ?_
  rintro row row' hne c hc c' hc' rfl
  exact hne ((hpick row c hc).trans (hpick row' c hc').symm)

/-- What a key finds does not depend on the order of the rows. -/
theorem find_perm {key : ρ → κ} {rows rows' : List ρ} (h : rows.Perm rows')
    (hkeys : (rows.map key).Nodup) (k : κ) :
    rows.find? (fun r => decide (key r = k)) = rows'.find? (fun r => decide (key r = k)) := by
  induction h with
  | nil => rfl
  | cons row _ ih =>
      rw [List.find?_cons, List.find?_cons, ih (List.nodup_cons.mp hkeys).2]
  | swap row row' rows =>
      have hne : key row' ≠ key row := by
        rw [List.map_cons, List.map_cons, List.nodup_cons, List.mem_cons, not_or] at hkeys
        exact hkeys.1.1
      simp only [List.find?_cons]
      by_cases hrow : key row = k
      · have hother : key row' ≠ k := fun h => hne (h.trans hrow.symm)
        simp only [decide_eq_true hrow, decide_eq_false hother]
      · simp only [decide_eq_false hrow]
  | trans h₁ _ ih₁ ih₂ => rw [ih₁ hkeys, ih₂ ((h₁.map key).nodup_iff.mp hkeys)]

theorem lookup_eq_find (rows : List (κ × β)) (k : κ) :
    rows.lookup k = (rows.find? fun r => decide (r.1 = k)).map Prod.snd := by
  induction rows with
  | nil => rfl
  | cons row rows ih =>
      rw [List.lookup_cons, List.find?_cons]
      by_cases hrow : row.1 = k
      · simp only [hrow, beq_self_eq_true, decide_true, Option.map_some]
      · simp only [beq_false_of_ne (Ne.symm hrow), decide_eq_false hrow, ih]

theorem lookup_perm {rows rows' : List (κ × β)} (h : rows.Perm rows')
    (hkeys : (rows.map Prod.fst).Nodup) (k : κ) : rows.lookup k = rows'.lookup k := by
  rw [lookup_eq_find, lookup_eq_find, find_perm h hkeys]

omit [DecidableEq κ] in
/-- A row under a fresh key goes in. -/
theorem nodup_insert {key : ρ → κ} {rows : List ρ} (hkeys : (rows.map key).Nodup) {row : ρ}
    (hfresh : key row ∉ rows.map key) : ((rows ++ [row]).map key).Nodup := by
  rw [List.map_append, List.map_singleton]
  exact hkeys.append (List.nodup_singleton _) (by simpa using hfresh)

omit [DecidableEq κ] in
/-- A filter that tells what was added from what was there. -/
theorem filter_added {p : ρ → Bool} {rows added : List ρ} (hrows : ∀ row ∈ rows, p row = false)
    (hadded : ∀ row ∈ added, p row = true) : (rows ++ added).filter p = added := by
  have hnone : rows.filter p = [] :=
    List.filter_eq_nil_iff.mpr fun row hrow => by rw [hrows row hrow]; exact Bool.false_ne_true
  rw [List.filter_append, hnone, List.filter_eq_self.mpr hadded, List.nil_append]

omit [DecidableEq κ] in
/-- Only one row has anything to give. -/
theorem flatMap_of_nodup {key : ρ → κ} {rows : List ρ} (hkeys : (rows.map key).Nodup) {row : ρ}
    (hrow : row ∈ rows) {f : ρ → List β} (hother : ∀ r ∈ rows, key r ≠ key row → f r = []) :
    rows.flatMap f = f row := by
  obtain ⟨before, after, rfl⟩ := List.append_of_mem hrow
  rw [List.map_append, List.map_cons] at hkeys
  obtain ⟨-, hafter, hcross⟩ := List.nodup_append.mp hkeys
  have hbefore : before.flatMap f = [] := by
    rw [List.flatMap_eq_nil_iff]
    intro r hr
    refine hother r (List.mem_append_left _ hr) ?_
    exact hcross _ (List.mem_map_of_mem hr) _ List.mem_cons_self
  have hrest : after.flatMap f = [] := by
    rw [List.flatMap_eq_nil_iff]
    intro r hr
    refine hother r (List.mem_append_right _ (List.mem_cons_of_mem _ hr)) fun heq => ?_
    exact (List.nodup_cons.mp hafter).1 (heq ▸ List.mem_map_of_mem hr)
  rw [List.flatMap_append, List.flatMap_cons, hbefore, hrest, List.nil_append, List.append_nil]

end Naatre.Lib
