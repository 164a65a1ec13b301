import Mathlib.Data.List.Basic

/-!
Loops that can fail: the bind of `Except` taken apart, the invariant rules of
`List.foldlM`, and what a `List.mapM` that succeeds computed.
-/

namespace Naatre.Lib

universe u

variable {ε : Type*} {α β σ : Type u}

theorem bind_eq_ok {x : Except ε α} {f : α → Except ε β} {b : β} :
    (x >>= f) = .ok b ↔ ∃ a, x = .ok a ∧ f a = .ok b := by
  cases x with
  | error e => simp [bind, Except.bind]
  | ok a => simp [bind, Except.bind]

theorem map_eq_ok {x : Except ε α} {f : α → β} {b : β} :
    x.map f = .ok b ↔ ∃ a, x = .ok a ∧ f a = b := by
  cases x <;> simp [Except.map]

/-- An invariant indexed by the elements already run. -/
theorem foldlM_induct {f : σ → α → Except ε σ} {P : List α → σ → Prop} {s t : σ} {l : List α}
    (h : l.foldlM f s = .ok t) (hstart : P [] s)
    (hstep : ∀ done x rest s s', l = done ++ x :: rest → P done s → f s x = .ok s' →
      P (done ++ [x]) s') :
    P l t := by
  suffices hgen : ∀ rest done s, l = done ++ rest → P done s → rest.foldlM f s = .ok t → P l t from
    hgen l [] s rfl hstart h
  intro rest
  induction rest with
  | nil =>
      intro done s hl hP hrun
      simp only [List.foldlM_nil, pure, Except.pure, Except.ok.injEq] at hrun
      rw [hl, List.append_nil]
      exact hrun ▸ hP
  | cons x rest ih =>
      intro done s hl hP hrun
      rw [List.foldlM_cons, bind_eq_ok] at hrun
      obtain ⟨s', hx, hrest⟩ := hrun
      exact ih (done ++ [x]) s' (by simp [hl]) (hstep done x rest s s' hl hP hx) hrest

/-- An invariant of the state alone. -/
theorem foldlM_invariant {f : σ → α → Except ε σ} {I : σ → Prop} {s t : σ} {l : List α}
    (h : l.foldlM f s = .ok t) (hstart : I s)
    (hstep : ∀ s, ∀ x ∈ l, ∀ s', I s → f s x = .ok s' → I s') : I t :=
  foldlM_induct (P := fun _ => I) h hstart fun done x _ s s' hl hI hx =>
    hstep s x (by simp [hl]) s' hI hx

/-- A loop whose every round goes through ends, with what its rounds keep. -/
theorem foldlM_progress {f : σ → α → Except ε σ} {P : List α → σ → Prop} {s : σ} {l : List α}
    (hstart : P [] s)
    (hstep : ∀ done x rest s, l = done ++ x :: rest → P done s →
      ∃ s', f s x = .ok s' ∧ P (done ++ [x]) s') :
    ∃ t, l.foldlM f s = .ok t ∧ P l t := by
  suffices hgen : ∀ rest done s, l = done ++ rest → P done s →
      ∃ t, rest.foldlM f s = .ok t ∧ P l t from hgen l [] s rfl hstart
  intro rest
  induction rest with
  | nil =>
      intro done s hl hP
      rw [List.append_nil] at hl
      exact ⟨s, rfl, hl ▸ hP⟩
  | cons x rest ih =>
      intro done s hl hP
      obtain ⟨s', hx, hP'⟩ := hstep done x rest s hl hP
      obtain ⟨t, ht, hPt⟩ := ih (done ++ [x]) s' (by simp [hl]) hP'
      exact ⟨t, by rw [List.foldlM_cons, bind_eq_ok]; exact ⟨s', hx, ht⟩, hPt⟩

/-- A loop fails in one of its rounds. -/
theorem foldlM_error {f : σ → α → Except ε σ} {s : σ} {l : List α} {e : ε}
    (h : l.foldlM f s = .error e) :
    ∃ done x rest t, l = done ++ x :: rest ∧ done.foldlM f s = .ok t ∧ f t x = .error e := by
  induction l generalizing s with
  | nil => cases h
  | cons x l ih =>
      rw [List.foldlM_cons] at h
      cases hx : f s x with
      | error e' =>
          rw [hx] at h
          cases h
          exact ⟨[], x, l, s, rfl, rfl, hx⟩
      | ok s' =>
          rw [hx] at h
          obtain ⟨done, y, rest, t, hl, hdone, hy⟩ := ih h
          refine ⟨x :: done, y, rest, t, by rw [hl, List.cons_append], ?_, hy⟩
          rw [List.foldlM_cons, hx]
          exact hdone

/-! ### Element by element -/

section Pointwise

variable {α β γ : Type*}

/-- A map that succeeds does so at every element. -/
theorem forall₂_of_mapM {f : α → Option β} {l : List α} {ys : List β}
    (h : l.mapM f = some ys) : List.Forall₂ (fun x y => f x = some y) l ys := by
  induction l generalizing ys with
  | nil =>
      simp only [List.mapM_nil, Option.pure_def, Option.some.injEq] at h
      exact h ▸ .nil
  | cons x l ih =>
      simp only [List.mapM_cons, Option.pure_def, Option.bind_eq_bind, Option.bind_eq_some_iff,
        Option.some.injEq] at h
      obtain ⟨y, hy, rest, hrest, rfl⟩ := h
      exact .cons hy (ih hrest)

theorem mapM_of_forall₂ {f : α → Option β} {l : List α} {ys : List β}
    (h : List.Forall₂ (fun x y => f x = some y) l ys) : l.mapM f = some ys := by
  induction h with
  | nil => rfl
  | cons hxy _ ih => simp [List.mapM_cons, hxy, ih]

/-- A traversal that goes through has the value of each element, and no other. -/
theorem mapM_ok {f : α → Except ε β} {l : List α} {ys : List β} (h : l.mapM f = .ok ys) :
    (∀ y ∈ ys, ∃ x ∈ l, f x = .ok y) ∧ ∀ x ∈ l, ∃ y ∈ ys, f x = .ok y := by
  induction l generalizing ys with
  | nil =>
      cases h
      exact ⟨fun y hy => absurd hy List.not_mem_nil, fun x hx => absurd hx List.not_mem_nil⟩
  | cons x l ih =>
      rw [List.mapM_cons, bind_eq_ok] at h
      obtain ⟨y, hy, h⟩ := h
      obtain ⟨rest, hrest, h⟩ := bind_eq_ok.mp h
      cases h
      obtain ⟨hof, hall⟩ := ih hrest
      constructor
      · intro z hz
        rcases List.mem_cons.mp hz with rfl | hz
        · exact ⟨x, List.mem_cons_self, hy⟩
        · obtain ⟨x', hx', hread⟩ := hof z hz
          exact ⟨x', List.mem_cons_of_mem _ hx', hread⟩
      · intro x' hx'
        rcases List.mem_cons.mp hx' with rfl | hx'
        · exact ⟨y, List.mem_cons_self, hy⟩
        · obtain ⟨z, hz, hread⟩ := hall x' hx'
          exact ⟨z, List.mem_cons_of_mem _ hz, hread⟩

/-- Two lists related to a third are related to each other. -/
theorem forall₂_join {R : α → β → Prop} {S : α → γ → Prop} {T : β → γ → Prop} {l : List α}
    {xs : List β} {ys : List γ} (hx : List.Forall₂ R l xs) (hy : List.Forall₂ S l ys)
    (h : ∀ a ∈ l, ∀ x y, R a x → S a y → T x y) : List.Forall₂ T xs ys := by
  induction hx generalizing ys with
  | nil =>
      cases hy
      exact .nil
  | cons hax _ ih =>
      cases hy with
      | cons hay hrest =>
          exact .cons (h _ List.mem_cons_self _ _ hax hay)
            (ih hrest fun a ha => h a (List.mem_cons_of_mem _ ha))

/-- Every element of the left list has its partner. -/
theorem forall₂_left {R : α → β → Prop} {xs : List α} {ys : List β}
    (h : List.Forall₂ R xs ys) {x : α} (hx : x ∈ xs) : ∃ y ∈ ys, R x y := by
  induction h with
  | nil => exact absurd hx List.not_mem_nil
  | cons hxy _ ih =>
      rcases List.mem_cons.mp hx with rfl | hx
      · exact ⟨_, List.mem_cons_self, hxy⟩
      · obtain ⟨y, hy, hR⟩ := ih hx
        exact ⟨y, List.mem_cons_of_mem _ hy, hR⟩

end Pointwise

/-! ### Element behind element -/

section Behind

variable {α : Type*} {P : List α → α → Prop} {l : List α}

/-- Every element of the list stands in `P` to those before it. -/
def EachBehind (P : List α → α → Prop) (l : List α) : Prop :=
  ∀ before x after, l = before ++ x :: after → P before x

theorem EachBehind.nil : EachBehind P [] := fun before x after h => by simp at h

theorem EachBehind.singleton {x : α} (h : P [] x) : EachBehind P [x] := by
  intro before y after hsplit
  cases before with
  | nil => exact (List.cons.inj hsplit).1 ▸ h
  | cons z before =>
      have hlength := congrArg List.length hsplit
      simp at hlength

theorem EachBehind.mono {Q : List α → α → Prop} (h : EachBehind P l)
    (hPQ : ∀ before x, P before x → Q before x) : EachBehind Q l :=
  fun before x after hsplit => hPQ before x (h before x after hsplit)

/-- A list behind another. -/
theorem EachBehind.join (h : EachBehind P l) {l' : List α}
    (h' : EachBehind (fun before x => P (l ++ before) x) l') : EachBehind P (l ++ l') := by
  intro before x after hsplit
  rcases List.append_eq_append_iff.mp hsplit with ⟨mid, rfl, htail⟩ | ⟨mid, hl, htail⟩
  · exact h' mid x after htail
  · cases mid with
    | nil =>
        rw [List.append_nil] at hl
        have hfirst : P (l ++ []) x := h' [] x after htail.symm
        rwa [List.append_nil, hl] at hfirst
    | cons m mid =>
        obtain ⟨rfl, -⟩ := List.cons.inj htail
        exact h before x mid hl

theorem EachBehind.append (h : EachBehind P l) {x : α} (hx : P l x) :
    EachBehind P (l ++ [x]) :=
  h.join (.singleton ((List.append_nil l).symm ▸ hx))

end Behind

end Naatre.Lib
