import Naatre.Lib.Run

/-!
What holds at every step of a run. Two properties of a step agree along every
run when they agree in the states that meet an invariant, and steps with the
property keep the invariant.
-/

namespace Naatre.Lib

variable {σ ε : Type*}

/-- The property holds at every step the events take from a state on. -/
def Along (step : σ → ε → Option σ) (P : σ → ε → Prop) : σ → List ε → Prop
  | _, [] => True
  | s, e :: events => P s e ∧ ∀ s', step s e = some s' → Along step P s' events

/-- What an event leads to has a property. -/
def Leads (step : σ → ε → Option σ) (Good : σ → Prop) (s : σ) (e : ε) : Prop :=
  ∀ s', step s e = some s' → Good s'

variable {step : σ → ε → Option σ} {P Q : σ → ε → Prop} {I : σ → Prop}

theorem Along.iff (hagree : ∀ s e, I s → (P s e ↔ Q s e))
    (hkeeps : ∀ s e s', I s → Q s e → step s e = some s' → I s') {s : σ} (hs : I s)
    {events : List ε} : Along step P s events ↔ Along step Q s events := by
  induction events generalizing s with
  | nil => exact Iff.rfl
  | cons e events ih =>
      constructor
      · rintro ⟨hP, hrest⟩
        have hQ := (hagree s e hs).mp hP
        exact ⟨hQ, fun s' hstep => (ih (hkeeps s e s' hs hQ hstep)).mp (hrest s' hstep)⟩
      · rintro ⟨hQ, hrest⟩
        exact ⟨(hagree s e hs).mpr hQ,
          fun s' hstep => (ih (hkeeps s e s' hs hQ hstep)).mpr (hrest s' hstep)⟩

/-- A run that checks every step has what the check implies. -/
theorem Along.of_execIf [∀ s e, Decidable (P s e)] (hPQ : ∀ s e, P s e → Q s e) {s s' : σ}
    {events : List ε} (h : execIf step P s events = some s') : Along step Q s events := by
  induction events generalizing s with
  | nil => trivial
  | cons e events ih =>
      simp only [execIf, List.foldlM_cons, Option.bind_eq_bind, Option.bind_eq_some_iff] at h
      obtain ⟨m, hm, hrest⟩ := h
      by_cases hP : P s e
      · rw [if_pos hP] at hm
        refine ⟨hPQ s e hP, fun t ht => ?_⟩
        obtain rfl := Option.some.inj (hm.symm.trans ht)
        exact ih hrest
      · rw [if_neg hP] at hm
        cases hm

/-- The step a run takes after some of its events. -/
theorem Along.step_at {s m : σ} {front back : List ε} {e : ε}
    (h : Along step P s (front ++ e :: back)) (hfront : exec step s front = some m) : P m e := by
  induction front generalizing s with
  | nil =>
      obtain rfl : s = m := Option.some.inj hfront
      exact h.1
  | cons e' front ih =>
      simp only [exec, List.foldlM_cons, Option.bind_eq_bind, Option.bind_eq_some_iff] at hfront
      obtain ⟨t, ht, hfront⟩ := hfront
      exact ih (h.2 t ht) hfront

end Naatre.Lib
