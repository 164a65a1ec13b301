import Mathlib.Logic.Relation

/-!
Runs of a deterministic labelled transition system.

`Reach` is the set of states a run can be in when every one of its steps meets
a condition on the state it starts from; an invariant is proved once for the
initial states and once for a step.
-/

namespace Naatre.Lib

variable {σ ε : Type*}

/-- The states of the runs that start in `init` and whose steps all meet
`ok`. -/
inductive Reach (init : σ → Prop) (step : σ → ε → Option σ) (ok : σ → ε → Prop) : σ → Prop
  | start {s : σ} : init s → Reach init step ok s
  | next {s s' : σ} {e : ε} :
      Reach init step ok s → ok s e → step s e = some s' → Reach init step ok s'

/-- The state a list of events leads to. -/
def exec (step : σ → ε → Option σ) (s : σ) (events : List ε) : Option σ :=
  events.foldlM step s

/-- The state a list of events leads to when each of them meets `ok`. -/
def execIf (step : σ → ε → Option σ) (ok : σ → ε → Prop) [∀ s e, Decidable (ok s e)] (s : σ)
    (events : List ε) : Option σ :=
  events.foldlM (fun s e => if ok s e then step s e else none) s

/-- `s'` comes later than `s` in a run whose steps all meet `ok`. -/
def Later (step : σ → ε → Option σ) (ok : σ → ε → Prop) : σ → σ → Prop :=
  Relation.ReflTransGen fun s s' => ∃ e, ok s e ∧ step s e = some s'

section

variable {init : σ → Prop} {step : σ → ε → Option σ} {ok ok' : σ → ε → Prop}

/-- The invariant rule: the step may use the condition and that its state is
itself reachable. -/
theorem Reach.invariant {I : σ → Prop} (hinit : ∀ s, init s → I s)
    (hstep : ∀ s e s', Reach init step ok s → I s → ok s e → step s e = some s' → I s')
    {s : σ} (h : Reach init step ok s) : I s := by
  induction h with
  | start h => exact hinit _ h
  | next hs hok he ih => exact hstep _ _ _ hs ih hok he

/-- A weaker condition on the steps reaches more. -/
theorem Reach.mono (hok : ∀ s e, ok s e → ok' s e) {s : σ} (h : Reach init step ok s) :
    Reach init step ok' s := by
  induction h with
  | start h => exact .start h
  | next _ h he ih => exact .next ih (hok _ _ h) he

/-- A later state of a reachable state is reachable. -/
theorem Reach.later {s s' : σ} (hs : Reach init step ok s) (h : Later step ok s s') :
    Reach init step ok s' := by
  induction h with
  | refl => exact hs
  | tail _ hstep ih =>
      obtain ⟨e, hok, he⟩ := hstep
      exact .next ih hok he

/-- The states along a run of events that all meet the condition. -/
theorem Reach.exec {s s' : σ} (hs : Reach init step ok s) {events : List ε}
    (hok : ∀ s, ∀ e ∈ events, ok s e) (h : Lib.exec step s events = some s') :
    Reach init step ok s' := by
  induction events generalizing s with
  | nil =>
      simp only [Lib.exec, List.foldlM_nil, Option.pure_def, Option.some.injEq] at h
      exact h ▸ hs
  | cons e events ih =>
      simp only [Lib.exec, List.foldlM_cons, Option.bind_eq_bind, Option.bind_eq_some_iff] at h
      obtain ⟨m, hm, hrest⟩ := h
      exact ih (.next hs (hok _ e List.mem_cons_self) hm)
        (fun s e he => hok s e (List.mem_cons_of_mem _ he)) hrest

/-- The state a run of events leads to comes later. -/
theorem Later.exec {s s' : σ} {events : List ε} (hok : ∀ s, ∀ e ∈ events, ok s e)
    (h : Lib.exec step s events = some s') : Later step ok s s' := by
  induction events generalizing s with
  | nil =>
      simp only [Lib.exec, List.foldlM_nil, Option.pure_def, Option.some.injEq] at h
      exact h ▸ .refl
  | cons e events ih =>
      simp only [Lib.exec, List.foldlM_cons, Option.bind_eq_bind, Option.bind_eq_some_iff] at h
      obtain ⟨m, hm, hrest⟩ := h
      exact .head ⟨e, hok s e List.mem_cons_self, hm⟩
        (ih (fun s e he => hok s e (List.mem_cons_of_mem _ he)) hrest)

/-- A run passes through a state after each of its events. -/
theorem exec_append {s : σ} {events events' : List ε} :
    Lib.exec step s (events ++ events') =
      (Lib.exec step s events).bind fun m => Lib.exec step m events' := by
  rw [Lib.exec, List.foldlM_append]
  rfl

theorem exec_take {s s' : σ} {events : List ε} (h : Lib.exec step s events = some s') (n : Nat) :
    ∃ m, Lib.exec step s (events.take n) = some m := by
  rw [← List.take_append_drop n events, exec_append, Option.bind_eq_some_iff] at h
  obtain ⟨m, hm, _⟩ := h
  exact ⟨m, hm⟩

theorem exec_take_succ {s s' m : σ} {events : List ε} {e : ε} {n : Nat}
    (h : Lib.exec step s events = some s') (hm : Lib.exec step s (events.take n) = some m)
    (he : events[n]? = some e) :
    ∃ m', step m e = some m' ∧ Lib.exec step s (events.take (n + 1)) = some m' := by
  obtain ⟨m', hm'⟩ := exec_take h (n + 1)
  have hstep := hm'
  rw [List.take_add_one, he, exec_append, hm, Option.bind_some] at hstep
  rw [Lib.exec, Option.toList_some, List.foldlM_cons, Option.bind_eq_bind,
    Option.bind_eq_some_iff] at hstep
  obtain ⟨m'', hstep, heq⟩ := hstep
  cases heq
  exact ⟨m', hstep, hm'⟩

theorem Reach.execIf [∀ s e, Decidable (ok s e)] {s s' : σ} (hs : Reach init step ok s)
    {events : List ε} (h : Lib.execIf step ok s events = some s') : Reach init step ok s' := by
  induction events generalizing s with
  | nil =>
      simp only [Lib.execIf, List.foldlM_nil, Option.pure_def, Option.some.injEq] at h
      exact h ▸ hs
  | cons e events ih =>
      simp only [Lib.execIf, List.foldlM_cons, Option.bind_eq_bind, Option.bind_eq_some_iff] at h
      obtain ⟨m, hm, hrest⟩ := h
      by_cases hok : ok s e
      · rw [if_pos hok] at hm
        exact ih (.next hs hok hm) hrest
      · simp [hok] at hm

end

end Naatre.Lib
