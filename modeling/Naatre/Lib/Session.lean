import Mathlib.Data.List.Basic

/-!
A database connection that runs statements one at a time, inside a transaction
or each on its own, and can be stopped at any of them.

The statements are those of any language with a partial meaning on any state. A
transaction that does not reach its commit leaves the committed state
(`runSession_transaction`); statements outside a transaction are kept up to the
one that stopped (`runSession_statements`).
-/

namespace Naatre.Lib

/-- What can happen to a step from outside: it fails, or the process stops
before it. -/
inductive Fault
  | error
  | crash
  deriving DecidableEq, Repr

/-- The state other connections see, and that of the open transaction. -/
structure Session (σ : Type*) where
  committed : σ
  working : Option σ

inductive SessionStep (ι : Type*)
  | begin
  | run (statement : ι)
  | commit

section

variable {σ ι : Type*} (exec : σ → ι → Option σ)

/-- One step that nothing outside stops; `none` where it fails by itself. -/
def Session.apply (s : Session σ) : SessionStep ι → Option (Session σ)
  | .begin =>
      match s.working with
      | some _ => none
      | none => some { s with working := some s.committed }
  | .run statement =>
      match s.working with
      | some db => (exec db statement).map fun db => { s with working := some db }
      | none => (exec s.committed statement).map fun db => { s with committed := db }
  | .commit => s.working.map fun db => ⟨db, none⟩

/-- Runs steps in turn, the `i`-th under `faults i`; the first that fails or
stops ends the run. -/
def runSession (faults : Nat → Option Fault) :
    Nat → Session σ → List (SessionStep ι) → Session σ × Option Fault
  | _, s, [] => (s, none)
  | i, s, step :: steps =>
      match faults i with
      | some fault => (s, some fault)
      | none =>
          match s.apply exec step with
          | none => (s, some .error)
          | some s' => runSession faults (i + 1) s' steps

variable {exec} {faults : Nat → Option Fault}

theorem runSession_append {s : Session σ} {i : Nat} {steps steps' : List (SessionStep ι)} :
    runSession exec faults i s (steps ++ steps') =
      match runSession exec faults i s steps with
      | (s', none) => runSession exec faults (i + steps.length) s' steps'
      | (s', some fault) => (s', some fault) := by
  induction steps generalizing i s with
  | nil => rfl
  | cons step steps ih =>
      rw [List.cons_append, runSession, runSession]
      cases hfault : faults i with
      | some fault => rfl
      | none =>
          cases hstep : s.apply exec step with
          | none => rfl
          | some s' =>
              have hlen : i + 1 + steps.length = i + (steps.length + 1) := by omega
              simp only [ih, List.length_cons, hlen]

/-- Statements inside a transaction leave the committed state. -/
theorem runSession_working {s : Session σ} {db : σ} (hs : s.working = some db) {i : Nat}
    {statements : List ι} :
    (∃ db', statements.foldlM exec db = some db' ∧
        (∀ j < statements.length, faults (i + j) = none) ∧
        runSession exec faults i s (statements.map .run) = (⟨s.committed, some db'⟩, none)) ∨
      (statements.foldlM exec db = none ∨ ∃ j < statements.length, faults (i + j) ≠ none) ∧
        ∃ s' fault, runSession exec faults i s (statements.map .run) = (s', some fault) ∧
          s'.committed = s.committed := by
  induction statements generalizing i s db with
  | nil =>
      left
      refine ⟨db, rfl, fun j hj => absurd hj (Nat.not_lt_zero j), ?_⟩
      cases s
      cases hs
      rfl
  | cons statement statements ih =>
      rw [List.map_cons, runSession, List.foldlM_cons]
      cases hfault : faults i with
      | some fault =>
          right
          refine ⟨.inr ⟨0, Nat.zero_lt_succ _, ?_⟩, s, fault, rfl, rfl⟩
          rw [Nat.add_zero, hfault]
          exact Option.some_ne_none fault
      | none =>
          cases hexec : exec db statement with
          | none =>
              right
              refine ⟨.inl rfl, s, .error, ?_, rfl⟩
              simp only [Session.apply, hs, hexec, Option.map_none]
          | some db₁ =>
              have happly : s.apply exec (.run statement) = some { s with working := some db₁ } := by
                simp only [Session.apply, hs, hexec, Option.map_some]
              simp only [happly, Option.bind_eq_bind, Option.bind_some]
              have hshift : ∀ j, i + 1 + j = i + (j + 1) := fun j => by omega
              rcases ih (s := { s with working := some db₁ }) (i := i + 1) rfl with
                ⟨db', hfold, hclean, hrun⟩ | ⟨hstop, s', fault, hrun, hsame⟩
              · left
                refine ⟨db', hfold, fun j hj => ?_, hrun⟩
                cases j with
                | zero => exact hfault
                | succ j => exact hshift j ▸ hclean j (Nat.lt_of_succ_lt_succ hj)
              · right
                refine ⟨hstop.imp_right fun ⟨j, hj, hne⟩ => ⟨j + 1, Nat.succ_lt_succ hj, ?_⟩,
                  s', fault, hrun, hsame⟩
                exact hshift j ▸ hne

/-- The steps of one transaction. -/
def transaction (statements : List ι) : List (SessionStep ι) :=
  .begin :: statements.map .run ++ [.commit]

theorem length_transaction (statements : List ι) :
    (transaction statements).length = statements.length + 2 := by
  simp [transaction]

/-- A transaction commits as a whole where it meets no fault and each of its
statements succeeds, and leaves everything otherwise. -/
theorem runSession_transaction {db : σ} {i : Nat} {statements : List ι} :
    (∃ db', statements.foldlM exec db = some db' ∧
        (∀ j < statements.length + 2, faults (i + j) = none) ∧
        runSession exec faults i ⟨db, none⟩ (transaction statements) = (⟨db', none⟩, none)) ∨
      (statements.foldlM exec db = none ∨ ∃ j < statements.length + 2, faults (i + j) ≠ none) ∧
        ∃ s' fault,
          runSession exec faults i ⟨db, none⟩ (transaction statements) = (s', some fault) ∧
            s'.committed = db := by
  rw [transaction, List.cons_append, runSession]
  cases hfault : faults i with
  | some fault =>
      right
      refine ⟨.inr ⟨0, Nat.zero_lt_succ _, ?_⟩, _, fault, rfl, rfl⟩
      rw [Nat.add_zero, hfault]
      exact Option.some_ne_none fault
  | none =>
      simp only [Session.apply]
      rw [runSession_append, List.length_map]
      have hshift : ∀ j, i + 1 + j = i + (j + 1) := fun j => by omega
      have hworking : (⟨db, some db⟩ : Session σ).working = some db := rfl
      rcases runSession_working hworking (i := i + 1) with
        ⟨db', hfold, hclean, hrun⟩ | ⟨hstop, s', fault, hrun, hsame⟩
      · rw [hrun]
        cases hcommit : faults (i + 1 + statements.length) with
        | some fault =>
            right
            refine ⟨.inr ⟨statements.length + 1, Nat.lt_succ_self _, ?_⟩, ⟨db, some db'⟩, fault, ?_,
              rfl⟩
            · rw [← hshift, hcommit]
              exact Option.some_ne_none fault
            · simp only [runSession, hcommit]
        | none =>
            left
            refine ⟨db', hfold, fun j hj => ?_, ?_⟩
            · cases j with
              | zero => exact hfault
              | succ j =>
                  rw [← hshift]
                  rcases Nat.lt_or_ge j statements.length with hlt | hge
                  · exact hclean j hlt
                  · have hlast : j = statements.length := by omega
                    rw [hlast, hcommit]
            · simp only [runSession, hcommit, Session.apply, Option.map_some]
      · right
        rw [hrun]
        refine ⟨hstop.imp_right fun ⟨j, hj, hne⟩ => ⟨j + 1, by omega, hshift j ▸ hne⟩,
          s', fault, rfl, hsame⟩

/-- Statements outside a transaction: what ran before the stop is kept. -/
theorem runSession_statements {db : σ} {i : Nat} {statements : List ι} :
    ∃ k ≤ statements.length, ∃ db', (statements.take k).foldlM exec db = some db' ∧
      (∀ j < k, faults (i + j) = none) ∧
        (k = statements.length ∧
            runSession exec faults i ⟨db, none⟩ (statements.map .run) = (⟨db', none⟩, none) ∨
          ∃ statement, statements[k]? = some statement ∧
            ∃ fault, runSession exec faults i ⟨db, none⟩ (statements.map .run) =
                (⟨db', none⟩, some fault) ∧
              (faults (i + k) = some fault ∨
                fault = .error ∧ faults (i + k) = none ∧ exec db' statement = none)) := by
  induction statements generalizing i db with
  | nil =>
      exact ⟨0, Nat.le_refl 0, db, rfl, fun j hj => absurd hj (Nat.not_lt_zero j),
        .inl ⟨rfl, rfl⟩⟩
  | cons statement statements ih =>
      rw [List.map_cons, runSession]
      cases hfault : faults i with
      | some fault =>
          refine ⟨0, Nat.zero_le _, db, rfl, fun j hj => absurd hj (Nat.not_lt_zero j), .inr ?_⟩
          exact ⟨statement, rfl, fault, rfl, .inl (by rw [Nat.add_zero, hfault])⟩
      | none =>
          cases hexec : exec db statement with
          | none =>
              refine ⟨0, Nat.zero_le _, db, rfl, fun j hj => absurd hj (Nat.not_lt_zero j), .inr ?_⟩
              refine ⟨statement, rfl, .error, ?_, .inr ⟨rfl, ?_, hexec⟩⟩
              · simp only [Session.apply, hexec, Option.map_none]
              · rw [Nat.add_zero, hfault]
          | some db₁ =>
              have hshift : ∀ j, i + 1 + j = i + (j + 1) := fun j => by omega
              obtain ⟨k, hk, db', hfold, hclean, hend⟩ := @ih db₁ (i + 1)
              simp only [Session.apply, hexec, Option.map_some]
              refine ⟨k + 1, Nat.succ_le_succ hk, db', ?_, fun j hj => ?_, ?_⟩
              · rw [List.take_succ_cons, List.foldlM_cons, hexec]
                exact hfold
              · cases j with
                | zero => exact hfault
                | succ j => exact hshift j ▸ hclean j (Nat.lt_of_succ_lt_succ hj)
              · rcases hend with ⟨hlen, hrun⟩ | ⟨statement', hget, fault, hrun, hwhy⟩
                · exact .inl ⟨congrArg (· + 1) hlen, hrun⟩
                · exact .inr ⟨statement', hget, fault, hrun, hshift k ▸ hwhy⟩

/-- Statements outside a transaction that meet no fault and succeed. -/
theorem runSession_clean {db db' : σ} {i : Nat} {statements : List ι}
    (h : statements.foldlM exec db = some db')
    (hclean : ∀ j < statements.length, faults (i + j) = none) :
    runSession exec faults i ⟨db, none⟩ (statements.map .run) = (⟨db', none⟩, none) := by
  induction statements generalizing i db with
  | nil =>
      cases h
      rfl
  | cons statement statements ih =>
      rw [List.foldlM_cons] at h
      obtain ⟨db₁, hexec, hrest⟩ := Option.bind_eq_some_iff.mp h
      have hfault : faults i = none := hclean 0 (Nat.zero_lt_succ _)
      rw [List.map_cons, runSession, hfault]
      simp only [Session.apply, hexec, Option.map_some]
      refine ih hrest fun j hj => ?_
      have hshift : i + 1 + j = i + (j + 1) := by omega
      rw [hshift]
      exact hclean (j + 1) (Nat.succ_lt_succ hj)

end

end Naatre.Lib
