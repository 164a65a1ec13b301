import Naatre.Lib.Run
import Naatre.Server.DeriveSteps

/-!
Poison in the derive queue, over whole runs.

`derive_fail_attempt` sets its row without looking at its state. A failed
attempt that is recorded late therefore undoes whatever was written to the row
since the lease, a redaction mark's poison among it.
-/

namespace Naatre

namespace DeriveQueue

section

variable {Id : Type} [DecidableEq Id]

/-- What poison needs of a step: a failed attempt that is not its row's last is
recorded while the row is not poisoned and no other worker holds a lease on it
that has not run out. -/
def FailsInTime (q : DeriveQueue Id) : QueueEvent Id → Prop
  | .record i => ∀ w ∈ q.workers[i]?, w.fails = true →
      ∀ row ∈ deriveGet q.tables.rows w.key, row.attempts + 1 ≠ deriveMaxAttempts →
        row.state ≠ .poison ∧
          ∀ l ∈ held (q.workers.eraseIdx i), l.1 = w.key → l.2 < q.nowNs
  | _ => True

instance (q : DeriveQueue Id) : ∀ e, Decidable (FailsInTime q e)
  | .record i => inferInstanceAs (Decidable (∀ w ∈ q.workers[i]?, w.fails = true →
      ∀ row ∈ deriveGet q.tables.rows w.key, row.attempts + 1 ≠ deriveMaxAttempts →
        row.state ≠ .poison ∧
          ∀ l ∈ held (q.workers.eraseIdx i), l.1 = w.key → l.2 < q.nowNs))
  | .tick _ | .create _ _ | .backfill _ _ _ | .mark _ _ | .sweep _ | .pick _ _ | .lease _
  | .derive _ _ | .busy _ | .release _ | .drop _ | .crash => isTrue trivial

/-- The states of the runs whose failed attempts are all recorded in time. -/
abbrev Reach : DeriveQueue Id → Prop := Lib.Reach Init step FailsInTime

structure QueueInv (q : DeriveQueue Id) : Prop where
  wf : RowsWf q.tables
  /-- a leased key has its row -/
  rowed : ∀ key expires, (key, expires) ∈ held q.workers →
    ∃ row, deriveGet q.tables.rows key = some row
  attempts : ∀ key row, deriveGet q.tables.rows key = some row →
    row.attempts ≤ deriveMaxAttempts ∧ (row.state ≠ .poison → row.attempts < deriveMaxAttempts)
  /-- nobody can lease the row of an unexpired lease -/
  own : ∀ key expires, (key, expires) ∈ held q.workers → q.nowNs ≤ expires →
    ∃ row, deriveGet q.tables.rows key = some row ∧
      (row.state = .deriving ∧ row.leaseExpiresNs = some expires ∨ row.state = .done ∨
        row.state = .poison)
  single : (held q.workers).Pairwise fun a b =>
    ¬ (a.1 = b.1 ∧ q.nowNs ≤ a.2 ∧ q.nowNs ≤ b.2)

theorem step_now {q q' : DeriveQueue Id} {e : QueueEvent Id} (h : q.step e = some q') :
    q.nowNs ≤ q'.nowNs := by
  cases e with
  | tick ns => cases h; exact Nat.le_add_right _ _
  | create node kinds =>
      rw [step] at h
      split_ifs at h with hguard
      obtain ⟨t, -, rfl⟩ := Option.map_eq_some_iff.mp h
      exact le_rfl
  | pick repoId kind =>
      obtain ⟨next, -, rfl⟩ := Option.map_eq_some_iff.mp h
      exact le_rfl
  | lease i => cases step_worker rfl h <;> exact le_rfl
  | derive i outcome => cases step_worker rfl h; exact le_rfl
  | record i => cases step_worker rfl h; exact le_rfl
  | busy i => cases step_worker rfl h; exact le_rfl
  | release i => cases step_worker rfl h; exact le_rfl
  | backfill kind cursor limit => cases h; exact le_rfl
  | mark repoId cs => cases h; exact le_rfl
  | sweep kind => cases h; exact le_rfl
  | drop i => cases h; exact le_rfl
  | crash => cases h; exact le_rfl

omit [DecidableEq Id] in
/-- The last failed attempt poisons its row. -/
theorem failedRow_last {row : DeriveRow Id} (h : row.attempts + 1 = deriveMaxAttempts) :
    (failedRow row).state = .poison := if_pos h.ge

theorem RowStep.attempts {q : DeriveQueue Id} {key : DeriveKey Id} {e : QueueEvent Id}
    {old new : Option (DeriveRow Id)} (h : RowStep q key e old new) (hok : FailsInTime q e)
    (hget : deriveGet q.tables.rows key = old)
    (hold : ∀ row, old = some row → row.attempts ≤ deriveMaxAttempts ∧
      (row.state ≠ .poison → row.attempts < deriveMaxAttempts))
    {row : DeriveRow Id} (hrow : new = some row) :
    row.attempts ≤ deriveMaxAttempts ∧
      (row.state ≠ .poison → row.attempts < deriveMaxAttempts) := by
  -- a failed attempt on a row that was still below the bound
  have hfailed : ∀ old : DeriveRow Id, old.attempts < deriveMaxAttempts →
      (failedRow old).attempts ≤ deriveMaxAttempts ∧
        ((failedRow old).state ≠ .poison → (failedRow old).attempts < deriveMaxAttempts) := by
    intro old hlt
    refine ⟨hlt, fun hstate => ?_⟩
    by_contra hcap
    exact hstate (if_pos (Nat.le_of_not_lt hcap))
  cases h with
  | kept => exact hold row hrow
  | fresh e new hfresh =>
      cases hrow
      have hmax : 1 < deriveMaxAttempts := by decide
      exact ⟨hfresh.attempts.trans hmax.le, fun _ => hfresh.attempts.trans_lt hmax⟩
  | leased i old hworker hpending =>
      cases hrow
      have hlt := (hold old rfl).2 (by rw [hpending]; exact DeriveState.noConfusion)
      exact ⟨hlt.le, fun _ => hlt⟩
  | released i expires old hworker hstate hlease =>
      cases hrow
      have hlt := (hold old rfl).2 (by rw [hstate]; exact DeriveState.noConfusion)
      exact ⟨hlt.le, fun _ => hlt⟩
  | done e old new hstate hdone hattempts =>
      cases hrow
      have hlt := (hold old rfl).2 (by rw [hstate]; exact DeriveState.noConfusion)
      rw [hattempts]
      exact ⟨hlt.le, fun _ => hlt⟩
  | poisoned e old =>
      cases hrow
      exact ⟨(hold old rfl).1, fun hstate => absurd rfl hstate⟩
  | failed i expires outcome taint old hworker hfails =>
      cases hrow
      by_cases hlast : old.attempts + 1 = deriveMaxAttempts
      · exact hfailed old (by omega)
      · have hstate := (hok _ hworker hfails old hget hlast).1
        exact hfailed old ((hold old rfl).2 hstate)
  | swept kind expires old hstate hlease hexpired =>
      cases hrow
      exact hfailed old ((hold old rfl).2 (by rw [hstate]; exact DeriveState.noConfusion))

/-- A poisoned row stays poisoned, unless a failed attempt comes late. -/
theorem RowStep.poison {q : DeriveQueue Id} {key : DeriveKey Id} {e : QueueEvent Id}
    {row : DeriveRow Id} {new : Option (DeriveRow Id)} (h : RowStep q key e (some row) new)
    (hok : FailsInTime q e) (hget : deriveGet q.tables.rows key = some row)
    (hpoison : row.state = .poison) : ∃ row', new = some row' ∧ row'.state = .poison := by
  cases h with
  | kept => exact ⟨row, rfl, hpoison⟩
  | poisoned => exact ⟨_, rfl, rfl⟩
  | failed i expires outcome taint row hworker hfails =>
      refine ⟨_, rfl, failedRow_last ?_⟩
      by_contra hlast
      exact (hok _ hworker hfails row hget hlast).1 hpoison
  | leased i row hworker hpending =>
      rw [hpoison] at hpending
      cases hpending
  | released i expires row hworker hstate hlease =>
      rw [hpoison] at hstate
      cases hstate
  | done e row row' hstate hdone hattempts =>
      rw [hpoison] at hstate
      cases hstate
  | swept kind expires row hstate hlease hexpired =>
      rw [hpoison] at hstate
      cases hstate

/-- The row under an unexpired lease stays out of reach of other workers. -/
theorem RowStep.own {q q' : DeriveQueue Id} {key : DeriveKey Id} {e : QueueEvent Id}
    {row : DeriveRow Id} {new : Option (DeriveRow Id)} {expires : ℕ}
    (h : RowStep q key e (some row) new) (hinv : QueueInv q) (hok : FailsInTime q e)
    (hstep : q.step e = some q') (hget : deriveGet q.tables.rows key = some row)
    (hheld : (key, expires) ∈ held q'.workers) (hin : (key, expires) ∈ held q.workers) (hnow : q.nowNs ≤ expires)
    (hown : row.state = .deriving ∧ row.leaseExpiresNs = some expires ∨ row.state = .done ∨
      row.state = .poison) :
    ∃ row', new = some row' ∧ (row'.state = .deriving ∧ row'.leaseExpiresNs = some expires ∨
      row'.state = .done ∨ row'.state = .poison) := by
  cases h with
  | kept => exact ⟨row, rfl, hown⟩
  | poisoned => exact ⟨_, rfl, .inr (.inr rfl)⟩
  | done e row row' hstate hdone hattempts => exact ⟨row', rfl, .inr (.inl hdone)⟩
  | leased i row hworker hpending =>
      rw [hpending] at hown
      simp at hown
  | failed i expires' outcome taint row hworker hfails =>
      by_cases hlast : row.attempts + 1 = deriveMaxAttempts
      · exact ⟨_, rfl, .inr (.inr (failedRow_last hlast))⟩
      · -- the failing worker let go of its lease: this one is another's
        cases step_worker rfl hstep with
        | recorded i key' expires'' outcome' taint' hworker' =>
            have hlate := (hok _ hworker hfails row hget hlast).2 _ hheld rfl
            exact absurd hnow (Nat.not_le.mpr hlate)
  | swept kind expires' row hstate hlease hexpired =>
      rw [hstate, hlease] at hown
      simp only [true_and, Option.some.injEq, reduceCtorEq, or_false] at hown
      omega
  | released i expires' row hworker hstate hlease =>
      rw [hstate, hlease] at hown
      simp only [true_and, Option.some.injEq, reduceCtorEq, or_false] at hown
      subst hown
      -- the releasing worker held the same lease
      cases step_worker rfl hstep with
      | released i key' expires'' hworker' =>
          obtain ⟨hsplit, herase, -⟩ := held_split hworker
          have hsingle := hinv.single
          rw [hsplit] at hsingle
          simp only [held, List.filterMap_append, List.filterMap_cons, Worker.lease,
            Option.map_some] at hsingle
          rw [List.pairwise_middle (fun {x y} hxy hyx => hxy ⟨hyx.1.symm, hyx.2.2, hyx.2.1⟩),
            List.pairwise_cons] at hsingle
          simp only [herase, held, List.filterMap_append] at hheld
          exact absurd ⟨rfl, hnow, hnow⟩ (hsingle.1 _ hheld)

theorem QueueInv.step {q q' : DeriveQueue Id} {e : QueueEvent Id} (hinv : QueueInv q)
    (hok : FailsInTime q e) (h : q.step e = some q') : QueueInv q' := by
  have hrow := step_row hinv.wf h
  have hnow := step_now h
  have hrowed : ∀ key expires, (key, expires) ∈ held q.workers →
      ∃ row, deriveGet q'.tables.rows key = some row := by
    intro key expires hmem
    obtain ⟨row, hget⟩ := hinv.rowed key expires hmem
    exact (hget ▸ hrow key).stays
  have hmine : ∀ key expires, (key, expires) ∈ held q'.workers → (key, expires) ∈ held q.workers →
      q'.nowNs ≤ expires → ∃ row, deriveGet q'.tables.rows key = some row ∧
        (row.state = .deriving ∧ row.leaseExpiresNs = some expires ∨ row.state = .done ∨
          row.state = .poison) := by
    intro key expires hheld hin hle
    obtain ⟨row, hget, hown⟩ := hinv.own key expires hin (hnow.trans hle)
    have hstep := hrow key
    rw [hget] at hstep
    exact hstep.own hinv hok h hget hheld hin (hnow.trans hle) hown
  have hkept : (held q.workers).Pairwise fun a b =>
      ¬ (a.1 = b.1 ∧ q'.nowNs ≤ a.2 ∧ q'.nowNs ≤ b.2) :=
    hinv.single.imp fun hab hlater => hab ⟨hlater.1, hnow.trans hlater.2.1, hnow.trans hlater.2.2⟩
  have hattempts : ∀ key row, deriveGet q'.tables.rows key = some row →
      row.attempts ≤ deriveMaxAttempts ∧
        (row.state ≠ .poison → row.attempts < deriveMaxAttempts) :=
    fun key row hget => (hrow key).attempts hok rfl (hinv.attempts key) hget
  have hwf := step_wf hinv.wf hinv.rowed h
  rcases step_held h with hsub | ⟨i, key, rfl, hpicked, hsame, ⟨old, hold, hpending⟩,
    ⟨row, hget, hstate, hlease⟩, hperm⟩
  · exact ⟨hwf, fun key expires hmem => hrowed key expires (hsub.subset hmem), hattempts,
      fun key expires hmem hle => hmine key expires hmem (hsub.subset hmem) hle,
      hkept.sublist hsub⟩
  · have hmem {k : DeriveKey Id} {expires : ℕ} (hin : (k, expires) ∈ held q'.workers) :
        k = key ∧ expires = q.nowNs + q.leaseNs ∨ (k, expires) ∈ held q.workers := by
      rcases List.mem_cons.mp (hperm.mem_iff.mp hin) with heq | hin
      · exact .inl (Prod.mk.inj heq)
      · exact .inr hin
    refine ⟨hwf, fun k expires hin => ?_, hattempts, fun k expires hin hle => ?_, ?_⟩
    · rcases hmem hin with ⟨rfl, -⟩ | hin
      · exact ⟨row, hget⟩
      · exact hrowed k expires hin
    · rcases hmem hin with ⟨rfl, rfl⟩ | hin'
      · exact ⟨row, hget, .inl ⟨hstate, hlease⟩⟩
      · exact hmine k expires hin hin' hle
    · -- the row was pending, so no unexpired lease on it was in hand
      refine hperm.symm.pairwise (List.pairwise_cons.mpr ⟨?_, hkept⟩)
        fun {x y} hxy hyx => hxy ⟨hyx.1.symm, hyx.2.2, hyx.2.1⟩
      rintro ⟨k, expires⟩ hin ⟨hk, -, hle⟩
      obtain ⟨row', hget', hown⟩ := hinv.own k expires hin (hnow.trans hle)
      rw [← show key = k from hk, hold] at hget'
      cases hget'
      rw [hpending] at hown
      simp at hown

theorem QueueInv.init (nowNs leaseNs : ℕ) :
    QueueInv (⟨nowNs, leaseNs, ⟨[], [], []⟩, []⟩ : DeriveQueue Id) where
  wf := ⟨List.nodup_nil, fun _ _ hget => nomatch hget⟩
  rowed := fun _ _ hin => nomatch hin
  attempts := fun _ _ hget => nomatch hget
  own := fun _ _ hin => nomatch hin
  single := .nil

theorem QueueInv.single_length {q : DeriveQueue Id} (hinv : QueueInv q) (key : DeriveKey Id) :
    ((held q.workers).filter fun l =>
      decide (l.1 = key) && decide (q.nowNs ≤ l.2)).length ≤ 1 := by
  have hsingle := hinv.single.filter fun l => decide (l.1 = key) && decide (q.nowNs ≤ l.2)
  match h : (held q.workers).filter fun l => decide (l.1 = key) && decide (q.nowNs ≤ l.2) with
  | [] => rw [h]; exact Nat.zero_le 1
  | [l] => rw [h]; exact le_rfl
  | a :: b :: rest =>
      have hin : ∀ l ∈ a :: b :: rest, l.1 = key ∧ q.nowNs ≤ l.2 := by
        intro l hl
        rw [← h, List.mem_filter] at hl
        simpa using hl.2
      have ha := hin a List.mem_cons_self
      have hb := hin b (List.mem_cons_of_mem a List.mem_cons_self)
      rw [h, List.pairwise_cons] at hsingle
      exact absurd ⟨ha.1.trans hb.1.symm, ha.2, hb.2⟩ (hsingle.1 b List.mem_cons_self)

/-- In a run whose failed attempts are all recorded in time: no key has two
unexpired leases, the failed attempts of a row stay below the bound until it
is poisoned, and a poisoned row is poisoned in every later state. -/
theorem poison_terminal_of_reach {q : DeriveQueue Id} (h : Reach q) :
    (∀ key, ((held q.workers).filter fun l =>
        decide (l.1 = key) && decide (q.nowNs ≤ l.2)).length ≤ 1) ∧
      (∀ key row, deriveGet q.tables.rows key = some row → row.attempts ≤ deriveMaxAttempts ∧
        (row.state ≠ .poison → row.attempts < deriveMaxAttempts)) ∧
      ∀ q', Lib.Later step FailsInTime q q' → ∀ key row,
        deriveGet q.tables.rows key = some row → row.state = .poison →
        ∃ row', deriveGet q'.tables.rows key = some row' ∧ row'.state = .poison := by
  have hinv {q : DeriveQueue Id} (h : Reach q) : QueueInv q := by
    refine Lib.Reach.invariant ?_ (fun s e s' _ hinv hok he => hinv.step hok he) h
    rintro s ⟨nowNs, leaseNs, rfl⟩
    exact .init nowNs leaseNs
  refine ⟨fun key => ?_, (hinv h).attempts, fun q' hlater key row hget hpoison => ?_⟩
  · exact (hinv h).single_length key
  · induction hlater with
    | refl => exact ⟨row, hget, hpoison⟩
    | @tail mid last hmid hstep ih =>
        obtain ⟨e, hok, he⟩ := hstep
        obtain ⟨row', hget', hpoison'⟩ := ih
        have hrow := step_row (hinv (h.later hmid)).wf he key
        rw [hget'] at hrow
        exact hrow.poison hok hget' hpoison'

end

/-! ### A mark between a failed call and its record -/

/-- A changeset in the queue of one kind, and a worker whose call just failed. -/
def failing : List (QueueEvent ℕ) :=
  [.create ⟨1, 7, 0, []⟩ [(0, none)], .pick 1 0, .lease 0, .derive 0 (.fail "no such tree")]

def queued : DeriveKey ℕ := ⟨0, 1, 7⟩

/-- The failed attempt is recorded and the changeset marked afterwards. -/
theorem poison_terminal_of_reach_marked :
    ∃ q, Lib.execIf step FailsInTime ⟨0, 10, ⟨[], [], []⟩, []⟩
        (failing ++ [.record 0, .mark 1 7]) = some q ∧
      (∀ key, ((held q.workers).filter fun l =>
          decide (l.1 = key) && decide (q.nowNs ≤ l.2)).length ≤ 1) ∧
      (∀ key row, deriveGet q.tables.rows key = some row → row.attempts ≤ deriveMaxAttempts ∧
        (row.state ≠ .poison → row.attempts < deriveMaxAttempts)) ∧
      ∀ q', Lib.Later step FailsInTime q q' → ∀ key row,
        deriveGet q.tables.rows key = some row → row.state = .poison →
        ∃ row', deriveGet q'.tables.rows key = some row' ∧ row'.state = .poison := by
  obtain ⟨q, hq⟩ := Option.isSome_iff_exists.mp
    (show (Lib.execIf step FailsInTime ⟨0, 10, ⟨[], [], []⟩, []⟩
      (failing ++ [.record 0, .mark 1 7])).isSome by decide +kernel)
  exact ⟨q, hq, poison_terminal_of_reach (Lib.Reach.execIf (.start ⟨0, 10, rfl⟩) hq)⟩

/-- The changeset is marked before the failed attempt is recorded: its row is
poisoned, and the record makes it pending again. -/
theorem late_failure_revives :
    ∃ q q', Lib.exec step ⟨0, 10, ⟨[], [], []⟩, []⟩ (failing ++ [.mark 1 7]) = some q ∧
      q.step (.record 0) = some q' ∧
      (deriveGet q.tables.rows queued).map (·.state) = some .poison ∧
      (deriveGet q'.tables.rows queued).map (·.state) = some .pending := by
  refine ⟨_, _, rfl, rfl, ?_, ?_⟩
  · decide +kernel
  · decide +kernel

end DeriveQueue

end Naatre
