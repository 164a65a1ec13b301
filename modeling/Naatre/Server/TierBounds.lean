import Naatre.Lib.Along
import Naatre.Server.TierHonesty

/-!
The bounds of the tier's membership map (`cache_tier.rs`): how many snapshots it
holds, and how old one is that a request is answered from. The map is bounded in
front of an insert, and a hit does not pass the bound at all.
-/

namespace Naatre

section

variable {Id : Type} [Platform Id]

/-- The walk is younger than the bound on a snapshot's age. -/
def MembershipSnapshot.young (snap : MembershipSnapshot Id) (nowNs : ℕ) : Bool :=
  decide (nowNs - snap.fetchedNs < membershipTtlNs)

/-- The snapshot a request's next step decides its scope by. -/
def TierRequest.answersFrom (membership : MembershipMap Id) (q : TierRequest Id) :
    Option (MembershipSnapshot Id) :=
  match q.pc with
  | .insert snap _ => some snap
  | .compare _ => membership.lookup q.key
  | _ => none

/-- A request about to put a walk in leaves fewer than the cap under other keys,
and what it answers from is young. -/
def TierRequest.Guarded (tier : Tier Id) (turn : Turn Id) (q : TierRequest Id) : Prop :=
  match q.pc with
  | .insert snap _ => turn.iter.isPerm tier.membership = true →
      (tier.membership.filter fun e => e.2.young tier.nowNs && decide (e.1 ≠ q.key)).length <
          membershipMaxEntries ∧
        snap.young tier.nowNs = true
  | .compare _ => ∀ snap, tier.membership.lookup q.key = some snap → snap.young tier.nowNs = true
  | _ => True

namespace Net

/-- The map is within its cap after the step, and what the step answers from is
young. -/
def Bounded (n : Net Id) (e : NetEvent Id) : Prop :=
  ∀ n', n.step e = some n' → n'.tier.membership.length ≤ membershipMaxEntries ∧
    ∀ i turn q snap, e = .step i turn → n.requests[i]? = some q →
      q.answersFrom n.tier.membership = some snap → snap.young n.tier.nowNs = true

/-- The condition on a step. -/
def Guarded (n : Net Id) (e : NetEvent Id) : Prop :=
  ∀ i turn q, e = .step i turn → n.requests[i]? = some q → q.Guarded n.tier turn

end Net

/-! ### One step -/

/-- While the map is within its cap, bounding it drops the old walks only. -/
theorem boundMembership_within {map : MembershipMap Id} {nowNs cap : ℕ} (h : map.length ≤ cap) :
    boundMembership map nowNs cap = map.filter fun e => e.2.young nowNs :=
  if_pos ((List.length_filter_le _ _).trans h)

/-- The size of the map behind an insert. -/
theorem length_insert_bounded {tier : Tier Id} {turn : Turn Id}
    (hperm : turn.iter.isPerm tier.membership = true)
    (hlength : tier.membership.length ≤ membershipMaxEntries) (key : String × Id)
    (snap : MembershipSnapshot Id) :
    (mapInsert (boundMembership turn.iter tier.nowNs membershipMaxEntries) key snap).length =
      (tier.membership.filter fun e => e.2.young tier.nowNs && decide (e.1 ≠ key)).length + 1 := by
  have hiter : turn.iter.Perm tier.membership := List.isPerm_iff.mp hperm
  rw [boundMembership_within (hiter.length_eq.le.trans hlength), mapInsert, List.length_append,
    List.length_singleton, List.filter_filter, (hiter.filter _).length_eq]
  simp only [Bool.and_comm]

/-- A step of a request leaves the map alone, or puts a walk in. -/
theorem advance_membership {s : Server Id} {tier tier' : Tier Id} {q q' : TierRequest Id}
    {turn : Turn Id} (h : q.advance s tier turn = some (tier', q')) :
    (∃ snap delegate, q.pc = .insert snap delegate ∧
      turn.iter.isPerm tier.membership = true ∧ tier'.membership =
        mapInsert (boundMembership turn.iter tier.nowNs membershipMaxEntries) q.key snap) ∨
      (∀ snap delegate, q.pc ≠ .insert snap delegate) ∧ tier'.membership = tier.membership := by
  unfold TierRequest.advance at h
  cases hpc : q.pc with
  | insert snap delegate =>
      rw [hpc] at h
      simp only at h
      by_cases hperm : turn.iter.isPerm tier.membership = true
      · rw [if_pos hperm] at h
        cases h
        exact .inl ⟨snap, delegate, rfl, hperm, rfl⟩
      · rw [if_neg hperm] at h
        cases h
  | _ =>
      refine .inr ⟨fun snap delegate hinsert => (nomatch hinsert), ?_⟩
      rw [hpc] at h
      simp only at h
      first
      | cases h
        rfl
      | cases h
      | split at h <;> cases h <;> rfl

namespace Net

theorem bounded_iff {n : Net Id} (hlength : n.tier.membership.length ≤ membershipMaxEntries)
    (e : NetEvent Id) : n.Bounded e ↔ n.Guarded e := by
  constructor
  · rintro h i turn q rfl hq
    unfold TierRequest.Guarded
    split
    next snap delegate hpc =>
      intro hperm
      obtain ⟨n', hn', hlen⟩ : ∃ n', n.step (.step i turn) = some n' ∧ n'.tier.membership =
          mapInsert (boundMembership turn.iter n.tier.nowNs membershipMaxEntries) q.key snap := by
        simp only [step, requestStep, hq, Option.bind_eq_bind, Option.bind_some,
          TierRequest.advance, hpc, if_pos hperm]
        exact ⟨_, rfl, rfl⟩
      obtain ⟨hcap, hyoung⟩ := h n' hn'
      rw [hlen, length_insert_bounded hperm hlength] at hcap
      exact ⟨hcap, hyoung i turn q snap rfl hq (by rw [TierRequest.answersFrom, hpc])⟩
    next recorded hpc =>
      intro snap hsnap
      obtain ⟨n', hn'⟩ : ∃ n', n.step (.step i turn) = some n' := by
        simp only [step, requestStep, hq, Option.bind_eq_bind, Option.bind_some,
          TierRequest.advance, hpc]
        exact ⟨_, rfl⟩
      exact (h n' hn').2 i turn q snap rfl hq (by rw [TierRequest.answersFrom, hpc]; exact hsnap)
    next => trivial
  · intro h n' hn'
    cases e with
    | origin e =>
        obtain ⟨s, -, rfl⟩ := Option.map_eq_some_iff.mp hn'
        exact ⟨hlength, fun _ _ _ _ he => by cases he⟩
    | tick ns =>
        cases hn'
        exact ⟨hlength, fun _ _ _ _ he => by cases he⟩
    | start t id =>
        obtain rfl := Option.some.inj hn'
        refine ⟨?_, fun _ _ _ _ he => by cases he⟩
        unfold startStep
        split <;> exact hlength
    | restart =>
        cases hn'
        exact ⟨Nat.zero_le _, fun _ _ _ _ he => by cases he⟩
    | step i turn =>
        simp only [step, requestStep, Option.bind_eq_bind, Option.bind_eq_some_iff] at hn'
        obtain ⟨q, hq, ⟨tier, q'⟩, hadvance, hn'⟩ := hn'
        cases hn'
        have hguarded := h i turn q rfl hq
        unfold TierRequest.Guarded at hguarded
        rcases advance_membership hadvance with
          ⟨snap, delegate, hpc, hperm, hmembership⟩ | ⟨hother, hmembership⟩
        · rw [hpc] at hguarded
          obtain ⟨hroom, hyoung⟩ := hguarded hperm
          constructor
          · rw [hmembership, length_insert_bounded hperm hlength]
            exact hroom
          · rintro j turn' r snap' ⟨rfl, rfl⟩ hr hfrom
            cases hq.symm.trans hr
            rw [TierRequest.answersFrom, hpc] at hfrom
            cases hfrom
            exact hyoung
        · refine ⟨hmembership ▸ hlength, ?_⟩
          rintro j turn' r snap' ⟨rfl, rfl⟩ hr hfrom
          cases hq.symm.trans hr
          unfold TierRequest.answersFrom at hfrom
          split at hfrom
          next snap delegate hpc => exact absurd hpc (hother snap delegate)
          next recorded hpc =>
            rw [hpc] at hguarded
            exact hguarded snap' hfrom
          next => cases hfrom

/-- In every run the map stays within its cap and every request is answered
from a young walk exactly when every insert finds room and every answer is young. -/
theorem membership_bounded_iff {n : Net Id} (hinit : n.Init) (events : List (NetEvent Id)) :
    Lib.Along step Bounded n events ↔ Lib.Along step Guarded n events := by
  refine Lib.Along.iff (I := fun n => n.tier.membership.length ≤ membershipMaxEntries)
    (fun n e hn => bounded_iff hn e) (fun n e n' hn hguarded hn' => ?_) ?_
  · exact ((bounded_iff hn e).mpr hguarded n' hn').1
  · rw [hinit.2.1]
    exact Nat.zero_le _

/-- The step finds its insert room and its walk young. -/
def checks (n : Net Id) : NetEvent Id → Bool
  | .step i turn => (n.requests[i]?).all fun q =>
      match q.pc with
      | .insert snap _ => !turn.iter.isPerm n.tier.membership ||
          (decide ((n.tier.membership.filter fun e => e.2.young n.tier.nowNs &&
            decide (e.1 ≠ q.key)).length < membershipMaxEntries) && snap.young n.tier.nowNs)
      | .compare _ => (n.tier.membership.lookup q.key).all fun snap => snap.young n.tier.nowNs
      | _ => true
  | _ => true

theorem guarded_of_checks {n : Net Id} {e : NetEvent Id} (h : n.checks e = true) :
    n.Guarded e := by
  rintro i turn q rfl hq
  simp only [checks, hq, Option.all_some] at h
  unfold TierRequest.Guarded
  split at h
  next snap delegate hpc =>
    intro hperm
    rw [hperm] at h
    simpa using h
  next recorded hpc =>
    intro snap hsnap
    rwa [hsnap, Option.all_some] at h
  next => trivial

/-- The request is about to answer from a walk that is old. -/
def comparesOld (n : Net Id) (i : ℕ) : Bool :=
  (n.requests[i]?).any fun q =>
    match q.pc with
    | .compare _ =>
        (n.tier.membership.lookup q.key).any fun snap => !snap.young n.tier.nowNs
    | _ => false

theorem not_guarded_of_comparesOld {n : Net Id} {i : ℕ} (h : n.comparesOld i = true)
    (turn : Turn Id) : ¬ n.Guarded (.step i turn) := by
  intro hguarded
  obtain ⟨q, hq, hold⟩ := (Option.any_eq_true _ _).mp h
  have hyoung := hguarded i turn q rfl hq
  unfold TierRequest.Guarded at hyoung
  split at hold
  next recorded hpc =>
    rw [hpc] at hyoung
    obtain ⟨snap, hsnap, hold⟩ := (Option.any_eq_true _ _).mp hold
    rw [hyoung snap hsnap] at hold
    cases hold
  next => cases hold

end Net

end

namespace Net

open OlderWalk

/-- Two requests a moment apart stay within the bounds. -/
theorem membership_bounded_iff_fresh : Lib.Along step Bounded OlderWalk.start fresh := by
  have hrun : (Lib.execIf step (fun n e => n.checks e = true) OlderWalk.start fresh).isSome := by
    decide +kernel
  obtain ⟨n, hn⟩ := Option.isSome_iff_exists.mp hrun
  refine (membership_bounded_iff ⟨⟨.singleDb, [(1, "r")], 100, 10, by decide, rfl⟩, rfl, rfl⟩
    fresh).mpr ?_
  exact Lib.Along.of_execIf (fun _ _ => guarded_of_checks) hn

/-- One request walks the tree and serves the blob; an hour later another one
finds that walk and reads its epoch. -/
def anHour : List (NetEvent PlainId) :=
  stored ++ [.start (ticket root 100) blob, go 0 [], go 0 [], go 0 [], go 0 [], go 0 [], go 0 [],
    .tick membershipTtlNs, .origin (.tick membershipTtlNs),
    .start (ticket root (100 + membershipTtlNs)) blob, go 1 [], go 1 [], go 1 []]

/-- The walk an hour old answers, whatever the epoch says. -/
theorem old_walk_answers : ¬ Lib.Along step Bounded OlderWalk.start (anHour ++ [go 1 []]) := by
  intro h
  have hrun : (Lib.exec step OlderWalk.start anHour).any (fun n =>
      decide (n.tier.membership.length ≤ membershipMaxEntries) && n.comparesOld 1) = true := by
    decide +kernel
  obtain ⟨n, hn, hold⟩ := (Option.any_eq_true _ _).mp hrun
  obtain ⟨hlength, hold⟩ := Bool.and_eq_true_iff.mp hold
  exact not_guarded_of_comparesOld hold _
    ((bounded_iff (of_decide_eq_true hlength) _).mp (h.step_at hn))

end Net

end Naatre
