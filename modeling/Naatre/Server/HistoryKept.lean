import Naatre.Server.GcSpares
import Naatre.Server.Generation
import Naatre.Server.RefValidity

/-!
Published history. What a ref reaches once it reaches for good: moves go
forward, and no collection takes a changeset between a ref's target and its
ancestors, for each of them is named by the ref or by a child that stays.
-/

namespace Naatre

section

variable {Id : Type} [Platform Id]

/-- The ref stands and its target descends from the changeset. -/
def RefReaches (db : RepoTables Id) (name : String) (version : ℕ) (x : Id) : Prop :=
  ∃ ref target, refGet db name = some ref ∧ ref.target = some target ∧ version ≤ ref.version ∧
    Ancestor db x target

/-! ### Moves -/

/-- A write of refs moves each ref forward, whatever the others name. -/
theorem RefWritten.moves {db db' : RepoTables Id} {req : RefRequest Id} {done : RefResponse Id}
    (h : RefWritten db req done db') {name : String} {before : RefRow Id} {target : Id}
    (hbefore : refGet db name = some before) (htarget : before.target = some target) :
    ∃ after, refGet db' name = some after ∧ (after = before ∨ RefMoved db' before after) := by
  cases h with
  | created hnone hfree => exact ⟨before, refGet_append rfl hbefore, .inl rfl⟩
  | moved current hcurrent hget hcontains =>
      refine ⟨_, (refGet_map rfl (fun row => by split_ifs <;> rfl) name).trans
        (by rw [hbefore, Option.map_some]), ?_⟩
      split_ifs with hname
      · rw [(refGet_some hbefore).2] at hname
        rw [hname, hget, Option.some.injEq] at hbefore
        subst hbefore
        obtain ⟨-, hancestor⟩ := refContains_ancestor (hcontains target htarget)
        exact .inr ⟨rfl, target, req.target, htarget, rfl, hancestor.keep (.of_eq rfl)⟩
      · exact .inl rfl

/-- A forward move and the kept rows carry what the ref reached along. -/
theorem RefReaches.moved {db db' : RepoTables Id} {name : String} {version : ℕ} {x : Id}
    (h : RefReaches db name version x) (hkeeps : db.Keeps db')
    (hmoves : ∀ before target, refGet db name = some before → before.target = some target →
      ∃ after, refGet db' name = some after ∧ (after = before ∨ RefMoved db' before after)) :
    RefReaches db' name version x := by
  obtain ⟨before, target, hbefore, htarget, hversion, hx⟩ := h
  obtain ⟨after, hafter, heq | hmove⟩ := hmoves before target hbefore htarget
  · exact ⟨after, target, hafter, heq ▸ htarget, heq ▸ hversion, hx.keep hkeeps⟩
  · obtain ⟨old, new, hold, hnew, habove⟩ := hmove.target
    rw [htarget, Option.some.injEq] at hold
    refine ⟨after, new, hafter, hnew, ?_, .trans (hold ▸ habove) (hx.keep hkeeps)⟩
    rw [hmove.version]
    omega

/-! ### Collections -/

namespace Server

/-- A changeset some row of its repository names outlives a step of the
collector. -/
theorem gcStep_keeps {s : Server Id} {pass : GcPass Id} {r : RepoId}
    (hwf : TablesWf (s.dbs r)) {id : Id} (hnamed : (s.dbs r).Names id) {row : ChangesetRow Id}
    (hrow : changesetGet (s.dbs r) id = some row) :
    changesetGet ((s.gcPassStep pass).1.dbs r) id = some row := by
  obtain ⟨hmem, rfl⟩ := changesetGet_some hrow
  have hspared := gcPassStep_sparesCs s pass r row hmem fun hr => csUnreferenced_of_names hr hnamed
  exact (hwf.collected (gcPassStep_collected s pass r)).get hspared

/-- What lies below a ref's target is named: by the ref, or by a child. -/
theorem names_of_ancestor {db : RepoTables Id} {name : String} {ref : RefRow Id} {x target : Id}
    (href : refGet db name = some ref) (htarget : ref.target = some target)
    (h : Ancestor db x target) : db.Names x := by
  cases h with
  | refl => exact .ref ref (refGet_some href).1 htarget
  | tail _ hedge =>
      obtain ⟨parents, hparents, hmem⟩ := hedge
      obtain ⟨row, hrow, rfl⟩ := Option.map_eq_some_iff.mp hparents
      exact .child row (changesetGet_some hrow).1 hmem

/-- The collector leaves the walk from a ref's target as it is. -/
theorem gcStep_ancestor {s : Server Id} {pass : GcPass Id} {r : RepoId}
    (hwf : TablesWf (s.dbs r)) {name : String} {ref : RefRow Id} {x target : Id}
    (href : refGet (s.dbs r) name = some ref) (htarget : ref.target = some target)
    (h : Ancestor (s.dbs r) x target) : Ancestor ((s.gcPassStep pass).1.dbs r) x target := by
  induction h with
  | refl => exact .refl
  | tail habove hedge ih =>
      obtain ⟨parents, hparents, hmem⟩ := hedge
      obtain ⟨row, hrow, rfl⟩ := Option.map_eq_some_iff.mp hparents
      have hkept := @gcStep_keeps _ _ s pass r hwf _ (names_of_ancestor href htarget habove) _ hrow
      exact .tail ih (.of_succ (by rw [parentsOf, hkept, Option.map_some]) hmem)

theorem gcStep_refGet {s : Server Id} {pass : GcPass Id} {r : RepoId} (name : String) :
    refGet ((s.gcPassStep pass).1.dbs r) name = refGet (s.dbs r) name := by
  rw [refGet, (gcPassStep_collected s pass r).refs, refGet]

/-! ### Runs -/

/-- No step takes a changeset out of a ref's history. -/
theorem step_history {s s' : Server Id} {e : Event Id} (h : s.step e = some s') {r : RepoId}
    (hwf : TablesWf (s.dbs r)) {name : String} {version : ℕ} {x : Id} {row : ChangesetRow Id}
    (hreaches : RefReaches (s.dbs r) name version x) (hrow : changesetGet (s.dbs r) x = some row) :
    RefReaches (s'.dbs r) name version x ∧ changesetGet (s'.dbs r) x = some row := by
  by_cases hgc : e = .gcStep
  · subst hgc
    cases step_cases h with
    | refused => exact ⟨hreaches, hrow⟩
    | gcStep pass =>
        obtain ⟨ref, target, href, htarget, hversion, hx⟩ := hreaches
        exact ⟨⟨ref, target, (gcStep_refGet name).trans href, htarget, hversion,
          gcStep_ancestor hwf href htarget hx⟩,
          gcStep_keeps hwf (names_of_ancestor href htarget hx) hrow⟩
  · have hstep := step_db h r
    have hkeeps := hstep.keeps hgc
    refine ⟨hreaches.moved hkeeps fun before target hbefore htarget => ?_, hkeeps x row hrow⟩
    generalize s'.dbs r = db at hstep hkeeps
    cases hstep with
    | unchanged => exact ⟨before, hbefore, .inl rfl⟩
    | createWrite i p cx hpending hpersist =>
        obtain ⟨w⟩ := hpersist
        exact RefsMoved.of_eq (changesetInsertRows_tables w.insert_ok).1 name before hbefore
    | land cmd done cx hland => exact hland.refsMoved hwf name before hbefore
    | importGit git opts head stop cx hquiescent hrun => exact hrun.refsMoved hwf name before hbefore
    | casRef req done db hmain hredacted hwritten => exact hwritten.moves hbefore htarget
    | mark id kind =>
        obtain ⟨redactions, hmark⟩ := redactionMark_db (s.dbs r) id kind s.nowNs
        rw [hmark]
        exact RefsMoved.of_eq rfl name before hbefore
    | gcStep => exact absurd rfl hgc

/-- So no run does. -/
theorem history_later {ok : Server Id → Event Id → Prop} {s s' : Server Id} (h : Reach ok s)
    (hlater : Lib.Later step ok s s') {r : RepoId} {name : String} {version : ℕ} {x : Id}
    {row : ChangesetRow Id} (hreaches : RefReaches (s.dbs r) name version x)
    (hrow : changesetGet (s.dbs r) x = some row) :
    RefReaches (s'.dbs r) name version x ∧ changesetGet (s'.dbs r) x = some row := by
  induction hlater with
  | refl => exact ⟨hreaches, hrow⟩
  | tail hrest hstep ih =>
      obtain ⟨e, -, he⟩ := hstep
      exact step_history he (tablesWf_of_reach (h.later hrest) r) ih.1 ih.2

/-- In every run, with any collection, redaction, purge or crash in it: what a
ref once reached keeps its row and stays reachable from the ref, whose version
never falls. -/
theorem history_kept_of_reach {ok : Server Id → Event Id → Prop} {s s' : Server Id}
    (h : Reach ok s) (hlater : Lib.Later step ok s s') {r : RepoId} {name : String}
    {ref : RefRow Id} {target x : Id} {row : ChangesetRow Id}
    (href : refGet (s.dbs r) name = some ref) (htarget : ref.target = some target)
    (hx : Ancestor (s.dbs r) x target) (hrow : changesetGet (s.dbs r) x = some row) :
    RefReaches (s'.dbs r) name ref.version x ∧ changesetGet (s'.dbs r) x = some row :=
  history_later h hlater ⟨ref, target, href, htarget, le_rfl, hx⟩ hrow

end Server

end

/-! ### A collection of what was not landed -/

namespace Server.HistoryKept

open StaleTip in
/-- An import, and a create on top of it that is never landed. -/
def edited : List (Event PlainId) := create imported .mod [98, 10]

/-- A pass of the collector, from its mark to its end. -/
def pass : List (Event PlainId) := .gcStart :: List.replicate 17 .gcStep

/-- A pass that finds the create's changeset unreachable, and one after its
grace. -/
def passes : List (Event PlainId) := pass ++ .tick 20 :: pass

open StaleTip in
/-- The create landed, and another one on top of it that is not. -/
def landedEdit : List (Event PlainId) :=
  create (edited ++ [.land 1 ⟨"r", "ann", none, lastOf edited, "k", none, false, 0⟩]) .mod [99, 10]

/-- What `main` points at, and its first parent. -/
def published (s : Server PlainId) : Option (RefRow PlainId × PlainId × PlainId) :=
  (refGet (s.dbs 1) "main").bind fun ref => ref.target.bind fun target =>
    ((parentsOf (s.dbs 1) target).bind List.head?).map fun parent => (ref, target, parent)

theorem published_some {s : Server PlainId} {ref : RefRow PlainId} {target parent : PlainId}
    (h : published s = some (ref, target, parent)) :
    refGet (s.dbs 1) "main" = some ref ∧ ref.target = some target ∧
      Ancestor (s.dbs 1) parent target := by
  simp only [published, Option.bind_eq_some_iff, Option.map_eq_some_iff, Prod.mk.injEq] at h
  obtain ⟨ref', href, target', htarget, parent', ⟨parents, hparents, hhead⟩, rfl, rfl, rfl⟩ := h
  exact ⟨href, htarget, .tail .refl (.of_succ hparents (List.mem_of_head? hhead))⟩

end Server.HistoryKept

namespace Server

open HistoryKept in
/-- The passes take the changeset that was not landed, and leave `main` and what
lies below it. -/
theorem history_kept_of_reach_collected : ∃ s s' ref target parent row,
    Lib.exec step StaleTip.start landedEdit = some s ∧ Lib.exec step s passes = some s' ∧
      refGet (s.dbs 1) "main" = some ref ∧ ref.target = some target ∧ parent ≠ target ∧
      changesetGet (s.dbs 1) parent = some row ∧
      (s.dbs 1).changesets.length = 3 ∧ (s'.dbs 1).changesets.length = 2 ∧
      RefReaches (s'.dbs 1) "main" ref.version parent ∧
      changesetGet (s'.dbs 1) parent = some row := by
  have hrun : (Lib.exec step StaleTip.start landedEdit).any (fun s =>
      (Lib.exec step s passes).any (fun s' =>
        decide ((s.dbs 1).changesets.length = 3) && decide ((s'.dbs 1).changesets.length = 2)) &&
      (published s).any (fun p => decide (p.2.2 ≠ p.2.1) &&
        (changesetGet (s.dbs 1) p.2.2).isSome)) = true := by
    decide +kernel
  obtain ⟨s, hs, hboth⟩ := (Option.any_eq_true _ _).mp hrun
  rw [Bool.and_eq_true] at hboth
  obtain ⟨s', hs', hlengths⟩ := (Option.any_eq_true _ _).mp hboth.1
  obtain ⟨p, hpublished, hsome⟩ := (Option.any_eq_true _ _).mp hboth.2
  obtain ⟨ref, target, parent⟩ := p
  simp only [Bool.and_eq_true, decide_eq_true_eq] at hlengths hsome
  obtain ⟨row, hrow⟩ := Option.isSome_iff_exists.mp hsome.2
  obtain ⟨href, htarget, hbelow⟩ := published_some hpublished
  have hstart : Init StaleTip.start := ⟨.dbPerRepo, [(1, "r")], 100, 10, by decide, rfl⟩
  have hreach : Reach (fun _ _ => True) s := Lib.Reach.exec (.start hstart) (by simp) hs
  have hlater : Lib.Later step (fun _ _ => True) s s' := Lib.Later.exec (by simp) hs'
  obtain ⟨hkept, hsame⟩ := history_kept_of_reach hreach hlater href htarget hbelow hrow
  exact ⟨s, s', ref, target, parent, row, hs, hs', href, htarget, hsome.1, hrow, hlengths.1,
    hlengths.2, hkept, hsame⟩

end Server

end Naatre
