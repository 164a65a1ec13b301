import Naatre.Core.Plain
import Naatre.Server.LandChain

/-!
Refs: what their targets name, and how they move.

A move is a compare-and-swap on the version, made after a walk that finds the
old target among the ancestors of the new one; `main` moves by a land or by the
importer's graft. A create takes the target it is given.
-/

namespace Naatre

section

variable {Id : Type} [Platform Id]

/-! ### The ref table -/

/-- A ref row names a stored changeset. -/
def RefRow.Valid (db : RepoTables Id) (row : RefRow Id) : Prop :=
  ∃ target, row.target = some target ∧ (changesetGet db target).isSome

/-- Every ref of the repository names a stored changeset. -/
def RefsValid (db : RepoTables Id) : Prop := ∀ row ∈ db.refs, row.Valid db

/-- A ref moved: one version up, to a target above the old one. -/
structure RefMoved (db' : RepoTables Id) (before after : RefRow Id) : Prop where
  version : after.version = before.version + 1
  target : ∃ old new, before.target = some old ∧ after.target = some new ∧ Ancestor db' old new

/-- What a step does to the refs that were there. -/
def RefsMoved (db db' : RepoTables Id) : Prop :=
  ∀ name before, refGet db name = some before →
    ∃ after, refGet db' name = some after ∧ (after = before ∨ RefMoved db' before after)

theorem RefRow.Valid.keep {db db' : RepoTables Id} {row : RefRow Id} (h : row.Valid db)
    (hkeeps : db.Keeps db') : row.Valid db' := by
  obtain ⟨target, htarget, hstored⟩ := h
  obtain ⟨found, hfound⟩ := Option.isSome_iff_exists.mp hstored
  exact ⟨target, htarget, Option.isSome_iff_exists.mpr ⟨found, hkeeps target found hfound⟩⟩

theorem RefsValid.keep {db db' : RepoTables Id} (h : RefsValid db) (hkeeps : db.Keeps db')
    (hrefs : db'.refs = db.refs) : RefsValid db' :=
  fun row hrow => (h row (hrefs ▸ hrow)).keep hkeeps

theorem RefsMoved.of_eq {db db' : RepoTables Id} (h : db'.refs = db.refs) : RefsMoved db db' :=
  fun name before hbefore => ⟨before, by rwa [refGet, h], .inl rfl⟩

/-- An update that keeps the names maps the row found. -/
theorem refGet_map {db db' : RepoTables Id} {update : RefRow Id → RefRow Id}
    (hrefs : db'.refs = db.refs.map update) (hname : ∀ row, (update row).name = row.name)
    (name : String) : refGet db' name = (refGet db name).map update := by
  rw [refGet, hrefs, List.find?_map]
  simp only [Function.comp_def, hname]
  rfl

theorem refGet_append {db db' : RepoTables Id} {row before : RefRow Id} {name : String}
    (hrefs : db'.refs = db.refs ++ [row]) (h : refGet db name = some before) :
    refGet db' name = some before := by
  rw [refGet] at h
  rw [refGet, hrefs, List.find?_append, h, Option.some_or]

/-- A new ref leaves those that were there. -/
theorem RefsMoved.append {db db' : RepoTables Id} {row : RefRow Id}
    (hrefs : db'.refs = db.refs ++ [row]) : RefsMoved db db' :=
  fun _ before hbefore => ⟨before, refGet_append hrefs hbefore, .inl rfl⟩

/-- An update moves the refs it changes. -/
theorem RefsMoved.map {db db' : RepoTables Id} {update : RefRow Id → RefRow Id}
    (hrefs : db'.refs = db.refs.map update) (hname : ∀ row, (update row).name = row.name)
    (hmoved : ∀ name row, refGet db name = some row →
      update row = row ∨ RefMoved db' row (update row)) : RefsMoved db db' :=
  fun name before hbefore =>
    ⟨update before, by rw [refGet_map hrefs hname, hbefore, Option.map_some],
      hmoved name before hbefore⟩

theorem refGet_some {db : RepoTables Id} {name : String} {row : RefRow Id}
    (h : refGet db name = some row) : row ∈ db.refs ∧ row.name = name :=
  ⟨List.mem_of_find?_eq_some h, by simpa using List.find?_some h⟩

/-! ### The fast-forward walk -/

/-- The row the merge-base walk settles on lies on both walks. -/
theorem mergeBaseWalk_some {db : RepoTables Id} {a b base : Id}
    (h : mergeBaseWalk db a b = some base) : Ancestor db base b := by
  have hedge : ∀ x y, Lib.Edge (fun id => some ((parentsOf db id).getD [])) x y →
      Lib.Edge (parentsOf db) x y := by
    rintro x y ⟨next, hnext, hy⟩
    rw [Option.some.injEq] at hnext
    cases hx : parentsOf db x with
    | none => simp [← hnext, hx] at hy
    | some parents => exact .of_succ hx (by simpa [← hnext, hx] using hy)
  unfold mergeBaseWalk at h
  simp only [Option.bind_eq_bind, Option.bind_eq_some_iff, Option.map_eq_some_iff] at h
  obtain ⟨ancestors, -, seen, hseen, best, hbest, rfl⟩ := h
  -- a round keeps the best id, or takes its own
  have hfold : ∀ pick : Option (ℕ × Id) → Id → Option (ℕ × Id),
      (∀ start id found, pick start id = some found → start = some found ∨ found.2 = id) →
      ∀ (l : List Id) (start : Option (ℕ × Id)) (found : ℕ × Id),
        l.foldl pick start = some found → start = some found ∨ found.2 ∈ l := by
    intro pick hpick l
    induction l with
    | nil => exact fun start found h => .inl h
    | cons id l ih =>
        intro start found h
        rcases ih _ found h with hstart | hmem
        · refine (hpick start id found hstart).imp_right fun hid => ?_
          rw [hid]
          exact List.mem_cons_self
        · exact .inr (List.mem_cons_of_mem _ hmem)
  have hmem : best.2 ∈ seen := by
    refine (hfold _ ?_ seen none best hbest).resolve_left (by simp)
    intro start id found hstart
    split at hstart
    · exact .inl hstart
    · split_ifs at hstart
      · cases hstart
        exact .inr rfl
      · exact .inl hstart
  obtain ⟨x, hx, hpath⟩ := (Lib.mem_walk_iff hseen).mp hmem
  rw [List.mem_singleton.mp hx] at hpath
  exact Relation.ReflTransGen.mono hedge _ _ hpath

/-- A target the check lets through lies above the old one. -/
theorem refContains_ancestor {db : RepoTables Id} {old new : Id} (h : refContains db old new) :
    (changesetGet db new).isSome ∧ Ancestor db old new := by
  simp only [refContains, Bool.and_eq_true, decide_eq_true_eq] at h
  exact ⟨h.1.2, mergeBaseWalk_some h.2⟩

/-! ### Writers of refs -/

/-- A move that went through. -/
theorem RefWritten.moved_ok {db db' : RepoTables Id} {req : RefRequest Id} {done : RefResponse Id}
    {version : ℕ} (h : RefWritten db req done db') (hexpected : req.expected = some version)
    (hvalid : RefsValid db) :
    ∃ before after, refGet db req.name = some before ∧ before.version = version ∧
      done.version = version + 1 ∧ refGet db' req.name = some after ∧
      RefMoved db' before after := by
  cases h with
  | created hnone => simp [hnone] at hexpected
  | moved current hcurrent hget hcontains =>
      rw [hcurrent, Option.some.injEq] at hexpected
      obtain ⟨old, hold, -⟩ := hvalid current (refGet_some hget).1
      obtain ⟨-, hancestor⟩ := refContains_ancestor (hcontains old hold)
      refine ⟨current, _, hget, hexpected, by rw [hexpected],
        (refGet_map rfl (fun row => by split_ifs <;> rfl) req.name).trans
          (by rw [hget, Option.map_some]), ?_⟩
      rw [if_pos (refGet_some hget).2]
      exact ⟨rfl, old, req.target, hold, rfl, hancestor.keep (.of_eq rfl)⟩

theorem RefWritten.refsMoved {db db' : RepoTables Id} {req : RefRequest Id}
    {done : RefResponse Id} (h : RefWritten db req done db') (hvalid : RefsValid db) :
    RefsMoved db db' := by
  have hmoved := fun version (hv : req.expected = some version) => h.moved_ok hv hvalid
  cases h with
  | created => exact .append rfl
  | moved current hcurrent hget hcontains =>
      refine .map rfl (fun row => by split_ifs <;> rfl) fun name row hrow => ?_
      by_cases hname : row.name = req.name
      · obtain ⟨before, after, hbefore, -, -, hafter, hmove⟩ := hmoved _ hcurrent
        have heq : row = before := by
          rw [(refGet_some hrow).2] at hname
          rw [hname] at hrow
          rwa [hbefore, Option.some.injEq, eq_comm] at hrow
        rw [refGet_map rfl (fun row => by split_ifs <;> rfl), hbefore, Option.map_some,
          Option.some.injEq] at hafter
        exact .inr (heq ▸ hafter ▸ hmove)
      · exact .inl (by rw [if_neg hname])

theorem RefWritten.refsValid {db db' : RepoTables Id} {req : RefRequest Id}
    {done : RefResponse Id} (h : RefWritten db req done db') (hvalid : RefsValid db)
    (hcreate : req.expected = none → (changesetGet db req.target).isSome) : RefsValid db' := by
  cases h with
  | created hnone =>
      intro row hrow
      rcases List.mem_append.mp hrow with hrow | hrow
      · exact (hvalid row hrow).keep (.of_eq rfl)
      · rw [List.mem_singleton.mp hrow]
        exact ⟨req.target, rfl, hcreate hnone⟩
  | moved current hcurrent hget hcontains =>
      intro row hrow
      obtain ⟨ref, href, rfl⟩ := List.mem_map.mp hrow
      split_ifs
      · obtain ⟨old, hold, -⟩ := hvalid current (refGet_some hget).1
        exact ⟨req.target, rfl, (refContains_ancestor (hcontains old hold)).1⟩
      · exact (hvalid ref href).keep (.of_eq rfl)

/-- A land moves `main` to its tip. -/
theorem LandSuccess.refsMoved {cx cx' : RepoCx Id} {cmd : LandCommand Id} {done : LandDone Id}
    (h : LandSuccess cx cmd done cx') (hwf : TablesWf cx.db) : RefsMoved cx.db cx'.db := by
  cases h with
  | replay => exact .of_eq rfl
  | contained f hin => exact .of_eq rfl
  | rebased f hout b =>
      have htip : TipAbove f.oldMain b.final := b.tipAbove (hwf.of_eq rfl rfl)
      have hrefs : b.final.cx.db.refs = cx.db.refs := b.tables.1
      refine .map (congrArg _ hrefs) (fun row => by split_ifs <;> rfl) fun name row hrow => ?_
      split_ifs with hhit
      · simp only [Bool.and_eq_true, decide_eq_true_eq] at hhit
        exact .inr ⟨rfl, f.oldMain, b.final.tipId, hhit.2, rfl,
          htip.chain.ancestor.keep (.of_eq rfl)⟩
      · exact .inl rfl

theorem LandSuccess.refs {cx cx' : RepoCx Id} {cmd : LandCommand Id} {done : LandDone Id}
    (h : LandSuccess cx cmd done cx') (hwf : TablesWf cx.db) (hvalid : RefsValid cx.db) :
    RefsValid cx'.db ∧ RefsMoved cx.db cx'.db := by
  refine ⟨?_, h.refsMoved hwf⟩
  have hkeeps := h.keeps
  cases h with
  | replay => exact hvalid
  | contained f hin => exact hvalid.keep hkeeps rfl
  | rebased f hout b =>
      have htip : TipAbove f.oldMain b.final := b.tipAbove (hwf.of_eq rfl rfl)
      have hrefs : b.final.cx.db.refs = cx.db.refs := b.tables.1
      have hmap : (settle { b.final.cx with db := b.movedDb } cmd f.oldMain b.final.tipId
          b.final.rebased (landNote f.pending.db cmd)
          (repPathsOf b.movedDb b.final.tipId)).2.db.refs = cx.db.refs.map _ :=
        congrArg _ hrefs
      intro row hrow
      rw [hmap] at hrow
      obtain ⟨ref, href, rfl⟩ := List.mem_map.mp hrow
      split_ifs
      · exact ⟨b.final.tipId, rfl, htip.stored⟩
      · exact (hvalid ref href).keep hkeeps

/-- A commit of the batch that descends from a tip has the tip among its
ancestors. -/
theorem Imported.ancestor {nowNs : ℕ} {cx last : RepoCx Id} {ps : List (PreparedCommit Id)}
    (himported : Imported nowNs cx ps last) {p : PreparedCommit Id} (hp : p ∈ ps) {tip : Id}
    (hdescends : descendsFrom last.db p tip = some true) : Ancestor last.db tip p.csId := by
  obtain ⟨row, hrow, -, hparents, -⟩ := himported.rows hp
  obtain ⟨parent, hparent, hpath⟩ := descendsLoop_true hdescends
  refine .head (.of_succ ?_ (List.mem_reverse.mp hparent)) hpath
  rw [parentsOf, hrow, Option.map_some, hparents]

/-- The git id of `main` still maps to the target it was read from. -/
theorem Imported.mainTip {nowNs : ℕ} {cx last : RepoCx Id} {ps : List (PreparedCommit Id)}
    (himported : Imported nowNs cx ps last) (hwf : TablesWf cx.db) {oldOid : GitOid}
    (hoid : mainGitOid cx.db = some oldOid) {previousTip : Id}
    (hmap : last.db.gitMap.lookup oldOid = some previousTip) :
    ∃ row, refGet cx.db "main" = some row ∧ row.target = some previousTip := by
  obtain ⟨row, old, hmain, hold, hmem⟩ := mainGitOid_some hoid
  have htip := Lib.lookup_of_nodup (himported.tablesWf hwf).oids (himported.tables.2.2.2 hmem)
  rw [hmap, Option.some.injEq] at htip
  exact ⟨row, hmain, htip ▸ hold⟩

/-- The importer moves `main` to a commit of its batch. -/
theorem RunBackend.refsMoved {nowNs : ℕ} {cx cx' : RepoCx Id} {git : GitRepo}
    {opts : ImportOptions} {head : GitOid} (h : RunBackend nowNs cx git opts head cx')
    (hwf : TablesWf cx.db) : RefsMoved cx.db cx'.db := by
  cases h with
  | untouched => exact .of_eq rfl
  | commits sc k mid cx' himported hputs =>
      obtain ⟨cas, cat, rfl⟩ := hputs.frame
      exact .of_eq himported.tables.1
  | grafted sc last main db himported hgraft =>
      have hrefs := himported.tables.1
      cases graftMain_cases hgraft with
      | unchanged => exact .of_eq hrefs
      | set p hp habsent => exact .append (congrArg (· ++ _) hrefs)
      | moved p hp current hcurrent oldOid previousTip hoid hmap hdescends =>
          obtain ⟨mainRow, hmain, hold⟩ := himported.mainTip hwf hoid hmap
          have heq : current = mainRow := by
            rw [refGet, hrefs] at hcurrent
            rwa [refGet, hcurrent, Option.some.injEq] at hmain
          have hancestor := himported.ancestor hp hdescends
          refine .map (congrArg _ hrefs) (fun row => by split_ifs <;> rfl) fun name before hbefore => ?_
          by_cases hname : before.name = "main"
          · rw [(refGet_some hbefore).2] at hname
            rw [hname, hmain, Option.some.injEq] at hbefore
            rw [if_pos (hbefore ▸ (refGet_some hmain).2)]
            refine .inr ⟨by rw [heq, hbefore], previousTip, p.csId, hbefore ▸ hold, rfl,
              hancestor.keep (.of_eq rfl)⟩
          · exact .inl (by rw [if_neg hname])

theorem RunBackend.refs {nowNs : ℕ} {cx cx' : RepoCx Id} {git : GitRepo} {opts : ImportOptions}
    {head : GitOid} (h : RunBackend nowNs cx git opts head cx') (hwf : TablesWf cx.db)
    (hvalid : RefsValid cx.db) : RefsValid cx'.db ∧ RefsMoved cx.db cx'.db := by
  refine ⟨?_, h.refsMoved hwf⟩
  cases h with
  | untouched => exact hvalid
  | commits sc k mid cx' himported hputs =>
      obtain ⟨cas, cat, rfl⟩ := hputs.frame
      exact hvalid.keep himported.keeps himported.tables.1
  | grafted sc last main db himported hgraft =>
      have hlast := hvalid.keep himported.keeps himported.tables.1
      cases graftMain_cases hgraft with
      | unchanged => exact hlast
      | set p hp habsent =>
          obtain ⟨row, hrow, -⟩ := himported.rows hp
          intro ref href
          rcases List.mem_append.mp href with href | href
          · exact (hlast ref href).keep (.of_eq rfl)
          · rw [List.mem_singleton.mp href]
            exact ⟨p.csId, rfl, Option.isSome_iff_exists.mpr ⟨row, hrow⟩⟩
      | moved p hp =>
          obtain ⟨row, hrow, -⟩ := himported.rows hp
          intro ref href
          obtain ⟨found, hfound, rfl⟩ := List.mem_map.mp href
          split_ifs
          · exact ⟨p.csId, rfl, Option.isSome_iff_exists.mpr ⟨row, hrow⟩⟩
          · exact (hlast found hfound).keep (.of_eq rfl)

/-! ### Runs -/

namespace Server

/-- What validity needs of a step: the collector deletes no rows, and a ref is
created on a stored changeset. -/
def RefSafe (s : Server Id) : Event Id → Prop
  | .gcStep => False
  | .casRef r req => req.expected = none → (changesetGet (s.dbs r) req.target).isSome
  | _ => True

instance (s : Server Id) (e : Event Id) : Decidable (RefSafe s e) := by
  cases e <;> dsimp only [RefSafe] <;> infer_instance

theorem DbStep.refs {s : Server Id} {r : RepoId} {e : Event Id} {db : RepoTables Id}
    (h : DbStep s r e db) (hsafe : RefSafe s e) (hwf : TablesWf (s.dbs r))
    (hvalid : RefsValid (s.dbs r)) : RefsValid db ∧ RefsMoved (s.dbs r) db := by
  have hkeeps := h.keeps (by rintro rfl; exact hsafe)
  cases h with
  | unchanged => exact ⟨hvalid, .of_eq rfl⟩
  | createWrite i p cx hpending hpersist =>
      obtain ⟨w⟩ := hpersist
      have hrefs := (changesetInsertRows_tables w.insert_ok).1
      exact ⟨hvalid.keep hkeeps hrefs, .of_eq hrefs⟩
  | land cmd done cx hland => exact hland.refs hwf hvalid
  | importGit git opts head stop cx hquiescent hrun => exact hrun.refs hwf hvalid
  | casRef req done db hmain hredacted hwritten =>
      exact ⟨hwritten.refsValid hvalid hsafe, hwritten.refsMoved hvalid⟩
  | mark id kind =>
      obtain ⟨redactions, hmark⟩ := redactionMark_db (s.dbs r) id kind s.nowNs
      rw [hmark] at hkeeps ⊢
      exact ⟨hvalid.keep hkeeps rfl, .of_eq rfl⟩
  | gcStep => exact absurd hsafe not_false

theorem refsValid_of_reach {s : Server Id} (h : Reach RefSafe s) (r : RepoId) :
    RefsValid (s.dbs r) := by
  refine Lib.Reach.invariant (I := fun s => RefsValid (s.dbs r)) ?_
    (fun s e s' hs hvalid hsafe he => ?_) h
  · rintro s ⟨layout, repos, nowNs, graceNs, -, rfl⟩
    exact fun _ hrow => absurd hrow List.not_mem_nil
  · exact ((step_db he r).refs hsafe (tablesWf_of_reach hs r) hvalid).1

theorem refsMoved_of_reach {s s' : Server Id} {e : Event Id} (h : Reach RefSafe s)
    (hsafe : RefSafe s e) (he : s.step e = some s') (r : RepoId) :
    RefsMoved (s.dbs r) (s'.dbs r) :=
  ((step_db he r).refs hsafe (tablesWf_of_reach h r) (refsValid_of_reach h r)).2

/-- Versions never fall along a run. -/
theorem version_le_of_later {s s' : Server Id} (h : Reach RefSafe s)
    (hlater : Lib.Later step RefSafe s s') {r : RepoId} {name : String} {before : RefRow Id}
    (hbefore : refGet (s.dbs r) name = some before) :
    ∃ after, refGet (s'.dbs r) name = some after ∧ before.version ≤ after.version := by
  induction hlater with
  | refl => exact ⟨before, hbefore, le_rfl⟩
  | tail hrest hstep ih =>
      obtain ⟨mid, hmid, hle⟩ := ih
      obtain ⟨e, hsafe, he⟩ := hstep
      obtain ⟨after, hafter, hor⟩ := refsMoved_of_reach (h.later hrest) hsafe he r name mid hmid
      refine ⟨after, hafter, hle.trans ?_⟩
      rcases hor with rfl | hmoved
      · exact le_rfl
      · rw [hmoved.version]
        exact Nat.le_succ _

/-- The tables an accepted ref write leaves. -/
theorem step_casRef {s s' : Server Id} {r : RepoId} {req : RefRequest Id}
    (h : s.step (.casRef r req) = some s') {done : RefResponse Id} {db : RepoTables Id}
    (hok : casRef (s.cx r).name (s.dbs r) req = .ok (done, db)) : s'.dbs r = db := by
  have hserve := (step_serve h).2
  simp only [serve, casRefStep, hok, Option.some.injEq] at hserve
  rw [← hserve, put_dbs_self]

/-- In every run without a collector's step whose refs are created on stored
changesets: every ref names a stored changeset; a step leaves a ref alone or
moves it one version up, to a target above the old one; an accepted
compare-and-swap does move its ref from the version it states; and no later one
that states the same version is accepted. -/
theorem refs_valid_of_reach {s : Server Id} (h : Reach RefSafe s) (r : RepoId) :
    RefsValid (s.dbs r) ∧
      (∀ e s', RefSafe s e → s.step e = some s' → RefsMoved (s.dbs r) (s'.dbs r)) ∧
      (∀ req version done db', req.expected = some version →
        casRef (s.cx r).name (s.dbs r) req = .ok (done, db') →
        ∃ before after, refGet (s.dbs r) req.name = some before ∧ before.version = version ∧
          done.version = version + 1 ∧ refGet db' req.name = some after ∧
          RefMoved db' before after) ∧
      ∀ req version done db' s₁ s₂, req.expected = some version →
        casRef (s.cx r).name (s.dbs r) req = .ok (done, db') →
        s.step (.casRef r req) = some s₁ → Lib.Later step RefSafe s₁ s₂ →
        ∀ req', req'.name = req.name → req'.expected = some version →
          ∃ e, casRef (s₂.cx r).name (s₂.dbs r) req' = .error e := by
  have hvalid := refsValid_of_reach h r
  have hmoves : ∀ req version done db', req.expected = some version →
      casRef (s.cx r).name (s.dbs r) req = .ok (done, db') →
      ∃ before after, refGet (s.dbs r) req.name = some before ∧ before.version = version ∧
        done.version = version + 1 ∧ refGet db' req.name = some after ∧
        RefMoved db' before after := by
    intro req version done db' hexpected hok
    exact (casRef_ok hok).2.2.moved_ok hexpected hvalid
  refine ⟨hvalid, fun e s' hsafe he => refsMoved_of_reach h hsafe he r, hmoves, ?_⟩
  intro req version done db' s₁ s₂ hexpected hok hs₁ hlater req' hname hexpected'
  obtain ⟨before, after, -, hversion, -, hafter, hmoved⟩ := hmoves req version done db' hexpected hok
  have hreach : Reach RefSafe s₁ := h.next (by simp [RefSafe, hexpected]) hs₁
  rw [← step_casRef hs₁ hok] at hafter
  obtain ⟨last, hlast, hle⟩ := version_le_of_later hreach hlater hafter
  match hanswer : casRef (s₂.cx r).name (s₂.dbs r) req' with
  | .error e => exact ⟨e, rfl⟩
  | .ok (done', db₂) =>
      obtain ⟨found, -, hfound, hfoundVersion, -⟩ := (casRef_ok hanswer).2.2.moved_ok hexpected'
        (refsValid_of_reach (hreach.later hlater) r)
      rw [hname, hlast, Option.some.injEq] at hfound
      have := hmoved.version
      subst hfound
      omega

end Server

end

/-! ### A ref on no changeset -/

namespace Server.DanglingRef

def start : Server PlainId := boot .singleDb [(1, "r")] 100 10

/-- The create of a ref on an id nothing is stored under. -/
def dangling : List (Event PlainId) := [.casRef 1 ⟨"ann", "topic", [7], none⟩]

/-- One imported commit. -/
def imported : List (Event PlainId) :=
  [.importGit 1 [⟨1, [], "ann", "first", 5, .entry "a" (.blob .regular 11 [97, 10]) .empty⟩]
    ⟨false, false⟩ 1 1]

/-- The commit's changeset. -/
def imports : PlainId :=
  ((Lib.exec step start imported).bind fun s => (refGet (s.dbs 1) "main").bind (·.target)).getD []

/-- A ref created on it, and moved to where it is. -/
def moved : List (Event PlainId) :=
  imported ++ [.casRef 1 ⟨"ann", "topic", imports, none⟩, .casRef 1 ⟨"ann", "topic", imports, some 1⟩]

end Server.DanglingRef

namespace Server

open DanglingRef in
/-- The run of an import, a ref create and a move meets the condition, and its
refs are valid. -/
theorem refs_valid_of_reach_moved : ∃ s, Lib.execIf step RefSafe start moved = some s ∧
    RefsValid (s.dbs 1) := by
  obtain ⟨s, hs⟩ := Option.isSome_iff_exists.mp
    (show (Lib.execIf step RefSafe start moved).isSome by decide +kernel)
  have hstart : Init start := ⟨.singleDb, [(1, "r")], 100, 10, by decide, rfl⟩
  exact ⟨s, hs, (refs_valid_of_reach (Lib.Reach.execIf (.start hstart) hs) 1).1⟩

open DanglingRef in
/-- A ref create is accepted on an id without a changeset. -/
theorem dangling_ref : ∃ s, Lib.exec step start dangling = some s ∧ ¬ RefsValid (s.dbs 1) := by
  have h : (Lib.exec step start dangling).any (fun s => (s.dbs 1).refs.any fun row =>
      decide (row.target = some [7]) && (changesetGet (s.dbs 1) [7]).isNone) = true := by
    decide +kernel
  obtain ⟨s, hs, hbad⟩ := (Option.any_eq_true _ _).mp h
  refine ⟨s, hs, fun hvalid => ?_⟩
  simp only [List.any_eq_true, Bool.and_eq_true, decide_eq_true_eq, Option.isNone_iff_eq_none]
    at hbad
  obtain ⟨row, hrow, htarget, hnone⟩ := hbad
  obtain ⟨target, htarget', hstored⟩ := hvalid row hrow
  rw [htarget, Option.some.injEq] at htarget'
  simp [← htarget', hnone] at hstored

end Server

end Naatre
