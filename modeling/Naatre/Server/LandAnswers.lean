import Naatre.Server.HistoryKept
import Naatre.Server.LandDesk
import Naatre.Server.LandRows

/-!
What the land route answers. In any interleaving of any number of requests, with
cancelled tasks, detached closures and crashes among them, every answer of a key
is an answer about one row: the first land of the key that commits writes it,
and leaders, joiners and retries all report it.
-/

namespace Naatre

section

variable {Id : Type} [Platform Id]

/-! ### One key -/

/-- The key's row records the outcome, under the head. -/
def Server.Settled (s : Server Id) (k : LandJoinKey) (head : Id) (done : LandDone Id) : Prop :=
  ∃ r row result, s.repoIdOr404 k.repo = .ok r ∧
    landGet (s.dbs r) k.principal k.key = some row ∧ row.state ≠ .pending ∧
    row.head = some head ∧ row.result = some result ∧ done = replay result

theorem Server.Settled.unique {s : Server Id} {k : LandJoinKey} {head head' : Id}
    {done done' : LandDone Id} (h : s.Settled k head done) (h' : s.Settled k head' done') :
    head = head' ∧ done = done' := by
  obtain ⟨r, row, result, hr, hrow, -, hhead, hresult, rfl⟩ := h
  obtain ⟨r', row', result', hr', hrow', -, hhead', hresult', rfl⟩ := h'
  obtain rfl := Except.ok.inj (hr.symm.trans hr')
  obtain rfl := Option.some.inj (hrow.symm.trans hrow')
  obtain rfl := Option.some.inj (hhead.symm.trans hhead')
  obtain rfl := Option.some.inj (hresult.symm.trans hresult')
  exact ⟨rfl, rfl⟩

theorem Server.repoIdOr404_step {s s' : Server Id} {e : Event Id} (h : s.step e = some s')
    (name : String) : s'.repoIdOr404 name = s.repoIdOr404 name := by
  have hrepos := (step_config h).2.1
  rw [repoIdOr404, repoIdByName, hrepos, repoIdOr404, repoIdByName]

theorem Server.Settled.step {s s' : Server Id} {e : Event Id} (he : s.step e = some s')
    {k : LandJoinKey} {head : Id} {done : LandDone Id} (h : s.Settled k head done) :
    s'.Settled k head done := by
  obtain ⟨r, row, result, hr, hrow, hrest⟩ := h
  exact ⟨r, row, result, (Server.repoIdOr404_step he k.repo).trans hr,
    Server.step_landGet he hrow, hrest⟩

/-- What an answer says about the store. -/
def Truthful (s : Server Id) (q : LandRequest Id) : LandOutcome Id → Prop
  | .ok done => s.Settled q.slotKey q.head done
  | .error e => e.Settled → ∃ settled done, settled ≠ q.head ∧
      s.Settled q.slotKey settled done ∧ e = Origin.settledWithOtherHead q.repo q.key settled

theorem Truthful.step {s s' : Server Id} {e : Event Id} (he : s.step e = some s')
    {q : LandRequest Id} {o : LandOutcome Id} (h : Truthful s q o) : Truthful s' q o := by
  cases o with
  | ok done => exact Server.Settled.step he h
  | error e =>
      intro hcode
      obtain ⟨settled, done, hother, hsettled, rfl⟩ := h hcode
      exact ⟨settled, done, hother, hsettled.step he, rfl⟩

theorem Truthful.of_code {s : Server Id} {q : LandRequest Id} {e : ApiError Id}
    (h : ¬ e.Settled) : Truthful s q (.error e) := fun hcode => absurd hcode h

omit [Platform Id] in
theorem not_settled_busy : ¬ (writerBusy : ApiError Id).Settled ∧
    ¬ (stillInFlight : ApiError Id).Settled := by
  simp [ApiError.Settled, writerBusy, stillInFlight, ApiError.new]

omit [Platform Id] in
theorem repoWriteGateSync_code {a : Accounts} {r : RepoId} {principal : String} {role : Role}
    {repo : String} {e : ApiError Id}
    (h : a.repoWriteGateSync r principal role repo = .error e) : ¬ e.Settled := by
  unfold Accounts.repoWriteGateSync at h
  split_ifs at h <;> cases h <;>
    simp [Accounts.ticketRefused, Accounts.roleRefused, Accounts.invisible, ApiError.Settled,
      ApiError.new]

theorem repoIdOr404_code {s : Server Id} {name : String} {e : ApiError Id}
    (h : s.repoIdOr404 name = .error e) : ¬ e.Settled := by
  unfold Server.repoIdOr404 at h
  split at h
  · cases h
  · cases h
    simp [Accounts.invisible, ApiError.Settled, ApiError.new]

/-- The name of a registered repository. -/
theorem Server.mem_repoIds_of_name {s : Server Id} {name : String} {r : RepoId}
    (h : s.repoIdOr404 name = .ok r) : r ∈ s.repoIds := by
  unfold Server.repoIdOr404 at h
  split at h
  next r' hr =>
    cases h
    rw [Server.repoIdByName, Option.map_eq_some_iff] at hr
    obtain ⟨entry, hentry, rfl⟩ := hr
    exact List.mem_map_of_mem (List.mem_of_find?_eq_some hentry)
  next => cases h

namespace LandDesk

/-- The closure is a step of the server, or none, and its answer tells what it
left. -/
theorem write_spec (d : LandDesk Id) {q : LandRequest Id} {r : RepoId}
    (hr : d.server.repoIdOr404 q.repo = .ok r)
    (hlands : ∀ row ∈ (d.server.dbs r).lands, row.OfLand) :
    (d.write r q).2 = { d with server := (d.write r q).2.server } ∧
      ((d.write r q).2.server = d.server ∨
        ∃ e, d.server.step e = some (d.write r q).2.server) ∧
      Truthful (d.write r q).2.server q (d.write r q).1 := by
  unfold write
  split
  next e hgate => exact ⟨rfl, .inl rfl, .of_code (repoWriteGateSync_code hgate)⟩
  next hgate =>
    have hknown := Server.mem_repoIds_of_name hr
    have hstep : d.server.step (.land r (q.command d.server.nowNs)) =
        some (d.server.landStep r (q.command d.server.nowNs)) := by
      rw [Server.step, if_pos (show Server.Event.known d.server (.land r _) = true from
        decide_eq_true hknown)]
      rfl
    refine ⟨rfl, .inr ⟨_, hstep⟩, ?_⟩
    have hname : (d.server.landStep r (q.command d.server.nowNs)).repoIdOr404 q.repo = .ok r :=
      (Server.repoIdOr404_step hstep q.repo).trans hr
    have hdb : (d.server.landStep r (q.command d.server.nowNs)).dbs r =
        (execute (d.server.cx r) (q.command d.server.nowNs)).2.db := by
      rw [Server.landStep, Server.dbs_put, if_pos rfl]
      rfl
    rcases execute_cases (d.server.cx r) (q.command d.server.nowNs) with
      ⟨done, hdone, hsuccess⟩ | ⟨e, cas, cat, herror, -, hcx⟩
    · obtain ⟨row, result, hrow, hrest⟩ := hsuccess.settledRow
      rw [hdone]
      exact ⟨r, row, result, hname, hdb ▸ hrow, hrest⟩
    · rw [herror]
      intro hcode
      unfold execute at herror
      split at herror
      · cases herror
      next a htxn =>
        cases herror
        obtain ⟨row, settled, hrow, hstate, hhead, hother, rfl⟩ := landInTxn_settled htxn hcode
        have hmem : row ∈ (d.server.dbs r).lands := List.mem_of_find?_eq_some hrow
        obtain ⟨-, -, result, -, -, hresult, -⟩ := hlands row hmem
        refine ⟨settled, replay result, hother, ?_, rfl⟩
        refine Server.Settled.step hstep ?_
        exact ⟨r, row, result, hr, hrow, hstate, hhead, hresult, rfl⟩

end LandDesk

/-! ### The tasks -/

/-- Leads and holds its guard. -/
def LandPhase.Guards : LandPhase Id → Prop
  | .resolving | .writing _ | .written _ | .published _ => True
  | _ => False

/-- Leads and has not shared an outcome. -/
def LandPhase.Owes : LandPhase Id → Prop
  | .resolving | .writing _ | .written _ | .dropped => True
  | _ => False

/-- The outcome of the land it leads is out, or comes. -/
def LandTask.Leads (t : LandTask Id) : Prop := t.outcome.isSome ∨ t.phase.Owes

omit [Platform Id] in
theorem LandRequest.refused_code {q : LandRequest Id} {e : ApiError Id} (h : q.refused = some e) :
    ¬ e.Settled := by
  unfold LandRequest.refused at h
  split_ifs at h <;> cases h <;> simp [ApiError.Settled, ApiError.new]

omit [Platform Id] in
theorem LandTask.crashed_spec (t : LandTask Id) : t.crashed.request = t.request ∧
    t.crashed.outcome = t.outcome ∧
    ((∃ answer, t.phase = .answered answer ∧ t.crashed.phase = .answered answer) ∨
      t.crashed.phase = .gone) := by
  unfold LandTask.crashed
  cases hphase : t.phase with
  | answered answer => exact ⟨rfl, rfl, .inl ⟨answer, rfl, hphase⟩⟩
  | _ => exact ⟨rfl, rfl, .inr rfl⟩

/-- The result a request was answered with. -/
def LandTask.served (t : LandTask Id) : Option (LandDone Id) :=
  match t.phase with
  | .answered (.ok done) => some done
  | _ => none

omit [Platform Id] in
theorem LandTask.served_eq {t : LandTask Id} {done : LandDone Id} (h : t.served = some done) :
    t.phase = .answered (.ok done) := by
  unfold LandTask.served at h
  split at h
  next done' hphase =>
    cases h
    exact hphase
  next => cases h

/-- The task whose land a request waits for. -/
def LandTask.awaits (t : LandTask Id) : Option ℕ :=
  match t.phase with
  | .joining leader => some leader
  | _ => none

omit [Platform Id] in
theorem LandTask.awaits_eq {t : LandTask Id} {leader : ℕ} (h : t.awaits = some leader) :
    t.phase = .joining leader := by
  unfold LandTask.awaits at h
  split at h
  next leader' hphase =>
    cases h
    exact hphase
  next => cases h

namespace LandDesk

/-- What is true of task `i` in a phase. -/
inductive TaskOk (d : LandDesk Id) (i : ℕ) (t : LandTask Id) : LandPhase Id → Prop
  | resolving (hentry : (t.request.slotKey, i) ∈ d.joins) : TaskOk d i t .resolving
  | writing (r : RepoId) (hentry : (t.request.slotKey, i) ∈ d.joins)
      (hr : d.server.repoIdOr404 t.request.repo = .ok r) : TaskOk d i t (.writing r)
  | written (answer : LandOutcome Id) (hentry : (t.request.slotKey, i) ∈ d.joins)
      (htrue : Truthful d.server t.request answer) : TaskOk d i t (.written answer)
  | published (answer : LandOutcome Id) (hentry : (t.request.slotKey, i) ∈ d.joins)
      (htrue : Truthful d.server t.request answer) (hshared : t.outcome.isSome) :
      TaskOk d i t (.published answer)
  | dropped : TaskOk d i t .dropped
  | joining (leader : ℕ) (l : LandTask Id) (hleader : d.tasks[leader]? = some l)
      (hkey : l.request.slotKey = t.request.slotKey) (hleads : l.Leads) :
      TaskOk d i t (.joining leader)
  | replaying (done : LandDone Id)
      (hsettled : d.server.Settled t.request.slotKey t.request.head done) : TaskOk d i t .replaying
  | answered (answer : LandOutcome Id) (htrue : Truthful d.server t.request answer) :
      TaskOk d i t (.answered answer)
  | gone : TaskOk d i t .gone

/-- The invariant of the desk. -/
structure Inv (d : LandDesk Id) : Prop where
  reach : Server.Reach (fun _ _ => True) d.server
  tasks : ∀ (i : ℕ) (t : LandTask Id), d.tasks[i]? = some t → d.TaskOk i t t.phase
  outcomes : ∀ (i : ℕ) (t : LandTask Id), d.tasks[i]? = some t →
    ∀ o, t.outcome = some o → Truthful d.server t.request o
  /-- an entry is held by its leader's guard -/
  entries : ∀ k i, (k, i) ∈ d.joins → ∃ t : LandTask Id, d.tasks[i]? = some t ∧
    t.phase.Guards ∧ t.request.slotKey = k
  keys : (d.joins.map fun entry => entry.1).Nodup
  detached : ∀ entry ∈ d.detached, d.server.repoIdOr404 entry.2.repo = .ok entry.1

/-- A step that changes one task: what the rest of the desk needs of it. -/
structure Moved (d : LandDesk Id) (i : ℕ) (t t' : LandTask Id) (d' : LandDesk Id) : Prop where
  tasks : d'.tasks = d.tasks.set i t'
  request : t'.request = t.request
  server : d'.server = d.server ∨ ∃ e, d.server.step e = some d'.server
  joins : d'.joins.Sublist d.joins
  others : ∀ k j, j ≠ i → (k, j) ∈ d.joins → (k, j) ∈ d'.joins
  own : ∀ k, (k, i) ∈ d'.joins → t'.phase.Guards
  leads : t.Leads → t'.Leads
  ok : d'.TaskOk i t' t'.phase
  outcome : ∀ o, t'.outcome = some o → Truthful d'.server t'.request o
  detached : ∀ entry ∈ d'.detached, entry ∈ d.detached ∨
    d.server.repoIdOr404 entry.2.repo = .ok entry.1

/-- What a change of the server keeps. -/
theorem server_keeps {s s' : Server Id} (h : s' = s ∨ ∃ e, s.step e = some s') :
    (Server.Reach (fun _ _ => True) s → Server.Reach (fun _ _ => True) s') ∧
      (∀ name, s'.repoIdOr404 name = s.repoIdOr404 name) ∧
      (∀ q o, Truthful s q o → Truthful s' q o) ∧
      ∀ k head done, s.Settled k head done → s'.Settled k head done := by
  rcases h with rfl | ⟨e, he⟩
  · exact ⟨id, fun _ => rfl, fun _ _ h => h, fun _ _ _ h => h⟩
  · exact ⟨fun h => .next h trivial he, Server.repoIdOr404_step he, fun _ _ => Truthful.step he,
      fun _ _ _ => Server.Settled.step he⟩

/-- What holds of a task stays while the others move. -/
theorem TaskOk.keep {d d' : LandDesk Id} {i : ℕ} {t : LandTask Id} {phase : LandPhase Id}
    (h : d.TaskOk i t phase) (hserver : d'.server = d.server ∨ ∃ e, d.server.step e = some d'.server)
    (hjoins : ∀ k, (k, i) ∈ d.joins → (k, i) ∈ d'.joins)
    (htasks : ∀ (j : ℕ) (l : LandTask Id), d.tasks[j]? = some l → ∃ l' : LandTask Id,
      d'.tasks[j]? = some l' ∧ l'.request = l.request ∧ (l.Leads → l'.Leads)) : d'.TaskOk i t phase := by
  obtain ⟨-, hname, htrue, hsettles⟩ := server_keeps hserver
  cases h with
  | resolving hentry => exact .resolving (hjoins _ hentry)
  | writing r hentry hr => exact .writing r (hjoins _ hentry) ((hname _).trans hr)
  | written answer hentry ht => exact .written answer (hjoins _ hentry) (htrue _ _ ht)
  | published answer hentry ht hshared =>
      exact .published answer (hjoins _ hentry) (htrue _ _ ht) hshared
  | dropped => exact .dropped
  | joining leader l hleader hkey hleads =>
      obtain ⟨l', hl', hrequest, hlead⟩ := htasks leader l hleader
      exact .joining leader l' hl' (by rw [hrequest, hkey]) (hlead hleads)
  | replaying done hsettled => exact .replaying done (hsettles _ _ _ hsettled)
  | answered answer ht => exact .answered answer (htrue _ _ ht)
  | gone => exact .gone

theorem Inv.moved {d d' : LandDesk Id} {i : ℕ} {t t' : LandTask Id} (hinv : d.Inv)
    (ht : d.tasks[i]? = some t) (h : d.Moved i t t' d') : d'.Inv := by
  obtain ⟨hreach, hname, htrue, -⟩ := server_keeps h.server
  have hlen : i < d.tasks.length := (List.getElem?_eq_some_iff.mp ht).1
  have hself : d'.tasks[i]? = some t' := by
    rw [h.tasks, List.getElem?_set_self hlen]
  have hother : ∀ j, j ≠ i → d'.tasks[j]? = d.tasks[j]? := fun j hj => by
    rw [h.tasks, List.getElem?_set_ne (Ne.symm hj)]
  have htasks : ∀ (j : ℕ) (l : LandTask Id), d.tasks[j]? = some l → ∃ l' : LandTask Id,
      d'.tasks[j]? = some l' ∧ l'.request = l.request ∧ (l.Leads → l'.Leads) := by
    intro j l hl
    by_cases hj : j = i
    · subst hj
      obtain rfl := Option.some.inj (ht.symm.trans hl)
      exact ⟨t', hself, h.request, h.leads⟩
    · exact ⟨l, (hother j hj).trans hl, rfl, id⟩
  refine ⟨hreach hinv.reach, ?_, ?_, ?_, ?_, ?_⟩
  · intro j l hl
    by_cases hj : j = i
    · subst hj
      obtain rfl := Option.some.inj (hself.symm.trans hl)
      exact h.ok
    · exact (hinv.tasks j l ((hother j hj).symm.trans hl)).keep h.server
        (fun k hk => h.others k j hj hk) htasks
  · intro j l hl o ho
    by_cases hj : j = i
    · subst hj
      obtain rfl := Option.some.inj (hself.symm.trans hl)
      exact h.outcome o ho
    · exact htrue _ _ (hinv.outcomes j l ((hother j hj).symm.trans hl) o ho)
  · intro k j hk
    obtain ⟨l, hl, hguards, hkey⟩ := hinv.entries k j (h.joins.subset hk)
    by_cases hj : j = i
    · subst hj
      obtain rfl := Option.some.inj (ht.symm.trans hl)
      exact ⟨t', hself, h.own k hk, by rw [h.request, hkey]⟩
    · exact ⟨l, (hother j hj).trans hl, hguards, hkey⟩
  · exact hinv.keys.sublist (h.joins.map _)
  · intro entry hentry
    rw [hname]
    exact (h.detached entry hentry).elim (hinv.detached entry) id

/-- Only the phase of one task changes. -/
theorem Inv.rephased {d : LandDesk Id} {i : ℕ} {t t' : LandTask Id} (hinv : d.Inv)
    (ht : d.tasks[i]? = some t) (hrequest : t'.request = t.request)
    (hguards : t.phase.Guards → t'.phase.Guards) (hleads : t.Leads → t'.Leads)
    (hok : (d.setTask i t').TaskOk i t' t'.phase)
    (hout : ∀ o, t'.outcome = some o → Truthful d.server t'.request o) :
    (d.setTask i t').Inv := by
  refine hinv.moved ht ⟨rfl, hrequest, .inl rfl, List.Sublist.refl _, fun _ _ _ h => h,
    fun k hk => ?_, hleads, hok, hout, fun _ h => .inl h⟩
  obtain ⟨l, hl, hguarded, -⟩ := hinv.entries k i hk
  obtain rfl := Option.some.inj (ht.symm.trans hl)
  exact hguards hguarded

/-- A task that leads nothing goes on. -/
theorem Inv.followed {d : LandDesk Id} {i : ℕ} {t : LandTask Id} (hinv : d.Inv)
    (ht : d.tasks[i]? = some t) (hguards : ¬ t.phase.Guards) (howes : ¬ t.phase.Owes)
    (phase : LandPhase Id)
    (hok : (d.setTask i { t with phase := phase }).TaskOk i { t with phase := phase } phase) :
    (d.setTask i { t with phase := phase }).Inv :=
  hinv.rephased ht rfl (fun h => absurd h hguards) (fun h => .inl (h.resolve_right howes)) hok
    (hinv.outcomes i t ht)

/-- A guard drops: the entry of its task goes, no other. -/
theorem Inv.unregistered {d : LandDesk Id} {i : ℕ} {t : LandTask Id} (hinv : d.Inv)
    (t' : LandTask Id) (ht : d.tasks[i]? = some t) (hrequest : t'.request = t.request)
    (hleads : t.Leads → t'.Leads) {detached : List (RepoId × LandRequest Id)}
    (hdetached : ∀ entry ∈ detached, entry ∈ d.detached ∨
      d.server.repoIdOr404 entry.2.repo = .ok entry.1)
    (hok : (({ d with detached := detached }.deregister i).setTask i t').TaskOk i t' t'.phase)
    (hout : ∀ o, t'.outcome = some o → Truthful d.server t'.request o) :
    (({ d with detached := detached }.deregister i).setTask i t').Inv := by
  refine hinv.moved ht ⟨rfl, hrequest, .inl rfl, List.filter_sublist, fun k j hj h => ?_,
    fun k hk => ?_, hleads, hok, hout, hdetached⟩
  · exact List.mem_filter.mpr ⟨h, decide_eq_true hj⟩
  · exact absurd rfl (of_decide_eq_true (List.mem_filter.mp hk).2)

omit [Platform Id] in
theorem settledHeadOf_settledWithOtherHead (repo key : String) (settled : Id) :
    Origin.settledHeadOf (Origin.settledWithOtherHead repo key settled) = some settled := rfl

/-- What the outcome of a land in flight means to one that joined it. -/
theorem joined_ok {d d' : LandDesk Id} {i : ℕ} {t : LandTask Id} {leader : LandRequest Id}
    {outcome : LandOutcome Id} (hserver : d'.server = d.server)
    (hkey : leader.slotKey = t.request.slotKey) (h : Truthful d.server leader outcome) :
    d'.TaskOk i t (joined leader t.request outcome) := by
  obtain ⟨hrepo, hprincipal, hname⟩ := (LandJoinKey.mk.injEq _ _ _ _ _ _).mp hkey
  cases outcome with
  | ok done =>
      have hsettled : d.server.Settled t.request.slotKey leader.head done := hkey ▸ h
      rw [joined]
      split_ifs with hhead
      · rw [hhead] at hsettled
        exact .answered _ (by rw [hserver]; exact hsettled)
      · exact .answered _ fun _ => ⟨leader.head, done, hhead, hserver ▸ hsettled, rfl⟩
  | error e =>
      rw [joined]
      split_ifs with hown
      · obtain ⟨settled, done, -, hsettled, rfl⟩ := h hown.1
        rw [settledHeadOf_settledWithOtherHead, Option.some.injEq] at hown
        rw [hkey, hown.2] at hsettled
        exact .replaying done (hserver ▸ hsettled)
      · refine .answered _ fun hcode => ?_
        obtain ⟨settled, done, -, hsettled, rfl⟩ := h hcode
        refine ⟨settled, done, fun heq => hown ⟨hcode, ?_⟩, hserver ▸ hkey ▸ hsettled, ?_⟩
        · rw [settledHeadOf_settledWithOtherHead, heq]
        · rw [hrepo, hname]

/-- The replay of a joiner finds the row its leader's refusal spoke of. -/
theorem settledReplay_ok {s : Server Id} {q : LandRequest Id} {done : LandDone Id}
    (h : s.Settled q.slotKey q.head done) : settledReplay s q = .ok done := by
  obtain ⟨r, row, result, hr, hrow, hstate, hhead, hresult, rfl⟩ := h
  have hname : s.repoIdOr404 q.repo = .ok r := hr
  have hfound : landGet (s.dbs r) q.principal q.key = some row := hrow
  have hsettled : ¬ (row.state = .pending ∨ row.head ≠ some q.head) := by
    rintro (hpending | hother)
    · exact hstate hpending
    · exact hother hhead
  simp only [settledReplay, hname, hfound, replayRow, if_neg hsettled, hresult]

theorem outcomeOf_eq {d : LandDesk Id} {leader : ℕ} {l : LandTask Id}
    (hl : d.tasks[leader]? = some l) :
    d.outcomeOf leader = l.outcome.map fun outcome => (l.request, outcome) := by
  rw [outcomeOf, hl, Option.bind_some]

/-- Every move keeps the invariant. -/
theorem Inv.move {d d' : LandDesk Id} {i : ℕ} {t : LandTask Id} {m : LandMove} (hinv : d.Inv)
    (ht : d.tasks[i]? = some t) (h : d.move i t m = some d') : d'.Inv := by
  have htask := hinv.tasks i t ht
  have hout := hinv.outcomes i t ht
  unfold LandDesk.move at h
  split at h
  next hphase =>
    -- resolve
    rw [hphase] at htask
    cases htask with
    | resolving hentry =>
        split at h
        next e he =>
          cases h
          exact hinv.rephased ht rfl (fun _ => trivial) (fun _ => .inr trivial)
            (.written _ hentry (.of_code (repoIdOr404_code he))) hout
        next r hr =>
          cases h
          exact hinv.rephased ht rfl (fun _ => trivial) (fun _ => .inr trivial)
            (.writing r hentry hr) hout
  next r hphase =>
    -- write
    rw [hphase] at htask
    cases htask with
    | writing r hentry hr =>
        obtain ⟨hd, hserver, htrue⟩ :=
          d.write_spec hr (Server.ofLand_of_reach hinv.reach r)
        obtain ⟨-, -, hkeeps, -⟩ := server_keeps hserver
        simp only [Option.some.injEq] at h
        subst h
        rw [hd]
        refine hinv.moved ht ⟨rfl, rfl, hserver, List.Sublist.refl _, fun _ _ _ h => h,
          fun _ _ => trivial, fun _ => .inr trivial, .written _ hentry htrue,
          fun o ho => hkeeps _ _ (hout o ho), fun _ h => .inl h⟩
  next r hphase =>
    -- busy
    rw [hphase] at htask
    cases htask with
    | writing r hentry =>
        cases h
        exact hinv.rephased ht rfl (fun _ => trivial) (fun _ => .inr trivial)
          (.written _ hentry (.of_code not_settled_busy.1)) hout
  next answer hphase =>
    -- publish
    rw [hphase] at htask
    cases htask with
    | written answer hentry htrue =>
        cases h
        refine hinv.rephased ht rfl (fun _ => trivial) (fun _ => .inl rfl)
          (.published _ hentry htrue rfl) fun o ho => ?_
        exact Option.some.inj ho ▸ htrue
  next answer hphase =>
    -- deregister
    rw [hphase] at htask
    cases htask with
    | published answer hentry htrue =>
        cases h
        have howes : ¬ t.phase.Owes := by
          rw [hphase]
          exact id
        exact hinv.unregistered { t with phase := .answered answer } ht rfl
          (fun hleads => .inl (hleads.resolve_right howes)) (fun _ h => .inl h)
          (.answered _ htrue) hout
  next hphase =>
    cases h
    exact hinv.unregistered { t with phase := .dropped } ht rfl (fun _ => .inr trivial)
      (fun _ h => .inl h) .dropped hout
  next r hphase =>
    -- the closure goes on without its task
    rw [hphase] at htask
    cases htask with
    | writing r hentry hr =>
        cases h
        refine hinv.unregistered { t with phase := .dropped } ht rfl (fun _ => .inr trivial)
          (fun entry hentry => ?_) .dropped hout
        rcases List.mem_append.mp hentry with hentry | hentry
        · exact .inl hentry
        · rw [List.mem_singleton.mp hentry]
          exact .inr hr
  next answer hphase =>
    cases h
    exact hinv.unregistered { t with phase := .dropped } ht rfl (fun _ => .inr trivial)
      (fun _ h => .inl h) .dropped hout
  next leader hphase =>
    cases h
    exact hinv.followed ht (by rw [hphase]; exact id) (by rw [hphase]; exact id) .gone .gone
  next hphase =>
    cases h
    exact hinv.followed ht (by rw [hphase]; exact id) (by rw [hphase]; exact id) .gone .gone
  next hphase =>
    -- the other half of the drop
    cases h
    refine hinv.rephased ht rfl (fun hguards => ?_) (fun _ => .inl rfl) .gone fun o ho => ?_
    · rw [hphase] at hguards
      exact hguards
    · cases ho
      exact .of_code ApiError.not_settled_internal
  next leader hphase =>
    -- join
    rw [hphase] at htask
    cases htask with
    | joining leader l hleader hkey hleads =>
        rw [outcomeOf_eq hleader, Option.map_map, Option.map_eq_some_iff] at h
        obtain ⟨outcome, houtcome, rfl⟩ := h
        have htrue := hinv.outcomes leader l hleader outcome houtcome
        refine hinv.followed ht (by rw [hphase]; exact id) (by rw [hphase]; exact id)
          (joined l.request t.request outcome) ?_
        have hok := @joined_ok _ _ d
          (d.setTask i { t with phase := joined l.request t.request outcome }) i
          { t with phase := joined l.request t.request outcome } l.request outcome rfl hkey htrue
        exact hok
  next leader hphase =>
    split_ifs at h
    cases h
    exact hinv.followed ht (by rw [hphase]; exact id) (by rw [hphase]; exact id) _
      (.answered _ (.of_code not_settled_busy.2))
  next hphase =>
    -- replay
    rw [hphase] at htask
    cases htask with
    | replaying done hsettled =>
        cases h
        refine hinv.followed ht (by rw [hphase]; exact id) (by rw [hphase]; exact id) _ ?_
        rw [settledReplay_ok hsettled]
        exact .answered _ hsettled
  next => cases h

/-! ### Runs -/

/-- The server moves on under the desk. -/
theorem Inv.served {d d' : LandDesk Id} (hinv : d.Inv)
    (hserver : d'.server = d.server ∨ ∃ e, d.server.step e = some d'.server)
    (htasks : d'.tasks = d.tasks) (hjoins : d'.joins = d.joins)
    (hdetached : ∀ entry ∈ d'.detached, entry ∈ d.detached) : d'.Inv := by
  obtain ⟨hreach, hname, htrue, -⟩ := server_keeps hserver
  refine ⟨hreach hinv.reach, ?_, ?_, ?_, ?_, ?_⟩
  · intro i t ht
    rw [htasks] at ht
    exact (hinv.tasks i t ht).keep hserver (fun k hk => hjoins ▸ hk)
      fun j l hl => ⟨l, htasks ▸ hl, rfl, id⟩
  · intro i t ht o ho
    rw [htasks] at ht
    exact htrue _ _ (hinv.outcomes i t ht o ho)
  · intro k i hk
    rw [hjoins] at hk
    rw [htasks]
    exact hinv.entries k i hk
  · rw [hjoins]
    exact hinv.keys
  · intro entry hentry
    rw [hname]
    exact hinv.detached entry (hdetached entry hentry)

theorem leaderOf_some {d : LandDesk Id} {k : LandJoinKey} {i : ℕ} (h : d.leaderOf k = some i) :
    (k, i) ∈ d.joins := by
  obtain ⟨entry, hentry, rfl⟩ := Option.map_eq_some_iff.mp h
  have hkey := List.find?_some hentry
  rw [decide_eq_true_eq] at hkey
  rw [← hkey]
  exact List.mem_of_find?_eq_some hentry

theorem leaderOf_none {d : LandDesk Id} {k : LandJoinKey} (h : d.leaderOf k = none) :
    k ∉ d.joins.map fun entry => entry.1 := by
  rw [leaderOf, Option.map_eq_none_iff, List.find?_eq_none] at h
  intro hmem
  obtain ⟨entry, hentry, rfl⟩ := List.mem_map.mp hmem
  exact h entry hentry (decide_eq_true rfl)

/-- One more task at the end; the registry takes at most its entry. -/
theorem Inv.appended {d d' : LandDesk Id} {t : LandTask Id} (hinv : d.Inv)
    (hserver : d'.server = d.server) (htasks : d'.tasks = d.tasks ++ [t])
    (hdetached : d'.detached = d.detached) (hjoins : ∀ entry ∈ d.joins, entry ∈ d'.joins)
    (hentries : ∀ k i, (k, i) ∈ d'.joins → (k, i) ∈ d.joins ∨
      i = d.tasks.length ∧ t.phase.Guards ∧ t.request.slotKey = k)
    (hkeys : (d'.joins.map fun entry => entry.1).Nodup) (hquiet : t.outcome = none)
    (hok : d'.TaskOk d.tasks.length t t.phase) : d'.Inv := by
  have hold : ∀ (j : ℕ) (l : LandTask Id), d.tasks[j]? = some l → d'.tasks[j]? = some l := by
    intro j l hl
    rw [htasks, List.getElem?_append_left (List.getElem?_eq_some_iff.mp hl).1, hl]
  have hcases : ∀ (j : ℕ) (l : LandTask Id), d'.tasks[j]? = some l →
      d.tasks[j]? = some l ∨ j = d.tasks.length ∧ l = t := by
    intro j l hl
    rw [htasks] at hl
    rcases lt_or_ge j d.tasks.length with hj | hj
    · rw [List.getElem?_append_left hj] at hl
      exact .inl hl
    · rw [List.getElem?_append_right hj] at hl
      obtain ⟨hlt, rfl⟩ := List.getElem?_eq_some_iff.mp hl
      rw [List.length_singleton] at hlt
      exact .inr ⟨by omega, List.getElem_singleton _⟩
  refine ⟨hserver ▸ hinv.reach, ?_, ?_, ?_, hkeys, ?_⟩
  · intro j l hl
    rcases hcases j l hl with hl | ⟨rfl, rfl⟩
    · exact (hinv.tasks j l hl).keep (.inl hserver) (fun k hk => hjoins _ hk)
        fun x y hy => ⟨y, hold x y hy, rfl, id⟩
    · exact hok
  · intro j l hl o ho
    rcases hcases j l hl with hl | ⟨rfl, rfl⟩
    · rw [hserver]
      exact hinv.outcomes j l hl o ho
    · rw [hquiet] at ho
      cases ho
  · intro k i hk
    rcases hentries k i hk with hk | ⟨rfl, hguards, hkey⟩
    · obtain ⟨l, hl, hrest⟩ := hinv.entries k i hk
      exact ⟨l, hold i l hl, hrest⟩
    · refine ⟨t, ?_, hguards, hkey⟩
      rw [htasks, List.getElem?_concat_length]
  · intro entry hentry
    rw [hserver]
    rw [hdetached] at hentry
    exact hinv.detached entry hentry

/-- A guard holds its entry, and the outcome of its land is out or comes. -/
theorem TaskOk.guarded {d : LandDesk Id} {i : ℕ} {t : LandTask Id} {phase : LandPhase Id}
    (h : d.TaskOk i t phase) (hphase : t.phase = phase) (hguards : phase.Guards) :
    (t.request.slotKey, i) ∈ d.joins ∧ t.Leads := by
  have howes : phase.Owes → t.Leads := fun howes => .inr (hphase ▸ howes)
  cases h with
  | resolving hentry => exact ⟨hentry, howes trivial⟩
  | writing r hentry => exact ⟨hentry, howes trivial⟩
  | written answer hentry => exact ⟨hentry, howes trivial⟩
  | published answer hentry htrue hshared => exact ⟨hentry, .inl hshared⟩
  | _ => exact hguards.elim

theorem Inv.begin {d : LandDesk Id} (hinv : d.Inv) (q : LandRequest Id) : (d.begin q).Inv := by
  unfold LandDesk.begin
  split
  next e he =>
    exact hinv.appended rfl rfl rfl (fun _ h => h) (fun _ _ h => .inl h) hinv.keys rfl
      (.answered _ (.of_code (LandRequest.refused_code he)))
  next =>
    split
    next leader hleader =>
      obtain ⟨l, hl, hguards, hkey⟩ := hinv.entries _ _ (leaderOf_some hleader)
      refine hinv.appended rfl rfl rfl (fun _ h => h) (fun _ _ h => .inl h) hinv.keys rfl ?_
      refine .joining leader l ?_ hkey ?_
      · exact (List.getElem?_append_left (List.getElem?_eq_some_iff.mp hl).1).trans hl
      · exact ((hinv.tasks leader l hl).guarded rfl hguards).2
    next hnone =>
      refine hinv.appended rfl rfl rfl (fun _ h => List.mem_append_left _ h) (fun k i h => ?_) ?_
        rfl (.resolving (List.mem_append_right _ List.mem_cons_self))
      · rcases List.mem_append.mp h with h | h
        · exact .inl h
        · rw [List.mem_singleton, Prod.mk.injEq] at h
          exact .inr ⟨h.2, trivial, h.1.symm⟩
      · rw [List.map_append, List.map_singleton, List.nodup_append]
        refine ⟨hinv.keys, List.nodup_singleton _, fun a ha b hb => ?_⟩
        rw [List.mem_singleton] at hb
        rw [hb]
        rintro rfl
        exact leaderOf_none hnone ha

theorem Inv.crashed {d d' : LandDesk Id} (hinv : d.Inv)
    (hserver : d.server.step .crash = some d'.server) (hjoins : d'.joins = [])
    (htasks : d'.tasks = d.tasks.map LandTask.crashed) (hdetached : d'.detached = []) :
    d'.Inv := by
  obtain ⟨hreach, -, htrue, -⟩ := server_keeps (.inr ⟨_, hserver⟩)
  have hold : ∀ (i : ℕ) (t : LandTask Id), d'.tasks[i]? = some t →
      ∃ before, d.tasks[i]? = some before ∧ t = before.crashed := by
    intro i t ht
    rw [htasks, List.getElem?_map, Option.map_eq_some_iff] at ht
    obtain ⟨before, hbefore, rfl⟩ := ht
    exact ⟨before, hbefore, rfl⟩
  refine ⟨hreach hinv.reach, ?_, ?_, ?_, ?_, ?_⟩
  · intro i t ht
    obtain ⟨before, hbefore, rfl⟩ := hold i t ht
    obtain ⟨hrequest, -, ⟨answer, hphase, hphase'⟩ | hgone⟩ := before.crashed_spec
    · have htask := hinv.tasks i before hbefore
      rw [hphase] at htask
      rw [hphase']
      cases htask with
      | answered answer ht => exact .answered answer (by rw [hrequest]; exact htrue _ _ ht)
    · rw [hgone]
      exact .gone
  · intro i t ht o ho
    obtain ⟨before, hbefore, rfl⟩ := hold i t ht
    obtain ⟨hrequest, houtcome, -⟩ := before.crashed_spec
    rw [houtcome] at ho
    rw [hrequest]
    exact htrue _ _ (hinv.outcomes i before hbefore o ho)
  · intro k i hk
    rw [hjoins] at hk
    cases hk
  · rw [hjoins]
    exact List.nodup_nil
  · intro entry hentry
    rw [hdetached] at hentry
    cases hentry

theorem Inv.step {d d' : LandDesk Id} {e : LandDeskEvent Id} (hinv : d.Inv)
    (h : d.step e = some d') : d'.Inv := by
  cases e with
  | server e =>
      simp only [LandDesk.step] at h
      split_ifs at h
      obtain ⟨s, hs, rfl⟩ := Option.map_eq_some_iff.mp h
      exact hinv.served (.inr ⟨e, hs⟩) rfl rfl fun _ h => h
  | account call =>
      cases h
      exact hinv.served (.inl rfl) rfl rfl fun _ h => h
  | request q =>
      cases h
      exact hinv.begin q
  | task i m =>
      obtain ⟨t, ht, hm⟩ := Option.bind_eq_some_iff.mp h
      exact hinv.move ht hm
  | detachedWrite j =>
      obtain ⟨entry, hentry, rfl⟩ := Option.map_eq_some_iff.mp h
      have hmem := List.mem_of_getElem? hentry
      obtain ⟨hd, hserver, -⟩ := d.write_spec (hinv.detached entry hmem)
        (Server.ofLand_of_reach hinv.reach _)
      refine hinv.served hserver ?_ ?_ fun _ h => (List.eraseIdx_sublist _ _).subset h
      · simp only
        rw [hd]
      · simp only
        rw [hd]
  | detachedBusy j =>
      obtain ⟨entry, hentry, rfl⟩ := Option.map_eq_some_iff.mp h
      exact hinv.served (.inl rfl) rfl rfl fun _ h => (List.eraseIdx_sublist _ _).subset h
  | crash =>
      simp only [LandDesk.step] at h
      obtain ⟨s, hs, rfl⟩ := Option.map_eq_some_iff.mp h
      exact hinv.crashed hs rfl rfl rfl

theorem inv_of_reach {ok : LandDesk Id → LandDeskEvent Id → Prop} {d : LandDesk Id}
    (h : Lib.Reach Start LandDesk.step ok d) : d.Inv := by
  refine Lib.Reach.invariant ?_ (fun d e d' _ hinv _ he => hinv.step he) h
  rintro d ⟨hinit, hjoins, htasks, hdetached⟩
  refine ⟨.start hinit, ?_, ?_, ?_, ?_, ?_⟩
  · intro i t ht
    rw [htasks] at ht
    cases ht
  · intro i t ht
    rw [htasks] at ht
    cases ht
  · intro k i hk
    rw [hjoins] at hk
    cases hk
  · rw [hjoins]
    exact List.nodup_nil
  · intro entry hentry
    rw [hdetached] at hentry
    cases hentry

/-- Every answer of every interleaving tells the settled row of its key. A 200
carries what the row records under the request's own head; a refusal for another
head names the head of the row, in one text for leaders and joiners; so two 200s
of one key are the same answer to the same head. -/
theorem land_answers_of_reach {ok : LandDesk Id → LandDeskEvent Id → Prop} {d : LandDesk Id}
    (h : Lib.Reach Start LandDesk.step ok d) :
    (∀ t ∈ d.tasks, ∀ done, t.phase = .answered (.ok done) →
      d.server.Settled t.request.slotKey t.request.head done) ∧
    (∀ t ∈ d.tasks, ∀ e, t.phase = .answered (.error e) → e.code = .idempotencyKeySettled →
      ∃ settled done, settled ≠ t.request.head ∧
        d.server.Settled t.request.slotKey settled done ∧
        e = Origin.settledWithOtherHead t.request.repo t.request.key settled) ∧
    ∀ t ∈ d.tasks, ∀ t' ∈ d.tasks, t.request.slotKey = t'.request.slotKey →
      ∀ done done', t.phase = .answered (.ok done) → t'.phase = .answered (.ok done') →
        t.request.head = t'.request.head ∧ done = done' := by
  have hinv := inv_of_reach h
  have htruth : ∀ t ∈ d.tasks, ∀ answer, t.phase = .answered answer →
      Truthful d.server t.request answer := by
    intro t ht answer hphase
    obtain ⟨i, hi⟩ := List.mem_iff_getElem?.mp ht
    have htask := hinv.tasks i t hi
    rw [hphase] at htask
    cases htask with
    | answered answer htrue => exact htrue
  refine ⟨fun t ht done hphase => htruth t ht _ hphase,
    fun t ht e hphase hcode => htruth t ht _ hphase hcode, ?_⟩
  intro t ht t' ht' hkey done done' hphase hphase'
  have hsettled : d.server.Settled t.request.slotKey t.request.head done := htruth t ht _ hphase
  have hsettled' : d.server.Settled t'.request.slotKey t'.request.head done' :=
    htruth t' ht' _ hphase'
  rw [← hkey] at hsettled'
  exact hsettled.unique hsettled'

/-- The move of a task that owes an outcome, on the way to it. -/
def due : LandPhase Id → Option LandMove
  | .resolving => some .resolve
  | .writing _ => some .write
  | .written _ => some .publish
  | .dropped => some .failJoiners
  | _ => none

/-- A key has one leader at a time. A joiner's outcome is there to take, or the
task it waits for has a next move of its own and waits for nobody; and a joiner
that reads the settled row finds it. -/
theorem land_leads_of_reach {ok : LandDesk Id → LandDeskEvent Id → Prop} {d : LandDesk Id}
    (h : Lib.Reach Start LandDesk.step ok d) :
    (∀ (i j : ℕ) (t t' : LandTask Id), d.tasks[i]? = some t → d.tasks[j]? = some t' →
      t.phase.Guards → t'.phase.Guards → t.request.slotKey = t'.request.slotKey → i = j) ∧
    (∀ (i leader : ℕ) (t : LandTask Id), d.tasks[i]? = some t → t.phase = .joining leader →
      (d.step (.task i .join)).isSome ∨ ∃ (l : LandTask Id) (m : LandMove),
        d.tasks[leader]? = some l ∧ l.request.slotKey = t.request.slotKey ∧
        due l.phase = some m ∧ (d.step (.task leader m)).isSome) ∧
    ∀ t ∈ d.tasks, t.phase = .replaying → ∃ done, settledReplay d.server t.request = .ok done := by
  have hinv := inv_of_reach h
  refine ⟨?_, ?_, ?_⟩
  · intro i j t t' ht ht' hguards hguards' hkey
    have hentry : ∀ (i : ℕ) (t : LandTask Id), d.tasks[i]? = some t → t.phase.Guards →
        (t.request.slotKey, i) ∈ d.joins := fun i t ht hguards =>
          ((hinv.tasks i t ht).guarded rfl hguards).1
    have hi := hentry i t ht hguards
    have hj := hentry j t' ht' hguards'
    rw [← hkey] at hj
    have hpair := List.inj_on_of_nodup_map hinv.keys hi hj rfl
    exact (Prod.mk.inj hpair).2
  · intro i leader t ht hphase
    have htask := hinv.tasks i t ht
    rw [hphase] at htask
    cases htask with
    | joining leader l hleader hkey hleads =>
        rcases hleads with houtcome | howes
        · refine .inl ?_
          obtain ⟨outcome, houtcome⟩ := Option.isSome_iff_exists.mp houtcome
          simp [LandDesk.step, ht, LandDesk.move, hphase, outcomeOf_eq hleader, houtcome]
        · refine .inr ⟨l, ?_⟩
          cases hl : l.phase with
          | resolving =>
              refine ⟨.resolve, hleader, hkey, rfl, ?_⟩
              simp only [LandDesk.step, hleader, Option.bind_some, LandDesk.move, hl]
              split <;> rfl
          | writing r =>
              exact ⟨.write, hleader, hkey, rfl, by
                simp [LandDesk.step, hleader, LandDesk.move, hl]⟩
          | written answer =>
              exact ⟨.publish, hleader, hkey, rfl, by
                simp [LandDesk.step, hleader, LandDesk.move, hl]⟩
          | dropped =>
              exact ⟨.failJoiners, hleader, hkey, rfl, by
                simp [LandDesk.step, hleader, LandDesk.move, hl]⟩
          | _ =>
              rw [hl] at howes
              exact howes.elim
  · intro t ht hphase
    obtain ⟨i, hi⟩ := List.mem_iff_getElem?.mp ht
    have htask := hinv.tasks i t hi
    rw [hphase] at htask
    cases htask with
    | replaying done hsettled => exact ⟨done, settledReplay_ok hsettled⟩

/-- The closure of a land of the key runs. -/
inductive Writes (d : LandDesk Id) (k : LandJoinKey) : LandDeskEvent Id → Prop
  | task (i : ℕ) (t : LandTask Id) (ht : d.tasks[i]? = some t) (hkey : t.request.slotKey = k) :
      Writes d k (.task i .write)
  | detached (j : ℕ) (entry : RepoId × LandRequest Id) (hentry : d.detached[j]? = some entry)
      (hkey : entry.2.slotKey = k) : Writes d k (.detachedWrite j)

/-- Every table of every repository, the trees and the snapshots are as they were:
blob bytes may have come, and in the split layout rows for them in the catalog. -/
def WroteBlobs (s s' : Server Id) : Prop :=
  ∃ cas cat, s' = { s with cas := cas, cat := if s.layout = .singleDb then s.cat else cat }

theorem WroteBlobs.refl (s : Server Id) : WroteBlobs s s :=
  ⟨s.cas, s.cat, by rw [ite_self]⟩

end LandDesk

end

/-! ### One key, four requests -/

namespace LandDesk.OneKey

open Server

/-- An import and a create on top of it, no request yet. -/
def start : LandDesk PlainId := ⟨StaleTip.start, ⟨[], [], [], []⟩, [], [], []⟩

def edited : List (LandDeskEvent PlainId) := HistoryKept.edited.map .server

def head : PlainId := StaleTip.lastOf HistoryKept.edited

def request (head : PlainId) : LandRequest PlainId := ⟨"r", "ann", .writer, none, head, "k", none, false⟩

def leads (i : ℕ) : List (LandDeskEvent PlainId) :=
  [.resolve, .write, .publish, .deregister].map (.task i)

/-- A leader, a joiner, a joiner with another head, and a retry. -/
def shared : List (LandDeskEvent PlainId) :=
  edited ++ [LandDeskEvent.request (request head), .request (request head), .request (request [7])] ++
    leads 0 ++ [LandDeskEvent.task 1 .join, .task 2 .join, .request (request head)] ++ leads 3

/-- A leader cancelled while its closure is on the pool, its joiner, the closure
on its own, and a retry up to its own closure. -/
def orphaned : List (LandDeskEvent PlainId) :=
  edited ++ [LandDeskEvent.request (request head), .request (request head), .task 0 .resolve,
    .task 0 .cancel, .detachedWrite 0, .request (request head), .task 2 .resolve]

theorem start_ok : Start start :=
  ⟨⟨.dbPerRepo, [(1, "r")], 100, 10, by decide, rfl⟩, rfl, rfl, rfl⟩

theorem reach {events : List (LandDeskEvent PlainId)} {d : LandDesk PlainId}
    (h : Lib.exec LandDesk.step start events = some d) :
    Lib.Reach Start LandDesk.step (fun _ _ => True) d :=
  Lib.Reach.exec (.start start_ok) (fun _ _ _ => trivial) h

end LandDesk.OneKey

namespace LandDesk

open OneKey in
/-- The joiner and the retry are served one result. -/
theorem land_answers_of_reach_shared : ∃ d t t' done, Lib.exec LandDesk.step start shared = some d ∧
    d.tasks[1]? = some t ∧ d.tasks[3]? = some t' ∧ t.served = some done ∧ t'.served = some done := by
  have hrun : (Lib.exec LandDesk.step start shared).any (fun d =>
      (d.tasks[1]?).any (fun t => (d.tasks[3]?).any fun t' =>
        t.served.isSome && t'.served.isSome &&
          decide (t.request.slotKey = t'.request.slotKey))) = true := by
    decide +kernel
  obtain ⟨d, hd, hrun⟩ := (Option.any_eq_true _ _).mp hrun
  obtain ⟨t, ht, hrun⟩ := (Option.any_eq_true _ _).mp hrun
  obtain ⟨t', ht', hrun⟩ := (Option.any_eq_true _ _).mp hrun
  simp only [Bool.and_eq_true, decide_eq_true_eq] at hrun
  obtain ⟨⟨hserved, hserved'⟩, hkey⟩ := hrun
  obtain ⟨done, hdone⟩ := Option.isSome_iff_exists.mp hserved
  obtain ⟨done', hdone'⟩ := Option.isSome_iff_exists.mp hserved'
  obtain ⟨-, rfl⟩ := (land_answers_of_reach (reach hd)).2.2 t (List.mem_of_getElem? ht) t'
    (List.mem_of_getElem? ht') hkey done done' (LandTask.served_eq hdone)
    (LandTask.served_eq hdone')
  exact ⟨d, t, t', done, hd, ht, ht', hdone, hdone'⟩

open OneKey in
/-- The joiner of the cancelled leader, and what it waits for. -/
theorem land_leads_of_reach_orphaned : ∃ d t, Lib.exec LandDesk.step start orphaned = some d ∧
    d.tasks[1]? = some t ∧ t.awaits = some 0 ∧
    ((d.step (.task 1 .join)).isSome ∨ ∃ (l : LandTask PlainId) (m : LandMove),
      d.tasks[0]? = some l ∧ l.request.slotKey = t.request.slotKey ∧ due l.phase = some m ∧
        (d.step (.task 0 m)).isSome) := by
  have hrun : (Lib.exec LandDesk.step start orphaned).any (fun d =>
      (d.tasks[1]?).any fun t => decide (t.awaits = some 0)) = true := by
    decide +kernel
  obtain ⟨d, hd, hrun⟩ := (Option.any_eq_true _ _).mp hrun
  obtain ⟨t, ht, hrun⟩ := (Option.any_eq_true _ _).mp hrun
  have hawaits := of_decide_eq_true hrun
  exact ⟨d, t, hd, ht, hawaits,
    (land_leads_of_reach (reach hd)).2.1 1 0 t ht (LandTask.awaits_eq hawaits)⟩

end LandDesk

end Naatre
