import Naatre.Server.GcSteps
import Naatre.Server.ImportSteps
import Naatre.Server.Serve

/-!
What one step of the system does: one case for each thing an event can do, and
from it what becomes of the tables of one repository and of the creates in
flight.
-/

namespace Naatre

section

variable {Id : Type} [Platform Id]

namespace Server

theorem step_serve {s s' : Server Id} {e : Event Id} (h : s.step e = some s') :
    Event.known s e ∧ s.serve e = some s' := by
  unfold step at h
  split_ifs at h with hknown
  exact ⟨hknown, h⟩

/-- What a step did, by the event. -/
inductive Stepped (s : Server Id) : Event Id → Server Id → Prop
  /-- a request that was refused before it wrote anything -/
  | refused (e : Event Id) : Stepped s e s
  | tick (ns : ℕ) : Stepped s (.tick ns) { s with nowNs := s.nowNs + ns }
  | createLookup (r : RepoId) (req : CreateRequest Id) (metas : ParentMetas Id)
      (p : PreparedCreate Id) (hlookup : createLookup (s.dbs r) req = .ok metas)
      (hprepare : createPrepare r s.nowNs req metas = .ok p) :
      Stepped s (.createLookup r req) { s with creates := s.creates ++ [(r, p)] }
  | createWrite (i : ℕ) (r : RepoId) (p : PreparedCreate Id) (cx : RepoCx Id)
      (hpending : s.creates[i]? = some (r, p)) (hpersist : Nonempty (Persisted (s.cx r) p cx)) :
      Stepped s (.createWrite i) (Server.put { s with creates := s.creates.eraseIdx i } r cx)
  | createRefused (i : ℕ) (r : RepoId) (p : PreparedCreate Id)
      (hpending : s.creates[i]? = some (r, p)) :
      Stepped s (.createWrite i) { s with creates := s.creates.eraseIdx i }
  | land (r : RepoId) (cmd : LandCommand Id) (done : LandDone Id) (cx : RepoCx Id)
      (hland : LandSuccess (s.cx r) { cmd with nowNs := s.nowNs } done cx) :
      Stepped s (.land r cmd) (s.put r cx)
  /-- the rows are rolled back, the blobs stay -/
  | landAborted (r : RepoId) (cmd : LandCommand Id) (cas : List (Id × Bytes)) (cat : Catalog Id)
      (hwrites : BlobWrites s.nowNs (fun id => redactionActive (s.dbs r) id = false)
        (s.cas, s.cat) (cas, cat)) :
      Stepped s (.land r cmd) (s.put r
        { s.cx r with cas := cas, cat := if s.layout = .singleDb then s.cat else cat })
  | importGit (r : RepoId) (git : GitRepo) (opts : ImportOptions) (head : GitOid) (stop : ℕ)
      (cx : RepoCx Id) (hquiescent : s.quiescent)
      (hrun : RunBackend s.nowNs (s.cx r) git opts head cx) :
      Stepped s (.importGit r git opts head stop) (s.put r cx)
  | casRef (r : RepoId) (req : RefRequest Id) (done : RefResponse Id) (db : RepoTables Id)
      (hmain : req.name ≠ "main") (hredacted : redactionActive (s.dbs r) req.target = false)
      (hwritten : RefWritten (s.dbs r) req done db) :
      Stepped s (.casRef r req) (s.put r { s.cx r with db := db })
  | putBytes (r : RepoId) (bytes : Bytes) (cas : List (Id × Bytes))
      (hput : casPut s.cas bytes = some cas) :
      Stepped s (.putBytes r bytes) (s.put r { s.cx r with cas := cas })
  | recorded (r : RepoId) (bytes : Bytes)
      (hfree : redactionActive (s.dbs r) (Platform.blobId bytes) = false)
      (hbytes : (casGet s.cas (Platform.blobId bytes)).isSome) :
      Stepped s (.record r bytes) (s.put r
        { s.cx r with
          cat := objectRowUpsert s.cat (Platform.blobId bytes) bytes.length s.nowNs })
  /-- a refused record step still leaves its ledger row -/
  | recordTombstoned (r : RepoId) (bytes : Bytes) :
      Stepped s (.record r bytes) (s.put r
        { s.cx r with cat := gcCandidatesUpsert s.cat .blob [Platform.blobId bytes] s.nowNs })
  | mark (r : RepoId) (id : Id) (kind : RedactionKind) :
      Stepped s (.mark r id kind)
        (s.put r { s.cx r with db := (redactionMark (s.dbs r) id kind s.nowNs).2 })
  | snapshotPut (r : RepoId) (snap : Id) (payload : Bytes) :
      Stepped s (.snapshotPut r snap payload)
        { s with ephemeral := ephemeralPut s.ephemeral snap payload s.nowNs }
  | snapshotPost (r : RepoId) (req : SnapshotRequest Id) (p : PreparedSnapshot Id)
      (done : SnapshotCreated Id) (cx : RepoCx Id) (hprepare : snapshotPrepare req = .ok p)
      (hwritten : SnapshotWritten (s.cx r) s.ephemeral s.nowNs req p done cx) :
      Stepped s (.snapshotPost r req) (s.put r cx)
  | sgcStart : Stepped s .sgcStart s.sgcStart
  | sgcStep (i : ℕ) (pass : SgcPass Id) (hpass : s.snapshotGc[i]? = some pass) :
      Stepped s (.sgcStep i)
        { (s.sgcPassStep pass).1 with
          snapshotGc :=
            match (s.sgcPassStep pass).2 with
            | some pass' => s.snapshotGc.set i pass'
            | none => s.snapshotGc.eraseIdx i }
  | gcStart (hidle : s.gc = none) : Stepped s .gcStart s.gcStart
  | gcStep (pass : GcPass Id) (hpass : s.gc = some pass) :
      Stepped s .gcStep { (s.gcPassStep pass).1 with gc := (s.gcPassStep pass).2 }
  | crash : Stepped s .crash { s with creates := [], gc := none, snapshotGc := [] }

/-- Putting back what was read changes nothing. -/
theorem put_cx (s : Server Id) (r : RepoId) : s.put r (s.cx r) = s := by
  have htrees : (fun f => if f = s.file r then (s.cx r).trees else s.trees f) = s.trees := by
    funext f
    split_ifs with hf
    · rw [hf]; rfl
    · rfl
  have hsnapshots :
      (fun f => if f = s.file r then (s.cx r).snapshots else s.snapshots f) = s.snapshots := by
    funext f
    split_ifs with hf
    · rw [hf]; rfl
    · rfl
  have hdbs : (fun r' => if r' = r then (s.cx r).db else s.dbs r') = s.dbs := by
    funext r'
    split_ifs with hr
    · rw [hr]; rfl
    · rfl
  rw [put, htrees, hsnapshots, hdbs]
  rfl

/-- One case for each thing an event can do. -/
theorem step_cases {s s' : Server Id} {e : Event Id} (h : s.step e = some s') :
    Stepped s e s' := by
  replace h := (step_serve h).2
  unfold serve at h
  cases e with
  | tick ns =>
      cases h
      exact .tick ns
  | createLookup r req =>
      simp only [Option.some.injEq] at h
      rw [← h, createLookupStep]
      split
      · exact .refused _
      next metas hmetas =>
        split
        · exact .refused _
        next p hp => exact .createLookup r req metas p hmetas hp
  | createWrite i =>
      simp only [createWriteStep, Option.map_eq_some_iff] at h
      obtain ⟨⟨r, p⟩, hpending, rfl⟩ := h
      simp only
      split
      · exact .createRefused i r p hpending
      next done cx hpersist => exact .createWrite i r p cx hpending (persist_ok hpersist)
  | land r cmd =>
      simp only [Option.some.injEq] at h
      rw [← h, landStep]
      rcases execute_cases (s.cx r) { cmd with nowNs := s.nowNs } with
        ⟨done, -, hsuccess⟩ | ⟨e, cas, cat, -, hwrites, hcx⟩
      · exact .land r cmd done _ hsuccess
      · rw [hcx]
        have haborted := Stepped.landAborted r cmd cas cat hwrites
        simpa only [cx, decide_eq_true_eq] using haborted
  | importGit r git opts head stop =>
      simp only at h
      split_ifs at h with hquiescent
      cases h
      exact .importGit r git opts head stop _ hquiescent (runBackend_cases _ _ _ _ _ _)
  | casRef r req =>
      simp only [Option.some.injEq] at h
      rw [← h, casRefStep]
      split
      · exact .refused _
      next done db hcas =>
        obtain ⟨hmain, hredacted, hwritten⟩ := casRef_ok hcas
        exact .casRef r req done db hmain hredacted hwritten
  | putBytes r bytes =>
      simp only at h
      split at h
      · cases h
        exact .refused _
      next cx hput =>
        cases h
        unfold Naatre.putBytes at hput
        simp only at hput
        split_ifs at hput
        split at hput
        · cases hput
        next cas hcas =>
          cases hput
          exact .putBytes r bytes cas hcas
  | record r bytes =>
      simp only [Option.some.injEq] at h
      rw [← h]
      unfold recordObject
      split_ifs with hredacted hbytes
      · exact .recordTombstoned r bytes
      · rw [put_cx]
        exact .refused _
      · exact .recorded r bytes (by simpa using hredacted)
          (by simpa [Option.isSome_iff_ne_none, cx] using hbytes)
  | mark r id kind =>
      cases h
      exact .mark r id kind
  | snapshotPut r snap payload =>
      simp only at h
      split at h
      · cases h
        exact .refused _
      next ephemeral hput =>
        cases h
        unfold Naatre.snapshotPut at hput
        simp only at hput
        split_ifs at hput
        cases hput
        exact .snapshotPut r snap payload
  | snapshotPost r req =>
      simp only [Option.some.injEq] at h
      rw [← h, snapshotPostStep]
      split
      · exact .refused _
      next done cx hpost =>
        obtain ⟨p, hprepare, hwritten⟩ := snapshotPost_ok hpost
        exact .snapshotPost r req p done cx hprepare hwritten
  | sgcStart =>
      cases h
      exact .sgcStart
  | sgcStep i =>
      simp only [Server.sgcStep, Option.map_eq_some_iff] at h
      obtain ⟨pass, hpass, rfl⟩ := h
      exact .sgcStep i pass hpass
  | gcStart =>
      simp only at h
      split_ifs at h with hidle
      cases h
      exact .gcStart (by simpa using hidle)
  | gcStep =>
      simp only [Server.gcStep, Option.map_eq_some_iff] at h
      obtain ⟨pass, hpass, rfl⟩ := h
      exact .gcStep pass hpass
  | crash =>
      cases h
      exact .crash

/-- The tables of repository `r` after a step, by the event. -/
inductive DbStep (s : Server Id) (r : RepoId) : Event Id → RepoTables Id → Prop
  | unchanged (e : Event Id) : DbStep s r e (s.dbs r)
  | createWrite (i : ℕ) (p : PreparedCreate Id) (cx : RepoCx Id)
      (hpending : s.creates[i]? = some (r, p)) (hpersist : Nonempty (Persisted (s.cx r) p cx)) :
      DbStep s r (.createWrite i) cx.db
  | land (cmd : LandCommand Id) (done : LandDone Id) (cx : RepoCx Id)
      (hland : LandSuccess (s.cx r) { cmd with nowNs := s.nowNs } done cx) :
      DbStep s r (.land r cmd) cx.db
  | importGit (git : GitRepo) (opts : ImportOptions) (head : GitOid) (stop : ℕ) (cx : RepoCx Id)
      (hquiescent : s.quiescent) (hrun : RunBackend s.nowNs (s.cx r) git opts head cx) :
      DbStep s r (.importGit r git opts head stop) cx.db
  | casRef (req : RefRequest Id) (done : RefResponse Id) (db : RepoTables Id)
      (hmain : req.name ≠ "main") (hredacted : redactionActive (s.dbs r) req.target = false)
      (hwritten : RefWritten (s.dbs r) req done db) : DbStep s r (.casRef r req) db
  | mark (id : Id) (kind : RedactionKind) :
      DbStep s r (.mark r id kind) (redactionMark (s.dbs r) id kind s.nowNs).2
  | gcStep (db : RepoTables Id) (hcollected : (s.dbs r).Collected db) : DbStep s r .gcStep db

/-- Only the collector takes changesets away. -/
theorem DbStep.keeps {s : Server Id} {r : RepoId} {e : Event Id} {db : RepoTables Id}
    (h : DbStep s r e db) (hgc : e ≠ .gcStep) : (s.dbs r).Keeps db := by
  cases h with
  | unchanged => exact .refl _
  | createWrite i p cx hpending hpersist =>
      obtain ⟨w⟩ := hpersist
      exact changesetInsertRows_keeps w.insert_ok
  | land cmd done cx hland => exact hland.keeps
  | importGit git opts head stop cx hquiescent hrun => exact hrun.keeps
  | casRef req done db hmain hredacted hwritten => cases hwritten <;> exact .of_eq rfl
  | mark id kind =>
      obtain ⟨redactions, hmark⟩ := redactionMark_db (s.dbs r) id kind s.nowNs
      rw [hmark]
      exact .of_eq rfl
  | gcStep => exact absurd rfl hgc

/-- Putting one repository back leaves the tables of the others. -/
theorem dbs_put {s : Server Id} {r r' : RepoId} {cx : RepoCx Id} :
    (s.put r cx).dbs r' = if r' = r then cx.db else s.dbs r' := rfl

/-- A snapshot POST never touches a repository's tables. -/
theorem snapshotWritten_db {cx cx' : RepoCx Id} {ephemeral : List (SnapDir Id)} {nowNs : ℕ}
    {req : SnapshotRequest Id} {p : PreparedSnapshot Id} {done : SnapshotCreated Id}
    (h : SnapshotWritten cx ephemeral nowNs req p done cx') : cx'.db = cx.db := by
  cases h <;> rfl

/-- What the snapshot collector never touches. -/
structure SgcFrame (s s' : Server Id) : Prop where
  layout : s'.layout = s.layout
  nowNs : s'.nowNs = s.nowNs
  graceNs : s'.graceNs = s.graceNs
  repos : s'.repos = s.repos
  dbs : s'.dbs = s.dbs
  cas : s'.cas = s.cas
  cat : s'.cat = s.cat
  creates : s'.creates = s.creates

theorem sgcPassStep_frame (s : Server Id) (pass : SgcPass Id) :
    s.SgcFrame (s.sgcPassStep pass).1 := by
  have hsame : s.SgcFrame s := ⟨rfl, rfl, rfl, rfl, rfl, rfl, rfl, rfl⟩
  unfold sgcPassStep
  simp only
  split
  · exact hsame
  · exact hsame
  · exact ⟨rfl, rfl, rfl, rfl, rfl, rfl, rfl, rfl⟩
  · exact hsame
  · split_ifs <;> exact hsame
  · exact ⟨rfl, rfl, rfl, rfl, rfl, rfl, rfl, rfl⟩

/-- A put of unchanged tables. -/
theorem DbStep.of_put {s : Server Id} {r r' : RepoId} {e : Event Id} {cx : RepoCx Id}
    (h : cx.db = s.dbs r') : DbStep s r e ((s.put r' cx).dbs r) := by
  have hdb : (s.put r' cx).dbs r = s.dbs r := by
    rw [dbs_put]
    split_ifs with hr
    · rw [h, hr]
    · rfl
  rw [hdb]
  exact .unchanged e

theorem Stepped.db {s s' : Server Id} {e : Event Id} (h : Stepped s e s') (r : RepoId) :
    DbStep s r e (s'.dbs r) := by
  cases h with
  | createWrite i r' p cx hpending hpersist =>
      rw [dbs_put]
      split_ifs with hr
      · subst hr
        exact .createWrite i p cx hpending hpersist
      · exact .unchanged _
  | land r' cmd done cx hland =>
      rw [dbs_put]
      split_ifs with hr
      · subst hr
        exact .land cmd done _ hland
      · exact .unchanged _
  | landAborted r' cmd cas cat hwrites => exact .of_put rfl
  | importGit r' git opts head stop cx hquiescent hrun =>
      rw [dbs_put]
      split_ifs with hr
      · subst hr
        exact .importGit git opts head stop _ hquiescent hrun
      · exact .unchanged _
  | casRef r' req done db hmain hredacted hwritten =>
      rw [dbs_put]
      split_ifs with hr
      · subst hr
        exact .casRef req done db hmain hredacted hwritten
      · exact .unchanged _
  | putBytes r' bytes cas => exact .of_put rfl
  | recorded r' bytes => exact .of_put rfl
  | recordTombstoned r' bytes => exact .of_put rfl
  | mark r' id kind =>
      rw [dbs_put]
      split_ifs with hr
      · subst hr
        exact .mark id kind
      · exact .unchanged _
  | snapshotPost r' req p done cx hprepare hwritten => exact .of_put (snapshotWritten_db hwritten)
  | sgcStep i pass =>
      have hdbs := (sgcPassStep_frame s pass).dbs
      simp only [hdbs]
      exact .unchanged _
  | gcStep pass hpass =>
      exact .gcStep _ (gcPassStep_collected s pass r)
  | _ => exact .unchanged _

theorem step_db {s s' : Server Id} {e : Event Id} (h : s.step e = some s') (r : RepoId) :
    DbStep s r e (s'.dbs r) := (step_cases h).db r

/-- The layout, the registry and the grace window never change. -/
theorem step_config {s s' : Server Id} {e : Event Id} (h : s.step e = some s') :
    s'.layout = s.layout ∧ s'.repos = s.repos ∧ s'.graceNs = s.graceNs := by
  cases step_cases h with
  | sgcStep i pass =>
      have hframe := sgcPassStep_frame s pass
      exact ⟨hframe.layout, hframe.repos, hframe.graceNs⟩
  | gcStep pass =>
      have hframe := gcPassStep_frame s pass
      exact ⟨hframe.layout, hframe.repos, hframe.graceNs⟩
  | _ => exact ⟨rfl, rfl, rfl⟩

theorem step_file {s s' : Server Id} {e : Event Id} (h : s.step e = some s') (r : RepoId) :
    s'.file r = s.file r := by
  rw [file, (step_config h).1, file]

/-- A create in flight was in flight before, or its lookup is this step. -/
theorem step_creates {s s' : Server Id} {e : Event Id} (h : s.step e = some s') {r : RepoId}
    {p : PreparedCreate Id} (hp : (r, p) ∈ s'.creates) :
    (r, p) ∈ s.creates ∨ ∃ req metas, e = .createLookup r req ∧
      createLookup (s.dbs r) req = .ok metas ∧ createPrepare r s.nowNs req metas = .ok p := by
  have herase : ∀ i, s.creates.eraseIdx i ⊆ s.creates := fun i =>
    (List.eraseIdx_sublist s.creates i).subset
  cases step_cases h with
  | createLookup r' req metas p' hlookup hprepare =>
      rcases List.mem_append.mp hp with hp | hp
      · exact .inl hp
      · rw [List.mem_singleton, Prod.mk.injEq] at hp
        obtain ⟨rfl, rfl⟩ := hp
        exact .inr ⟨req, metas, rfl, hlookup, hprepare⟩
  | createWrite i => exact .inl (herase i hp)
  | createRefused i => exact .inl (herase i hp)
  | sgcStep i pass => exact .inl ((sgcPassStep_frame s pass).creates ▸ hp)
  | gcStep pass => exact .inl ((gcPassStep_frame s pass).creates ▸ hp)
  | crash => exact absurd hp List.not_mem_nil
  | _ => exact .inl hp

end Server

end

end Naatre
