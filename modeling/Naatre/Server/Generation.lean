import Naatre.Core.Plain
import Naatre.Server.ServeSteps

/-!
Generations: every changeset sits one above the highest of its parents.

Three writers count the number on their own. A create and the importer count
it from the parents they looked up; a land carries it in a loop variable, which
the branch that adopts a node leaves where it was.
-/

namespace Naatre

section

variable {Id : Type} [Platform Id]

/-! ### The law -/

/-- The generation a changeset with these parents has, all of them stored. -/
def GenerationLaw (db : RepoTables Id) (parents : List Id) (generation : ℕ) : Prop :=
  ∃ gens, List.Forall₂ (fun p g => generationOf db p = some g) parents gens ∧
    generation = nextGeneration gens

/-- Every changeset of a repository has the generation its parents give it. -/
def Generations (db : RepoTables Id) : Prop :=
  ∀ row ∈ db.changesets, GenerationLaw db row.parents row.generation

instance (db : RepoTables Id) (parents : List Id) (generation : ℕ) :
    Decidable (GenerationLaw db parents generation) :=
  decidable_of_iff
    ((parents.mapM (generationOf db)).any (fun gens => decide (generation = nextGeneration gens)))
    ⟨fun h => by
      obtain ⟨gens, hgens, heq⟩ := (Option.any_eq_true _ _).mp h
      exact ⟨gens, Lib.forall₂_of_mapM hgens, by simpa using heq⟩,
    fun ⟨gens, hgens, heq⟩ => by
      rw [Lib.mapM_of_forall₂ hgens]
      simpa using heq⟩

instance (db : RepoTables Id) : Decidable (Generations db) :=
  inferInstanceAs (Decidable (∀ row ∈ db.changesets, _))

theorem generationOf_keeps {db db' : RepoTables Id} (hkeeps : db.Keeps db') {id : Id} {g : ℕ}
    (h : generationOf db id = some g) : generationOf db' id = some g := by
  obtain ⟨row, hrow, rfl⟩ := Option.map_eq_some_iff.mp h
  rw [generationOf, hkeeps id row hrow, Option.map_some]

theorem GenerationLaw.keep {db db' : RepoTables Id} {parents : List Id} {generation : ℕ}
    (h : GenerationLaw db parents generation) (hkeeps : db.Keeps db') :
    GenerationLaw db' parents generation := by
  obtain ⟨gens, hgens, heq⟩ := h
  exact ⟨gens, hgens.imp fun _ _ hg => generationOf_keeps hkeeps hg, heq⟩

theorem nextGeneration_gt {gens : List ℕ} {g : ℕ} (hg : g ∈ gens) : g < nextGeneration gens := by
  have hne : gens ≠ [] := List.ne_nil_of_mem hg
  obtain ⟨m, hm⟩ := Option.ne_none_iff_exists'.mp (mt List.max?_eq_none_iff.mp hne)
  have hle := (List.max?_le_iff hm).mp le_rfl g hg
  rw [nextGeneration, hm]
  exact Nat.lt_succ_of_le hle

/-- Along a parent edge the generation rises. -/
theorem GenerationLaw.lt {db : RepoTables Id} {parents : List Id} {generation : ℕ}
    (h : GenerationLaw db parents generation) {p : Id} (hp : p ∈ parents) :
    ∃ row, changesetGet db p = some row ∧ row.generation < generation := by
  obtain ⟨gens, hgens, rfl⟩ := h
  obtain ⟨g, hg, hpg⟩ := Lib.forall₂_left hgens hp
  obtain ⟨row, hrow, rfl⟩ := Option.map_eq_some_iff.mp hpg
  exact ⟨row, hrow, nextGeneration_gt hg⟩

/-- A single parent: the child sits one above it. -/
theorem GenerationLaw.single {db : RepoTables Id} {p : Id} {g : ℕ}
    (h : generationOf db p = some g) : GenerationLaw db [p] (g + 1) :=
  ⟨[g], .cons h .nil, rfl⟩

/-- The running maximum of the importer counts the same. -/
theorem foldl_max_succ (gens : List ℕ) :
    gens.foldl (fun g parent => max g (parent + 1)) 0 = nextGeneration gens := by
  have hrun : ∀ (l : List ℕ) (m : ℕ),
      l.foldl (fun g parent => max g (parent + 1)) (m + 1) = l.foldl max m + 1 := by
    intro l
    induction l with
    | nil => intro m; rfl
    | cons x l ih =>
        intro m
        rw [List.foldl_cons, List.foldl_cons, ← ih, Nat.add_max_add_right]
  cases gens with
  | nil => rfl
  | cons g gens =>
      rw [List.foldl_cons, Nat.zero_max, hrun, nextGeneration, List.max?_cons']
      rfl

/-! ### One insert -/

/-- A new row keeps the law when it meets it itself. -/
theorem Generations.insert {cx cx' : RepoCx Id} {rec : ChangesetInsert Id}
    (h : changesetInsertRows cx rec = some cx') (hrows : Generations cx.db)
    (hnew : GenerationLaw cx.db rec.canonical.cs.parents rec.generation) :
    Generations cx'.db ∧ cx.db.Keeps cx'.db ∧
      generationOf cx'.db rec.id = some rec.generation := by
  obtain ⟨hfresh, hcx⟩ := changesetInsertRows_some h
  have hrows' : cx'.db.changesets = cx.db.changesets ++ [rec.row] := by rw [hcx]
  have hkeeps : cx.db.Keeps cx'.db := .of_append hrows'
  refine ⟨fun row hrow => ?_, hkeeps, ?_⟩
  · rw [hrows'] at hrow
    rcases List.mem_append.mp hrow with hrow | hrow
    · exact (hrows row hrow).keep hkeeps
    · rw [List.mem_singleton.mp hrow]
      exact hnew.keep hkeeps
  · have hget : changesetGet cx'.db rec.id = some rec.row :=
      changesetGet_append_new hrows' hfresh
    rw [generationOf, hget]
    rfl

/-- Tables with the same changesets have the same generations. -/
theorem Generations.of_eq {db db' : RepoTables Id} (h : Generations db)
    (heq : db'.changesets = db.changesets) : Generations db' :=
  fun row hrow => (h row (heq ▸ hrow)).keep (.of_eq heq)

/-! ### Creates -/

/-- A prepared create counted its generation from stored parents. -/
theorem createPrepare_generation {db : RepoTables Id} {repoId nowNs : ℕ}
    {req : CreateRequest Id} {metas : ParentMetas Id} {p : PreparedCreate Id}
    (hlookup : createLookup db req = .ok metas)
    (hprepare : createPrepare repoId nowNs req metas = .ok p) :
    GenerationLaw db p.canonical.cs.parents p.generation := by
  obtain ⟨-, hparents, rfl⟩ := createLookup_ok hlookup
  obtain ⟨hcs, hgeneration, -⟩ := createPrepare_ok hprepare
  rw [hcs, hgeneration]
  refine ⟨_, ?_, rfl⟩
  generalize req.parents = parents at hparents
  induction parents with
  | nil => exact .nil
  | cons p parents ih =>
      obtain ⟨row, hrow⟩ := Option.isSome_iff_exists.mp (hparents p List.mem_cons_self)
      simp only [List.filterMap_cons, hrow, Option.map_some, List.map_cons]
      exact .cons (by rw [generationOf, hrow, Option.map_some])
        (ih fun q hq => hparents q (List.mem_cons_of_mem _ hq))

/-! ### Lands -/

/-- The running generation is the tip's own until a node is adopted, and a
node inserted before that meets the law. -/
theorem LandTrace.generations {cmd : LandCommand Id} {st st' : LandState Id} {chain : List Id}
    {os : List NodeOutcome} (h : LandTrace cmd st chain os st')
    (hstale : ¬ List.Sublist [.adopted, .inserted] os) (hrows : Generations st.cx.db)
    (htip : generationOf st.cx.db st.tipId = some st.tipGen ∨ .inserted ∉ os) :
    Generations st'.cx.db := by
  induction h with
  | nil st => exact hrows
  | cons hnode hrest ih =>
      have htail := fun hsub => hstale (List.Sublist.cons _ hsub)
      cases hnode with
      | dropped m hdelta hreps =>
          exact ih htail hrows (htip.imp_right fun hno hin => hno (List.mem_cons_of_mem _ hin))
      | adopted m canonical hencode hgate hid stored hput =>
          obtain ⟨cas, cat, written, rfl⟩ := putBlobs_ok hput
          refine ih htail hrows (.inr fun hin => hstale ?_)
          exact (List.singleton_sublist.mpr hin).cons_cons _
      | inserted m canonical hencode hgate hid stored st' hput hinsert =>
          obtain ⟨cas, cat, written, rfl⟩ := putBlobs_ok hput
          obtain ⟨rootTreeId, size, trees, cx, -, hrow, rfl⟩ := landInsert_ok hinsert
          have hgen := htip.resolve_right fun hno => hno List.mem_cons_self
          have hparents : canonical.cs.parents = [_] :=
            congrArg Changeset.parents (Changeset.encode_ok hencode)
          obtain ⟨hrows', -, hnew⟩ := Generations.insert hrow hrows
            (hparents ▸ GenerationLaw.single hgen)
          exact ih htail hrows' (.inl hnew)

theorem LandTrace.length_eq {cmd : LandCommand Id} {st st' : LandState Id} {chain : List Id}
    {os : List NodeOutcome} (h : LandTrace cmd st chain os st') : os.length = chain.length := by
  induction h with
  | nil => rfl
  | cons _ _ ih => rw [List.length_cons, List.length_cons, ih]

/-- The land adopts a node of its chain and inserts a later one. -/
def AdoptsThenInserts (cx : RepoCx Id) (cmd : LandCommand Id) : Prop :=
  ∃ (f : FreshLand cx cmd) (b : Rebase f.pending cmd f.oldMain f.contained)
    (os : List NodeOutcome), LandTrace cmd b.start b.chain os b.final ∧
      List.Sublist [.adopted, .inserted] os

theorem LandSuccess.generations {cx cx' : RepoCx Id} {cmd : LandCommand Id} {done : LandDone Id}
    (h : LandSuccess cx cmd done cx') (hstale : ¬ AdoptsThenInserts cx cmd)
    (hrows : Generations cx.db) : Generations cx'.db := by
  cases h with
  | replay row result hrow hstate hhead hresult => exact hrows
  | contained f hin => exact hrows.of_eq rfl
  | rebased f hout b =>
      obtain ⟨os, hos⟩ := landTrace_exists b.loop
      have hstart : Generations b.start.cx.db := hrows.of_eq rfl
      have htip : generationOf b.start.cx.db b.start.tipId = some b.start.tipGen := by
        rw [generationOf, show changesetGet b.start.cx.db b.start.tipId = _ from b.main_ok]
        rfl
      exact (hos.generations (fun hsub => hstale ⟨f, b, os, hos, hsub⟩) hstart
        (.inl htip)).of_eq rfl

/-! ### Imports -/

/-- The commits of a run keep the law: each finds its parents among the rows
of before the run or among the commits imported so far. -/
theorem Imported.generations {nowNs : ℕ} {db : RepoTables Id} {cx cx' : RepoCx Id}
    {ps : List (PreparedCommit Id)} (h : Imported nowNs cx ps cx')
    (before : List (PreparedCommit Id))
    (hresolved : ∀ mid p after, ps = mid ++ p :: after → ParentsResolved db (before ++ mid) p)
    (hkeeps : db.Keeps cx.db)
    (hbefore : ∀ q ∈ before, generationOf cx.db q.csId = some q.generation)
    (hrows : Generations cx.db) : Generations cx'.db := by
  induction h generalizing before with
  | nil cx => exact hrows
  | @cons cx mid cx' p ps hcommit _ ih =>
      obtain ⟨c⟩ := hcommit
      obtain ⟨cas, cat, hstored⟩ := c.puts.frame
      have hdb : c.stored.db = cx.db := by rw [hstored]
      have hlaw : GenerationLaw c.stored.db p.canonical.cs.parents p.generation := by
        obtain ⟨gens, hgens, hgeneration⟩ := hresolved [] p ps rfl
        rw [List.append_nil] at hgens
        refine ⟨gens, hgens.imp fun parent g hg => ?_, hgeneration.trans (foldl_max_succ gens)⟩
        rw [hdb]
        rcases hg with hg | ⟨q, hq, rfl, rfl⟩
        · exact generationOf_keeps hkeeps hg
        · exact hbefore q hq
      obtain ⟨hrows', hkeeps', hnew⟩ := Generations.insert c.insert_ok (hdb ▸ hrows) hlaw
      rw [hdb] at hkeeps'
      refine ih (before ++ [p]) (fun m q after heq => ?_) (hkeeps.trans hkeeps') ?_ hrows'
      · have := hresolved (p :: m) q after (by simp [heq])
        simpa using this
      · intro q hq
        rcases List.mem_append.mp hq with hq | hq
        · exact generationOf_keeps hkeeps' (hbefore q hq)
        · rw [List.mem_singleton.mp hq]
          exact hnew

theorem RunBackend.generations {nowNs : ℕ} {cx cx' : RepoCx Id} {git : GitRepo}
    {opts : ImportOptions} {head : GitOid} (h : RunBackend nowNs cx git opts head cx')
    (hrows : Generations cx.db) : Generations cx'.db := by
  cases h with
  | untouched => exact hrows
  | commits sc k mid cx' himported hputs =>
      obtain ⟨cas, cat, rfl⟩ := hputs.frame
      exact himported.generations [] (sc.resolved.take k) (.refl _)
        (by simp) hrows
  | grafted sc last main db himported hgraft =>
      have hlast := himported.generations [] sc.resolved (.refl _)
        (by simp) hrows
      obtain ⟨refs, rfl⟩ := (graftMain_cases hgraft).refs_only
      exact hlast.of_eq rfl

/-! ### Runs -/

namespace Server

/-- What the law needs of a step: the collector deletes no rows, and no land
adopts a node and inserts a later one. -/
def GenerationSafe (s : Server Id) : Event Id → Prop
  | .gcStep => False
  | .land r cmd => ¬ AdoptsThenInserts (s.cx r) { cmd with nowNs := s.nowNs }
  | _ => True

/-- The rows and the creates in flight meet the law. -/
structure GenerationInv (s : Server Id) : Prop where
  rows : ∀ r, Generations (s.dbs r)
  creates : ∀ r p, (r, p) ∈ s.creates →
    GenerationLaw (s.dbs r) p.canonical.cs.parents p.generation

theorem GenerationInv.boot (layout : Layout) (repos : List (RepoId × String)) (nowNs graceNs : ℕ) :
    GenerationInv (boot layout repos nowNs graceNs : Server Id) where
  rows := fun _ _ hrow => absurd hrow List.not_mem_nil
  creates := fun _ _ hp => absurd hp List.not_mem_nil

theorem GenerationInv.step {s s' : Server Id} {e : Event Id} (hinv : GenerationInv s)
    (hsafe : GenerationSafe s e) (h : s.step e = some s') : GenerationInv s' where
  rows := fun r => by
    have hrows := hinv.rows r
    have hdb := step_db h r
    generalize s'.dbs r = db at hdb
    cases hdb with
    | unchanged => exact hrows
    | createWrite i p cx hpending hpersist =>
        obtain ⟨w⟩ := hpersist
        have hlaw := hinv.creates r p (List.mem_of_getElem? hpending)
        exact (Generations.insert w.insert_ok hrows hlaw).1
    | land cmd done cx hland => exact hland.generations hsafe hrows
    | importGit git opts head stop cx hquiescent hrun => exact hrun.generations hrows
    | casRef req done db hmain hredacted hwritten =>
        cases hwritten <;> exact hrows.of_eq rfl
    | mark id kind =>
        obtain ⟨redactions, hmark⟩ := redactionMark_db (s.dbs r) id kind s.nowNs
        rw [hmark]
        exact hrows.of_eq rfl
    | gcStep => exact absurd hsafe not_false
  creates := fun r p hp => by
    have hkeeps := (step_db h r).keeps (by rintro rfl; exact hsafe)
    rcases step_creates h hp with hold | ⟨req, metas, -, hlookup, hprepare⟩
    · exact (hinv.creates r p hold).keep hkeeps
    · exact (createPrepare_generation hlookup hprepare).keep hkeeps

/-- In every run without a collector's step whose lands insert nothing on top
of a node they adopted, each changeset has the generation its parents give it,
and the generation rises along every parent edge. -/
theorem generations_of_reach {s : Server Id} (h : Reach GenerationSafe s) (r : RepoId) :
    ∀ row ∈ (s.dbs r).changesets,
      GenerationLaw (s.dbs r) row.parents row.generation ∧
        ∀ p ∈ row.parents, ∃ parent, changesetGet (s.dbs r) p = some parent ∧
          parent.generation < row.generation := by
  have hinv : GenerationInv s := by
    refine Lib.Reach.invariant ?_ (fun s e s' _ hinv hsafe he => hinv.step hsafe he) h
    rintro s ⟨layout, repos, nowNs, graceNs, -, rfl⟩
    exact .boot layout repos nowNs graceNs
  intro row hrow
  have hlaw := hinv.rows r row hrow
  exact ⟨hlaw, fun p hp => hlaw.lt hp⟩

end Server

end

/-! ### A chain adopted and inserted -/

namespace Server.StaleTip

/-- One imported commit, three uploaded texts. -/
def source : GitRepo :=
  [⟨1, [], "ann", "first", 5, .entry "a" (.blob .regular 11 [97, 10]) .empty⟩]

def start : Server PlainId := boot .dbPerRepo [(1, "r")] 100 10

def upload (bytes : Bytes) : List (Event PlainId) := [.putBytes 1 bytes, .record 1 bytes]

/-- The changeset inserted last by a run. -/
def lastOf (events : List (Event PlainId)) : PlainId :=
  ((Lib.exec step start events).bind fun s =>
    (s.dbs 1).changesets.getLast?.map (fun row => row.id)).getD []

/-- A create on top of the changeset inserted last. -/
def create (events : List (Event PlainId)) (op : Op) (bytes : Bytes) : List (Event PlainId) :=
  events ++
    [Event.createLookup 1
      { repoName := "r"
        principal := "ann"
        scope := none
        parents := [lastOf events]
        author := "ann"
        message := "edit"
        timestampNs := some 7
        changes := [⟨⟨[], "a"⟩, op, some (Platform.blobId bytes), some 2, some false⟩] },
    .createWrite 0]

def imported : List (Event PlainId) :=
  .importGit 1 source ⟨false, false⟩ 1 1 :: upload [98, 10] ++ upload [99, 10]

/-- Two creates on top of the import: the second adds a path that is there. -/
def created : List (Event PlainId) := create (create imported .mod [98, 10]) .add [99, 10]

/-- The land of both: the first is adopted, the second lands as a modification
on top of it. -/
def landed : List (Event PlainId) :=
  created ++ [.land 1 ⟨"r", "ann", none, lastOf created, "k", none, false, 0⟩]

def editedOnce : List (Event PlainId) := create imported .mod [98, 10]

/-- The land of the first create alone, and another create on top of it. -/
def landedOne : List (Event PlainId) :=
  create (editedOnce ++ [.land 1 ⟨"r", "ann", none, lastOf editedOnce, "k", none, false, 0⟩]) .mod
    [99, 10]

/-- At most one node lies between `main` and the head. -/
def oneNode (cx : RepoCx PlainId) (cmd : LandCommand PlainId) : Bool :=
  ((refGet cx.db "main").bind fun row => row.target).all fun oldMain =>
    (inMain cx.db oldMain).all fun contained =>
      match chainWalk (landInsertPending cx.db cmd.principal cmd.key cmd.head) contained
          (cx.db.changesets.length + 1) cmd.head with
      | .ok (newestFirst, _) => decide (newestFirst.length ≤ 1)
      | .error _ => true

theorem not_adoptsThenInserts {cx : RepoCx PlainId} {cmd : LandCommand PlainId}
    (h : oneNode cx cmd = true) : ¬ AdoptsThenInserts cx cmd := by
  rintro ⟨f, b, os, htrace, hsub⟩
  have hchain : chainWalk (landInsertPending cx.db cmd.principal cmd.key cmd.head) f.contained
      (cx.db.changesets.length + 1) cmd.head = .ok (b.newestFirst, b.exit) := b.chain_ok
  rw [oneNode, f.main_ref, Option.bind_some, f.main_target, Option.all_some, f.contained_ok,
    Option.all_some] at h
  simp only [hchain, decide_eq_true_eq] at h
  have hlen : os.length = b.chain.length := htrace.length_eq
  have htwo := hsub.length_le
  rw [hlen, Rebase.chain, List.length_reverse] at htwo
  exact absurd (htwo.trans h) (by decide)

/-- No collection, and no land of more than one node. -/
def checked (s : Server PlainId) : Event PlainId → Bool
  | .gcStep => false
  | .land r cmd => oneNode (s.cx r) { cmd with nowNs := s.nowNs }
  | _ => true

theorem generationSafe_of_checked {s : Server PlainId} {e : Event PlainId}
    (h : checked s e = true) : GenerationSafe s e := by
  cases e with
  | gcStep => cases h
  | land r cmd => exact not_adoptsThenInserts h
  | _ => trivial

end Server.StaleTip

namespace Server

open StaleTip in
/-- The law in a run of an import, a create, its land and a create on top of it. -/
theorem generations_of_reach_created : ∃ s,
    Lib.execIf step (fun s e => checked s e = true) start landedOne = some s ∧
    (s.dbs 1).changesets.length = 3 ∧ (landGet (s.dbs 1) "ann" "k").isSome ∧
    ∀ row ∈ (s.dbs 1).changesets, GenerationLaw (s.dbs 1) row.parents row.generation ∧
      ∀ p ∈ row.parents, ∃ parent, changesetGet (s.dbs 1) p = some parent ∧
        parent.generation < row.generation := by
  have hrun : (Lib.execIf step (fun s e => checked s e = true) start landedOne).any (fun s =>
      decide ((s.dbs 1).changesets.length = 3) && (landGet (s.dbs 1) "ann" "k").isSome) = true := by
    decide +kernel
  obtain ⟨s, hs, hholds⟩ := (Option.any_eq_true _ _).mp hrun
  obtain ⟨hlength, hlanded⟩ := Bool.and_eq_true_iff.mp hholds
  have hstart : Init start := ⟨.dbPerRepo, [(1, "r")], 100, 10, by decide, rfl⟩
  have hreach : Reach (fun s e => checked s e = true) s := Lib.Reach.execIf (.start hstart) hs
  have hsafe : Reach GenerationSafe s :=
    Lib.Reach.mono (fun _ _ => generationSafe_of_checked) hreach
  exact ⟨s, hs, of_decide_eq_true hlength, hlanded, generations_of_reach hsafe 1⟩

open StaleTip in
/-- The changeset inserted on top of the adopted one has its generation. -/
theorem stale_generation : ∃ s, Lib.exec step start landed = some s ∧ ¬ Generations (s.dbs 1) := by
  have h : (Lib.exec step start landed).any (fun s => !decide (Generations (s.dbs 1))) = true := by
    decide +kernel
  obtain ⟨s, hs, hbad⟩ := (Option.any_eq_true _ _).mp h
  exact ⟨s, hs, by simpa using hbad⟩

end Server

end Naatre
