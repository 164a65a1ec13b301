import Naatre.Server.Adopt

/-!
What the steps of an adoption (`naatre-server/src/adopt.rs`) leave: in a run
that ends well, the rows of the new catalog and of every repository's file; in
any other, a catalog without the marker.
-/

namespace Naatre

section

variable {Id : Type} [Platform Id]

/-! ### Rows -/

namespace Database

/-- Rows into several tables. -/
def inserts (db : Database Id) (tables : List Table) (rows : Database Id) : Database Id :=
  tables.foldl (fun db table => db.insert table (rows table)) db

theorem inserts_cons (db : Database Id) (table : Table) (tables : List Table) (rows : Database Id) :
    db.inserts (table :: tables) rows = (db.insert table (rows table)).inserts tables rows := rfl

theorem inserts_of_not_mem (db : Database Id) {tables : List Table} (rows : Database Id)
    {table : Table} (h : table ∉ tables) : db.inserts tables rows table = db table := by
  induction tables generalizing db with
  | nil => rfl
  | cons t tables ih =>
      rw [List.mem_cons, not_or] at h
      rw [inserts_cons, ih _ h.2, insert_of_ne _ _ h.1]

theorem inserts_of_mem (db : Database Id) {tables : List Table} (rows : Database Id)
    (hnodup : tables.Nodup) {table : Table} (h : table ∈ tables) :
    db.inserts tables rows table = db table ++ rows table := by
  induction tables generalizing db with
  | nil => cases h
  | cons t tables ih =>
      rw [List.nodup_cons] at hnodup
      rw [inserts_cons]
      by_cases heq : table = t
      · subst heq
        rw [inserts_of_not_mem _ _ hnodup.1, insert_self]
      · have hmem : table ∈ tables := (List.mem_cons.mp h).resolve_left heq
        rw [ih _ hnodup.2 hmem, insert_of_ne _ _ heq]

theorem insert_insert (db : Database Id) (table : Table) (rows rows' : List (table.Row Id)) :
    (db.insert table rows).insert table rows' = db.insert table (rows ++ rows') := by
  rw [insert, insert_self, insert, Function.update_idem, insert, List.append_assoc]

theorem insert_nil (db : Database Id) (table : Table) : db.insert table [] = db := by
  rw [insert, List.append_nil, Function.update_eq_self]

theorem migrated_of_ne (version : String) {table : Table} (h : table ≠ .metaRows) :
    (migrated version : Database Id) table = [] := by
  cases table <;> first | rfl | exact absurd rfl h

end Database

/-! ### The steps taken -/

section

variable {clock : AdoptClock} {src : Database Id}

/-- The steps of a run that ends well: a file that could not be made is passed
over. -/
inductive Taken (clock : AdoptClock) (src : Database Id) :
    AdoptState Id → List AdoptStep → AdoptState Id → Prop
  | nil (s : AdoptState Id) : Taken clock src s [] s
  | run {s s' t : AdoptState Id} {step : AdoptStep} {steps : List AdoptStep} :
      step.run clock src s = some s' → Taken clock src s' steps t →
        Taken clock src s (step :: steps) t
  | skip {s t : AdoptState Id} {id : RepoId} {steps : List AdoptStep} :
      Taken clock src s steps t → Taken clock src s (.repoDbCreate id :: steps) t

theorem taken_of_takeSteps {faults : ℕ → Option Lib.Fault} {i : ℕ} {s t : AdoptState Id}
    {steps : List AdoptStep} (h : takeSteps clock src faults i s steps = (t, none)) :
    Taken clock src s steps t := by
  induction steps generalizing i s with
  | nil =>
      cases h
      exact .nil _
  | cons step steps ih =>
      rw [takeSteps.eq_def] at h
      dsimp only at h
      split at h
      next => cases h
      next => exact .skip (ih h)
      next => cases h
      next =>
        split at h
        next => cases h
        next s' hrun => exact .run hrun (ih h)

theorem Taken.append {s t : AdoptState Id} {steps steps' : List AdoptStep}
    (h : Taken clock src s (steps ++ steps') t) :
    ∃ m, Taken clock src s steps m ∧ Taken clock src m steps' t := by
  induction steps generalizing s with
  | nil => exact ⟨s, .nil s, h⟩
  | cons step steps ih =>
      rw [List.cons_append] at h
      cases h with
      | run hrun hrest =>
          obtain ⟨m, hm, hlast⟩ := ih hrest
          exact ⟨m, .run hrun hm, hlast⟩
      | skip hrest =>
          obtain ⟨m, hm, hlast⟩ := ih hrest
          exact ⟨m, .skip hm, hlast⟩

/-- A step that makes no file was run. -/
theorem Taken.cons {s t : AdoptState Id} {step : AdoptStep} {steps : List AdoptStep}
    (h : Taken clock src s (step :: steps) t) (hstep : ∀ id, step ≠ .repoDbCreate id) :
    ∃ m, step.run clock src s = some m ∧ Taken clock src m steps t := by
  cases h with
  | run hrun hrest => exact ⟨_, hrun, hrest⟩
  | skip hrest => exact absurd rfl (hstep _)

theorem Taken.of_nil {s t : AdoptState Id} (h : Taken clock src s [] t) : t = s := by
  cases h
  rfl

/-- A property kept by every step is kept by all. -/
theorem Taken.keeps {P : AdoptState Id → Prop} {s t : AdoptState Id} {steps : List AdoptStep}
    (h : Taken clock src s steps t)
    (hstep : ∀ step ∈ steps, ∀ s s', step.run clock src s = some s' → P s → P s') (hs : P s) :
    P t := by
  induction h with
  | nil => exact hs
  | run hrun _ ih =>
      exact ih (fun step hmem => hstep step (List.mem_cons_of_mem _ hmem))
        (hstep _ List.mem_cons_self _ _ hrun hs)
  | skip _ ih => exact ih (fun step hmem => hstep step (List.mem_cons_of_mem _ hmem)) hs

/-! ### The files -/

/-- The directory with a new catalog and new files. -/
def Holds (dir : DataDir Id) (s : AdoptState Id) (catalog : Database Id)
    (files : RepoId → Option (Database Id)) : Prop :=
  s.dir = { dir with catalogDb := some catalog, repos := some files }

section

variable {dir : DataDir Id} {s s' : AdoptState Id} {catalog : Database Id}
  {files : RepoId → Option (Database Id)}

theorem Holds.catalogDb (hs : Holds dir s catalog files) : s.dir.catalogDb = some catalog := by
  rw [hs]

theorem Holds.repos (hs : Holds dir s catalog files) : s.dir.repos = some files := by
  rw [hs]

theorem Holds.of_eq (hs : Holds dir s catalog files) {catalog' : Database Id}
    (h : catalog = catalog') : Holds dir s catalog' files := h ▸ hs

theorem Holds.mapCatalog (hs : Holds dir s catalog files) {f : Database Id → Database Id}
    (h : s.mapCatalog f = some s') : Holds dir s' (f catalog) files := by
  rw [AdoptState.mapCatalog, hs] at h
  cases h
  rfl

theorem Holds.copyInto (hs : Holds dir s catalog files) {id : RepoId} {table : Table}
    {rows : List (table.Row Id)} (h : s.copyInto id table rows = some s') :
    ∃ db, files id = some db ∧
      Holds dir s' catalog (Function.update files id (some (db.insert table rows))) := by
  simp only [AdoptState.copyInto, hs.repos, Option.bind_eq_bind, Option.bind_some,
    Option.bind_eq_some_iff, Option.some.injEq] at h
  obtain ⟨db, hdb, rfl⟩ := h
  refine ⟨db, hdb, ?_⟩
  rw [Holds, hs]

theorem parity_some {id : RepoId} {table : Table} {n : ℕ} (h : s.parity id table n = some s') :
    s' = s := by
  simp only [AdoptState.parity, Option.bind_eq_bind, Option.bind_eq_some_iff] at h
  obtain ⟨_, _, _, _, h⟩ := h
  split_ifs at h
  exact (Option.some.inj h).symm

/-- The steps that copy tables into one file. -/
theorem Holds.copies (rows : Database Id) {id : RepoId} {mk : Table → AdoptStep}
    (hmk : ∀ s table, (mk table).run clock src s = s.copyInto id table (rows table))
    (hne : ∀ table r, mk table ≠ .repoDbCreate r) {tables : List Table} {db : Database Id}
    (h : Taken clock src s (tables.map mk) s')
    (hs : Holds dir s catalog (Function.update files id (some db))) :
    Holds dir s' catalog (Function.update files id (some (db.inserts tables rows))) := by
  induction tables generalizing s db with
  | nil =>
      cases h.of_nil
      exact hs
  | cons table tables ih =>
      obtain ⟨m, hrun, hrest⟩ := Taken.cons h (hne table)
      rw [hmk] at hrun
      obtain ⟨db', hdb', hm⟩ := hs.copyInto hrun
      rw [Function.update_self] at hdb'
      cases hdb'
      rw [Function.update_idem] at hm
      exact ih hrest hm

end

/-- The rows of one repository's file. -/
structure RepoCopied (src : Database Id) (id : RepoId) (db : Database Id) : Prop where
  own : ∀ table ∈ repoTables, db table = src.ofRepo table id
  whole : ∀ table ∈ repoTablesNoRepoId, db table = src table

theorem repoCopied_inserts (src : Database Id) (id : RepoId) :
    RepoCopied src id (((Database.migrated "13").inserts repoTables fun table =>
      src.ofRepo table id).inserts repoTablesNoRepoId src) where
  own := by
    intro table htable
    have hother : table ∉ repoTablesNoRepoId := by
      revert table
      decide
    have hne : table ≠ .metaRows := by
      rintro rfl
      revert htable
      decide
    rw [Database.inserts_of_not_mem _ _ hother, Database.inserts_of_mem _ _ (by decide) htable,
      Database.migrated_of_ne _ hne, List.nil_append]
  whole := by
    intro table htable
    have hother : table ∉ repoTables := by
      revert table
      decide
    have hne : table ≠ .metaRows := by
      rintro rfl
      revert htable
      decide
    rw [Database.inserts_of_mem _ _ (by decide) htable, Database.inserts_of_not_mem _ _ hother,
      Database.migrated_of_ne _ hne, List.nil_append]

/-- The steps of one repository. -/
theorem Holds.adoptRepo {dir : DataDir Id} {s s' : AdoptState Id} {catalog : Database Id}
    {files : RepoId → Option (Database Id)} {row : RegistryRow}
    (h : Taken clock src s (Naatre.adoptRepo row) s') (hs : Holds dir s catalog files)
    (hfresh : files row.id = none) :
    ∃ db, Holds dir s' (catalog.insert .repos [row]) (Function.update files row.id (some db)) ∧
      RepoCopied src row.id db := by
  rw [Naatre.adoptRepo] at h
  obtain ⟨s₅, h, hlast⟩ := Taken.append h
  obtain ⟨s₄, h, htreeParity⟩ := Taken.append h
  obtain ⟨s₃, h, hrepoParity⟩ := Taken.append h
  obtain ⟨s₂, h, htrees⟩ := Taken.append h
  obtain ⟨s₁, h, hcopies⟩ := Taken.append h
  -- the file is made: there would be none to copy into
  have hhead : ∃ db, Holds dir s₁ (catalog.insert .repos [row]) (Function.update files row.id db) ∧
      (db = some (.migrated "13") ∨ db = none) := by
    have hwrite : ∀ {db m}, Holds dir m catalog (Function.update files row.id db) →
        Taken clock src m [.attachRepo row.id, .registryWrite row] s₁ →
          Holds dir s₁ (catalog.insert .repos [row]) (Function.update files row.id db) := by
      intro db m hm htaken
      obtain ⟨m₁, hattach, hrest⟩ := Taken.cons htaken (fun _ => by simp)
      obtain ⟨m₂, hwrite, hnil⟩ := Taken.cons hrest (fun _ => by simp)
      cases hattach
      cases hnil.of_nil
      exact Holds.mapCatalog (s := { m with counts := [] }) hm hwrite
    cases h with
    | run hrun hrest =>
        simp only [AdoptStep.run, hs.repos, Option.bind_eq_bind, Option.bind_some,
          Option.some.injEq] at hrun
        subst hrun
        refine ⟨_, hwrite ?_ hrest, .inl rfl⟩
        rw [Holds, hs]
    | skip hrest =>
        refine ⟨none, hwrite ?_ hrest, .inr rfl⟩
        rw [← hfresh, Function.update_eq_self]
        exact hs
  obtain ⟨db, hs₁, rfl | rfl⟩ := hhead
  · have hs₂ := Holds.copies (fun table => src.ofRepo table row.id) (fun _ _ => rfl)
      (fun _ _ => by simp) hcopies hs₁
    have hs₃ := Holds.copies src (fun _ _ => rfl) (fun _ _ => by simp) htrees hs₂
    have hs₄ : s₄ = s₃ := by
      refine hrepoParity.keeps (P := fun s => s = s₃) (fun step hstep m m' hrun hm => ?_) rfl
      obtain ⟨table, -, rfl⟩ := List.mem_map.mp hstep
      exact (parity_some hrun).trans hm
    have hs₅ : s₅ = s₄ := by
      refine htreeParity.keeps (P := fun s => s = s₄) (fun step hstep m m' hrun hm => ?_) rfl
      obtain ⟨table, -, rfl⟩ := List.mem_map.mp hstep
      exact (parity_some hrun).trans hm
    obtain ⟨m, hdetach, hnil⟩ := Taken.cons hlast (fun _ => by simp)
    cases hdetach
    cases hnil.of_nil
    exact ⟨_, hs₅ ▸ hs₄ ▸ hs₃, repoCopied_inserts src row.id⟩
  · obtain ⟨m, hrun, -⟩ := Taken.cons hcopies (fun _ => by simp)
    obtain ⟨db, hdb, -⟩ := hs₁.copyInto hrun
    rw [Function.update_self] at hdb
    cases hdb

/-- The steps of all repositories. -/
theorem Holds.adoptRepos {dir : DataDir Id} {s s' : AdoptState Id} {catalog : Database Id}
    {files : RepoId → Option (Database Id)} {rows : List RegistryRow}
    (h : Taken clock src s (rows.flatMap Naatre.adoptRepo) s') (hs : Holds dir s catalog files)
    (hfresh : ∀ row ∈ rows, files row.id = none) (hnodup : (rows.map (·.id)).Nodup) :
    ∃ files', Holds dir s' (catalog.insert .repos rows) files' ∧
      (∀ row ∈ rows, ∃ db, files' row.id = some db ∧ RepoCopied src row.id db) ∧
      ∀ id ∉ rows.map (·.id), files' id = files id := by
  induction rows generalizing s catalog files with
  | nil =>
      cases h.of_nil
      exact ⟨files, (Database.insert_nil catalog .repos).symm ▸ hs,
        fun _ h => absurd h List.not_mem_nil, fun _ _ => rfl⟩
  | cons row rows ih =>
      rw [List.map_cons, List.nodup_cons] at hnodup
      rw [List.flatMap_cons] at h
      obtain ⟨m, hrow, hrest⟩ := h.append
      obtain ⟨db, hm, hcopied⟩ := hs.adoptRepo hrow (hfresh row List.mem_cons_self)
      have hne : ∀ row' ∈ rows, row'.id ≠ row.id := fun row' hmem heq =>
        hnodup.1 (heq ▸ List.mem_map_of_mem hmem)
      obtain ⟨files', hs', hrows, hframe⟩ := ih hrest hm (fun row' hmem => by
        rw [Function.update_of_ne (hne row' hmem)]
        exact hfresh row' (List.mem_cons_of_mem _ hmem)) hnodup.2
      refine ⟨files', hs'.of_eq (Database.insert_insert ..), fun row' hmem => ?_, fun id hid => ?_⟩
      · rcases List.mem_cons.mp hmem with rfl | hmem
        · refine ⟨db, ?_, hcopied⟩
          rw [hframe _ hnodup.1, Function.update_self]
        · exact hrows row' hmem
      · rw [List.map_cons, List.mem_cons, not_or] at hid
        rw [hframe id hid.2, Function.update_of_ne hid.1]

/-! ### The catalog -/

theorem Holds.catalogCopies {dir : DataDir Id} {s s' : AdoptState Id} {catalog : Database Id}
    {files : RepoId → Option (Database Id)} {tables : List Table}
    (h : Taken clock src s (tables.map .catalogCopy) s') (hs : Holds dir s catalog files) :
    Holds dir s' (catalog.inserts tables src) files := by
  induction tables generalizing s catalog with
  | nil =>
      cases h.of_nil
      exact hs
  | cons table tables ih =>
      obtain ⟨m, hrun, hrest⟩ := Taken.cons h (fun _ => by simp)
      simp only [AdoptStep.run, Option.bind_eq_bind, Option.bind_eq_some_iff,
        Option.some.injEq] at hrun
      obtain ⟨m', hm', rfl⟩ := hrun
      have hm := hs.mapCatalog hm'
      rw [Database.inserts_cons]
      exact ih hrest (s := { m' with report := _ }) hm

theorem Holds.metaCopies {dir : DataDir Id} {s s' : AdoptState Id} {catalog : Database Id}
    {files : RepoId → Option (Database Id)} {rows : List (String × String)}
    (h : Taken clock src s (rows.map fun row => .metaCopy row.1 row.2) s')
    (hs : Holds dir s catalog files) : Holds dir s' (catalog.insert .metaRows rows) files := by
  induction rows generalizing s catalog with
  | nil =>
      cases h.of_nil
      exact (Database.insert_nil catalog .metaRows).symm ▸ hs
  | cons row rows ih =>
      obtain ⟨m, hrun, hrest⟩ := Taken.cons h (fun _ => by simp)
      exact (ih hrest (hs.mapCatalog hrun)).of_eq (Database.insert_insert ..)

/-- The steps that only look. -/
def AdoptStep.IsCheck : AdoptStep → Prop
  | .openSource | .registryRead | .metaRead | .catalogParity _ | .openSplit | .fsck => True
  | _ => False

theorem AdoptStep.run_check (step : AdoptStep) (hstep : step.IsCheck) {s s' : AdoptState Id}
    (h : step.run clock src s = some s') : s'.dir = s.dir := by
  cases step with
  | openSource | registryRead | metaRead =>
      cases h
      rfl
  | catalogParity table =>
      simp only [AdoptStep.run, Option.bind_eq_bind, Option.bind_eq_some_iff] at h
      obtain ⟨catalog, -, h⟩ := h
      split_ifs at h
      cases h
      rfl
  | openSplit =>
      obtain ⟨store, -, rfl⟩ := Option.map_eq_some_iff.mp h
      rfl
  | fsck =>
      simp only [AdoptStep.run, Option.bind_eq_bind, Option.bind_eq_some_iff] at h
      obtain ⟨store, -, h⟩ := h
      split_ifs at h
      cases h
      rfl
  | _ => cases hstep

theorem Taken.checks {s t : AdoptState Id} {steps : List AdoptStep} (h : Taken clock src s steps t)
    (hsteps : ∀ step ∈ steps, step.IsCheck) : t.dir = s.dir :=
  h.keeps (P := fun m => m.dir = s.dir)
    (fun step hmem _ _ hrun hm => (AdoptStep.run_check step (hsteps step hmem) hrun).trans hm) rfl

/-! ### The whole run -/

/-- The registry as the adoption walks it. -/
def registry (src : Database Id) : List RegistryRow :=
  (src .repos : List RegistryRow).insertionSort fun a b => a.id ≤ b.id

/-- A catalog and files with the rows of a single database. -/
structure Adopted (src catalog : Database Id) (files : RepoId → Option (Database Id)) : Prop where
  repos : catalog .repos = registry src
  tables : ∀ table ∈ catalogTables, catalog table = src table
  access : catalog .repoAccess = []
  markers : ∃ value, ∀ key, catalog.metaGet key =
    ((Database.schemaVersion, "2") :: metaMarkers src ++ [(Database.adoptedMarker, value)]).lookup key
  files : ∀ row ∈ registry src, ∃ db, files row.id = some db ∧ RepoCopied src row.id db

/-- The catalog of a run that ends well. -/
theorem adopted_catalog (src : Database Id) (value : String)
    {files : RepoId → Option (Database Id)}
    (hfiles : ∀ row ∈ registry src, ∃ db, files row.id = some db ∧ RepoCopied src row.id db) :
    Adopted src (((((Database.migrated "2").insert .repos (registry src)).inserts catalogTables
      src).insert .metaRows (metaMarkers src)).insert .metaRows [(Database.adoptedMarker, value)])
      files where
  repos := by
    refine (Database.insert_of_ne _ _ (by decide)).trans ?_
    refine (Database.insert_of_ne _ _ (by decide)).trans ?_
    refine (Database.inserts_of_not_mem _ _ (by decide)).trans ?_
    exact Database.insert_self ..
  tables := by
    intro table htable
    have hmeta : table ≠ .metaRows := by
      rintro rfl
      revert htable
      decide
    have hrepos : table ≠ .repos := by
      rintro rfl
      revert htable
      decide
    refine (Database.insert_of_ne _ _ hmeta).trans ?_
    refine (Database.insert_of_ne _ _ hmeta).trans ?_
    refine (Database.inserts_of_mem _ _ (by decide) htable).trans ?_
    have hnil : (Database.migrated "2" : Database Id).insert .repos (registry src) table = [] :=
      (Database.insert_of_ne _ _ hrepos).trans (Database.migrated_of_ne _ hmeta)
    rw [hnil, List.nil_append]
  access := by
    refine (Database.insert_of_ne _ _ (by decide)).trans ?_
    refine (Database.insert_of_ne _ _ (by decide)).trans ?_
    refine (Database.inserts_of_not_mem _ _ (by decide)).trans ?_
    exact Database.insert_of_ne _ _ (by decide)
  markers := by
    have hversion : ((Database.migrated "2").insert .repos (registry src)).inserts catalogTables src
        .metaRows = [(Database.schemaVersion, "2")] :=
      (Database.inserts_of_not_mem _ _ (by decide)).trans (Database.insert_of_ne _ _ (by decide))
    have hmarkers := (Database.insert_self (((Database.migrated "2").insert .repos
      (registry src)).inserts catalogTables src) .metaRows (metaMarkers src)).trans
        (congrArg (· ++ metaMarkers src) hversion)
    exact ⟨value, fun key => congrArg (List.lookup key) ((Database.insert_self ..).trans
      (congrArg (· ++ [(Database.adoptedMarker, value)]) hmarkers))⟩
  files := hfiles

/-- A run that ends well. -/
theorem adopted_of_taken {dir : DataDir Id} {s s' : AdoptState Id} (hdir : s.dir = dir)
    (hnodup : ((src .repos : List RegistryRow).map (·.id)).Nodup)
    (h : Taken clock src s (adoptSteps src) s') :
    ∃ catalog files, Holds dir s' catalog files ∧ Adopted src catalog files := by
  rw [adoptSteps] at h
  obtain ⟨s₆, h, hlast⟩ := Taken.append h
  obtain ⟨s₅, h, hparity⟩ := Taken.append h
  obtain ⟨s₄, h, hmeta⟩ := Taken.append h
  obtain ⟨s₃, h, hread⟩ := Taken.append h
  obtain ⟨s₂, h, htables⟩ := Taken.append h
  obtain ⟨s₁, h, hrepos⟩ := Taken.append h
  have hs₁ : Holds dir s₁ (.migrated "2") fun _ => none := by
    obtain ⟨m₁, hopen, h⟩ := Taken.cons h (fun _ => by simp)
    obtain ⟨m₂, hmigrate, h⟩ := Taken.cons h (fun _ => by simp)
    obtain ⟨m₃, hsource, h⟩ := Taken.cons h (fun _ => by simp)
    obtain ⟨m₄, hregistry, h⟩ := Taken.cons h (fun _ => by simp)
    obtain ⟨m₅, hmade, h⟩ := Taken.cons h (fun _ => by simp)
    cases h.of_nil
    cases hopen
    cases hmigrate
    cases hsource
    cases hregistry
    cases hmade
    rw [Holds, ← hdir]
  have hregistry : ((registry src).map (·.id)).Nodup := by
    refine (List.Perm.map _ ?_).nodup_iff.mpr hnodup
    exact List.perm_insertionSort _ _
  obtain ⟨files, hs₂, hfiles, -⟩ := Holds.adoptRepos hrepos hs₁ (fun _ _ => rfl) hregistry
  have hs₃ := Holds.catalogCopies htables hs₂
  have hs₄ : Holds dir s₄ _ files := (hread.checks fun step hstep => by
    cases List.mem_singleton.mp hstep
    trivial).trans hs₃
  have hs₅ := Holds.metaCopies hmeta hs₄
  have hs₆ : Holds dir s₆ _ files := (hparity.checks fun step hstep => by
    obtain ⟨table, -, rfl⟩ := List.mem_map.mp hstep
    trivial).trans hs₅
  obtain ⟨m₁, hsplit, hlast⟩ := Taken.cons hlast (fun _ => by simp)
  obtain ⟨m₂, hfsck, hlast⟩ := Taken.cons hlast (fun _ => by simp)
  obtain ⟨m₃, hmarker, hlast⟩ := Taken.cons hlast (fun _ => by simp)
  cases hlast.of_nil
  have hm₂ : Holds dir m₂ _ files :=
    ((AdoptStep.run_check .fsck trivial hfsck).trans
      (AdoptStep.run_check .openSplit trivial hsplit)).trans hs₆
  exact ⟨_, files, hm₂.mapCatalog hmarker, adopted_catalog src _ hfiles⟩

/-! ### A run that stops -/

/-- No catalog has the marker, and the source is the one the run started from. -/
def Unmarked (dir : DataDir Id) (s : AdoptState Id) : Prop :=
  s.dir.naatreDb = dir.naatreDb ∧ (s.dir.catalogDb.any fun catalog => catalog.adopted) = false

theorem Database.adopted_insert {db : Database Id} {rows : List (String × String)}
    (hrows : ∀ row ∈ rows, row.1 ≠ Database.adoptedMarker) :
    (db.insert .metaRows rows).adopted = db.adopted := by
  have hnone : rows.lookup Database.adoptedMarker = none := by
    rw [List.lookup_eq_none_iff]
    intro row hrow
    simpa using (hrows row hrow).symm
  have hlookup : ∀ old : List (String × String),
      (old ++ rows).lookup Database.adoptedMarker = old.lookup Database.adoptedMarker := fun old => by
    rw [List.lookup_append, hnone, Option.or_none]
  have hself := congrArg (List.lookup Database.adoptedMarker)
    (Database.insert_self db .metaRows rows)
  exact congrArg Option.isSome (hself.trans (hlookup (db .metaRows)))

theorem Database.adopted_insert_of_ne {db : Database Id} {table : Table}
    {rows : List (table.Row Id)} (h : table ≠ .metaRows) :
    (db.insert table rows).adopted = db.adopted := by
  rw [Database.adopted, Database.metaGet, Database.insert_of_ne _ _ (Ne.symm h)]
  rfl

/-- A step that writes no marker. -/
def AdoptStep.Markless : AdoptStep → Prop
  | .adoptedMarker => False
  | .metaCopy key _ => key ≠ Database.adoptedMarker
  | .catalogCopy table => table ≠ .metaRows
  | _ => True

/-- The other steps leave the source, and no catalog marked. -/
theorem AdoptStep.run_unmarked {dir : DataDir Id} {step : AdoptStep} (hstep : step.Markless)
    {s s' : AdoptState Id} (h : step.run clock src s = some s') (hs : Unmarked dir s) :
    Unmarked dir s' := by
  have hmap : ∀ {f : Database Id → Database Id} {m : AdoptState Id},
      s.mapCatalog f = some m → (∀ catalog, catalog.adopted = false → (f catalog).adopted = false) →
        Unmarked dir m := by
    intro f m hmap hf
    obtain ⟨catalog, hcatalog, rfl⟩ := Option.map_eq_some_iff.mp hmap
    refine ⟨hs.1, hf catalog ?_⟩
    have := hs.2
    rwa [hcatalog] at this
  by_cases hcheck : step.IsCheck
  · rw [Unmarked, AdoptStep.run_check step hcheck h]
    exact hs
  cases step with
  | catalogOpen =>
      cases h
      exact ⟨hs.1, rfl⟩
  | catalogMigrate => exact hmap h fun _ _ => by rfl
  | reposDir | attachRepo | detachRepo =>
      cases h
      exact hs
  | repoDbCreate id =>
      obtain ⟨files, -, hfiles⟩ := Option.bind_eq_some_iff.mp h
      cases hfiles
      exact hs
  | registryWrite row =>
      exact hmap h fun catalog hc => (Database.adopted_insert_of_ne (by decide)).trans hc
  | repoCopy id table | treeCopy id table =>
      simp only [AdoptStep.run, AdoptState.copyInto, Option.bind_eq_bind,
        Option.bind_eq_some_iff, Option.some.injEq] at h
      obtain ⟨files, -, db, -, rfl⟩ := h
      exact hs
  | repoParity id table | treeParity id table => exact parity_some h ▸ hs
  | catalogCopy table =>
      simp only [AdoptStep.run, Option.bind_eq_bind, Option.bind_eq_some_iff,
        Option.some.injEq] at h
      obtain ⟨m, hm, rfl⟩ := h
      have hm' : Unmarked dir m :=
        hmap hm fun catalog hc => (Database.adopted_insert_of_ne hstep).trans hc
      exact hm'
  | metaCopy key value =>
      refine hmap h fun catalog hc => (Database.adopted_insert fun row hrow => ?_).trans hc
      cases List.mem_singleton.mp hrow
      exact hstep
  | adoptedMarker => cases hstep
  | _ => exact absurd trivial hcheck

theorem adoptRepo_markless (row : RegistryRow) : ∀ step ∈ Naatre.adoptRepo row, step.Markless := by
  intro step hstep
  simp only [Naatre.adoptRepo, List.mem_append, List.mem_cons, List.mem_map, List.not_mem_nil,
    or_false] at hstep
  rcases hstep with ((((((rfl | rfl | rfl) | ⟨_, _, rfl⟩) | ⟨_, _, rfl⟩) | ⟨_, _, rfl⟩) |
    ⟨_, _, rfl⟩) | rfl) <;> trivial

/-- A run that stops has not come past its marker. -/
theorem takeSteps_unmarked {dir : DataDir Id} {faults : ℕ → Option Lib.Fault} {i : ℕ}
    {s t : AdoptState Id} {steps : List AdoptStep} {stop : AdoptStep × Lib.Fault}
    (hsteps : ∀ step ∈ steps, step.Markless)
    (h : takeSteps clock src faults i s (steps ++ [.adoptedMarker]) = (t, some stop))
    (hs : Unmarked dir s) : Unmarked dir t := by
  induction steps generalizing i s with
  | nil =>
      rw [List.nil_append, takeSteps.eq_def] at h
      dsimp only at h
      split at h
      next => cases h; exact hs
      next heq => cases heq
      next => cases h; exact hs
      next =>
        split at h
        next => cases h; exact hs
        next => cases h
  | cons step steps ih =>
      have hrest := fun m hmem => hsteps m (List.mem_cons_of_mem _ hmem)
      rw [List.cons_append, takeSteps.eq_def] at h
      dsimp only at h
      split at h
      next => cases h; exact hs
      next => exact ih hrest h hs
      next => cases h; exact hs
      next =>
        split at h
        next => cases h; exact hs
        next s' hrun => exact ih hrest h (AdoptStep.run_unmarked (hsteps _ List.mem_cons_self) hrun hs)

end

end

end Naatre
