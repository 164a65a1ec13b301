import Naatre.Lib.Loop
import Naatre.Server.Backup

/-!
What the steps of a restore do: the checks one by one, the staged files, the
moves and the commits, each by what it leaves at every path.
-/

namespace Naatre

open Lib

section

variable {Id : Type} [Platform Id] {File : Type} {tools : BackupTools Id File}
  {world : BackupWorld File} {cfg : BackendConfig}

/-! ### Paths -/

theorem isHexLower_ne_slash {c : Char} (h : isHexLower c = true) : c ≠ '/' := by
  rintro rfl
  exact absurd h (by decide)

theorem isHexId_noSlash {hex : String} (h : isHexId hex = true) : '/' ∉ hex.toList := by
  intro hmem
  have hall := (Bool.and_eq_true_iff.mp h).2
  exact isHexLower_ne_slash (List.all_eq_true.mp hall '/' hmem) rfl

theorem components_objectArtifactPath {hex : String} (h : isHexId hex = true) :
    components (objectArtifactPath hex) = objectsDir :: shardPath hex := by
  have hslash := isHexId_noSlash h
  refine components_join (List.cons_ne_nil _ _) fun c hc => ?_
  rcases List.mem_cons.mp hc with rfl | hc
  · decide
  · simp only [shardPath, List.mem_cons, List.not_mem_nil, or_false] at hc
    rcases hc with rfl | rfl | rfl <;> rw [String.toList_ofList] <;> intro hmem
    · exact hslash (List.mem_of_mem_take hmem)
    · exact hslash (List.mem_of_mem_drop (List.mem_of_mem_take hmem))
    · exact hslash (List.mem_of_mem_drop hmem)

/-- A repository's artifact is named by the path alone. -/
theorem repoArtifactName_eq {path name : String} (h : repoArtifactName path = some name) :
    path = "repos/" ++ (name ++ ".db") := by
  obtain ⟨rest, hrest, hname⟩ := Option.bind_eq_some_iff.mp h
  rw [eq_of_stripPre hrest, eq_of_stripSuf hname]

theorem repoArtifactName_text (name : String) :
    repoArtifactName ("repos/" ++ (name ++ ".db")) = some name := by
  rw [repoArtifactName, stripPre_append, Option.bind_some, stripSuf_append]

/-! ### Staging -/

/-- A staged backup: every artifact with its checksum, and nothing else. -/
structure Staged (tools : BackupTools Id File) (backupDir : Disk File)
    (artifacts : List ArtifactChecksum) (stage : Disk File) : Prop where
  sums : ∀ a ∈ artifacts, ∃ file, backupDir.get (components a.path) = some file ∧
    tools.sha256 file = a.sha256
  get : ∀ a ∈ artifacts, stage.get (components a.path) = backupDir.get (components a.path)
  only : ∀ p file, stage.get p = some file → ∃ a ∈ artifacts, components a.path = p

theorem stageArtifacts_ok {backupDir : Disk File} {artifacts : List ArtifactChecksum}
    {stage stage' : Disk File}
    (h : stageArtifacts tools backupDir artifacts stage = .ok stage') :
    (∀ a ∈ artifacts, ∃ file, backupDir.get (components a.path) = some file ∧
      tools.sha256 file = a.sha256) ∧
    ∀ p, stage'.get p = if ∃ a ∈ artifacts, components a.path = p then backupDir.get p
      else stage.get p := by
  induction artifacts generalizing stage with
  | nil =>
      cases h
      exact ⟨fun a ha => absurd ha List.not_mem_nil, fun p => (if_neg (by simp)).symm⟩
  | cons a artifacts ih =>
      rw [stageArtifacts] at h
      split at h
      next => cases h
      next file hfile =>
        split_ifs at h with hsum
        have hsum : tools.sha256 file = a.sha256 := not_not.mp hsum
        obtain ⟨hsums, hget⟩ := ih h
        refine ⟨fun b hb => ?_, fun p => ?_⟩
        · rcases List.mem_cons.mp hb with rfl | hb
          · exact ⟨file, hfile, hsum⟩
          · exact hsums b hb
        · rw [hget p]
          by_cases hrest : ∃ b ∈ artifacts, components b.path = p
          · rw [if_pos hrest, if_pos (hrest.imp fun b hb => ⟨List.mem_cons_of_mem _ hb.1, hb.2⟩)]
          · rw [if_neg hrest, Disk.get_put]
            by_cases hp : p = components a.path
            · rw [if_pos hp, if_pos ⟨a, List.mem_cons_self, hp.symm⟩, hp, hfile]
            · rw [if_neg hp, if_neg]
              rintro ⟨b, hb, hkey⟩
              rcases List.mem_cons.mp hb with rfl | hb
              · exact hp hkey.symm
              · exact hrest ⟨b, hb, hkey⟩

theorem stageArtifacts_staged {backupDir : Disk File} {artifacts : List ArtifactChecksum}
    {stage : Disk File} (h : stageArtifacts tools backupDir artifacts [] = .ok stage) :
    Staged tools backupDir artifacts stage := by
  obtain ⟨hsums, hget⟩ := stageArtifacts_ok h
  refine ⟨hsums, fun a ha => ?_, fun p file hfile => ?_⟩
  · rw [hget, if_pos ⟨a, ha, rfl⟩]
  · rw [hget] at hfile
    split at hfile
    next hmem => exact hmem
    next => cases hfile

/-- The artifacts of a backup directory that carries them all stage. -/
theorem stageArtifacts_of_sums {backupDir : Disk File} {artifacts : List ArtifactChecksum}
    (hsums : ∀ a ∈ artifacts, ∃ file, backupDir.get (components a.path) = some file ∧
      tools.sha256 file = a.sha256) (stage : Disk File) :
    ∃ stage', stageArtifacts tools backupDir artifacts stage = .ok stage' := by
  induction artifacts generalizing stage with
  | nil => exact ⟨stage, rfl⟩
  | cons a artifacts ih =>
      obtain ⟨file, hfile, hsum⟩ := hsums a List.mem_cons_self
      obtain ⟨stage', hrest⟩ := ih (fun b hb => hsums b (List.mem_cons_of_mem _ hb))
        (stage.put (components a.path) file)
      refine ⟨stage', ?_⟩
      rw [stageArtifacts]
      simp only [hfile, hsum, ne_eq, not_true_eq_false, if_false]
      exact hrest

/-! ### The checks -/

/-- What a restore that reaches its write phase has passed. -/
structure RestoreAccepted (tools : BackupTools Id File) (world : BackupWorld File)
    (cfg : BackendConfig) (root backupDir : Disk File) (force : Bool)
    (allowMissing : Option String) (manifest : BackupManifest) (waived : List String)
    (stage : Disk File) : Prop where
  load : loadManifest tools backupDir = .ok manifest
  combo : comboGuard cfg manifest = .ok ()
  initialized : initializedGuard cfg root force = .ok ()
  notEmpty : notEmptyGuard cfg root force = .ok ()
  postgres : postgresGuard world cfg = .ok ()
  artifacts : artifactGuard cfg manifest = .ok ()
  gate : presenceGate tools world cfg manifest allowMissing = .ok waived
  layout : layoutGuard cfg manifest = .ok ()
  staged : stageArtifacts tools backupDir manifest.artifacts [] = .ok stage
  version : versionGuard tools cfg stage = .ok ()
  unlocked : world.locked = false

theorem restoreChecks_ok {root backupDir : Disk File} {force : Bool}
    {allowMissing : Option String} {manifest : BackupManifest} {waived : List String}
    {stage : Disk File} :
    restoreChecks tools world cfg root backupDir force allowMissing =
        .ok (manifest, waived, stage) ↔
      RestoreAccepted tools world cfg root backupDir force allowMissing manifest waived stage := by
  simp only [restoreChecks, Lib.bind_eq_ok]
  constructor
  · rintro ⟨m, hload, _, hcombo, _, hinit, _, hempty, _, hpg, _, hart, w, hgate, _, hlayout, st,
      hstaged, _, hversion, h⟩
    split at h
    next => cases h
    next hlocked =>
      cases h
      exact ⟨hload, hcombo, hinit, hempty, hpg, hart, hgate, hlayout, hstaged, hversion,
        Bool.eq_false_iff.mpr hlocked⟩
  · rintro ⟨hload, hcombo, hinit, hempty, hpg, hart, hgate, hlayout, hstaged, hversion, hunlocked⟩
    refine ⟨manifest, hload, (), hcombo, (), hinit, (), hempty, (), hpg, (), hart, waived, hgate,
      (), hlayout, stage, hstaged, (), hversion, ?_⟩
    rw [hunlocked]
    rfl

/-- What a manifest that loads is known to hold. -/
structure ManifestValid (manifest : BackupManifest) : Prop where
  objects : ∀ hex ∈ manifest.objects, isHexId hex = true
  paths : ∀ a ∈ manifest.artifacts, validArtifactPath a.path = true

theorem loadManifest_ok {backupDir : Disk File} {manifest : BackupManifest}
    (h : loadManifest tools backupDir = .ok manifest) : ManifestValid manifest := by
  unfold loadManifest at h
  split at h
  next => cases h
  next file hfile =>
    split at h
    next => cases h
    next m hm =>
      split_ifs at h with hformat hobjects hsums
      split at h
      next hpaths =>
        cases h
        refine ⟨fun hex hhex => ?_, fun a ha => ?_⟩
        · by_contra hbad
          exact hobjects (List.any_eq_true.mpr ⟨hex, hhex, by simpa using hbad⟩)
        · have hgood := List.find?_eq_none.mp hpaths a.path (List.mem_map_of_mem ha)
          simpa using hgood
      next bad hbad =>
        split_ifs at h

/-! ### Writes -/

namespace RestoreState

/-- All that is written from one state to another is in `paths`. -/
structure WritesIn (paths : List String → Prop) (st st' : RestoreState File) : Prop where
  frame : ∀ p, ¬paths p → st'.target.get p = st.target.get p
  written : ∀ p ∈ st'.written, p ∈ st.written ∨ paths p
  keeps : ∀ p ∈ st.written, p ∈ st'.written
  recorded : ∀ p, p ∉ st'.written → st'.target.get p = st.target.get p

variable {paths : List String → Prop} {st st' st'' : RestoreState File}

theorem WritesIn.refl (st : RestoreState File) : WritesIn paths st st :=
  ⟨fun _ _ => rfl, fun _ hp => .inl hp, fun _ hp => hp, fun _ _ => rfl⟩

theorem WritesIn.trans (h : WritesIn paths st st') (h' : WritesIn paths st' st'') :
    WritesIn paths st st'' where
  frame p hp := (h'.frame p hp).trans (h.frame p hp)
  written p hp := (h'.written p hp).elim (h.written p) .inr
  keeps p hp := h'.keeps p (h.keeps p hp)
  recorded p hp := (h'.recorded p hp).trans (h.recorded p fun hmem => hp (h'.keeps p hmem))

theorem WritesIn.mono {paths' : List String → Prop} (h : WritesIn paths st st')
    (hsub : ∀ p, paths p → paths' p) : WritesIn paths' st st' where
  frame p hp := h.frame p fun hin => hp (hsub p hin)
  written p hp := (h.written p hp).imp_right (hsub p)
  keeps := h.keeps
  recorded := h.recorded

theorem writesIn_putFile {path : List String} (hpath : paths path) (file : File) :
    WritesIn paths st (st.putFile path file) where
  frame p hp := Disk.get_put_of_ne _ _ fun h => hp (h ▸ hpath)
  written p hp := by
    rcases List.mem_append.mp hp with hp | hp
    · exact .inl hp
    · exact .inr (List.mem_singleton.mp hp ▸ hpath)
  keeps p hp := List.mem_append_left _ hp
  recorded p hp := Disk.get_put_of_ne _ _ fun h =>
    hp (List.mem_append_right _ (List.mem_singleton.mpr h))

theorem get_removeFile (st : RestoreState File) (path p : List String) :
    (st.removeFile path).target.get p = if p = path then none else st.target.get p := by
  unfold removeFile
  split
  next => exact Disk.get_remove _ _ _
  next hstands =>
    by_cases hp : p = path
    · rw [if_pos hp, hp]
      exact Disk.get_eq_none_of_stands (Bool.eq_false_iff.mpr hstands)
    · rw [if_neg hp]

theorem stage_removeFile (st : RestoreState File) (path : List String) :
    (st.removeFile path).stage = st.stage := by
  unfold removeFile
  split <;> rfl

theorem writesIn_removeFile {path : List String} (hpath : paths path) :
    WritesIn paths st (st.removeFile path) where
  frame p hp := by
    rw [get_removeFile, if_neg]
    rintro rfl
    exact hp hpath
  written p hp := by
    unfold removeFile at hp
    split at hp
    · rcases List.mem_append.mp hp with hp | hp
      · exact .inl hp
      · exact .inr (List.mem_singleton.mp hp ▸ hpath)
    · exact .inl hp
  keeps p hp := by
    unfold removeFile
    split
    · exact List.mem_append_left _ hp
    · exact hp
  recorded p hp := by
    unfold removeFile at hp ⊢
    split at hp
    next hstands =>
      rw [if_pos hstands]
      refine (Disk.get_remove _ _ _).trans (if_neg fun h => hp ?_)
      exact List.mem_append_right _ (List.mem_singleton.mpr h)
    next hstands => rw [if_neg hstands]

theorem writesIn_removeDir {path : List String}
    (hpath : ∀ p, path.isPrefixOf p = true → paths p) :
    WritesIn paths st (st.removeDir path) where
  frame p hp := by
    show (st.target.removeAll path).get p = _
    rw [Disk.get_removeAll, if_neg fun h => hp (hpath p h)]
  written p hp := by
    rcases List.mem_append.mp hp with hp | hp
    · exact .inl hp
    · exact .inr (hpath p (List.mem_filter.mp hp).2)
  keeps p hp := List.mem_append_left _ hp
  recorded p hp := by
    show (st.target.removeAll path).get p = _
    rw [Disk.get_removeAll]
    split
    next hpre =>
      refine (Disk.get_eq_none_of_not_mem fun hmem => hp ?_).symm
      exact List.mem_append_right _ (List.mem_filter.mpr ⟨hmem, hpre⟩)
    next => rfl

theorem moveFile_eq {src dst : List String} (h : st.moveFile src dst = some st') :
    ∃ file, st.stage.get src = some file ∧
      st' = { st.putFile dst file with stage := st.stage.remove src } := by
  obtain ⟨file, hfile, rfl⟩ := Option.map_eq_some_iff.mp h
  exact ⟨file, hfile, rfl⟩

theorem writesIn_moveFile {src dst : List String} (h : st.moveFile src dst = some st')
    (hdst : paths dst) : WritesIn paths st st' := by
  obtain ⟨file, -, rfl⟩ := moveFile_eq h
  have hput : WritesIn paths st (st.putFile dst file) := writesIn_putFile hdst file
  exact ⟨hput.frame, hput.written, hput.keeps, hput.recorded⟩

/-! ### Commits -/

/-- The rows of a database file, with the log beside it. -/
def view (tools : BackupTools Id File) (d : Disk File) (path : List String) :
    Option (Database Id) :=
  (d.get path).bind fun file => tools.read file (d.get (walOf path))

theorem view_commit {path : List String} {file : File} (hfile : st.target.get path = some file)
    (hwal : walOf path ≠ path) (db : Database Id) :
    view tools (st.commit tools path db).target path = some db := by
  have hread := tools.read_commit file (st.target.get (walOf path)) db
  unfold commit view
  simp only [hfile]
  cases hlog : (tools.commit file (st.target.get (walOf path)) db).2 with
  | some log =>
      rw [hlog] at hread
      have hput : ((st.putFile path (tools.commit file (st.target.get (walOf path)) db).1).putFile
          (walOf path) log).target.get path =
            some (tools.commit file (st.target.get (walOf path)) db).1 := by
        show ((st.target.put path _).put (walOf path) log).get path = _
        rw [Disk.get_put_of_ne _ _ hwal.symm, Disk.get_put_self]
      simp only [hput, Option.bind_some]
      show tools.read _ (((st.target.put path _).put (walOf path) log).get (walOf path)) = _
      rw [Disk.get_put_self]
      exact hread
  | none =>
      rw [hlog] at hread
      simp only [get_removeFile, if_neg hwal.symm, if_true]
      show ((st.target.put path _).get path).bind _ = _
      rw [Disk.get_put_self]
      exact hread

theorem writesIn_commit (tools : BackupTools Id File) {path : List String} (hpath : paths path)
    (hwal : paths (walOf path)) (db : Database Id) :
    WritesIn paths st (st.commit tools path db) := by
  unfold commit
  split
  next => exact .refl st
  next file hfile =>
    refine (writesIn_putFile hpath
      (tools.commit file (st.target.get (walOf path)) db).1).trans ?_
    dsimp only
    split
    next log hlog => exact writesIn_putFile hwal log
    next hlog => exact writesIn_removeFile hwal

theorem stage_commit (tools : BackupTools Id File) (path : List String) (db : Database Id) :
    (st.commit tools path db).stage = st.stage := by
  unfold commit
  split
  next => rfl
  next =>
    dsimp only
    split
    · rfl
    · rw [stage_removeFile]
      rfl

end RestoreState

/-! ### The repositories' files -/

/-- The artifacts of repositories, in the order of the manifest. -/
def repoPaths (artifacts : List ArtifactChecksum) : List String :=
  (artifacts.map fun a => a.path).filter fun path => (repoArtifactName path).isSome

def repoDst (name : String) : List String := [reposDir, name ++ ".db"]

theorem repoDst_inj {path path' name : String} (h : repoArtifactName path = some name)
    (h' : repoArtifactName path' = some name) : path = path' := by
  rw [repoArtifactName_eq h, repoArtifactName_eq h']

theorem mem_repoPaths {artifacts : List ArtifactChecksum} {a : ArtifactChecksum} {name : String}
    (ha : a ∈ artifacts) (h : repoArtifactName a.path = some name) :
    a.path ∈ repoPaths artifacts :=
  List.mem_filter.mpr ⟨List.mem_map_of_mem ha, by rw [h]; rfl⟩

theorem repoPaths_cons_none {a : ArtifactChecksum} (artifacts : List ArtifactChecksum)
    (h : repoArtifactName a.path = none) : repoPaths (a :: artifacts) = repoPaths artifacts := by
  simp [repoPaths, h]

theorem repoPaths_cons_some {a : ArtifactChecksum} (artifacts : List ArtifactChecksum)
    {name : String} (h : repoArtifactName a.path = some name) :
    repoPaths (a :: artifacts) = a.path :: repoPaths artifacts := by
  simp [repoPaths, h]

theorem repoDst_injective : Function.Injective repoDst := fun name name' h => by
  have hname : name ++ ".db" = name' ++ ".db" := by
    injection h with _ h
    injection h
  have hlist := congrArg String.toList hname
  rw [String.toList_append, String.toList_append] at hlist
  exact String.toList_injective (List.append_cancel_right hlist)

/-- The files the artifacts of repositories go to. -/
def RepoDsts (artifacts : List ArtifactChecksum) (p : List String) : Prop :=
  ∃ path ∈ repoPaths artifacts, ∃ name, repoArtifactName path = some name ∧ p = repoDst name

theorem moveRepos_writes (artifacts : List ArtifactChecksum) (st : RestoreState File) :
    RestoreState.WritesIn (RepoDsts artifacts) st (moveRepos artifacts st).1 := by
  induction artifacts generalizing st with
  | nil => exact .refl st
  | cons a artifacts ih =>
      have hrest : ∀ p, RepoDsts artifacts p → RepoDsts (a :: artifacts) p := by
        rintro p ⟨path, hpath, hname⟩
        refine ⟨path, ?_, hname⟩
        obtain ⟨hmem, hsome⟩ := List.mem_filter.mp hpath
        exact List.mem_filter.mpr ⟨List.mem_cons_of_mem _ hmem, hsome⟩
      unfold moveRepos
      split
      next => exact (ih st).mono hrest
      next name hname =>
        have hdst : RepoDsts (a :: artifacts) (repoDst name) :=
          ⟨a.path, mem_repoPaths List.mem_cons_self hname, name, hname, rfl⟩
        dsimp only
        split
        next => exact .refl st
        next st' hmove =>
          exact (RestoreState.writesIn_moveFile hmove hdst).trans ((ih st').mono hrest)

/-- What the repositories' moves that all succeed leave. -/
theorem moveRepos_ok {artifacts : List ArtifactChecksum} {st st' : RestoreState File}
    (h : moveRepos artifacts st = (st', none)) :
    (repoPaths artifacts).Nodup ∧
      (∀ a ∈ artifacts, ∀ name, repoArtifactName a.path = some name →
        ∃ file, st.stage.get (components a.path) = some file ∧
          st'.target.get (repoDst name) = some file) ∧
      ∀ p, (∀ path ∈ repoPaths artifacts, components path ≠ p) →
        st'.stage.get p = st.stage.get p := by
  induction artifacts generalizing st with
  | nil =>
      cases h
      exact ⟨List.nodup_nil, fun a ha => absurd ha List.not_mem_nil, fun p _ => rfl⟩
  | cons a artifacts ih =>
      unfold moveRepos at h
      split at h
      next hname =>
        obtain ⟨hnodup, hmoved, hstage⟩ := ih h
        rw [repoPaths_cons_none artifacts hname]
        refine ⟨hnodup, fun b hb name hb' => ?_, hstage⟩
        rcases List.mem_cons.mp hb with rfl | hb
        · rw [hname] at hb'
          cases hb'
        · exact hmoved b hb name hb'
      next name hname =>
        dsimp only at h
        split at h
        next => cases h
        next st₁ hmove =>
          obtain ⟨hnodup, hmoved, hstage⟩ := ih h
          obtain ⟨file, hfile, rfl⟩ := RestoreState.moveFile_eq hmove
          -- a second line of the same path finds its file gone
          have hfresh : a.path ∉ repoPaths artifacts := by
            intro hmem
            obtain ⟨b, hb, hpath⟩ := List.mem_map.mp (List.mem_filter.mp hmem).1
            obtain ⟨_, hgone, -⟩ := hmoved b hb name (hpath ▸ hname)
            rw [hpath] at hgone
            simp [Disk.get_remove] at hgone
          have hframe := (moveRepos_writes artifacts
            { st.putFile (repoDst name) file with
              stage := st.stage.remove (components a.path) }).frame (repoDst name)
            fun ⟨path, hpath, name', hname', hdst⟩ => hfresh (by
              rw [← repoDst_injective hdst] at hname'
              exact repoDst_inj hname hname' ▸ hpath)
          rw [repoPaths_cons_some artifacts hname]
          refine ⟨List.nodup_cons.mpr ⟨hfresh, hnodup⟩, fun b hb name' hb' => ?_, fun p hp => ?_⟩
          · rcases List.mem_cons.mp hb with rfl | hb
            · rw [hname] at hb'
              cases hb'
              refine ⟨file, hfile, ?_⟩
              have hput : (moveRepos artifacts _).1 = st' := congrArg Prod.fst h
              rw [← hput]
              exact hframe.trans (Disk.get_put_self _ _ _)
            · obtain ⟨file', hfile', htarget⟩ := hmoved b hb name' hb'
              refine ⟨file', ?_, htarget⟩
              rw [Disk.get_remove] at hfile'
              split at hfile'
              next => cases hfile'
              next => exact hfile'
          · rw [hstage p fun path hpath => hp path (List.mem_cons_of_mem _ hpath)]
            show (st.stage.remove (components a.path)).get p = _
            rw [Disk.get_remove, if_neg (hp a.path List.mem_cons_self).symm]

/-- Staged files whose paths differ are all moved. -/
theorem moveRepos_of_nodup {artifacts : List ArtifactChecksum} {st : RestoreState File}
    (hnodup : (repoPaths artifacts).Nodup)
    (hstaged : ∀ path ∈ repoPaths artifacts, ∃ file, st.stage.get (components path) = some file) :
    ∃ st', moveRepos artifacts st = (st', none) := by
  induction artifacts generalizing st with
  | nil => exact ⟨st, rfl⟩
  | cons a artifacts ih =>
      cases hname : repoArtifactName a.path with
      | none =>
          rw [repoPaths_cons_none artifacts hname] at hnodup hstaged
          obtain ⟨st', hmoved⟩ := ih hnodup hstaged
          refine ⟨st', ?_⟩
          simp only [moveRepos, hname]
          exact hmoved
      | some name =>
          rw [repoPaths_cons_some artifacts hname] at hnodup hstaged
          obtain ⟨hfresh, hnodup⟩ := List.nodup_cons.mp hnodup
          obtain ⟨file, hfile⟩ := hstaged a.path List.mem_cons_self
          let st₁ : RestoreState File :=
            { st.putFile (repoDst name) file with stage := st.stage.remove (components a.path) }
          have hmove : st.moveFile (components a.path) (repoDst name) = some st₁ := by
            rw [RestoreState.moveFile, hfile]
            rfl
          have hrest : ∀ path ∈ repoPaths artifacts, ∃ file,
              st₁.stage.get (components path) = some file := by
            intro path hpath
            obtain ⟨file', hfile'⟩ := hstaged path (List.mem_cons_of_mem _ hpath)
            refine ⟨file', ?_⟩
            show (st.stage.remove (components a.path)).get (components path) = _
            rw [Disk.get_remove, if_neg, hfile']
            intro heq
            exact hfresh (components_injective heq ▸ hpath)
          obtain ⟨st', hmoved⟩ := ih hnodup hrest
          refine ⟨st', ?_⟩
          simp only [moveRepos, hname]
          rw [show [reposDir, name ++ ".db"] = repoDst name from rfl, hmove]
          exact hmoved

/-! ### The objects -/

/-- The object files, wherever in the store they lie. -/
def InObjects (p : List String) : Prop := ∃ rest, p = objectsDir :: rest

theorem copyObjects_writes (ids : List String) (st : RestoreState File) :
    RestoreState.WritesIn InObjects st (copyObjects ids st).1 := by
  induction ids generalizing st with
  | nil => exact .refl st
  | cons hex ids ih =>
      simp only [copyObjects]
      split
      next => exact .refl st
      next file hfile =>
        exact (RestoreState.writesIn_putFile ⟨_, rfl⟩ file).trans (ih _)

/-- Staged objects are all copied. -/
theorem copyObjects_of_staged {ids : List String} {st : RestoreState File}
    (hstaged : ∀ hex ∈ ids, ∃ file, st.stage.get (objectsDir :: shardPath hex) = some file) :
    ∃ st', copyObjects ids st = (st', none) ∧ st'.stage = st.stage ∧
      (∀ hex ∈ ids, st'.target.get (objectsDir :: shardPath hex) =
        st.stage.get (objectsDir :: shardPath hex)) ∧
      ∀ p, (∀ hex ∈ ids, objectsDir :: shardPath hex ≠ p) →
        st'.target.get p = st.target.get p := by
  induction ids generalizing st with
  | nil => exact ⟨st, rfl, rfl, fun hex hhex => absurd hhex List.not_mem_nil, fun p _ => rfl⟩
  | cons hex ids ih =>
      obtain ⟨file, hfile⟩ := hstaged hex List.mem_cons_self
      obtain ⟨st', hcopy, hstage, hget, hframe⟩ :=
        @ih (st.putFile (objectsDir :: shardPath hex) file)
          (fun hex' hhex' => hstaged hex' (List.mem_cons_of_mem _ hhex'))
      refine ⟨st', ?_, hstage, fun hex' hhex' => ?_, fun p hp => ?_⟩
      · simp only [copyObjects, hfile]
        exact hcopy
      · by_cases hmem : ∃ k ∈ ids, objectsDir :: shardPath k = objectsDir :: shardPath hex'
        · obtain ⟨k, hk, hkey⟩ := hmem
          rw [← hkey]
          exact hget k hk
        · rcases List.mem_cons.mp hhex' with rfl | hhex'
          · rw [hframe _ fun k hk heq => hmem ⟨k, hk, heq⟩, hfile]
            exact Disk.get_put_self _ _ _
          · exact absurd ⟨hex', hhex', rfl⟩ hmem
      · rw [hframe p fun k hk => hp k (List.mem_cons_of_mem _ hk)]
        exact Disk.get_put_of_ne _ _ (hp hex List.mem_cons_self).symm

/-! ### The database files -/

theorem repoArtifact_head {path name : String} (h : repoArtifactName path = some name) :
    path.toList.head? = some 'r' := by
  rw [repoArtifactName_eq h, String.toList_append]
  rfl

/-- A repository's artifact does not lie among the objects. -/
theorem components_repo_ne {path name : String} (h : repoArtifactName path = some name)
    (rest : List String) : components path ≠ objectsDir :: rest := by
  intro hcomponents
  have hhead := repoArtifact_head h
  rw [← join_components path, hcomponents] at hhead
  have hobjects : (joinSlash (objectsDir :: rest)).toList.head? = some 'o' := by
    rw [joinSlash, String.toList_intercalate]
    cases rest with
    | nil => rfl
    | cons c rest => rfl
  rw [hobjects] at hhead
  exact absurd hhead (by decide)

/-- The paths that moving the database files writes. -/
def DatabasePaths (layout : Layout) (p : List String) : Prop :=
  p ∈ sidecars ∨ p = primaryPath layout ∨ layout = .dbPerRepo ∧ [reposDir].isPrefixOf p = true

theorem dropSidecars_writes (st : RestoreState File) (paths : List (List String)) :
    RestoreState.WritesIn (· ∈ paths) st (paths.foldl RestoreState.removeFile st) := by
  induction paths generalizing st with
  | nil => exact .refl st
  | cons path paths ih =>
      rw [List.foldl_cons]
      exact (RestoreState.writesIn_removeFile List.mem_cons_self).trans
        ((ih _).mono fun p hp => List.mem_cons_of_mem _ hp)

theorem dropSidecars_stage (st : RestoreState File) (paths : List (List String)) :
    (paths.foldl RestoreState.removeFile st).stage = st.stage := by
  induction paths generalizing st with
  | nil => rfl
  | cons path paths ih =>
      rw [List.foldl_cons, ih]
      exact RestoreState.stage_removeFile st path

theorem get_dropSidecars (st : RestoreState File) {paths : List (List String)} {p : List String}
    (hp : p ∈ paths) : (paths.foldl RestoreState.removeFile st).target.get p = none := by
  induction paths generalizing st with
  | nil => exact absurd hp List.not_mem_nil
  | cons path paths ih =>
      rw [List.foldl_cons]
      by_cases hmem : p ∈ paths
      · exact ih _ hmem
      · rw [(dropSidecars_writes _ paths).frame p hmem, RestoreState.get_removeFile]
        rcases List.mem_cons.mp hp with rfl | hp
        · rw [if_pos rfl]
        · exact absurd hp hmem

theorem moveDatabases_writes (manifest : BackupManifest) (st : RestoreState File) :
    RestoreState.WritesIn (DatabasePaths cfg.layout) st (moveDatabases cfg manifest st).1 := by
  have hdrop : RestoreState.WritesIn (DatabasePaths cfg.layout) st
      (sidecars.foldl RestoreState.removeFile st) :=
    (dropSidecars_writes st sidecars).mono fun p hp => .inl hp
  unfold moveDatabases
  dsimp only
  split
  next => exact hdrop
  next st₁ hmove =>
    have hmoved := hdrop.trans (RestoreState.writesIn_moveFile hmove (.inr (.inl rfl)))
    split
    next => exact hmoved
    next hlayout =>
      refine hmoved.trans ((RestoreState.writesIn_removeDir fun p hp => ?_).trans
        ((moveRepos_writes manifest.artifacts _).mono fun p hp => ?_))
      · exact .inr (.inr ⟨hlayout, hp⟩)
      · obtain ⟨-, -, name, -, rfl⟩ := hp
        exact .inr (.inr ⟨hlayout, rfl⟩)

/-- The log that stands beside the restored file when it is opened: only the
single database's own is removed. -/
def leftoverLog (layout : Layout) (root : Disk File) : Option File :=
  match layout with
  | .singleDb => none
  | .dbPerRepo => root.get (walOf [catalogFile])

/-- The database files where every move succeeds. -/
structure DatabasesMoved (layout : Layout) (artifacts : List ArtifactChecksum) (root : Disk File)
    (stage : Disk File) (file : File) (st : RestoreState File) : Prop where
  primary : st.target.get (primaryPath layout) = some file
  log : st.target.get (walOf (primaryPath layout)) = leftoverLog layout root
  written : primaryPath layout ∈ st.written
  repos : layout = .dbPerRepo → ∀ a ∈ artifacts, ∀ name, repoArtifactName a.path = some name →
    st.target.get (repoDst name) = stage.get (components a.path) ∧
      st.target.get (walOf (repoDst name)) = none
  objects : ∀ rest, st.stage.get (objectsDir :: rest) = stage.get (objectsDir :: rest)

theorem wal_ne_repoDst (name name' : String) : walOf (repoDst name) ≠ repoDst name' := by
  intro h
  have hname : (name ++ ".db") ++ "-wal" = name' ++ ".db" := by
    injection h with _ h
    injection h
  have hlast := congrArg (fun s => s.toList.getLast?) hname
  simp [String.toList_append] at hlast

theorem moveDatabases_ok {manifest : BackupManifest} {root stage : Disk File}
    {st : RestoreState File}
    (h : moveDatabases cfg manifest ⟨root, stage, []⟩ = (st, none)) :
    ∃ file, stage.get [sqliteDump] = some file ∧
      DatabasesMoved cfg.layout manifest.artifacts root stage file st ∧
      (cfg.layout = .dbPerRepo → (repoPaths manifest.artifacts).Nodup) := by
  unfold moveDatabases at h
  dsimp only at h
  have hstage₀ := dropSidecars_stage (⟨root, stage, []⟩ : RestoreState File) sidecars
  have hframe₀ := dropSidecars_writes (⟨root, stage, []⟩ : RestoreState File) sidecars
  have hgone : ∀ p ∈ sidecars, (sidecars.foldl RestoreState.removeFile
      (⟨root, stage, []⟩ : RestoreState File)).target.get p = none :=
    fun p hp => get_dropSidecars _ hp
  generalize sidecars.foldl RestoreState.removeFile (⟨root, stage, []⟩ : RestoreState File) = st₀
    at h hstage₀ hframe₀ hgone
  split at h
  next => cases h
  next st₁ hmove =>
    obtain ⟨file, hfile, rfl⟩ := RestoreState.moveFile_eq hmove
    rw [hstage₀] at hfile
    refine ⟨file, hfile, ?_⟩
    have hobjects : ∀ rest, (stage.remove [sqliteDump]).get (objectsDir :: rest) =
        stage.get (objectsDir :: rest) := by
      intro rest
      rw [Disk.get_remove, if_neg]
      intro heq
      injection heq with hname
      exact absurd hname (by decide)
    split at h
    next hlayout =>
      cases h
      rw [hlayout]
      refine ⟨⟨Disk.get_put_self _ _ _, ?_, List.mem_append_right _ (List.mem_singleton_self _),
        fun h => absurd h (by decide), fun rest => ?_⟩, fun h => absurd h (by decide)⟩
      · show (st₀.target.put _ _).get _ = none
        rw [Disk.get_put_of_ne _ _ (by decide)]
        exact hgone _ (by decide)
      · show (st₀.stage.remove [sqliteDump]).get _ = _
        rw [hstage₀, hobjects]
    next hlayout =>
      rw [hlayout]
      obtain ⟨hnodup, hmoved, hstage⟩ := moveRepos_ok h
      have hwrites := moveRepos_writes manifest.artifacts
        (RestoreState.removeDir { st₀.putFile (primaryPath cfg.layout) file with
          stage := st₀.stage.remove [sqliteDump] } [reposDir])
      rw [h] at hwrites
      -- no path of a repository's file is the catalog's
      have hnot : ∀ name, ¬RepoDsts manifest.artifacts [name] := by
        rintro name ⟨-, -, name', -, heq⟩
        cases heq
      have hfree : ∀ p, [reposDir].isPrefixOf p = true → ¬RepoDsts manifest.artifacts p →
          st.target.get p = none := by
        intro p hp hdst
        rw [hwrites.frame p hdst]
        exact (Disk.get_removeAll _ _ _).trans (if_pos hp)
      have hout : ∀ name, [reposDir].isPrefixOf [name] = false →
          st.target.get [name] = (st₀.target.put [catalogFile] file).get [name] := by
        intro name hname
        rw [hwrites.frame _ (hnot name)]
        show ((st₀.target.put (primaryPath cfg.layout) file).removeAll [reposDir]).get [name] = _
        rw [Disk.get_removeAll, if_neg (by rw [hname]; exact Bool.false_ne_true), hlayout]
        rfl
      refine ⟨⟨?_, ?_, ?_, fun _ a ha name hname => ⟨?_, ?_⟩, fun rest => ?_⟩, fun _ => hnodup⟩
      · exact (hout catalogFile (by decide)).trans (Disk.get_put_self _ _ _)
      · have hwal : ¬([catalogFile ++ "-wal"] ∈ sidecars) := by decide
        show st.target.get [catalogFile ++ "-wal"] = root.get [catalogFile ++ "-wal"]
        rw [hout _ (by decide), Disk.get_put_of_ne _ _ (by decide), hframe₀.frame _ hwal]
      · refine hwrites.keeps _ (List.mem_append_left _ (List.mem_append_right _ ?_))
        rw [hlayout]
        exact List.mem_singleton_self _
      · obtain ⟨file', hfile', htarget⟩ := hmoved a ha name hname
        rw [htarget]
        change (st₀.stage.remove [sqliteDump]).get _ = _ at hfile'
        rw [Disk.get_remove, hstage₀] at hfile'
        split at hfile'
        next => cases hfile'
        next => exact hfile'.symm
      · refine hfree _ (by rfl) ?_
        rintro ⟨-, -, name', -, heq⟩
        exact wal_ne_repoDst name name' heq
      · rw [hstage _ fun path hpath => ?_]
        · show (st₀.stage.remove [sqliteDump]).get _ = _
          rw [hstage₀, hobjects]
        · obtain ⟨name', hname'⟩ := Option.isSome_iff_exists.mp (List.mem_filter.mp hpath).2
          exact components_repo_ne hname' rest

theorem moveDatabases_of_staged {manifest : BackupManifest} {root stage : Disk File} {file : File}
    (hfile : stage.get [sqliteDump] = some file)
    (hnodup : cfg.layout = .dbPerRepo → (repoPaths manifest.artifacts).Nodup)
    (hstaged : ∀ path ∈ repoPaths manifest.artifacts,
      ∃ file, stage.get (components path) = some file) :
    ∃ st, moveDatabases cfg manifest ⟨root, stage, []⟩ = (st, none) := by
  unfold moveDatabases
  dsimp only
  have hstage₀ := dropSidecars_stage (⟨root, stage, []⟩ : RestoreState File) sidecars
  generalize sidecars.foldl RestoreState.removeFile (⟨root, stage, []⟩ : RestoreState File) = st₀
    at hstage₀
  have hmove : st₀.moveFile [sqliteDump] (primaryPath cfg.layout) =
      some { st₀.putFile (primaryPath cfg.layout) file with
        stage := st₀.stage.remove [sqliteDump] } := by
    rw [RestoreState.moveFile, hstage₀, hfile]
    rfl
  rw [hmove]
  dsimp only
  split
  next => exact ⟨_, rfl⟩
  next hlayout =>
    refine moveRepos_of_nodup (hnodup hlayout) fun path hpath => ?_
    obtain ⟨file', hfile'⟩ := hstaged path hpath
    refine ⟨file', ?_⟩
    obtain ⟨name, hname⟩ := Option.isSome_iff_exists.mp (List.mem_filter.mp hpath).2
    show (st₀.stage.remove [sqliteDump]).get _ = _
    rw [hstage₀, Disk.get_remove, if_neg, hfile']
    intro heq
    have hhead := repoArtifact_head hname
    have hdump : (joinSlash [sqliteDump]).toList.head? = some 'n' := by
      rw [joinSlash, String.toList_intercalate]
      rfl
    rw [← join_components path, heq, hdump] at hhead
    exact absurd hhead (by decide)

/-! ### The write phase -/

section

variable {manifest : BackupManifest} {waived : List String} {force : Bool}

theorem primary_not_object (layout : Layout) :
    ¬InObjects (primaryPath layout) ∧ ¬InObjects (walOf (primaryPath layout)) := by
  constructor <;> rintro ⟨rest, h⟩ <;> cases layout <;> injection h with hname <;>
    exact absurd hname (by decide)

theorem walOf_primary_ne (layout : Layout) : walOf (primaryPath layout) ≠ primaryPath layout := by
  cases layout <;> decide

/-- The rest of a restore that meets staged objects: it writes them, adds the
audit row to the opened store and answers. -/
theorem restoreRest_of_staged {opened : Option (Database Id)} {st : RestoreState File}
    (hstaged : ∀ hex ∈ restoredIds cfg manifest,
      ∃ file, st.stage.get (objectsDir :: shardPath hex) = some file) :
    ∃ report st', restoreRest tools world cfg manifest waived force opened st =
        ⟨st'.target, st'.written, .ok report⟩ ∧
      RestoreState.WritesIn (fun p => InObjects p ∨ opened.isSome ∧
        (p = primaryPath cfg.layout ∨ p = walOf (primaryPath cfg.layout))) st st' ∧
      (∀ hex ∈ restoredIds cfg manifest, st'.target.get (objectsDir :: shardPath hex) =
        st.stage.get (objectsDir :: shardPath hex)) ∧
      (∀ p, (∀ hex ∈ restoredIds cfg manifest, objectsDir :: shardPath hex ≠ p) →
        p ≠ primaryPath cfg.layout → p ≠ walOf (primaryPath cfg.layout) →
          st'.target.get p = st.target.get p) ∧
      ∀ db, opened = some db → (∃ file, st.target.get (primaryPath cfg.layout) = some file) →
        RestoreState.view tools st'.target (primaryPath cfg.layout) =
          some (db.auditAppend world.nowNs.toNat "admin" "restore"
            (restoreAuditDetails cfg manifest waived)) := by
  obtain ⟨st₁, hcopy, -, hget, hframe⟩ := copyObjects_of_staged hstaged
  have hwrites := copyObjects_writes (restoredIds cfg manifest) st
  rw [hcopy] at hwrites
  have hpresent : (restoredIds cfg manifest).any
      (fun hex => !st₁.target.stands (objectsDir :: shardPath hex)) = false := by
    rw [List.any_eq_false]
    intro hex hhex
    obtain ⟨file, hfile⟩ := hstaged hex hhex
    rw [Disk.stands_of_get ((hget hex hhex).trans hfile)]
    exact Bool.false_ne_true
  obtain ⟨hprimary, hwal⟩ := primary_not_object cfg.layout
  cases opened with
  | none =>
      have hrest : ∃ report, restoreRest tools world cfg manifest waived force none st =
          ⟨st₁.target, st₁.written, .ok report⟩ := by
        rw [restoreRest, hcopy]
        simp only [hpresent, Bool.false_eq_true, if_false]
        exact ⟨_, rfl⟩
      obtain ⟨report, hrest⟩ := hrest
      refine ⟨report, st₁, hrest, hwrites.mono fun p hp => .inl hp, hget,
        fun p hp _ _ => hframe p hp, fun db h => by cases h⟩
  | some db =>
      have hrest : ∃ report, restoreRest tools world cfg manifest waived force (some db) st =
          let st' := st₁.commit tools (primaryPath cfg.layout) (db.auditAppend world.nowNs.toNat
            "admin" "restore" (restoreAuditDetails cfg manifest waived))
          ⟨st'.target, st'.written, .ok report⟩ := by
        rw [restoreRest, hcopy]
        simp only [hpresent, Bool.false_eq_true, if_false]
        exact ⟨_, rfl⟩
      obtain ⟨report, hrest⟩ := hrest
      have hcommit : RestoreState.WritesIn
          (fun p => p = primaryPath cfg.layout ∨ p = walOf (primaryPath cfg.layout)) st₁
          (st₁.commit tools (primaryPath cfg.layout) (db.auditAppend world.nowNs.toNat "admin"
            "restore" (restoreAuditDetails cfg manifest waived))) :=
        RestoreState.writesIn_commit tools (.inl rfl) (.inr rfl) _
      refine ⟨report, _, hrest, (hwrites.mono fun p hp => .inl hp).trans
        (hcommit.mono fun p hp => .inr ⟨rfl, hp⟩), fun hex hhex => ?_, fun p hp hne hnwal => ?_,
        fun db' h hfile => ?_⟩
      · rw [hcommit.frame _ fun h => h.elim (fun h => hprimary ⟨_, h.symm⟩)
          (fun h => hwal ⟨_, h.symm⟩)]
        exact hget hex hhex
      · rw [hcommit.frame p fun h => h.elim hne hnwal]
        exact hframe p hp
      · cases h
        obtain ⟨file, hfile⟩ := hfile
        have hfile₁ : st₁.target.get (primaryPath cfg.layout) = some file := by
          rw [hwrites.frame _ hprimary, hfile]
        exact RestoreState.view_commit hfile₁ (walOf_primary_ne _) _

section

variable {root backupDir stage : Disk File} {allowMissing : Option String}

theorem RestoreAccepted.stagedObjects
    (h : RestoreAccepted tools world cfg root backupDir force allowMissing manifest waived stage) :
    ∀ hex ∈ restoredIds cfg manifest,
      stage.get (objectsDir :: shardPath hex) = backupDir.get (objectsDir :: shardPath hex) ∧
        ∃ file, stage.get (objectsDir :: shardPath hex) = some file := by
  intro hex hhex
  unfold restoredIds at hhex
  split at hhex
  next hblob =>
    have hvalid := (loadManifest_ok h.load).objects hex hhex
    have hguard := h.artifacts
    unfold artifactGuard at hguard
    split_ifs at hguard with hmissing
    have hlisted : ∃ a ∈ manifest.artifacts, a.path = objectArtifactPath hex := by
      by_contra hnot
      refine hmissing ⟨hblob, List.any_eq_true.mpr ⟨hex, hhex, ?_⟩⟩
      rw [Bool.not_eq_true', List.any_eq_false]
      exact fun a ha => by simpa using fun heq => hnot ⟨a, ha, heq⟩
    obtain ⟨a, ha, hpath⟩ := hlisted
    have hstaged := stageArtifacts_staged h.staged
    obtain ⟨file, hfile, -⟩ := hstaged.sums a ha
    have hget := hstaged.get a ha
    rw [hpath, components_objectArtifactPath hvalid] at hget hfile
    exact ⟨hget, file, hget.trans hfile⟩
  next => exact absurd hhex List.not_mem_nil

/-- The staged snapshot of an accepted SQLite restore is a database of a version
within the shared list's. -/
theorem RestoreAccepted.dump
    (h : RestoreAccepted tools world cfg root backupDir force allowMissing manifest waived stage)
    (hsqlite : cfg.metaKind = .sqlite) :
    ∃ file v, stage.get [sqliteDump] = some file ∧ backupDir.get [sqliteDump] = some file ∧
      stagedSqliteVersion tools (some file) = .ok v ∧ v ≤ maxSupported := by
  have hversion := h.version
  simp only [versionGuard, hsqlite, Lib.bind_eq_ok] at hversion
  obtain ⟨v, hv, hle⟩ := hversion
  split_ifs at hle with hlt
  cases hfile : stage.get [sqliteDump] with
  | none =>
      rw [hfile] at hv
      cases hv
  | some file =>
      rw [hfile] at hv
      have hstaged := stageArtifacts_staged h.staged
      obtain ⟨a, ha, hpath⟩ := hstaged.only _ _ hfile
      have hget := hstaged.get a ha
      rw [hpath, hfile] at hget
      exact ⟨file, v, rfl, hget.symm, hv, not_lt.mp hlt⟩

theorem RestoreAccepted.stagedRepo
    (h : RestoreAccepted tools world cfg root backupDir force allowMissing manifest waived stage)
    {a : ArtifactChecksum} (ha : a ∈ manifest.artifacts) :
    stage.get (components a.path) = backupDir.get (components a.path) ∧
      ∃ file, stage.get (components a.path) = some file := by
  have hstaged := stageArtifacts_staged h.staged
  obtain ⟨file, hfile, -⟩ := hstaged.sums a ha
  exact ⟨hstaged.get a ha, file, (hstaged.get a ha).trans hfile⟩

/-- The row a restore appends. -/
def restoredRows (world : BackupWorld File) (cfg : BackendConfig) (manifest : BackupManifest)
    (waived : List String) (db : Database Id) : Database Id :=
  db.auditAppend world.nowNs.toNat "admin" "restore" (restoreAuditDetails cfg manifest waived)

/-- What a restore that answers has left. -/
structure Restored (tools : BackupTools Id File) (world : BackupWorld File) (cfg : BackendConfig)
    (manifest : BackupManifest) (waived : List String) (root backupDir : Disk File)
    (db : Database Id) (r : RestoreResult File) : Prop where
  answer : ∃ report, r.answer = .ok report
  primary : RestoreState.view tools r.target (primaryPath cfg.layout) =
    some (restoredRows world cfg manifest waived db)
  repos : cfg.layout = .dbPerRepo → ∀ a ∈ manifest.artifacts, ∀ name,
    repoArtifactName a.path = some name →
      RestoreState.view tools r.target (repoDst name) =
        (backupDir.get (components a.path)).bind fun file => tools.read file none
  objects : ∀ hex ∈ restoredIds cfg manifest, r.target.get (objectsDir :: shardPath hex) =
    backupDir.get (objectsDir :: shardPath hex)
  others : ∀ rest, (∀ hex ∈ restoredIds cfg manifest, shardPath hex ≠ rest) →
    r.target.get (objectsDir :: rest) = root.get (objectsDir :: rest)

/-- A path of the objects is none of the database files. -/
theorem databasePaths_not_object (layout : Layout) (rest : List String) :
    ¬DatabasePaths layout (objectsDir :: rest) := by
  rintro (h | h | ⟨-, h⟩)
  · simp only [sidecars, List.mem_cons, List.not_mem_nil, or_false] at h
    rcases h with h | h <;> injection h with hname <;> exact absurd hname (by decide)
  · exact (primary_not_object layout).1 ⟨rest, h.symm⟩
  · exact absurd h (by simp [List.isPrefixOf, reposDir, objectsDir])

theorem restoreWrite_opened
    (h : RestoreAccepted tools world cfg root backupDir force allowMissing manifest waived stage)
    (hsqlite : cfg.metaKind = .sqlite) {file : File} (hfile : stage.get [sqliteDump] = some file)
    (hnodup : cfg.layout = .dbPerRepo → (repoPaths manifest.artifacts).Nodup)
    {db : Database Id}
    (hopen : tools.openPrimary cfg.layout file (leftoverLog cfg.layout root) = .ok db) :
    Restored tools world cfg manifest waived root backupDir db
      (restoreWrite tools world cfg root force manifest waived stage) := by
  have hrepos : ∀ path ∈ repoPaths manifest.artifacts,
      ∃ file, stage.get (components path) = some file := by
    intro path hpath
    obtain ⟨a, ha, rfl⟩ := List.mem_map.mp (List.mem_filter.mp hpath).1
    exact (h.stagedRepo ha).2
  obtain ⟨st, hmove⟩ : ∃ st, moveDatabases cfg manifest ⟨root, stage, []⟩ = (st, none) :=
    moveDatabases_of_staged hfile hnodup hrepos
  obtain ⟨file', hfile', hmoved, -⟩ := moveDatabases_ok hmove
  rw [hfile] at hfile'
  cases hfile'
  have hwrites : RestoreState.WritesIn (DatabasePaths cfg.layout) ⟨root, stage, []⟩
      (moveDatabases cfg manifest ⟨root, stage, []⟩).1 := moveDatabases_writes manifest _
  rw [hmove] at hwrites
  have hcommit : RestoreState.WritesIn
      (fun p => p = primaryPath cfg.layout ∨ p = walOf (primaryPath cfg.layout)) st
      (st.commit tools (primaryPath cfg.layout) db) :=
    RestoreState.writesIn_commit tools (.inl rfl) (.inr rfl) db
  have hstaged : ∀ hex ∈ restoredIds cfg manifest, ∃ file,
      (st.commit tools (primaryPath cfg.layout) db).stage.get (objectsDir :: shardPath hex) =
        some file := by
    intro hex hhex
    rw [RestoreState.stage_commit, hmoved.objects]
    exact (h.stagedObjects hex hhex).2
  obtain ⟨report, st', hrest, -, hobjects, hframe, hview⟩ :=
    @restoreRest_of_staged _ _ _ tools world cfg manifest waived force (some db) _ hstaged
  have hrun : restoreWrite tools world cfg root force manifest waived stage =
      ⟨st'.target, st'.written, .ok report⟩ := by
    rw [← hrest]
    unfold restoreWrite
    simp only [hsqlite, hmove, hmoved.primary, hmoved.log, hopen]
  obtain ⟨hprimary, hwal⟩ := primary_not_object cfg.layout
  have hcommitted : RestoreState.view tools (st.commit tools (primaryPath cfg.layout) db).target
      (primaryPath cfg.layout) = some db :=
    RestoreState.view_commit hmoved.primary (walOf_primary_ne cfg.layout) db
  obtain ⟨committed, hget, -⟩ := Option.bind_eq_some_iff.mp hcommitted
  -- what neither the commits nor the objects touch
  have hkept : ∀ p, ¬InObjects p → p ≠ primaryPath cfg.layout →
      p ≠ walOf (primaryPath cfg.layout) → st'.target.get p = st.target.get p := by
    intro p hobj hne hnwal
    rw [hframe p (fun hex _ heq => hobj ⟨_, heq.symm⟩) hne hnwal,
      hcommit.frame p fun h => h.elim hne hnwal]
  rw [hrun]
  refine ⟨⟨report, rfl⟩, hview db rfl ⟨committed, hget⟩, fun hlayout a ha name hname => ?_,
    fun hex hhex => ?_, fun rest hrest => ?_⟩
  · obtain ⟨hget, hnowal⟩ := hmoved.repos hlayout a ha name hname
    have hdst : ∀ p : String, st'.target.get [reposDir, p] = st.target.get [reposDir, p] := by
      intro p
      refine hkept _ ?_ ?_ ?_
      · rintro ⟨rest, heq⟩
        injection heq with hdir
        exact absurd hdir (by decide)
      · rw [hlayout]
        show [reposDir, p] ≠ [catalogFile]
        simp
      · rw [hlayout]
        show [reposDir, p] ≠ [catalogFile ++ "-wal"]
        simp
    show (st'.target.get [reposDir, name ++ ".db"]).bind _ = _
    rw [hdst]
    have hwal' : st'.target.get (walOf (repoDst name)) = none := (hdst _).trans hnowal
    rw [hwal']
    have hstage := hget.trans (h.stagedRepo ha).1
    exact congrArg (fun found => found.bind fun file => tools.read file none) hstage
  · rw [hobjects hex hhex, RestoreState.stage_commit, hmoved.objects, (h.stagedObjects hex hhex).1]
  · have hnot : ∀ p, ¬InObjects p → objectsDir :: rest ≠ p := fun p hp heq => hp ⟨rest, heq.symm⟩
    show st'.target.get (objectsDir :: rest) = _
    rw [hframe _ (fun hex hhex heq => hrest hex hhex (List.cons.inj heq).2) (hnot _ hprimary)
        (hnot _ hwal),
      hcommit.frame _ fun h => h.elim (hnot _ hprimary) (hnot _ hwal)]
    exact hwrites.frame _ (databasePaths_not_object cfg.layout rest)

/-- A SQLite restore that meets a repeated artifact of a repository, or a store
that does not open, answers an error. -/
theorem restoreWrite_ok
    (hsqlite : cfg.metaKind = .sqlite) {file : File} (hfile : stage.get [sqliteDump] = some file)
    {report : RestoreReport}
    (hok : (restoreWrite tools world cfg root force manifest waived stage).answer = .ok report) :
    (cfg.layout = .dbPerRepo → (repoPaths manifest.artifacts).Nodup) ∧
      ∃ db, tools.openPrimary cfg.layout file (leftoverLog cfg.layout root) = .ok db := by
  unfold restoreWrite at hok
  simp only [hsqlite] at hok
  cases hmove : moveDatabases cfg manifest ⟨root, stage, []⟩ with
  | mk st e =>
      rw [hmove] at hok
      cases e with
      | some e => cases hok
      | none =>
          obtain ⟨file', hfile', hmoved, hnodup⟩ := moveDatabases_ok hmove
          rw [hfile] at hfile'
          cases hfile'
          simp only [hmoved.primary, hmoved.log] at hok
          refine ⟨hnodup, ?_⟩
          cases hopen : tools.openPrimary cfg.layout file (leftoverLog cfg.layout root) with
          | error e =>
              rw [hopen] at hok
              cases hok
          | ok db => exact ⟨db, rfl⟩

/-- The rest of a restore adds objects, and the opened store's files. -/
theorem restoreRest_written {opened : Option (Database Id)} {st : RestoreState File} :
    (∀ p ∈ (restoreRest tools world cfg manifest waived force opened st).written,
        p ∈ st.written ∨ InObjects p ∨ opened.isSome ∧
          (p = primaryPath cfg.layout ∨ p = walOf (primaryPath cfg.layout))) ∧
      ∀ p ∈ st.written, p ∈ (restoreRest tools world cfg manifest waived force opened st).written := by
  have hwrites := copyObjects_writes (restoredIds cfg manifest) st
  unfold restoreRest
  split
  next st₁ e hcopy =>
    rw [hcopy] at hwrites
    exact ⟨fun p hp => (hwrites.written p hp).imp_right .inl, hwrites.keeps⟩
  next st₁ hcopy =>
    rw [hcopy] at hwrites
    split
    next => exact ⟨fun p hp => (hwrites.written p hp).imp_right .inl, hwrites.keeps⟩
    next =>
      cases opened with
      | none => exact ⟨fun p hp => (hwrites.written p hp).imp_right .inl, hwrites.keeps⟩
      | some db =>
          have hcommit : RestoreState.WritesIn
              (fun p => p = primaryPath cfg.layout ∨ p = walOf (primaryPath cfg.layout)) st₁
              (st₁.commit tools (primaryPath cfg.layout) (db.auditAppend world.nowNs.toNat "admin"
                "restore" (restoreAuditDetails cfg manifest waived))) :=
            RestoreState.writesIn_commit tools (.inl rfl) (.inr rfl) _
          refine ⟨fun p hp => ?_, fun p hp => hcommit.keeps p (hwrites.keeps p hp)⟩
          rcases hcommit.written p hp with hp | hp
          · exact (hwrites.written p hp).imp_right .inl
          · exact .inr (.inr ⟨rfl, hp⟩)

/-- The first file is written by the first move. -/
theorem moveDatabases_first {root stage : Disk File} {file : File}
    (hfile : stage.get [sqliteDump] = some file) :
    primaryPath cfg.layout ∈ (moveDatabases cfg manifest ⟨root, stage, []⟩).1.written := by
  unfold moveDatabases
  dsimp only
  have hstage₀ := dropSidecars_stage (⟨root, stage, []⟩ : RestoreState File) sidecars
  generalize sidecars.foldl RestoreState.removeFile (⟨root, stage, []⟩ : RestoreState File) = st₀
    at hstage₀
  have hmove : st₀.moveFile [sqliteDump] (primaryPath cfg.layout) =
      some { st₀.putFile (primaryPath cfg.layout) file with
        stage := st₀.stage.remove [sqliteDump] } := by
    rw [RestoreState.moveFile, hstage₀, hfile]
    rfl
  rw [hmove]
  dsimp only
  have hput : primaryPath cfg.layout ∈ (st₀.putFile (primaryPath cfg.layout) file).written :=
    List.mem_append_right _ (List.mem_singleton_self _)
  split
  next => exact hput
  next =>
    exact (moveRepos_writes manifest.artifacts _).keeps _ (List.mem_append_left _ hput)

/-- The paths a SQLite restore writes, the store's first file among them. -/
theorem restoreWrite_written (hsqlite : cfg.metaKind = .sqlite) {file : File}
    (hfile : stage.get [sqliteDump] = some file) :
    primaryPath cfg.layout ∈ (restoreWrite tools world cfg root force manifest waived stage).written ∧
      ∀ p ∈ (restoreWrite tools world cfg root force manifest waived stage).written,
        DatabasePaths cfg.layout p ∨ InObjects p ∨ p = walOf (primaryPath cfg.layout) := by
  have hfirst : primaryPath cfg.layout ∈
      (moveDatabases cfg manifest ⟨root, stage, []⟩).1.written := moveDatabases_first hfile
  have hwrites : RestoreState.WritesIn (DatabasePaths cfg.layout) ⟨root, stage, []⟩
      (moveDatabases cfg manifest ⟨root, stage, []⟩).1 := moveDatabases_writes manifest _
  have hall : ∀ p ∈ (moveDatabases cfg manifest ⟨root, stage, []⟩).1.written,
      DatabasePaths cfg.layout p := fun p hp =>
    (hwrites.written p hp).resolve_left List.not_mem_nil
  unfold restoreWrite
  simp only [hsqlite]
  cases hmove : moveDatabases cfg manifest ⟨root, stage, []⟩ with
  | mk st e =>
      rw [hmove] at hfirst hall
      have hstop : ∀ e, primaryPath cfg.layout ∈ (st.stop e).written ∧ ∀ p ∈ (st.stop e).written,
          DatabasePaths cfg.layout p ∨ InObjects p ∨ p = walOf (primaryPath cfg.layout) :=
        fun e => ⟨hfirst, fun p hp => .inl (hall p hp)⟩
      cases e with
      | some e => exact hstop e
      | none =>
          dsimp only
          split
          next => exact hstop _
          next file' hfile' =>
            split
            next e hopen => exact hstop _
            next db hopen =>
              obtain ⟨hin, hkeep⟩ := @restoreRest_written _ _ _ tools world cfg manifest waived
                force (some db) (st.commit tools (primaryPath cfg.layout) db)
              have hcommit : RestoreState.WritesIn
                  (fun p => p = primaryPath cfg.layout ∨ p = walOf (primaryPath cfg.layout)) st
                  (st.commit tools (primaryPath cfg.layout) db) :=
                RestoreState.writesIn_commit tools (.inl rfl) (.inr rfl) db
              refine ⟨hkeep _ (hcommit.keeps _ hfirst), fun p hp => ?_⟩
              rcases hin p hp with hp | hp | ⟨-, rfl | rfl⟩
              · rcases hcommit.written p hp with hp | rfl | rfl
                · exact .inl (hall p hp)
                · exact .inl (.inr (.inl rfl))
                · exact .inr (.inr rfl)
              · exact .inr (.inl hp)
              · exact .inl (.inr (.inl rfl))
              · exact .inr (.inr rfl)

/-- A Postgres restore writes objects alone. -/
theorem restoreWrite_postgres (hpostgres : cfg.metaKind = .postgres) :
    ∀ p ∈ (restoreWrite tools world cfg root force manifest waived stage).written, InObjects p := by
  unfold restoreWrite
  simp only [hpostgres]
  intro p hp
  split at hp
  next => exact absurd hp List.not_mem_nil
  next =>
    split at hp
    next => exact absurd hp List.not_mem_nil
    next =>
      rcases restoreRest_written.1 p hp with hp | hp | ⟨hopened, -⟩
      · exact absurd hp List.not_mem_nil
      · exact hp
      · cases hopened

end

end

end

end Naatre
