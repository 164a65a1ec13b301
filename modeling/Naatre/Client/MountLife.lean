import Naatre.Lib.Run
import Naatre.Core.Path
import Mathlib.Logic.Function.Basic

/-!
The life of the mount daemons that share one cache root
(`naatre-cli/src/verbs/mount.rs`; the FUSE front-end takes the same steps): a
start prunes the directories of the mounts that are gone, makes its own, serves,
and at its graceful exit flushes, lands and cleans up.

A mount is known by the name of its directory, which is drawn at random and
taken to be new. Every step of a process is one event, so the events of different
processes fall in any order. The flush of one mount is in `Client.MountFlush`;
here it reads the shadow copies one by one and then fails or not.
-/

namespace Naatre.Client.MountLife

/-- Buffered writes by their path. -/
abbrev Writes := List (String × Bytes)

def put (w : Writes) (path : String) (bytes : Bytes) : Writes :=
  (path, bytes) :: w.filter (·.1 ≠ path)

/-- `mounts_root/<export>`: the pid of a session file that reads, and the shadow
copies. -/
structure MountDir where
  session : Option ℕ
  shadow : Writes
  deriving DecidableEq

inductive Phase
  | pruning (stale : Option String)
  | opened
  | ready
  | serving
  | flushing (left : List String) (taken : Writes)
  | landing (taken : Writes)
  | cleaning (taken : Writes)
  | removed (taken : Writes)
  | kept
  | exited (dirKept : Bool)
  | crashed
  deriving DecidableEq

structure Mount where
  pid : ℕ
  writable : Bool
  flushLand : Bool
  phase : Phase
  written : Writes
  deriving DecidableEq

/-- A process: a mount by its name, or any other. -/
inductive Process
  | mount (name : String)
  | other
  deriving DecidableEq

/-- `printed` holds the changesets whose ids were printed, `main` those that are
landed, each as its changes. -/
structure State where
  mounts : String → Option Mount
  procs : ℕ → Option Process
  dirs : String → Option MountDir
  printed : List Writes
  main : List Writes

def initial : State := ⟨fun _ => none, fun _ => none, fun _ => none, [], []⟩

inductive Event
  | spawn (pid : ℕ)
  | quit (pid : ℕ)
  | start (name : String) (pid : ℕ) (writable flushLand : Bool)
  | judge (name entry : String)
  | prune (name : String) (left : Option MountDir)
  | create (name : String)
  | session (name : String)
  | setupFails (name : String) (left : Option MountDir)
  | serve (name : String)
  | write (name path : String) (bytes : Bytes)
  | stop (name : String)
  | read (name : String)
  | stage (name : String)
  | flushFails (name : String)
  | settle (changes : Writes)
  | landed (name : String)
  | landFails (name : String)
  | remove (name : String) (left : Option MountDir)
  | exit (name : String)
  | crash (name : String)

namespace State

def setMount (s : State) (name : String) (m : Mount) : State :=
  { s with mounts := Function.update s.mounts name (some m) }

def setPhase (s : State) (name : String) (m : Mount) (phase : Phase) : State :=
  s.setMount name { m with phase := phase }

def setDir (s : State) (name : String) (dir : Option MountDir) : State :=
  { s with dirs := Function.update s.dirs name dir }

def setProc (s : State) (pid : ℕ) (p : Option Process) : State :=
  { s with procs := Function.update s.procs pid p }

/-- `remove_dir_all`: what is left of a directory that was there. -/
def removeDir (s : State) (name : String) (left : Option MountDir) : State :=
  s.setDir name ((s.dirs name).bind fun _ => left)

/-- `pid_alive`. -/
def pidAlive (s : State) (pid : ℕ) : Bool := (s.procs pid).isSome

/-- The verdict of `prune_stale_mounts` on a directory. -/
def isStale (s : State) (dir : MountDir) : Bool :=
  match dir.session with
  | none => true
  | some pid => !s.pidAlive pid

/-- The process of a mount ends. -/
def finish (s : State) (name : String) (m : Mount) (phase : Phase) : State :=
  (s.setPhase name m phase).setProc m.pid none

end State

/-- A mount that has its directory and takes requests: the connections are served
until the process ends. -/
def Phase.takesWrites : Phase → Bool
  | .serving | .flushing _ _ | .landing _ | .cleaning _ | .removed _ | .kept => true
  | _ => false

def Phase.running : Phase → Bool
  | .exited _ | .crashed => false
  | _ => true

/-- `stage`: the shadow directory is made anew where it is gone. -/
def shadowWrite (dir : Option MountDir) (path : String) (bytes : Bytes) : MountDir :=
  match dir with
  | some dir => { dir with shadow := put dir.shadow path bytes }
  | none => ⟨none, [(path, bytes)]⟩

/-- A step of a mount, by its phase. -/
def mountStep (s : State) (name : String) (m : Mount) : Event → Option State
  | .judge _ entry =>
      match m.phase, s.dirs entry with
      | .pruning _, some dir =>
          some (s.setPhase name m (.pruning (if s.isStale dir then some entry else none)))
      | _, _ => none
  | .prune _ left =>
      match m.phase with
      | .pruning (some entry) =>
          some ((s.removeDir entry left).setPhase name m (.pruning none))
      | _ => none
  | .create _ =>
      match m.phase with
      | .pruning _ => some ((s.setDir name (some ⟨none, []⟩)).setPhase name m .opened)
      | _ => none
  | .session _ =>
      match m.phase with
      | .opened => some ((s.setDir name (some ⟨some m.pid, []⟩)).setPhase name m .ready)
      | _ => none
  | .setupFails _ left =>
      match m.phase with
      | .pruning _ => some (s.finish name m (.exited false))
      | .opened | .ready => some ((s.removeDir name left).finish name m (.exited false))
      | _ => none
  | .serve _ =>
      match m.phase with
      | .ready => some (s.setPhase name m .serving)
      | _ => none
  | .write _ path bytes =>
      if m.writable && m.phase.takesWrites then
        some ((s.setDir name (some (shadowWrite (s.dirs name) path bytes))).setMount name
          { m with written := put m.written path bytes })
      else none
  | .stop _ =>
      match m.phase with
      | .serving =>
          some (s.setPhase name m
            (if m.written = [] then .cleaning [] else .flushing (m.written.map Prod.fst) []))
      | _ => none
  | .read _ =>
      match m.phase with
      | .flushing (path :: left) taken =>
          match (s.dirs name).bind fun dir => dir.shadow.lookup path with
          | some bytes => some (s.setPhase name m (.flushing left (taken ++ [(path, bytes)])))
          | none => some (s.setPhase name m .kept)
      | _ => none
  | .stage _ =>
      match m.phase with
      | .flushing [] taken =>
          if m.flushLand then some (s.setPhase name m (.landing taken))
          else some { s.setPhase name m (.cleaning taken) with printed := taken :: s.printed }
      | _ => none
  | .flushFails _ =>
      match m.phase with
      | .flushing _ _ => some (s.setPhase name m .kept)
      | _ => none
  | .landed _ =>
      match m.phase with
      | .landing taken =>
          if taken ∈ s.main then some (s.setPhase name m (.cleaning taken)) else none
      | _ => none
  | .landFails _ =>
      match m.phase with
      | .landing taken => some (s.setPhase name m (.cleaning taken))
      | _ => none
  | .remove _ left =>
      match m.phase with
      | .cleaning taken => some ((s.removeDir name left).setPhase name m (.removed taken))
      | _ => none
  | .exit _ =>
      match m.phase with
      | .removed _ => some (s.finish name m (.exited false))
      | .kept => some (s.finish name m (.exited true))
      | _ => none
  | .crash _ => if m.phase.running then some (s.finish name m .crashed) else none
  | _ => none

/-- The mount an event is a step of. -/
def Event.name? : Event → Option String
  | .spawn _ | .quit _ | .start _ _ _ _ | .settle _ => none
  | .judge name _ | .prune name _ | .create name | .session name | .setupFails name _
  | .serve name | .write name _ _ | .stop name | .read name | .stage name | .flushFails name
  | .landed name | .landFails name | .remove name _ | .exit name | .crash name => some name

def step (s : State) (e : Event) : Option State :=
  match e with
  | .spawn pid => if s.pidAlive pid then none else some (s.setProc pid (some .other))
  | .quit pid => if s.procs pid = some .other then some (s.setProc pid none) else none
  | .start name pid writable flushLand =>
      -- `--flush-land` requires `--writable`
      if s.pidAlive pid || (s.mounts name).isSome || (s.dirs name).isSome ||
          (flushLand && !writable) then none
      else
        some ((s.setMount name ⟨pid, writable, flushLand, .pruning none, []⟩).setProc pid
          (some (.mount name)))
  | .settle changes => some { s with main := changes :: s.main }
  | e => e.name?.bind fun name => (s.mounts name).bind fun m => mountStep s name m e

/-! ### What is claimed -/

/-- The buffered writes are among the changes. -/
def Contained (written changes : Writes) : Prop := ∀ w ∈ written, w ∈ changes

/-- Writes that a printed changeset or `main` contains. -/
def Recorded (s : State) (written : Writes) : Prop :=
  written = [] ∨ ∃ changes ∈ s.printed ++ s.main, Contained written changes

/-- The directory of the mount holds its writes. -/
def Held (s : State) (name : String) (m : Mount) : Prop :=
  ∃ dir, s.dirs name = some dir ∧ Contained m.written dir.shadow

/-- A directory the mount has made and not removed. -/
def Phase.hasDir : Phase → Bool
  | .opened | .ready | .serving | .flushing _ _ | .landing _ | .cleaning _ | .kept => true
  | _ => false

/-- No write is lost, and no running mount loses its directory. -/
structure Safe (s : State) : Prop where
  exited : ∀ name m, s.mounts name = some m → ∀ dirKept, m.phase = .exited dirKept →
    Recorded s m.written ∨ Held s name m
  running : ∀ name m, s.mounts name = some m → m.phase.hasDir = true → Held s name m

/-- The steps that go well. A pruner does not come upon the directory of a start
that has not written its session yet, nor upon one that a failed flush kept when
the process is gone; a land that fails was settled all the same; and nothing was
buffered behind the flush's back when the process ends. -/
def Careful (s : State) : Event → Prop
  | .judge _ entry => ∀ m, s.mounts entry = some m → m.phase ≠ .opened ∧
      (m.phase = .exited true → s.pidAlive m.pid = true)
  | .landFails name => ∀ m, s.mounts name = some m → ∀ taken, m.phase = .landing taken →
      taken ∈ s.main
  | .exit name => ∀ m, s.mounts name = some m → ∀ taken, m.phase = .removed taken →
      Contained m.written taken
  | _ => True

/-! ### What a step leaves alone -/

section

variable {s s' s'' : State} {name : String} {m m' : Mount}

namespace State

@[simp] theorem setMount_mounts : (s.setMount name m).mounts = Function.update s.mounts name (some m) :=
  rfl

@[simp] theorem setMount_procs : (s.setMount name m).procs = s.procs := rfl

@[simp] theorem setMount_dirs : (s.setMount name m).dirs = s.dirs := rfl

@[simp] theorem setMount_printed : (s.setMount name m).printed = s.printed := rfl

@[simp] theorem setMount_main : (s.setMount name m).main = s.main := rfl

@[simp] theorem setDir_mounts {dir : Option MountDir} : (s.setDir name dir).mounts = s.mounts := rfl

@[simp] theorem setDir_procs {dir : Option MountDir} : (s.setDir name dir).procs = s.procs := rfl

@[simp] theorem setDir_dirs {dir : Option MountDir} :
    (s.setDir name dir).dirs = Function.update s.dirs name dir := rfl

@[simp] theorem setDir_printed {dir : Option MountDir} : (s.setDir name dir).printed = s.printed := rfl

@[simp] theorem setDir_main {dir : Option MountDir} : (s.setDir name dir).main = s.main := rfl

@[simp] theorem setProc_mounts {pid : ℕ} {p : Option Process} : (s.setProc pid p).mounts = s.mounts :=
  rfl

@[simp] theorem setProc_procs {pid : ℕ} {p : Option Process} :
    (s.setProc pid p).procs = Function.update s.procs pid p := rfl

@[simp] theorem setProc_dirs {pid : ℕ} {p : Option Process} : (s.setProc pid p).dirs = s.dirs := rfl

@[simp] theorem setProc_printed {pid : ℕ} {p : Option Process} :
    (s.setProc pid p).printed = s.printed := rfl

@[simp] theorem setProc_main {pid : ℕ} {p : Option Process} : (s.setProc pid p).main = s.main := rfl

end State

/-- A mount that is done with its directory. -/
def Phase.free : Phase → Bool
  | .removed _ | .exited false | .crashed => true
  | _ => false

def FreeEntry (s : State) (entry : String) : Prop :=
  ∃ m, s.mounts entry = some m ∧ m.phase.free = true

/-- What a step of `who` (of a mount or of none) leaves to the others. -/
structure Frame (s s' : State) (who : Option String) : Prop where
  mounts : ∀ e, some e ≠ who → s'.mounts e = s.mounts e
  procs : ∀ e, some e ≠ who → ∀ pid, s.procs pid = some (.mount e) → s'.procs pid = some (.mount e)
  dirs : ∀ e, some e ≠ who → s'.dirs e = s.dirs e ∨ FreeEntry s e
  printed : ∀ changes ∈ s.printed, changes ∈ s'.printed
  main : ∀ changes ∈ s.main, changes ∈ s'.main
  free : ∀ e, some e = who → FreeEntry s e → FreeEntry s' e

theorem Frame.freeEntry {who : Option String} (h : Frame s s' who) {e : String}
    (hfree : FreeEntry s e) : FreeEntry s' e := by
  by_cases hwho : some e = who
  · exact h.free e hwho hfree
  · obtain ⟨m, hm, hphase⟩ := hfree
    exact ⟨m, (h.mounts e hwho).trans hm, hphase⟩

theorem Frame.trans {who : Option String} (h : Frame s s' who) (h' : Frame s' s'' who) :
    Frame s s'' who where
  mounts e he := (h'.mounts e he).trans (h.mounts e he)
  procs e he pid hpid := h'.procs e he pid (h.procs e he pid hpid)
  dirs e he := by
    rcases h'.dirs e he with heq | ⟨m, hm, hfree⟩
    · rw [heq]
      exact h.dirs e he
    · exact .inr ⟨m, (h.mounts e he).symm.trans hm, hfree⟩
  printed changes hc := h'.printed changes (h.printed changes hc)
  main changes hc := h'.main changes (h.main changes hc)
  free _ _ hfree := h'.freeEntry (h.freeEntry hfree)

theorem frame_setMount (hm : s.mounts name = some m)
    (hfree : m.phase.free = true → m'.phase.free = true) :
    Frame s (s.setMount name m') (some name) where
  mounts e he := Function.update_of_ne (fun h => he (congrArg some h)) _ _
  procs _ _ _ hpid := hpid
  dirs _ _ := .inl rfl
  printed _ hc := hc
  main _ hc := hc
  free _ he := by
    rintro ⟨p, hp, hpfree⟩
    cases he
    rw [hm] at hp
    cases hp
    exact ⟨m', by simp, hfree hpfree⟩

theorem frame_setDir (dir : Option MountDir) : Frame s (s.setDir name dir) (some name) where
  mounts _ _ := rfl
  procs _ _ _ hpid := hpid
  dirs _ he := .inl (Function.update_of_ne (fun h => he (congrArg some h)) _ _)
  printed _ hc := hc
  main _ hc := hc
  free _ _ h := h

/-- The directory of a mount that is done with it is anyone's. -/
theorem frame_setDir_free {entry : String} (hfree : FreeEntry s entry) (dir : Option MountDir)
    (who : Option String) : Frame s (s.setDir entry dir) who where
  mounts _ _ := rfl
  procs _ _ _ hpid := hpid
  dirs e _ := by
    by_cases he : e = entry
    · exact .inr (he ▸ hfree)
    · exact .inl (Function.update_of_ne he _ _)
  printed _ hc := hc
  main _ hc := hc
  free _ _ h := h

theorem frame_setProc {pid : ℕ} {who : Option String} (p : Option Process)
    (hpid : ∀ e, some e ≠ who → s.procs pid ≠ some (.mount e)) :
    Frame s (s.setProc pid p) who where
  mounts _ _ := rfl
  procs e he pid' hpid' := by
    by_cases heq : pid' = pid
    · exact absurd (heq ▸ hpid') (hpid e he)
    · exact (Function.update_of_ne heq _ _).trans hpid'
  dirs _ _ := .inl rfl
  printed _ hc := hc
  main _ hc := hc
  free _ _ h := h

theorem frame_record {printed main : List Writes} (who : Option String)
    (hprinted : ∀ changes ∈ s.printed, changes ∈ printed) (hmain : ∀ changes ∈ s.main, changes ∈ main) :
    Frame s { s with printed := printed, main := main } who where
  mounts _ _ := rfl
  procs _ _ _ hpid := hpid
  dirs _ _ := .inl rfl
  printed := hprinted
  main := hmain
  free _ _ h := h

/-! ### The invariant -/

theorem Recorded.frame {who : Option String} (h : Frame s s' who) {written : Writes}
    (hrec : Recorded s written) : Recorded s' written := by
  rcases hrec with hnil | ⟨changes, hmem, hin⟩
  · exact .inl hnil
  · refine .inr ⟨changes, ?_, hin⟩
    rcases List.mem_append.mp hmem with hmem | hmem
    · exact List.mem_append_left _ (h.printed changes hmem)
    · exact List.mem_append_right _ (h.main changes hmem)

theorem Recorded.sub {written changes : Writes} (h : Recorded s changes)
    (hin : Contained written changes) : Recorded s written := by
  rcases h with rfl | ⟨all, hmem, hall⟩
  · exact .inl (List.eq_nil_iff_forall_not_mem.mpr fun w hw => by cases hin w hw)
  · exact .inr ⟨all, hmem, fun w hw => hall w (hin w hw)⟩

/-- The pid of the mount is its own. -/
def Owned (s : State) (name : String) (m : Mount) : Prop := s.procs m.pid = some (.mount name)

/-- Its directory has its session and its writes. -/
def Keeps (s : State) (name : String) (m : Mount) : Prop :=
  s.dirs name = some ⟨some m.pid, m.written⟩

/-- What holds of a mount in each of its phases. -/
def MountInv (s : State) (name : String) (m : Mount) : Prop :=
  match m.phase with
  | .pruning stale =>
      Owned s name m ∧ m.written = [] ∧ s.dirs name = none ∧ ∀ x ∈ stale, FreeEntry s x
  | .opened => Owned s name m ∧ m.written = [] ∧ s.dirs name = some ⟨none, []⟩
  | .ready => Owned s name m ∧ m.written = [] ∧ Keeps s name m
  | .serving | .flushing _ _ | .landing _ | .kept => Owned s name m ∧ Keeps s name m
  | .cleaning taken => Owned s name m ∧ Keeps s name m ∧ Recorded s taken
  | .removed taken => Owned s name m ∧ Recorded s taken
  | .exited true => Keeps s name m
  | .exited false => Recorded s m.written
  | .crashed => True

structure Inv (s : State) : Prop where
  mounts : ∀ name m, s.mounts name = some m → MountInv s name m
  known : ∀ name dir, s.dirs name = some dir → ∃ m, s.mounts name = some m

theorem MountInv.frame {who : Option String} (h : Frame s s' who) (hname : some name ≠ who)
    (hm : s.mounts name = some m) (hinv : MountInv s name m) : MountInv s' name m := by
  have howned : Owned s name m → Owned s' name m := h.procs name hname m.pid
  have hdir : m.phase.free = false → s'.dirs name = s.dirs name := by
    intro hphase
    rcases h.dirs name hname with heq | ⟨m', hm', hfree⟩
    · exact heq
    · rw [hm] at hm'
      cases hm'
      rw [hphase] at hfree
      cases hfree
  unfold MountInv at hinv ⊢
  unfold Keeps at hinv ⊢
  cases hphase : m.phase with
  | pruning stale =>
      rw [hphase] at hinv hdir
      obtain ⟨hown, hnil, hnone, hfree⟩ := hinv
      exact ⟨howned hown, hnil, (hdir rfl).trans hnone, fun x hx => h.freeEntry (hfree x hx)⟩
  | opened | ready =>
      rw [hphase] at hinv hdir
      exact ⟨howned hinv.1, hinv.2.1, (hdir rfl).trans hinv.2.2⟩
  | serving | flushing | landing | kept =>
      rw [hphase] at hinv hdir
      exact ⟨howned hinv.1, (hdir rfl).trans hinv.2⟩
  | cleaning taken =>
      rw [hphase] at hinv hdir
      exact ⟨howned hinv.1, (hdir rfl).trans hinv.2.1, hinv.2.2.frame h⟩
  | removed taken =>
      rw [hphase] at hinv
      exact ⟨howned hinv.1, hinv.2.frame h⟩
  | exited dirKept =>
      rw [hphase] at hinv hdir
      cases dirKept with
      | true => exact (hdir rfl).trans hinv
      | false => exact hinv.frame h
  | crashed => trivial

/-- A step keeps the invariant when it keeps it of its own mount. -/
theorem Inv.frame {who : Option String} (hinv : Inv s) (h : Frame s s' who)
    (hwho : ∀ name, some name = who → ∃ m', s'.mounts name = some m' ∧ MountInv s' name m') :
    Inv s' where
  mounts name m hm := by
    by_cases hname : some name = who
    · obtain ⟨m', hm', hown⟩ := hwho name hname
      rw [hm] at hm'
      cases hm'
      exact hown
    · rw [h.mounts name hname] at hm
      exact (hinv.mounts name m hm).frame h hname hm
  known name dir hdir := by
    by_cases hname : some name = who
    · obtain ⟨m', hm', -⟩ := hwho name hname
      exact ⟨m', hm'⟩
    · rw [h.mounts name hname]
      rcases h.dirs name hname with heq | ⟨m, hm, -⟩
      · exact hinv.known name dir (heq ▸ hdir)
      · exact ⟨m, hm⟩

theorem MountInv.owned (h : MountInv s name m) (hrun : m.phase.running = true) : Owned s name m := by
  unfold MountInv at h
  cases hphase : m.phase with
  | exited | crashed =>
      rw [hphase] at hrun
      cases hrun
  | pruning | opened | ready | serving | flushing | landing | cleaning | removed | kept =>
      rw [hphase] at h
      exact h.1

theorem inv_setMount (hinv : Inv s) (hm : s.mounts name = some m)
    (hfree : m.phase.free = true → m'.phase.free = true)
    (hown : MountInv (s.setMount name m') name m') : Inv (s.setMount name m') :=
  hinv.frame (frame_setMount hm hfree) fun e he => by
    cases he
    exact ⟨m', by simp, hown⟩

/-- The end of a mount's process. -/
theorem inv_finish {phase : Phase} (hinv : Inv s) (hm : s.mounts name = some m)
    (hrun : m.phase.running = true) (hend : phase.running = false)
    (hfree : m.phase.free = true → phase.free = true)
    (hrecorded : phase = .exited false → Recorded s m.written)
    (hkept : phase = .exited true → Keeps s name m) : Inv (s.finish name m phase) := by
  have howned := (hinv.mounts name m hm).owned hrun
  refine hinv.frame ((frame_setMount hm hfree).trans (frame_setProc none fun e he hpid => ?_))
    fun e he => ?_
  · rw [State.setMount_procs, howned] at hpid
    cases hpid
    exact he rfl
  · cases he
    refine ⟨{ m with phase := phase }, by simp [State.finish, State.setPhase], ?_⟩
    cases phase with
    | exited dirKept =>
        cases dirKept with
        | true => exact hkept rfl
        | false => exact hrecorded rfl
    | crashed => trivial
    | pruning | opened | ready | serving | flushing | landing | cleaning | removed | kept =>
        cases hend

/-- A pruner's verdict of stale is about a mount that is done with its directory. -/
theorem stale_free {entry : String} {dir : MountDir} (hinv : Inv s)
    (hcareful : ∀ p, s.mounts entry = some p → p.phase ≠ .opened ∧
      (p.phase = .exited true → s.pidAlive p.pid = true))
    (hdir : s.dirs entry = some dir) (hstale : s.isStale dir = true) : FreeEntry s entry := by
  obtain ⟨p, hp⟩ := hinv.known entry dir hdir
  obtain ⟨hopened, hkept⟩ := hcareful p hp
  have hmount := hinv.mounts entry p hp
  refine ⟨p, hp, ?_⟩
  -- a directory with a session whose process is there is not stale
  have halive : Keeps s entry p → s.pidAlive p.pid = true → False := by
    intro hkeeps hpid
    rw [Keeps, hdir] at hkeeps
    cases hkeeps
    have hlive : (!s.pidAlive p.pid) = true := hstale
    rw [hpid] at hlive
    cases hlive
  have howned : Owned s entry p → s.pidAlive p.pid = true := fun h => by
    rw [State.pidAlive, h]
    rfl
  unfold MountInv at hmount
  cases hphase : p.phase with
  | removed | crashed => rfl
  | opened => exact absurd hphase hopened
  | pruning stale =>
      rw [hphase] at hmount
      rw [hmount.2.2.1] at hdir
      cases hdir
  | ready =>
      rw [hphase] at hmount
      exact absurd (howned hmount.1) fun h => halive hmount.2.2 h
  | serving | flushing | landing | kept =>
      rw [hphase] at hmount
      exact absurd (howned hmount.1) fun h => halive hmount.2 h
  | cleaning =>
      rw [hphase] at hmount
      exact absurd (howned hmount.1) fun h => halive hmount.2.1 h
  | exited dirKept =>
      cases dirKept with
      | false => rfl
      | true =>
          rw [hphase] at hmount
          exact absurd (hkept hphase) fun h => halive hmount h

theorem judge_inv {entry : String} {dir : MountDir} {stale : Option String} (hinv : Inv s)
    (hm : s.mounts name = some m) (hphase : m.phase = .pruning stale)
    (hcareful : ∀ p, s.mounts entry = some p → p.phase ≠ .opened ∧
      (p.phase = .exited true → s.pidAlive p.pid = true))
    (hdir : s.dirs entry = some dir) :
    Inv (s.setPhase name m (.pruning (if s.isStale dir then some entry else none))) := by
  have hown := hinv.mounts name m hm
  unfold MountInv at hown
  rw [hphase] at hown
  have hfree : m.phase.free = true → Phase.free
      (.pruning (if s.isStale dir = true then some entry else none)) = true := by
    rw [hphase]
    exact fun h => h
  refine inv_setMount hinv hm hfree ⟨hown.1, hown.2.1, hown.2.2.1, fun x hx => ?_⟩
  split_ifs at hx with hstale
  · cases hx
    exact (frame_setMount hm hfree).freeEntry (stale_free hinv hcareful hdir hstale)
  · cases hx

theorem prune_inv {entry : String} {left : Option MountDir} (hinv : Inv s)
    (hm : s.mounts name = some m) (hphase : m.phase = .pruning (some entry)) :
    Inv ((s.removeDir entry left).setPhase name m (.pruning none)) := by
  have hown := hinv.mounts name m hm
  unfold MountInv at hown
  rw [hphase] at hown
  obtain ⟨howned, hnil, hnone, hstale⟩ := hown
  have hentry := hstale entry rfl
  have hne : name ≠ entry := by
    rintro rfl
    obtain ⟨p, hp, hpfree⟩ := hentry
    rw [hm] at hp
    cases hp
    rw [hphase] at hpfree
    cases hpfree
  refine hinv.frame ((frame_setDir_free hentry _ _).trans
    (frame_setMount hm fun h => by rw [hphase] at h; cases h)) fun e he => ?_
  cases he
  refine ⟨{ m with phase := .pruning none }, by simp [State.setPhase], howned, hnil, ?_, ?_⟩
  · show Function.update s.dirs entry _ name = none
    rw [Function.update_of_ne hne]
    exact hnone
  · intro x hx
    cases hx

/-- A mount writes its own directory and moves on. -/
theorem inv_setDir {dir : Option MountDir} (hinv : Inv s) (hm : s.mounts name = some m)
    (hfree : m.phase.free = true → m'.phase.free = true)
    (hown : MountInv ((s.setDir name dir).setMount name m') name m') :
    Inv ((s.setDir name dir).setMount name m') :=
  hinv.frame ((frame_setDir dir).trans (frame_setMount hm hfree)) fun e he => by
    cases he
    exact ⟨m', by simp, hown⟩

theorem write_inv {path : String} {bytes : Bytes} (hinv : Inv s) (hm : s.mounts name = some m)
    (htakes : m.phase.takesWrites = true) :
    Inv ((s.setDir name (some (shadowWrite (s.dirs name) path bytes))).setMount name
      { m with written := put m.written path bytes }) := by
  refine inv_setDir hinv hm (fun h => h) ?_
  have hown := hinv.mounts name m hm
  have hkeeps : Keeps s name m → Keeps
      ((s.setDir name (some (shadowWrite (s.dirs name) path bytes))).setMount name
        { m with written := put m.written path bytes }) name
      { m with written := put m.written path bytes } := by
    intro h
    rw [Keeps] at h
    simp [Keeps, h, shadowWrite]
  unfold MountInv at hown ⊢
  cases hphase : m.phase with
  | serving | flushing | landing | kept =>
      rw [hphase] at hown
      exact ⟨hown.1, hkeeps hown.2⟩
  | cleaning =>
      rw [hphase] at hown
      exact ⟨hown.1, hkeeps hown.2.1, hown.2.2⟩
  | removed =>
      rw [hphase] at hown
      exact hown
  | pruning | opened | ready | exited | crashed =>
      rw [hphase] at htakes
      cases htakes

/-- A phase that keeps the directory as it is. -/
theorem keeping_inv {phase : Phase} (hinv : Inv s) (hm : s.mounts name = some m)
    (hfree : m.phase.free = false) (howned : Owned s name m) (hkeeps : Keeps s name m)
    (hphase : phase = .serving ∨ (∃ left taken, phase = .flushing left taken) ∨
      (∃ taken, phase = .landing taken) ∨ phase = .kept ∨
        ∃ taken, phase = .cleaning taken ∧ Recorded s taken) :
    Inv (s.setPhase name m phase) := by
  refine inv_setMount hinv hm (fun h => by rw [hfree] at h; cases h) ?_
  rcases hphase with rfl | ⟨left, taken, rfl⟩ | ⟨taken, rfl⟩ | rfl | ⟨taken, rfl, hrec⟩
  · exact ⟨howned, hkeeps⟩
  · exact ⟨howned, hkeeps⟩
  · exact ⟨howned, hkeeps⟩
  · exact ⟨howned, hkeeps⟩
  · exact ⟨howned, hkeeps, hrec⟩

/-- A start that fails takes its directory with it. -/
theorem abandon_inv (hinv : Inv s) (hm : s.mounts name = some m) (howned : Owned s name m)
    (hnil : m.written = []) (left : Option MountDir) :
    Inv ((s.removeDir name left).finish name m (.exited false)) := by
  have hdir := @frame_setDir s name ((s.dirs name).bind fun _ => left)
  refine hinv.frame ((hdir.trans (frame_setMount hm fun _ => rfl)).trans
    (frame_setProc none fun e he hpid => ?_)) fun e he => ?_
  · rw [State.setMount_procs, State.setDir_procs, howned] at hpid
    cases hpid
    exact he rfl
  · cases he
    exact ⟨{ m with phase := .exited false }, by simp [State.finish, State.setPhase], .inl hnil⟩

/-- One step of a mount. -/
theorem mountStep_inv {e : Event} (hinv : Inv s) (hm : s.mounts name = some m)
    (hname : e.name? = some name) (hcareful : Careful s e) (h : mountStep s name m e = some s') :
    Inv s' := by
  have hown := hinv.mounts name m hm
  unfold mountStep at h
  cases e with
  | spawn | quit | start | settle => cases hname
  | judge n entry =>
      dsimp only at h
      split at h
      next stale dir hphase hdir =>
        cases h
        exact judge_inv hinv hm hphase hcareful hdir
      next => cases h
  | prune n left =>
      dsimp only at h
      split at h
      next entry hphase =>
        cases h
        exact prune_inv hinv hm hphase
      next => cases h
  | create n =>
      dsimp only at h
      split at h
      next stale hphase =>
        cases h
        unfold MountInv at hown
        rw [hphase] at hown
        exact inv_setDir hinv hm (fun h => by rw [hphase] at h; cases h)
          ⟨hown.1, hown.2.1, by simp⟩
      next => cases h
  | session n =>
      dsimp only at h
      split at h
      next hphase =>
        cases h
        unfold MountInv at hown
        rw [hphase] at hown
        refine inv_setDir hinv hm (fun h => by rw [hphase] at h; cases h) ⟨hown.1, hown.2.1, ?_⟩
        simp [Keeps, hown.2.1]
      next => cases h
  | setupFails n left =>
      dsimp only at h
      unfold MountInv at hown
      split at h
      next stale hphase =>
        cases h
        rw [hphase] at hown
        exact inv_finish hinv hm (by rw [hphase]; rfl) rfl (fun _ => rfl) (fun _ => .inl hown.2.1)
          fun h => by cases h
      next hphase =>
        cases h
        rw [hphase] at hown
        exact abandon_inv hinv hm hown.1 hown.2.1 left
      next hphase =>
        cases h
        rw [hphase] at hown
        exact abandon_inv hinv hm hown.1 hown.2.1 left
      next => cases h
  | serve n =>
      dsimp only at h
      split at h
      next hphase =>
        cases h
        unfold MountInv at hown
        rw [hphase] at hown
        exact keeping_inv hinv hm (by rw [hphase]; rfl) hown.1 hown.2.2 (.inl rfl)
      next => cases h
  | write n path bytes =>
      dsimp only at h
      split_ifs at h with htakes
      cases h
      rw [Bool.and_eq_true] at htakes
      exact write_inv hinv hm htakes.2
  | stop n =>
      dsimp only at h
      split at h
      next hphase =>
        cases h
        unfold MountInv at hown
        rw [hphase] at hown
        refine keeping_inv hinv hm (by rw [hphase]; rfl) hown.1 hown.2 ?_
        split_ifs
        · exact .inr (.inr (.inr (.inr ⟨[], rfl, .inl rfl⟩)))
        · exact .inr (.inl ⟨_, _, rfl⟩)
      next => cases h
  | read n =>
      dsimp only at h
      split at h
      next path left taken hphase =>
        unfold MountInv at hown
        rw [hphase] at hown
        split at h
        next bytes _ =>
          cases h
          exact keeping_inv hinv hm (by rw [hphase]; rfl) hown.1 hown.2 (.inr (.inl ⟨_, _, rfl⟩))
        next =>
          cases h
          exact keeping_inv hinv hm (by rw [hphase]; rfl) hown.1 hown.2
            (.inr (.inr (.inr (.inl rfl))))
      next => cases h
  | stage n =>
      dsimp only at h
      split at h
      next taken hphase =>
        unfold MountInv at hown
        rw [hphase] at hown
        split_ifs at h
        · cases h
          exact keeping_inv hinv hm (by rw [hphase]; rfl) hown.1 hown.2
            (.inr (.inr (.inl ⟨_, rfl⟩)))
        · cases h
          -- the changeset is printed first, then the mount moves on
          have hprinted : Frame s { s with printed := taken :: s.printed } none :=
            frame_record none (fun changes hc => List.mem_cons_of_mem _ hc) fun changes hc => hc
          have hinv' : Inv { s with printed := taken :: s.printed } :=
            hinv.frame hprinted fun e he => by cases he
          exact keeping_inv hinv' hm (by rw [hphase]; rfl) hown.1 hown.2
            (.inr (.inr (.inr (.inr ⟨taken, rfl, .inr ⟨taken, by simp, fun w hw => hw⟩⟩))))
      next => cases h
  | flushFails n =>
      dsimp only at h
      split at h
      next left taken hphase =>
        cases h
        unfold MountInv at hown
        rw [hphase] at hown
        exact keeping_inv hinv hm (by rw [hphase]; rfl) hown.1 hown.2
          (.inr (.inr (.inr (.inl rfl))))
      next => cases h
  | landed n =>
      dsimp only at h
      split at h
      next taken hphase =>
        unfold MountInv at hown
        rw [hphase] at hown
        split_ifs at h with hmain
        cases h
        exact keeping_inv hinv hm (by rw [hphase]; rfl) hown.1 hown.2
          (.inr (.inr (.inr (.inr ⟨taken, rfl, .inr ⟨taken, List.mem_append_right _ hmain,
            fun w hw => hw⟩⟩))))
      next => cases h
  | landFails n =>
      cases hname
      dsimp only at h
      split at h
      next taken hphase =>
        cases h
        unfold MountInv at hown
        rw [hphase] at hown
        have hmain := hcareful m hm taken hphase
        exact keeping_inv hinv hm (by rw [hphase]; rfl) hown.1 hown.2
          (.inr (.inr (.inr (.inr ⟨taken, rfl, .inr ⟨taken, List.mem_append_right _ hmain,
            fun w hw => hw⟩⟩))))
      next => cases h
  | remove n left =>
      dsimp only at h
      split at h
      next taken hphase =>
        cases h
        unfold MountInv at hown
        rw [hphase] at hown
        exact inv_setDir hinv hm (fun h => by rw [hphase] at h; cases h) ⟨hown.1, hown.2.2⟩
      next => cases h
  | exit n =>
      cases hname
      dsimp only at h
      unfold MountInv at hown
      split at h
      next taken hphase =>
        cases h
        rw [hphase] at hown
        have hin := hcareful m hm taken hphase
        exact inv_finish hinv hm (by rw [hphase]; rfl) rfl (fun _ => rfl)
          (fun _ => hown.2.sub hin) fun h => by cases h
      next hphase =>
        cases h
        rw [hphase] at hown
        exact inv_finish hinv hm (by rw [hphase]; rfl) rfl (fun h => by rw [hphase] at h; cases h)
          (fun h => by cases h) fun _ => hown.2
      next => cases h
  | crash n =>
      dsimp only at h
      split_ifs at h with hrun
      cases h
      exact inv_finish hinv hm hrun rfl (fun _ => rfl) (fun h => by cases h) fun h => by cases h

theorem step_inv {e : Event} (hinv : Inv s) (hcareful : Careful s e) (h : step s e = some s') :
    Inv s' := by
  have hmount : ∀ e, Careful s e → (e.name?.bind fun name => (s.mounts name).bind fun m =>
      mountStep s name m e) = some s' → Inv s' := by
    intro e hcareful h
    obtain ⟨name, hname, h⟩ := Option.bind_eq_some_iff.mp h
    obtain ⟨m, hm, h⟩ := Option.bind_eq_some_iff.mp h
    exact mountStep_inv hinv hm hname hcareful h
  unfold step at h
  split at h
  next pid =>
    split_ifs at h with hpid
    cases h
    refine hinv.frame (@frame_setProc s pid none _ fun e _ he => hpid ?_) fun e he => by cases he
    rw [State.pidAlive, he]
    rfl
  next pid =>
    split_ifs at h with hpid
    cases h
    refine hinv.frame (@frame_setProc s pid none _ fun e _ he => ?_) fun e he => by cases he
    rw [hpid] at he
    cases he
  next name pid writable flushLand =>
    split_ifs at h with hfresh
    cases h
    simp only [Bool.or_eq_true, not_or, Option.not_isSome_iff_eq_none] at hfresh
    obtain ⟨⟨⟨hpid, hname⟩, hdir⟩, -⟩ := hfresh
    have hnew : Frame s (s.setMount name ⟨pid, writable, flushLand, .pruning none, []⟩) (some name) :=
      { frame_record (some name) (fun _ h => h) fun _ h => h with
        mounts := fun e he => Function.update_of_ne (fun h => he (congrArg some h)) _ _
        free := fun e he => by
          rintro ⟨p, hp, -⟩
          cases he
          rw [hname] at hp
          cases hp }
    refine hinv.frame (hnew.trans (frame_setProc _ fun e _ he => hpid ?_)) fun e he => ?_
    · rw [State.setMount_procs] at he
      rw [State.pidAlive, he]
      rfl
    · cases he
      refine ⟨⟨pid, writable, flushLand, .pruning none, []⟩, by simp, ?_, rfl, hdir, ?_⟩
      · simp [Owned]
      · intro x hx
        cases hx
  next changes =>
    cases h
    exact hinv.frame (frame_record none (fun _ h => h) fun _ h => List.mem_cons_of_mem _ h)
      fun e he => by cases he
  next => exact hmount e hcareful h

theorem inv_initial : Inv initial where
  mounts _ _ h := by cases h
  known _ _ h := by cases h

/-- The states of the runs whose steps all go well. -/
def Reachable : State → Prop := Lib.Reach (· = initial) step Careful

theorem inv_of_reachable (h : Reachable s) : Inv s :=
  Lib.Reach.invariant (fun _ hs => hs ▸ inv_initial) (fun _ _ _ _ hinv hok he => step_inv hinv hok he) h

theorem Keeps.held (h : Keeps s name m) : Held s name m := ⟨_, h, fun _ hw => hw⟩

/-- **Mount writes are not lost**: in every run whose steps all go well, the writes
of a mount that has exited gracefully are in a printed changeset, in `main` or in its
directory, and a running mount has its directory. -/
theorem writes_safe (h : Reachable s) : Safe s := by
  have hinv := inv_of_reachable h
  constructor
  · intro name m hm dirKept hphase
    have hmount := hinv.mounts name m hm
    unfold MountInv at hmount
    rw [hphase] at hmount
    cases dirKept with
    | true => exact .inr (Keeps.held hmount)
    | false => exact .inl hmount
  · intro name m hm hdir
    have hmount := hinv.mounts name m hm
    unfold MountInv at hmount
    cases hphase : m.phase with
    | opened =>
        rw [hphase] at hmount
        exact ⟨_, hmount.2.2, by rw [hmount.2.1]; exact fun w hw => by cases hw⟩
    | ready =>
        rw [hphase] at hmount
        exact hmount.2.2.held
    | serving | flushing | landing | kept =>
        rw [hphase] at hmount
        exact hmount.2.held
    | cleaning =>
        rw [hphase] at hmount
        exact hmount.2.1.held
    | pruning | removed | exited | crashed =>
        rw [hphase] at hdir
        cases hdir

end

/-! ### Runs -/

/-- A writable mount that serves and has buffered one file. -/
def oneWrite (flushLand : Bool) : List Event :=
  [.start "a" 1 true flushLand, .create "a", .session "a", .serve "a", .write "a" "f" [1]]

def flushed : List Event := [.stop "a", .read "a", .stage "a"]

/-- A mount that flushes and cleans up is in a state of the careful runs. -/
theorem writes_safe_flushed :
    ∃ s, Lib.exec step initial (oneWrite false ++ flushed ++ [.remove "a" none, .exit "a"]) = some s ∧
      Safe s := by
  have hbefore : ∀ s, ∀ e ∈ oneWrite false ++ flushed ++ [.remove "a" none], Careful s e := by
    intro s e he
    simp only [oneWrite, flushed, List.cons_append, List.nil_append, List.mem_cons,
      List.not_mem_nil, or_false] at he
    rcases he with rfl | rfl | rfl | rfl | rfl | rfl | rfl | rfl | rfl <;> trivial
  refine ⟨_, rfl, writes_safe (.next (e := .exit "a") (.exec (.start rfl) hbefore rfl) ?_ rfl)⟩
  intro m hm taken hphase
  cases hm
  cases hphase
  exact fun w hw => hw

/-- A directory kept for a failed flush goes with the next start; a land that fails
takes the directory with it; a start that meets a directory without a session
removes it under a mount that runs; and what is buffered behind the flush is gone. -/
theorem kept_writes_pruned :
    (∃ s, Lib.exec step initial (oneWrite false ++ [.stop "a", .flushFails "a", .exit "a",
        .start "b" 2 false false, .judge "b" "a", .prune "b" none]) = some s ∧ ¬ Safe s) ∧
    (∃ s, Lib.exec step initial (oneWrite true ++ flushed ++ [.landFails "a", .remove "a" none,
        .exit "a"]) = some s ∧ ¬ Safe s) ∧
    (∃ s, Lib.exec step initial [.start "b" 2 false false, .start "a" 1 true false, .create "a",
        .judge "b" "a", .prune "b" none] = some s ∧ ¬ Safe s) ∧
    ∃ s, Lib.exec step initial (oneWrite false ++ flushed ++ [.write "a" "g" [2],
        .remove "a" none, .exit "a"]) = some s ∧ ¬ Safe s := by
  refine ⟨⟨_, rfl, fun h => ?_⟩, ⟨_, rfl, fun h => ?_⟩, ⟨_, rfl, fun h => ?_⟩, ⟨_, rfl, fun h => ?_⟩⟩
  · rcases h.exited "a" _ rfl true rfl with (hnil | ⟨changes, hmem, -⟩) | ⟨dir, hdir, -⟩
    · cases hnil
    · cases hmem
    · cases hdir
  · rcases h.exited "a" _ rfl false rfl with (hnil | ⟨changes, hmem, -⟩) | ⟨dir, hdir, -⟩
    · cases hnil
    · cases hmem
    · cases hdir
  · obtain ⟨dir, hdir, -⟩ := h.running "a" _ rfl rfl
    cases hdir
  · rcases h.exited "a" _ rfl false rfl with (hnil | ⟨changes, hmem, hin⟩) | ⟨dir, hdir, -⟩
    · cases hnil
    · obtain rfl := List.mem_singleton.mp hmem
      exact absurd (hin ("g", [2]) List.mem_cons_self) (by decide)
    · cases hdir

end Naatre.Client.MountLife
