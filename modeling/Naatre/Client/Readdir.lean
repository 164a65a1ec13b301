import Naatre.Client.Vfs
import Naatre.Lib.GrowingPages
import Naatre.Lib.Interner
import Naatre.Lib.Oldest

/-!
Listings of a mount (`stat`, `lookup` and `readdir` of `naatre-cli/src/vfs.rs`)
and the two front ends that hand them out in pages (`verbs/mount.rs`,
`verbs/fuse.rs`).

A directory is listed as the pinned names in order and, behind them, the staged
names the pinned tree has not, in order. NFS resumes behind the file id it
returned last, FUSE behind as many entries as it returned, and other calls come
between two pages.

Paths are their components: the front ends only hold the root and what they
looked up by name below it. No character composes with a slash, so the normal
form of a path is that of its components. The statuses a `VfsError` is mapped to
are left out.
-/

namespace Naatre.Client

namespace Readdir

open Vfs

/-! ### The overlay's answers -/

structure EntryMeta where
  kind : EntryKind
  size : ℕ
  exec : Bool
  deriving DecidableEq

structure ListedEntry where
  name : String
  fileid : ℕ
  info : EntryMeta
  deriving DecidableEq

/-- `fileid_of`, `path_of` and `next_fileid`. -/
abbrev Fileids := Lib.Interner (List String)

/-- What a mount keeps under its lock. -/
structure Inner (Id : Type) where
  mount : Mount Id
  ids : Fileids

/-- A mount nothing was done on: the root has file id 1. -/
structure Inner.Fresh {Id : Type} (s : Inner Id) : Prop where
  dirs : s.mount.dirs = []
  staged : s.mount.staged = []
  ids : s.ids = .single []

/-- The metadata of a staged path. -/
def stagedMeta (size : ℕ) : EntryMeta := ⟨.file, size, false⟩

/-- `name_byte` order without repetition: the keys of a `BTreeMap`. -/
def sortNames (names : List String) : List String := names.dedup.insertionSort (· ≤ ·)

section

variable {Id : Type} [Platform Id]

def pinnedMeta (e : TreeEntry Id) : EntryMeta := ⟨e.kind, e.size, e.exec⟩

/-- `assign_fileid`, for one path after the other. -/
def assignAll (ids : Fileids) (paths : List (List String)) : Fileids :=
  paths.foldl (fun ids path => (ids.intern path).2) ids

/-- The directories a call has loaded, in order. -/
def newlyLoaded (before after : Dirs Id) : List (List String) :=
  ((after.take (after.length - before.length)).map fun d => d.1.reverse).reverse

/-- `ensure_dir_locked`: what is loaded gets a file id. -/
def ensureDirLocked (tree : Source Id) (s : Inner Id) (ds : List String) :
    Except (VfsError Id) (Listing Id) × Inner Id :=
  let loaded := ensureDir tree s.mount.pin ds.reverse s.mount.dirs
  (loaded.1,
    { mount := { s.mount with dirs := loaded.2 }
      ids := assignAll s.ids (newlyLoaded s.mount.dirs loaded.2) })

/-- `stat` -/
def stat (tree : Source Id) (s : Inner Id) (path : List String) :
    Except (VfsError Id) EntryMeta × Inner Id :=
  let path := path.map (Platform.nfc Id)
  match path.getLast? with
  | none => (.ok ⟨.dir, 0, false⟩, s)
  | some name =>
      match ensureDirLocked tree s path.dropLast with
      | (.error e, s) => (.error e, s)
      | (.ok entries, s) =>
          match s.mount.staged.lookup ⟨path.dropLast, name⟩ with
          | some (_, size) => (.ok (stagedMeta size), { s with ids := (s.ids.intern path).2 })
          | none =>
              match child entries name with
              | none => (.error (.notFound (Lib.joinSlash path)), s)
              | some e => (.ok (pinnedMeta e), { s with ids := (s.ids.intern path).2 })

/-- `lookup` -/
def lookup (tree : Source Id) (s : Inner Id) (dir : List String) (name : String) :
    Except (VfsError Id) ListedEntry × Inner Id :=
  let full := dir.map (Platform.nfc Id) ++ [Platform.nfc Id name]
  match validateComponent (Platform.nfc Id) (Platform.nfc Id name) with
  | .error e => (.error (.invalidPath (quoted (Platform.nfc Id name) ++ ": " ++ e.message)), s)
  | .ok () =>
      match stat tree s full with
      | (.error e, s) => (.error e, s)
      | (.ok info, s) =>
          match s.ids.idOf full with
          | none =>
              (.error (.localError ("internal: " ++ quoted (Lib.joinSlash full) ++ " has no fileid")), s)
          | some fileid => (.ok ⟨Platform.nfc Id name, fileid, info⟩, s)

/-- The pinned entries of a directory in name order; a staged write shadows the
pinned entry's stat. -/
def children (m : Mount Id) (ds : List String) (entries : Listing Id) : List (String × EntryMeta) :=
  (sortNames (entries.map TreeEntry.name)).filterMap fun name =>
    (child entries name).map fun e =>
      match m.staged.lookup ⟨ds, name⟩ with
      | some (_, size) => (name, stagedMeta size)
      | none => (name, pinnedMeta e)

/-- The staged files of a directory that are not `listed`, in path order. -/
def extras (m : Mount Id) (ds : List String) (listed : List String) : List (String × EntryMeta) :=
  ((m.staged.insertionSort fun a b => a.1.before b.1 = true).filter fun s =>
    decide (s.1.dirs = ds) && decide (s.1.leaf ∉ listed)).map fun s =>
      (s.1.leaf, stagedMeta s.2.2)

/-- File ids for entries of a directory, one after the other. -/
def number (ds : List String) : List (String × EntryMeta) → Fileids → List ListedEntry × Fileids
  | [], ids => ([], ids)
  | (name, info) :: rest, ids =>
      let assigned := ids.intern (ds ++ [name])
      let numbered := number ds rest assigned.2
      (⟨name, assigned.1, info⟩ :: numbered.1, numbered.2)

/-- `readdir` -/
def readdir (tree : Source Id) (s : Inner Id) (dir : List String) :
    Except (VfsError Id) (List ListedEntry) × Inner Id :=
  let ds := dir.map (Platform.nfc Id)
  match ensureDirLocked tree s ds with
  | (.error e, s) => (.error e, s)
  | (.ok entries, s) =>
      let out := number ds (children s.mount ds entries) s.ids
      let extra := number ds (extras s.mount ds (out.1.map ListedEntry.name)) out.2
      (.ok (out.1 ++ extra.1.insertionSort fun a b => a.name ≤ b.name), { s with ids := extra.2 })

/-! ### Calls -/

inductive Call (Id : Type)
  /-- any other call on the overlay, with the paths it gives file ids -/
  | overlay (e : MountEvent Id) (assigned : List (List String))
  | stat (tree : Source Id) (path : List String)
  | lookup (tree : Source Id) (dir : List String) (name : String)
  | readdir (tree : Source Id) (dir : List String)

/-- What a call leaves; a call that is not one changes nothing. -/
def Inner.call (s : Inner Id) : Call Id → Inner Id
  | .overlay e assigned =>
      match Vfs.step s.mount e with
      | some m => { mount := m, ids := assignAll s.ids assigned }
      | none => s
  | .stat tree path => (Readdir.stat tree s path).2
  | .lookup tree dir name => (Readdir.lookup tree s dir name).2
  | .readdir tree dir => (Readdir.readdir tree s dir).2

def Inner.after (s : Inner Id) (calls : List (Call Id)) : Inner Id := calls.foldl Inner.call s

/-- The states of a mount, whatever the server answers. -/
def Served (s : Inner Id) : Prop := ∃ s₀ : Inner Id, s₀.Fresh ∧ ∃ calls, s = s₀.after calls

/-! ### Pages -/

inductive PageError (Id : Type)
  | stale
  | failed (e : VfsError Id)

/-- `nfsserve::vfs::ReadDirResult` -/
structure ReadDirResult where
  entries : List ListedEntry
  ended : Bool

/-- The entries behind the one with this file id. -/
def skipTo (startAfter : ℕ) : List ListedEntry → List ListedEntry
  | [] => []
  | e :: es => if e.fileid = startAfter then es else skipTo startAfter es

/-- Entries up to the bound; an entry beyond it is not the end. -/
def fill : ℕ → List ListedEntry → ReadDirResult
  | _, [] => ⟨[], true⟩
  | 0, _ :: _ => ⟨[], false⟩
  | n + 1, e :: es => { fill n es with entries := e :: (fill n es).entries }

/-- `NfsAdapter::readdir` -/
def nfsReaddir (tree : Source Id) (s : Inner Id) (dirid startAfter maxEntries : ℕ) :
    Except (PageError Id) ReadDirResult × Inner Id :=
  match s.ids.keyOf dirid with
  | none => (.error .stale, s)
  | some dir =>
      match readdir tree s dir with
      | (.error e, s) => (.error (.failed e), s)
      | (.ok listed, s) =>
          (.ok (fill maxEntries (if startAfter = 0 then listed else skipTo startAfter listed)), s)

/-- `readdir` of `NaatreFuse`: each entry with the offset to resume at behind it;
the reply has room for so many. -/
def fuseReaddir (tree : Source Id) (s : Inner Id) (ino offset room : ℕ) :
    Except (PageError Id) (List (ListedEntry × ℕ)) × Inner Id :=
  match s.ids.keyOf ino with
  | none => (.error .stale, s)
  | some dir =>
      match readdir tree s dir with
      | (.error e, s) => (.error (.failed e), s)
      | (.ok listed, s) => (.ok (((listed.drop offset).zipIdx (offset + 1)).take room), s)

/-- One page of a listing: the server then, how many entries it may hold and the
calls that come before the next one. -/
structure PageCall (Id : Type) where
  tree : Source Id
  size : ℕ
  later : List (Call Id)

/-- The entries of the pages of a directory, and whether they came to their end:
each page resumes behind the last entry of those before it. -/
def nfsPages (dirid : ℕ) : ℕ → Inner Id → List (PageCall Id) →
    Except (PageError Id) (List ListedEntry × Bool)
  | _, _, [] => .ok ([], false)
  | startAfter, s, p :: ps =>
      match nfsReaddir p.tree s dirid startAfter p.size with
      | (.error e, _) => .error e
      | (.ok page, s) =>
          if page.ended then .ok (page.entries, true)
          else
            let last := (page.entries.getLast?.map ListedEntry.fileid).getD startAfter
            (nfsPages dirid last (s.after p.later) ps).map fun more =>
              (page.entries ++ more.1, more.2)

/-- The same through FUSE: a reply without entries is the end. -/
def fusePages (ino : ℕ) : ℕ → Inner Id → List (PageCall Id) →
    Except (PageError Id) (List ListedEntry × Bool)
  | _, _, [] => .ok ([], false)
  | offset, s, p :: ps =>
      match fuseReaddir p.tree s ino offset p.size with
      | (.error e, _) => .error e
      | (.ok page, s) =>
          if page.isEmpty then .ok ([], true)
          else
            let resume := (page.getLast?.map Prod.snd).getD offset
            (fusePages ino resume (s.after p.later) ps).map fun more =>
              (page.map Prod.fst ++ more.1, more.2)

/-! ### What a call keeps -/

/-- Every loaded directory stays as it is. -/
def Persists (dirs dirs' : Dirs Id) : Prop :=
  ∀ key entries, dirs.lookup key = some entries → dirs'.lookup key = some entries

/-- The paths with a shadow file. -/
def stagedPaths (m : Mount Id) : List Path := m.staged.map Prod.fst

/-- The listings, the file ids and the staged paths are only added to. -/
structure Grown (s s' : Inner Id) : Prop where
  ids : s.ids.Extends s'.ids
  dirs : Persists s.mount.dirs s'.mount.dirs
  staged : ∀ p ∈ stagedPaths s.mount, p ∈ stagedPaths s'.mount
  nodup : (stagedPaths s.mount).Nodup → (stagedPaths s'.mount).Nodup

omit [Platform Id] in
theorem Grown.refl (s : Inner Id) : Grown s s where
  ids := .refl s.ids
  dirs := fun _ _ h => h
  staged := fun _ h => h
  nodup := id

omit [Platform Id] in
theorem Grown.trans {s s' s'' : Inner Id} (h : Grown s s') (h' : Grown s' s'') : Grown s s'' where
  ids := h.ids.trans h'.ids
  dirs := fun key entries hkey => h'.dirs key entries (h.dirs key entries hkey)
  staged := fun p hp => h'.staged p (h.staged p hp)
  nodup := h'.nodup ∘ h.nodup

omit [Platform Id] in
theorem persists_cons {dirs dirs' : Dirs Id} (h : Persists dirs dirs') {key : List String}
    (hmiss : dirs.lookup key = none) (entries : Listing Id) :
    Persists dirs ((key, entries) :: dirs') := by
  intro key' entries' hkey'
  have hne : key' ≠ key := by
    rintro rfl
    rw [hmiss] at hkey'
    cases hkey'
  rw [List.lookup_cons, beq_false_of_ne hne]
  exact h key' entries' hkey'

omit [Platform Id] in
theorem ensureDir_persists (tree : Source Id) (pin : MountPin Id) (key : List String)
    (dirs : Dirs Id) : Persists dirs (ensureDir tree pin key dirs).2 := by
  induction key with
  | nil =>
      unfold ensureDir
      split
      next => exact fun _ _ h => h
      next hmiss =>
        split
        next => exact fun _ _ h => h
        next entries _ => exact persists_cons (fun _ _ h => h) hmiss entries
  | cons name parents ih =>
      unfold ensureDir
      split
      next => exact fun _ _ h => h
      next hmiss =>
        split
        next hparent =>
          rw [hparent] at ih
          exact ih
        next siblings dirs' hparent =>
          rw [hparent] at ih
          split
          next => exact ih
          next =>
            split
            next => exact ih
            next =>
              split
              next => exact ih
              next entries _ => exact persists_cons ih hmiss entries

omit [Platform Id] in
theorem ensureDir_cached (tree : Source Id) (pin : MountPin Id) {key : List String}
    {dirs : Dirs Id} {entries : Listing Id} (h : dirs.lookup key = some entries) :
    ensureDir tree pin key dirs = (.ok entries, dirs) := by
  cases key with
  | nil =>
      unfold ensureDir
      rw [h]
  | cons name parents =>
      unfold ensureDir
      rw [h]

omit [Platform Id] in
/-- A directory that is made sure of is loaded then. -/
theorem ensureDir_ok {tree : Source Id} {pin : MountPin Id} {key : List String}
    {dirs dirs' : Dirs Id} {entries : Listing Id}
    (h : ensureDir tree pin key dirs = (.ok entries, dirs')) : dirs'.lookup key = some entries := by
  cases key with
  | nil =>
      unfold ensureDir at h
      split at h
      next found hcached =>
        cases h
        exact hcached
      next =>
        split at h
        next => cases h
        next =>
          cases h
          rw [List.lookup_cons, beq_self_eq_true]
  | cons name parents =>
      unfold ensureDir at h
      split at h
      next found hcached =>
        cases h
        exact hcached
      next =>
        split at h
        next => cases h
        next =>
          split at h
          next => cases h
          next =>
            split at h
            next => cases h
            next =>
              split at h
              next => cases h
              next =>
                cases h
                rw [List.lookup_cons, beq_self_eq_true]

theorem assignAll_extends (ids : Fileids) (paths : List (List String)) :
    ids.Extends (assignAll ids paths) := by
  induction paths generalizing ids with
  | nil => exact .refl ids
  | cons path paths ih => exact (ids.extends_intern path).trans (ih (ids.intern path).2)

omit [Platform Id] in
theorem ensureDirLocked_grown (tree : Source Id) (s : Inner Id) (ds : List String) :
    Grown s (ensureDirLocked tree s ds).2 where
  ids := assignAll_extends s.ids _
  dirs := ensureDir_persists tree s.mount.pin ds.reverse s.mount.dirs
  staged := fun _ h => h
  nodup := id

omit [Platform Id] in
theorem ensureDirLocked_staged (tree : Source Id) (s : Inner Id) (ds : List String) :
    (ensureDirLocked tree s ds).2.mount.staged = s.mount.staged := rfl

omit [Platform Id] in
/-- A loaded directory costs nothing and does not depend on the server. -/
theorem ensureDirLocked_cached (tree : Source Id) {s : Inner Id} {ds : List String}
    {entries : Listing Id} (h : s.mount.dirs.lookup ds.reverse = some entries) :
    ensureDirLocked tree s ds = (.ok entries, s) := by
  unfold ensureDirLocked newlyLoaded
  rw [ensureDir_cached tree s.mount.pin h]
  dsimp only
  rw [Nat.sub_self, List.take_zero]
  rfl

omit [Platform Id] in
theorem ensureDirLocked_ok {tree : Source Id} {s s' : Inner Id} {ds : List String}
    {entries : Listing Id} (h : ensureDirLocked tree s ds = (.ok entries, s')) :
    s'.mount.dirs.lookup ds.reverse = some entries := by
  cases h' : ensureDir tree s.mount.pin ds.reverse s.mount.dirs with
  | mk loaded dirs =>
      unfold ensureDirLocked at h
      rw [h'] at h
      obtain ⟨rfl, rfl⟩ := Prod.mk.inj h
      exact ensureDir_ok h'

theorem number_extends (ds : List String) (entries : List (String × EntryMeta)) (ids : Fileids) :
    ids.Extends (number ds entries ids).2 := by
  induction entries generalizing ids with
  | nil => exact .refl ids
  | cons e entries ih => exact (ids.extends_intern _).trans (ih _)

omit [Platform Id] in
/-- File ids are assigned to the rest of what a call leaves. -/
theorem Grown.assign {s s' : Inner Id} (h : Grown s s') {ids : Fileids}
    (hids : s'.ids.Extends ids) : Grown s { s' with ids := ids } where
  ids := h.ids.trans hids
  dirs := h.dirs
  staged := h.staged
  nodup := h.nodup

theorem stat_grown (tree : Source Id) (s : Inner Id) (path : List String) :
    Grown s (stat tree s path).2 := by
  unfold stat
  dsimp only
  split
  next => exact .refl s
  next name _ =>
    have hensure := ensureDirLocked_grown tree s (path.map (Platform.nfc Id)).dropLast
    split
    next hfail =>
      rw [hfail] at hensure
      exact hensure
    next entries s' hload =>
      rw [hload] at hensure
      split
      next => exact hensure.assign (s'.ids.extends_intern _)
      next =>
        split
        next => exact hensure
        next => exact hensure.assign (s'.ids.extends_intern _)

theorem lookup_grown (tree : Source Id) (s : Inner Id) (dir : List String) (name : String) :
    Grown s (lookup tree s dir name).2 := by
  unfold lookup
  dsimp only
  split
  next => exact .refl s
  next =>
    have hstat := stat_grown tree s (dir.map (Platform.nfc Id) ++ [Platform.nfc Id name])
    split
    next hfail =>
      rw [hfail] at hstat
      exact hstat
    next info s' hinfo =>
      rw [hinfo] at hstat
      split
      next => exact hstat
      next => exact hstat

theorem readdir_grown (tree : Source Id) (s : Inner Id) (dir : List String) :
    Grown s (readdir tree s dir).2 := by
  have hensure := ensureDirLocked_grown tree s (dir.map (Platform.nfc Id))
  unfold readdir
  dsimp only
  split
  next hfail =>
    rw [hfail] at hensure
    exact hensure
  next entries s' hload =>
    rw [hload] at hensure
    exact hensure.assign ((number_extends _ _ _).trans (number_extends _ _ _))

omit [Platform Id] in
theorem stagedPaths_stage (m : Mount Id) (p : Path) (bytes : Bytes) :
    stagedPaths (stage m p bytes) =
      if p ∈ stagedPaths m then stagedPaths m else stagedPaths m ++ [p] := by
  unfold stagedPaths stage
  dsimp only
  split
  next file size hfound =>
    obtain ⟨front, back, heq, -⟩ := List.lookup_eq_some_iff.mp hfound
    rw [if_pos (heq ▸ List.mem_map_of_mem (List.mem_append_right front List.mem_cons_self)),
      List.map_map]
    refine List.map_congr_left fun s _ => ?_
    show (if s.1 = p then (p, file, bytes.length) else s).1 = s.1
    split
    next hp => exact hp.symm
    next => rfl
  next hfresh =>
    have hnot : p ∉ m.staged.map Prod.fst := by
      intro hmem
      obtain ⟨s, hs, heq⟩ := List.mem_map.mp hmem
      have hne := List.lookup_eq_none_iff.mp hfresh s hs
      rw [heq, bne_self_eq_false] at hne
      cases hne
    rw [if_neg hnot, List.map_append, List.map_singleton]

theorem createCheck_persists (tree : Source Id) (m : Mount Id) (dir name : String) :
    Persists m.dirs (createCheck tree m dir name).2 := by
  have hensure := ensureDir_persists tree m.pin (dirComponents dir).reverse m.dirs
  unfold createCheck
  split_ifs
  · exact fun _ _ h => h
  · exact fun _ _ h => h
  · exact fun _ _ h => h
  · split
    next => exact fun _ _ h => h
    next =>
      dsimp only
      split
      next => exact fun _ _ h => h
      next =>
        split
        next hfail =>
          rw [hfail] at hensure
          exact hensure
        next hload =>
          rw [hload] at hensure
          split
          next => exact hensure
          next => exact hensure
          next => exact hensure

omit [Platform Id] in
theorem statKind_persists (tree : Source Id) (m : Mount Id) (p : Path) :
    Persists m.dirs (statKind tree m p).2 := by
  have hensure := ensureDir_persists tree m.pin p.dirs.reverse m.dirs
  unfold statKind
  split
  next hfail =>
    rw [hfail] at hensure
    exact hensure
  next hload =>
    rw [hload] at hensure
    split
    next => exact hensure
    next =>
      split
      next => exact hensure
      next => exact hensure

theorem writeCheck_persists (tree : Source Id) (m : Mount Id) (path : String) :
    Persists m.dirs (writeCheck tree m path).2 := by
  have hstat := statKind_persists tree m (splitPath path)
  unfold writeCheck
  dsimp only
  split_ifs
  · exact fun _ _ h => h
  · exact fun _ _ h => h
  · split
    next => exact fun _ _ h => h
    next => exact fun _ _ h => h
  · split
    next => exact fun _ _ h => h
    next =>
      split
      next hload =>
        rw [hload] at hstat
        exact hstat
      next hload =>
        rw [hload] at hstat
        exact hstat
      next hload =>
        rw [hload] at hstat
        exact hstat

omit [Platform Id] in
theorem launch_grown {m : Mount Id} (bytes : Bytes) {checked : Except (VfsError Id) Path × Dirs Id}
    (h : Persists m.dirs checked.2) :
    Persists m.dirs (launch m bytes checked).dirs ∧ (launch m bytes checked).staged = m.staged := by
  obtain ⟨result, dirs⟩ := checked
  cases result with
  | error e => exact ⟨h, rfl⟩
  | ok p => exact ⟨h, rfl⟩

theorem step_grown {s : Inner Id} {m : Mount Id} {e : MountEvent Id}
    (h : Vfs.step s.mount e = some m) {ids : Fileids} (hids : s.ids.Extends ids) :
    Grown s ⟨m, ids⟩ := by
  have hsame : ∀ {m : Mount Id}, Persists s.mount.dirs m.dirs ∧ m.staged = s.mount.staged →
      Grown s ⟨m, ids⟩ := by
    rintro m ⟨hdirs, hstaged⟩
    have hpaths : stagedPaths m = stagedPaths s.mount := by rw [stagedPaths, hstaged, stagedPaths]
    exact ⟨hids, hdirs, fun p hp => hpaths ▸ hp, fun hnodup => hpaths ▸ hnodup⟩
  cases e with
  | browse tree dirs =>
      cases h
      exact hsame ⟨ensureDir_persists tree s.mount.pin dirs.reverse s.mount.dirs, rfl⟩
  | create tree dir name =>
      cases h
      exact hsame (launch_grown [] (createCheck_persists tree s.mount dir name))
  | write tree path bytes =>
      cases h
      exact hsame (launch_grown bytes (writeCheck_persists tree s.mount path))
  | stage i =>
      obtain ⟨⟨p, bytes⟩, -, rfl⟩ := Option.map_eq_some_iff.mp h
      have hpaths := stagedPaths_stage s.mount p bytes
      have hdirs : (stage s.mount p bytes).dirs = s.mount.dirs := by
        unfold stage
        dsimp only
        split <;> rfl
      refine ⟨hids, fun key entries hkey => ?_, fun q hq => ?_, fun hnodup => ?_⟩
      · exact hdirs ▸ hkey
      · show q ∈ stagedPaths (stage s.mount p bytes)
        rw [hpaths]
        split
        next => exact hq
        next => exact List.mem_append_left [p] hq
      · show (stagedPaths (stage s.mount p bytes)).Nodup
        rw [hpaths]
        split
        next => exact hnodup
        next hnot => exact List.nodup_append.mpr ⟨hnodup, List.nodup_singleton p, by
            rintro q hq _ hp rfl
            exact hnot (List.mem_singleton.mp hp ▸ hq)⟩

/-- One call. -/
theorem call_grown (s : Inner Id) (c : Call Id) : Grown s (s.call c) := by
  cases c with
  | overlay e assigned =>
      rw [Inner.call]
      split
      next m hstep => exact step_grown hstep (assignAll_extends s.ids assigned)
      next => exact .refl s
  | stat tree path => exact stat_grown tree s path
  | lookup tree dir name => exact lookup_grown tree s dir name
  | readdir tree dir => exact readdir_grown tree s dir

/-- Any calls. -/
theorem after_grown (s : Inner Id) (calls : List (Call Id)) : Grown s (s.after calls) := by
  induction calls generalizing s with
  | nil => exact .refl s
  | cons c calls ih => exact (call_grown s c).trans (ih (s.call c))

theorem Served.nodup {s : Inner Id} (h : Served s) : (stagedPaths s.mount).Nodup := by
  obtain ⟨s₀, hfresh, calls, rfl⟩ := h
  refine (after_grown s₀ calls).nodup ?_
  rw [stagedPaths, hfresh.staged]
  exact List.nodup_nil

/-! ### The entries of a directory -/

def pinnedNames (entries : Listing Id) : List String := sortNames (entries.map TreeEntry.name)

/-- The staged names a pinned directory has not. -/
def newNames (m : Mount Id) (ds : List String) (entries : Listing Id) : List String :=
  sortNames (((stagedPaths m).filter fun p =>
    decide (p.dirs = ds) && decide (p.leaf ∉ entries.map TreeEntry.name)).map Path.leaf)

def entryNames (m : Mount Id) (ds : List String) (entries : Listing Id) : List String :=
  pinnedNames entries ++ newNames m ds entries

/-- What is at a name: a staged file, else what is pinned. -/
def metaOf (m : Mount Id) (ds : List String) (entries : Listing Id) (name : String) :
    Option EntryMeta :=
  match m.staged.lookup ⟨ds, name⟩ with
  | some (_, size) => some (stagedMeta size)
  | none => (child entries name).map pinnedMeta

theorem mem_sortNames {l : List String} {name : String} : name ∈ sortNames l ↔ name ∈ l := by
  rw [sortNames, List.mem_insertionSort, List.mem_dedup]

theorem sortNames_nodup (l : List String) : (sortNames l).Nodup :=
  (List.perm_insertionSort _ _).nodup_iff.mpr (List.nodup_dedup l)

theorem sortNames_pairwise (l : List String) : (sortNames l).Pairwise (· < ·) := by
  have hle : (sortNames l).Pairwise (· ≤ ·) := List.pairwise_insertionSort _ _
  exact (hle.and (sortNames_nodup l)).imp fun h => lt_of_le_of_ne h.1 h.2

/-- Sorted names of more are more names, in order. -/
theorem sortNames_sublist {l l' : List String} (h : l ⊆ l') :
    (sortNames l).Sublist (sortNames l') := by
  refine List.sublist_of_subperm_of_pairwise (r := (· < ·)) ?_ (sortNames_pairwise l)
    (sortNames_pairwise l')
  exact (sortNames_nodup l).subperm fun name hname => mem_sortNames.mpr (h (mem_sortNames.mp hname))

omit [Platform Id] in
theorem mem_newNames {m : Mount Id} {ds : List String} {entries : Listing Id} {name : String} :
    name ∈ newNames m ds entries ↔
      ⟨ds, name⟩ ∈ stagedPaths m ∧ name ∉ entries.map TreeEntry.name := by
  rw [newNames, mem_sortNames, List.mem_map]
  constructor
  · rintro ⟨⟨dirs, leaf⟩, hp, rfl⟩
    obtain ⟨hmem, hkeep⟩ := List.mem_filter.mp hp
    rw [Bool.and_eq_true, decide_eq_true_eq, decide_eq_true_eq] at hkeep
    obtain ⟨rfl, hnot⟩ := hkeep
    exact ⟨hmem, hnot⟩
  · rintro ⟨hmem, hnot⟩
    refine ⟨⟨ds, name⟩, List.mem_filter.mpr ⟨hmem, ?_⟩, rfl⟩
    rw [decide_eq_true rfl, decide_eq_true hnot]
    rfl

omit [Platform Id] in
theorem entryNames_nodup (m : Mount Id) (ds : List String) (entries : Listing Id) :
    (entryNames m ds entries).Nodup := by
  refine List.nodup_append.mpr ⟨sortNames_nodup _, sortNames_nodup _, ?_⟩
  rintro name hpinned _ hnew rfl
  exact (mem_newNames.mp hnew).2 (mem_sortNames.mp hpinned)

omit [Platform Id] in
/-- The names are in order where the new ones come last. -/
theorem entryNames_pairwise {m : Mount Id} {ds : List String} {entries : Listing Id} :
    (entryNames m ds entries).Pairwise (· < ·) ↔
      ∀ a ∈ pinnedNames entries, ∀ b ∈ newNames m ds entries, a < b := by
  rw [entryNames, List.pairwise_append]
  exact ⟨fun h => h.2.2, fun h => ⟨sortNames_pairwise _, sortNames_pairwise _, h⟩⟩

omit [Platform Id] in
/-- Calls add names to a directory, among its own new ones. -/
theorem entryNames_sublist {s s' : Inner Id} (h : Grown s s') (ds : List String)
    (entries : Listing Id) :
    (entryNames s.mount ds entries).Sublist (entryNames s'.mount ds entries) := by
  refine (List.Sublist.refl _).append (sortNames_sublist fun name hname => ?_)
  obtain ⟨p, hp, rfl⟩ := List.mem_map.mp hname
  obtain ⟨hmem, hkeep⟩ := List.mem_filter.mp hp
  exact List.mem_map_of_mem (List.mem_filter.mpr ⟨h.staged p hmem, hkeep⟩)

omit [Platform Id] in
theorem child_isSome {entries : Listing Id} {name : String} :
    (child entries name).isSome ↔ name ∈ entries.map TreeEntry.name := by
  rw [child, List.find?_isSome, List.mem_map]
  exact exists_congr fun e => and_congr_right fun _ => decide_eq_true_iff

omit [Platform Id] in
theorem children_eq (m : Mount Id) (ds : List String) (entries : Listing Id) :
    children m ds entries = (pinnedNames entries).filterMap fun name =>
      if (child entries name).isSome then (metaOf m ds entries name).map (Prod.mk name) else none := by
  unfold children metaOf
  refine List.filterMap_congr fun name _ => ?_
  cases child entries name with
  | none => rfl
  | some e => cases m.staged.lookup ⟨ds, name⟩ <;> rfl

omit [Platform Id] in
theorem metaOf_isSome (m : Mount Id) (ds : List String) {entries : Listing Id} {name : String}
    (h : name ∈ entries.map TreeEntry.name) : (metaOf m ds entries name).isSome := by
  unfold metaOf
  split
  next => rfl
  next => rw [Option.isSome_map, child_isSome.mpr h]

omit [Platform Id] in
theorem children_names (m : Mount Id) (ds : List String) (entries : Listing Id) :
    (children m ds entries).map Prod.fst = pinnedNames entries := by
  rw [children_eq, List.map_filterMap]
  refine (List.filterMap_congr fun name hname => ?_).trans List.filterMap_some
  have hmem := mem_sortNames.mp hname
  rw [if_pos (child_isSome.mpr hmem)]
  obtain ⟨info, hinfo⟩ := Option.isSome_iff_exists.mp (metaOf_isSome m ds hmem)
  rw [hinfo]
  rfl

omit [Platform Id] in
theorem mem_children {m : Mount Id} {ds : List String} {entries : Listing Id} {name : String}
    {info : EntryMeta} : (name, info) ∈ children m ds entries ↔
      name ∈ entries.map TreeEntry.name ∧ metaOf m ds entries name = some info := by
  rw [children_eq, List.mem_filterMap]
  constructor
  · rintro ⟨name', hname', heq⟩
    split at heq
    next hchild =>
      obtain ⟨info', hinfo', hpair⟩ := Option.map_eq_some_iff.mp heq
      cases hpair
      exact ⟨child_isSome.mp hchild, hinfo'⟩
    next => cases heq
  · rintro ⟨hname, hinfo⟩
    refine ⟨name, mem_sortNames.mpr hname, ?_⟩
    rw [if_pos (child_isSome.mpr hname), hinfo]
    rfl

omit [Platform Id] in
theorem mem_extras {m : Mount Id} (hnodup : (stagedPaths m).Nodup) {ds listed : List String}
    {entries : Listing Id} (hlisted : ∀ name, name ∈ listed ↔ name ∈ entries.map TreeEntry.name)
    {name : String} {info : EntryMeta} : (name, info) ∈ extras m ds listed ↔
      name ∉ entries.map TreeEntry.name ∧ metaOf m ds entries name = some info := by
  rw [extras, List.mem_map]
  constructor
  · rintro ⟨⟨⟨dirs, leaf⟩, file, size⟩, hs, hpair⟩
    cases hpair
    obtain ⟨hmem, hkeep⟩ := List.mem_filter.mp hs
    rw [Bool.and_eq_true, decide_eq_true_eq, decide_eq_true_eq, hlisted] at hkeep
    obtain ⟨rfl, hnot⟩ := hkeep
    refine ⟨hnot, ?_⟩
    rw [metaOf, Lib.lookup_of_nodup hnodup ((List.mem_insertionSort _).mp hmem)]
  · rintro ⟨hnot, hinfo⟩
    unfold metaOf at hinfo
    split at hinfo
    next file size hfound =>
      obtain ⟨front, back, heq, -⟩ := List.lookup_eq_some_iff.mp hfound
      refine ⟨(⟨ds, name⟩, file, size), List.mem_filter.mpr ⟨(List.mem_insertionSort _).mpr ?_, ?_⟩, ?_⟩
      · rw [heq]
        exact List.mem_append_right front List.mem_cons_self
      · rw [Bool.and_eq_true, decide_eq_true_eq, decide_eq_true_eq, hlisted]
        exact ⟨rfl, hnot⟩
      · rw [Option.some.inj hinfo]
    next =>
      obtain ⟨e, he, -⟩ := Option.map_eq_some_iff.mp hinfo
      exact absurd (child_isSome.mp (he ▸ rfl)) hnot

omit [Platform Id] in
theorem extras_names {m : Mount Id} (hnodup : (stagedPaths m).Nodup) {ds listed : List String}
    {entries : Listing Id} (hlisted : ∀ name, name ∈ listed ↔ name ∈ entries.map TreeEntry.name) :
    ((extras m ds listed).map Prod.fst).insertionSort (· ≤ ·) = newNames m ds entries := by
  let keep : Path → Bool := fun p =>
    decide (p.dirs = ds) && decide (p.leaf ∉ entries.map TreeEntry.name)
  have hkept : ((stagedPaths m).filter keep).map Path.leaf = (((stagedPaths m).filter keep).map
      Path.leaf).dedup := by
    refine (List.Nodup.dedup ((hnodup.filter keep).map_on ?_)).symm
    rintro ⟨dirs, leaf⟩ hp ⟨dirs', leaf'⟩ hp' heq
    have hdirs := (List.mem_filter.mp hp).2
    have hdirs' := (List.mem_filter.mp hp').2
    rw [Bool.and_eq_true, decide_eq_true_eq] at hdirs hdirs'
    rw [show dirs = ds from hdirs.1, show dirs' = ds from hdirs'.1, show leaf = leaf' from heq]
  rw [newNames, sortNames, ← hkept]
  refine Lib.insertionSort_congr (· ≤ ·) ?_
  have hfilter : (stagedPaths m).filter keep =
      (m.staged.filter fun s => decide (s.1.dirs = ds) && decide (s.1.leaf ∉ listed)).map Prod.fst := by
    rw [stagedPaths, List.filter_map]
    refine congrArg _ (List.filter_congr fun s _ => ?_)
    show (decide (s.1.dirs = ds) && decide (s.1.leaf ∉ entries.map TreeEntry.name)) = _
    rw [Bool.eq_iff_iff, Bool.and_eq_true, Bool.and_eq_true, decide_eq_true_eq, decide_eq_true_eq,
      decide_eq_true_eq, hlisted]
  rw [hfilter, extras, List.map_map, List.map_map]
  exact ((List.perm_insertionSort _ m.staged).filter _).map _

theorem number_pairs (ds : List String) (entries : List (String × EntryMeta)) (ids : Fileids) :
    (number ds entries ids).1.map (fun e => (e.name, e.info)) = entries := by
  induction entries generalizing ids with
  | nil => rfl
  | cons e entries ih => exact congrArg (List.cons e) (ih _)

theorem number_names (ds : List String) (entries : List (String × EntryMeta)) (ids : Fileids) :
    (number ds entries ids).1.map ListedEntry.name = entries.map Prod.fst := by
  conv_rhs => rw [← number_pairs ds entries ids, List.map_map]
  rfl

theorem number_ids (ds : List String) (entries : List (String × EntryMeta)) (ids : Fileids) :
    ∀ e ∈ (number ds entries ids).1,
      (number ds entries ids).2.idOf (ds ++ [e.name]) = some e.fileid := by
  induction entries generalizing ids with
  | nil => exact fun e he => absurd he List.not_mem_nil
  | cons entry entries ih =>
      intro e he
      rcases List.mem_cons.mp he with rfl | he
      · exact number_extends ds entries _ _ _ (ids.idOf_intern (ds ++ [entry.1]))
      · exact ih _ e he

/-- What `readdir` lists: the entries of the directory, with what is at their
names and their file ids. -/
structure Lists (s : Inner Id) (ds : List String) (entries : Listing Id)
    (listed : List ListedEntry) : Prop where
  loaded : s.mount.dirs.lookup ds.reverse = some entries
  names : listed.map ListedEntry.name = entryNames s.mount ds entries
  info : ∀ name info, metaOf s.mount ds entries name = some info ↔
    ∃ e ∈ listed, e.name = name ∧ e.info = info
  ids : ∀ e ∈ listed, s.ids.idOf (ds ++ [e.name]) = some e.fileid

theorem readdir_lists {tree : Source Id} {s s' : Inner Id} (hnodup : (stagedPaths s.mount).Nodup)
    {dir : List String} {listed : List ListedEntry} (h : readdir tree s dir = (.ok listed, s')) :
    ∃ entries, Lists s' (dir.map (Platform.nfc Id)) entries listed := by
  unfold readdir at h
  dsimp only at h
  split at h
  next => cases h
  next entries s₁ hload =>
    obtain ⟨hok, rfl⟩ := Prod.mk.inj h
    obtain rfl := Except.ok.inj hok
    have hstaged : s₁.mount.staged = s.mount.staged := by
      rw [← ensureDirLocked_staged tree s (dir.map (Platform.nfc Id)), hload]
    have hnodup : (stagedPaths s₁.mount).Nodup := by
      rw [stagedPaths, hstaged]
      exact hnodup
    generalize hds : dir.map (Platform.nfc Id) = ds at *
    generalize hout : number ds (children s₁.mount ds entries) s₁.ids = out
    have hnames : out.1.map ListedEntry.name = pinnedNames entries := by
      rw [← hout, number_names, children_names]
    have hlisted : ∀ name, name ∈ out.1.map ListedEntry.name ↔ name ∈ entries.map TreeEntry.name := by
      intro name
      rw [hnames]
      exact mem_sortNames
    generalize hextra : number ds (extras s₁.mount ds (out.1.map ListedEntry.name)) out.2 = extra
    have hmemExtra : ∀ e, e ∈ (extra.1.insertionSort fun a b => a.name ≤ b.name) ↔ e ∈ extra.1 :=
      fun e => List.mem_insertionSort _
    have hpairs : ∀ name info, (∃ e ∈ out.1, e.name = name ∧ e.info = info) ↔
        (name, info) ∈ children s₁.mount ds entries := by
      intro name info
      rw [← number_pairs ds (children s₁.mount ds entries) s₁.ids, hout, List.mem_map]
      simp only [Prod.mk.injEq]
    have hpairsExtra : ∀ name info, (∃ e ∈ extra.1, e.name = name ∧ e.info = info) ↔
        (name, info) ∈ extras s₁.mount ds (out.1.map ListedEntry.name) := by
      intro name info
      rw [← number_pairs ds (extras s₁.mount ds (out.1.map ListedEntry.name)) out.2, hextra,
        List.mem_map]
      simp only [Prod.mk.injEq]
    have hloaded : s₁.mount.dirs.lookup ds.reverse = some entries := ensureDirLocked_ok hload
    refine ⟨entries, hloaded, ?_, fun name info => ?_, fun e he => ?_⟩
    · rw [List.map_append, hnames, entryNames, ← extras_names hnodup hlisted,
        List.map_insertionSort (r := fun a b : ListedEntry => a.name ≤ b.name) (s := (· ≤ ·))
          ListedEntry.name extra.1 fun _ _ _ _ => Iff.rfl, ← hextra, number_names]
    · have hsplit : (∃ e ∈ out.1 ++ extra.1.insertionSort fun a b => a.name ≤ b.name,
          e.name = name ∧ e.info = info) ↔ (∃ e ∈ out.1, e.name = name ∧ e.info = info) ∨
            ∃ e ∈ extra.1, e.name = name ∧ e.info = info := by
        simp only [List.mem_append, hmemExtra, or_and_right, exists_or]
      rw [hsplit, hpairs, hpairsExtra, mem_children, mem_extras hnodup hlisted, ← or_and_right,
        and_iff_right (em _)]
    · rcases List.mem_append.mp he with he | he
      · have hid := number_ids ds (children s₁.mount ds entries) s₁.ids e (hout ▸ he)
        rw [hout] at hid
        rw [← hextra]
        exact number_extends ds _ _ _ _ hid
      · have hid := number_ids ds (extras s₁.mount ds (out.1.map ListedEntry.name)) out.2 e
          (hextra ▸ (hmemExtra e).mp he)
        rw [hextra] at hid
        exact hid

/-! ### Pages of a growing directory -/

/-- The loaded listing of a directory. -/
def pinned (s : Inner Id) (ds : List String) : Listing Id := (s.mount.dirs.lookup ds.reverse).getD []

def namesIn (s : Inner Id) (ds : List String) : List String := entryNames s.mount ds (pinned s ds)

/-- The names of a directory as each page finds them. -/
def snapshots (dir : List String) : Inner Id → List (PageCall Id) → List (Lib.Round String)
  | _, [] => []
  | s, p :: ps =>
      let s := (readdir p.tree s dir).2
      ⟨namesIn s (dir.map (Platform.nfc Id)), p.size⟩ :: snapshots dir (s.after p.later) ps

/-- What the pages of a directory and the calls between them leave. -/
def afterPages (dir : List String) (s : Inner Id) (ps : List (PageCall Id)) : Inner Id :=
  ps.foldl (fun s p => (readdir p.tree s dir).2.after p.later) s

omit [Platform Id] in
theorem pinned_of_loaded {s : Inner Id} {ds : List String} {entries : Listing Id}
    (h : s.mount.dirs.lookup ds.reverse = some entries) : pinned s ds = entries := by
  rw [pinned, h]
  rfl

omit [Platform Id] in
theorem namesIn_sublist {s s' : Inner Id} (h : Grown s s') {ds : List String}
    {entries : Listing Id} (hload : s.mount.dirs.lookup ds.reverse = some entries) :
    (namesIn s ds).Sublist (namesIn s' ds) := by
  rw [namesIn, namesIn, pinned_of_loaded hload, pinned_of_loaded (h.dirs _ _ hload)]
  exact entryNames_sublist h ds entries

/-- A loaded directory is listed, whatever the server answers. -/
theorem readdir_of_loaded (tree : Source Id) {s : Inner Id} {dir : List String}
    {entries : Listing Id}
    (hload : s.mount.dirs.lookup (dir.map (Platform.nfc Id)).reverse = some entries) :
    ∃ listed, (readdir tree s dir).1 = .ok listed := by
  unfold readdir
  dsimp only
  rw [ensureDirLocked_cached tree hload]
  exact ⟨_, rfl⟩

theorem snapshots_growing (dir : List String) (s : Inner Id) (ps : List (PageCall Id))
    {entries : Listing Id}
    (hload : s.mount.dirs.lookup (dir.map (Platform.nfc Id)).reverse = some entries) :
    Lib.Growing (namesIn s (dir.map (Platform.nfc Id))) (snapshots dir s ps) := by
  induction ps generalizing s with
  | nil => exact .done
  | cons p ps ih =>
      have hlisted := readdir_grown p.tree s dir
      have hlater := after_grown (readdir p.tree s dir).2 p.later
      have hloaded := hlisted.dirs _ _ hload
      exact .round (namesIn_sublist hlisted hload) (entryNames_nodup _ _ _)
        ((ih _ (hlater.dirs _ _ hloaded)).of_sublist (namesIn_sublist hlater hloaded))

theorem lastEntries_sublist (dir : List String) (s : Inner Id) (ps : List (PageCall Id))
    {entries : Listing Id}
    (hload : s.mount.dirs.lookup (dir.map (Platform.nfc Id)).reverse = some entries)
    {l : List String} (hl : l.Sublist (namesIn s (dir.map (Platform.nfc Id)))) :
    (Lib.lastEntries l (snapshots dir s ps)).Sublist
      (namesIn (afterPages dir s ps) (dir.map (Platform.nfc Id))) := by
  induction ps generalizing s l with
  | nil => exact hl
  | cons p ps ih =>
      have hlater := after_grown (readdir p.tree s dir).2 p.later
      have hloaded := (readdir_grown p.tree s dir).dirs _ _ hload
      exact ih _ (hlater.dirs _ _ hloaded) (namesIn_sublist hlater hloaded)

theorem fill_entries (n : ℕ) (l : List ListedEntry) :
    (fill n l).entries = l.take n ∧ (fill n l).ended = decide (l.length ≤ n) := by
  induction n generalizing l with
  | zero =>
      cases l with
      | nil => exact ⟨rfl, rfl⟩
      | cons e es => exact ⟨rfl, rfl⟩
  | succ n ih =>
      cases l with
      | nil => exact ⟨rfl, rfl⟩
      | cons e es =>
          obtain ⟨hentries, hended⟩ := ih es
          refine ⟨congrArg (List.cons e) hentries, hended.trans ?_⟩
          rw [decide_eq_decide, List.length_cons, Nat.succ_le_succ_iff]

/-- Behind a file id is what is behind its name. -/
theorem skipTo_names {ids : Fileids} {ds : List String} {listed : List ListedEntry}
    (hids : ∀ e ∈ listed, ids.idOf (ds ++ [e.name]) = some e.fileid) {name : String} {fileid : ℕ}
    (hname : ids.idOf (ds ++ [name]) = some fileid) :
    (skipTo fileid listed).map ListedEntry.name = Lib.after name (listed.map ListedEntry.name) := by
  induction listed with
  | nil => rfl
  | cons e es ih =>
      have he := hids e List.mem_cons_self
      have hiff : e.fileid = fileid ↔ e.name = name := by
        constructor
        · intro heq
          have hkey := Lib.Interner.key_eq he (heq ▸ hname)
          exact List.singleton_inj.mp (List.append_cancel_left hkey)
        · intro heq
          rw [heq, hname] at he
          exact (Option.some.inj he).symm
      rw [skipTo, List.map_cons, Lib.after]
      by_cases heq : e.name = name
      · rw [if_pos (hiff.mpr heq), if_pos heq]
      · rw [if_neg (mt hiff.mp heq), if_neg heq]
        exact ih fun e' he' => hids e' (List.mem_cons_of_mem e he')

/-- The file id a listing resumes behind is that of the name it resumes
behind. -/
def Resumes (s : Inner Id) (ds : List String) (startAfter : ℕ) : Option String → Prop
  | none => startAfter = 0
  | some name => s.ids.idOf (ds ++ [name]) = some startAfter

omit [Platform Id] in
theorem Resumes.grown {s s' : Inner Id} (h : Grown s s') {ds : List String} {startAfter : ℕ}
    {cursor : Option String} (hcursor : Resumes s ds startAfter cursor) :
    Resumes s' ds startAfter cursor := by
  cases cursor with
  | none => exact hcursor
  | some name => exact h.ids _ _ hcursor

omit [Platform Id] in
/-- What a page is cut from. -/
theorem Resumes.names {s : Inner Id} {ds : List String} {entries : Listing Id}
    {listed : List ListedEntry} (h : Lists s ds entries listed) {startAfter : ℕ}
    {cursor : Option String} (hcursor : Resumes s ds startAfter cursor) :
    (if startAfter = 0 then listed else skipTo startAfter listed).map ListedEntry.name =
      Lib.behind cursor (namesIn s ds) := by
  rw [namesIn, pinned_of_loaded h.loaded, ← h.names]
  cases cursor with
  | none =>
      rw [if_pos (show startAfter = 0 from hcursor)]
      rfl
  | some name =>
      have hpos := Lib.Interner.idOf_pos hcursor
      rw [if_neg (by omega)]
      exact skipTo_names h.ids hcursor

omit [Platform Id] in
/-- The next page resumes behind the last entry of this one. -/
theorem Resumes.next {s : Inner Id} {ds : List String} {startAfter : ℕ} {cursor : Option String}
    (hcursor : Resumes s ds startAfter cursor) {page : List ListedEntry}
    (hids : ∀ e ∈ page, s.ids.idOf (ds ++ [e.name]) = some e.fileid) :
    Resumes s ds ((page.getLast?.map ListedEntry.fileid).getD startAfter)
      ((page.map ListedEntry.name).getLast?.or cursor) := by
  rw [List.getLast?_map]
  cases hlast : page.getLast? with
  | none => exact hcursor
  | some e => exact hids e (List.mem_of_getLast? hlast)

/-- The next page of a listing is answered. -/
def Answered (s : Inner Id) (dir : List String) (ps : List (PageCall Id)) : Prop :=
  ∀ p, ps.head? = some p → ∃ listed, (readdir p.tree s dir).1 = .ok listed

theorem Answered.later {s : Inner Id} {dir : List String} {entries : Listing Id}
    (hload : s.mount.dirs.lookup (dir.map (Platform.nfc Id)).reverse = some entries)
    (ps : List (PageCall Id)) : Answered s dir ps :=
  fun p _ => readdir_of_loaded p.tree hload

theorem skipTo_subset (startAfter : ℕ) (listed : List ListedEntry) :
    skipTo startAfter listed ⊆ listed := by
  induction listed with
  | nil => exact List.Subset.refl _
  | cons e es ih =>
      rw [skipTo]
      split
      next => exact List.subset_cons_self e es
      next => exact List.subset_cons_of_subset e ih

theorem nfsReaddir_ok {tree : Source Id} {s s₁ : Inner Id} {dir : List String} {dirid : ℕ}
    {listed : List ListedEntry} (hdir : s.ids.keyOf dirid = some dir)
    (hread : readdir tree s dir = (.ok listed, s₁)) (startAfter maxEntries : ℕ) :
    nfsReaddir tree s dirid startAfter maxEntries =
      (.ok (fill maxEntries (if startAfter = 0 then listed else skipTo startAfter listed)), s₁) := by
  simp only [nfsReaddir, hdir, hread]

theorem fuseReaddir_ok {tree : Source Id} {s s₁ : Inner Id} {dir : List String} {ino : ℕ}
    {listed : List ListedEntry} (hdir : s.ids.keyOf ino = some dir)
    (hread : readdir tree s dir = (.ok listed, s₁)) (offset room : ℕ) :
    fuseReaddir tree s ino offset room =
      (.ok (((listed.drop offset).zipIdx (offset + 1)).take room), s₁) := by
  simp only [fuseReaddir, hdir, hread]

/-- The pages of the NFS front end are those of the names, resumed behind a
name. -/
theorem nfsPages_names {dirid : ℕ} {dir : List String} {startAfter : ℕ} {s : Inner Id}
    (cursor : Option String) (hnodup : (stagedPaths s.mount).Nodup)
    (hdir : s.ids.idOf dir = some dirid)
    (hcursor : Resumes s (dir.map (Platform.nfc Id)) startAfter cursor)
    {ps : List (PageCall Id)} (hanswered : Answered s dir ps) :
    ∃ out, nfsPages dirid startAfter s ps =
        .ok (out, (Lib.pagesByEntry cursor (snapshots dir s ps)).2) ∧
      out.map ListedEntry.name = (Lib.pagesByEntry cursor (snapshots dir s ps)).1 := by
  induction ps generalizing s startAfter cursor with
  | nil => exact ⟨[], rfl, rfl⟩
  | cons p ps ih =>
      obtain ⟨listed, hok⟩ := hanswered p rfl
      obtain ⟨s₁, hread⟩ : ∃ s₁, readdir p.tree s dir = (.ok listed, s₁) :=
        ⟨_, Prod.ext hok rfl⟩
      obtain ⟨entries, hlists⟩ := readdir_lists hnodup hread
      have hgrown : Grown s s₁ := by
        have hgrown := readdir_grown p.tree s dir
        rwa [hread] at hgrown
      have hcursor₁ := hcursor.grown hgrown
      have hnames := hcursor₁.names hlists
      rw [nfsPages, nfsReaddir_ok (Lib.Interner.keyOf_of_idOf hdir) hread, snapshots, hread]
      generalize hrest : (if startAfter = 0 then listed else skipTo startAfter listed) = rest at *
      obtain ⟨hentries, hended⟩ := fill_entries p.size rest
      have hids : ∀ e ∈ rest.take p.size,
          s₁.ids.idOf (dir.map (Platform.nfc Id) ++ [e.name]) = some e.fileid := by
        intro e he
        refine hlists.ids e ?_
        have hmem := List.mem_of_mem_take he
        rw [← hrest] at hmem
        split at hmem
        next => exact hmem
        next => exact skipTo_subset _ _ hmem
      unfold Lib.pagesByEntry
      dsimp only
      rw [← hnames, List.length_map, ← List.map_take, hentries, hended]
      by_cases hlen : rest.length ≤ p.size
      · rw [if_pos hlen, if_pos (decide_eq_true hlen)]
        exact ⟨_, rfl, rfl⟩
      · rw [if_neg hlen, if_neg fun h => hlen (of_decide_eq_true h)]
        have hlater := after_grown s₁ p.later
        obtain ⟨out, hout, hnext⟩ := ih _ (hlater.nodup (hgrown.nodup hnodup))
          (hlater.ids _ _ (hgrown.ids _ _ hdir)) ((hcursor₁.next hids).grown hlater)
          (Answered.later (hlater.dirs _ _ hlists.loaded) ps)
        rw [hout]
        refine ⟨rest.take p.size ++ out, rfl, ?_⟩
        rw [List.map_append, hnext]

/-- The offset behind a page. -/
theorem getLast?_zipIdx_take {l : List ListedEntry} {offset n : ℕ}
    (h : ((l.zipIdx (offset + 1)).take n).isEmpty = false) :
    (((l.zipIdx (offset + 1)).take n).getLast?.map Prod.snd).getD offset =
      offset + (l.take n).length := by
  have hlength : ((l.zipIdx (offset + 1)).take n).length = (l.take n).length := by
    rw [List.length_take, List.length_take, List.length_zipIdx]
  have hpos : 0 < (l.take n).length := by
    rw [← hlength]
    exact List.length_pos_of_ne_nil (List.isEmpty_eq_false_iff.mp h)
  have hlt : (l.take n).length - 1 < l.length := by
    have hle := List.length_take_le' n l
    omega
  have hin : (l.take n).length - 1 < n := by
    have hle := List.length_take_le n l
    omega
  rw [List.getLast?_eq_getElem?, hlength, List.getElem?_take_of_lt hin, List.getElem?_zipIdx,
    List.getElem?_eq_getElem hlt]
  show offset + 1 + ((l.take n).length - 1) = _
  omega

/-- The pages of the FUSE front end are those of the names, resumed at an
index. -/
theorem fusePages_names {ino : ℕ} {dir : List String} (offset : ℕ) {s : Inner Id}
    (hnodup : (stagedPaths s.mount).Nodup) (hdir : s.ids.idOf dir = some ino)
    {ps : List (PageCall Id)} (hanswered : Answered s dir ps) :
    ∃ out, fusePages ino offset s ps =
        .ok (out, (Lib.pagesByIndex offset (snapshots dir s ps)).2) ∧
      out.map ListedEntry.name = (Lib.pagesByIndex offset (snapshots dir s ps)).1 := by
  induction ps generalizing s offset with
  | nil => exact ⟨[], rfl, rfl⟩
  | cons p ps ih =>
      obtain ⟨listed, hok⟩ := hanswered p rfl
      obtain ⟨s₁, hread⟩ : ∃ s₁, readdir p.tree s dir = (.ok listed, s₁) :=
        ⟨_, Prod.ext hok rfl⟩
      obtain ⟨entries, hlists⟩ := readdir_lists hnodup hread
      have hgrown : Grown s s₁ := by
        have hgrown := readdir_grown p.tree s dir
        rwa [hread] at hgrown
      have hnames : namesIn s₁ (dir.map (Platform.nfc Id)) = listed.map ListedEntry.name := by
        rw [namesIn, pinned_of_loaded hlists.loaded, hlists.names]
      rw [fusePages, fuseReaddir_ok (Lib.Interner.keyOf_of_idOf hdir) hread, snapshots, hread]
      unfold Lib.pagesByIndex
      dsimp only
      rw [hnames, ← List.map_drop, ← List.map_take, List.length_map]
      have hfirst : (((listed.drop offset).zipIdx (offset + 1)).take p.size).map Prod.fst =
          (listed.drop offset).take p.size := by
        rw [List.map_take, List.zipIdx_map_fst]
      cases hempty : (((listed.drop offset).zipIdx (offset + 1)).take p.size).isEmpty with
      | true =>
          have hnil : ((listed.drop offset).take p.size).map ListedEntry.name = [] := by
            rw [← hfirst, List.isEmpty_iff.mp hempty, List.map_nil, List.map_nil]
          rw [if_pos hnil, if_pos rfl]
          exact ⟨[], rfl, rfl⟩
      | false =>
          have hne : ((listed.drop offset).take p.size).map ListedEntry.name ≠ [] := by
            rw [← hfirst]
            intro hnil
            exact List.isEmpty_eq_false_iff.mp hempty
              (List.map_eq_nil_iff.mp (List.map_eq_nil_iff.mp hnil))
          rw [if_neg hne, if_neg Bool.false_ne_true, getLast?_zipIdx_take hempty, hfirst]
          have hlater := after_grown s₁ p.later
          obtain ⟨out, hout, hnext⟩ := ih (offset + ((listed.drop offset).take p.size).length)
            (hlater.nodup (hgrown.nodup hnodup)) (hlater.ids _ _ (hgrown.ids _ _ hdir))
            (Answered.later (hlater.dirs _ _ hlists.loaded) ps)
          rw [hout]
          refine ⟨(listed.drop offset).take p.size ++ out, rfl, ?_⟩
          rw [List.map_append, hnext]

/-! ### Listings -/

/-- The staged names of a directory that the pinned one has not sort behind all
it has. -/
def NewNamesLast (s : Inner Id) (ds : List String) : Prop :=
  ∀ p ∈ stagedPaths s.mount, p.dirs = ds → p.leaf ∉ (pinned s ds).map TreeEntry.name →
    ∀ e ∈ pinned s ds, e.name < p.leaf

omit [Platform Id] in
theorem Lists.pairwise_iff {s : Inner Id} {ds : List String} {entries : Listing Id}
    {listed : List ListedEntry} (h : Lists s ds entries listed) :
    (listed.map ListedEntry.name).Pairwise (· < ·) ↔ NewNamesLast s ds := by
  rw [h.names, entryNames_pairwise, NewNamesLast, pinned_of_loaded h.loaded]
  constructor
  · rintro hlt ⟨dirs, leaf⟩ hp rfl hnew e he
    exact hlt e.name (mem_sortNames.mpr (List.mem_map_of_mem he)) leaf (mem_newNames.mpr ⟨hp, hnew⟩)
  · intro hlast name hname leaf hleaf
    obtain ⟨e, he, rfl⟩ := List.mem_map.mp (mem_sortNames.mp hname)
    obtain ⟨hp, hnew⟩ := mem_newNames.mp hleaf
    exact hlast ⟨ds, leaf⟩ hp rfl hnew e he

/-- `stat` of a path of a loaded directory answers with what is at its name. -/
theorem Lists.stat_iff {s : Inner Id} {ds : List String} {entries : Listing Id}
    {listed : List ListedEntry} (h : Lists s ds entries listed) (tree : Source Id)
    {path : List String} {name : String} (hpath : path.map (Platform.nfc Id) = ds ++ [name])
    (info : EntryMeta) :
    (stat tree s path).1 = .ok info ↔ ∃ e ∈ listed, e.name = name ∧ e.info = info := by
  rw [← h.info, metaOf]
  unfold stat
  dsimp only
  rw [hpath, List.getLast?_concat, List.dropLast_concat]
  dsimp only
  rw [ensureDirLocked_cached tree h.loaded]
  dsimp only
  cases s.mount.staged.lookup ⟨ds, name⟩ with
  | some found =>
      dsimp only
      rw [Except.ok.injEq, Option.some.injEq]
  | none =>
      cases child entries name with
      | none => exact iff_of_false (fun h => by cases h) (fun h => by cases h)
      | some e =>
          dsimp only
          rw [Option.map_some, Except.ok.injEq, Option.some.injEq]

/-- A file id maps back to the path it was listed for, after any calls. -/
theorem Lists.path_of {s : Inner Id} {ds : List String} {entries : Listing Id}
    {listed : List ListedEntry} (h : Lists s ds entries listed) {e : ListedEntry} (he : e ∈ listed)
    (calls : List (Call Id)) : (s.after calls).ids.keyOf e.fileid = some (ds ++ [e.name]) :=
  Lib.Interner.keyOf_of_idOf ((after_grown s calls).ids _ _ (h.ids e he))

section

variable {s s₁ : Inner Id} {dir : List String} {p : PageCall Id} {listed : List ListedEntry}

theorem snapshots_first (hread : readdir p.tree s dir = (.ok listed, s₁)) {entries : Listing Id}
    (h : Lists s₁ (dir.map (Platform.nfc Id)) entries listed) (ps : List (PageCall Id)) :
    Lib.Growing (listed.map ListedEntry.name) (snapshots dir s (p :: ps)) := by
  have hnames : namesIn s₁ (dir.map (Platform.nfc Id)) = listed.map ListedEntry.name := by
    rw [namesIn, pinned_of_loaded h.loaded, h.names]
  have hlater := after_grown s₁ p.later
  rw [snapshots, hread, ← hnames]
  exact .round (List.Sublist.refl _) (entryNames_nodup _ _ _)
    ((snapshots_growing dir _ ps (hlater.dirs _ _ h.loaded)).of_sublist
      (namesIn_sublist hlater h.loaded))

theorem lastEntries_le (hread : readdir p.tree s dir = (.ok listed, s₁)) {entries : Listing Id}
    (h : Lists s₁ (dir.map (Platform.nfc Id)) entries listed) (ps : List (PageCall Id)) :
    (Lib.lastEntries (listed.map ListedEntry.name) (snapshots dir s (p :: ps))).length ≤
      (namesIn (afterPages dir s (p :: ps)) (dir.map (Platform.nfc Id))).length := by
  have hlater := after_grown s₁ p.later
  rw [snapshots, hread, Lib.lastEntries, afterPages, List.foldl_cons, hread]
  exact (lastEntries_sublist dir _ ps (hlater.dirs _ _ h.loaded)
    (namesIn_sublist hlater h.loaded)).length_le

theorem snapshots_sizes (dir : List String) (s : Inner Id) (ps : List (PageCall Id)) :
    (snapshots dir s ps).map Lib.Round.size = ps.map PageCall.size := by
  induction ps generalizing s with
  | nil => rfl
  | cons p ps ih => exact congrArg (List.cons p.size) (ih _)

/-- What the first page's listing has, the NFS pages return once when they end,
and they end when they hold as many entries as there are. -/
theorem nfsPages_once (hnodup : (stagedPaths s.mount).Nodup)
    (hread : readdir p.tree s dir = (.ok listed, s₁)) {dirid : ℕ}
    (hdir : s.ids.idOf dir = some dirid) (ps : List (PageCall Id)) :
    ∃ out ended, nfsPages dirid 0 s (p :: ps) = .ok (out, ended) ∧
      (ended = true → ∀ e ∈ listed, (out.map ListedEntry.name).count e.name = 1) ∧
      ((namesIn (afterPages dir s (p :: ps)) (dir.map (Platform.nfc Id))).length ≤
        ((p :: ps).map PageCall.size).sum → ended = true) := by
  obtain ⟨entries, hlists⟩ := readdir_lists hnodup hread
  have hgrowing := snapshots_first hread hlists ps
  have hanswered : Answered s dir (p :: ps) := by
    intro q hq
    obtain rfl := Option.some.inj hq
    exact ⟨listed, by rw [hread]⟩
  obtain ⟨out, hout, hnames⟩ := nfsPages_names none hnodup hdir rfl hanswered
  refine ⟨out, _, hout, fun hend e he => ?_, fun hsizes => ?_⟩
  · have hmem : e.name ∈ listed.map ListedEntry.name := List.mem_map_of_mem he
    have hcount := Lib.count_pagesByEntry hgrowing (fun _ h => by cases h) hmem hend
    have hfirst : (listed.map ListedEntry.name).Nodup := by
      rw [hlists.names]
      exact entryNames_nodup _ _ _
    rw [hnames, hcount]
    exact List.count_eq_one_of_mem hfirst hmem
  · by_contra hopen
    have hlt := Lib.sizes_lt_of_pagesByEntry hgrowing (fun _ h => by cases h)
      (List.cons_ne_nil _ _) (Bool.eq_false_iff.mpr hopen)
    have hle := lastEntries_le hread hlists ps
    rw [snapshots_sizes, Lib.behind] at hlt
    omega

/-- What the first page's listing has, the FUSE pages return when they end, and
once if and only if nothing pushes it back. -/
theorem fusePages_once (hnodup : (stagedPaths s.mount).Nodup)
    (hread : readdir p.tree s dir = (.ok listed, s₁)) {ino : ℕ}
    (hdir : s.ids.idOf dir = some ino) (ps : List (PageCall Id)) :
    ∃ out ended, fusePages ino 0 s (p :: ps) = .ok (out, ended) ∧
      (ended = true → (∀ q ∈ p :: ps, 1 ≤ q.size) → ∀ e ∈ listed,
        e.name ∈ out.map ListedEntry.name ∧ ((out.map ListedEntry.name).count e.name = 1 ↔
          Lib.Steady e.name 0 (listed.map ListedEntry.name) (snapshots dir s (p :: ps)))) ∧
      ((namesIn (afterPages dir s (p :: ps)) (dir.map (Platform.nfc Id))).length <
        (p :: ps).length → ended = true) := by
  obtain ⟨entries, hlists⟩ := readdir_lists hnodup hread
  have hgrowing := snapshots_first hread hlists ps
  have hanswered : Answered s dir (p :: ps) := by
    intro q hq
    obtain rfl := Option.some.inj hq
    exact ⟨listed, by rw [hread]⟩
  obtain ⟨out, hout, hnames⟩ := fusePages_names 0 hnodup hdir hanswered
  refine ⟨out, _, hout, fun hend hsizes e he => ?_, fun hlength => ?_⟩
  · have hmem : e.name ∈ listed.map ListedEntry.name := List.mem_map_of_mem he
    have hrooms : ∀ r ∈ snapshots dir s (p :: ps), 1 ≤ r.size := by
      intro r hr
      have hsize := List.mem_map_of_mem (f := Lib.Round.size) hr
      rw [snapshots_sizes] at hsize
      obtain ⟨q, hq, heq⟩ := List.mem_map.mp hsize
      exact heq ▸ hsizes q hq
    have hfirst : (listed.map ListedEntry.name).Nodup := by
      rw [hlists.names]
      exact entryNames_nodup _ _ _
    have hcount := Lib.count_pagesByIndex hgrowing hrooms hmem hend
    rw [List.drop_zero, List.count_eq_one_of_mem hfirst hmem] at hcount
    rw [← List.count_pos_iff, hnames, hcount, ← Lib.pushedBack_eq_zero]
    omega
  · by_contra hopen
    have hle := Lib.length_le_of_pagesByIndex hgrowing (List.cons_ne_nil _ _)
      (Bool.eq_false_iff.mpr hopen)
    have hlast := lastEntries_le hread hlists ps
    have hrounds := congrArg List.length (snapshots_sizes dir s (p :: ps))
    rw [List.length_map, List.length_map] at hrounds
    omega

end

/-- A listing has exactly the names whose `stat` succeeds, with what it answers,
and file ids that stay; it is in order exactly where the staged new names come
last. NFS pages return each of its entries once; FUSE pages do exactly where no
call between two pages puts a name before an entry that was returned. Both
end. -/
theorem readdir_consistent {s s₁ : Inner Id} (hs : Served s) {p : PageCall Id} {dir : List String}
    {listed : List ListedEntry} (hread : readdir p.tree s dir = (.ok listed, s₁)) :
    ((listed.map ListedEntry.name).Pairwise (· < ·) ↔
      NewNamesLast s₁ (dir.map (Platform.nfc Id))) ∧
    (∀ (tree : Source Id) (path : List String) (name : String),
      path.map (Platform.nfc Id) = dir.map (Platform.nfc Id) ++ [name] → ∀ info,
        (stat tree s₁ path).1 = .ok info ↔ ∃ e ∈ listed, e.name = name ∧ e.info = info) ∧
    (∀ e ∈ listed, ∀ calls : List (Call Id),
      (s₁.after calls).ids.keyOf e.fileid = some (dir.map (Platform.nfc Id) ++ [e.name])) ∧
    ∀ (dirid : ℕ) (ps : List (PageCall Id)), s.ids.keyOf dirid = some dir →
      (∃ out ended, nfsPages dirid 0 s (p :: ps) = .ok (out, ended) ∧
        (ended = true → ∀ e ∈ listed, (out.map ListedEntry.name).count e.name = 1) ∧
        ((namesIn (afterPages dir s (p :: ps)) (dir.map (Platform.nfc Id))).length ≤
          ((p :: ps).map PageCall.size).sum → ended = true)) ∧
      ∃ out ended, fusePages dirid 0 s (p :: ps) = .ok (out, ended) ∧
        (ended = true → (∀ q ∈ p :: ps, 1 ≤ q.size) → ∀ e ∈ listed,
          e.name ∈ out.map ListedEntry.name ∧ ((out.map ListedEntry.name).count e.name = 1 ↔
            Lib.Steady e.name 0 (listed.map ListedEntry.name) (snapshots dir s (p :: ps)))) ∧
        ((namesIn (afterPages dir s (p :: ps)) (dir.map (Platform.nfc Id))).length <
          (p :: ps).length → ended = true) := by
  obtain ⟨entries, hlists⟩ := readdir_lists hs.nodup hread
  refine ⟨hlists.pairwise_iff, fun tree path name hpath info => hlists.stat_iff tree hpath info,
    fun e he calls => hlists.path_of he calls, fun dirid ps hdir => ?_⟩
  have hid : s.ids.idOf dir = some dirid := (s.ids.sound dir dirid).mpr hdir
  exact ⟨nfsPages_once hs.nodup hread hid ps, fusePages_once hs.nodup hread hid ps⟩

end

/-! ### A directory with one pinned file -/

def onlyB : Source PlainId := fun id =>
  if id = [0] then some [⟨"b", .file, [1], 1, false⟩] else none

def freshMount : Inner PlainId where
  mount :=
    { repo := "r"
      pin := ⟨[], [0]⟩
      writable := true
      dirs := []
      staged := []
      shadow := []
      inFlight := []
      buffered := [] }
  ids := .single []

/-- A file is created in the root. -/
def creates (name : String) : List (Call PlainId) :=
  [.overlay (.create onlyB "" name) [], .overlay (.stage 0) []]

theorem ok_of_toOption {ε α : Type} {r : Except ε α} {a : α} (h : r.toOption = some a) :
    r = .ok a := by
  cases r with
  | error e => cases h
  | ok b => exact congrArg Except.ok (Option.some.inj h)

theorem freshMount_served (calls : List (Call PlainId)) : Served (freshMount.after calls) :=
  ⟨freshMount, ⟨rfl, rfl, rfl⟩, calls, rfl⟩

/-- A created `c` while the listing is under way: NFS returns `b` once, and FUSE
returns it. -/
theorem readdir_consistent_fresh :
    (freshMount.ids.keyOf 1 = some []) ∧
    (∃ out, nfsPages 1 0 freshMount [⟨onlyB, 1, creates "c"⟩, ⟨onlyB, 2, []⟩, ⟨onlyB, 2, []⟩] =
      .ok (out, true) ∧ (out.map ListedEntry.name).count "b" = 1) ∧
    ∃ out, fusePages 1 0 freshMount [⟨onlyB, 1, creates "c"⟩, ⟨onlyB, 2, []⟩, ⟨onlyB, 2, []⟩] =
      .ok (out, true) ∧ "b" ∈ out.map ListedEntry.name := by
  have hroot : freshMount.ids.keyOf 1 = some [] := by decide
  obtain ⟨listed, hlisted⟩ : ∃ listed, (readdir onlyB freshMount []).1 = .ok listed ∧
      "b" ∈ listed.map ListedEntry.name :=
    ⟨_, rfl, by decide +kernel⟩
  obtain ⟨e, he, hname⟩ := List.mem_map.mp hlisted.2
  obtain ⟨-, -, -, hpages⟩ := readdir_consistent (freshMount_served [])
    (p := ⟨onlyB, 1, creates "c"⟩)
    (show readdir onlyB freshMount [] = (.ok listed, _) from Prod.ext hlisted.1 rfl)
  obtain ⟨⟨out, ended, hout, honce, hends⟩, out', ended', hout', hlists, hends'⟩ :=
    hpages 1 [⟨onlyB, 2, []⟩, ⟨onlyB, 2, []⟩] hroot
  obtain rfl := hends (by decide +kernel)
  obtain rfl := hends' (by decide +kernel)
  refine ⟨hroot, ⟨out, hout, hname ▸ honce rfl e he⟩, out', hout', ?_⟩
  exact hname ▸ (hlists rfl (by simp) e he).1

/-- A created `a` is listed behind the pinned `b`; a `c` that is created when `b`
and `m` are returned makes FUSE return `m` again. -/
theorem listing_disturbed :
    (∃ listed, (readdir onlyB (freshMount.after (creates "a")) []).1 = .ok listed ∧
      ¬ (listed.map ListedEntry.name).Pairwise (· < ·)) ∧
    ∃ out, fusePages 1 0 (freshMount.after (creates "m"))
        [⟨onlyB, 2, creates "c"⟩, ⟨onlyB, 2, []⟩, ⟨onlyB, 2, []⟩] = .ok (out, true) ∧
      out.map ListedEntry.name = ["b", "m", "m"] := by
  have hnames : ((readdir onlyB (freshMount.after (creates "a")) []).1.toOption.map
      (List.map ListedEntry.name)) = some ["b", "a"] := by decide +kernel
  have hpages : ((fusePages 1 0 (freshMount.after (creates "m"))
      [⟨onlyB, 2, creates "c"⟩, ⟨onlyB, 2, []⟩, ⟨onlyB, 2, []⟩]).toOption.map fun pages =>
        (pages.1.map ListedEntry.name, pages.2)) = some (["b", "m", "m"], true) := by
    decide +kernel
  constructor
  · obtain ⟨listed, hlisted, heq⟩ := Option.map_eq_some_iff.mp hnames
    refine ⟨listed, ok_of_toOption hlisted, ?_⟩
    rw [heq]
    decide +kernel
  · obtain ⟨⟨out, ended⟩, hout, heq⟩ := Option.map_eq_some_iff.mp hpages
    obtain ⟨hnames, rfl⟩ := Prod.mk.inj heq
    exact ⟨out, ok_of_toOption hout, hnames⟩

end Readdir

end Naatre.Client
