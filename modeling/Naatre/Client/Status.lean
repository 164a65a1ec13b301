import Naatre.Client.Scan
import Naatre.Core.Plain

/-!
What a status says. The scan finds the files of the working copy, each at its
own raw path; the loop over them is followed with the files already read, one
invariant for each list of the report.

The stat index keeps the nanoseconds of a time without its seconds, so an edit
is found out exactly where one of the four kept fields moved with it.
-/

namespace Naatre.Client

/-! ### The scan -/

section Scan

variable {nfc : String → String}

theorem mem_scanDir {dirs : List String} {d : DiskDir} {f : DiskFile} :
    f ∈ scanDir nfc dirs d ↔ ∃ p stat content, FileAt d p stat content ∧
      ¬ (dirs = [] ∧ p.dirs ≠ [] ∧ isReserved p = true) ∧
      f = ⟨⟨dirs ++ p.dirs, p.leaf⟩, normalized nfc ⟨dirs ++ p.dirs, p.leaf⟩, stat, content⟩ := by
  induction dirs, d using scanDir.induct with
  | case1 dirs =>
      rw [scanDir]
      constructor
      · intro h
        cases h
      · rintro ⟨p, stat, content, h, -⟩
        cases h
  | case2 dirs name stat content rest ih =>
      rw [scanDir, List.mem_cons, ih]
      constructor
      · rintro (rfl | ⟨p, stat', content', h, hout, rfl⟩)
        · exact ⟨⟨[], name⟩, stat, content, .here, by simp, by simp⟩
        · exact ⟨p, stat', content', .later h, hout, rfl⟩
      · rintro ⟨p, stat', content', h, hout, rfl⟩
        cases h with
        | here => exact .inl (by simp)
        | later h => exact .inr ⟨p, stat', content', h, hout, rfl⟩
  | case3 dirs name entries rest hreserved ih =>
      rw [scanDir, if_pos hreserved, ih]
      constructor
      · rintro ⟨p, stat, content, h, hout, rfl⟩
        exact ⟨p, stat, content, .later h, hout, rfl⟩
      · rintro ⟨p, stat, content, h, hout, rfl⟩
        cases h with
        | inside h =>
            refine absurd ⟨hreserved.1, by simp, ?_⟩ hout
            simpa [isReserved, Path.components, hreserved.1] using hreserved.2
        | later h => exact ⟨p, stat, content, h, hout, rfl⟩
  | case4 dirs name entries rest hopen ihsub ih =>
      rw [scanDir, if_neg hopen, List.mem_append, ihsub, ih]
      constructor
      · rintro (⟨p, stat, content, h, -, rfl⟩ | ⟨p, stat, content, h, hout, rfl⟩)
        · refine ⟨⟨name :: p.dirs, p.leaf⟩, stat, content, .inside h, ?_, by simp⟩
          rintro ⟨hdirs, -, hname⟩
          exact hopen ⟨hdirs, by simpa [isReserved, Path.components, hdirs] using hname⟩
        · exact ⟨p, stat, content, .later h, hout, rfl⟩
      · rintro ⟨p, stat, content, h, hout, rfl⟩
        cases h with
        | inside h => exact .inl ⟨_, stat, content, h, by simp, by simp⟩
        | later h => exact .inr ⟨p, stat, content, h, hout, rfl⟩
  | case5 dirs name node rest hfile hdir ih =>
      rw [scanDir, ih]
      · constructor
        · rintro ⟨p, stat, content, h, hout, rfl⟩
          exact ⟨p, stat, content, .later h, hout, rfl⟩
        · rintro ⟨p, stat, content, h, hout, rfl⟩
          cases h with
          | here => exact absurd rfl (hfile _ _ _ rfl)
          | inside h => exact absurd rfl (hdir _ _ rfl)
          | later h => exact ⟨p, stat, content, h, hout, rfl⟩
      · exact hfile
      · exact hdir

/-- The first component of a file's path names an entry of the directory. -/
theorem FileAt.name_mem {d : DiskDir} {p : Path} {stat : Metadata} {content : Bytes}
    (h : FileAt d p stat content) : .ok (p.components.headD "") ∈ d.names := by
  induction h with
  | here => simp [DiskDir.names, Path.components]
  | inside => simp [DiskDir.names, Path.components]
  | later h ih => exact List.mem_cons_of_mem _ ih

/-- The walk below one name and the walk of the other names share no path. -/
theorem scanDir_apart {dirs : List String} {name : String} {d rest : DiskDir}
    (hname : .ok name ∉ rest.names) {f g : DiskFile} (hf : f ∈ scanDir nfc (dirs ++ [name]) d)
    (hg : g ∈ scanDir nfc dirs rest) : f.raw ≠ g.raw := by
  obtain ⟨p, _, _, -, -, rfl⟩ := mem_scanDir.mp hf
  obtain ⟨q, _, _, hq, -, rfl⟩ := mem_scanDir.mp hg
  intro hraw
  have hcomponents := congrArg Path.components hraw
  simp only [Path.components, List.append_assoc, List.append_cancel_left_eq] at hcomponents
  have hhead := hq.name_mem
  rw [Path.components, ← hcomponents] at hhead
  exact hname hhead

/-- No path is found twice. -/
theorem scanDir_nodup {dirs : List String} {d : DiskDir} (hd : d.wellNamed) :
    ((scanDir nfc dirs d).map DiskFile.raw).Nodup := by
  induction dirs, d using scanDir.induct with
  | case1 dirs => simp [scanDir]
  | case2 dirs name stat content rest ih =>
      rw [DiskDir.wellNamed] at hd
      rw [scanDir, List.map_cons, List.nodup_cons]
      refine ⟨fun hmem => ?_, ih hd.2.2.2⟩
      obtain ⟨f, hf, hraw⟩ := List.mem_map.mp hmem
      obtain ⟨p, _, _, hp, -, rfl⟩ := mem_scanDir.mp hf
      have hcomponents := congrArg Path.components hraw
      simp only [Path.components, List.append_assoc, List.append_cancel_left_eq] at hcomponents
      have hhead := hp.name_mem
      rw [Path.components, hcomponents] at hhead
      exact hd.1 hhead
  | case3 dirs name entries rest hreserved ih =>
      rw [DiskDir.wellNamed] at hd
      rw [scanDir, if_pos hreserved]
      exact ih hd.2.2.2
  | case4 dirs name entries rest hopen ihsub ih =>
      rw [DiskDir.wellNamed] at hd
      rw [scanDir, if_neg hopen, List.map_append, List.nodup_append]
      refine ⟨ihsub hd.2.2.1, ih hd.2.2.2, fun x hx y hy => ?_⟩
      obtain ⟨f, hf, rfl⟩ := List.mem_map.mp hx
      obtain ⟨g, hg, rfl⟩ := List.mem_map.mp hy
      exact scanDir_apart hd.1 hf hg
  | case5 dirs name node rest hfile hdir ih =>
      rw [DiskDir.wellNamed] at hd
      rw [scanDir]
      · exact ih hd.2.2.2
      · exact hfile
      · exact hdir

theorem mem_scanDisk {disk : Disk} {f : DiskFile} :
    f ∈ scanDisk nfc disk ↔
      f.norm = normalized nfc f.raw ∧ disk.HasFile f.raw f.stat f.content := by
  rw [scanDisk, List.mem_insertionSort, mem_scanDir]
  constructor
  · rintro ⟨p, stat, content, h, hout, rfl⟩
    exact ⟨rfl, h, fun hreserved => hout ⟨rfl, hreserved⟩⟩
  · rintro ⟨hnorm, h, hout⟩
    refine ⟨f.raw, f.stat, f.content, h, fun hreserved => hout hreserved.2, ?_⟩
    rw [List.nil_append, ← hnorm]

theorem scanDisk_nodup (disk : Disk) : ((scanDisk nfc disk).map DiskFile.raw).Nodup := by
  have hperm := List.perm_insertionSort (fun f g : DiskFile => f.raw.before g.raw = true)
    (scanDir nfc [] disk.entries)
  exact (hperm.map DiskFile.raw).nodup_iff.mpr (scanDir_nodup disk.wellNamed)

end Scan

/-! ### The loop over the files -/

section Classify

variable {Id : Type} [Platform Id]

/-- The files read so far whose normalized path is `p`. -/
def onto (done : List DiskFile) (p : Path) : List DiskFile :=
  done.filter fun f => decide (f.norm = p)

theorem mem_onto {done : List DiskFile} {p : Path} {f : DiskFile} :
    f ∈ onto done p ↔ f ∈ done ∧ f.norm = p := by
  simp [onto]

theorem onto_append_self (done : List DiskFile) (f : DiskFile) :
    onto (done ++ [f]) f.norm = onto done f.norm ++ [f] := by
  simp [onto]

theorem onto_append_of_ne {done : List DiskFile} {f : DiskFile} {p : Path} (h : f.norm ≠ p) :
    onto (done ++ [f]) p = onto done p := by
  simp [onto, h]

/-- What makes the loop call an indexed path modified: a file whose kept stat
fields and content both moved, or a second file. -/
def Dirty (row : Row Id) : List DiskFile → Prop
  | [] => False
  | [f] => statMatches row f.stat = false ∧ Platform.blobId f.content ≠ row.blob
  | _ :: _ :: _ => True

/-- The lists of the report over the files `done`. -/
structure Classified (index : Index Id) (done : List DiskFile) (s : Classifying) : Prop where
  seen : ∀ p, p ∈ s.seenTracked ↔ (∃ row, index.get p = some row) ∧ onto done p ≠ []
  modified : ∀ p, p ∈ s.report.modified ↔
    ∃ row, index.get p = some row ∧ Dirty row (onto done p)
  raws : ∀ p, (∃ raw, s.report.rawOfUntracked.lookup p = some raw) ↔
    index.get p = none ∧ onto done p ≠ []
  untracked : ∀ p, p ∈ s.report.untracked ↔ index.get p = none ∧ onto done p ≠ []

/-- A file changes nothing in the lists about other paths. -/
theorem classifyFile_other {index : Index Id} {s : Classifying} {file : DiskFile} {p : Path}
    (hp : file.norm ≠ p) :
    (p ∈ (classifyFile index s file).seenTracked ↔ p ∈ s.seenTracked) ∧
    (p ∈ (classifyFile index s file).report.modified ↔ p ∈ s.report.modified) ∧
    (classifyFile index s file).report.rawOfUntracked.lookup p = s.report.rawOfUntracked.lookup p ∧
    (p ∈ (classifyFile index s file).report.untracked ↔ p ∈ s.report.untracked) := by
  have hcons : ∀ l : List Path, p ∈ l ++ [file.norm] ↔ p ∈ l := by
    intro l
    simp [hp.symm]
  unfold classifyFile
  cases index.get file.norm with
  | some row =>
      by_cases hseen : file.norm ∈ s.seenTracked
      · simp only [if_pos hseen, true_and, and_true, iff_self]
        split_ifs with hmod
        · exact Iff.rfl
        · exact hcons _
      · simp only [if_neg hseen]
        split_ifs with hstat hblob <;> simp [hp.symm]
  | none =>
      cases hraw : s.report.rawOfUntracked.lookup file.norm with
      | some first => simp only [iff_self, and_self]
      | none =>
          have hne : (p == file.norm) = false := by simpa using hp.symm
          simp [List.lookup_cons, hne, hp.symm]

/-- One file more: the four lists follow. The path of the file decides which
of them change, and whether a file was met on it before decides how. -/
theorem Classified.next {index : Index Id} {done : List DiskFile} {s : Classifying}
    (h : Classified index done s) (file : DiskFile) :
    Classified index (done ++ [file]) (classifyFile index s file) := by
  have honto : onto (done ++ [file]) file.norm ≠ [] := by
    rw [onto_append_self]
    exact List.append_ne_nil_of_right_ne_nil _ (List.cons_ne_nil _ _)
  -- away from the file's path the old facts carry over
  suffices hself :
      (file.norm ∈ (classifyFile index s file).seenTracked ↔
        ∃ row, index.get file.norm = some row) ∧
      (file.norm ∈ (classifyFile index s file).report.modified ↔
        ∃ row, index.get file.norm = some row ∧ Dirty row (onto done file.norm ++ [file])) ∧
      ((∃ raw, (classifyFile index s file).report.rawOfUntracked.lookup file.norm = some raw) ↔
        index.get file.norm = none) ∧
      (file.norm ∈ (classifyFile index s file).report.untracked ↔
        index.get file.norm = none) by
    constructor <;> intro p <;> by_cases hp : file.norm = p
    · subst hp
      rw [hself.1]
      exact ⟨fun hrow => ⟨hrow, honto⟩, And.left⟩
    · rw [(classifyFile_other hp).1, onto_append_of_ne hp, h.seen]
    · subst hp
      rw [hself.2.1, onto_append_self]
    · rw [(classifyFile_other hp).2.1, onto_append_of_ne hp, h.modified]
    · subst hp
      rw [hself.2.2.1]
      exact ⟨fun hrow => ⟨hrow, honto⟩, And.left⟩
    · rw [(classifyFile_other hp).2.2.1, onto_append_of_ne hp, h.raws]
    · subst hp
      rw [hself.2.2.2]
      exact ⟨fun hrow => ⟨hrow, honto⟩, And.left⟩
    · rw [(classifyFile_other hp).2.2.2, onto_append_of_ne hp, h.untracked]
  have hseen := h.seen file.norm
  have hmodified := h.modified file.norm
  have hraws := h.raws file.norm
  have huntracked := h.untracked file.norm
  unfold classifyFile
  cases hget : index.get file.norm with
  | some row =>
      simp only [hget, Option.some.injEq, exists_eq', true_and, exists_eq_left', reduceCtorEq,
        false_and, iff_false, iff_true] at hseen hmodified hraws huntracked ⊢
      by_cases hmem : file.norm ∈ s.seenTracked
      · obtain ⟨first, rest, hfirst⟩ := List.exists_cons_of_ne_nil (hseen.mp hmem)
        have hdirty : Dirty row (onto done file.norm ++ [file]) := by
          rw [hfirst]
          cases rest <;> trivial
        simp only [if_pos hmem, hdirty, iff_true]
        refine ⟨hmem, ?_, hraws, huntracked⟩
        split_ifs with hlisted
        · exact hlisted
        · simp
      · have hnone : onto done file.norm = [] := by
          by_contra hne
          exact hmem (hseen.mpr hne)
        rw [hnone] at hmodified
        have hclean : file.norm ∉ s.report.modified := fun hlisted => hmodified.mp hlisted
        simp only [if_neg hmem, hnone, List.nil_append, Dirty]
        by_cases hstat : statMatches row file.stat = true
        · simp [hstat, hclean, hraws, huntracked]
        · by_cases hblob : Platform.blobId file.content = row.blob
          · simp [hstat, hblob, hclean, hraws, huntracked]
          · simp [hstat, hblob, hraws, huntracked]
  | none =>
      simp only [hget, reduceCtorEq, exists_false, false_and, true_and, iff_false,
        iff_true] at hseen hmodified hraws huntracked ⊢
      cases hraw : s.report.rawOfUntracked.lookup file.norm with
      | some first =>
          have hne := hraws.mp ⟨first, hraw⟩
          exact ⟨hseen, hmodified, ⟨first, hraw⟩, huntracked.mpr hne⟩
      | none =>
          refine ⟨hseen, hmodified, ⟨file.raw, ?_⟩, ?_⟩
          · simp
          · simp

theorem classified (index : Index Id) (files : List DiskFile) :
    Classified index files (files.foldl (classifyFile index) {}) := by
  induction files using List.reverseRecOn with
  | nil => constructor <;> simp [onto, Dirty]
  | append_singleton done file ih =>
      rw [List.foldl_append]
      exact ih.next file

/-! ### The report -/

/-- A file of the working copy whose path normalizes to `p`. -/
def Disk.Onto (nfc : String → String) (disk : Disk) (p raw : Path) (stat : Metadata)
    (content : Bytes) : Prop :=
  disk.HasFile raw stat content ∧ normalized nfc raw = p

/-- Two files of the working copy fold onto `p`. -/
def Disk.Folds (nfc : String → String) (disk : Disk) (p : Path) : Prop :=
  ∃ raw stat content raw' stat' content', raw ≠ raw' ∧
    disk.Onto nfc p raw stat content ∧ disk.Onto nfc p raw' stat' content'

theorem mem_onto_scanDisk {nfc : String → String} {disk : Disk} {p : Path} {f : DiskFile} :
    f ∈ onto (scanDisk nfc disk) p ↔ f.norm = p ∧ disk.Onto nfc p f.raw f.stat f.content := by
  rw [mem_onto, mem_scanDisk, Disk.Onto]
  constructor
  · rintro ⟨⟨hnorm, hfile⟩, rfl⟩
    exact ⟨rfl, hfile, hnorm.symm⟩
  · rintro ⟨rfl, hfile, hnorm⟩
    exact ⟨⟨hnorm.symm, hfile⟩, rfl⟩

theorem onto_scanDisk_ne_nil {nfc : String → String} {disk : Disk} {p : Path} :
    onto (scanDisk nfc disk) p ≠ [] ↔ ∃ raw stat content, disk.Onto nfc p raw stat content := by
  constructor
  · intro h
    obtain ⟨f, hf⟩ := List.exists_mem_of_ne_nil _ h
    exact ⟨f.raw, f.stat, f.content, (mem_onto_scanDisk.mp hf).2⟩
  · rintro ⟨raw, stat, content, h⟩
    have hmem : (⟨raw, p, stat, content⟩ : DiskFile) ∈ onto (scanDisk nfc disk) p :=
      mem_onto_scanDisk.mpr ⟨rfl, h⟩
    exact List.ne_nil_of_mem hmem

theorem onto_scanDisk_nodup (nfc : String → String) (disk : Disk) (p : Path) :
    ((onto (scanDisk nfc disk) p).map DiskFile.raw).Nodup := by
  have hsub : (onto (scanDisk nfc disk) p).Sublist (scanDisk nfc disk) := List.filter_sublist
  exact (scanDisk_nodup disk).sublist (hsub.map DiskFile.raw)

/-- A path of the disk holds one file. -/
theorem Disk.Onto.unique {nfc : String → String} {disk : Disk} {p raw : Path}
    {stat stat' : Metadata} {content content' : Bytes} (h : disk.Onto nfc p raw stat content)
    (h' : disk.Onto nfc p raw stat' content') : stat = stat' ∧ content = content' := by
  have hmem : (⟨raw, p, stat, content⟩ : DiskFile) ∈ onto (scanDisk nfc disk) p :=
    mem_onto_scanDisk.mpr ⟨rfl, h⟩
  have hmem' : (⟨raw, p, stat', content'⟩ : DiskFile) ∈ onto (scanDisk nfc disk) p :=
    mem_onto_scanDisk.mpr ⟨rfl, h'⟩
  have heq := List.inj_on_of_nodup_map (onto_scanDisk_nodup nfc disk p) hmem hmem' rfl
  exact ⟨congrArg DiskFile.stat heq, congrArg DiskFile.content heq⟩

/-- The scan finds two files on a path exactly where the disk folds there. -/
theorem onto_scanDisk_two {nfc : String → String} {disk : Disk} {p : Path} :
    (∃ f g rest, onto (scanDisk nfc disk) p = f :: g :: rest) ↔ disk.Folds nfc p := by
  constructor
  · rintro ⟨f, g, rest, h⟩
    have hnodup := onto_scanDisk_nodup nfc disk p
    rw [h, List.map_cons, List.map_cons, List.nodup_cons] at hnodup
    have hne : f.raw ≠ g.raw := fun heq => hnodup.1 (heq ▸ List.mem_cons_self)
    have hf := mem_onto_scanDisk.mp (h ▸ List.mem_cons_self)
    have hg := mem_onto_scanDisk.mp (h ▸ List.mem_cons_of_mem f List.mem_cons_self)
    exact ⟨_, _, _, _, _, _, hne, hf.2, hg.2⟩
  · rintro ⟨raw, stat, content, raw', stat', content', hne, hraw, hraw'⟩
    have hmem : (⟨raw, p, stat, content⟩ : DiskFile) ∈ onto (scanDisk nfc disk) p :=
      mem_onto_scanDisk.mpr ⟨rfl, hraw⟩
    have hmem' : (⟨raw', p, stat', content'⟩ : DiskFile) ∈ onto (scanDisk nfc disk) p :=
      mem_onto_scanDisk.mpr ⟨rfl, hraw'⟩
    match h : onto (scanDisk nfc disk) p with
    | [] => rw [h] at hmem; cases hmem
    | [f] =>
        rw [h, List.mem_singleton] at hmem hmem'
        exact absurd (congrArg DiskFile.raw (hmem.trans hmem'.symm)) hne
    | f :: g :: rest => exact ⟨f, g, rest, rfl⟩

/-- What a status is to say of a disk and an index. -/
structure StatusSound (disk : Disk) (index : Index Id) (report : Report) : Prop where
  modified : ∀ p, p ∈ report.modified ↔ ∃ row, index.get p = some row ∧
    ((∃ raw stat content, disk.Onto (Platform.nfc Id) p raw stat content ∧
        Platform.blobId content ≠ row.blob) ∨
      disk.Folds (Platform.nfc Id) p)
  deleted : ∀ p, p ∈ report.deleted ↔ (∃ row, index.get p = some row) ∧
    ¬ ∃ raw stat content, disk.Onto (Platform.nfc Id) p raw stat content
  untracked : ∀ p, p ∈ report.untracked ↔ index.get p = none ∧
    ∃ raw stat content, disk.Onto (Platform.nfc Id) p raw stat content
  once : report.modified.Nodup ∧ report.deleted.Nodup ∧ report.untracked.Nodup

/-- An indexed path's only file holds other content under the size, the inode
and the two nanosecond counts its row keeps. -/
def HiddenEdit (disk : Disk) (index : Index Id) : Prop :=
  ∃ p row raw stat content, index.get p = some row ∧
    disk.Onto (Platform.nfc Id) p raw stat content ∧ ¬ disk.Folds (Platform.nfc Id) p ∧
    statMatches row stat = true ∧ Platform.blobId content ≠ row.blob

/-- What the loop calls dirty, without the scan. -/
theorem dirty_onto {disk : Disk} {p : Path} {row : Row Id} :
    Dirty row (onto (scanDisk (Platform.nfc Id) disk) p) ↔
      disk.Folds (Platform.nfc Id) p ∨
      ∃ raw stat content, disk.Onto (Platform.nfc Id) p raw stat content ∧
        statMatches row stat = false ∧ Platform.blobId content ≠ row.blob := by
  rw [← onto_scanDisk_two]
  have hfile : ∀ f, f ∈ onto (scanDisk (Platform.nfc Id) disk) p ↔
      f.norm = p ∧ disk.Onto (Platform.nfc Id) p f.raw f.stat f.content :=
    fun f => mem_onto_scanDisk
  match h : onto (scanDisk (Platform.nfc Id) disk) p with
  | [] =>
      rw [h] at hfile
      simp only [Dirty, reduceCtorEq, exists_false, false_or, false_iff, not_exists, not_and]
      intro raw stat content honto
      exact absurd ((hfile ⟨raw, p, stat, content⟩).mpr ⟨rfl, honto⟩) List.not_mem_nil
  | [f] =>
      rw [h] at hfile
      simp only [Dirty, List.cons.injEq, reduceCtorEq, and_false, exists_false, false_or]
      constructor
      · rintro ⟨hstat, hblob⟩
        exact ⟨f.raw, f.stat, f.content, ((hfile f).mp List.mem_cons_self).2, hstat, hblob⟩
      · rintro ⟨raw, stat, content, honto, hstat, hblob⟩
        have heq := List.mem_singleton.mp ((hfile ⟨raw, p, stat, content⟩).mpr ⟨rfl, honto⟩)
        rw [← heq]
        exact ⟨hstat, hblob⟩
  | f :: g :: rest =>
      simp only [Dirty, true_iff]
      exact .inl ⟨f, g, rest, rfl⟩

omit [Platform Id] in
theorem get_some_iff {index : Index Id} {p : Path} :
    (∃ row, index.get p = some row) ↔ p ∈ index.rows.map Prod.fst := by
  rw [Index.get, ← Option.isSome_iff_exists, List.lookup_isSome_iff]
  simp

/-- The lists of a report, without the loop. -/
theorem classify_lists (disk : Disk) (index : Index Id) (p : Path) :
    (p ∈ (classify disk index).modified ↔ ∃ row, index.get p = some row ∧
      Dirty row (onto (scanDisk (Platform.nfc Id) disk) p)) ∧
    (p ∈ (classify disk index).deleted ↔ (∃ row, index.get p = some row) ∧
      onto (scanDisk (Platform.nfc Id) disk) p = []) ∧
    (p ∈ (classify disk index).untracked ↔ index.get p = none ∧
      onto (scanDisk (Platform.nfc Id) disk) p ≠ []) := by
  have h := classified index (scanDisk (Platform.nfc Id) disk)
  refine ⟨?_, ?_, ?_⟩
  · rw [← h.modified]
    exact Path.mem_sortPaths
  · simp only [classify, Path.mem_sortPaths, List.mem_filter, decide_eq_true_eq, h.seen,
      ← get_some_iff]
    grind
  · rw [← h.untracked]
    exact Path.mem_sortPaths

/-- A status is right exactly where no edit is hidden by the fields a row
keeps. -/
theorem classify_sound_iff (disk : Disk) (index : Index Id) :
    StatusSound disk index (classify disk index) ↔ ¬ HiddenEdit disk index := by
  constructor
  · rintro hsound ⟨p, row, raw, stat, content, hrow, honto, hfold, hstat, hblob⟩
    have hlisted : p ∈ (classify disk index).modified :=
      (hsound.modified p).mpr ⟨row, hrow, .inl ⟨raw, stat, content, honto, hblob⟩⟩
    obtain ⟨row', hrow', hdirty⟩ := (classify_lists disk index p).1.mp hlisted
    rcases dirty_onto.mp hdirty with hfold' | ⟨raw', stat', content', honto', hstat', -⟩
    · exact hfold hfold'
    · -- the only file of the path is the one whose kept fields match
      have hraw : raw' = raw := by
        by_contra hne
        exact hfold ⟨_, _, _, _, _, _, hne, honto', honto⟩
      subst hraw
      have hrows : row' = row := Option.some.inj (hrow'.symm.trans hrow)
      rw [(honto'.unique honto).1, hrows, hstat] at hstat'
      cases hstat'
  · intro hseen
    refine ⟨fun p => ?_, fun p => ?_, fun p => ?_, ?_⟩
    · rw [(classify_lists disk index p).1]
      refine exists_congr fun row => and_congr_right fun hrow => ?_
      rw [dirty_onto, or_comm]
      by_cases hfold : disk.Folds (Platform.nfc Id) p
      · simp only [hfold, or_true]
      · simp only [hfold, or_false]
        constructor
        · rintro ⟨raw, stat, content, honto, -, hblob⟩
          exact ⟨raw, stat, content, honto, hblob⟩
        · rintro ⟨raw, stat, content, honto, hblob⟩
          refine ⟨raw, stat, content, honto, ?_, hblob⟩
          by_contra hstat
          exact hseen ⟨p, row, raw, stat, content, hrow, honto, hfold, by simpa using hstat, hblob⟩
    · rw [(classify_lists disk index p).2.1, ← onto_scanDisk_ne_nil, not_not]
    · rw [(classify_lists disk index p).2.2, onto_scanDisk_ne_nil]
    · exact ⟨Path.sortPaths_nodup _, Path.sortPaths_nodup _, Path.sortPaths_nodup _⟩

/-- A file rewritten in place a second later, on a file system whose times are
whole seconds: size, inode and both nanosecond counts are what they were. -/
theorem classify_same_fraction :
    let before : Metadata := ⟨1, ⟨10, 0⟩, ⟨10, 0⟩, 7, 0o644⟩
    let after : Metadata := ⟨1, ⟨11, 0⟩, ⟨11, 0⟩, 7, 0o644⟩
    let file : Path := ⟨[], "f"⟩
    let index : Index PlainId :=
      ⟨[(file, .fromStat file (Platform.blobId [0x61]) before)], by simp⟩
    let disk : Disk :=
      ⟨.entry (.ok "f") (.file after [0x62]) .empty,
        by simp [DiskDir.wellNamed, DiskNode.wellNamed, DiskDir.names, OsName.legal]⟩
    before.mtime ≠ after.mtime ∧ before.ctime ≠ after.ctime ∧
      Platform.blobId [0x61] ≠ (Platform.blobId [0x62] : PlainId) ∧
      ¬ StatusSound disk index (classify disk index) := by
  intro before after file index disk
  refine ⟨by decide, by decide, by decide, fun hsound => ?_⟩
  have hclean : (classify disk index).modified = [] := by decide +kernel
  have hdirty : file ∈ (classify disk index).modified := by
    refine (hsound.modified file).mpr ⟨_, rfl, .inl ⟨file, after, [0x62], ⟨⟨.here, ?_⟩, ?_⟩, ?_⟩⟩
    · decide
    · decide +kernel
    · decide
  rw [hclean] at hdirty
  cases hdirty

end Classify
end Naatre.Client
