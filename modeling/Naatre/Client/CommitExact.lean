import Naatre.Client.Commit
import Naatre.Client.Containment
import Naatre.Client.SyncConverges
import Naatre.Server.CreateFrame
import Naatre.Server.TreesHeld

/-!
What a commit stores. The changes it gathers are the differences between the
disk and the index: each is read off the one file its path normalizes to. The
server applies them to the head's tree, whatever was written between its lookup
and its write, so the new changeset is the disk on the cone and the head
elsewhere.
-/

namespace Naatre.Client

section

variable {Id : Type} [Platform Id]

/-! ### Reading a file the scan found -/

theorem DiskDir.read_later {name : OsName} {node : DiskNode} {rest : DiskDir} {p : Path}
    (hname : name ≠ .ok (p.components.headD "")) :
    (DiskDir.entry name node rest).read p.leaf p.dirs = rest.read p.leaf p.dirs := by
  obtain ⟨dirs, leaf⟩ := p
  cases dirs with
  | nil =>
      have hleaf : name ≠ .ok leaf := hname
      rw [DiskDir.read, DiskDir.read, DiskDir.node, if_neg hleaf]
  | cons d ds =>
      have hdir : name ≠ .ok d := hname
      rw [DiskDir.read, DiskDir.read, DiskDir.node, if_neg hdir]

theorem FileAt.read {d : DiskDir} {p : Path} {stat : Metadata} {content : Bytes}
    (h : FileAt d p stat content) (hd : d.wellNamed) :
    d.read p.leaf p.dirs = some (stat, content) := by
  induction h with
  | here => simp [DiskDir.read, DiskDir.node]
  | inside h ih =>
      rw [DiskDir.wellNamed] at hd
      rw [DiskDir.read, DiskDir.node, if_pos rfl]
      exact ih hd.2.2.1
  | later h ih =>
      rw [DiskDir.wellNamed] at hd
      have hname := h.name_mem
      rw [DiskDir.read_later (by rintro rfl; exact hd.1 hname)]
      exact ih hd.2.2.2

/-- Every raw path a status keeps is one of a file read, and every path met has
one. -/
structure RawsKept (done : List DiskFile) (s : Classifying) : Prop where
  read : ∀ e ∈ s.report.rawOf, ReadAs done e.1 e.2
  tracked : ∀ p ∈ s.seenTracked, (s.report.rawOf.lookup p).isSome
  untracked : ∀ p, (s.report.rawOfUntracked.lookup p).isSome → (s.report.rawOf.lookup p).isSome

theorem lookup_cons_isSome {α β : Type} [DecidableEq α] {l : List (α × β)} {p q : α} {b : β}
    (h : p = q ∨ (l.lookup p).isSome) : (((q, b) :: l).lookup p).isSome := by
  rw [List.lookup_cons]
  split
  · rfl
  · next hne =>
      refine h.resolve_left fun heq => ?_
      rw [heq, beq_self_eq_true] at hne
      cases hne

theorem RawsKept.next {index : Index Id} {done : List DiskFile} {s : Classifying}
    (h : RawsKept done s) (file : DiskFile) :
    RawsKept (done ++ [file]) (classifyFile index s file) := by
  have hold : ∀ e ∈ s.report.rawOf, ReadAs (done ++ [file]) e.1 e.2 := by
    intro e he
    obtain ⟨f, hf, hread⟩ := h.read e he
    exact ⟨f, List.mem_append_left _ hf, hread⟩
  have hcons : ∀ e ∈ (file.norm, file.raw) :: s.report.rawOf,
      ReadAs (done ++ [file]) e.1 e.2 := by
    intro e he
    rcases List.mem_cons.mp he with rfl | he
    · exact ⟨file, List.mem_append_right _ (List.mem_singleton.mpr rfl), rfl, rfl⟩
    · exact hold e he
  have htracked : ∀ p ∈ file.norm :: s.seenTracked,
      (((file.norm, file.raw) :: s.report.rawOf).lookup p).isSome := by
    intro p hp
    exact lookup_cons_isSome ((List.mem_cons.mp hp).imp_right (h.tracked p))
  unfold classifyFile
  cases index.get file.norm with
  | some row =>
      dsimp only
      split_ifs
      · exact ⟨hold, h.tracked, h.untracked⟩
      · exact ⟨hold, h.tracked, h.untracked⟩
      · exact ⟨hcons, htracked, fun p hp => lookup_cons_isSome (.inr (h.untracked p hp))⟩
      · exact ⟨hcons, htracked, fun p hp => lookup_cons_isSome (.inr (h.untracked p hp))⟩
      · exact ⟨hcons, htracked, fun p hp => lookup_cons_isSome (.inr (h.untracked p hp))⟩
  | none =>
      dsimp only
      cases hfirst : s.report.rawOfUntracked.lookup file.norm with
      | some first => exact ⟨hold, h.tracked, h.untracked⟩
      | none =>
          refine ⟨hcons, fun p hp => htracked p (List.mem_cons_of_mem _ hp), fun p hp => ?_⟩
          by_cases hnorm : p = file.norm
          · exact lookup_cons_isSome (.inl hnorm)
          · rw [List.lookup_cons, beq_eq_false_iff_ne.mpr hnorm] at hp
            exact lookup_cons_isSome (.inr (h.untracked p hp))

theorem rawsKept (index : Index Id) (files : List DiskFile) :
    RawsKept files (files.foldl (classifyFile index) {}) := by
  induction files using List.reverseRecOn with
  | nil => constructor <;> simp
  | append_singleton done file ih =>
      rw [List.foldl_append]
      exact ih.next file

/-- The raw path kept for a path the disk has a file on is the path of such a
file. -/
theorem rawOf_lookup_onto {disk : Disk} {index : Index Id} {p : Path}
    (h : ∃ raw stat content, disk.Onto (Platform.nfc Id) p raw stat content) :
    ∃ raw stat content, (classify disk index).rawOf.lookup p = some raw ∧
      disk.Onto (Platform.nfc Id) p raw stat content := by
  have hkept := rawsKept index (scanDisk (Platform.nfc Id) disk)
  have hlists := classified index (scanDisk (Platform.nfc Id) disk)
  have hmet := onto_scanDisk_ne_nil.mpr h
  have hsome : ((classify disk index).rawOf.lookup p).isSome := by
    cases hget : index.get p with
    | some row => exact hkept.tracked p ((hlists.seen p).mpr ⟨⟨row, hget⟩, hmet⟩)
    | none =>
        obtain ⟨raw, hraw⟩ := (hlists.raws p).mpr ⟨hget, hmet⟩
        exact hkept.untracked p (by rw [hraw]; rfl)
  obtain ⟨raw, hraw⟩ := Option.isSome_iff_exists.mp hsome
  obtain ⟨f, hf, hnorm, rfl⟩ := hkept.read (p, raw) (Lib.mem_of_lookup hraw)
  obtain ⟨hnormal, hfile⟩ := mem_scanDisk.mp hf
  exact ⟨f.raw, f.stat, f.content, hraw, hfile, hnormal.symm.trans hnorm⟩

theorem rawOf_onto {disk : Disk} {index : Index Id} {p : Path}
    (h : ∃ raw stat content, disk.Onto (Platform.nfc Id) p raw stat content) :
    ∃ stat content,
      disk.Onto (Platform.nfc Id) p (rawOf (classify disk index) p) stat content := by
  obtain ⟨raw, stat, content, hraw, honto⟩ := @rawOf_lookup_onto _ _ disk index p h
  refine ⟨stat, content, ?_⟩
  rwa [rawOf, hraw, Option.getD_some]

omit [Platform Id] in
theorem Index.get_iff {index : Index Id} {p : Path} {row : Row Id} :
    index.get p = some row ↔ (p, row) ∈ index.rows := by
  have hkeys : (index.rows.map Prod.fst).Nodup := by
    rw [List.Nodup, List.pairwise_map]
    refine index.ascending.imp fun {a b} hlt heq => ?_
    rw [heq] at hlt
    exact lt_irrefl _ hlt
  exact ⟨Lib.mem_of_lookup, Lib.lookup_of_nodup hkeys⟩

/-! ### What is gathered -/

omit [Platform Id] in
theorem dedupFrom_spec (l : List (Pending Id)) (first : Pending Id) :
    (∀ c ∈ dedupFrom first l, c ∈ first :: l) ∧
      ∀ c ∈ first :: l, ∃ d ∈ dedupFrom first l, d.path = c.path := by
  induction l generalizing first with
  | nil => exact ⟨fun c hc => hc, fun c hc => ⟨c, hc, rfl⟩⟩
  | cons next rest ih =>
      rw [dedupFrom]
      split_ifs with hsame
      · obtain ⟨hsub, hall⟩ := ih first
        refine ⟨fun c hc => ?_, fun c hc => ?_⟩
        · rcases List.mem_cons.mp (hsub c hc) with rfl | hc
          · exact List.mem_cons_self
          · exact List.mem_cons_of_mem _ (List.mem_cons_of_mem _ hc)
        · rcases List.mem_cons.mp hc with rfl | hc
          · exact hall c List.mem_cons_self
          rcases List.mem_cons.mp hc with rfl | hc
          · rw [hsame]
            exact hall first List.mem_cons_self
          · exact hall c (List.mem_cons_of_mem _ hc)
      · obtain ⟨hsub, hall⟩ := ih next
        refine ⟨fun c hc => ?_, fun c hc => ?_⟩
        · rcases List.mem_cons.mp hc with rfl | hc
          · exact List.mem_cons_self
          · exact List.mem_cons_of_mem _ (hsub c hc)
        · rcases List.mem_cons.mp hc with rfl | hc
          · exact ⟨c, List.mem_cons_self, rfl⟩
          · obtain ⟨d, hd, hpath⟩ := hall c hc
            exact ⟨d, List.mem_cons_of_mem _ hd, hpath⟩

omit [Platform Id] in
theorem dedupByPath_spec (l : List (Pending Id)) :
    (∀ c ∈ dedupByPath l, c ∈ l) ∧ ∀ c ∈ l, ∃ d ∈ dedupByPath l, d.path = c.path := by
  cases l with
  | nil => exact ⟨fun c hc => hc, fun c hc => ⟨c, hc, rfl⟩⟩
  | cons first rest => exact dedupFrom_spec rest first

/-- A gathered change and the path of the status it is for. -/
inductive GatheredFrom (sparse : List Path) (disk : Disk) (report : Report) : Pending Id → Prop
  | deleted {path : Path} (h : path ∈ report.deleted) :
      GatheredFrom sparse disk report (pendingDelete report path)
  | modified {path : Path} {c : Pending Id} (h : path ∈ report.modified)
      (hread : pendingFile disk report .mod path = .ok c) : GatheredFrom sparse disk report c
  | untracked {path : Path} {c : Pending Id} (h : path ∈ report.untracked)
      (hcone : underSparse sparse path = true)
      (hread : pendingFile disk report .add path = .ok c) : GatheredFrom sparse disk report c

theorem pendingFile_ok {disk : Disk} {report : Report} {op : Op} {path : Path} {c : Pending Id}
    (h : pendingFile disk report op path = .ok c) :
    ∃ stat content, disk.entries.read (rawOf report path).leaf (rawOf report path).dirs =
        some (stat, content) ∧
      c = ⟨path, rawOf report path, op, some (Platform.blobId content), some content.length,
        some (execBit stat)⟩ := by
  unfold pendingFile readWcFile at h
  cases hread : disk.entries.read (rawOf report path).leaf (rawOf report path).dirs with
  | none =>
      rw [hread] at h
      cases h
  | some file =>
      obtain ⟨stat, content⟩ := file
      rw [hread] at h
      dsimp only at h
      split_ifs at h
      cases h
      exact ⟨stat, content, rfl, rfl⟩

theorem gatherPending_ok {sparse : List Path} {disk : Disk} {report : Report}
    {l : List (Pending Id)} (h : gatherPending sparse disk report = .ok l) :
    (∀ c ∈ l, GatheredFrom sparse disk report c) ∧
      ∀ p, p ∈ report.deleted ∨ p ∈ report.modified ∨
          (p ∈ report.untracked ∧ underSparse sparse p = true) → ∃ c ∈ l, c.path = p := by
  rw [gatherPending] at h
  cases hmod : report.modified.mapM (@pendingFile Id _ disk report .mod) with
  | error e =>
      rw [hmod] at h
      cases h
  | ok modified =>
      rw [hmod] at h
      dsimp only at h
      cases hadd : (report.untracked.filter (underSparse sparse ·)).mapM
          (@pendingFile Id _ disk report .add) with
      | error e =>
          rw [hadd] at h
          cases h
      | ok added =>
          rw [hadd] at h
          cases h
          obtain ⟨hmodOf, hmodAll⟩ := Lib.mapM_ok hmod
          obtain ⟨haddOf, haddAll⟩ := Lib.mapM_ok hadd
          have hspec := dedupByPath_spec ((report.deleted.map (pendingDelete report) ++ modified ++
            added).insertionSort fun a b => a.path.before b.path = true)
          have hpath : ∀ op p (c : Pending Id), pendingFile disk report op p = .ok c →
              c.path = p := by
            intro op p c hc
            obtain ⟨stat, content, -, rfl⟩ := pendingFile_ok hc
            rfl
          constructor
          · intro c hc
            have hmem := (List.mem_insertionSort _).mp (hspec.1 c hc)
            rcases List.mem_append.mp hmem with hmem | hmem
            · rcases List.mem_append.mp hmem with hmem | hmem
              · obtain ⟨p, hp, rfl⟩ := List.mem_map.mp hmem
                exact .deleted hp
              · obtain ⟨p, hp, hread⟩ := hmodOf c hmem
                exact .modified hp hread
            · obtain ⟨p, hp, hread⟩ := haddOf c hmem
              obtain ⟨hp, hcone⟩ := List.mem_filter.mp hp
              exact .untracked hp hcone hread
          · intro p hp
            obtain ⟨c, hc, hcp⟩ : ∃ c ∈ report.deleted.map (pendingDelete report) ++ modified ++
                added, c.path = p := by
              rcases hp with hp | hp | hp
              · exact ⟨pendingDelete report p, by
                  simpa using .inl ⟨p, hp, rfl⟩, rfl⟩
              · obtain ⟨c, hc, hread⟩ := hmodAll p hp
                exact ⟨c, by simp [hc], hpath _ _ _ hread⟩
              · obtain ⟨c, hc, hread⟩ := haddAll p (List.mem_filter.mpr hp)
                exact ⟨c, by simp [hc], hpath _ _ _ hread⟩
            obtain ⟨d, hd, hdc⟩ := hspec.2 c ((List.mem_insertionSort _).mpr hc)
            exact ⟨d, hd, hdc.trans hcp⟩

/-! ### What the changes say of the disk -/

/-- A change that says how the disk and the index differ at its path. -/
inductive Describes (sparse : List Path) (disk : Disk) (index : Index Id) : FileChange Id → Prop
  | deleted {p : Path} {row : Row Id} (hrow : index.get p = some row)
      (hgone : ¬ ∃ raw stat content, disk.Onto (Platform.nfc Id) p raw stat content) :
      Describes sparse disk index ⟨p, .del, none, none, none⟩
  | modified {p raw : Path} {row : Row Id} {stat : Metadata} {content : Bytes}
      (hrow : index.get p = some row) (honto : disk.Onto (Platform.nfc Id) p raw stat content)
      (hedit : Platform.blobId content ≠ row.blob) :
      Describes sparse disk index
        ⟨p, .mod, some (Platform.blobId content), some content.length, some (execBit stat)⟩
  | added {p raw : Path} {stat : Metadata} {content : Bytes} (hfree : index.get p = none)
      (hcone : underSparse sparse p = true)
      (honto : disk.Onto (Platform.nfc Id) p raw stat content) :
      Describes sparse disk index
        ⟨p, .add, some (Platform.blobId content), some content.length, some (execBit stat)⟩

variable {sparse : List Path} {disk : Disk} {index : Index Id}

omit [Platform Id] in
/-- Where no two files fold, a path has one file. -/
theorem Disk.Onto.same {nfc : String → String} {p raw raw' : Path} {stat stat' : Metadata}
    {content content' : Bytes} (hfolds : ¬ disk.Folds nfc p)
    (h : disk.Onto nfc p raw stat content) (h' : disk.Onto nfc p raw' stat' content') :
    raw = raw' ∧ stat = stat' ∧ content = content' := by
  have hraw : raw = raw' := by
    by_contra hne
    exact hfolds ⟨raw, stat, content, raw', stat', content', hne, h, h'⟩
  subst hraw
  exact ⟨rfl, h.unique h'⟩

/-- The file read for a path is the one the disk has on it. -/
theorem pendingFile_onto {op : Op} {p : Path} {c : Pending Id}
    (h : pendingFile disk (classify disk index) op p = .ok c)
    (hpresent : ∃ raw stat content, disk.Onto (Platform.nfc Id) p raw stat content) :
    ∃ raw stat content, disk.Onto (Platform.nfc Id) p raw stat content ∧
      c.change = ⟨p, op, some (Platform.blobId content), some content.length,
        some (execBit stat)⟩ := by
  obtain ⟨stat, content, honto⟩ := @rawOf_onto _ _ disk index p hpresent
  obtain ⟨stat', content', hread, rfl⟩ := pendingFile_ok h
  have hfound := honto.1.1.read disk.wellNamed
  rw [hread] at hfound
  cases hfound
  exact ⟨_, stat, content, honto, rfl⟩

theorem gathered_describes (hsound : StatusSound disk index (classify disk index))
    (hfolds : ∀ p, ¬ disk.Folds (Platform.nfc Id) p) {c : Pending Id}
    (h : GatheredFrom sparse disk (classify disk index) c) :
    Describes sparse disk index c.change := by
  cases h with
  | deleted hdeleted =>
      obtain ⟨⟨row, hrow⟩, hgone⟩ := (hsound.deleted _).mp hdeleted
      exact .deleted hrow hgone
  | modified hmodified hread =>
      obtain ⟨row, hrow, hedit⟩ := (hsound.modified _).mp hmodified
      obtain ⟨raw, stat, content, honto, hblob⟩ := hedit.resolve_right (hfolds _)
      obtain ⟨raw', stat', content', honto', hchange⟩ :=
        pendingFile_onto hread ⟨raw, stat, content, honto⟩
      obtain ⟨-, -, rfl⟩ := honto.same (hfolds _) honto'
      rw [hchange]
      exact .modified hrow honto' hblob
  | untracked huntracked hcone hread =>
      obtain ⟨hfree, hpresent⟩ := (hsound.untracked _).mp huntracked
      obtain ⟨raw, stat, content, honto, hchange⟩ := pendingFile_onto hread hpresent
      rw [hchange]
      exact .added hfree hcone honto

/-- The change list of a commit: it says how the disk and the index differ, and
leaves out no path of the cone. -/
structure DiskChanges (sparse : List Path) (disk : Disk) (index : Index Id)
    (changes : List (FileChange Id)) : Prop where
  describes : ∀ c ∈ changes, Describes sparse disk index c
  deleted : ∀ p row, index.get p = some row →
    (¬ ∃ raw stat content, disk.Onto (Platform.nfc Id) p raw stat content) →
    ∃ c ∈ changes, c.path = p
  modified : ∀ p row raw stat content, index.get p = some row →
    disk.Onto (Platform.nfc Id) p raw stat content → Platform.blobId content ≠ row.blob →
    ∃ c ∈ changes, c.path = p
  added : ∀ p raw stat content, index.get p = none → underSparse sparse p = true →
    disk.Onto (Platform.nfc Id) p raw stat content → ∃ c ∈ changes, c.path = p

/-- The request of a commit. -/
theorem commitRequest_ok {repoName principal : String} {scope : Option String} {head : Id}
    {author message : String} {nowNs : ℕ} {req : CreateRequest Id}
    (h : commitRequest repoName principal scope head author message nowNs sparse disk index =
      .ok (some req))
    (hvisible : ¬ HiddenEdit disk index) (hfolds : ∀ p, ¬ disk.Folds (Platform.nfc Id) p) :
    req.parents = [head] ∧ DiskChanges sparse disk index req.changes := by
  have hsound := (classify_sound_iff disk index).mpr hvisible
  rw [commitRequest] at h
  split at h
  · cases h
  · cases h
  next pending hne hgather =>
  cases h
  obtain ⟨hof, hall⟩ := gatherPending_ok hgather
  have hlisted : ∀ p, (∃ c ∈ pending, c.path = p) →
      ∃ c ∈ pending.map Pending.change, c.path = p := by
    rintro p ⟨c, hc, hp⟩
    exact ⟨c.change, List.mem_map_of_mem hc, hp⟩
  refine ⟨rfl, ⟨fun c hc => ?_, fun p row hrow hgone => ?_,
    fun p row raw stat content hrow honto hedit => ?_,
    fun p raw stat content hfree hcone honto => ?_⟩⟩
  · obtain ⟨d, hd, rfl⟩ := List.mem_map.mp hc
    exact gathered_describes hsound hfolds (hof d hd)
  · exact hlisted p (hall p (.inl ((hsound.deleted p).mpr ⟨⟨row, hrow⟩, hgone⟩)))
  · exact hlisted p (hall p (.inr (.inl ((hsound.modified p).mpr
      ⟨row, hrow, .inl ⟨raw, stat, content, honto, hedit⟩⟩))))
  · exact hlisted p (hall p (.inr (.inr ⟨(hsound.untracked p).mpr
      ⟨hfree, raw, stat, content, honto⟩, hcone⟩)))

/-! ### The files they leave -/

/-- The exec bit a commit keeps for a file of the disk: an edit of the mode alone
is not seen. -/
def committedExec (index : Index Id) (p : Path) (stat : Metadata) (content : Bytes) : Bool :=
  match index.get p with
  | some row => if Platform.blobId content = row.blob then row.exec else execBit stat
  | none => execBit stat

theorem committedExec_clean {p : Path} {row : Row Id} {stat : Metadata} {content : Bytes}
    (hrow : index.get p = some row) (hblob : Platform.blobId content = row.blob) :
    committedExec index p stat content = row.exec := by
  rw [committedExec, hrow]
  dsimp only
  rw [if_pos hblob]

theorem committedExec_edited {p : Path} {row : Row Id} {stat : Metadata} {content : Bytes}
    (hrow : index.get p = some row) (hblob : Platform.blobId content ≠ row.blob) :
    committedExec index p stat content = execBit stat := by
  rw [committedExec, hrow]
  dsimp only
  rw [if_neg hblob]

theorem committedExec_new {p : Path} {stat : Metadata} {content : Bytes}
    (hfree : index.get p = none) : committedExec index p stat content = execBit stat := by
  rw [committedExec, hfree]

/-- The files of a commit: the disk on the cone, over the files of the head. -/
structure CommittedFiles (sparse : List Path) (disk : Disk) (index : Index Id)
    (head files : FileMap Id) : Prop where
  present : ∀ p raw stat content, underSparse sparse p = true →
    disk.Onto (Platform.nfc Id) p raw stat content →
    ∃ m, files p = some m ∧
      m.key = (Platform.blobId content, committedExec index p stat content)
  gone : ∀ p, (index.get p).isSome →
    (¬ ∃ raw stat content, disk.Onto (Platform.nfc Id) p raw stat content) → files p = none
  kept : ∀ p, index.get p = none →
    (underSparse sparse p = true →
      ¬ ∃ raw stat content, disk.Onto (Platform.nfc Id) p raw stat content) →
    files p = head p

/-- The index is of the cone, and each row names what the files hold there. -/
def Anchored (sparse : List Path) (index : Index Id) (files : FileMap Id) : Prop :=
  ∀ p row, index.get p = some row →
    underSparse sparse p = true ∧ ∃ m, files p = some m ∧ m.key = (row.blob, row.exec)

theorem changed_committed {changes : List (FileChange Id)} {head : FileMap Id}
    (h : DiskChanges sparse disk index changes)
    (horder : changes.Pairwise FileChange.Ordered)
    (hfolds : ∀ p, ¬ disk.Folds (Platform.nfc Id) p) (hanchor : Anchored sparse index head) :
    CommittedFiles sparse disk index head (changed changes head) := by
  refine ⟨fun p raw stat content hcone honto => ?_, fun p hsome hgone => ?_,
    fun p hnone habsent => ?_⟩
  · cases hrow : index.get p with
    | none =>
        obtain ⟨c, hc, rfl⟩ := h.added p raw stat content hrow hcone honto
        rw [changed_of_mem horder hc, committedExec_new hrow]
        cases h.describes c hc with
        | deleted hrow' => rw [hrow] at hrow'; cases hrow'
        | modified hrow' => rw [hrow] at hrow'; cases hrow'
        | added hfree' hcone' honto' =>
            obtain ⟨-, rfl, rfl⟩ := honto.same (hfolds _) honto'
            exact ⟨_, rfl, rfl⟩
    | some row =>
        by_cases hedit : Platform.blobId content = row.blob
        · have hfresh : ∀ c ∈ changes, c.path ≠ p := by
            rintro c hc rfl
            cases h.describes c hc with
            | deleted hrow' hgone => exact hgone ⟨_, _, _, honto⟩
            | modified hrow' honto' hedit' =>
                obtain ⟨-, -, rfl⟩ := honto.same (hfolds _) honto'
                rw [hrow] at hrow'
                cases hrow'
                exact hedit' hedit
            | added hfree' => rw [hrow] at hfree'; cases hfree'
          obtain ⟨-, m, hm, hkey⟩ := hanchor p row hrow
          refine ⟨m, by rw [changed_of_fresh hfresh, hm], ?_⟩
          rw [hkey, committedExec_clean hrow hedit, hedit]
        · obtain ⟨c, hc, rfl⟩ := h.modified p row raw stat content hrow honto hedit
          rw [changed_of_mem horder hc, committedExec_edited hrow hedit]
          cases h.describes c hc with
          | deleted hrow' hgone => exact absurd ⟨_, _, _, honto⟩ hgone
          | modified hrow' honto' hedit' =>
              obtain ⟨-, rfl, rfl⟩ := honto.same (hfolds _) honto'
              exact ⟨_, rfl, rfl⟩
          | added hfree' => rw [hrow] at hfree'; cases hfree'
  · obtain ⟨row, hrow⟩ := Option.isSome_iff_exists.mp hsome
    obtain ⟨c, hc, rfl⟩ := h.deleted p row hrow hgone
    rw [changed_of_mem horder hc]
    cases h.describes c hc with
    | deleted => rfl
    | modified _ honto => exact absurd ⟨_, _, _, honto⟩ hgone
    | added _ _ honto => exact absurd ⟨_, _, _, honto⟩ hgone
  · refine changed_of_fresh fun c hc hp => ?_
    subst hp
    cases h.describes c hc with
    | deleted hrow => rw [hrow] at hnone; cases hnone
    | modified hrow => rw [hrow] at hnone; cases hnone
    | added _ hcone honto => exact habsent hcone ⟨_, _, _, honto⟩

/-! ### The server's side -/

omit [Platform Id] in
/-- Two loaders that agree where both succeed load an entry alike. -/
theorem entryLoaded_unique {load load' : Id → Except (DeriveError Id) (MemNode Id)}
    (hload : ∀ id node node', load id = .ok node → load' id = .ok node' → node = node')
    {e : TreeEntry Id} {entry entry' : MemEntry Id} (h : EntryLoaded load e entry)
    (h' : EntryLoaded load' e entry') : entry = entry' := by
  cases h with
  | file hkind =>
      cases h' with
      | file => rfl
      | dir child hkind' => rw [hkind] at hkind'; cases hkind'
  | dir child hkind hchild =>
      cases h' with
      | file hkind' => rw [hkind] at hkind'; cases hkind'
      | dir child' _ hchild' => rw [hload _ _ _ hchild hchild']

omit [Platform Id] in
/-- So they load the entries alike. -/
theorem loadEntries_unique {load load' : Id → Except (DeriveError Id) (MemNode Id)}
    (hload : ∀ id node node', load id = .ok node → load' id = .ok node' → node = node')
    {es : List (TreeEntry Id)} {node node' : MemNode Id} (h : loadEntries load es = .ok node)
    (h' : loadEntries load' es = .ok node') : node = node' := by
  induction es generalizing node node' with
  | nil => exact Except.ok.inj (h.symm.trans h')
  | cons e es ih =>
      obtain ⟨entry, rest, hentry, hrest, rfl⟩ := loadEntries_cons.mp h
      obtain ⟨entry', rest', hentry', hrest', rfl⟩ := loadEntries_cons.mp h'
      rw [entryLoaded_unique hload hentry hentry', ih hrest hrest']

/-- Two stores of addressed rows load an id to one node. -/
theorem loadNode_unique {a b : List (TreeRow Id)} (ha : TreesWf a) (hb : TreesWf b) {k k' : ℕ}
    {id : Id} {node node' : MemNode Id} (h : loadNode a k id = .ok node)
    (h' : loadNode b k' id = .ok node') : node = node' := by
  induction k generalizing k' id node node' with
  | zero => cases h
  | succ k ih =>
      cases k' with
      | zero => cases h'
      | succ k' =>
          obtain ⟨row, hrow, hentries⟩ := loadNode_succ.mp h
          obtain ⟨row', hrow', hentries'⟩ := loadNode_succ.mp h'
          obtain ⟨hmem, hid⟩ := treeGet_some hrow
          obtain ⟨hmem', hid'⟩ := treeGet_some hrow'
          have hsame := (ha.rows row hmem).eq (hb.rows row' hmem') (hid.trans hid'.symm)
          subst hsame
          exact loadEntries_unique (fun _ _ _ hn hn' => ih hn hn') hentries hentries'

open Server in
/-- The files of a created changeset: those of the head with the change list over
them, whatever was written between the lookup and the write. -/
theorem create_files_of_reach {ok : Server Id → Event Id → Prop} {s₀ s₁ : Server Id}
    (h : Reach ok s₀) (hlater : Lib.Later step ok s₀ s₁) {r : RepoId} (hr : r ∈ s₀.repoIds)
    {head : Id} {row : ChangesetRow Id} (hrow : changesetGet (s₀.dbs r) head = some row)
    {req : CreateRequest Id} (hparents : req.parents = [head]) {metas : ParentMetas Id}
    (hlookup : createLookup (s₀.dbs r) req = .ok metas) {clock : ℕ} {p : PreparedCreate Id}
    (hprepare : createPrepare r clock req metas = .ok p) {done : ChangesetCreated Id}
    {cx' : RepoCx Id} (hpersist : persist (s₁.cx r) p = .ok (done, cx'))
    (hdirs : ∀ node, MemNode.load (s₀.cx r).trees (some row.rootTreeId) = .ok node →
      ∀ c ∈ req.changes, c.op = .add → ¬ MemEntry.IsDir (node.lookup c.path)) :
    req.changes.Pairwise FileChange.Ordered ∧
      changesetFiles cx' done.id = changed req.changes (changesetFiles (s₀.cx r) head) := by
  have hwf₀ := treesWf_of_reach h (s₀.file r)
  have hwf₁ := treesWf_of_reach (h.later hlater) (s₁.file r)
  obtain ⟨node, hnode⟩ := (trees_held_of_reach h).roots r hr row (changesetGet_some hrow).1
  obtain ⟨-, -, hmetas⟩ := createLookup_ok hlookup
  obtain ⟨hcs, -, hparent⟩ := createPrepare_ok hprepare
  rw [hparents, List.filterMap_cons, hrow] at hmetas
  have hroot : p.parentRoot = some row.rootTreeId := by
    rw [hparent, hmetas]
    rfl
  obtain ⟨w, -⟩ := persist_root hpersist
  have hload : w.parent = node := by
    have hloaded := w.parent_ok
    rw [hroot] at hloaded
    exact loadNode_unique hwf₁ hwf₀ hloaded hnode
  have hsorted := load_sorted hwf₀ hnode
  have hlist : p.canonical.cs.changes = req.changes := congrArg Changeset.changes hcs
  have horder := p.canonical.ordered
  have happly := w.apply_ok
  rw [hload, hlist] at happly
  rw [hlist] at horder
  have happlied := apply_applied hsorted horder (hdirs node hnode) happly
  obtain ⟨hfresh, hcx⟩ := changesetInsertRows_some w.insert_ok
  have hstored := changesetGet_append_new (changesetInsertRows_rows w.insert_ok) hfresh
  have hcollected : MemNode.load cx'.trees (some w.rootTreeId) = .ok w.node := by
    rw [show cx'.trees = treesInsert (s₁.cx r).trees w.trees from
      congrArg (fun cx => cx.trees) hcx]
    exact load_collect w.collect_ok hwf₁
  refine ⟨horder, ?_⟩
  rw [(persist_done hpersist).1, @changesetFiles_load _ _ cx' p.csId _ _ hstored hcollected,
    @changesetFiles_load _ _ (s₀.cx r) head row node hrow hnode]
  funext q
  have hbefore : (fun q => MemEntry.toFile (node.lookup q)) = filesAt node :=
    funext fun q => (filesAt_eq_lookup hsorted q).symm
  rw [filesAt_eq_lookup happlied.sorted, happlied.files, hbefore]

/-- No new file of the disk stands where the tree has a directory. -/
def NoFileOverDir (disk : Disk) (index : Index Id) (node : MemNode Id) : Prop :=
  ∀ p raw stat content, index.get p = none → disk.Onto (Platform.nfc Id) p raw stat content →
    ¬ MemEntry.IsDir (node.lookup p)

theorem DiskChanges.no_dir {changes : List (FileChange Id)}
    (h : DiskChanges sparse disk index changes) {node : MemNode Id}
    (hdirs : NoFileOverDir disk index node) {c : FileChange Id} (hc : c ∈ changes)
    (hop : c.op = .add) : ¬ MemEntry.IsDir (node.lookup c.path) := by
  cases h.describes c hc with
  | deleted => cases hop
  | modified => cases hop
  | added hfree _ honto => exact hdirs _ _ _ _ hfree honto

open Server in
/-- A commit whose status hides no edit and folds no path, from an index anchored
to the head, with any server steps between the lookup and the write: the new
changeset has the disk on the cone and the head's files elsewhere. -/
theorem commit_exact_of_reach {ok : Server Id → Event Id → Prop} {s₀ s₁ : Server Id}
    (h : Reach ok s₀) (hlater : Lib.Later step ok s₀ s₁) {r : RepoId} (hr : r ∈ s₀.repoIds)
    {head : Id} {row : ChangesetRow Id} (hrow : changesetGet (s₀.dbs r) head = some row)
    {repoName principal : String} {scope : Option String} {author message : String}
    {nowNs : ℕ} {req : CreateRequest Id}
    (hrequest : commitRequest repoName principal scope head author message nowNs sparse disk
      index = .ok (some req)) {metas : ParentMetas Id}
    (hlookup : createLookup (s₀.dbs r) req = .ok metas) {clock : ℕ} {p : PreparedCreate Id}
    (hprepare : createPrepare r clock req metas = .ok p) {done : ChangesetCreated Id}
    {cx' : RepoCx Id} (hpersist : persist (s₁.cx r) p = .ok (done, cx'))
    (hvisible : ¬ HiddenEdit disk index) (hfolds : ∀ q, ¬ disk.Folds (Platform.nfc Id) q)
    (hanchor : Anchored sparse index (changesetFiles (s₀.cx r) head))
    (hdirs : ∀ node, MemNode.load (s₀.cx r).trees (some row.rootTreeId) = .ok node →
      NoFileOverDir disk index node) :
    CommittedFiles sparse disk index (changesetFiles (s₀.cx r) head)
      (changesetFiles cx' done.id) := by
  obtain ⟨hparents, hchanges⟩ := commitRequest_ok hrequest hvisible hfolds
  obtain ⟨horder, hfiles⟩ := create_files_of_reach h hlater hr hrow hparents hlookup hprepare
    hpersist fun node hnode c hc hop => hchanges.no_dir (hdirs node hnode) hc hop
  rw [hfiles]
  exact changed_committed hchanges horder hfolds hanchor

end

/-! ### A commit of an edit and a new file -/

namespace EditCommitted

open Server.StaleTip

def stat (nsec : ℤ) : Metadata := ⟨2, ⟨0, nsec⟩, ⟨0, nsec⟩, 0, 0o644⟩

/-- The file of the import, edited, and a new one. -/
def disk : Disk :=
  ⟨.entry (.ok "a") (.file (stat 1) [98, 10]) (.entry (.ok "n") (.file (stat 2) [99, 10]) .empty),
    by simp [DiskDir.wellNamed, DiskNode.wellNamed, DiskDir.names, OsName.legal]⟩

def index : Index PlainId :=
  ⟨[(⟨[], "a"⟩, .fromStat ⟨[], "a"⟩ (Platform.blobId [97, 10]) (stat 0))], by simp⟩

/-- What a commit on top of the import came to. -/
structure CommitRun (s : Server PlainId) where
  pending : List (Pending PlainId)
  req : CreateRequest PlainId
  metas : ParentMetas PlainId
  p : PreparedCreate PlainId
  done : ChangesetCreated PlainId
  cx' : RepoCx PlainId
  gathered : gatherPending [] disk (classify disk index) = .ok pending
  request : commitRequest "r" "ann" none (lastOf imported) "ann" "edit" 7 [] disk index =
    .ok (some req)
  lookup : createLookup (s.dbs 1) req = .ok metas
  prepare : createPrepare 1 7 req metas = .ok p
  persisted : persist (s.cx 1) p = .ok (done, cx')

def ran (s : Server PlainId) : Option (CommitRun s) :=
  match hgather : gatherPending [] disk (classify disk index) with
  | .error _ => none
  | .ok pending =>
  match hrequest :
      commitRequest "r" "ann" none (lastOf imported) "ann" "edit" 7 [] disk index with
  | .error _ | .ok none => none
  | .ok (some req) =>
  match hlookup : createLookup (s.dbs 1) req with
  | .error _ => none
  | .ok metas =>
  match hprepare : createPrepare 1 7 req metas with
  | .error _ => none
  | .ok p =>
  match hpersist : persist (s.cx 1) p with
  | .error _ => none
  | .ok (done, cx') =>
      some ⟨pending, req, metas, p, done, cx', hgather, hrequest, hlookup, hprepare, hpersist⟩

theorem disk_files {raw : Path} {meta' : Metadata} {content : Bytes}
    (h : disk.HasFile raw meta' content) :
    (raw = ⟨[], "a"⟩ ∧ meta' = stat 1) ∨ (raw = ⟨[], "n"⟩ ∧ meta' = stat 2) := by
  obtain ⟨hfile, -⟩ := h
  cases hfile with
  | here => exact .inl ⟨rfl, rfl⟩
  | later h =>
      cases h with
      | here => exact .inr ⟨rfl, rfl⟩
      | later h => cases h

theorem index_row {p : Path} {row : Row PlainId} (h : index.get p = some row) :
    p = ⟨[], "a"⟩ ∧ row = .fromStat ⟨[], "a"⟩ (Platform.blobId [97, 10]) (stat 0) := by
  have hmem := Index.get_iff.mp h
  simpa [index] using hmem

theorem normal_a : normalized (Platform.nfc PlainId) ⟨[], "a"⟩ = ⟨[], "a"⟩ := by decide +kernel

theorem normal_n : normalized (Platform.nfc PlainId) ⟨[], "n"⟩ = ⟨[], "n"⟩ := by decide +kernel

theorem not_hidden : ¬ HiddenEdit disk index := by
  rintro ⟨p, row, raw, meta', content, hrow, ⟨hfile, -⟩, -, hstat, -⟩
  obtain ⟨-, rfl⟩ := index_row hrow
  rcases disk_files hfile with ⟨-, rfl⟩ | ⟨-, rfl⟩
  · exact absurd hstat (by decide)
  · exact absurd hstat (by decide)

theorem no_folds (q : Path) : ¬ disk.Folds (Platform.nfc PlainId) q := by
  rintro ⟨raw, _, _, raw', _, _, hne, ⟨hfile, hnorm⟩, ⟨hfile', hnorm'⟩⟩
  rcases disk_files hfile with ⟨rfl, -⟩ | ⟨rfl, -⟩ <;>
    rcases disk_files hfile' with ⟨rfl, -⟩ | ⟨rfl, -⟩
  · exact hne rfl
  · rw [normal_a] at hnorm
    rw [normal_n, ← hnorm] at hnorm'
    exact absurd hnorm' (by decide)
  · rw [normal_n] at hnorm
    rw [normal_a, ← hnorm] at hnorm'
    exact absurd hnorm' (by decide)
  · exact hne rfl

/-- What makes the commit one that the theorems speak of. -/
structure Ready (s : Server PlainId) : Prop where
  reach : Server.Reach (fun _ _ => True) s
  repo : 1 ∈ s.repoIds
  head : ∃ row, changesetGet (s.dbs 1) (lastOf imported) = some row ∧
    ∀ node, MemNode.load (s.cx 1).trees (some row.rootTreeId) = .ok node →
      NoFileOverDir disk index node
  anchored : Anchored [] index (changesetFiles (s.cx 1) (lastOf imported))

theorem ran_ready : ∃ s, ∃ _ : CommitRun s,
    Lib.exec Server.step start imported = some s ∧ Ready s := by
  have hrun : (Lib.exec Server.step start imported).any (fun s => decide (1 ∈ s.repoIds) &&
      (ran s).isSome &&
      decide (((rootFiles (s.cx 1) (lastOf imported)).lookup ⟨[], "a"⟩).map FileMeta.key =
        some (Platform.blobId [97, 10], false)) &&
      (changesetGet (s.dbs 1) (lastOf imported)).any fun row =>
        (MemNode.load (s.cx 1).trees (some row.rootTreeId)).toOption.any fun node =>
          (node.lookup ⟨[], "n"⟩).isNone) = true := by
    decide +kernel
  obtain ⟨s, hs, hall⟩ := (Option.any_eq_true _ _).mp hrun
  simp only [Bool.and_eq_true, decide_eq_true_eq] at hall
  obtain ⟨⟨⟨hrepo, hran⟩, hkey⟩, hhead⟩ := hall
  obtain ⟨run, -⟩ := Option.isSome_iff_exists.mp hran
  obtain ⟨row, hrow, hloaded⟩ := (Option.any_eq_true _ _).mp hhead
  obtain ⟨m, hm, hmkey⟩ := Option.map_eq_some_iff.mp hkey
  refine ⟨s, run, hs, ⟨?_, hrepo, ⟨row, hrow, fun node hnode => ?_⟩, fun p r hr => ?_⟩⟩
  · exact Lib.Reach.exec (.start ⟨.dbPerRepo, [(1, "r")], 100, 10, by decide, rfl⟩) (by simp) hs
  · rw [hnode] at hloaded
    rintro p raw meta' content hfree ⟨hfile, rfl⟩ hdir
    rcases disk_files hfile with ⟨rfl, -⟩ | ⟨rfl, -⟩
    · rw [normal_a] at hfree
      cases hfree
    · rw [normal_n] at hdir
      obtain ⟨child, hchild⟩ := hdir
      rw [Except.toOption, Option.any_some, hchild] at hloaded
      cases hloaded
  · obtain ⟨rfl, rfl⟩ := index_row hr
    exact ⟨rfl, m, hm, hmkey⟩

end EditCommitted

open Server.StaleTip EditCommitted in
/-- The commit of an edited file and a new one on top of the import. -/
theorem commit_exact_of_reach_edited : ∃ s, ∃ run : CommitRun s,
    Lib.exec Server.step start imported = some s ∧
      CommittedFiles [] disk index (changesetFiles (s.cx 1) (lastOf imported))
        (changesetFiles run.cx' run.done.id) := by
  obtain ⟨s, run, hs, hready⟩ := ran_ready
  obtain ⟨row, hrow, hdirs⟩ := hready.head
  exact ⟨s, run, hs, commit_exact_of_reach hready.reach .refl hready.repo hrow run.request
    run.lookup run.prepare run.persisted not_hidden no_folds hready.anchored hdirs⟩

end Naatre.Client
