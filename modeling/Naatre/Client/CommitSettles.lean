import Naatre.Client.CommitExact

/-!
What a commit leaves in the index. Each committed path gets the row of the file
that was sent, or none where it was deleted, and every other row stays. So the
index is anchored to the new changeset as it was to the head, and a status taken
on the same disk finds nothing more to commit.
-/

namespace Naatre.Client

section

variable {Id : Type}

/-! ### Rows by their paths -/

/-- The rows' paths are read off their texts. -/
def Index.Split (index : Index Id) : Prop := ∀ e ∈ index.rows, Path.ofText e.1.text = e.1

theorem Index.mem_insert {index : Index Id} {p : Path} {row : Row Id} {e : Path × Row Id} :
    e ∈ (index.insert p row).rows ↔ e = (p, row) ∨ (e ∈ index.rows ∧ e.1.text ≠ p.text) := by
  have hascends : Lib.Ascends (index.rows.map keyed) := List.pairwise_map.mpr index.ascending
  rw [Index.insert, List.mem_map]
  constructor
  · rintro ⟨x, hx, rfl⟩
    rcases (Lib.mem_sortedInsert hascends).mp hx with rfl | ⟨hx, hne⟩
    · exact .inl rfl
    · obtain ⟨y, hy, rfl⟩ := List.mem_map.mp hx
      exact .inr ⟨hy, hne⟩
  · rintro (rfl | ⟨he, hne⟩)
    · exact ⟨_, (Lib.mem_sortedInsert hascends).mpr (.inl rfl), rfl⟩
    · exact ⟨keyed e, (Lib.mem_sortedInsert hascends).mpr
        (.inr ⟨List.mem_map_of_mem he, hne⟩), rfl⟩

theorem Index.mem_remove {index : Index Id} {p : Path} {e : Path × Row Id} :
    e ∈ (index.remove p).rows ↔ e ∈ index.rows ∧ e.1.text ≠ p.text := by
  rw [Index.remove, List.mem_filter, decide_eq_true_eq]

theorem Index.Split.insert {index : Index Id} (h : index.Split) {p : Path}
    (hp : Path.ofText p.text = p) {row : Row Id} : (index.insert p row).Split := by
  intro e he
  rcases Index.mem_insert.mp he with rfl | ⟨he, -⟩
  · exact hp
  · exact h e he

theorem Index.Split.remove {index : Index Id} (h : index.Split) {p : Path} :
    (index.remove p).Split := fun e he => h e (Index.mem_remove.mp he).1

theorem Index.Split.text_ne {index : Index Id} (h : index.Split) {p : Path}
    (hp : Path.ofText p.text = p) {e : Path × Row Id} (he : e ∈ index.rows) (hne : e.1 ≠ p) :
    e.1.text ≠ p.text := by
  intro heq
  rw [← h e he, heq, hp] at hne
  exact hne rfl

theorem Index.Split.get_insert {index : Index Id} (h : index.Split) {p : Path}
    (hp : Path.ofText p.text = p) {row : Row Id} (q : Path) :
    (index.insert p row).get q = if q = p then some row else index.get q := by
  split_ifs with hq
  · exact Index.get_iff.mpr (Index.mem_insert.mpr (.inl (by rw [hq])))
  · refine Option.ext fun r => ?_
    rw [Index.get_iff, Index.get_iff, Index.mem_insert]
    constructor
    · rintro (heq | ⟨hmem, -⟩)
      · exact absurd (congrArg Prod.fst heq) hq
      · exact hmem
    · exact fun hmem => .inr ⟨hmem, h.text_ne hp hmem hq⟩

theorem Index.Split.get_remove {index : Index Id} (h : index.Split) {p : Path}
    (hp : Path.ofText p.text = p) (q : Path) :
    (index.remove p).get q = if q = p then none else index.get q := by
  split_ifs with hq
  · rw [Option.eq_none_iff_forall_ne_some]
    intro r hr
    refine (Index.mem_remove.mp (Index.get_iff.mp hr)).2 ?_
    rw [hq]
  · refine Option.ext fun r => ?_
    rw [Index.get_iff, Index.get_iff, Index.mem_remove]
    exact ⟨And.left, fun hmem => ⟨hmem, h.text_ne hp hmem hq⟩⟩

end

section

variable {Id : Type} [Platform Id] {sparse : List Path} {disk : Disk} {index : Index Id}

/-! ### The rows of the committed paths -/

/-- The row of a committed path: of the file the disk has there, or none. -/
structure RowOf (disk : Disk) (p : Path) (found : Option (Row Id)) : Prop where
  present : ∀ raw stat content, disk.Onto (Platform.nfc Id) p raw stat content →
    found = some (.fromStat p (Platform.blobId content) stat)
  gone : (¬ ∃ raw stat content, disk.Onto (Platform.nfc Id) p raw stat content) → found = none

omit [Platform Id] in
theorem Disk.Onto.split {nfc : String → String} {p raw : Path} {stat : Metadata} {content : Bytes}
    (h : disk.Onto nfc p raw stat content) : Path.ofText p.text = p := by
  rw [← h.2, normalized, Path.text_ofText]

/-- What one committed path does to the index. -/
theorem settleOne_ok {at₀ : Index Id} (hsplit : at₀.Split)
    (hsound : StatusSound disk index (classify disk index))
    (hfolds : ∀ p, ¬ disk.Folds (Platform.nfc Id) p) (hindex : index.Split) {c : Pending Id}
    (h : GatheredFrom sparse disk (classify disk index) c) :
    ∃ at₁, settleOne disk at₀ c = .ok at₁ ∧ at₁.Split ∧ RowOf disk c.path (at₁.get c.path) ∧
      ∀ q, q ≠ c.path → at₁.get q = at₀.get q := by
  -- an add or a mod reads again the file it sent
  have hfile : ∀ op p, op ≠ .del → pendingFile disk (classify disk index) op p = .ok c →
      (∃ raw stat content, disk.Onto (Platform.nfc Id) p raw stat content) →
      ∃ at₁, settleOne disk at₀ c = .ok at₁ ∧ at₁.Split ∧ RowOf disk c.path (at₁.get c.path) ∧
        ∀ q, q ≠ c.path → at₁.get q = at₀.get q := by
    intro op p hop hread hpresent
    obtain ⟨stat, content, honto⟩ := @rawOf_onto _ _ disk index p hpresent
    obtain ⟨stat', content', hfound, rfl⟩ := pendingFile_ok hread
    have hagain := honto.1.1.read disk.wellNamed
    rw [hfound] at hagain
    cases hagain
    refine ⟨at₀.insert p (.fromStat p (Platform.blobId content) stat), ?_,
      hsplit.insert honto.split, ⟨fun raw stat' content' honto' => ?_, fun hgone => ?_⟩,
      fun q hq => ?_⟩
    · cases op with
      | del => exact absurd rfl hop
      | add => simp only [settleOne, hfound]
      | mod => simp only [settleOne, hfound]
    · obtain ⟨-, rfl, rfl⟩ := honto.same (hfolds p) honto'
      rw [hsplit.get_insert honto.split, if_pos rfl]
    · exact absurd ⟨_, _, _, honto⟩ hgone
    · rw [hsplit.get_insert honto.split, if_neg hq]
  cases h with
  | @deleted path hdeleted =>
      obtain ⟨⟨row, hrow⟩, hgone⟩ := (hsound.deleted _).mp hdeleted
      have hpath := hindex _ (Index.get_iff.mp hrow)
      refine ⟨at₀.remove path, rfl, hsplit.remove, ⟨fun raw stat content honto => ?_, fun _ => ?_⟩,
        fun q hq => ?_⟩
      · exact absurd ⟨_, _, _, honto⟩ hgone
      · exact (hsplit.get_remove hpath _).trans (if_pos rfl)
      · exact (hsplit.get_remove hpath _).trans (if_neg hq)
  | modified hmodified hread =>
      obtain ⟨row, hrow, hedit⟩ := (hsound.modified _).mp hmodified
      obtain ⟨raw, stat, content, honto, -⟩ := hedit.resolve_right (hfolds _)
      exact hfile .mod _ (by decide) hread ⟨raw, stat, content, honto⟩
  | untracked huntracked hcone hread =>
      obtain ⟨-, hpresent⟩ := (hsound.untracked _).mp huntracked
      exact hfile .add _ (by decide) hread hpresent

/-- The index after a commit: the rows of the committed paths over the old
ones. -/
theorem settleIndex_ok (hsound : StatusSound disk index (classify disk index))
    (hfolds : ∀ p, ¬ disk.Folds (Platform.nfc Id) p) (hindex : index.Split)
    {pending : List (Pending Id)}
    (h : ∀ c ∈ pending, GatheredFrom sparse disk (classify disk index) c) {at₀ : Index Id}
    (hsplit : at₀.Split) :
    ∃ at₁, settleIndex disk at₀ pending = .ok at₁ ∧ at₁.Split ∧
      (∀ c ∈ pending, RowOf disk c.path (at₁.get c.path)) ∧
      ∀ q, (∀ c ∈ pending, c.path ≠ q) → at₁.get q = at₀.get q := by
  induction pending generalizing at₀ with
  | nil => exact ⟨at₀, rfl, hsplit, fun c hc => absurd hc List.not_mem_nil, fun q _ => rfl⟩
  | cons c pending ih =>
      obtain ⟨mid, hmid, hmidSplit, hrow, hother⟩ :=
        settleOne_ok hsplit hsound hfolds hindex (h c List.mem_cons_self)
      obtain ⟨at₁, hat, hatSplit, hrows, hothers⟩ :=
        ih (fun d hd => h d (List.mem_cons_of_mem _ hd)) hmidSplit
      refine ⟨at₁, ?_, hatSplit, fun d hd => ?_, fun q hq => ?_⟩
      · rw [settleIndex, List.foldlM_cons, hmid]
        exact hat
      · rcases List.mem_cons.mp hd with rfl | hd
        · -- a later entry of the same path wrote the same row
          by_cases hlater : ∃ d' ∈ pending, d'.path = d.path
          · obtain ⟨d', hd', heq⟩ := hlater
            exact heq ▸ hrows d' hd'
          · rw [hothers d.path fun d' hd' heq => hlater ⟨d', hd', heq⟩]
            exact hrow
        · exact hrows d hd
      · rw [hothers q fun d hd => hq d (List.mem_cons_of_mem _ hd),
          hother q fun heq => hq c List.mem_cons_self heq.symm]

/-! ### The settled checkout -/

/-- A status with nothing to commit. -/
structure NothingPending (sparse : List Path) (report : Report) : Prop where
  modified : report.modified = []
  deleted : report.deleted = []
  untracked : ∀ p ∈ report.untracked, underSparse sparse p = false

/-- An index that took over the committed rows. -/
structure Settled (disk : Disk) (index settled : Index Id) (changes : List (FileChange Id)) :
    Prop where
  rows : ∀ c ∈ changes, RowOf disk c.path (settled.get c.path)
  others : ∀ p, (∀ c ∈ changes, c.path ≠ p) → settled.get p = index.get p

variable {settled : Index Id} {changes : List (FileChange Id)}

/-- A path with a file has the row of that file, or an old row of its content. -/
theorem Settled.present (h : Settled disk index settled changes)
    (hchanges : DiskChanges sparse disk index changes) {p raw : Path} {stat : Metadata}
    {content : Bytes} {row : Row Id} (hrow : settled.get p = some row)
    (honto : disk.Onto (Platform.nfc Id) p raw stat content) :
    Platform.blobId content = row.blob := by
  by_cases hlisted : ∃ c ∈ changes, c.path = p
  · obtain ⟨c, hc, rfl⟩ := hlisted
    rw [(h.rows c hc).present raw stat content honto] at hrow
    cases hrow
    rfl
  · have hfresh : ∀ c ∈ changes, c.path ≠ p := fun c hc heq => hlisted ⟨c, hc, heq⟩
    rw [h.others p hfresh] at hrow
    by_contra hedit
    exact hlisted (hchanges.modified p row raw stat content hrow honto hedit)

theorem Settled.not_hidden (h : Settled disk index settled changes)
    (hchanges : DiskChanges sparse disk index changes) : ¬ HiddenEdit disk settled := by
  rintro ⟨p, row, raw, stat, content, hrow, honto, -, -, hblob⟩
  exact hblob (h.present hchanges hrow honto)

theorem Settled.nothing_pending (h : Settled disk index settled changes)
    (hchanges : DiskChanges sparse disk index changes)
    (hfolds : ∀ p, ¬ disk.Folds (Platform.nfc Id) p) :
    NothingPending sparse (classify disk settled) := by
  have hsound := (classify_sound_iff disk settled).mpr (h.not_hidden hchanges)
  refine ⟨List.eq_nil_iff_forall_not_mem.mpr fun p hp => ?_,
    List.eq_nil_iff_forall_not_mem.mpr fun p hp => ?_, fun p hp => ?_⟩
  · obtain ⟨row, hrow, hedit⟩ := (hsound.modified p).mp hp
    obtain ⟨raw, stat, content, honto, hblob⟩ := hedit.resolve_right (hfolds p)
    exact hblob (h.present hchanges hrow honto)
  · obtain ⟨⟨row, hrow⟩, hgone⟩ := (hsound.deleted p).mp hp
    by_cases hlisted : ∃ c ∈ changes, c.path = p
    · obtain ⟨c, hc, rfl⟩ := hlisted
      rw [(h.rows c hc).gone hgone] at hrow
      cases hrow
    · rw [h.others p fun c hc heq => hlisted ⟨c, hc, heq⟩] at hrow
      exact hlisted (hchanges.deleted p row hrow hgone)
  · obtain ⟨hfree, raw, stat, content, honto⟩ := (hsound.untracked p).mp hp
    by_contra hcone
    by_cases hlisted : ∃ c ∈ changes, c.path = p
    · obtain ⟨c, hc, rfl⟩ := hlisted
      rw [(h.rows c hc).present raw stat content honto] at hfree
      cases hfree
    · rw [h.others p fun c hc heq => hlisted ⟨c, hc, heq⟩] at hfree
      exact hlisted (hchanges.added p raw stat content hfree (by simpa using hcone) honto)

/-- The rows name what the new changeset holds. -/
theorem Settled.anchored (h : Settled disk index settled changes)
    (hchanges : DiskChanges sparse disk index changes)
    (horder : changes.Pairwise FileChange.Ordered) {head : FileMap Id}
    (hanchor : Anchored sparse index head) : Anchored sparse settled (changed changes head) := by
  intro p row hrow
  by_cases hlisted : ∃ c ∈ changes, c.path = p
  · obtain ⟨c, hc, rfl⟩ := hlisted
    have hrowOf := h.rows c hc
    rw [changed_of_mem horder hc]
    cases hchanges.describes c hc with
    | deleted _ hgone =>
        rw [hrowOf.gone hgone] at hrow
        cases hrow
    | modified hold honto =>
        rw [hrowOf.present _ _ _ honto] at hrow
        cases hrow
        exact ⟨(hanchor _ _ hold).1, _, rfl, rfl⟩
    | added _ hcone honto =>
        rw [hrowOf.present _ _ _ honto] at hrow
        cases hrow
        exact ⟨hcone, _, rfl, rfl⟩
  · have hfresh : ∀ c ∈ changes, c.path ≠ p := fun c hc heq => hlisted ⟨c, hc, heq⟩
    rw [h.others p hfresh] at hrow
    rw [changed_of_fresh hfresh]
    exact hanchor p row hrow

open Server in
/-- After a commit that went through, from an index anchored to the head: the
verb's index update goes through, the new index is anchored to the new
changeset, and on the same disk it hides no edit and leaves nothing to commit. -/
theorem commit_settles_of_reach {ok : Server Id → Event Id → Prop} {s₀ s₁ : Server Id}
    (h : Reach ok s₀) (hlater : Lib.Later step ok s₀ s₁) {r : RepoId} (hr : r ∈ s₀.repoIds)
    {head : Id} {row : ChangesetRow Id} (hrow : changesetGet (s₀.dbs r) head = some row)
    {pending : List (Pending Id)}
    (hgather : gatherPending sparse disk (classify disk index) = .ok pending)
    {repoName principal : String} {scope : Option String} {author message : String}
    {nowNs : ℕ} {req : CreateRequest Id}
    (hrequest : commitRequest repoName principal scope head author message nowNs sparse disk
      index = .ok (some req)) {metas : ParentMetas Id}
    (hlookup : createLookup (s₀.dbs r) req = .ok metas) {clock : ℕ} {p : PreparedCreate Id}
    (hprepare : createPrepare r clock req metas = .ok p) {done : ChangesetCreated Id}
    {cx' : RepoCx Id} (hpersist : persist (s₁.cx r) p = .ok (done, cx'))
    (hvisible : ¬ HiddenEdit disk index) (hfolds : ∀ q, ¬ disk.Folds (Platform.nfc Id) q)
    (hsplit : index.Split) (hanchor : Anchored sparse index (changesetFiles (s₀.cx r) head))
    (hdirs : ∀ node, MemNode.load (s₀.cx r).trees (some row.rootTreeId) = .ok node →
      NoFileOverDir disk index node) :
    ∃ settled, settleIndex disk index pending = .ok settled ∧ settled.Split ∧
      Anchored sparse settled (changesetFiles cx' done.id) ∧ ¬ HiddenEdit disk settled ∧
      NothingPending sparse (classify disk settled) := by
  obtain ⟨hparents, hchanges⟩ := commitRequest_ok hrequest hvisible hfolds
  obtain ⟨horder, hfiles⟩ := create_files_of_reach h hlater hr hrow hparents hlookup hprepare
    hpersist fun node hnode c hc hop => hchanges.no_dir (hdirs node hnode) hc hop
  have hsound := (classify_sound_iff disk index).mpr hvisible
  obtain ⟨hgathered, -⟩ := gatherPending_ok hgather
  obtain ⟨settled, hsettle, hsettledSplit, hrows, hothers⟩ :=
    settleIndex_ok hsound hfolds hsplit hgathered hsplit
  have hlist : req.changes = pending.map Pending.change := by
    rw [commitRequest, hgather] at hrequest
    cases pending with
    | nil => cases hrequest
    | cons c pending =>
        cases hrequest
        rfl
  have hsettled : Settled disk index settled req.changes := by
    rw [hlist]
    refine ⟨fun c hc => ?_, fun q hq => hothers q fun c hc => hq _ (List.mem_map_of_mem hc)⟩
    obtain ⟨d, hd, rfl⟩ := List.mem_map.mp hc
    exact hrows d hd
  refine ⟨settled, hsettle, hsettledSplit, ?_, hsettled.not_hidden hchanges,
    hsettled.nothing_pending hchanges hfolds⟩
  rw [hfiles]
  exact hsettled.anchored hchanges horder hanchor

end

theorem EditCommitted.index_split : EditCommitted.index.Split := by
  intro e he
  rw [List.mem_singleton.mp he]
  decide +kernel

open Server.StaleTip EditCommitted in
/-- After the commit of the edit and the new file nothing is left to commit. -/
theorem commit_settles_of_reach_edited : ∃ s, ∃ run : CommitRun s, ∃ settled : Index PlainId,
    Lib.exec Server.step start imported = some s ∧
      settleIndex disk index run.pending = .ok settled ∧
      Anchored [] settled (changesetFiles run.cx' run.done.id) ∧
      NothingPending [] (classify disk settled) := by
  obtain ⟨s, run, hs, hready⟩ := ran_ready
  obtain ⟨row, hrow, hdirs⟩ := hready.head
  obtain ⟨settled, hsettle, -, hanchored, -, hnothing⟩ :=
    commit_settles_of_reach hready.reach .refl hready.repo hrow run.gathered run.request run.lookup
      run.prepare run.persisted not_hidden no_folds index_split hready.anchored hdirs
  exact ⟨s, run, settled, hs, hsettle, hanchored, hnothing⟩

end Naatre.Client
