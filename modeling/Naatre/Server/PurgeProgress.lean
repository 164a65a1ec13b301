import Mathlib.Algebra.Order.BigOperators.Group.List
import Naatre.Server.GcProgress
import Naatre.Server.TombstoneGate

/-!
Progress of the redaction purge. Its second phase takes the 256 oldest blob
tombstones of the store and filters them afterwards, so it gets to a blob only
where every page of tombstones before can be purged as a whole.
-/

namespace Naatre

section

variable {Id : Type} [Platform Id]

namespace Server

/-! ### Work lists -/

instance : Std.Total (fun a b : Id × ℕ => generationBefore a b = true) := ⟨fun a b => by
  simp only [generationBefore, Bool.or_eq_true, Bool.and_eq_true, decide_eq_true_eq]
  rcases Nat.lt_trichotomy a.2 b.2 with h | h | h
  · exact .inl (.inl h)
  · rcases le_total a.1 b.1 with hle | hle
    · exact .inl (.inr ⟨h, hle⟩)
    · exact .inr (.inr ⟨h.symm, hle⟩)
  · exact .inr (.inl h)⟩

instance : IsTrans (Id × ℕ) (fun a b => generationBefore a b = true) := ⟨fun a b c hab hbc => by
  simp only [generationBefore, Bool.or_eq_true, Bool.and_eq_true, decide_eq_true_eq] at hab hbc ⊢
  rcases hab with hab | ⟨hab, hle⟩ <;> rcases hbc with hbc | ⟨hbc, hle'⟩
  · exact .inl (hab.trans hbc)
  · exact .inl (hbc ▸ hab)
  · exact .inl (hab ▸ hbc)
  · exact .inr ⟨hab.trans hbc, hle.trans hle'⟩⟩

instance : Std.Antisymm (fun a b : Id × ℕ => generationBefore a b = true) := ⟨fun a b hab hba => by
  simp only [generationBefore, Bool.or_eq_true, Bool.and_eq_true, decide_eq_true_eq] at hab hba
  rcases hab with hab | ⟨hab, hle⟩ <;> rcases hba with hba | ⟨hba, hle'⟩
  · exact absurd hab (lt_asymm hba)
  · exact absurd hba hab.ne'
  · exact absurd hab hba.ne'
  · exact Prod.ext (le_antisymm hle hle') hab⟩

/-- The active blob tombstones of a repository. -/
def tombstoneRows (db : RepoTables Id) : List (Id × ℕ) :=
  (db.redactions.filter (fun row => decide (row.kind = .blob) && row.purgedNs.isNone)).map
    fun row => (row.objectId, row.markedNs)

theorem membersInsert_nodup {rows ids : List Id} (h : rows.Nodup) :
    (membersInsert rows ids).Nodup := by
  induction ids generalizing rows with
  | nil => exact h
  | cons id ids ih =>
      have hstep : membersInsert rows (id :: ids) =
          membersInsert (if id ∈ rows then rows else rows ++ [id]) ids := rfl
      rw [hstep]
      split_ifs with hid
      · exact ih h
      · exact ih (List.nodup_append.mpr ⟨h, List.nodup_singleton id, fun a ha b hb heq =>
          hid (List.mem_singleton.mp hb ▸ heq ▸ ha)⟩)

theorem membersInsert_perm (ids : List Id) : (membersInsert [] ids).Perm ids.dedup := by
  refine (List.perm_ext_iff_of_nodup (membersInsert_nodup List.nodup_nil)
    (List.nodup_dedup ids)).mpr fun id => ?_
  rw [mem_membersInsert, List.mem_dedup, or_iff_right List.not_mem_nil]

/-- Nothing references the blob and its row is outside the grace window. -/
def Unneeded (s : Server Id) (cutNs : ℤ) (id : Id) : Prop :=
  touchedAfter s.cat cutNs id = false ∧ s.blobReferenced id = false

/-- The blobs of all active tombstones, oldest mark first, one entry for each
repository that marked it. -/
def tombstoneQueue (s : Server Id) : List Id :=
  ((s.repoIds.flatMap fun r => tombstoneRows (s.dbs r)).insertionSort
    (fun a b => generationBefore a b = true)).map fun p => p.1

/-- The pages of the work list reach the blob: every page before its own is of
different blobs that can all be purged. -/
def PagesReach (s : Server Id) (cutNs : ℤ) (id : Id) : Prop :=
  Lib.PageReaches gcBatchBlobs (s.Unneeded cutNs) id s.tombstoneQueue

/-- A referenced blob on the first page stops the batches there. -/
theorem PagesReach.mem_page {s : Server Id} {cutNs : ℤ} {id pin : Id}
    (h : s.PagesReach cutNs id) (hpin : pin ∈ s.tombstoneQueue.take gcBatchBlobs)
    (hreferenced : s.blobReferenced pin = true) : id ∈ s.tombstoneQueue.take gcBatchBlobs := by
  by_contra hpage
  refine Lib.PageReaches.not_of_stuck hpage (fun hfull => ?_) h
  have hfree := (hfull.2.2 pin hpin).2
  rw [hreferenced] at hfree
  cases hfree

theorem mem_exclusivelyUnreferenced {s : Server Id} {cutNs : ℤ} {ids : List Id} {id : Id} :
    id ∈ s.exclusivelyUnreferenced cutNs ids ↔ id ∈ ids ∧ s.Unneeded cutNs id := by
  simp only [exclusivelyUnreferenced, List.mem_filter, Unneeded, Bool.and_eq_true,
    Bool.not_eq_true']

/-- A batch works on the first page of the queue. -/
theorem purgeBlobIds_eq (s : Server Id) (cutNs : ℤ) : s.purgeBlobIds cutNs =
    s.exclusivelyUnreferenced cutNs (membersInsert [] (s.tombstoneQueue.take gcBatchBlobs)) := by
  have hpage := Lib.take_insertionSort_flatMap (fun a b : Id × ℕ => generationBefore a b = true)
    gcBatchBlobs (fun r => tombstoneRows (s.dbs r)) s.repoIds
  rw [tombstoneQueue, ← List.map_take, ← hpage]
  rfl

theorem mem_purgeBlobIds {s : Server Id} {cutNs : ℤ} {id : Id} :
    id ∈ s.purgeBlobIds cutNs ↔
      id ∈ s.tombstoneQueue.take gcBatchBlobs ∧ s.Unneeded cutNs id := by
  rw [purgeBlobIds_eq, mem_exclusivelyUnreferenced, mem_membersInsert,
    or_iff_right List.not_mem_nil]

/-- A batch is full exactly when its page is, with different blobs that can all
be purged. -/
theorem purgeBlobIds_full {s : Server Id} {cutNs : ℤ} :
    gcBatchBlobs ≤ (s.purgeBlobIds cutNs).length ↔
      (s.tombstoneQueue.take gcBatchBlobs).length = gcBatchBlobs ∧
        (s.tombstoneQueue.take gcBatchBlobs).Nodup ∧
          ∀ id ∈ s.tombstoneQueue.take gcBatchBlobs, s.Unneeded cutNs id := by
  have hlen := (membersInsert_perm (s.tombstoneQueue.take gcBatchBlobs)).length_eq
  have hpage : (s.tombstoneQueue.take gcBatchBlobs).length ≤ gcBatchBlobs := by
    rw [List.length_take]
    omega
  rw [purgeBlobIds_eq]
  constructor
  · intro hfull
    have hfilter : (s.exclusivelyUnreferenced cutNs
        (membersInsert [] (s.tombstoneQueue.take gcBatchBlobs))).length ≤
          (membersInsert [] (s.tombstoneQueue.take gcBatchBlobs)).length :=
      List.length_filter_le _ _
    have hdedup := (List.dedup_sublist (s.tombstoneQueue.take gcBatchBlobs)).length_le
    have heq : (s.tombstoneQueue.take gcBatchBlobs).dedup =
        s.tombstoneQueue.take gcBatchBlobs :=
      (List.dedup_sublist _).eq_of_length (by omega)
    refine ⟨by omega, List.dedup_eq_self.mp heq, fun id hid => ?_⟩
    have hin : id ∈ membersInsert [] (s.tombstoneQueue.take gcBatchBlobs) :=
      mem_membersInsert.mpr (.inr hid)
    have hsame : s.exclusivelyUnreferenced cutNs (membersInsert []
        (s.tombstoneQueue.take gcBatchBlobs)) =
          membersInsert [] (s.tombstoneQueue.take gcBatchBlobs) :=
      List.filter_sublist.eq_of_length (by rw [← exclusivelyUnreferenced]; omega)
    rw [← hsame] at hin
    exact (mem_exclusivelyUnreferenced.mp hin).2
  · rintro ⟨hfull, hnodup, hall⟩
    rw [List.dedup_eq_self.mpr hnodup, hfull] at hlen
    refine hlen.ge.trans_eq (congrArg List.length ?_)
    refine (List.filter_eq_self.mpr fun id hid => ?_).symm
    have hin : id ∈ s.exclusivelyUnreferenced cutNs
        (membersInsert [] (s.tombstoneQueue.take gcBatchBlobs)) := by
      refine mem_exclusivelyUnreferenced.mpr ⟨hid, hall id ?_⟩
      rwa [mem_membersInsert, or_iff_right List.not_mem_nil] at hid
    exact (List.mem_filter.mp hin).2

/-! ### A waiting blob -/

/-- The blob's bytes are stored, a tombstone names it, and nothing keeps it. -/
structure Waiting (s : Server Id) (cutNs : ℤ) (id : Id) : Prop where
  stored : ∃ b ∈ s.cas, b.1 = id
  marked : ∃ r ∈ s.repoIds, tombstoned (s.dbs r) .blob id = true
  unneeded : s.Unneeded cutNs id

/-- What a purge leaves a blob it does not take with. -/
structure Spares (s s' : Server Id) (id : Id) : Prop where
  repos : s'.repos = s.repos
  layout : s'.layout = s.layout
  trees : s'.trees = s.trees
  cas : ∀ b ∈ s.cas, b.1 = id → b ∈ s'.cas
  changesets : ∀ r, (s'.dbs r).changesets.Sublist (s.dbs r).changesets
  redactions : ∀ r, ∀ row ∈ (s.dbs r).redactions, row.objectId = id → row.kind = .blob →
    row ∈ (s'.dbs r).redactions
  objects : s'.cat.objects.Sublist s.cat.objects

theorem Spares.refl (s : Server Id) (id : Id) : s.Spares s id :=
  ⟨rfl, rfl, rfl, fun _ h _ => h, fun _ => .refl _, fun _ _ h _ _ => h, .refl _⟩

theorem Spares.trans {a b c : Server Id} {id : Id} (hab : a.Spares b id) (hbc : b.Spares c id) :
    a.Spares c id where
  repos := hbc.repos.trans hab.repos
  layout := hbc.layout.trans hab.layout
  trees := hbc.trees.trans hab.trees
  cas x hx hid := hbc.cas x (hab.cas x hx hid) hid
  changesets r := (hbc.changesets r).trans (hab.changesets r)
  redactions r row hrow hid hkind :=
    hbc.redactions r row (hab.redactions r row hrow hid hkind) hid hkind
  objects := hbc.objects.trans hab.objects

/-- The pass moves on. -/
theorem Spares.atGc {s s' : Server Id} {id : Id} (h : s.Spares s' id) (gc : Option (GcPass Id)) :
    s.Spares { s' with gc := gc } id :=
  ⟨h.repos, h.layout, h.trees, h.cas, h.changesets, h.redactions, h.objects⟩

theorem Spares.waiting {s s' : Server Id} {cutNs : ℤ} {id : Id} (h : s.Spares s' id)
    (hw : s.Waiting cutNs id) : s'.Waiting cutNs id := by
  have hids : s'.repoIds = s.repoIds := congrArg (List.map Prod.fst) h.repos
  have hfiles : s'.files = s.files := by
    simp only [files, h.layout, hids]
  refine ⟨?_, ?_, ?_, ?_⟩
  · obtain ⟨b, hb, hid⟩ := hw.stored
    exact ⟨b, h.cas b hb hid, hid⟩
  · obtain ⟨r, hr, hmark⟩ := hw.marked
    obtain ⟨row, hrow, hactive⟩ := List.any_eq_true.mp hmark
    refine ⟨r, hids ▸ hr, List.any_eq_true.mpr ⟨row, ?_, hactive⟩⟩
    simp only [Bool.and_eq_true, decide_eq_true_eq] at hactive
    exact h.redactions r row hrow hactive.1.1 hactive.1.2
  · refine List.any_eq_false.mpr fun row hrow => ?_
    exact List.any_eq_false.mp hw.unneeded.1 row (h.objects.subset hrow)
  · have hfree := hw.unneeded.2
    simp only [blobReferenced, Bool.or_eq_false_iff] at hfree ⊢
    refine ⟨List.any_eq_false.mpr fun r hr hany => ?_, ?_⟩
    · obtain ⟨row, hrow, hnames⟩ := List.any_eq_true.mp hany
      refine List.any_eq_false.mp hfree.1 r (hids ▸ hr) (List.any_eq_true.mpr ⟨row, ?_, hnames⟩)
      exact (h.changesets r).subset hrow
    · rw [hfiles, h.trees]
      exact hfree.2

theorem collectCs_spares (s : Server Id) (dead : RepoId → List Id) (id : Id) :
    s.Spares (s.collectCs dead) id := by
  refine ⟨rfl, rfl, rfl, fun _ hb _ => hb, fun r => (collectCs_collected s dead r).changesets,
    fun r row hrow _ _ => ?_, .refl _⟩
  simp only [collectCs, mapRepos]
  split_ifs <;> exact hrow

theorem stampPurged_spares (s : Server Id) (onFile : RepoId → Bool) {kind : RedactionKind}
    {ids : List Id} (nowNs : ℕ) {id : Id} (h : kind = .blob → id ∉ ids) :
    s.Spares (s.stampPurged onFile kind ids nowNs) id := by
  refine ⟨rfl, rfl, rfl, fun _ hb _ => hb,
    fun r => (stampPurged_collected s onFile kind ids nowNs r).changesets,
    fun r row hrow hid hkind => ?_, .refl _⟩
  simp only [stampPurged, mapRepos]
  split_ifs
  · refine List.mem_map.mpr ⟨row, hrow, if_neg ?_⟩
    rintro ⟨-, rfl, hin, -⟩
    exact h hkind (hid ▸ hin)
  · exact hrow

theorem collectBlobs_spares (s : Server Id) {ids : List Id} {id : Id} (h : id ∉ ids) :
    s.Spares (s.collectBlobs ids) id := by
  refine ⟨rfl, rfl, rfl, fun b hb hid => ?_, fun r => (collectBlobs_collected s ids r).changesets,
    fun r row hrow _ _ => ?_, List.filter_sublist⟩
  · exact List.mem_filter.mpr ⟨hb, decide_eq_true (hid ▸ h)⟩
  · simp only [collectBlobs, collectBlobsRepos, mapRepos]
    split_ifs <;> exact hrow

theorem purgeBlobs_spares (s : Server Id) {ids : List Id} (nowNs : ℕ) {id : Id} (h : id ∉ ids) :
    s.Spares ((s.collectBlobs ids).stampPurged (fun _ => true) .blob ids nowNs) id :=
  (collectBlobs_spares s h).trans (stampPurged_spares _ _ nowNs fun _ => h)

/-- A changeset purge takes no blob that nothing references. -/
theorem purgeCsBatch_spares (s : Server Id) (landed : List Id) (nowNs : ℕ) (cutNs : ℤ) {id : Id}
    (hfree : s.blobReferenced id = false) :
    s.Spares (s.purgeCsBatch landed nowNs cutNs).1 id := by
  unfold purgeCsBatch
  simp only
  split_ifs
  · exact .refl s id
  · have hrows : s.Spares (s.purgeCsRows landed nowNs) id :=
      ((collectCs_spares s _ id).trans
        (stampPurged_spares _ (fun f => s.purgeCsDead landed f ≠ []) nowNs
          RedactionKind.noConfusion)).trans
        ⟨rfl, rfl, rfl, fun _ hb _ => hb, fun _ => .refl _, fun _ _ hrow _ _ => hrow, .refl _⟩
    refine hrows.trans (purgeBlobs_spares _ nowNs fun hin => ?_)
    have hblob := (mem_exclusivelyUnreferenced.mp hin).1
    rw [purgeCsBlobs, List.mem_dedup, List.mem_insertionSort] at hblob
    obtain ⟨f, -, hblob⟩ := List.mem_flatMap.mp hblob
    obtain ⟨r, hr, hblob⟩ := List.mem_flatMap.mp hblob
    obtain ⟨row, hrow, hblob⟩ := List.mem_flatMap.mp hblob
    simp only [blobReferenced, Bool.or_eq_false_iff] at hfree
    refine List.any_eq_false.mp hfree.1 r (List.mem_filter.mp hr).1 ?_
    exact List.any_eq_true.mpr ⟨row, (List.mem_filter.mp hrow).1, decide_eq_true hblob⟩

/-! ### The phases -/

/-- How many changesets are stored. -/
def changesetCount (s : Server Id) : ℕ :=
  (s.repoIds.map fun r => (s.dbs r).changesets.length).sum

/-- A changeset purge deletes what it selects. -/
theorem purgeCsBatch_changesets {s : Server Id} {landed : List Id} {nowNs : ℕ} {cutNs : ℤ}
    (hne : s.purgeCsIds landed ≠ []) (r : RepoId) :
    ((s.purgeCsBatch landed nowNs cutNs).1.dbs r).changesets.Sublist
      ((s.collectCs (s.purgeCsDead landed)).dbs r).changesets := by
  have hrows : ((s.purgeCsRows landed nowNs).dbs r).changesets.Sublist
      ((s.collectCs (s.purgeCsDead landed)).dbs r).changesets :=
    (stampPurged_collected (s.collectCs (s.purgeCsDead landed))
      (fun f => s.purgeCsDead landed f ≠ []) .changeset (s.purgeCsIds landed) nowNs r).changesets
  have hbatch : (s.purgeCsBatch landed nowNs cutNs).1 =
      ((s.purgeCsRows landed nowNs).collectBlobs ((s.purgeCsRows landed
        nowNs).exclusivelyUnreferenced cutNs (s.purgeCsBlobs landed))).stampPurged
          (fun _ => true) .blob ((s.purgeCsRows landed nowNs).exclusivelyUnreferenced cutNs
            (s.purgeCsBlobs landed)) nowNs := by
    rw [purgeCsBatch, if_neg hne]
  rw [hbatch]
  exact (purgeBlobs_collected (s.purgeCsRows landed nowNs) _ nowNs r).changesets.trans hrows

/-- A changeset purge that purges anything leaves fewer changesets. -/
theorem purgeCsBatch_lt (s : Server Id) (landed : List Id) (nowNs : ℕ) (cutNs : ℤ)
    (hne : s.purgeCsIds landed ≠ []) :
    (s.purgeCsBatch landed nowNs cutNs).1.changesetCount < s.changesetCount := by
  have hids : (s.purgeCsBatch landed nowNs cutNs).1.repoIds = s.repoIds :=
    congrArg (List.map Prod.fst) (purgeCsBatch_frame s landed nowNs cutNs).repos
  rw [changesetCount, changesetCount, hids]
  refine List.sum_lt_sum _ _ (fun r _ => ?_) ?_
  · exact (purgeCsBatch_collected s landed nowNs cutNs r).changesets.length_le
  · obtain ⟨id, hid⟩ := List.exists_mem_of_ne_nil _ hne
    obtain ⟨r, hr, hpurge⟩ := List.mem_flatMap.mp hid
    have hhit := (List.mem_filter.mp hpurge).1
    obtain ⟨p, hp, rfl⟩ := List.mem_map.mp (List.mem_of_mem_take hhit)
    rw [List.mem_insertionSort] at hp
    obtain ⟨row, hrow, rfl⟩ := List.mem_map.mp hp
    obtain ⟨r', hr', hrow⟩ := List.mem_flatMap.mp (List.mem_filter.mp hrow).1
    obtain ⟨hin, hfile⟩ := List.mem_filter.mp hr'
    have hfile : s.file r' = s.file r := of_decide_eq_true hfile
    refine ⟨r', hin, Nat.lt_of_le_of_ne
      (purgeCsBatch_collected s landed nowNs cutNs r').changesets.length_le fun heq => ?_⟩
    -- the row is gone
    have hsame := (purgeCsBatch_collected s landed nowNs cutNs r').changesets.eq_of_length heq
    rw [← hsame] at hrow
    have hkept := (purgeCsBatch_changesets hne r').subset hrow
    simp only [collectCs, mapRepos, if_pos hin] at hkept
    refine of_decide_eq_true (List.mem_filter.mp hkept).2 ?_
    refine List.mem_flatMap.mpr ⟨r, List.mem_filter.mpr ⟨hr, ?_⟩, ?_⟩
    · exact decide_eq_true hfile.symm
    · exact List.mem_filter.mpr ⟨hpurge, decide_eq_true hid⟩

theorem changesetCount_gc (s : Server Id) (gc : Option (GcPass Id)) :
    { s with gc := gc }.changesetCount = s.changesetCount := rfl

theorem purgeCs_step (s : Server Id) (pass : GcPass Id) (landed : List Id) :
    s.gcPassStep (pass.goto (.purgeCs landed)) =
      ((s.purgeCsBatch landed pass.nowNs pass.cutNs).1, some (pass.goto
        (if (s.purgeCsBatch landed pass.nowNs pass.cutNs).2 = 0 ∨
            (s.purgeCsBatch landed pass.nowNs pass.cutNs).2 < gcBatchRows
          then .purgeBlobs else .purgeCs landed))) := rfl

/-- The changeset batches end, and the blob still waits. -/
theorem purgeCs_phase {s : Server Id} {pass : GcPass Id} {landed : List Id} {id : Id}
    (hpass : s.gc = some (pass.goto (.purgeCs landed))) (hw : s.Waiting pass.cutNs id) :
    ∃ s', GcRun s s' ∧ s'.gc = some (pass.goto .purgeBlobs) ∧ s'.Waiting pass.cutNs id := by
  induction hn : s.changesetCount using Nat.strong_induction_on generalizing s with
  | _ n ih =>
  have hstep := gcStep_eq hpass
  rw [purgeCs_step] at hstep
  have hspares := purgeCsBatch_spares s landed pass.nowNs pass.cutNs hw.unneeded.2
  have hlt := purgeCsBatch_lt s landed pass.nowNs pass.cutNs
  have hnil := fun h : s.purgeCsIds landed = [] =>
    show (s.purgeCsBatch landed pass.nowNs pass.cutNs).2 = 0 by rw [purgeCsBatch, if_pos h]
  generalize (s.purgeCsBatch landed pass.nowNs pass.cutNs).1 = t at hstep hspares hlt
  generalize (s.purgeCsBatch landed pass.nowNs pass.cutNs).2 = count at hstep hnil
  by_cases hend : count = 0 ∨ count < gcBatchRows
  · rw [if_pos hend] at hstep
    exact ⟨_, .single hstep, rfl, (hspares.atGc _).waiting hw⟩
  · rw [if_neg hend] at hstep
    have hfewer : t.changesetCount < n := hn ▸ hlt fun h => hend (.inl (hnil h))
    have hmore := (hspares.atGc (some (pass.goto (.purgeCs landed)))).waiting hw
    obtain ⟨s', hrun, hpc, hw'⟩ := ih t.changesetCount hfewer
      (s := { t with gc := some (pass.goto (.purgeCs landed)) }) rfl hmore
      (changesetCount_gc t _)
    exact ⟨s', .head hstep hrun, hpc, hw'⟩

theorem collectBlobs_redactions (s : Server Id) (ids : List Id) (r : RepoId) :
    ((s.collectBlobs ids).dbs r).redactions = (s.dbs r).redactions := by
  simp only [collectBlobs, collectBlobsRepos, mapRepos]
  split_ifs <;> rfl

/-- A blob batch takes its tombstones off the work list. -/
theorem purgeBlobBatch_rows (s : Server Id) (nowNs : ℕ) (cutNs : ℤ) {r : RepoId}
    (hr : r ∈ s.repoIds) : tombstoneRows ((s.purgeBlobBatch nowNs cutNs).dbs r) =
      (tombstoneRows (s.dbs r)).filter fun p => decide (p.1 ∉ s.purgeBlobIds cutNs) := by
  have hredactions : ((s.purgeBlobBatch nowNs cutNs).dbs r).redactions =
      (s.dbs r).redactions.map (fun row =>
        if row.kind = .blob ∧ row.objectId ∈ s.purgeBlobIds cutNs ∧ row.purgedNs = none
        then { row with purgedNs := some nowNs } else row) := by
    have hids : (s.collectBlobs (s.purgeBlobIds cutNs)).repoIds = s.repoIds := rfl
    have hrows := collectBlobs_redactions s (s.purgeBlobIds cutNs) r
    rw [purgeBlobBatch]
    simp only [stampPurged, mapRepos, hids, if_pos hr, hrows, true_and]
  rw [tombstoneRows, tombstoneRows, hredactions]
  induction (s.dbs r).redactions with
  | nil => rfl
  | cons row rows ih =>
      rw [List.map_cons, List.filter_cons, List.filter_cons]
      by_cases hactive : row.kind = .blob ∧ row.purgedNs = none
      · obtain ⟨hkind, hpurged⟩ := hactive
        by_cases hin : row.objectId ∈ s.purgeBlobIds cutNs
        · simpa [hkind, hpurged, hin] using ih
        · simpa [hkind, hpurged, hin] using ih
      · have hskip : ¬ (row.kind = .blob ∧ row.objectId ∈ s.purgeBlobIds cutNs ∧
            row.purgedNs = none) := fun h => hactive ⟨h.1, h.2.2⟩
        have hnot : (decide (row.kind = .blob) && row.purgedNs.isNone) = false := by
          rw [Bool.and_eq_false_iff, decide_eq_false_iff_not, Option.isNone_eq_false_iff,
            Option.isSome_iff_ne_none]
          exact not_and_or.mp hactive
        rw [if_neg hskip, hnot]
        exact ih

theorem purgeBlobBatch_queue (s : Server Id) (nowNs : ℕ) (cutNs : ℤ) :
    (s.purgeBlobBatch nowNs cutNs).tombstoneQueue =
      s.tombstoneQueue.filter fun id => decide (id ∉ s.purgeBlobIds cutNs) := by
  have hids : (s.purgeBlobBatch nowNs cutNs).repoIds = s.repoIds := rfl
  have hrows : (s.repoIds.flatMap fun r =>
      tombstoneRows ((s.purgeBlobBatch nowNs cutNs).dbs r)) =
        (s.repoIds.flatMap fun r => tombstoneRows (s.dbs r)).filter
          fun p => decide (p.1 ∉ s.purgeBlobIds cutNs) := by
    rw [List.filter_flatMap]
    exact List.flatMap_congr fun r hr => purgeBlobBatch_rows s nowNs cutNs hr
  rw [tombstoneQueue, tombstoneQueue, hids, hrows, List.filter_map]
  exact congrArg (List.map fun p => p.1)
    (Lib.filter_insertionSort (fun a b : Id × ℕ => generationBefore a b = true) _ _).symm

/-- What is unneeded stays so, and nothing else becomes it. -/
theorem purgeBlobBatch_unneeded (s : Server Id) (nowNs : ℕ) (cutNs : ℤ) (id : Id) :
    (s.purgeBlobBatch nowNs cutNs).Unneeded cutNs id ↔ s.Unneeded cutNs id := by
  have hreferenced : (s.purgeBlobBatch nowNs cutNs).blobReferenced id = s.blobReferenced id := by
    have hchangesets : ∀ r, ((s.purgeBlobBatch nowNs cutNs).dbs r).changesets =
        (s.dbs r).changesets := by
      intro r
      rw [← collectBlobs_changesets s (s.purgeBlobIds cutNs) r, purgeBlobBatch]
      simp only [stampPurged, mapRepos]
      split_ifs <;> rfl
    simp only [blobReferenced, hchangesets]
    rfl
  rw [Unneeded, Unneeded, hreferenced]
  refine and_congr_left fun hfree => ?_
  have hsub : (s.purgeBlobBatch nowNs cutNs).cat.objects =
      s.cat.objects.filter (fun row => decide (row.objectId ∉ s.purgeBlobIds cutNs)) := rfl
  rw [touchedAfter, touchedAfter, hsub, List.any_eq_false, List.any_eq_false]
  constructor
  · intro h row hrow htouched
    by_cases hin : row.objectId ∈ s.purgeBlobIds cutNs
    · exact List.any_eq_false.mp (mem_purgeBlobIds.mp hin).2.1 row hrow (by simp_all)
    · exact h row (List.mem_filter.mpr ⟨hrow, decide_eq_true hin⟩) htouched
  · exact fun h row hrow => h row (List.mem_filter.mp hrow).1

theorem purgeBlobBatch_cas (s : Server Id) (nowNs : ℕ) (cutNs : ℤ) :
    (s.purgeBlobBatch nowNs cutNs).cas =
      s.cas.filter fun b => decide (b.1 ∉ s.purgeBlobIds cutNs) := rfl

theorem tombstoneQueue_gc (s : Server Id) (gc : Option (GcPass Id)) :
    { s with gc := gc }.tombstoneQueue = s.tombstoneQueue := rfl

/-- A blob batch of a pass. -/
theorem purgeBlobs_step {s : Server Id} {pass : GcPass Id}
    (hpass : s.gc = some (pass.goto .purgeBlobs)) :
    s.gcStep = some { s.purgeBlobBatch pass.nowNs pass.cutNs with
      gc := if (s.purgeBlobIds pass.cutNs).length < gcBatchBlobs then none
        else some (pass.goto .purgeBlobs) } := gcStep_eq hpass

/-- A full batch shortens the work list. -/
theorem purgeBlobBatch_lt (s : Server Id) (nowNs : ℕ) (cutNs : ℤ)
    (hfull : ¬ (s.purgeBlobIds cutNs).length < gcBatchBlobs) :
    (s.purgeBlobBatch nowNs cutNs).tombstoneQueue.length < s.tombstoneQueue.length := by
  have hne : s.purgeBlobIds cutNs ≠ [] := fun hnil => by
    rw [hnil] at hfull
    exact hfull (Nat.zero_lt_succ 255)
  obtain ⟨id, hid⟩ := List.exists_mem_of_ne_nil _ hne
  rw [purgeBlobBatch_queue]
  refine List.length_filter_lt_length_iff_exists.mpr ⟨id, ?_, by simp [hid]⟩
  exact List.mem_of_mem_take (mem_purgeBlobIds.mp hid).1

/-- The blob batches end. -/
theorem purgeBlobs_ends {s : Server Id} {pass : GcPass Id}
    (hpass : s.gc = some (pass.goto .purgeBlobs)) :
    ∃ s', GcRun s s' ∧ s'.gc = none ∧ s'.cas.Sublist s.cas := by
  induction hn : s.tombstoneQueue.length using Nat.strong_induction_on generalizing s with
  | _ n ih =>
  have hstep := purgeBlobs_step hpass
  have hcas : (s.purgeBlobBatch pass.nowNs pass.cutNs).cas.Sublist s.cas := List.filter_sublist
  have hlt := purgeBlobBatch_lt s pass.nowNs pass.cutNs
  generalize s.purgeBlobBatch pass.nowNs pass.cutNs = t at hstep hcas hlt
  by_cases hend : (s.purgeBlobIds pass.cutNs).length < gcBatchBlobs
  · rw [if_pos hend] at hstep
    exact ⟨_, .single hstep, rfl, hcas⟩
  · rw [if_neg hend] at hstep
    obtain ⟨s', hrun, hpc, hsub⟩ := ih t.tombstoneQueue.length (hn ▸ hlt hend)
      (s := { t with gc := some (pass.goto .purgeBlobs) }) rfl
      (congrArg List.length (tombstoneQueue_gc t _))
    exact ⟨s', .head hstep hrun, hpc, hsub.trans hcas⟩

/-- A blob on the page goes with its batch. -/
theorem purgeBlobs_reached {s : Server Id} {pass : GcPass Id} {id : Id}
    (hpass : s.gc = some (pass.goto .purgeBlobs))
    (hpage : id ∈ s.tombstoneQueue.take gcBatchBlobs) (hfree : s.Unneeded pass.cutNs id) :
    ∃ s', GcRun s s' ∧ s'.gc = none ∧ ∀ b ∈ s'.cas, b.1 ≠ id := by
  have hid := mem_purgeBlobIds.mpr ⟨hpage, hfree⟩
  have hstep := purgeBlobs_step hpass
  have hgone : ∀ b ∈ (s.purgeBlobBatch pass.nowNs pass.cutNs).cas, b.1 ≠ id := by
    rintro b hb rfl
    rw [purgeBlobBatch_cas] at hb
    exact of_decide_eq_true (List.mem_filter.mp hb).2 hid
  generalize s.purgeBlobBatch pass.nowNs pass.cutNs = t at hstep hgone
  by_cases hend : (s.purgeBlobIds pass.cutNs).length < gcBatchBlobs
  · rw [if_pos hend] at hstep
    exact ⟨_, .single hstep, rfl, hgone⟩
  · rw [if_neg hend] at hstep
    obtain ⟨s', hrun, hpc, hsub⟩ := purgeBlobs_ends
      (s := { t with gc := some (pass.goto .purgeBlobs) }) rfl
    exact ⟨s', .head hstep hrun, hpc, fun b hb => hgone b (hsub.subset hb)⟩

/-- The blob batches delete the waiting blob's bytes exactly when their pages
reach it. -/
theorem purgeBlobs_iff {s : Server Id} {pass : GcPass Id} {id : Id}
    (hpass : s.gc = some (pass.goto .purgeBlobs)) (hw : s.Waiting pass.cutNs id) :
    ∃ s', GcRun s s' ∧ s'.gc = none ∧
      ((∀ b ∈ s'.cas, b.1 ≠ id) ↔ s.PagesReach pass.cutNs id) := by
  induction hn : s.tombstoneQueue.length using Nat.strong_induction_on generalizing s with
  | _ n ih =>
  by_cases hpage : id ∈ s.tombstoneQueue.take gcBatchBlobs
  · obtain ⟨s', hrun, hpc, hgone⟩ := purgeBlobs_reached hpass hpage hw.unneeded
    exact ⟨s', hrun, hpc, iff_of_true hgone (.here hpage)⟩
  have hid : id ∉ s.purgeBlobIds pass.cutNs := fun hin => hpage (mem_purgeBlobIds.mp hin).1
  have hstep := purgeBlobs_step hpass
  have hspares : s.Spares (s.purgeBlobBatch pass.nowNs pass.cutNs) id :=
    purgeBlobs_spares s pass.nowNs hid
  have hlt := purgeBlobBatch_lt s pass.nowNs pass.cutNs
  have hqueue := purgeBlobBatch_queue s pass.nowNs pass.cutNs
  have hunneeded := purgeBlobBatch_unneeded s pass.nowNs pass.cutNs
  generalize s.purgeBlobBatch pass.nowNs pass.cutNs = t at hstep hspares hlt hqueue hunneeded
  by_cases hend : (s.purgeBlobIds pass.cutNs).length < gcBatchBlobs
  · rw [if_pos hend] at hstep
    refine ⟨_, .single hstep, rfl, iff_of_false (fun hgone => ?_)
      (Lib.PageReaches.not_of_stuck hpage fun hfull => ?_)⟩
    · obtain ⟨b, hb, hbid⟩ := hw.stored
      exact hgone b (hspares.cas b hb hbid) hbid
    · have hlen := purgeBlobIds_full.mpr hfull
      omega
  · rw [if_neg hend] at hstep
    obtain ⟨hlen, hnodup, hok⟩ := purgeBlobIds_full.mp (not_lt.mp hend)
    have hmore := (hspares.atGc (some (pass.goto .purgeBlobs))).waiting hw
    obtain ⟨s', hrun, hpc, hiff⟩ := ih t.tombstoneQueue.length (hn ▸ hlt hend)
      (s := { t with gc := some (pass.goto .purgeBlobs) }) rfl hmore
      (congrArg List.length (tombstoneQueue_gc t _))
    refine ⟨s', .head hstep hrun, hpc, hiff.trans ?_⟩
    have hsame : ({ t with gc := some (pass.goto .purgeBlobs) } : Server Id).Unneeded pass.cutNs =
        s.Unneeded pass.cutNs := funext fun y => propext (hunneeded y)
    have hrest : t.tombstoneQueue =
        s.tombstoneQueue.filter fun y => decide (y ∉ s.tombstoneQueue.take gcBatchBlobs) := by
      rw [hqueue]
      refine List.filter_congr fun y _ => ?_
      rw [decide_eq_decide, not_iff_not, mem_purgeBlobIds]
      exact ⟨fun h => h.1, fun h => ⟨h, hok y h⟩⟩
    rw [PagesReach, PagesReach, hsame, tombstoneQueue_gc, hrest]
    exact (Lib.PageReaches.next_iff hpage hlen hnodup hok).symm

/-- A pass with an active tombstone loads the landed results. -/
theorem purge_landed {s : Server Id} {pass : GcPass Id}
    (hpass : s.gc = some (pass.goto .purgeProbe))
    (hactive : s.repoIds.any (fun r =>
      (s.dbs r).redactions.any (fun row => row.purgedNs.isNone)) = true) :
    GcRun s { s with gc := some (pass.goto (.purgeCs s.landedEverywhere)) } := by
  have hprobe : s.gcStep = some { s with gc := some (pass.goto .purgeLanded) } := by
    rw [gcStep_eq hpass]
    simp only [gcPassStep, GcPass.goto, hactive, if_true]
  have hlanded := gcStep_eq
    (show ({ s with gc := some (pass.goto .purgeLanded) } : Server Id).gc =
      some (pass.goto .purgeLanded) from rfl)
  have hnext : ∀ t : Server Id, t.gcPassStep (pass.goto .purgeLanded) =
      (t, some (pass.goto (.purgeCs t.landedEverywhere))) := fun _ => rfl
  rw [hnext] at hlanded
  exact .head hprobe (.single hlanded)

/-- The pass of a redaction purge: a waiting blob still waits when the second
phase starts, and loses its bytes exactly when the pages of that phase reach it. -/
theorem redaction_purge_iff {s : Server Id} {pass : GcPass Id} {id : Id}
    (hpass : s.gc = some (pass.goto .purgeProbe)) (hw : s.Waiting pass.cutNs id) :
    ∃ mid s', GcRun s mid ∧ mid.gc = some (pass.goto .purgeBlobs) ∧ mid.Waiting pass.cutNs id ∧
      GcRun mid s' ∧ s'.gc = none ∧
        ((∀ b ∈ s'.cas, b.1 ≠ id) ↔ mid.PagesReach pass.cutNs id) := by
  have hactive : s.repoIds.any (fun r =>
      (s.dbs r).redactions.any (fun row => row.purgedNs.isNone)) = true := by
    obtain ⟨r, hr, hmark⟩ := hw.marked
    obtain ⟨row, hrow, hkeys⟩ := List.any_eq_true.mp hmark
    exact List.any_eq_true.mpr ⟨r, hr, List.any_eq_true.mpr
      ⟨row, hrow, (Bool.and_eq_true_iff.mp hkeys).2⟩⟩
  obtain ⟨mid, hmid, hpc, hwait⟩ := purgeCs_phase
    (s := { s with gc := some (pass.goto (.purgeCs s.landedEverywhere)) }) rfl
    (((Spares.refl s id).atGc _).waiting hw)
  obtain ⟨s', hrun, hdone, hiff⟩ := purgeBlobs_iff hpc hwait
  exact ⟨mid, s', (purge_landed hpass hactive).trans hmid, hpc, hwait, hrun, hdone, hiff⟩

/-- Without a changeset to purge the pass goes on to the blobs. -/
theorem purge_prelude {s : Server Id} {pass : GcPass Id}
    (hpass : s.gc = some (pass.goto .purgeProbe))
    (hactive : s.repoIds.any (fun r =>
      (s.dbs r).redactions.any (fun row => row.purgedNs.isNone)) = true)
    (hcs : s.purgeCsIds s.landedEverywhere = []) :
    GcRun s { s with gc := some (pass.goto .purgeBlobs) } := by
  have hbatch : ∀ t : Server Id, t.purgeCsIds s.landedEverywhere = [] →
      t.gcPassStep (pass.goto (.purgeCs s.landedEverywhere)) =
        (t, some (pass.goto .purgeBlobs)) := by
    intro t ht
    have hnone : t.purgeCsBatch s.landedEverywhere pass.nowNs pass.cutNs = (t, 0) := by
      rw [purgeCsBatch, if_pos ht]
    rw [purgeCs_step, hnone]
    rfl
  have hcs' := gcStep_eq
    (show ({ s with gc := some (pass.goto (.purgeCs s.landedEverywhere)) } : Server Id).gc =
      some (pass.goto (.purgeCs s.landedEverywhere)) from rfl)
  rw [hbatch { s with gc := some (pass.goto (.purgeCs s.landedEverywhere)) } hcs] at hcs'
  exact (purge_landed hpass hactive).tail hcs'

end Server

end

namespace Server

/-! ### A short work list -/

section

variable {Id : Type} [Platform Id]

theorem Waiting.mem_queue {s : Server Id} {cutNs : ℤ} {id : Id} (h : s.Waiting cutNs id) :
    id ∈ s.tombstoneQueue := by
  obtain ⟨r, hr, hmark⟩ := h.marked
  obtain ⟨row, hrow, hactive⟩ := List.any_eq_true.mp hmark
  simp only [Bool.and_eq_true, decide_eq_true_eq] at hactive
  simp only [tombstoneQueue, List.mem_map, List.mem_insertionSort, List.mem_flatMap]
  refine ⟨(row.objectId, row.markedNs), ⟨r, hr, List.mem_map.mpr ⟨row, ?_, rfl⟩⟩, hactive.1.1⟩
  exact List.mem_filter.mpr ⟨hrow, by simp [hactive.1.2, hactive.2]⟩

/-- A work list of one page reaches whatever waits. -/
theorem Waiting.pagesReach {s : Server Id} {cutNs : ℤ} {id : Id} (h : s.Waiting cutNs id)
    (hlen : s.tombstoneQueue.length ≤ gcBatchBlobs) : s.PagesReach cutNs id := by
  refine .here ?_
  rw [List.take_of_length_le hlen]
  exact h.mem_queue

/-- The collector marks nothing, so no run of it makes the work list longer than
the marks there were. -/
theorem tombstoneQueue_length_le {s s' : Server Id} (h : GcRun s s') :
    s'.tombstoneQueue.length ≤ (s.repoIds.map fun r => (s.dbs r).redactions.length).sum := by
  have hkept : s'.repoIds = s.repoIds ∧
      ∀ r, (s'.dbs r).redactions.length = (s.dbs r).redactions.length := by
    induction h with
    | refl => exact ⟨rfl, fun _ => rfl⟩
    | @tail mid last _ hstep ih =>
        obtain ⟨pass, -, rfl⟩ := Option.map_eq_some_iff.mp hstep
        refine ⟨(congrArg (List.map Prod.fst) (gcPassStep_frame mid pass).repos).trans ih.1,
          fun r => ?_⟩
        have hkeys := congrArg List.length (gcPassStep_collected mid pass r).redactions
        rw [List.length_map, List.length_map] at hkeys
        exact hkeys.trans (ih.2 r)
  rw [tombstoneQueue, List.length_map, List.length_insertionSort, List.length_flatMap, hkept.1]
  refine List.sum_le_sum fun r _ => ?_
  rw [tombstoneRows, List.length_map, ← hkept.2 r]
  exact List.length_filter_le _ _

end

/-! ### A page of tombstones under a snapshot -/

/-- A directory of the first `n` blobs. -/
def listing (n : ℕ) : TreeFrame PlainId :=
  ⟨⟨(List.range n).map fun i => ⟨String.ofList (List.replicate (i + 1) 'a'), .file,
    Platform.blobId [UInt8.ofNat i], 1, false⟩⟩, by
      rw [List.map_map]
      exact List.map_congr_left fun _ _ => rfl⟩

/-- A pass at 100 with a grace of 50. -/
def passAt : GcPass PlainId := ⟨100, 50, ⟨[], [], []⟩, .landed⟩

/-- A store of the `n` blobs and the orphan, all uploaded before the grace. A
snapshot holds the `n` blobs; they are marked redacted, and then the orphan is. -/
def pinned (n : ℕ) : Server PlainId :=
  { Server.boot .singleDb [(1, "r")] 100 50 with
    cas := (List.range n).map (fun i => (Platform.blobId [UInt8.ofNat i], [UInt8.ofNat i])) ++
      [(orphan, [0, 0])]
    cat := ⟨(byteBlobs n).map (fun id => ⟨id, 1, 1⟩) ++ [⟨orphan, 2, 2⟩], []⟩
    trees := fun _ => [⟨Platform.treeId (listing n), listing n⟩]
    snapshots := fun _ => [⟨[7], 1, Platform.treeId (listing n), "ann", 2, 1000⟩]
    dbs := fun _ =>
      { RepoTables.empty with
        redactions := (byteBlobs n).map (fun id => ⟨id, .blob, none, 60, none⟩) ++
          [⟨orphan, .blob, none, 61, none⟩]
        repoBlobs := byteBlobs n ++ [orphan]
        repoTrees := [Platform.treeId (listing n)] }
    gc := some (passAt.goto .purgeProbe) }

theorem mem_listing_files {n : ℕ} {row : TreeRow PlainId}
    (hrow : row = ⟨Platform.treeId (listing n), listing n⟩) {id : PlainId} :
    id ∈ row.files ↔ id ∈ byteBlobs n := by
  subst hrow
  simp only [TreeRow.files, TreeRow.entries, List.mem_map, List.mem_filter,
    List.mem_insertionSort, listing, byteBlobs, decide_eq_true_eq]
  constructor
  · rintro ⟨e, ⟨⟨i, hi, rfl⟩, -⟩, rfl⟩
    exact ⟨i, hi, rfl⟩
  · rintro ⟨i, hi, rfl⟩
    exact ⟨_, ⟨⟨i, hi, rfl⟩, rfl⟩, rfl⟩

theorem pinned_referenced {n : ℕ} {id : PlainId} :
    (pinned n).blobReferenced id = true ↔ id ∈ byteBlobs n := by
  have hchangesets : ∀ r, ((pinned n).dbs r).changesets = [] := fun _ => rfl
  have htrees : ∀ f, (pinned n).trees f = [⟨Platform.treeId (listing n), listing n⟩] :=
    fun _ => rfl
  simp only [blobReferenced, hchangesets, htrees, List.any_nil, List.any_cons, Bool.or_false,
    List.any_eq_true, Bool.or_eq_true, decide_eq_true_eq]
  constructor
  · rintro (⟨_, _, h⟩ | ⟨_, _, h⟩)
    · cases h
    · exact (mem_listing_files rfl).mp h
  · exact fun h => .inr ⟨0, List.mem_singleton_self 0, (mem_listing_files rfl).mpr h⟩

theorem pinned_waiting (n : ℕ) : (pinned n).Waiting 50 orphan := by
  refine ⟨⟨_, List.mem_append_right _ (List.mem_singleton_self _), rfl⟩,
    ⟨1, List.mem_singleton_self 1, List.any_eq_true.mpr ⟨_,
      List.mem_append_right _ (List.mem_singleton_self _), by simp⟩⟩, ?_, ?_⟩
  · refine List.any_eq_false.mpr fun row hrow => ?_
    rcases List.mem_append.mp hrow with hbyte | hlast
    · obtain ⟨id, -, rfl⟩ := List.mem_map.mp hbyte
      simp
    · rw [List.mem_singleton.mp hlast]
      simp
  · rw [← Bool.not_eq_true, pinned_referenced]
    exact orphan_notMem n

/-- The orphan is last in the work list. -/
theorem pinned_queue (n : ℕ) : ∃ ids : List PlainId, ids.length = n ∧
    (∀ id ∈ ids, id ∈ byteBlobs n) ∧ (pinned n).tombstoneQueue = ids ++ [orphan] := by
  let bytes : List (PlainId × ℕ) := (byteBlobs n).map fun id => (id, 60)
  have hrows : tombstoneRows ((pinned n).dbs 1) = bytes ++ [(orphan, 61)] := by
    have hall : ((pinned n).dbs 1).redactions.filter
        (fun row => decide (row.kind = .blob) && row.purgedNs.isNone) =
          ((pinned n).dbs 1).redactions := by
      refine List.filter_eq_self.mpr fun row hrow => ?_
      rcases List.mem_append.mp hrow with hbyte | hlast
      · obtain ⟨id, -, rfl⟩ := List.mem_map.mp hbyte
        rfl
      · rw [List.mem_singleton.mp hlast]
        rfl
    rw [tombstoneRows, hall]
    show List.map _ (List.map _ (byteBlobs n) ++ [_]) = _
    rw [List.map_append, List.map_map]
    rfl
  have hlast : ∀ p ∈ bytes, generationBefore p (orphan, 61) = true := by
    intro p hp
    obtain ⟨id, -, rfl⟩ := List.mem_map.mp hp
    rfl
  have hqueue : (pinned n).repoIds.flatMap (fun r => tombstoneRows ((pinned n).dbs r)) =
      bytes ++ [(orphan, 61)] := by
    rw [← hrows]
    show [1].flatMap (fun r => tombstoneRows ((pinned n).dbs r)) = _
    rw [List.flatMap_cons, List.flatMap_nil, List.append_nil]
  refine ⟨(bytes.insertionSort fun a b => generationBefore a b = true).map fun p => p.1,
    ?_, fun id hid => ?_, ?_⟩
  · rw [List.length_map, List.length_insertionSort, List.length_map, byteBlobs, List.length_map,
      List.length_range]
  · obtain ⟨p, hp, rfl⟩ := List.mem_map.mp hid
    rw [List.mem_insertionSort] at hp
    obtain ⟨byte, hbyte, rfl⟩ := List.mem_map.mp hp
    exact hbyte
  · rw [tombstoneQueue, hqueue, Lib.insertionSort_append_last _ hlast, List.map_append]
    rfl

/-- Alone in the work list, the orphan loses its bytes. -/
theorem redaction_purge_iff_orphan : ∃ s', GcRun (pinned 0) s' ∧ s'.gc = none ∧
    ∀ b ∈ s'.cas, b.1 ≠ orphan := by
  obtain ⟨mid, s', hmid, -, hwait, hrun, hdone, hiff⟩ := redaction_purge_iff
    (show (pinned 0).gc = some (passAt.goto .purgeProbe) from rfl) (pinned_waiting 0)
  refine ⟨s', hmid.trans hrun, hdone, hiff.mpr (hwait.pagesReach ?_)⟩
  exact (tombstoneQueue_length_le hmid).trans (by decide +kernel)

/-- With a page of tombstones under a snapshot in front of it, the orphan keeps
its bytes. -/
theorem orphan_stays : (pinned gcBatchBlobs).Waiting 50 orphan ∧
    ∃ s', GcRun (pinned gcBatchBlobs) s' ∧ s'.gc = none ∧ ¬ ∀ b ∈ s'.cas, b.1 ≠ orphan := by
  refine ⟨pinned_waiting _, ?_⟩
  have hprelude : GcRun (pinned gcBatchBlobs)
      { pinned gcBatchBlobs with gc := some (passAt.goto .purgeBlobs) } := by
    refine purge_prelude rfl ?_ rfl
    exact List.any_eq_true.mpr ⟨1, List.mem_singleton_self 1, List.any_eq_true.mpr ⟨_,
      List.mem_append_right _ (List.mem_singleton_self _), rfl⟩⟩
  have hmid : ({ pinned gcBatchBlobs with gc := some (passAt.goto .purgeBlobs) } :
      Server PlainId).Waiting 50 orphan :=
    ((Spares.refl _ _).atGc _).waiting (pinned_waiting gcBatchBlobs)
  obtain ⟨s', hrun, hdone, hiff⟩ := purgeBlobs_iff
    (show ({ pinned gcBatchBlobs with gc := some (passAt.goto .purgeBlobs) } :
      Server PlainId).gc = some (passAt.goto .purgeBlobs) from rfl) hmid
  refine ⟨s', hprelude.trans hrun, hdone, fun hgone => ?_⟩
  obtain ⟨ids, hlen, hbytes, hqueue⟩ := pinned_queue gcBatchBlobs
  have hpage : (pinned gcBatchBlobs).tombstoneQueue.take gcBatchBlobs = ids := by
    rw [hqueue, List.take_left' hlen]
  have hpos : 0 < ids.length := hlen ▸ Nat.zero_lt_succ 255
  have hpin : ids[0] ∈ ({ pinned gcBatchBlobs with gc := some (passAt.goto .purgeBlobs) } :
      Server PlainId).tombstoneQueue.take gcBatchBlobs := by
    rw [tombstoneQueue_gc, hpage]
    exact List.getElem_mem hpos
  have hin := (hiff.mp hgone).mem_page hpin
    (pinned_referenced.mpr (hbytes _ (List.getElem_mem hpos)))
  rw [tombstoneQueue_gc, hpage] at hin
  exact orphan_notMem _ (hbytes _ hin)

end Server

end Naatre
