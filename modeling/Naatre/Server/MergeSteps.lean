import Naatre.Lib.Loop
import Naatre.Server.Merge

/-!
What the merge does: the outcome of one path, the loop over the paths, and
which contents flow into the blobs it makes.
-/

namespace Naatre

section

variable {Id : Type} [Platform Id]

/-! ### One path -/

/-- Both sides changed the path, and not alike. -/
def Diverged (b o t : Option (FileMeta Id)) : Prop := o ≠ t ∧ o ≠ b ∧ t ≠ b

/-- Three present sides and their contents. -/
structure ThreeSides (fetchBlob : Id → Option Bytes) (b o t : Option (FileMeta Id)) where
  base : FileMeta Id
  ours : FileMeta Id
  theirs : FileMeta Id
  baseBytes : Bytes
  oursBytes : Bytes
  theirsBytes : Bytes
  base_eq : b = some base
  ours_eq : o = some ours
  theirs_eq : t = some theirs
  base_ok : fetchBlob base.blob = some baseBytes
  ours_ok : fetchBlob ours.blob = some oursBytes
  theirs_ok : fetchBlob theirs.blob = some theirsBytes

namespace ThreeSides

variable {fetchBlob : Id → Option Bytes} {b o t : Option (FileMeta Id)}

def ids (sides : ThreeSides fetchBlob b o t) : List Id :=
  [sides.base.blob, sides.ours.blob, sides.theirs.blob]

def outcome (sides : ThreeSides fetchBlob b o t) : MergeOutcome :=
  mergeLines (Platform.fromLines Id) sides.baseBytes sides.oursBytes sides.theirsBytes

def exec (sides : ThreeSides fetchBlob b o t) : Bool :=
  resolveExec (some sides.base.exec) (some sides.ours.exec) (some sides.theirs.exec)

omit [Platform Id] in
/-- The sides are the three arguments, read once. -/
theorem subsingleton (x y : ThreeSides fetchBlob b o t) : x = y := by
  obtain ⟨base, ours, theirs, baseBytes, oursBytes, theirsBytes, hb, ho, ht, hbase, hours,
    htheirs⟩ := x
  obtain ⟨base', ours', theirs', baseBytes', oursBytes', theirsBytes', hb', ho', ht', hbase',
    hours', htheirs'⟩ := y
  obtain rfl : base = base' := Option.some.inj (hb.symm.trans hb')
  obtain rfl : ours = ours' := Option.some.inj (ho.symm.trans ho')
  obtain rfl : theirs = theirs' := Option.some.inj (ht.symm.trans ht')
  obtain rfl : baseBytes = baseBytes' := Option.some.inj (hbase.symm.trans hbase')
  obtain rfl : oursBytes = oursBytes' := Option.some.inj (hours.symm.trans hours')
  obtain rfl : theirsBytes = theirsBytes' := Option.some.inj (htheirs.symm.trans htheirs')
  rfl

end ThreeSides

/-- The mode a marker rendering leaves at its path. -/
def PathConflict.exec (c : PathConflict Id) : Bool :=
  resolveExec (c.baseBlob.map fun _ => c.baseExec) (c.oursBlob.map fun _ => c.oursExec)
    (c.theirsBlob.map fun _ => c.theirsExec)

/-- The blobs a rendering of the rep reads. -/
def ConflictRep.ids (rep : ConflictRep Id) : List Id := rep.base.toList ++ rep.sides

/-- The three outcomes of a conflict. -/
inductive ConflictTaken (fetchBlob : Id → Option Bytes) (on : OnConflict) (c : PathConflict Id)
    (st : MergeState Id) : MergeState Id → Prop
  | refused (hrefused : on = .refuse ∨ contentRep c = none) :
      ConflictTaken fetchBlob on c st { st with refused := st.refused ++ [c] }
  | oversized (rep : ConflictRep Id) (bytes : Bytes) (hon : on = .record)
      (hrep : contentRep c = some rep) (hbytes : markerBytes rep fetchBlob = .ok bytes) :
      ConflictTaken fetchBlob on c st
        { st with
          inputIds := st.inputIds ++ rep.ids
          oversized := st.oversized ++ [(c.path, bytes.length)] }
  | recorded (rep : ConflictRep Id) (bytes : Bytes) (hon : on = .record)
      (hrep : contentRep c = some rep) (hbytes : markerBytes rep fetchBlob = .ok bytes) :
      ConflictTaken fetchBlob on c st
        { (MergeState.write { st with inputIds := st.inputIds ++ rep.ids } c.path bytes c.exec) with
          recorded := st.recorded ++ [c] }

theorem takeConflict_ok {fetchBlob : Id → Option Bytes} {on : OnConflict} {c : PathConflict Id}
    {st st' : MergeState Id} (h : takeConflict fetchBlob on c st = .ok st') :
    ConflictTaken fetchBlob on c st st' := by
  unfold takeConflict at h
  split at h
  · cases h
    exact .refused (.inl rfl)
  · split at h
    next hnone =>
      cases h
      exact .refused (.inr hnone)
    next rep hrep =>
      simp only [Lib.bind_eq_ok] at h
      obtain ⟨bytes, hbytes, h⟩ := h
      have hids : st.inputIds ++ rep.base.toList ++ rep.sides = st.inputIds ++ rep.ids :=
        List.append_assoc _ _ _
      simp only [hids] at h
      split_ifs at h
      · cases h
        exact .oversized rep bytes rfl hrep hbytes
      · cases h
        exact .recorded rep bytes rfl hrep hbytes

/-- The outcomes of one path. -/
inductive PathMerged (fetchBlob : Id → Option Bytes) (on : OnConflict) (p : Path)
    (b o t : Option (FileMeta Id)) (st : MergeState Id) : MergeState Id → Prop
  | agreed (h : o = t) : PathMerged fetchBlob on p b o t st (st.take p o)
  | theirs (hot : o ≠ t) (h : o = b) : PathMerged fetchBlob on p b o t st (st.take p t)
  | ours (hot : o ≠ t) (hob : o ≠ b) (h : t = b) : PathMerged fetchBlob on p b o t st (st.take p o)
  | lines (hd : Diverged b o t) (sides : ThreeSides fetchBlob b o t) (bytes : Bytes)
      (hmerged : sides.outcome = .merged bytes) :
      PathMerged fetchBlob on p b o t st
        (MergeState.write { st with inputIds := st.inputIds ++ sides.ids } p bytes sides.exec)
  | linesConflict (hd : Diverged b o t) (sides : ThreeSides fetchBlob b o t)
      (hconflict : sides.outcome = .conflict) (reason : String) (st' : MergeState Id)
      (htaken : ConflictTaken fetchBlob on (pathConflict p b o t reason)
        { st with inputIds := st.inputIds ++ sides.ids } st') :
      PathMerged fetchBlob on p b o t st st'
  | absent (hd : Diverged b o t) (habsent : b = none ∨ o = none ∨ t = none) (reason : String)
      (st' : MergeState Id)
      (htaken : ConflictTaken fetchBlob on (pathConflict p b o t reason) st st') :
      PathMerged fetchBlob on p b o t st st'

omit [Platform Id] in
theorem fetchOr_ok {fetchBlob : Id → Option Bytes} {id : Id} {bytes : Bytes}
    (h : fetchOr fetchBlob id = .ok bytes) : fetchBlob id = some bytes := by
  unfold fetchOr at h
  split at h
  · cases h
    assumption
  · cases h

theorem mergePath_ok {fetchBlob : Id → Option Bytes} {on : OnConflict} {p : Path}
    {b o t : Option (FileMeta Id)} {st st' : MergeState Id}
    (h : mergePath fetchBlob on p b o t st = .ok st') :
    PathMerged fetchBlob on p b o t st st' := by
  unfold mergePath at h
  split_ifs at h with hot hob htb
  · cases h
    exact .agreed hot
  · cases h
    exact .theirs hot hob
  · cases h
    exact .ours hot hob htb
  · have hd : Diverged b o t := ⟨hot, hob, htb⟩
    match b, o, t with
    | some bm, some om, some tm =>
        simp only [Lib.bind_eq_ok] at h
        obtain ⟨baseBytes, hbase, oursBytes, hours, theirsBytes, htheirs, h⟩ := h
        let sides : ThreeSides fetchBlob (some bm) (some om) (some tm) :=
          ⟨bm, om, tm, baseBytes, oursBytes, theirsBytes, rfl, rfl, rfl, fetchOr_ok hbase,
            fetchOr_ok hours, fetchOr_ok htheirs⟩
        split at h
        next bytes hmerged =>
          cases h
          exact .lines hd sides bytes hmerged
        next hconflict =>
          exact .linesConflict hd sides hconflict _ st' (takeConflict_ok h)
    | none, some om, some tm =>
        exact .absent hd (.inl rfl) _ st' (takeConflict_ok h)
    | some bm, none, t => exact .absent hd (.inr (.inl rfl)) _ st' (takeConflict_ok h)
    | some bm, some om, none => exact .absent hd (.inr (.inr rfl)) _ st' (takeConflict_ok h)
    | none, none, t => exact .absent hd (.inl rfl) _ st' (takeConflict_ok h)
    | none, some om, none => exact .absent hd (.inl rfl) _ st' (takeConflict_ok h)

/-! ### What flows into a blob -/

/-- The content the merge makes at a path, with the blobs it makes it from: a
line merge of three sides, or the rendering of a recorded conflict. -/
inductive Computed (fetchBlob : Id → Option Bytes) (on : OnConflict) (p : Path)
    (b o t : Option (FileMeta Id)) : Bytes → List Id → Prop
  | lines (hd : Diverged b o t) (sides : ThreeSides fetchBlob b o t) (bytes : Bytes)
      (hmerged : sides.outcome = .merged bytes) : Computed fetchBlob on p b o t bytes sides.ids
  | markers (hd : Diverged b o t)
      (hconflict : ∀ sides : ThreeSides fetchBlob b o t, sides.outcome = .conflict)
      (hon : on = .record) (reason : String) (rep : ConflictRep Id)
      (hrep : contentRep (pathConflict p b o t reason) = some rep) (bytes : Bytes)
      (hbytes : markerBytes rep fetchBlob = .ok bytes) : Computed fetchBlob on p b o t bytes rep.ids

/-- The accumulators only grow. -/
structure MergeState.Grows (st st' : MergeState Id) : Prop where
  files : st.mergedFiles ⊆ st'.mergedFiles
  newBlobs : st.newBlobs ⊆ st'.newBlobs
  inputIds : st.inputIds ⊆ st'.inputIds
  refused : st.refused ⊆ st'.refused

omit [Platform Id] in
theorem MergeState.Grows.trans {a b c : MergeState Id} (hab : a.Grows b) (hbc : b.Grows c) :
    a.Grows c where
  files := fun _ h => hbc.files (hab.files h)
  newBlobs := fun _ h => hbc.newBlobs (hab.newBlobs h)
  inputIds := fun _ h => hbc.inputIds (hab.inputIds h)
  refused := fun _ h => hbc.refused (hab.refused h)

omit [Platform Id] in
theorem MergeState.grows_take (st : MergeState Id) (p : Path) (side : Option (FileMeta Id)) :
    st.Grows (st.take p side) :=
  ⟨List.subset_append_left _ _, List.Subset.refl _, List.Subset.refl _, List.Subset.refl _⟩

theorem MergeState.grows_write (st : MergeState Id) (ids : List Id) (p : Path) (bytes : Bytes)
    (exec : Bool) :
    st.Grows (MergeState.write { st with inputIds := st.inputIds ++ ids } p bytes exec) := by
  refine ⟨List.subset_append_left _ _, ?_, List.subset_append_left _ _, List.Subset.refl _⟩
  simp only [MergeState.write]
  split_ifs
  · exact List.Subset.refl _
  · exact List.subset_append_left _ _

theorem ConflictTaken.grows {fetchBlob : Id → Option Bytes} {on : OnConflict}
    {c : PathConflict Id} {st st' : MergeState Id} (h : ConflictTaken fetchBlob on c st st') :
    st.Grows st' := by
  cases h with
  | refused =>
      exact ⟨List.Subset.refl _, List.Subset.refl _, List.Subset.refl _,
        List.subset_append_left _ _⟩
  | oversized =>
      exact ⟨List.Subset.refl _, List.Subset.refl _, List.subset_append_left _ _,
        List.Subset.refl _⟩
  | recorded rep bytes hon hrep hbytes =>
      have hwrite := st.grows_write rep.ids c.path bytes c.exec
      exact ⟨hwrite.files, hwrite.newBlobs, hwrite.inputIds, hwrite.refused⟩

theorem PathMerged.grows {fetchBlob : Id → Option Bytes} {on : OnConflict} {p : Path}
    {b o t : Option (FileMeta Id)} {st st' : MergeState Id}
    (h : PathMerged fetchBlob on p b o t st st') : st.Grows st' := by
  have hinputs : ∀ ids, st.Grows { st with inputIds := st.inputIds ++ ids } := fun ids =>
    ⟨List.Subset.refl _, List.Subset.refl _, List.subset_append_left _ _, List.Subset.refl _⟩
  cases h with
  | agreed => exact st.grows_take p _
  | theirs => exact st.grows_take p _
  | ours => exact st.grows_take p _
  | lines hd sides bytes hmerged => exact st.grows_write _ p bytes _
  | linesConflict hd sides hconflict reason st' htaken => exact (hinputs _).trans htaken.grows
  | absent hd habsent reason st' htaken => exact htaken.grows

/-- A path that is not refused tracks every blob it computes from. -/
theorem PathMerged.tracked {fetchBlob : Id → Option Bytes} {on : OnConflict} {p : Path}
    {b o t : Option (FileMeta Id)} {st st' : MergeState Id}
    (h : PathMerged fetchBlob on p b o t st st') (hrefused : st'.refused = []) {bytes : Bytes}
    {inputs : List Id} (hcomputed : Computed fetchBlob on p b o t bytes inputs) :
    inputs ⊆ st'.inputIds := by
  have htaken : ∀ (reason : String) (mid : MergeState Id),
      ConflictTaken fetchBlob on (pathConflict p b o t reason) mid st' →
      ∀ rep reason', contentRep (pathConflict p b o t reason') = some rep → on = .record →
      rep.ids ⊆ st'.inputIds := by
    intro reason mid htaken rep reason' hrep hon
    have hsame : contentRep (pathConflict p b o t reason) = some rep := hrep
    cases htaken with
    | refused hor => simp at hrefused
    | oversized rep' bytes _ hrep' =>
        rw [hsame, Option.some.injEq] at hrep'
        rw [hrep']
        exact List.subset_append_right _ _
    | recorded rep' bytes _ hrep' =>
        rw [hsame, Option.some.injEq] at hrep'
        rw [hrep']
        exact List.subset_append_right _ _
  cases h with
  | agreed heq =>
      cases hcomputed with
      | lines hd => exact absurd heq hd.1
      | markers hd => exact absurd heq hd.1
  | theirs hot heq =>
      cases hcomputed with
      | lines hd => exact absurd heq hd.2.1
      | markers hd => exact absurd heq hd.2.1
  | ours hot hob heq =>
      cases hcomputed with
      | lines hd => exact absurd heq hd.2.2
      | markers hd => exact absurd heq hd.2.2
  | lines hd sides merged hmerged =>
      cases hcomputed with
      | lines _ sides' _ _ =>
          rw [ThreeSides.subsingleton sides' sides]
          exact List.subset_append_right _ _
      | markers _ hconflict =>
          rw [hconflict sides] at hmerged
          cases hmerged
  | linesConflict hd sides hconflict reason _ hstep =>
      cases hcomputed with
      | lines _ sides' _ hmerged =>
          rw [ThreeSides.subsingleton sides' sides, hconflict] at hmerged
          cases hmerged
      | markers _ _ hon reason' rep hrep _ _ => exact htaken reason _ hstep rep reason' hrep hon
  | absent hd habsent reason _ hstep =>
      cases hcomputed with
      | lines _ sides _ _ =>
          exact absurd habsent (by simp [sides.base_eq, sides.ours_eq, sides.theirs_eq])
      | markers _ _ hon reason' rep hrep _ _ => exact htaken reason _ hstep rep reason' hrep hon

/-- A new blob is named by its content. -/
def BlobsNamed (blobs : List (Id × Bytes)) : Prop := ∀ b ∈ blobs, b.1 = Platform.blobId b.2

theorem MergeState.named_write {st : MergeState Id} (h : BlobsNamed st.newBlobs) (p : Path)
    (bytes : Bytes) (exec : Bool) : BlobsNamed (st.write p bytes exec).newBlobs := by
  intro b hb
  simp only [MergeState.write] at hb
  split_ifs at hb
  · exact h b hb
  · rcases List.mem_append.mp hb with hb | hb
    · exact h b hb
    · rw [List.mem_singleton.mp hb]

theorem ConflictTaken.named {fetchBlob : Id → Option Bytes} {on : OnConflict}
    {c : PathConflict Id} {st st' : MergeState Id} (h : ConflictTaken fetchBlob on c st st')
    (hnamed : BlobsNamed st.newBlobs) : BlobsNamed st'.newBlobs := by
  cases h with
  | refused => exact hnamed
  | oversized => exact hnamed
  | recorded rep bytes => exact MergeState.named_write hnamed c.path bytes c.exec

theorem PathMerged.named {fetchBlob : Id → Option Bytes} {on : OnConflict} {p : Path}
    {b o t : Option (FileMeta Id)} {st st' : MergeState Id}
    (h : PathMerged fetchBlob on p b o t st st') (hnamed : BlobsNamed st.newBlobs) :
    BlobsNamed st'.newBlobs := by
  cases h with
  | agreed => exact hnamed
  | theirs => exact hnamed
  | ours => exact hnamed
  | lines hd sides bytes => exact MergeState.named_write hnamed p bytes sides.exec
  | linesConflict hd sides hconflict reason st' htaken => exact htaken.named hnamed
  | absent hd habsent reason st' htaken => exact htaken.named hnamed

/-! ### The loop -/

/-- A merge that gave a tree: what its loop held in the end. -/
structure Merged (fetchBlob : Id → Option Bytes) (on : OnConflict) (base ours theirs : MemNode Id)
    (rec : RecordedMerge Id) where
  final : MergeState Id
  loop_ok : mergePaths fetchBlob on (flattenFiles base) (flattenFiles ours) (flattenFiles theirs)
    (unionPaths (flattenFiles base) (flattenFiles ours) (flattenFiles theirs)) = .ok final
  refused : final.refused = []
  apply_ok : MemNode.empty.apply (final.mergedFiles.map addChange) = .ok rec.tree.node
  newBlobs : rec.tree.newBlobs = final.newBlobs
  inputIds : rec.tree.inputIds = final.inputIds
  conflicts : rec.conflicts = final.recorded
  oversized : rec.oversized = final.oversized

theorem mergeTreesMode_ok {fetchBlob : Id → Option Bytes} {on : OnConflict}
    {base ours theirs : MemNode Id} {rec : RecordedMerge Id}
    (h : mergeTreesMode fetchBlob on base ours theirs = .ok rec) :
    Nonempty (Merged fetchBlob on base ours theirs rec) := by
  unfold mergeTreesMode at h
  simp only at h
  split at h
  · cases h
  next st hloop =>
    split_ifs at h with hrefused
    split at h
    · cases h
    next node happly =>
      cases h
      exact ⟨⟨st, hloop, by simpa using hrefused, happly, rfl, rfl, rfl, rfl⟩⟩

omit [Platform Id] in
/-- The paths of the three trees, once each, in order. -/
theorem mem_unionPaths {base ours theirs : Files Id} {p : Path} :
    p ∈ unionPaths base ours theirs ↔
      p ∈ base.map (·.1) ∨ p ∈ ours.map (·.1) ∨ p ∈ theirs.map (·.1) := by
  rw [unionPaths, Path.mem_sortPaths, List.mem_append, List.mem_append, or_assoc]

omit [Platform Id] in
theorem lookup_eq_none_of_not_mem {files : Files Id} {p : Path} (h : p ∉ files.map (·.1)) :
    files.lookup p = none := by
  rw [List.lookup_eq_none_iff]
  intro f hf
  rw [bne_iff_ne]
  exact fun heq => h (List.mem_map.mpr ⟨f, hf, heq.symm⟩)

namespace Merged

variable {fetchBlob : Id → Option Bytes} {on : OnConflict} {base ours theirs : MemNode Id}
  {rec : RecordedMerge Id}

theorem named (m : Merged fetchBlob on base ours theirs rec) : BlobsNamed rec.tree.newBlobs := by
  rw [m.newBlobs]
  refine Lib.foldlM_invariant (I := fun st => BlobsNamed st.newBlobs) m.loop_ok ?_ ?_
  · exact fun b hb => absurd hb List.not_mem_nil
  · exact fun st p _ st' hnamed hp => (mergePath_ok hp).named hnamed

/-- Every blob whose content flows into one the merge made is tracked. -/
theorem tracked (m : Merged fetchBlob on base ours theirs rec) {p : Path} {bytes : Bytes}
    {inputs : List Id}
    (hcomputed : Computed fetchBlob on p ((flattenFiles base).lookup p)
      ((flattenFiles ours).lookup p) ((flattenFiles theirs).lookup p) bytes inputs) :
    inputs ⊆ rec.tree.inputIds := by
  rw [m.inputIds]
  have hp : p ∈ unionPaths (flattenFiles base) (flattenFiles ours) (flattenFiles theirs) := by
    by_contra hno
    rw [mem_unionPaths, not_or, not_or] at hno
    have hd : (flattenFiles ours).lookup p ≠ (flattenFiles theirs).lookup p := by
      cases hcomputed with
      | lines hd => exact hd.1
      | markers hd => exact hd.1
    rw [lookup_eq_none_of_not_mem hno.2.1, lookup_eq_none_of_not_mem hno.2.2] at hd
    exact hd rfl
  have hall := Lib.foldlM_induct (P := fun done st => st.refused = [] → ∀ p ∈ done,
      ∀ bytes inputs, Computed fetchBlob on p ((flattenFiles base).lookup p)
        ((flattenFiles ours).lookup p) ((flattenFiles theirs).lookup p) bytes inputs →
        inputs ⊆ st.inputIds) m.loop_ok (by simp) ?_
  · exact hall m.refused p hp bytes inputs hcomputed
  · intro done q rest st st' _ ih hq hrefused p hp bytes inputs hcomputed
    have hstep := mergePath_ok hq
    rcases List.mem_append.mp hp with hp | hp
    · have hbefore : st.refused = [] :=
        List.eq_nil_iff_forall_not_mem.mpr fun c hc => by
          have := hstep.grows.refused hc
          simp [hrefused] at this
      exact fun id hid => hstep.grows.inputIds (ih hbefore p hp bytes inputs hcomputed hid)
    · obtain rfl := List.mem_singleton.mp hp
      exact hstep.tracked hrefused hcomputed

end Merged

end

end Naatre
