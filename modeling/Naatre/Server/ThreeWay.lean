import Naatre.Server.TreeFiles

/-!
The three-way merge of trees, said path by path, and that the merge of the
land computes it. A blob store that holds more gives the same merge.
-/

namespace Naatre

section

variable {Id : Type} [Platform Id]

/-! ### The merge of a path -/

/-- Both sides changed the path, and their lines do not settle it. -/
def Conflicting (fetchBlob : Id → Option Bytes) (b o t : Option (FileMeta Id)) : Prop :=
  Diverged b o t ∧ ∀ sides : ThreeSides fetchBlob b o t, sides.outcome = .conflict

/-- The mode of a computed file. -/
def mergedExec (b o t : Option (FileMeta Id)) : Bool :=
  resolveExec (b.map (·.exec)) (o.map (·.exec)) (t.map (·.exec))

/-- What a path holds in the merge: the sides' agreement, the side that changed
it, or the file computed from both. -/
inductive MergedAt (fetchBlob : Id → Option Bytes) (on : OnConflict) (p : Path)
    (b o t : Option (FileMeta Id)) : Option (FileMeta Id) → Prop
  | agreed (h : o = t) : MergedAt fetchBlob on p b o t o
  | theirs (hot : o ≠ t) (h : o = b) : MergedAt fetchBlob on p b o t t
  | ours (hot : o ≠ t) (hob : o ≠ b) (h : t = b) : MergedAt fetchBlob on p b o t o
  | computed (bytes : Bytes) (inputs : List Id)
      (h : Computed fetchBlob on p b o t bytes inputs) :
      MergedAt fetchBlob on p b o t
        (some ⟨Platform.blobId bytes, bytes.length, mergedExec b o t⟩)

/-- The three-way merge of trees. -/
def ThreeWay (fetchBlob : Id → Option Bytes) (on : OnConflict)
    (base ours theirs merged : FileMap Id) : Prop :=
  ∀ p, MergedAt fetchBlob on p (base p) (ours p) (theirs p) (merged p)

section

variable {fetchBlob : Id → Option Bytes} {on : OnConflict} {p : Path}
  {b o t : Option (FileMeta Id)}

theorem Computed.diverged {bytes : Bytes} {inputs : List Id}
    (h : Computed fetchBlob on p b o t bytes inputs) : Diverged b o t := by
  cases h with
  | lines hd => exact hd
  | markers hd => exact hd

theorem Computed.unique {bytes bytes' : Bytes} {inputs inputs' : List Id}
    (h : Computed fetchBlob on p b o t bytes inputs)
    (h' : Computed fetchBlob on p b o t bytes' inputs') : bytes = bytes' := by
  cases h with
  | lines hd sides _ hmerged =>
      cases h' with
      | lines _ sides' _ hmerged' =>
          rw [ThreeSides.subsingleton sides' sides, hmerged] at hmerged'
          exact MergeOutcome.merged.inj hmerged'
      | markers _ hconflict =>
          rw [hconflict sides] at hmerged
          cases hmerged
  | markers hd hconflict hon reason rep hrep _ hbytes =>
      cases h' with
      | lines _ sides' _ hmerged' =>
          rw [hconflict sides'] at hmerged'
          cases hmerged'
      | markers _ _ _ reason' rep' hrep' _ hbytes' =>
          have hsame : contentRep (pathConflict p b o t reason) = some rep' := hrep'
          rw [hrep, Option.some.injEq] at hsame
          rw [hsame, hbytes'] at hbytes
          exact (Except.ok.inj hbytes).symm

/-- A path has one merge. -/
theorem MergedAt.unique {r r' : Option (FileMeta Id)} (h : MergedAt fetchBlob on p b o t r)
    (h' : MergedAt fetchBlob on p b o t r') : r = r' := by
  cases h with
  | agreed heq =>
      cases h' with
      | agreed => rfl
      | theirs hot => exact absurd heq hot
      | ours hot => exact absurd heq hot
      | computed _ _ hc => exact absurd heq hc.diverged.1
  | theirs hot heq =>
      cases h' with
      | agreed heq' => exact absurd heq' hot
      | theirs => rfl
      | ours _ hob => exact absurd heq hob
      | computed _ _ hc => exact absurd heq hc.diverged.2.1
  | ours hot hob heq =>
      cases h' with
      | agreed heq' => exact absurd heq' hot
      | theirs _ heq' => exact absurd heq' hob
      | ours => rfl
      | computed _ _ hc => exact absurd heq hc.diverged.2.2
  | computed bytes inputs hc =>
      cases h' with
      | agreed heq => exact absurd heq hc.diverged.1
      | theirs _ heq => exact absurd heq hc.diverged.2.1
      | ours _ _ heq => exact absurd heq hc.diverged.2.2
      | computed bytes' inputs' hc' => rw [hc.unique hc']

end

/-- Trees have one merge. -/
theorem ThreeWay.unique {fetchBlob : Id → Option Bytes} {on : OnConflict}
    {base ours theirs merged merged' : FileMap Id}
    (h : ThreeWay fetchBlob on base ours theirs merged)
    (h' : ThreeWay fetchBlob on base ours theirs merged') : merged = merged' :=
  funext fun p => (h p).unique (h' p)

/-- Over a base that is our own tree, the merge is theirs. -/
theorem ThreeWay.theirs (fetchBlob : Id → Option Bytes) (on : OnConflict)
    (ours theirs : FileMap Id) : ThreeWay fetchBlob on ours ours theirs theirs := by
  intro p
  by_cases h : ours p = theirs p
  · have hagreed : MergedAt fetchBlob on p (ours p) (ours p) (theirs p) (ours p) := .agreed h
    rwa [h] at hagreed ⊢
  · exact .theirs h rfl

/-! ### More blobs -/

/-- The second store finds all the first one finds. -/
def FindsMore (fetchBlob fetchBlob' : Id → Option Bytes) : Prop :=
  ∀ id bytes, fetchBlob id = some bytes → fetchBlob' id = some bytes

section

variable {fetchBlob fetchBlob' : Id → Option Bytes}

/-- The same sides, read from a store that holds more. -/
def ThreeSides.more {b o t : Option (FileMeta Id)} (hmore : FindsMore fetchBlob fetchBlob')
    (sides : ThreeSides fetchBlob b o t) : ThreeSides fetchBlob' b o t :=
  { sides with
    base_ok := hmore _ _ sides.base_ok
    ours_ok := hmore _ _ sides.ours_ok
    theirs_ok := hmore _ _ sides.theirs_ok }

theorem baseSection_more (hmore : FindsMore fetchBlob fetchBlob') {rep : ConflictRep Id}
    {bytes : Bytes} (h : baseSection rep fetchBlob = .ok bytes) :
    baseSection rep fetchBlob' = .ok bytes := by
  unfold baseSection at h ⊢
  split at h
  · exact h
  · split at h
    · cases h
    next content hcontent =>
      rw [hmore _ content hcontent]
      exact h

theorem sideBlocks_more (hmore : FindsMore fetchBlob fetchBlob') {rep : ConflictRep Id} {n : ℕ}
    {i : ℕ} {sides : List Id} {bytes : Bytes} (h : sideBlocks rep n fetchBlob i sides = .ok bytes) :
    sideBlocks rep n fetchBlob' i sides = .ok bytes := by
  induction sides generalizing i bytes with
  | nil => exact h
  | cons side sides ih =>
      have htail : ∀ head : Bytes,
          (do
            let rest ← sideBlocks rep n fetchBlob (i + 1) sides
            pure (head ++ rest) : Except Id Bytes) = .ok bytes →
          (do
            let rest ← sideBlocks rep n fetchBlob' (i + 1) sides
            pure (head ++ rest) : Except Id Bytes) = .ok bytes := by
        intro head h
        simp only [Lib.bind_eq_ok] at h ⊢
        obtain ⟨rest, hrest, h⟩ := h
        exact ⟨rest, ih hrest, h⟩
      rw [sideBlocks] at h ⊢
      cases hcontent : fetchBlob side with
      | none =>
          by_cases hfirst : i = 0
          · simp [hfirst, hcontent] at h
          · by_cases hsecond : i = 1
            · simp only [hsecond, hcontent, if_true, if_false, pure_bind, one_ne_zero] at h
              rw [Lib.bind_eq_ok] at h
              obtain ⟨base, -, h⟩ := h
              cases h
            · simp [hfirst, hsecond, hcontent] at h
      | some content =>
          have hcontent' := hmore side content hcontent
          by_cases hfirst : i = 0
          · simp only [hfirst, hcontent, hcontent', if_true, pure_bind] at h htail ⊢
            exact htail _ h
          · by_cases hsecond : i = 1
            · simp only [hsecond, hcontent, hcontent', if_true, if_false, pure_bind,
                one_ne_zero] at h htail ⊢
              rw [Lib.bind_eq_ok] at h ⊢
              obtain ⟨base, hbase, h⟩ := h
              exact ⟨base, baseSection_more hmore hbase, htail _ h⟩
            · simp only [hfirst, hsecond, hcontent, hcontent', if_false, pure_bind] at h ⊢
              exact htail _ h

theorem markerBytes_more (hmore : FindsMore fetchBlob fetchBlob') {rep : ConflictRep Id}
    {bytes : Bytes} (h : markerBytes rep fetchBlob = .ok bytes) :
    markerBytes rep fetchBlob' = .ok bytes := by
  unfold markerBytes at h ⊢
  rw [Lib.bind_eq_ok] at h ⊢
  obtain ⟨sides, hsides, h⟩ := h
  refine ⟨sides, sideBlocks_more hmore hsides, ?_⟩
  by_cases hdeleted : rep.deleted = true
  · by_cases hone : rep.sides.length = 1
    · simp only [hdeleted, hone, if_true, Lib.bind_eq_ok] at h ⊢
      obtain ⟨base, hbase, h⟩ := h
      exact ⟨base, baseSection_more hmore hbase, h⟩
    · simp only [hdeleted, hone, if_true, if_false] at h ⊢
      exact h
  · simp only [hdeleted] at h ⊢
    exact h

/-! ### The loop -/

/-- What one path of a merge that refused nothing adds to the accumulators. -/
structure PathSettled (fetchBlob : Id → Option Bytes) (on : OnConflict) (p : Path)
    (b o t : Option (FileMeta Id)) (st st' : MergeState Id) (r : Option (FileMeta Id)) : Prop where
  merged : MergedAt fetchBlob on p b o t r
  files : st'.mergedFiles = st.mergedFiles ++ (r.map (p, ·)).toList
  recorded : Conflicting fetchBlob b o t ∧
      (∃ c, c.path = p ∧ st'.recorded = st.recorded ++ [c]) ∨
    ¬ Conflicting fetchBlob b o t ∧ st'.recorded = st.recorded
  refused : st.refused = []
  oversized : st.oversized = []

omit [Platform Id] in
theorem pathConflict_exec (p : Path) (b o t : Option (FileMeta Id)) (reason : String) :
    (pathConflict p b o t reason).exec = mergedExec b o t := by
  cases b <;> cases o <;> cases t <;> rfl

omit [Platform Id] in
theorem ThreeSides.exec_eq {b o t : Option (FileMeta Id)} (sides : ThreeSides fetchBlob b o t) :
    sides.exec = mergedExec b o t := by
  obtain ⟨base, ours, theirs, _, _, _, rfl, rfl, rfl, _, _, _⟩ := sides
  rfl

/-- A conflict that was neither refused nor too large was recorded. -/
theorem ConflictTaken.settled (hmore : FindsMore fetchBlob fetchBlob') {on : OnConflict} {p : Path}
    {b o t : Option (FileMeta Id)} {reason : String} {st mid st' : MergeState Id}
    (h : ConflictTaken fetchBlob on (pathConflict p b o t reason) mid st')
    (hmid : ∃ inputIds, mid = { st with inputIds := inputIds }) (hd : Diverged b o t)
    (hconflict : ∀ sides : ThreeSides fetchBlob' b o t, sides.outcome = .conflict)
    (hrefused : st'.refused = []) (hoversized : st'.oversized = []) :
    ∃ r, PathSettled fetchBlob' on p b o t st st' r := by
  obtain ⟨inputIds, rfl⟩ := hmid
  cases h with
  | refused => simp at hrefused
  | oversized => simp at hoversized
  | recorded rep bytes hon hrep hbytes =>
      have hcomputed : Computed fetchBlob' on p b o t bytes rep.ids :=
        .markers hd hconflict hon reason rep hrep bytes (markerBytes_more hmore hbytes)
      exact ⟨_, .computed bytes rep.ids hcomputed, by rw [← pathConflict_exec p b o t reason]; rfl,
        .inl ⟨⟨hd, hconflict⟩, _, rfl, rfl⟩, hrefused, hoversized⟩

theorem PathMerged.settled (hmore : FindsMore fetchBlob fetchBlob') {on : OnConflict} {p : Path}
    {b o t : Option (FileMeta Id)} {st st' : MergeState Id}
    (h : PathMerged fetchBlob on p b o t st st') (hrefused : st'.refused = [])
    (hoversized : st'.oversized = []) : ∃ r, PathSettled fetchBlob' on p b o t st st' r := by
  cases h with
  | agreed heq =>
      exact ⟨o, .agreed heq, rfl, .inr ⟨fun hc => hc.1.1 heq, rfl⟩, hrefused, hoversized⟩
  | theirs hot heq =>
      exact ⟨t, .theirs hot heq, rfl, .inr ⟨fun hc => hc.1.2.1 heq, rfl⟩, hrefused, hoversized⟩
  | ours hot hob heq =>
      exact ⟨o, .ours hot hob heq, rfl, .inr ⟨fun hc => hc.1.2.2 heq, rfl⟩, hrefused, hoversized⟩
  | lines hd sides bytes hmerged =>
      have hsides : (sides.more hmore).outcome = .merged bytes := hmerged
      have hcomputed : Computed fetchBlob' on p b o t bytes (sides.more hmore).ids :=
        .lines hd (sides.more hmore) bytes hsides
      refine ⟨_, .computed bytes _ hcomputed, by rw [← sides.exec_eq]; rfl, .inr ⟨?_, rfl⟩, hrefused,
        hoversized⟩
      rintro ⟨-, hconflict⟩
      rw [hconflict (sides.more hmore)] at hsides
      cases hsides
  | linesConflict hd sides hconflict reason st' htaken =>
      refine htaken.settled hmore ⟨_, rfl⟩ hd (fun sides' => ?_) hrefused hoversized
      rw [ThreeSides.subsingleton sides' (sides.more hmore)]
      exact hconflict
  | absent hd habsent reason st' htaken =>
      refine htaken.settled hmore ⟨st.inputIds, rfl⟩ hd (fun sides => ?_) hrefused hoversized
      exact absurd habsent (by simp [sides.base_eq, sides.ours_eq, sides.theirs_eq])

/-- What the accumulators hold after some of the paths. -/
structure PathsSettled (fetchBlob : Id → Option Bytes) (on : OnConflict)
    (base ours theirs : FileMap Id) (done : List Path) (st : MergeState Id) : Prop where
  merged : ∀ p ∈ done, MergedAt fetchBlob on p (base p) (ours p) (theirs p) (st.mergedFiles.lookup p)
  recorded : ∀ p ∈ done, p ∈ st.recorded.map (fun c => c.path) ↔
    Conflicting fetchBlob (base p) (ours p) (theirs p)
  files_sub : (st.mergedFiles.map (fun f => f.1)).Sublist done
  recorded_sub : (st.recorded.map (fun c => c.path)).Sublist done

theorem PathsSettled.next {on : OnConflict} {base ours theirs : FileMap Id} {done : List Path}
    {p : Path} {st st' : MergeState Id} {r : Option (FileMeta Id)}
    (h : PathsSettled fetchBlob on base ours theirs done st)
    (hp : PathSettled fetchBlob on p (base p) (ours p) (theirs p) st st' r) (hfresh : p ∉ done) :
    PathsSettled fetchBlob on base ours theirs (done ++ [p]) st' := by
  have hsub : ((r.map (p, ·)).toList.map (fun f => f.1)).Sublist [p] := by
    cases r with
    | none => exact List.nil_sublist _
    | some m => exact .refl _
  have hfiles : ∀ q, st'.mergedFiles.lookup q =
      (st.mergedFiles.lookup q).or (if q = p then r else none) := by
    intro q
    rw [hp.files, List.lookup_append]
    cases r with
    | none => simp
    | some m =>
        by_cases hq : q = p
        · simp [hq]
        · simp [hq, List.lookup_cons, beq_eq_false_iff_ne.mpr hq]
  have hnew : st.mergedFiles.lookup p = none :=
    lookup_eq_none_of_not_mem fun hmem => hfresh (h.files_sub.subset hmem)
  have hnewRecorded : p ∉ st.recorded.map (fun c => c.path) := fun hmem =>
    hfresh (h.recorded_sub.subset hmem)
  refine ⟨fun q hq => ?_, fun q hq => ?_, ?_, ?_⟩
  · rw [hfiles]
    rcases List.mem_append.mp hq with hq | hq
    · have hne : q ≠ p := fun heq => hfresh (heq ▸ hq)
      rw [if_neg hne, Option.or_none]
      exact h.merged q hq
    · obtain rfl := List.mem_singleton.mp hq
      rw [hnew, if_pos rfl, Option.none_or]
      exact hp.merged
  · rcases List.mem_append.mp hq with hq | hq
    · have hne : q ≠ p := fun heq => hfresh (heq ▸ hq)
      rw [← h.recorded q hq]
      rcases hp.recorded with ⟨-, c, hc, hrecorded⟩ | ⟨-, hrecorded⟩
      · rw [hrecorded, List.map_append, List.mem_append]
        simp [hc, hne]
      · rw [hrecorded]
    · obtain rfl := List.mem_singleton.mp hq
      rcases hp.recorded with ⟨hconflict, c, hc, hrecorded⟩ | ⟨hnone, hrecorded⟩
      · rw [hrecorded]
        simp [hc, hconflict]
      · rw [hrecorded]
        exact ⟨fun hmem => absurd hmem hnewRecorded, fun hconflict => absurd hconflict hnone⟩
  · rw [hp.files, List.map_append]
    exact h.files_sub.append hsub
  · rcases hp.recorded with ⟨-, c, hc, hrecorded⟩ | ⟨-, hrecorded⟩
    · rw [hrecorded, List.map_append, List.map_singleton, hc]
      exact h.recorded_sub.append (.refl _)
    · rw [hrecorded]
      exact h.recorded_sub.trans (List.sublist_append_left _ _)

namespace Merged

variable {on : OnConflict} {base ours theirs : MemNode Id} {rec : RecordedMerge Id}

theorem pathsSettled (m : Merged fetchBlob on base ours theirs rec)
    (hmore : FindsMore fetchBlob fetchBlob') (hoversized : rec.oversized = []) :
    PathsSettled fetchBlob' on (filesAt base) (filesAt ours) (filesAt theirs)
      (unionPaths (flattenFiles base) (flattenFiles ours) (flattenFiles theirs)) m.final := by
  rw [m.oversized] at hoversized
  refine Lib.foldlM_induct (P := fun done st => st.refused = [] → st.oversized = [] →
    PathsSettled fetchBlob' on (filesAt base) (filesAt ours) (filesAt theirs) done st)
    m.loop_ok ?_ ?_ m.refused hoversized
  · exact fun _ _ => ⟨by simp, by simp, List.nil_sublist _, List.nil_sublist _⟩
  · intro done p rest st st' hpaths ih hp hrefused hoversized
    obtain ⟨r, hsettled⟩ := (mergePath_ok hp).settled hmore hrefused hoversized
    refine (ih hsettled.refused hsettled.oversized).next hsettled ?_
    have hnodup : (done ++ p :: rest).Nodup := by
      rw [← hpaths]
      exact Path.sortPaths_nodup _
    exact fun hmem => (List.nodup_append.mp hnodup).2.2 p hmem p List.mem_cons_self rfl

/-- The merged tree holds the files of the loop. -/
theorem filesAt_node (m : Merged fetchBlob on base ours theirs rec)
    (hoversized : rec.oversized = []) (p : Path) :
    filesAt rec.tree.node p = m.final.mergedFiles.lookup p ∧
      (m.final.mergedFiles.map (fun f => f.1)).Nodup := by
  have hsettled := m.pathsSettled (show FindsMore fetchBlob fetchBlob from fun _ _ h => h) hoversized
  have hnodup := hsettled.files_sub.nodup (Path.sortPaths_nodup _)
  refine ⟨filesAt_apply ?_ hnodup m.apply_ok p, hnodup⟩
  have hsorted := (Path.sortPaths_pairwise _).sublist hsettled.files_sub
  exact List.pairwise_map.mp hsorted

/-- The merge computes the three-way merge of the trees, and records the
conflicting paths. -/
theorem threeWay (m : Merged fetchBlob on base ours theirs rec)
    (hmore : FindsMore fetchBlob fetchBlob') (hoversized : rec.oversized = []) :
    ThreeWay fetchBlob' on (filesAt base) (filesAt ours) (filesAt theirs) (filesAt rec.tree.node) ∧
      ∀ p, p ∈ rec.conflicts.map (fun c => c.path) ↔
        Conflicting fetchBlob' (filesAt base p) (filesAt ours p) (filesAt theirs p) := by
  have hsettled := m.pathsSettled hmore hoversized
  have hfiles : ∀ p, filesAt rec.tree.node p = m.final.mergedFiles.lookup p :=
    fun p => (m.filesAt_node hoversized p).1
  have habsent : ∀ p, p ∉ unionPaths (flattenFiles base) (flattenFiles ours) (flattenFiles theirs) →
      filesAt ours p = none ∧ filesAt theirs p = none := by
    intro p hp
    rw [mem_unionPaths, not_or, not_or] at hp
    exact ⟨lookup_eq_none_of_not_mem hp.2.1, lookup_eq_none_of_not_mem hp.2.2⟩
  constructor
  · intro p
    rw [hfiles]
    by_cases hp : p ∈ unionPaths (flattenFiles base) (flattenFiles ours) (flattenFiles theirs)
    · exact hsettled.merged p hp
    · obtain ⟨hours, htheirs⟩ := habsent p hp
      have hnone : m.final.mergedFiles.lookup p = none :=
        lookup_eq_none_of_not_mem fun hmem => hp (hsettled.files_sub.subset hmem)
      rw [hnone, hours, htheirs]
      exact .agreed rfl
  · intro p
    rw [m.conflicts]
    by_cases hp : p ∈ unionPaths (flattenFiles base) (flattenFiles ours) (flattenFiles theirs)
    · exact hsettled.recorded p hp
    · obtain ⟨hours, htheirs⟩ := habsent p hp
      refine ⟨fun hmem => absurd (hsettled.recorded_sub.subset hmem) hp, fun hconflict => ?_⟩
      rw [hours, htheirs] at hconflict
      exact absurd rfl hconflict.1.1

/-- A refusing merge is never too large. -/
theorem oversized_refuse (m : Merged fetchBlob .refuse base ours theirs rec) :
    rec.oversized = [] := by
  rw [m.oversized]
  refine Lib.foldlM_invariant (I := fun st => st.oversized = []) m.loop_ok rfl ?_
  intro st p _ st' hnil hp
  have htaken : ∀ (c : PathConflict Id) (mid : MergeState Id), mid.oversized = st.oversized →
      ConflictTaken fetchBlob .refuse c mid st' → st'.oversized = [] := by
    intro c mid hmid h
    cases h with
    | refused => exact hmid.trans hnil
    | oversized _ _ hon => cases hon
    | recorded _ _ hon => cases hon
  cases mergePath_ok hp with
  | agreed => exact hnil
  | theirs => exact hnil
  | ours => exact hnil
  | lines => exact hnil
  | linesConflict hd sides hconflict reason _ hstep =>
      exact htaken _ { st with inputIds := st.inputIds ++ sides.ids } rfl hstep
  | absent hd habsent reason _ hstep => exact htaken _ st rfl hstep

end Merged

end

/-! ### The delta -/

/-- The trees hold the same contents and modes; a size may be recorded
otherwise. -/
def SameContent (a c : FileMap Id) : Prop :=
  ∀ p, (a p).map (fun m => m.key) = (c p).map (fun m => m.key)

theorem deltaAt_eq_none {p : Path} {a c : Option (FileMeta Id)} :
    deltaAt p a c = none ↔ a.map (fun m => m.key) = c.map (fun m => m.key) := by
  cases a <;> cases c <;> simp [deltaAt]

theorem deltaBetween_eq_nil {parent child : MemNode Id} :
    deltaBetween parent child = [] ↔ SameContent (filesAt parent) (filesAt child) := by
  rw [deltaBetween, List.filterMap_eq_nil_iff]
  constructor
  · intro h p
    by_cases hp : p ∈ (flattenFiles parent).map (·.1) ++ (flattenFiles child).map (·.1)
    · exact deltaAt_eq_none.mp (h p (Path.mem_sortPaths.mpr hp))
    · rw [List.mem_append, not_or] at hp
      have hparent : filesAt parent p = none := lookup_eq_none_of_not_mem hp.1
      have hchild : filesAt child p = none := lookup_eq_none_of_not_mem hp.2
      rw [hparent, hchild]
  · exact fun h p _ => deltaAt_eq_none.mpr (h p)

end

end Naatre
