import Naatre.Core.Plain
import Naatre.Server.ContentRep
import Naatre.Server.DeltaApply
import Naatre.Server.LandReport
import Naatre.Server.MergeSymmetry

/-!
The refusing and the recording mode of the tree merge. A merge that meets no
conflict is the same in both. One that meets some is recorded whole, unless a
conflict has no valid representation: then two of the three trees hold the same
file, with different sizes recorded of it.
-/

namespace Naatre

section

variable {Id : Type}

/-! ### Conditions on a path -/

/-- A file added twice, or deleted and kept, of which the two trees that have it
differ in the recorded size only. -/
def SizeClash (b o t : Option (FileMeta Id)) : Prop :=
  Diverged b o t ∧ (b = none ∨ o = none ∨ t = none) ∧ ¬ KeysDiffer b o t

/-- Content that the merge of the path has to read is not there. -/
def MissingContent (fetchBlob : Id → Option Bytes) (b o t : Option (FileMeta Id)) : Prop :=
  Diverged b o t ∧ ¬ SizeClash b o t ∧
    ∃ m, (b = some m ∨ o = some m ∨ t = some m) ∧ fetchBlob m.blob = none

theorem not_sizeClash_of_present {b o t : FileMeta Id} :
    ¬ SizeClash (some b) (some o) (some t) := by
  rintro ⟨-, hnone, -⟩
  simp at hnone

variable [Platform Id]

/-! ### One path -/

theorem Diverged.sides_ne_nil {p : Path} {b o t : Option (FileMeta Id)} {reason : String}
    (hd : Diverged b o t) : (pathConflict p b o t reason).sides ≠ [] := by
  have hlen : (pathConflict p b o t reason).sides.length = (o.map (·.blob)).toList.length +
      (t.map (·.blob)).toList.length := by
    rw [PathConflict.sides, List.length_insertionSort, List.length_append]
    cases o <;> cases t <;> rfl
  intro hnil
  rw [hnil] at hlen
  cases o <;> cases t <;> simp at hlen
  exact hd.1 rfl

/-- A conflict that is not recorded lacks content of a version. -/
theorem takeConflict_error {fetchBlob : Id → Option Bytes} {p : Path}
    {b o t : Option (FileMeta Id)} {reason : String} {st : MergeState Id} {id : Id}
    (h : takeConflict fetchBlob .record (pathConflict p b o t reason) st = .error id)
    (hd : Diverged b o t) :
    KeysDiffer b o t ∧ fetchBlob id = none ∧
      ∃ m, (b = some m ∨ o = some m ∨ t = some m) ∧ m.blob = id := by
  unfold takeConflict at h
  split at h
  next heq => cases heq
  split at h
  next => cases h
  next rep hrep =>
    obtain ⟨rfl, -, hshape⟩ := contentRep_iff.mp hrep
    refine ⟨(pathConflict_shapeOk hd).mp hshape, ?_⟩
    simp only [bind, Except.bind] at h
    split at h
    next e herror =>
      cases h
      obtain ⟨hid, hmissing⟩ := markerBytes_error (PathConflict.rep_twoSided hd.sides_ne_nil) herror
      exact ⟨hmissing, mem_pathConflict_ids.mp hid⟩
    next bytes hbytes =>
      split_ifs at h <;> cases h

/-- The merge of a path fails for content that is not there. -/
theorem mergePath_error {fetchBlob : Id → Option Bytes} {p : Path} {b o t : Option (FileMeta Id)}
    {st : MergeState Id} {id : Id} (h : mergePath fetchBlob .record p b o t st = .error id) :
    fetchBlob id = none ∧ MissingContent fetchBlob b o t := by
  have hfetch : ∀ {x e}, fetchOr fetchBlob x = .error e → x = e ∧ fetchBlob x = none := by
    intro x e hx
    unfold fetchOr at hx
    split at hx
    · cases hx
    next hmissing =>
      cases hx
      exact ⟨rfl, hmissing⟩
  unfold mergePath at h
  split_ifs at h with hot hob htb
  have hd : Diverged b o t := ⟨hot, hob, htb⟩
  have htaken : ∀ {reason st}, takeConflict fetchBlob .record (pathConflict p b o t reason) st =
      .error id → fetchBlob id = none ∧ MissingContent fetchBlob b o t := by
    intro reason st htake
    obtain ⟨hkeys, hmissing, m, hm, rfl⟩ := takeConflict_error htake hd
    exact ⟨hmissing, hd, fun hclash => hclash.2.2 hkeys, m, hm, hmissing⟩
  match b, o, t with
  | some bm, some om, some tm =>
      simp only [bind, Except.bind] at h
      cases hbase : fetchOr fetchBlob bm.blob with
      | error e =>
          rw [hbase] at h
          cases h
          obtain ⟨rfl, hmissing⟩ := hfetch hbase
          exact ⟨hmissing, hd, not_sizeClash_of_present, bm, .inl rfl, hmissing⟩
      | ok baseBytes =>
      cases hours : fetchOr fetchBlob om.blob with
      | error e =>
          rw [hbase, hours] at h
          cases h
          obtain ⟨rfl, hmissing⟩ := hfetch hours
          exact ⟨hmissing, hd, not_sizeClash_of_present, om, .inr (.inl rfl), hmissing⟩
      | ok oursBytes =>
      cases htheirs : fetchOr fetchBlob tm.blob with
      | error e =>
          rw [hbase, hours, htheirs] at h
          cases h
          obtain ⟨rfl, hmissing⟩ := hfetch htheirs
          exact ⟨hmissing, hd, not_sizeClash_of_present, tm, .inr (.inr rfl), hmissing⟩
      | ok theirsBytes =>
          rw [hbase, hours, htheirs] at h
          simp only at h
          split at h
          next => cases h
          next => exact htaken h
  | none, some om, some tm => exact htaken h
  | some bm, none, t => exact htaken h
  | some bm, some om, none => exact htaken h
  | none, none, t => exact absurd rfl hob
  | none, some om, none => exact absurd rfl htb

/-- A line conflict is one of three different contents. -/
theorem ThreeSides.keysDiffer {fetchBlob : Id → Option Bytes} {b o t : Option (FileMeta Id)}
    (sides : ThreeSides fetchBlob b o t) (hconflict : sides.outcome = .conflict) :
    KeysDiffer b o t := by
  obtain ⟨base, ours, theirs, baseBytes, oursBytes, theirsBytes, rfl, rfl, rfl, hbase, hours,
    htheirs⟩ := sides
  unfold ThreeSides.outcome mergeLines at hconflict
  split_ifs at hconflict with hob htb hot
  all_goals
    have hne : ∀ {x y : FileMeta Id} {xs ys : Bytes}, fetchBlob x.blob = some xs →
        fetchBlob y.blob = some ys → xs ≠ ys → some x.key ≠ some y.key := by
      intro x y xs ys hx hy hdiffer heq
      rw [Option.some.injEq, FileMeta.key, FileMeta.key, Prod.mk.injEq] at heq
      rw [heq.1, hy, Option.some.injEq] at hx
      exact hdiffer hx.symm
    exact ⟨hne hours htheirs hot, hne hours hbase hob, hne htheirs hbase htb⟩

/-- What a path that was merged or whose conflict was taken leaves: all it reads
is there, and it refuses a size clash. -/
theorem PathMerged.answered {fetchBlob : Id → Option Bytes} {p : Path}
    {b o t : Option (FileMeta Id)} {st st' : MergeState Id}
    (hpath : Diverged b o t → p.validate (Platform.nfc Id) = .ok ())
    (h : PathMerged fetchBlob .record p b o t st st') :
    ¬ MissingContent fetchBlob b o t ∧
      (¬ SizeClash b o t ∧ st'.refused = st.refused ∨
        SizeClash b o t ∧ ∃ c, c.sides ≠ [] ∧ st'.refused = st.refused ++ [c]) := by
  have hsettled : ¬ Diverged b o t → st'.refused = st.refused → ¬ MissingContent fetchBlob b o t ∧
      (¬ SizeClash b o t ∧ st'.refused = st.refused ∨
        SizeClash b o t ∧ ∃ c, c.sides ≠ [] ∧ st'.refused = st.refused ++ [c]) :=
    fun hd heq => ⟨fun hm => hd hm.1, .inl ⟨fun hc => hd hc.1, heq⟩⟩
  have hread : ∀ sides : ThreeSides fetchBlob b o t,
      ¬ MissingContent fetchBlob b o t ∧ ¬ SizeClash b o t := by
    rintro ⟨base, ours, theirs, baseBytes, oursBytes, theirsBytes, rfl, rfl, rfl, hbase, hours,
      htheirs⟩
    refine ⟨?_, not_sizeClash_of_present⟩
    rintro ⟨-, -, m, hm | hm | hm, hmissing⟩
    · rw [← Option.some.inj hm, hbase] at hmissing
      cases hmissing
    · rw [← Option.some.inj hm, hours] at hmissing
      cases hmissing
    · rw [← Option.some.inj hm, htheirs] at hmissing
      cases hmissing
  cases h with
  | agreed heq => exact hsettled (fun hd => hd.1 heq) rfl
  | theirs _ heq => exact hsettled (fun hd => hd.2.1 heq) rfl
  | ours _ _ heq => exact hsettled (fun hd => hd.2.2 heq) rfl
  | lines hd sides => exact ⟨(hread sides).1, .inl ⟨(hread sides).2, rfl⟩⟩
  | linesConflict hd sides hconflict reason st' htaken =>
      refine ⟨(hread sides).1, .inl ⟨(hread sides).2, ?_⟩⟩
      cases htaken with
      | refused hrefused =>
          have hnone := hrefused.resolve_left (by simp)
          exact absurd (sides.keysDiffer hconflict)
            ((contentRep_pathConflict (hpath hd) hd).mp hnone)
      | oversized => rfl
      | recorded => rfl
  | absent hd habsent reason st' htaken =>
      have hkeys : ∀ rep bytes, contentRep (pathConflict p b o t reason) = some rep →
          markerBytes rep fetchBlob = .ok bytes →
          ¬ MissingContent fetchBlob b o t ∧ ¬ SizeClash b o t := by
        intro rep bytes hrep hbytes
        obtain ⟨rfl, -, hshape⟩ := contentRep_iff.mp hrep
        refine ⟨?_, fun hclash => hclash.2.2 ((pathConflict_shapeOk hd).mp hshape)⟩
        rintro ⟨-, -, m, hm, hmissing⟩
        exact markerBytes_reads (contentRep_twoSided hrep).1 hbytes _
          (mem_pathConflict_ids.mpr ⟨m, hm, rfl⟩) hmissing
      cases htaken with
      | refused hrefused =>
          have hnone := hrefused.resolve_left (by simp)
          have hclash : SizeClash b o t :=
            ⟨hd, habsent, (contentRep_pathConflict (hpath hd) hd).mp hnone⟩
          exact ⟨fun hm => hm.2.1 hclash, .inr ⟨hclash, _, hd.sides_ne_nil, rfl⟩⟩
      | oversized rep bytes _ hrep hbytes =>
          obtain ⟨hread, hclash⟩ := hkeys rep bytes hrep hbytes
          exact ⟨hread, .inl ⟨hclash, rfl⟩⟩
      | recorded rep bytes _ hrep hbytes =>
          obtain ⟨hread, hclash⟩ := hkeys rep bytes hrep hbytes
          exact ⟨hread, .inl ⟨hclash, rfl⟩⟩

/-- The file a path adds to the merged files, if any, is the merge there. -/
theorem PathMerged.files {fetchBlob : Id → Option Bytes} {on : OnConflict} {p : Path}
    {b o t : Option (FileMeta Id)} {st st' : MergeState Id}
    (h : PathMerged fetchBlob on p b o t st st') :
    ∃ r : Option (FileMeta Id), st'.mergedFiles = st.mergedFiles ++ (r.map (p, ·)).toList ∧
      ∀ m, r = some m → MergedAt fetchBlob on p b o t (some m) := by
  have htaken : ∀ {reason : String} {ids : List Id}, Diverged b o t →
      (∀ sides : ThreeSides fetchBlob b o t, sides.outcome = .conflict) →
      ConflictTaken fetchBlob on (pathConflict p b o t reason) { st with inputIds := ids } st' →
      ∃ r : Option (FileMeta Id), st'.mergedFiles = st.mergedFiles ++ (r.map (p, ·)).toList ∧
        ∀ m, r = some m → MergedAt fetchBlob on p b o t (some m) := by
    intro reason ids hd hconflict htake
    cases htake with
    | refused => exact ⟨none, (List.append_nil _).symm, by simp⟩
    | oversized => exact ⟨none, (List.append_nil _).symm, by simp⟩
    | recorded rep bytes hon hrep hbytes =>
        refine ⟨some ⟨Platform.blobId bytes, bytes.length, mergedExec b o t⟩, ?_, ?_⟩
        · rw [← pathConflict_exec p b o t reason]
          rfl
        intro m hm
        obtain rfl := Option.some.inj hm
        exact .computed bytes rep.ids (.markers hd hconflict hon reason rep hrep bytes hbytes)
  cases h with
  | agreed heq => exact ⟨o, rfl, fun m hm => hm ▸ .agreed heq⟩
  | theirs hot heq => exact ⟨t, rfl, fun m hm => hm ▸ .theirs hot heq⟩
  | ours hot hob heq => exact ⟨o, rfl, fun m hm => hm ▸ .ours hot hob heq⟩
  | lines hd sides bytes hmerged =>
      refine ⟨some ⟨Platform.blobId bytes, bytes.length, mergedExec b o t⟩, ?_, ?_⟩
      · rw [← sides.exec_eq]
        rfl
      intro m hm
      obtain rfl := Option.some.inj hm
      exact .computed bytes sides.ids (.lines hd sides bytes hmerged)
  | linesConflict hd sides hconflict reason _ hstep =>
      refine htaken hd (fun sides' => ?_) hstep
      rw [ThreeSides.subsingleton sides' sides]
      exact hconflict
  | absent hd habsent reason _ hstep =>
      refine @htaken reason st.inputIds hd (fun sides => ?_) hstep
      exact absurd habsent (by simp [sides.base_eq, sides.ours_eq, sides.theirs_eq])

/-- What a path adds to the recorded conflicts is its own. -/
theorem PathMerged.recorded_own {fetchBlob : Id → Option Bytes} {on : OnConflict} {p : Path}
    {b o t : Option (FileMeta Id)} {st st' : MergeState Id}
    (h : PathMerged fetchBlob on p b o t st st') :
    ∀ c ∈ st'.recorded, c ∈ st.recorded ∨ ∃ reason, c = pathConflict p b o t reason := by
  have htaken : ∀ {reason : String} {ids : List Id},
      ConflictTaken fetchBlob on (pathConflict p b o t reason) { st with inputIds := ids } st' →
      ∀ c ∈ st'.recorded, c ∈ st.recorded ∨ ∃ reason, c = pathConflict p b o t reason := by
    intro reason ids htake c hc
    cases htake with
    | refused => exact .inl hc
    | oversized => exact .inl hc
    | recorded =>
        rcases List.mem_append.mp hc with hc | hc
        · exact .inl hc
        · exact .inr ⟨reason, List.mem_singleton.mp hc⟩
  cases h with
  | agreed => exact fun c hc => .inl hc
  | theirs => exact fun c hc => .inl hc
  | ours => exact fun c hc => .inl hc
  | lines => exact fun c hc => .inl hc
  | linesConflict hd sides hconflict reason _ hstep => exact htaken hstep
  | absent hd habsent reason _ hstep => exact @htaken reason st.inputIds hstep

/-- A marker that is reported as too large is. -/
def Oversized (fetchBlob : Id → Option Bytes) (x : Path × ℕ) : Prop :=
  ∃ rep bytes, rep.path = x.1 ∧ markerBytes rep fetchBlob = .ok bytes ∧ bytes.length = x.2 ∧
    blobLimit < x.2

theorem takeConflict_oversized {fetchBlob : Id → Option Bytes} {on : OnConflict}
    {c : PathConflict Id} {st st' : MergeState Id} (h : takeConflict fetchBlob on c st = .ok st') :
    ∀ x ∈ st'.oversized, x ∈ st.oversized ∨ Oversized fetchBlob x := by
  unfold takeConflict at h
  split at h
  next =>
    cases h
    exact fun x hx => .inl hx
  next =>
    split at h
    next =>
      cases h
      exact fun x hx => .inl hx
    next rep hrep =>
      simp only [Lib.bind_eq_ok] at h
      obtain ⟨bytes, hbytes, h⟩ := h
      split_ifs at h with hlarge
      · cases h
        intro x hx
        rcases List.mem_append.mp hx with hx | hx
        · exact .inl hx
        · obtain rfl := List.mem_singleton.mp hx
          exact .inr ⟨rep, bytes, contentRep_some hrep, hbytes, rfl, hlarge⟩
      · cases h
        exact fun x hx => .inl hx

theorem mergePath_oversized {fetchBlob : Id → Option Bytes} {on : OnConflict} {p : Path}
    {b o t : Option (FileMeta Id)} {st st' : MergeState Id}
    (h : mergePath fetchBlob on p b o t st = .ok st') :
    ∀ x ∈ st'.oversized, x ∈ st.oversized ∨ Oversized fetchBlob x := by
  unfold mergePath at h
  split_ifs at h with hot hob htb
  · cases h
    exact fun x hx => .inl hx
  · cases h
    exact fun x hx => .inl hx
  · cases h
    exact fun x hx => .inl hx
  · match b, o, t with
    | some bm, some om, some tm =>
        simp only [Lib.bind_eq_ok] at h
        obtain ⟨baseBytes, -, oursBytes, -, theirsBytes, -, h⟩ := h
        split at h
        next =>
          cases h
          exact fun x hx => .inl hx
        next =>
          have htake := takeConflict_oversized h
          exact htake
    | none, some om, some tm => exact takeConflict_oversized h
    | some bm, none, t => exact takeConflict_oversized h
    | some bm, some om, none => exact takeConflict_oversized h
    | none, none, t => exact takeConflict_oversized h
    | none, some om, none => exact takeConflict_oversized h

/-! ### Merges without conflicts -/

/-- Nothing was refused, recorded or found too large. -/
structure MergeState.Quiet (st : MergeState Id) : Prop where
  refused : st.refused = []
  recorded : st.recorded = []
  oversized : st.oversized = []

theorem ConflictTaken.not_quiet {fetchBlob : Id → Option Bytes} {on : OnConflict}
    {c : PathConflict Id} {st st' : MergeState Id} (h : ConflictTaken fetchBlob on c st st') :
    ¬ st'.Quiet := by
  intro hquiet
  cases h with
  | refused => exact absurd hquiet.refused (by simp)
  | oversized => exact absurd hquiet.oversized (by simp)
  | recorded => exact absurd hquiet.recorded (by simp)

theorem PathMerged.quiet_before {fetchBlob : Id → Option Bytes} {on : OnConflict} {p : Path}
    {b o t : Option (FileMeta Id)} {st st' : MergeState Id}
    (h : PathMerged fetchBlob on p b o t st st') (hquiet : st'.Quiet) : st.Quiet := by
  cases h with
  | agreed => exact ⟨hquiet.refused, hquiet.recorded, hquiet.oversized⟩
  | theirs => exact ⟨hquiet.refused, hquiet.recorded, hquiet.oversized⟩
  | ours => exact ⟨hquiet.refused, hquiet.recorded, hquiet.oversized⟩
  | lines => exact ⟨hquiet.refused, hquiet.recorded, hquiet.oversized⟩
  | linesConflict _ _ _ _ _ htaken => exact absurd hquiet htaken.not_quiet
  | absent _ _ _ _ htaken => exact absurd hquiet htaken.not_quiet

/-- A path without a conflict is merged alike in both modes. -/
theorem mergePath_quiet {fetchBlob : Id → Option Bytes} {on : OnConflict} (on' : OnConflict)
    {p : Path} {b o t : Option (FileMeta Id)} {st st' : MergeState Id}
    (h : mergePath fetchBlob on p b o t st = .ok st') (hquiet : st'.Quiet) :
    mergePath fetchBlob on' p b o t st = .ok st' := by
  unfold mergePath at h ⊢
  by_cases hot : o = t
  · rwa [if_pos hot] at h ⊢
  rw [if_neg hot] at h ⊢
  by_cases hob : o = b
  · rwa [if_pos hob] at h ⊢
  rw [if_neg hob] at h ⊢
  by_cases htb : t = b
  · rwa [if_pos htb] at h ⊢
  rw [if_neg htb] at h ⊢
  have htaken : ∀ {c st}, takeConflict fetchBlob on c st ≠ .ok st' :=
    fun htake => (takeConflict_ok htake).not_quiet hquiet
  match b, o, t with
  | some bm, some om, some tm =>
      simp only [Lib.bind_eq_ok] at h ⊢
      obtain ⟨baseBytes, hbase, oursBytes, hours, theirsBytes, htheirs, h⟩ := h
      refine ⟨baseBytes, hbase, oursBytes, hours, theirsBytes, htheirs, ?_⟩
      cases hlines : mergeLines (Platform.fromLines Id) baseBytes oursBytes theirsBytes with
      | merged bytes =>
          rw [hlines] at h
          exact h
      | conflict =>
          rw [hlines] at h
          exact absurd h htaken
  | none, some om, some tm => exact absurd h htaken
  | some bm, none, t => exact absurd h htaken
  | some bm, some om, none => exact absurd h htaken
  | none, none, t => exact absurd h htaken
  | none, some om, none => exact absurd h htaken

theorem mergePaths_quiet {fetchBlob : Id → Option Bytes} {on : OnConflict} (on' : OnConflict)
    {base ours theirs : Files Id} {paths : List Path} {st' : MergeState Id}
    (h : mergePaths fetchBlob on base ours theirs paths = .ok st') (hquiet : st'.Quiet) :
    mergePaths fetchBlob on' base ours theirs paths = .ok st' := by
  have hloop : ∀ st, paths.foldlM (fun st p =>
      mergePath fetchBlob on p (base.lookup p) (ours.lookup p) (theirs.lookup p) st) st = .ok st' →
      paths.foldlM (fun st p =>
        mergePath fetchBlob on' p (base.lookup p) (ours.lookup p) (theirs.lookup p) st) st =
          .ok st' ∧ st.Quiet := by
    clear h
    induction paths with
    | nil =>
        intro st h
        cases h
        exact ⟨rfl, hquiet⟩
    | cons p paths ih =>
        intro st h
        rw [List.foldlM_cons, Lib.bind_eq_ok] at h
        obtain ⟨mid, hp, h⟩ := h
        obtain ⟨hrest, hmid⟩ := ih mid h
        refine ⟨?_, (mergePath_ok hp).quiet_before hmid⟩
        rw [List.foldlM_cons, Lib.bind_eq_ok]
        exact ⟨mid, mergePath_quiet on' hp hmid, hrest⟩
  exact (hloop _ h).1

theorem mergeTreesMode_quiet {fetchBlob : Id → Option Bytes} {on : OnConflict} (on' : OnConflict)
    {base ours theirs : MemNode Id} {m : MergedTree Id}
    (h : mergeTreesMode fetchBlob on base ours theirs = .ok ⟨m, [], []⟩) :
    mergeTreesMode fetchBlob on' base ours theirs = .ok ⟨m, [], []⟩ := by
  obtain ⟨merge⟩ := mergeTreesMode_ok h
  have hquiet : merge.final.Quiet := ⟨merge.refused, merge.conflicts.symm, merge.oversized.symm⟩
  have hloop := mergePaths_quiet on' merge.loop_ok hquiet
  have happly := merge.apply_ok
  simp only [mergeTreesMode, hloop, merge.refused, ne_eq, not_true_eq_false, if_false, happly,
    hquiet.recorded, hquiet.oversized]
  rw [← merge.newBlobs, ← merge.inputIds]

/-- The refusing mode records nothing. -/
theorem Merged.refuse_records {fetchBlob : Id → Option Bytes} {base ours theirs : MemNode Id}
    {rec : RecordedMerge Id} (m : Merged fetchBlob .refuse base ours theirs rec) :
    rec.conflicts = [] := by
  rw [m.conflicts]
  refine Lib.foldlM_invariant (I := fun st => st.recorded = []) m.loop_ok rfl ?_
  intro st p _ st' hnil hp
  have htaken : ∀ (c : PathConflict Id) (mid : MergeState Id), mid.recorded = st.recorded →
      ConflictTaken fetchBlob .refuse c mid st' → st'.recorded = [] := by
    intro c mid hmid h
    cases h with
    | refused => exact hmid.trans hnil
    | oversized _ _ hon => cases hon
    | recorded _ _ hon => cases hon
  cases mergePath_ok hp with
  | agreed => exact hnil
  | theirs => exact hnil
  | ours => exact hnil
  | lines => exact hnil
  | linesConflict hd sides hconflict reason _ hstep =>
      exact htaken _ { st with inputIds := st.inputIds ++ sides.ids } rfl hstep
  | absent hd habsent reason _ hstep => exact htaken _ st rfl hstep

/-- The refusing merge gives a tree exactly when the recording one gives it
without a conflict. -/
theorem mergeTrees_iff_recording {fetchBlob : Id → Option Bytes} {base ours theirs : MemNode Id}
    {m : MergedTree Id} : mergeTrees fetchBlob base ours theirs = .ok m ↔
      mergeTreesRecording fetchBlob base ours theirs = .ok ⟨m, [], []⟩ := by
  rw [mergeTrees, Lib.map_eq_ok]
  constructor
  · rintro ⟨rec, hrec, rfl⟩
    obtain ⟨merge⟩ := mergeTreesMode_ok hrec
    have hrec' : rec = ⟨rec.tree, [], []⟩ := by
      rw [← merge.refuse_records, ← merge.oversized_refuse]
    rw [hrec'] at hrec
    exact mergeTreesMode_quiet .record hrec
  · intro h
    exact ⟨_, mergeTreesMode_quiet .refuse h, rfl⟩

/-! ### Trees -/

/-- A tree whose paths follow the path grammar. -/
structure MemNode.Grammatical (node : MemNode Id) : Prop where
  names : node.Names NoSlash
  valid : ∀ p m, filesAt node p = some m → p.validate (Platform.nfc Id) = .ok ()

omit [Platform Id] in
/-- Files in path order fail to make a tree where one lies below another. -/
theorem apply_files_error {files : Files Id}
    (horder : files.Pairwise fun f g => f.1.before g.1 = true)
    (hnodup : (files.map (fun f => f.1)).Nodup)
    (hdepth : ∀ f ∈ files, f.1.components.length ≤ maxPathComponents) {e : ApplyError}
    (h : MemNode.empty.apply (files.map addChange) = .error e) :
    ∃ f ∈ files, ∃ g ∈ files, g.1.components <+: f.1.dirs ∧ e = .fileInPath f.1 := by
  rw [MemNode.apply, List.foldlM_map] at h
  obtain ⟨done, f, rest, node, hfiles, hdone, hf⟩ := Lib.foldlM_error h
  have hmem : f ∈ files := by
    rw [hfiles]
    exact List.mem_append_right _ List.mem_cons_self
  have hsub : done.Sublist files := hfiles ▸ List.sublist_append_left _ _
  have hholds := HoldsFiles.of_loop (horder.sublist hsub) (hnodup.sublist (hsub.map _)) hdone
  have hshallow : ¬ maxPathComponents < (addChange f).path.components.length :=
    not_lt.mpr (hdepth f hmem)
  rw [MemNode.applyChange, if_neg hshallow] at hf
  simp only [addChange, MemNode.insertFile, reduceCtorEq, decide_false, Bool.false_and,
    Bool.false_eq_true, if_false] at hf
  split at hf
  next => cases hf
  next hnone =>
    cases hf
    by_contra hclear
    obtain ⟨node', hinsert⟩ : ∃ node', node.insertIn f.1.leaf f.2.entry f.1.dirs = some node' := by
      refine MemNode.insertIn_exists fun ds d hprefix => ?_
      have hfile := hholds.files ⟨ds, d⟩
      rw [MemNode.lookup] at hfile
      rw [hfile]
      refine lookup_eq_none_of_not_mem fun hin => ?_
      obtain ⟨g, hg, hpath⟩ := List.mem_map.mp hin
      refine hclear ⟨f, hmem, g, hsub.subset hg, ?_, rfl⟩
      rw [hpath]
      exact hprefix
    rw [FileMeta.entry, hnone] at hinsert
    cases hinsert

/-! ### The loop -/

/-- What the loop of a recording merge has done after some of the paths. -/
structure PathsAnswered (fetchBlob : Id → Option Bytes) (base ours theirs : FileMap Id)
    (done : List Path) (st : MergeState Id) : Prop where
  read : ∀ p ∈ done, ¬ MissingContent fetchBlob (base p) (ours p) (theirs p)
  refused : st.refused = [] ↔ ∀ p ∈ done, ¬ SizeClash (base p) (ours p) (theirs p)
  sides : ∀ c ∈ st.refused, c.sides ≠ []
  merged : ∀ f ∈ st.mergedFiles,
    MergedAt fetchBlob .record f.1 (base f.1) (ours f.1) (theirs f.1) (some f.2)
  files_sub : (st.mergedFiles.map (fun f => f.1)).Sublist done
  own : ∀ c ∈ st.recorded, ∃ reason,
    c = pathConflict c.path (base c.path) (ours c.path) (theirs c.path) reason
  oversized : ∀ x ∈ st.oversized, Oversized fetchBlob x

theorem PathsAnswered.next {fetchBlob : Id → Option Bytes} {base ours theirs : FileMap Id}
    {done : List Path} {p : Path} {st st' : MergeState Id}
    (h : PathsAnswered fetchBlob base ours theirs done st)
    (hpath : Diverged (base p) (ours p) (theirs p) → p.validate (Platform.nfc Id) = .ok ())
    (hp : mergePath fetchBlob .record p (base p) (ours p) (theirs p) st = .ok st') :
    PathsAnswered fetchBlob base ours theirs (done ++ [p]) st' := by
  have hmerged := mergePath_ok hp
  obtain ⟨hread, hrefused⟩ := hmerged.answered hpath
  obtain ⟨r, hfiles, hr⟩ := hmerged.files
  refine ⟨?_, ?_, ?_, ?_, ?_, ?_, ?_⟩
  · rw [List.forall_mem_append]
    exact ⟨h.read, by simpa using hread⟩
  · rw [List.forall_mem_append, List.forall_mem_singleton, ← h.refused]
    rcases hrefused with ⟨hclash, heq⟩ | ⟨hclash, c, -, heq⟩
    · rw [heq]
      exact ⟨fun hnil => ⟨hnil, hclash⟩, And.left⟩
    · rw [heq]
      refine iff_of_false (by simp) fun hnone => hnone.2 hclash
  · rcases hrefused with ⟨-, heq⟩ | ⟨-, c, hc, heq⟩
    · rw [heq]
      exact h.sides
    · rw [heq, List.forall_mem_append]
      exact ⟨h.sides, by simpa using hc⟩
  · rw [hfiles, List.forall_mem_append]
    refine ⟨h.merged, fun f hf => ?_⟩
    cases r with
    | none => cases hf
    | some m =>
        obtain rfl := List.mem_singleton.mp hf
        exact hr m rfl
  · rw [hfiles, List.map_append]
    refine h.files_sub.append ?_
    cases r with
    | none => exact List.nil_sublist _
    | some m => exact .refl _
  · intro c hc
    rcases hmerged.recorded_own c hc with hc | ⟨reason, rfl⟩
    · exact h.own c hc
    · exact ⟨reason, rfl⟩
  · intro x hx
    rcases mergePath_oversized hp x hx with hx | hx
    · exact h.oversized x hx
    · exact hx

theorem pathsAnswered {fetchBlob : Id → Option Bytes} {base ours theirs : MemNode Id}
    (hours : ours.Grammatical) (htheirs : theirs.Grammatical) {paths : List Path}
    {st : MergeState Id} (h : mergePaths fetchBlob .record (flattenFiles base) (flattenFiles ours)
      (flattenFiles theirs) paths = .ok st) :
    PathsAnswered fetchBlob (filesAt base) (filesAt ours) (filesAt theirs) paths st := by
  have hpath : ∀ p, Diverged (filesAt base p) (filesAt ours p) (filesAt theirs p) →
      p.validate (Platform.nfc Id) = .ok () := by
    intro p hd
    cases ho : filesAt ours p with
    | some m => exact hours.valid p m ho
    | none =>
        cases ht : filesAt theirs p with
        | some m => exact htheirs.valid p m ht
        | none => exact absurd (ho.trans ht.symm) hd.1
  refine Lib.foldlM_induct
    (P := PathsAnswered fetchBlob (filesAt base) (filesAt ours) (filesAt theirs)) h ?_ ?_
  · exact ⟨by simp, by simp [MergeState.start], fun c hc => absurd hc List.not_mem_nil,
      fun f hf => absurd hf List.not_mem_nil, List.nil_sublist _,
      fun c hc => absurd hc List.not_mem_nil, fun x hx => absurd hx List.not_mem_nil⟩
  · exact fun done p _ st st' _ hdone hp => hdone.next (hpath p) hp

omit [Platform Id] in
theorem mem_unionPaths_of_diverged {base ours theirs : MemNode Id} {p : Path}
    (hd : Diverged (filesAt base p) (filesAt ours p) (filesAt theirs p)) :
    p ∈ unionPaths (flattenFiles base) (flattenFiles ours) (flattenFiles theirs) := by
  by_contra hout
  rw [mem_unionPaths, not_or, not_or] at hout
  refine hd.1 ?_
  rw [filesAt, filesAt, lookup_eq_none_of_not_mem hout.2.1, lookup_eq_none_of_not_mem hout.2.2]

omit [Platform Id] in
theorem filesAt_of_mem {node : MemNode Id} {p : Path} (h : p ∈ (flattenFiles node).map (·.1)) :
    ∃ m, filesAt node p = some m := by
  refine Option.ne_none_iff_exists'.mp fun hnone => ?_
  obtain ⟨f, hf, rfl⟩ := List.mem_map.mp h
  have hdiffer := List.lookup_eq_none_iff.mp hnone f hf
  simp at hdiffer

theorem valid_of_mem_unionPaths {base ours theirs : MemNode Id} (hbase : base.Grammatical)
    (hours : ours.Grammatical) (htheirs : theirs.Grammatical) {p : Path}
    (hp : p ∈ unionPaths (flattenFiles base) (flattenFiles ours) (flattenFiles theirs)) :
    p.validate (Platform.nfc Id) = .ok () := by
  rcases mem_unionPaths.mp hp with hp | hp | hp
  · obtain ⟨m, hm⟩ := filesAt_of_mem hp
    exact hbase.valid p m hm
  · obtain ⟨m, hm⟩ := filesAt_of_mem hp
    exact hours.valid p m hm
  · obtain ⟨m, hm⟩ := filesAt_of_mem hp
    exact htheirs.valid p m hm

/-- The loop stops at a path that lacks content. -/
theorem mergePaths_error {fetchBlob : Id → Option Bytes} {base ours theirs : MemNode Id}
    {paths : List Path} {id : Id} (h : mergePaths fetchBlob .record (flattenFiles base)
      (flattenFiles ours) (flattenFiles theirs) paths = .error id) :
    fetchBlob id = none ∧
      ∃ p, MissingContent fetchBlob (filesAt base p) (filesAt ours p) (filesAt theirs p) := by
  obtain ⟨_, p, _, _, -, -, hp⟩ := Lib.foldlM_error h
  obtain ⟨hid, hmissing⟩ := mergePath_error hp
  exact ⟨hid, p, hmissing⟩

/-! ### Conflict lists -/

theorem pathsAscend_iff {l : List Path} :
    pathsAscend l = true ↔ l.Pairwise fun p q => p.text < q.text := by
  have htrans : IsTrans Path fun p q => p.text < q.text := ⟨fun _ _ _ hab hbc => lt_trans hab hbc⟩
  rw [pathsAscend, decide_eq_true_iff]
  exact List.isChain_iff_pairwise

/-- The carry of two valid lists is valid, but for its length. -/
theorem validateConflicts_carry {prior reps : List (ConflictRep Id)}
    (hprior : ∀ rep ∈ prior, rep.validate (Platform.nfc Id) = .ok ())
    (hreps : ∀ rep ∈ reps, rep.validate (Platform.nfc Id) = .ok ())
    (hsplit : ∀ rep ∈ prior ++ reps, ∀ n ∈ rep.path.components, NoSlash n)
    (hlen : (carry prior reps).length ≤ maxEntries) :
    validateConflicts (Platform.nfc Id) (carry prior reps) = .ok () := by
  refine validateConflicts_ok.mpr ⟨hlen, ?_, fun rep hrep => ?_⟩
  · rw [pathsAscend_iff, List.pairwise_map, carry, List.pairwise_filterMap]
    refine (Path.sortPaths_strict fun p hp => ?_).imp fun {p q} hlt a ha c hc => ?_
    · obtain ⟨rep, hrep, rfl⟩ := List.mem_map.mp hp
      exact hsplit rep hrep
    · rw [(repAt_path ha).1, (repAt_path hc).1]
      exact hlt
  · refine ConflictRep.validate_ok.mp ?_
    rcases List.mem_append.mp (repAt_path (mem_carry.mp hrep)).2 with hold | hnew
    · exact hprior rep hold
    · exact hreps rep hnew

/-! ### The two modes -/

/-- The list of representations a recording merge makes. -/
def RecordedMerge.reps (rec : RecordedMerge Id) : List (ConflictRep Id) :=
  rec.conflicts.filterMap contentRep

/-- What a recording merge gives: at each conflicting path the rendering of its
representation, elsewhere what the refusing merge decides, and a list of the
conflicting paths that is valid, carried over an earlier one too. -/
structure RecordsConflicts (fetchBlob : Id → Option Bytes) (base ours theirs : MemNode Id)
    (prior : List (ConflictRep Id)) (rec : RecordedMerge Id) : Prop where
  conflicting : ∀ p, p ∈ rec.conflicts.map (fun c => c.path) ↔
    Conflicting fetchBlob (filesAt base p) (filesAt ours p) (filesAt theirs p)
  rendered : ∀ c ∈ rec.conflicts, ∃ reason rep bytes,
    c = pathConflict c.path (filesAt base c.path) (filesAt ours c.path) (filesAt theirs c.path)
      reason ∧ contentRep c = some rep ∧ markerBytes rep fetchBlob = .ok bytes ∧
    filesAt rec.tree.node c.path = some ⟨Platform.blobId bytes, bytes.length, c.exec⟩
  others : ∀ p, ¬ Conflicting fetchBlob (filesAt base p) (filesAt ours p) (filesAt theirs p) →
    MergedAt fetchBlob .refuse p (filesAt base p) (filesAt ours p) (filesAt theirs p)
      (filesAt rec.tree.node p)
  sorted : rec.conflicts.Pairwise fun c d => c.path.text < d.path.text
  valid : rec.reps.length ≤ maxEntries → validateConflicts (Platform.nfc Id) rec.reps = .ok ()
  carried : (carry prior rec.reps).length ≤ maxEntries →
    validateConflicts (Platform.nfc Id) (carry prior rec.reps) = .ok ()

/-- The failures of a recording merge: content that is not there, or a file of
the merge below another one. -/
def RecordingFails (fetchBlob : Id → Option Bytes) (base ours theirs : FileMap Id)
    (e : MergeError Id) : Prop :=
  (∃ id, e = .fetch id ∧ fetchBlob id = none) ∨
    ∃ p q m k, e = .conflicts [dualityConflict q] ∧ p.components <+: q.dirs ∧
      MergedAt fetchBlob .record p (base p) (ours p) (theirs p) (some m) ∧
      MergedAt fetchBlob .record q (base q) (ours q) (theirs q) (some k)

/-- The refusing and the recording merge agree. -/
structure ModesAgree (fetchBlob : Id → Option Bytes) (base ours theirs : MemNode Id)
    (prior : List (ConflictRep Id)) : Prop where
  clean : ∀ m, mergeTrees fetchBlob base ours theirs = .ok m ↔
    mergeTreesRecording fetchBlob base ours theirs = .ok ⟨m, [], []⟩
  recording : ∀ rec, mergeTreesRecording fetchBlob base ours theirs = .ok rec →
    rec.oversized = [] → RecordsConflicts fetchBlob base ours theirs prior rec
  oversized : ∀ rec, mergeTreesRecording fetchBlob base ours theirs = .ok rec →
    ∀ x ∈ rec.oversized, Oversized fetchBlob x
  failing : ∀ e, mergeTreesRecording fetchBlob base ours theirs = .error e →
    RecordingFails fetchBlob (filesAt base) (filesAt ours) (filesAt theirs) e

section

variable {fetchBlob : Id → Option Bytes} {base ours theirs : MemNode Id}

theorem MergedAt.refuse {p : Path} {b o t r : Option (FileMeta Id)}
    (h : MergedAt fetchBlob .record p b o t r) (hclear : ¬ Conflicting fetchBlob b o t) :
    MergedAt fetchBlob .refuse p b o t r := by
  cases h with
  | agreed heq => exact .agreed heq
  | theirs hot heq => exact .theirs hot heq
  | ours hot hob heq => exact .ours hot hob heq
  | computed bytes inputs hc =>
      cases hc with
      | lines hd sides _ hmerged => exact .computed bytes _ (.lines hd sides bytes hmerged)
      | markers hd hconflict => exact absurd ⟨hd, hconflict⟩ hclear

/-- A recording merge that gives a tree records its conflicts. -/
theorem recordsConflicts (hbase : base.Grammatical) (hours : ours.Grammatical)
    (htheirs : theirs.Grammatical) {prior : List (ConflictRep Id)}
    (hprior : validateConflicts (Platform.nfc Id) prior = .ok ())
    (hsplit : ∀ rep ∈ prior, ∀ n ∈ rep.path.components, NoSlash n) {rec : RecordedMerge Id}
    (h : mergeTreesRecording fetchBlob base ours theirs = .ok rec) (hfits : rec.oversized = []) :
    RecordsConflicts fetchBlob base ours theirs prior rec := by
  obtain ⟨m⟩ := mergeTreesMode_ok h
  have hmore : FindsMore fetchBlob fetchBlob := fun _ _ h => h
  obtain ⟨hthree, hconflicting⟩ := m.threeWay hmore hfits
  have hanswered := pathsAnswered hours htheirs m.loop_ok
  have hsettled := m.pathsSettled hmore hfits
  have hunion := unionPaths_split hbase.names hours.names htheirs.names
  have hsorted : rec.conflicts.Pairwise fun c d => c.path.text < d.path.text := by
    have hpaths := (Path.sortPaths_strict hunion).sublist hsettled.recorded_sub
    rw [List.pairwise_map] at hpaths
    rw [m.conflicts]
    exact hpaths
  have hpath : ∀ c ∈ rec.conflicts, ∀ n ∈ c.path.components, NoSlash n := by
    intro c hc
    rw [m.conflicts] at hc
    have hmem := hsettled.recorded_sub.subset (List.mem_map.mpr ⟨c, hc, rfl⟩)
    rw [unionPaths, Path.mem_sortPaths] at hmem
    exact hunion _ hmem
  have hreps : ∀ rep ∈ rec.reps, rep.validate (Platform.nfc Id) = .ok () ∧
      ∃ c ∈ rec.conflicts, rep.path = c.path := by
    intro rep hrep
    obtain ⟨c, hc, hcontent⟩ := List.mem_filterMap.mp hrep
    obtain ⟨rfl, hvalid, hshape⟩ := contentRep_iff.mp hcontent
    have hfew : c.rep.sides.length ≤ maxEntries := by
      rw [show c.rep.sides.length = c.sides.length by simp [PathConflict.rep]]
      exact le_trans c.sides_length (by decide)
    exact ⟨ConflictRep.validate_ok.mpr ⟨hvalid, hfew, hshape⟩, c, hc, rfl⟩
  refine ⟨hconflicting, fun c hc => ?_, fun p hclear => (hthree p).refuse hclear, hsorted,
    fun hlen => ?_, fun hlen => ?_⟩
  · obtain ⟨rep, bytes, hrep, hbytes, hfile, -⟩ := m.recorded c hc
    obtain ⟨reason, hown⟩ := hanswered.own c (m.conflicts ▸ hc)
    obtain ⟨hlookup, hnodup⟩ := m.filesAt_node hfits c.path
    exact ⟨reason, rep, bytes, hown, hrep, hbytes,
      hlookup.trans (Lib.lookup_of_nodup hnodup hfile)⟩
  · refine validateConflicts_ok.mpr ⟨hlen, ?_, fun rep hrep =>
      ConflictRep.validate_ok.mp (hreps rep hrep).1⟩
    rw [pathsAscend_iff, List.pairwise_map, RecordedMerge.reps, List.pairwise_filterMap]
    refine hsorted.imp fun {c d} hlt a ha e he => ?_
    rw [contentRep_some ha, contentRep_some he]
    exact hlt
  · refine validateConflicts_carry (fun rep hrep => ?_) (fun rep hrep => (hreps rep hrep).1) ?_ hlen
    · exact ConflictRep.validate_ok.mpr ((validateConflicts_ok.mp hprior).2.2 rep hrep)
    · rw [List.forall_mem_append]
      refine ⟨hsplit, fun rep hrep => ?_⟩
      obtain ⟨c, hc, hsame⟩ := (hreps rep hrep).2
      rw [hsame]
      exact hpath c hc

/-- The loop of a recording merge that goes through: nothing it reads is
missing, and what it refused are the size clashes. -/
theorem recording_loop (hours : ours.Grammatical) (htheirs : theirs.Grammatical)
    {st : MergeState Id} (h : mergePaths fetchBlob .record (flattenFiles base) (flattenFiles ours)
      (flattenFiles theirs) (unionPaths (flattenFiles base) (flattenFiles ours)
        (flattenFiles theirs)) = .ok st) :
    (∀ p, ¬ MissingContent fetchBlob (filesAt base p) (filesAt ours p) (filesAt theirs p)) ∧
      (st.refused = [] ↔ ∀ p, ¬ SizeClash (filesAt base p) (filesAt ours p) (filesAt theirs p)) := by
  have hanswered := pathsAnswered hours htheirs h
  refine ⟨fun p hmissing => ?_, ?_⟩
  · exact hanswered.read p (mem_unionPaths_of_diverged hmissing.1) hmissing
  · rw [hanswered.refused]
    exact ⟨fun hnone p hclash => hnone p (mem_unionPaths_of_diverged hclash.1) hclash,
      fun hnone p _ => hnone p⟩

/-- A size clash ends a recording merge that lacks no content. -/
theorem recording_clash (hours : ours.Grammatical) (htheirs : theirs.Grammatical)
    (hread : ∀ p, ¬ MissingContent fetchBlob (filesAt base p) (filesAt ours p) (filesAt theirs p))
    {p : Path} (hclash : SizeClash (filesAt base p) (filesAt ours p) (filesAt theirs p)) :
    ∃ e, mergeTreesRecording fetchBlob base ours theirs = .error e ∧
      ¬ RecordingFails fetchBlob (filesAt base) (filesAt ours) (filesAt theirs) e := by
  cases hrun : mergePaths fetchBlob .record (flattenFiles base) (flattenFiles ours)
      (flattenFiles theirs) (unionPaths (flattenFiles base) (flattenFiles ours)
        (flattenFiles theirs)) with
  | error id =>
      obtain ⟨-, q, hmissing⟩ := mergePaths_error hrun
      exact absurd hmissing (hread q)
  | ok st =>
      have hrefused : st.refused ≠ [] := fun hnil =>
        (recording_loop hours htheirs hrun).2.mp hnil p hclash
      refine ⟨.conflicts st.refused, ?_, ?_⟩
      · simp only [mergeTreesRecording, mergeTreesMode, hrun, ne_eq, hrefused, not_false_eq_true,
          if_true]
      · rintro (⟨id, hid, -⟩ | ⟨_, q, _, _, hduality, -⟩)
        · cases hid
        · have hone : st.refused = [dualityConflict q] := MergeError.conflicts.inj hduality
          have hsides := (pathsAnswered hours htheirs hrun).sides (dualityConflict q)
            (by rw [hone]; exact List.mem_cons_self)
          exact hsides rfl

/-- Without a size clash a recording merge fails for missing content, or for a
file below another. -/
theorem recording_fails (hbase : base.Grammatical) (hours : ours.Grammatical)
    (htheirs : theirs.Grammatical)
    (hcondition : (∃ p, MissingContent fetchBlob (filesAt base p) (filesAt ours p)
        (filesAt theirs p)) ∨
      ∀ p, ¬ SizeClash (filesAt base p) (filesAt ours p) (filesAt theirs p))
    {e : MergeError Id} (h : mergeTreesRecording fetchBlob base ours theirs = .error e) :
    RecordingFails fetchBlob (filesAt base) (filesAt ours) (filesAt theirs) e := by
  cases hrun : mergePaths fetchBlob .record (flattenFiles base) (flattenFiles ours)
      (flattenFiles theirs) (unionPaths (flattenFiles base) (flattenFiles ours)
        (flattenFiles theirs)) with
  | error id =>
      simp only [mergeTreesRecording, mergeTreesMode, hrun] at h
      cases h
      exact .inl ⟨id, rfl, (mergePaths_error hrun).1⟩
  | ok st =>
      have hanswered := pathsAnswered hours htheirs hrun
      obtain ⟨hread, hclash⟩ := recording_loop hours htheirs hrun
      have hrefused : st.refused = [] := by
        rcases hcondition with ⟨p, hmissing⟩ | hnone
        · exact absurd hmissing (hread p)
        · exact hclash.mpr hnone
      simp only [mergeTreesRecording, mergeTreesMode, hrun, hrefused, ne_eq, not_true_eq_false,
        if_false] at h
      split at h
      next e' happly =>
        cases h
        have horder : st.mergedFiles.Pairwise fun f g => f.1.before g.1 = true :=
          List.pairwise_map.mp ((Path.sortPaths_pairwise _).sublist hanswered.files_sub)
        have hnodup := hanswered.files_sub.nodup (Path.sortPaths_nodup _)
        obtain ⟨f, hf, g, hg, hbelow, rfl⟩ := apply_files_error horder hnodup (fun f hf =>
          Path.depth_of_valid (valid_of_mem_unionPaths hbase hours htheirs
            (hanswered.files_sub.subset (List.mem_map.mpr ⟨f, hf, rfl⟩)))) happly
        exact .inr ⟨g.1, f.1, g.2, f.2, rfl, hbelow, hanswered.merged g hg, hanswered.merged f hf⟩
      next => cases h

/-- The modes agree exactly when no conflict is one over the recorded size of a
file, unless the merge lacks content before that. -/
theorem modesAgree_iff (hbase : base.Grammatical) (hours : ours.Grammatical)
    (htheirs : theirs.Grammatical) {prior : List (ConflictRep Id)}
    (hprior : validateConflicts (Platform.nfc Id) prior = .ok ())
    (hsplit : ∀ rep ∈ prior, ∀ n ∈ rep.path.components, NoSlash n) :
    ModesAgree fetchBlob base ours theirs prior ↔
      (∃ p, MissingContent fetchBlob (filesAt base p) (filesAt ours p) (filesAt theirs p)) ∨
        ∀ p, ¬ SizeClash (filesAt base p) (filesAt ours p) (filesAt theirs p) := by
  constructor
  · intro hagree
    by_contra hcondition
    rw [not_or, not_exists, not_forall] at hcondition
    obtain ⟨hread, p, hclash⟩ := hcondition
    obtain ⟨e, he, hno⟩ := recording_clash hours htheirs hread (not_not.mp hclash)
    exact hno (hagree.failing e he)
  · intro hcondition
    refine ⟨fun m => mergeTrees_iff_recording,
      fun rec h hfits => recordsConflicts hbase hours htheirs hprior hsplit h hfits,
      fun rec h => ?_, fun e he => recording_fails hbase hours htheirs hcondition he⟩
    obtain ⟨m⟩ := mergeTreesMode_ok h
    rw [m.oversized]
    exact (pathsAnswered hours htheirs m.loop_ok).oversized

end

end

/-! The same file added on both sides, with two sizes posted of it. -/

namespace TwoSizes

def text : Bytes := [104]

def path : Path := ⟨[], "f"⟩

def holding (size : ℕ) : MemNode PlainId :=
  .entry "f" (.file (Platform.blobId text) size false) .empty

def stored (id : PlainId) : Option Bytes :=
  if Platform.blobId text = id then some text else none

theorem filesAt_holding {size : ℕ} {p : Path} {m : FileMeta PlainId}
    (h : filesAt (holding size) p = some m) : p = path := by
  by_contra hne
  have hnone : filesAt (holding size) p = none := lookup_eq_none_of_not_mem (by
    simpa [path, holding, flattenFiles, MemNode.flattenInto, MemEntry.flattenEntry] using hne)
  rw [h] at hnone
  cases hnone

theorem holding_grammatical (size : ℕ) : (holding size).Grammatical where
  names := ⟨by simp [NoSlash], trivial, trivial⟩
  valid := fun p m h => by
    rw [filesAt_holding h]
    decide +kernel

theorem empty_grammatical : (MemNode.empty : MemNode PlainId).Grammatical where
  names := trivial
  valid := fun p m h => by cases h

theorem sizeClash : SizeClash (filesAt .empty path) (filesAt (holding 1) path)
    (filesAt (holding 2) path) :=
  ⟨⟨by decide +kernel, by decide +kernel, by decide +kernel⟩, .inl rfl, fun hkeys => hkeys.1 (by decide +kernel)⟩

end TwoSizes

open TwoSizes in
theorem modesAgree_iff_sizes : ModesAgree stored .empty (holding 1) (holding 2) [] ↔
    (∃ p, MissingContent stored (filesAt .empty p) (filesAt (holding 1) p)
        (filesAt (holding 2) p)) ∨
      ∀ p, ¬ SizeClash (filesAt (.empty : MemNode PlainId) p) (filesAt (holding 1) p)
        (filesAt (holding 2) p) :=
  modesAgree_iff empty_grammatical (holding_grammatical 1) (holding_grammatical 2)
    (by decide) (fun rep hrep => absurd hrep List.not_mem_nil)

open TwoSizes in
/-- The two sides agree but for a recorded size, and the recording mode refuses. -/
theorem same_file_refused : ¬ ∀ fetchBlob, ∀ base ours theirs : MemNode PlainId,
    base.Grammatical → ours.Grammatical → theirs.Grammatical →
    ModesAgree fetchBlob base ours theirs [] := by
  intro hall
  have hagree := hall stored .empty (holding 1) (holding 2) empty_grammatical
    (holding_grammatical 1) (holding_grammatical 2)
  have hread : ∀ p, ¬ MissingContent stored (filesAt .empty p) (filesAt (holding 1) p)
      (filesAt (holding 2) p) := by
    rintro p ⟨hd, hclash, -⟩
    have hmem := mem_unionPaths_of_diverged hd
    have hpaths : unionPaths (flattenFiles .empty) (flattenFiles (holding 1))
        (flattenFiles (holding 2)) = [path] := by decide +kernel
    rw [hpaths, List.mem_singleton] at hmem
    subst hmem
    exact hclash sizeClash
  obtain ⟨e, he, hno⟩ := recording_clash (holding_grammatical 1) (holding_grammatical 2) hread
    sizeClash
  exact hno (hagree.failing e he)

end Naatre
