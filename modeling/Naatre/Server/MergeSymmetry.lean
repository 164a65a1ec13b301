import Naatre.Core.Plain
import Naatre.Server.LineMerge
import Naatre.Server.TreeNames

/-!
The two sides of a merge change places. The line merge does not see it, each
path takes the same file, and a merge that is refused names the same paths with
the sides swapped.
-/

namespace Naatre

/-! ### Lines -/

theorem hunksConflict_symm (a b : Hunk) : hunksConflict a b = hunksConflict b a := by
  rw [Bool.eq_iff_iff]
  simp only [hunksConflict, Hunk.overlaps, Bool.or_eq_true, Bool.and_eq_true, decide_eq_true_eq]
  constructor
  · rintro (⟨hab, hba⟩ | ⟨⟨⟨ha, hb⟩, hstart⟩, hlines⟩)
    · exact .inl ⟨hba, hab⟩
    · exact .inr ⟨⟨⟨hb, ha⟩, hstart.symm⟩, hlines.symm⟩
  · rintro (⟨hab, hba⟩ | ⟨⟨⟨ha, hb⟩, hstart⟩, hlines⟩)
    · exact .inl ⟨hba, hab⟩
    · exact .inr ⟨⟨⟨hb, ha⟩, hstart.symm⟩, hlines.symm⟩

theorem mergeLines_conflict_symm {fromLines : Bytes → Bytes → TextDiff} {base ours theirs : Bytes}
    (h : mergeLines fromLines base ours theirs = .conflict) :
    mergeLines fromLines base theirs ours = .conflict := by
  rw [mergeLines] at h ⊢
  split_ifs at h with hob htb hot htext
  · rw [if_neg htb, if_neg hob, if_neg (Ne.symm hot), if_pos]
    rwa [Bool.and_assoc, Bool.and_comm (isUtf8 theirs), ← Bool.and_assoc]
  · rw [if_neg htb, if_neg hob, if_neg (Ne.symm hot), if_neg]
    · simp only at h ⊢
      split_ifs at h with hconflict
      rw [if_pos]
      simp only [List.any_eq_true] at hconflict ⊢
      obtain ⟨ho, hmem, ht, hmem', hboth⟩ := hconflict
      exact ⟨ht, hmem', ho, hmem, by rwa [hunksConflict_symm]⟩
    · rwa [Bool.and_assoc, Bool.and_comm (isUtf8 theirs), ← Bool.and_assoc]

/-- The line merge of the sides swapped is the same. -/
theorem mergeLines_symm {tokens : Bytes → List Bytes}
    (htokens : ∀ text, (tokens text).flatten = text) {fromLines : Bytes → Bytes → TextDiff}
    (hdiff : LineDiffs tokens fromLines) (base ours theirs : Bytes) :
    mergeLines fromLines base theirs ours = mergeLines fromLines base ours theirs := by
  cases h : mergeLines fromLines base ours theirs with
  | conflict => exact mergeLines_conflict_symm h
  | merged result =>
      cases h' : mergeLines fromLines base theirs ours with
      | conflict =>
          rw [mergeLines_conflict_symm h'] at h
          cases h
      | merged result' =>
          obtain ⟨hresult, hsides⟩ := mergeLines_woven htokens hdiff h
          obtain ⟨hresult', -⟩ := mergeLines_woven htokens hdiff h'
          rcases hsides with rfl | hcompat
          · rw [hresult', hresult]
          · rw [hresult', hresult, Lib.weave_perm List.perm_append_comm hcompat]

section

variable {Id : Type}

/-! ### Paths -/

/-- Paths of split texts sort strictly. -/
theorem Path.sortPaths_strict {l : List Path} (hl : ∀ p ∈ l, ∀ n ∈ p.components, NoSlash n) :
    (Path.sortPaths l).Pairwise fun p q => p.text < q.text := by
  refine ((Path.sortPaths_nodup l).and (Path.sortPaths_pairwise l)).imp_of_mem ?_
  rintro p q hp hq ⟨hne, hbefore⟩
  rw [Path.mem_sortPaths] at hp hq
  have hle : p.text ≤ q.text := by simpa [Path.before] using hbefore
  exact lt_of_le_of_ne hle fun heq => hne (Path.text_inj (hl p hp) (hl q hq) heq)

/-- The order of the paths depends on which there are. -/
theorem Path.sortPaths_congr {l l' : List Path} (hl : ∀ p ∈ l, ∀ n ∈ p.components, NoSlash n)
    (hsame : ∀ p, p ∈ l ↔ p ∈ l') : Path.sortPaths l = Path.sortPaths l' := by
  have hl' : ∀ p ∈ l', ∀ n ∈ p.components, NoSlash n := fun p hp => hl p ((hsame p).mpr hp)
  refine List.Perm.eq_of_pairwise ?_ (Path.sortPaths_strict hl) (Path.sortPaths_strict hl') ?_
  · intro p q _ _ hpq hqp
    exact absurd hpq (lt_asymm hqp)
  · refine (List.perm_ext_iff_of_nodup (Path.sortPaths_nodup l) (Path.sortPaths_nodup l')).mpr ?_
    intro p
    rw [Path.mem_sortPaths, Path.mem_sortPaths, hsame]

theorem unionPaths_split {base ours theirs : MemNode Id} (hbase : base.Names NoSlash)
    (hours : ours.Names NoSlash) (htheirs : theirs.Names NoSlash) :
    ∀ p ∈ (flattenFiles base).map (·.1) ++ (flattenFiles ours).map (·.1) ++
      (flattenFiles theirs).map (·.1), ∀ n ∈ p.components, NoSlash n := by
  have hnone : ∀ d ∈ ([] : List String), NoSlash d := fun d hd => absurd hd List.not_mem_nil
  intro p hp
  rcases List.mem_append.mp hp with hp | hp
  · rcases List.mem_append.mp hp with hp | hp
    · obtain ⟨f, hf, rfl⟩ := List.mem_map.mp hp
      exact flattenInto_names base hbase [] hnone f hf
    · obtain ⟨f, hf, rfl⟩ := List.mem_map.mp hp
      exact flattenInto_names ours hours [] hnone f hf
  · obtain ⟨f, hf, rfl⟩ := List.mem_map.mp hp
    exact flattenInto_names theirs htheirs [] hnone f hf

/-- A conflict with its sides swapped. -/
def PathConflict.swap (c : PathConflict Id) : PathConflict Id :=
  { c with
    oursBlob := c.theirsBlob
    oursExec := c.theirsExec
    theirsBlob := c.oursBlob
    theirsExec := c.oursExec }

theorem pathConflict_swap (p : Path) (b o t : Option (FileMeta Id)) (reason : String) :
    pathConflict p b t o reason = (pathConflict p b o t reason).swap := rfl

theorem resolveExec_symm (b o t : Bool) :
    resolveExec (some b) (some t) (some o) = resolveExec (some b) (some o) (some t) := by
  revert b o t
  decide

variable [Platform Id]

/-! ### The loop -/

/-- The accumulators of the two merges: one is the other with its conflicts'
sides swapped. What tracks the inputs may differ in order. -/
structure Mirrored (st st' : MergeState Id) : Prop where
  files : st'.mergedFiles = st.mergedFiles
  blobs : st'.newBlobs = st.newBlobs
  refused : st'.refused = st.refused.map PathConflict.swap

omit [Platform Id] in
theorem Mirrored.take {st st' : MergeState Id} (h : Mirrored st st') (p : Path)
    (side : Option (FileMeta Id)) : Mirrored (st.take p side) (st'.take p side) := by
  refine ⟨?_, h.blobs, h.refused⟩
  rw [MergeState.take, MergeState.take, h.files]

theorem Mirrored.write {st st' : MergeState Id} (h : Mirrored st st') (ids ids' : List Id)
    (p : Path) (bytes : Bytes) (exec : Bool) :
    Mirrored (MergeState.write { st with inputIds := ids } p bytes exec)
      (MergeState.write { st' with inputIds := ids' } p bytes exec) := by
  refine ⟨?_, ?_, h.refused⟩
  · simp only [MergeState.write, h.files]
  · simp only [MergeState.write, h.blobs]

/-- Both loops go on alike, or both miss a blob. -/
inductive Alike (fetchBlob : Id → Option Bytes) :
    Except Id (MergeState Id) → Except Id (MergeState Id) → Prop
  | ok {st st' : MergeState Id} (h : Mirrored st st') : Alike fetchBlob (.ok st) (.ok st')
  | missing {id id' : Id} (hid : fetchBlob id = none) (hid' : fetchBlob id' = none) :
      Alike fetchBlob (.error id) (.error id')

theorem takeConflict_alike {fetchBlob : Id → Option Bytes} {p : Path}
    {b o t : Option (FileMeta Id)} {reason : String} {st st' : MergeState Id} (ids ids' : List Id)
    (h : Mirrored st st') :
    Alike fetchBlob
      (takeConflict fetchBlob .refuse (pathConflict p b o t reason) { st with inputIds := ids })
      (takeConflict fetchBlob .refuse (pathConflict p b t o reason) { st' with inputIds := ids' }) := by
  refine .ok ⟨h.files, h.blobs, ?_⟩
  simp only [h.refused, pathConflict_swap p b o t, List.map_append, List.map_singleton]

/-- One path of the two merges. -/
theorem mergePath_alike {fetchBlob : Id → Option Bytes} {tokens : Bytes → List Bytes}
    (htokens : ∀ text, (tokens text).flatten = text)
    (hdiff : LineDiffs tokens (Platform.fromLines Id)) (p : Path) (b o t : Option (FileMeta Id))
    {st st' : MergeState Id} (h : Mirrored st st') :
    Alike fetchBlob (mergePath fetchBlob .refuse p b o t st)
      (mergePath fetchBlob .refuse p b t o st') := by
  unfold mergePath
  by_cases hot : o = t
  · subst hot
    rw [if_pos rfl, if_pos rfl]
    exact .ok (h.take p o)
  rw [if_neg hot, if_neg (Ne.symm hot)]
  by_cases hob : o = b
  · subst hob
    rw [if_pos rfl, if_neg (Ne.symm hot), if_pos rfl]
    exact .ok (h.take p t)
  rw [if_neg hob]
  by_cases htb : t = b
  · subst htb
    rw [if_pos rfl, if_pos rfl]
    exact .ok (h.take p o)
  rw [if_neg htb, if_neg htb, if_neg hob]
  cases o with
  | none =>
      cases b with
      | none => exact absurd rfl hob
      | some bm =>
          cases t with
          | none => exact absurd rfl hot
          | some tm => exact takeConflict_alike _ _ h
  | some om =>
  cases t with
  | none =>
      cases b with
      | none => exact absurd rfl htb
      | some bm => exact takeConflict_alike _ _ h
  | some tm =>
  cases b with
  | none => exact takeConflict_alike _ _ h
  | some bm =>
      simp only [fetchOr]
      cases hbase : fetchBlob bm.blob with
      | none => exact .missing hbase hbase
      | some baseBytes =>
      cases hours : fetchBlob om.blob with
      | none =>
          cases htheirs : fetchBlob tm.blob with
          | none => exact .missing hours htheirs
          | some theirsBytes => exact .missing hours hours
      | some oursBytes =>
      cases htheirs : fetchBlob tm.blob with
      | none => exact .missing htheirs htheirs
      | some theirsBytes =>
          simp only [bind, Except.bind]
          rw [mergeLines_symm htokens hdiff baseBytes oursBytes theirsBytes]
          generalize mergeLines (Platform.fromLines Id) baseBytes oursBytes theirsBytes = outcome
          cases outcome with
          | merged bytes =>
              rw [resolveExec_symm bm.exec om.exec tm.exec]
              exact .ok (h.write _ _ p bytes _)
          | conflict => exact takeConflict_alike _ _ h

theorem mergePaths_alike {fetchBlob : Id → Option Bytes} {tokens : Bytes → List Bytes}
    (htokens : ∀ text, (tokens text).flatten = text)
    (hdiff : LineDiffs tokens (Platform.fromLines Id))
    (base ours theirs : Files Id) (paths : List Path) :
    Alike fetchBlob (mergePaths fetchBlob .refuse base ours theirs paths)
      (mergePaths fetchBlob .refuse base theirs ours paths) := by
  have hloop : ∀ st st' : MergeState Id, Mirrored st st' → Alike fetchBlob
      (paths.foldlM (fun st p =>
        mergePath fetchBlob .refuse p (base.lookup p) (ours.lookup p) (theirs.lookup p) st) st)
      (paths.foldlM (fun st p =>
        mergePath fetchBlob .refuse p (base.lookup p) (theirs.lookup p) (ours.lookup p) st) st') := by
    induction paths with
    | nil => exact fun st st' h => .ok h
    | cons p paths ih =>
        intro st st' h
        rw [List.foldlM_cons, List.foldlM_cons]
        have hstep : Alike fetchBlob _ _ :=
          mergePath_alike htokens hdiff p (base.lookup p) (ours.lookup p) (theirs.lookup p) h
        generalize mergePath fetchBlob .refuse p (base.lookup p) (ours.lookup p)
          (theirs.lookup p) st = one at hstep ⊢
        generalize mergePath fetchBlob .refuse p (base.lookup p) (theirs.lookup p)
          (ours.lookup p) st' = other at hstep ⊢
        cases hstep with
        | ok hnext => exact ih _ _ hnext
        | missing hid hid' => exact .missing hid hid'
  exact hloop _ _ ⟨rfl, rfl, rfl⟩

/-! ### The merge -/

/-- The refusing merge with its sides swapped: the same tree, the same conflicts
the other way round, or a blob missing in both. -/
theorem mergeTrees_symm {fetchBlob : Id → Option Bytes} {tokens : Bytes → List Bytes}
    (htokens : ∀ text, (tokens text).flatten = text)
    (hdiff : LineDiffs tokens (Platform.fromLines Id)) {base ours theirs : MemNode Id}
    (hbase : base.Names NoSlash) (hours : ours.Names NoSlash) (htheirs : theirs.Names NoSlash) :
    (∃ m m', mergeTrees fetchBlob base ours theirs = .ok m ∧
      mergeTrees fetchBlob base theirs ours = .ok m' ∧ m'.node = m.node) ∨
    (∃ cs, mergeTrees fetchBlob base ours theirs = .error (.conflicts cs) ∧
      mergeTrees fetchBlob base theirs ours = .error (.conflicts (cs.map PathConflict.swap))) ∨
    ∃ id id', fetchBlob id = none ∧ fetchBlob id' = none ∧
      mergeTrees fetchBlob base ours theirs = .error (.fetch id) ∧
      mergeTrees fetchBlob base theirs ours = .error (.fetch id') := by
  have hpaths : unionPaths (flattenFiles base) (flattenFiles theirs) (flattenFiles ours) =
      unionPaths (flattenFiles base) (flattenFiles ours) (flattenFiles theirs) := by
    refine Path.sortPaths_congr (unionPaths_split hbase htheirs hours) fun p => ?_
    simp only [List.mem_append]
    tauto
  have hloop : Alike fetchBlob _ _ := mergePaths_alike htokens hdiff (flattenFiles base)
    (flattenFiles ours) (flattenFiles theirs)
    (unionPaths (flattenFiles base) (flattenFiles ours) (flattenFiles theirs))
  simp only [mergeTrees, mergeTreesMode, hpaths]
  generalize mergePaths fetchBlob .refuse (flattenFiles base) (flattenFiles ours)
    (flattenFiles theirs) _ = one at hloop ⊢
  generalize mergePaths fetchBlob .refuse (flattenFiles base) (flattenFiles theirs)
    (flattenFiles ours) _ = other at hloop ⊢
  cases hloop with
  | missing hid hid' => exact .inr (.inr ⟨_, _, hid, hid', rfl, rfl⟩)
  | @ok st st' h =>
      simp only [h.files, h.refused, ne_eq, List.map_eq_nil_iff]
      by_cases hrefused : st.refused = []
      · simp only [hrefused, not_true_eq_false, if_false]
        cases MemNode.empty.apply (st.mergedFiles.map addChange) with
        | error e => exact .inr (.inl ⟨_, rfl, rfl⟩)
        | ok node => exact .inl ⟨_, _, rfl, rfl, rfl⟩
      · simp only [hrefused, not_false_eq_true, if_true]
        exact .inr (.inl ⟨_, rfl, rfl⟩)

end

/-! A last newline taken away on one side, a line added on the other. -/

namespace OpenLine

/-- The platform whose diff keeps the common first lines. -/
@[reducible]
def platform : Platform PlainId :=
  { (inferInstance : Platform PlainId) with fromLines := prefixDiff }

def holding (text : Bytes) : MemNode PlainId :=
  .entry "f" (.file (Platform.blobId text) text.length false) .empty

theorem holding_names (text : Bytes) : (holding text).Names NoSlash :=
  ⟨by simp [NoSlash], trivial, trivial⟩

/-- The three texts are stored. -/
def stored (id : PlainId) : Option Bytes :=
  [base, ours, theirs].find? fun text => decide (Platform.blobId text = id)

end OpenLine

open OpenLine in
theorem mergeTrees_symm_open :
    (∃ m m', @mergeTrees _ platform stored (holding base) (holding ours) (holding theirs) = .ok m ∧
      @mergeTrees _ platform stored (holding base) (holding theirs) (holding ours) = .ok m' ∧
      m'.node = m.node) ∨
    (∃ cs, @mergeTrees _ platform stored (holding base) (holding ours) (holding theirs) =
        .error (.conflicts cs) ∧
      @mergeTrees _ platform stored (holding base) (holding theirs) (holding ours) =
        .error (.conflicts (cs.map PathConflict.swap))) ∨
    ∃ id id', stored id = none ∧ stored id' = none ∧
      @mergeTrees _ platform stored (holding base) (holding ours) (holding theirs) =
        .error (.fetch id) ∧
      @mergeTrees _ platform stored (holding base) (holding theirs) (holding ours) =
        .error (.fetch id') :=
  @mergeTrees_symm PlainId platform stored textLines textLines_flatten prefixDiff_lineDiffs _ _ _
    (holding_names base) (holding_names ours) (holding_names theirs)

end Naatre
