import Naatre.Core.Marker
import Naatre.Server.MergeSteps

/-!
The representation of a path conflict (`content_rep`): when it passes the
validation of conflict lists, and what its rendering reads.
-/

namespace Naatre

section

variable {Id : Type}

/-- Ours, theirs and the base differ by `(blob, exec)`. -/
def KeysDiffer (b o t : Option (FileMeta Id)) : Prop :=
  o.map (·.key) ≠ t.map (·.key) ∧ o.map (·.key) ≠ b.map (·.key) ∧ t.map (·.key) ≠ b.map (·.key)

variable [Platform Id]

/-! ### Sides -/

theorem sideBefore_irrefl (a : Id × Bool) : sideBefore a a = false := by
  simp [sideBefore]

theorem sideBefore_total (a b : Id × Bool) :
    sideBefore a b = true ∨ a = b ∨ sideBefore b a = true := by
  obtain ⟨x, e⟩ := a
  obtain ⟨y, f⟩ := b
  rcases lt_trichotomy x y with hlt | rfl | hlt
  · exact .inl (by simp [sideBefore, hlt])
  · cases e <;> cases f <;> simp [sideBefore]
  · exact .inr (.inr (by simp [sideBefore, hlt]))

/-- Two sides are put in order. -/
theorem sorted_pair (a b : Id × Bool) :
    let sides := [a, b].insertionSort (fun x y => ¬ sideBefore y x = true)
    (sides.IsChain (fun x y => sideBefore x y = true) ↔ a ≠ b) ∧ ∀ x, x ∈ sides ↔ x = a ∨ x = b := by
  intro sides
  refine ⟨?_, fun x => ?_⟩
  · simp only [sides, List.insertionSort_cons, List.insertionSort_nil, List.orderedInsert]
    by_cases hba : sideBefore b a = true
    · rw [if_neg (not_not.mpr hba)]
      refine iff_of_true (by simpa using hba) ?_
      rintro rfl
      rw [sideBefore_irrefl] at hba
      cases hba
    · rw [if_pos hba]
      simp only [List.isChain_cons_cons, List.IsChain.singleton, and_true]
      constructor
      · rintro hab rfl
        exact hba hab
      · intro hne
        exact (sideBefore_total a b).resolve_right (not_or.mpr ⟨hne, hba⟩)
  · rw [List.mem_insertionSort]
    simp

theorem PathConflict.rep_keys (c : PathConflict Id) : c.rep.keys = c.sides := by
  rw [ConflictRep.keys, PathConflict.rep]
  exact (List.zip_of_prod rfl rfl).symm

/-- The rules of a representation with a side. -/
theorem PathConflict.rep_shapeOk {c : PathConflict Id} (hsides : c.sides ≠ []) :
    c.rep.shapeOk = true ↔ c.sides.IsChain (fun x y => sideBefore x y = true) ∧
      ∀ b, c.baseBlob = some b → (b, c.baseExec) ∉ c.sides := by
  have hlen : 1 ≤ c.sides.length := List.length_pos_iff.mpr hsides
  rw [ConflictRep.shapeOk, c.rep_keys]
  simp only [PathConflict.rep, List.length_map]
  rcases Option.eq_none_or_eq_some c.baseBlob with hbase | ⟨b, hbase⟩
  · simp [hbase]
    intro hchain
    split <;> omega
  · simp [hbase]
    intro hbefore hchain
    split <;> omega

/-- The representation of a conflict is valid when the three files differ by
`(blob, exec)`. -/
theorem pathConflict_shapeOk {p : Path} {b o t : Option (FileMeta Id)} {reason : String}
    (hd : Diverged b o t) :
    (pathConflict p b o t reason).rep.shapeOk = true ↔ KeysDiffer b o t := by
  match b, o, t with
  | none, none, t => exact absurd rfl hd.2.1
  | b, none, none => exact absurd rfl hd.1
  | none, some om, none => exact absurd rfl hd.2.2
  | b, some om, some tm =>
      obtain ⟨hchain, hmem⟩ := sorted_pair om.key tm.key
      have hsides : (pathConflict p b (some om) (some tm) reason).sides ≠ [] := by
        refine List.ne_nil_of_mem (a := om.key) ?_
        exact (hmem _).mpr (.inl rfl)
      rw [PathConflict.rep_shapeOk hsides]
      refine and_congr ?_ ?_
      · refine hchain.trans ?_
        simp
      · cases b with
        | none => simp [pathConflict]
        | some bm =>
            have hbase : ((bm.blob, bm.exec) ∈ (pathConflict p (some bm) (some om) (some tm)
                reason).sides ↔ _) := hmem _
            simp only [pathConflict, Option.map_some, Option.some.injEq, Option.any_some,
              forall_eq'] at hbase ⊢
            rw [hbase, not_or]
            have hkey : ∀ m : FileMeta Id,
                (bm.blob, bm.exec) = m.key ↔ some m.key = some bm.key := by
              intro m
              rw [Option.some.injEq]
              exact eq_comm
            exact and_congr (not_congr (hkey om)) (not_congr (hkey tm))
  | some bm, some om, none =>
      have hsides : (pathConflict p (some bm) (some om) none reason).sides = [om.key] := rfl
      rw [PathConflict.rep_shapeOk (hsides ▸ List.cons_ne_nil _ _), hsides]
      simp [pathConflict, KeysDiffer]
      exact not_congr eq_comm
  | some bm, none, some tm =>
      have hsides : (pathConflict p (some bm) none (some tm) reason).sides = [tm.key] := rfl
      rw [PathConflict.rep_shapeOk (hsides ▸ List.cons_ne_nil _ _), hsides]
      simp [pathConflict, KeysDiffer]
      exact not_congr eq_comm

theorem PathConflict.sides_length (c : PathConflict Id) : c.sides.length ≤ 2 := by
  rw [PathConflict.sides, List.length_insertionSort, List.length_append]
  cases c.oursBlob <;> cases c.theirsBlob <;> simp

theorem contentRep_iff {c : PathConflict Id} {rep : ConflictRep Id} :
    contentRep c = some rep ↔
      rep = c.rep ∧ c.path.validate (Platform.nfc Id) = .ok () ∧ c.rep.shapeOk = true := by
  have hfew : c.rep.sides.length ≤ maxEntries := by
    have hlen : c.rep.sides.length = c.sides.length := by simp [PathConflict.rep]
    rw [hlen]
    exact le_trans c.sides_length (by decide)
  have hvalid : validateConflicts (Platform.nfc Id) [c.rep] = .ok () ↔
      c.path.validate (Platform.nfc Id) = .ok () ∧ c.rep.shapeOk = true := by
    rw [validateConflicts_ok]
    have hpath : c.rep.path = c.path := rfl
    have hone : 1 ≤ maxEntries := by decide
    simp [pathsAscend, hpath, hfew, hone]
  unfold contentRep
  cases hres : validateConflicts (Platform.nfc Id) [c.rep] with
  | ok u =>
      rw [← hvalid]
      simp [hres, eq_comm]
  | error e =>
      rw [← hvalid, hres]
      simp

theorem contentRep_pathConflict {p : Path} {b o t : Option (FileMeta Id)} {reason : String}
    (hpath : p.validate (Platform.nfc Id) = .ok ()) (hd : Diverged b o t) :
    contentRep (pathConflict p b o t reason) = none ↔ ¬ KeysDiffer b o t := by
  rw [Option.eq_none_iff_forall_ne_some, ← pathConflict_shapeOk hd]
  constructor
  · intro hnone hshape
    exact hnone _ (contentRep_iff.mpr ⟨rfl, hpath, hshape⟩)
  · intro hshape rep hrep
    exact hshape (contentRep_iff.mp hrep).2.2

/-! ### Renderings -/

/-- A representation of a conflict with a side is two-sided. -/
theorem PathConflict.rep_twoSided {c : PathConflict Id} (hsides : c.sides ≠ []) :
    c.rep.TwoSided := by
  have hmost := c.sides_length
  have hrep : c.rep.sides = c.sides.map (·.1) := rfl
  have hdeleted : c.rep.deleted = decide (c.sides.length < 2) := rfl
  rw [ConflictRep.TwoSided, hrep, hdeleted]
  match hlist : c.sides with
  | [] => exact absurd hlist hsides
  | [x] => exact .inr ⟨x.1, rfl, rfl⟩
  | [x, y] => exact .inl ⟨x.1, y.1, rfl, rfl⟩
  | x :: y :: z :: rest =>
      rw [hlist] at hmost
      simp at hmost

/-- A conflict of three trees has at most two sides that carry content. -/
theorem contentRep_twoSided {c : PathConflict Id} {rep : ConflictRep Id}
    (h : contentRep c = some rep) :
    rep.TwoSided ∧ rep.path.validate (Platform.nfc Id) = .ok () := by
  obtain ⟨rfl, hpath, hshape⟩ := contentRep_iff.mp h
  refine ⟨PathConflict.rep_twoSided fun hnone => ?_, hpath⟩
  have hsides : c.rep.sides = [] := by simp [PathConflict.rep, hnone]
  have hdeleted : c.rep.deleted = true := by simp [PathConflict.rep, hnone]
  simp [ConflictRep.shapeOk, hsides, hdeleted] at hshape

theorem mem_pathConflict_ids {p : Path} {b o t : Option (FileMeta Id)} {reason : String} {id : Id} :
    id ∈ (pathConflict p b o t reason).rep.ids ↔
      ∃ m, (b = some m ∨ o = some m ∨ t = some m) ∧ m.blob = id := by
  have hsides : ∀ x, x ∈ (pathConflict p b o t reason).sides ↔
      (∃ m, o = some m ∧ m.key = x) ∨ ∃ m, t = some m ∧ m.key = x := by
    intro x
    rw [PathConflict.sides, List.mem_insertionSort, List.mem_append]
    cases o <;> cases t <;> simp [pathConflict, FileMeta.key, eq_comm]
  have hmem : id ∈ (pathConflict p b o t reason).rep.ids ↔ (∃ m, b = some m ∧ m.blob = id) ∨
      ∃ x, x ∈ (pathConflict p b o t reason).sides ∧ x.1 = id := by
    rw [ConflictRep.ids, List.mem_append]
    refine or_congr ?_ ?_
    · cases b <;> simp [pathConflict, PathConflict.rep, eq_comm]
    · exact List.mem_map
  rw [hmem]
  constructor
  · rintro (⟨m, hm, hid⟩ | ⟨x, hx, hid⟩)
    · exact ⟨m, .inl hm, hid⟩
    · rcases (hsides x).mp hx with ⟨m, hm, rfl⟩ | ⟨m, hm, rfl⟩
      · exact ⟨m, .inr (.inl hm), hid⟩
      · exact ⟨m, .inr (.inr hm), hid⟩
  · rintro ⟨m, hm | hm | hm, hid⟩
    · exact .inl ⟨m, hm, hid⟩
    · exact .inr ⟨m.key, (hsides _).mpr (.inl ⟨m, hm, rfl⟩), hid⟩
    · exact .inr ⟨m.key, (hsides _).mpr (.inr ⟨m, hm, rfl⟩), hid⟩

theorem baseSection_error {rep : ConflictRep Id} {fetch : Id → Option Bytes} {id : Id}
    (h : baseSection rep fetch = .error id) : rep.base = some id ∧ fetch id = none := by
  unfold baseSection at h
  split at h
  · cases h
  next base hbase =>
    split at h
    next hmissing =>
      cases h
      exact ⟨hbase, hmissing⟩
    next => cases h

/-- A rendering fails for a version that is not there. -/
theorem markerBytes_error {rep : ConflictRep Id} {fetch : Id → Option Bytes} {id : Id}
    (htwo : rep.TwoSided) (h : markerBytes rep fetch = .error id) :
    id ∈ rep.ids ∧ fetch id = none := by
  have hbaseIds : ∀ {e}, baseSection rep fetch = .error e → e ∈ rep.ids ∧ fetch e = none := by
    intro e he
    obtain ⟨hbase, hmissing⟩ := baseSection_error he
    exact ⟨by simp [ConflictRep.ids, hbase], hmissing⟩
  unfold markerBytes at h
  rcases htwo with ⟨first, second, hsides, hdeleted⟩ | ⟨first, hsides, hdeleted⟩
  · have hids : first ∈ rep.ids ∧ second ∈ rep.ids := by simp [ConflictRep.ids, hsides]
    rcases hfirst : fetch first with _ | content <;>
      rcases hbase : baseSection rep fetch with e | base <;>
      rcases hsecond : fetch second with _ | content' <;>
      simp [hsides, hdeleted, sideBlocks, hfirst, hbase, hsecond, bind, Except.bind, pure,
        Except.pure] at h <;> subst h
    all_goals first
      | exact ⟨hids.1, hfirst⟩
      | exact hbaseIds hbase
      | exact ⟨hids.2, hsecond⟩
  · have hids : first ∈ rep.ids := by simp [ConflictRep.ids, hsides]
    rcases hfirst : fetch first with _ | content <;>
      rcases hbase : baseSection rep fetch with e | base <;>
      simp [hsides, hdeleted, sideBlocks, hfirst, hbase, bind, Except.bind, pure, Except.pure] at h
        <;> subst h
    all_goals first
      | exact ⟨hids, hfirst⟩
      | exact hbaseIds hbase

/-- A rendering has read every version. -/
theorem markerBytes_reads {rep : ConflictRep Id} {fetch : Id → Option Bytes} {bytes : Bytes}
    (htwo : rep.TwoSided) (h : markerBytes rep fetch = .ok bytes) :
    ∀ id ∈ rep.ids, fetch id ≠ none := by
  have hbaseRead : ∀ {part}, baseSection rep fetch = .ok part → ∀ id ∈ rep.base.toList,
      fetch id ≠ none := by
    intro part hpart id hid
    rcases baseSection_ok hpart with ⟨hnone, -⟩ | ⟨base, content, hbase, hcontent, -⟩
    · simp [hnone] at hid
    · rw [hbase, Option.toList_some, List.mem_singleton] at hid
      simp [hid, hcontent]
  intro id hid
  rcases List.mem_append.mp hid with hid | hid
  · rcases htwo with ⟨first, second, hsides, hdeleted⟩ | ⟨first, hsides, hdeleted⟩
    · obtain ⟨_, _, _, _, part, _, _, hpart, -⟩ := markerBytes_two h hsides hdeleted
      exact hbaseRead hpart id hid
    · obtain ⟨_, _, part, _, hpart, -⟩ := markerBytes_deleted h hsides hdeleted
      exact hbaseRead hpart id hid
  · rcases htwo with ⟨first, second, hsides, hdeleted⟩ | ⟨first, hsides, hdeleted⟩
    · obtain ⟨_, _, _, _, _, hfirst, hsecond, -⟩ := markerBytes_two h hsides hdeleted
      rw [hsides] at hid
      rcases List.mem_cons.mp hid with rfl | hid
      · simp [hfirst]
      · rw [List.mem_singleton.mp hid]
        simp [hsecond]
    · obtain ⟨_, _, _, hfirst, -⟩ := markerBytes_deleted h hsides hdeleted
      rw [hsides, List.mem_singleton] at hid
      simp [hid, hfirst]

end

end Naatre
