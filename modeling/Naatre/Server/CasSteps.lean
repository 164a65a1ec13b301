import Naatre.Server.LandHistory

/-!
What one step of the system does to the blob store: contents go in, each under
its own name, or the collector takes some away.
-/

namespace Naatre

section

variable {Id : Type} [Platform Id]

/-- Contents went in. -/
abbrev CasGrows : List (Id × Bytes) → List (Id × Bytes) → Prop :=
  Relation.ReflTransGen fun a b => ∃ bytes, casPut a bytes = some b

/-- Every stored content is the one its id names. -/
def CasNamed (cas : List (Id × Bytes)) : Prop :=
  ∀ id bytes, casGet cas id = some bytes → Platform.blobId bytes = id

theorem casPut_get {cas cas' : List (Id × Bytes)} {bytes : Bytes} (h : casPut cas bytes = some cas')
    (hnamed : CasNamed cas) : casGet cas' (Platform.blobId bytes) = some bytes := by
  unfold casPut at h
  split_ifs at h with hlimit hstored
  · obtain rfl := Option.some.inj h
    obtain ⟨found, hfound⟩ := Option.isSome_iff_exists.mp hstored
    rw [hfound, Platform.blobId_inj (hnamed _ found hfound)]
  · obtain rfl := Option.some.inj h
    rw [Option.not_isSome_iff_eq_none] at hstored
    rw [casGet] at hstored
    rw [casGet, List.lookup_append, hstored, Option.none_or]
    simp

theorem casPut_named {cas cas' : List (Id × Bytes)} {bytes : Bytes}
    (h : casPut cas bytes = some cas') (hnamed : CasNamed cas) : CasNamed cas' := by
  intro id found hfound
  unfold casPut at h
  split_ifs at h
  · obtain rfl := Option.some.inj h
    exact hnamed id found hfound
  · obtain rfl := Option.some.inj h
    rw [casGet, List.lookup_append, Option.or_eq_some_iff] at hfound
    rcases hfound with hold | ⟨-, hnew⟩
    · exact hnamed id found hold
    · by_cases hid : id = Platform.blobId bytes
      · simp only [hid, List.lookup_cons, beq_self_eq_true, Option.some.injEq] at hnew
        rw [hid, hnew]
      · simp [List.lookup_cons, beq_eq_false_iff_ne.mpr hid] at hnew

namespace CasGrows

variable {cas cas' : List (Id × Bytes)}

theorem findsMore (h : CasGrows cas cas') : FindsMore (casGet cas) (casGet cas') := by
  induction h with
  | refl => exact fun _ _ h => h
  | tail _ hput ih =>
      obtain ⟨bytes, hput⟩ := hput
      exact fun id found hfound => casPut_findsMore hput id found (ih id found hfound)

theorem named (h : CasGrows cas cas') (hnamed : CasNamed cas) : CasNamed cas' := by
  induction h with
  | refl => exact hnamed
  | tail _ hput ih =>
      obtain ⟨bytes, hput⟩ := hput
      exact casPut_named hput ih

end CasGrows

/-! ### Writers of blobs -/

theorem BlobWrites.casGrows {nowNs : ℕ} {free : Id → Prop} {a b : List (Id × Bytes) × Catalog Id}
    (h : BlobWrites nowNs free a b) : CasGrows a.1 b.1 := by
  induction h with
  | refl => exact .refl
  | tail _ hwrite ih =>
      obtain ⟨bytes, cas, -, hput, rfl⟩ := hwrite
      exact ih.tail ⟨bytes, hput⟩

theorem Puts.casGrows {nowNs : ℕ} {cx cx' : RepoCx Id} (h : Puts nowNs cx cx') :
    CasGrows cx.cas cx'.cas := by
  induction h with
  | refl => exact .refl
  | tail _ hput ih =>
      obtain ⟨content, hput⟩ := hput
      obtain ⟨-, cas, hcas, rfl⟩ := putRecorded_ok hput
      exact ih.tail ⟨content, hcas⟩

theorem changesetInsertRows_cas {cx cx' : RepoCx Id} {rec : ChangesetInsert Id}
    (h : changesetInsertRows cx rec = some cx') : cx'.cas = cx.cas := by
  obtain ⟨-, rfl⟩ := changesetInsertRows_some h
  rfl

theorem LandSuccess.casGrows {cx cx' : RepoCx Id} {cmd : LandCommand Id} {done : LandDone Id}
    (h : LandSuccess cx cmd done cx') : CasGrows cx.cas cx'.cas := by
  cases h with
  | replay => exact .refl
  | contained => exact .refl
  | rebased f hout b =>
      obtain ⟨os, hos⟩ := landTrace_exists b.loop
      have hwrites := hos.writes.casGrows
      exact hwrites

theorem Imported.casGrows {nowNs : ℕ} {cx cx' : RepoCx Id} {ps : List (PreparedCommit Id)}
    (h : Imported nowNs cx ps cx') : CasGrows cx.cas cx'.cas := by
  induction h with
  | nil => exact .refl
  | cons hcommit _ ih =>
      obtain ⟨c⟩ := hcommit
      rw [changesetInsertRows_cas c.insert_ok] at ih
      exact c.puts.casGrows.trans ih

theorem RunBackend.casGrows {nowNs : ℕ} {cx cx' : RepoCx Id} {git : GitRepo}
    {opts : ImportOptions} {head : GitOid} (h : RunBackend nowNs cx git opts head cx') :
    CasGrows cx.cas cx'.cas := by
  cases h with
  | untouched => exact .refl
  | commits sc k mid cx' himported hputs => exact himported.casGrows.trans hputs.casGrows
  | grafted sc last main db himported hgraft => exact himported.casGrows

namespace Server

/-- Only the collector takes contents away. -/
theorem step_cas {s s' : Server Id} {e : Event Id} (h : s.step e = some s') (hgc : e ≠ .gcStep) :
    CasGrows s.cas s'.cas := by
  cases step_cases h with
  | createWrite i r p cx hpending hpersist =>
      obtain ⟨w⟩ := hpersist
      have hcas : cx.cas = s.cas := changesetInsertRows_cas w.insert_ok
      show CasGrows s.cas cx.cas
      rw [hcas]
  | land r cmd done cx hland => exact hland.casGrows
  | landAborted r cmd cas cat hwrites => exact hwrites.casGrows
  | importGit r git opts head stop cx hquiescent hrun => exact hrun.casGrows
  | putBytes r bytes cas hput => exact .single ⟨bytes, hput⟩
  | snapshotPost r req p done cx hprepare hwritten =>
      have hcas : cx.cas = s.cas := by cases hwritten <;> rfl
      show CasGrows s.cas cx.cas
      rw [hcas]
  | sgcStep i pass =>
      have hcas := (sgcPassStep_frame s pass).cas
      show CasGrows s.cas (s.sgcPassStep pass).1.cas
      rw [hcas]
  | gcStep => exact absurd rfl hgc
  | _ => exact .refl

theorem casGet_filter {cas : List (Id × Bytes)} {ids : List Id} {id : Id} {bytes : Bytes}
    (h : casGet (cas.filter (fun b => decide (b.1 ∉ ids))) id = some bytes) :
    casGet cas id = some bytes := by
  induction cas with
  | nil => exact h
  | cons b rest ih =>
      rw [casGet, List.lookup_cons]
      by_cases hdead : b.1 ∈ ids
      · rw [List.filter_cons_of_neg (by simp [hdead])] at h
        have hne : id ≠ b.1 := by
          rintro rfl
          have hmem : (b.1, bytes) ∈ rest.filter (fun b => decide (b.1 ∉ ids)) :=
            Lib.mem_of_lookup h
          exact of_decide_eq_true (List.mem_filter.mp hmem).2 hdead
        rw [beq_eq_false_iff_ne.mpr hne]
        exact ih h
      · rw [List.filter_cons_of_pos (by simp [hdead]), casGet, List.lookup_cons] at h
        split at h
        · exact h
        · exact ih h

/-- What a step of the collector leaves in the blob store was there. -/
theorem gcPassStep_cas (s : Server Id) (pass : GcPass Id) {id : Id} {bytes : Bytes}
    (h : casGet (s.gcPassStep pass).1.cas id = some bytes) : casGet s.cas id = some bytes := by
  unfold gcPassStep at h
  simp only at h
  split at h
  case h_10 => exact casGet_filter h
  case h_12 => split_ifs at h <;> exact h
  case h_14 =>
    unfold purgeCsBatch at h
    simp only at h
    split_ifs at h
    · exact h
    · exact casGet_filter h
  case h_15 => exact casGet_filter h
  all_goals exact h

/-- A content is stored under its own name in every run. -/
theorem casNamed_of_reach {ok : Server Id → Event Id → Prop} {s : Server Id} (h : Reach ok s) :
    CasNamed s.cas := by
  refine Lib.Reach.invariant (I := fun s => CasNamed s.cas) ?_ (fun s e s' _ hnamed _ he => ?_) h
  · rintro s ⟨layout, repos, nowNs, graceNs, -, rfl⟩ id bytes hfound
    cases hfound
  · by_cases hgc : e = .gcStep
    · subst hgc
      cases step_cases he with
      | refused => exact hnamed
      | gcStep pass => exact fun id bytes h => hnamed id bytes (gcPassStep_cas s pass h)
    · exact (step_cas he hgc).named hnamed

end Server

end

end Naatre
