import Naatre.Core.WireCodec
import Naatre.Lib.Utf8
import Mathlib.Data.List.Chain

/-!
The byte encodings as a whole: what decodes to what, which byte strings an
encoding gives back, and the frames the rest of the model keeps in place of
the bytes.
-/

namespace Naatre

/-! ### Path strings -/

theorem Path.text_ofText (s : String) : (Path.ofText s).text = s := by
  have hne : (s.toList.splitOn '/').map String.ofList ≠ [] := by
    simp [List.splitOn_ne_nil]
  have hcomponents : (Path.ofText s).components = (s.toList.splitOn '/').map String.ofList := by
    rw [Path.components, Path.ofText, List.getLastD_eq_getLast?, List.getLast?_eq_some_getLast hne]
    exact List.dropLast_append_getLast hne
  rw [Path.text, hcomponents, ← String.toList_inj, String.toList_intercalate, List.map_map]
  have hmap : (String.toList ∘ String.ofList : List Char → List Char) = id := by
    funext l
    simp
  rw [hmap, List.map_id]
  exact List.intercalate_splitOn '/'

theorem Path.ofText_injective : Function.Injective Path.ofText := fun s t h => by
  rw [← Path.text_ofText s, h, Path.text_ofText]

/-- A name without a slash is a path without directories. -/
theorem Path.ofText_name {s : String} (h : '/' ∉ s.toList) : Path.ofText s = ⟨[], s⟩ := by
  have hsplit : s.toList.splitOn '/' = [s.toList] := by
    have hnone : ∀ l ∈ [s.toList], '/' ∉ l := by simpa using h
    have hjoin := List.splitOn_intercalate '/' hnone (by simp)
    simpa using hjoin
  simp [Path.ofText, hsplit]

namespace Wire

open Lib

theorem utf8_lt_iff (s t : String) : utf8 s < utf8 t ↔ s < t := encodeChars_lt_iff

theorem bytesAscend_iff (texts : List String) : BytesAscend texts ↔ texts.IsChain (· < ·) := by
  simp only [BytesAscend, utf8_lt_iff]

/-! ### Wire values and the values of the model -/

theorem value_payloadOk (c : FileChange) : c.value.payloadOk = true ↔ c.payloadOk := by
  obtain ⟨path, op, blob, size, exec⟩ := c
  by_cases hop : op = .del
  · simp [FileChange.value, Naatre.FileChange.payloadOk, FileChange.payloadOk, hop, and_assoc]
  · simp [FileChange.value, Naatre.FileChange.payloadOk, FileChange.payloadOk, hop, and_assoc]

theorem length_fileChange {c : FileChange} (h : c.payloadOk) :
    c.written.length = c.value.encodedLen := by
  have hvalue : c.value.encodedLen =
      strLen c.path + 1 + (if c.op = .del then 0 else 32 + 8 + 1) := by
    show strLen (Path.ofText c.path).text + 1 + _ = _
    rw [Path.text_ofText]
    rfl
  have hpayload : (writePayload c.blob c.size c.exec).length =
      if c.op = .del then 0 else 32 + 8 + 1 := by
    rw [FileChange.payloadOk] at h
    by_cases hop : c.op = .del
    · rw [if_pos hop] at h ⊢
      rw [h.1]
      rfl
    · rw [if_neg hop, Option.isSome_iff_exists, Option.isSome_iff_exists,
        Option.isSome_iff_exists] at h
      obtain ⟨⟨blob, hblob⟩, ⟨size, hsize⟩, exec, hexec⟩ := h
      simp only [if_neg hop, hblob, hsize, hexec, writePayload, List.length_append,
        blob.length_bytes, length_leBytes, List.length_singleton]
  rw [FileChange.written, List.length_append, List.length_append, length_writeStr, hpayload, hvalue]
  rfl

theorem length_conflictRep {rep : ConflictRep} (h : rep.sidesExec.length = rep.sides.length) :
    rep.encode.length = rep.value.encodedLen := by
  have hvalue : rep.value.encodedLen = strLen rep.path + 1
      + (if rep.base.isSome then 32 + (if rep.hasExec then 1 else 0) else 0)
      + 4 + rep.sides.length * (32 + if rep.hasExec then 1 else 0) := by
    show strLen (Path.ofText rep.path).text + 1 + _ + 4 + _ = _
    rw [Path.text_ofText]
    rfl
  rw [hvalue]
  simp only [ConflictRep.encode, List.length_append, length_writeStr, length_leBytes,
    List.length_singleton, length_flatMap_writeSide, List.length_zip, h, Nat.min_self, strLen]
  cases rep.base with
  | none => rfl
  | some base =>
      rw [length_writeSide]
      rfl

theorem length_flatMap_eq {α : Type} {f : α → Bytes} {g : α → ℕ} {l : List α}
    (h : ∀ a ∈ l, (f a).length = g a) : (l.flatMap f).length = (l.map g).sum := by
  rw [List.length_flatMap, List.map_congr_left h]

theorem length_changeset {nfc : String → String} {cs : Changeset}
    (hpayload : ∀ c ∈ cs.changes, c.payloadOk)
    (hconflicts : validateConflicts nfc (cs.conflicts.map (·.value)) = .ok ()) :
    cs.written.length = cs.value.encodedLen := by
  obtain ⟨-, -, hvalid⟩ := validateConflicts_ok.mp hconflicts
  have hmagic : (if cs.conflicts = [] then magicV1 else magicV2).length = 17 := by
    split_ifs <;> decide
  have hparents : (cs.parents.flatMap (·.bytes)).length = 32 * cs.parents.length := by
    rw [length_flatMap_eq fun i _ => i.length_bytes]
    simp [Nat.mul_comm]
  have hchanges : (cs.changes.flatMap (·.written)).length =
      (cs.changes.map (·.value.encodedLen)).sum :=
    length_flatMap_eq fun c hc => length_fileChange (hpayload c hc)
  have hreps : (encodeConflicts cs.conflicts).length =
      if cs.conflicts = [] then 0 else 4 + (cs.conflicts.map (·.value.encodedLen)).sum := by
    unfold encodeConflicts
    split_ifs with hnil
    · rfl
    · rw [List.length_append, length_leBytes, length_flatMap_eq fun rep hrep => ?_]
      have hshape := (hvalid _ (List.mem_map_of_mem hrep)).2.2
      exact length_conflictRep (shapeOk_decodable hshape).2.1
  simp only [Changeset.written, Changeset.encodeHeader, List.length_append, length_writeStr,
    length_leBytes, List.length_singleton, hmagic, hparents, hchanges, hreps,
    Naatre.Changeset.encodedLen, Changeset.value, strLen, List.map_map, List.map_eq_nil_iff]
  rfl

theorem encode_error_payload {c : FileChange} (h : ¬ c.payloadOk) :
    c.encode = .error .encodeMissingBlob := by
  cases hc : c.encode with
  | ok b => exact absurd (FileChange.encode_eq_ok.mp hc).1 h
  | error e =>
      unfold FileChange.encode at hc
      split_ifs at hc with hdel hsome
      · split at hc
        · cases hc
        · rw [← hc]
      · rw [← hc]

theorem mapM_encode_error {changes : List FileChange} (h : ¬ ∀ c ∈ changes, c.payloadOk) :
    changes.mapM (·.encode) = .error .encodeMissingBlob := by
  induction changes with
  | nil => exact absurd (fun c hc => absurd hc List.not_mem_nil) h
  | cons c changes ih =>
      rw [List.mapM_cons]
      by_cases hc : c.payloadOk
      · rw [List.forall_mem_cons] at h
        rw [FileChange.encode_eq_ok.mpr ⟨hc, rfl⟩, ih fun hall => h ⟨hc, hall⟩]
        rfl
      · rw [encode_error_payload hc]
        rfl

/-- `encode` on the bytes and on the values of the model give the same
answer. -/
theorem Changeset.encodeError_value (nfc : String → String) (cs : Changeset) :
    cs.value.encodeError nfc =
      match cs.encode nfc with
      | .ok _ => none
      | .error e => some e := by
  have hascend : pathsAscend (cs.value.changes.map (·.path)) =
      decide (BytesAscend (cs.changes.map (·.path))) := by
    have hiff : List.IsChain (fun p q : Path => p.text < q.text)
        (cs.value.changes.map (·.path)) ↔ BytesAscend (cs.changes.map (·.path)) := by
      rw [bytesAscend_iff, List.isChain_map, List.isChain_map, Changeset.value, List.isChain_map]
      simp only [FileChange.value, Path.text_ofText]
    rw [pathsAscend]
    exact decide_eq_decide.mpr hiff
  have hpayload : cs.value.changes.all (·.payloadOk) = true ↔ ∀ c ∈ cs.changes, c.payloadOk := by
    simp [Changeset.value, value_payloadOk]
  unfold Naatre.Changeset.encodeError Changeset.encode
  rw [hascend]
  by_cases hparents : maxParents < cs.parents.length
  · rw [if_pos hparents, if_pos (show maxParents < cs.value.parents.length from hparents)]
  rw [if_neg hparents, if_neg (show ¬ maxParents < cs.value.parents.length from hparents)]
  by_cases hsorted : BytesAscend (cs.changes.map (·.path))
  · rw [if_neg (not_not.mpr hsorted), if_neg (by simpa using hsorted)]
    have hvalue : cs.value.conflicts = cs.conflicts.map (·.value) := rfl
    rw [hvalue]
    cases hconflicts : validateConflicts nfc (cs.conflicts.map (·.value)) with
    | error e => rfl
    | ok u =>
        by_cases hall : ∀ c ∈ cs.changes, c.payloadOk
        · rw [mapM_encode_eq_ok.mpr ⟨hall, rfl⟩]
          simp only [bind, Except.bind]
          rw [hpayload.mpr hall, ← length_changeset hall hconflicts, Changeset.written,
            List.flatMap_def]
          simp only [Bool.not_true, Bool.false_eq_true, if_false]
          split_ifs <;> rfl
        · rw [mapM_encode_error hall]
          have hnot : cs.value.changes.all (·.payloadOk) = false := by
            rw [← Bool.not_eq_true]
            exact fun h => hall (hpayload.mp h)
          simp only [bind, Except.bind]
          rw [hnot]
          rfl
  · rw [if_pos hsorted, if_pos (by simpa using hsorted)]

theorem Changeset.value_injective : Function.Injective Changeset.value := by
  intro cs cs' h
  have hchange : Function.Injective FileChange.value := by
    intro c c' hc
    obtain ⟨path, op, blob, size, exec⟩ := c
    obtain ⟨path', op', blob', size', exec'⟩ := c'
    simp only [FileChange.value, Naatre.FileChange.mk.injEq] at hc
    obtain ⟨hpath, rfl, rfl, hsize, rfl⟩ := hc
    rw [Path.ofText_injective hpath,
      Option.map_injective (fun _ _ => UInt64.toNat_inj.mp) hsize]
  have hrep : Function.Injective ConflictRep.value := by
    intro r r' hr
    obtain ⟨path, base, baseExec, sides, sidesExec, deleted⟩ := r
    obtain ⟨path', base', baseExec', sides', sidesExec', deleted'⟩ := r'
    simp only [ConflictRep.value, Naatre.ConflictRep.mk.injEq] at hr
    obtain ⟨hpath, rfl, rfl, rfl, rfl, rfl⟩ := hr
    rw [Path.ofText_injective hpath]
  obtain ⟨repoId, parents, author, message, timestampNs, changes, conflicts⟩ := cs
  obtain ⟨repoId', parents', author', message', timestampNs', changes', conflicts'⟩ := cs'
  simp only [Changeset.value, Naatre.Changeset.mk.injEq] at h
  obtain ⟨hrepo, rfl, rfl, rfl, htime, hchanges, hconflicts⟩ := h
  rw [UInt64.toNat_inj.mp hrepo, UInt64.toNat_inj.mp htime,
    List.map_injective_iff.mpr hchange hchanges, List.map_injective_iff.mpr hrep hconflicts]

/-- The model keeps a value that `encode` accepts in place of its bytes. Two
such frames are one exactly when the bytes are. -/
theorem Changeset.frame_eq_iff {nfc : String → String} {cs cs' : Changeset}
    {f f' : Frame ObjectId nfc} {bytes bytes' : Bytes} (hf : f.cs = cs.value)
    (hf' : f'.cs = cs'.value) (h : cs.encode nfc = .ok bytes) (h' : cs'.encode nfc = .ok bytes') :
    f = f' ↔ bytes = bytes' := by
  obtain ⟨hparents, hpayload, hcanonical, rfl⟩ := Changeset.encode_eq_ok.mp h
  obtain ⟨hparents', hpayload', hcanonical', rfl⟩ := Changeset.encode_eq_ok.mp h'
  constructor
  · rintro rfl
    rw [Changeset.value_injective (hf.symm.trans hf')]
  · intro heq
    have hcs := (codes_changeset.split (hcanonical.decodable hparents hpayload)
      (hcanonical'.decodable hparents' hpayload') (congrArg (· ++ []) heq)).1
    obtain ⟨cs₀, _⟩ := f
    obtain ⟨cs₁, _⟩ := f'
    cases hf
    cases hf'
    rw [Frame.mk.injEq, hcs]

/-- A decoded tree is one the model can keep in place of its bytes. -/
theorem Tree.Decodable.written_value {t : Tree} (h : t.Decodable) :
    t.value.entries.map (·.written) = t.value.entries := by
  rw [Tree.value, List.map_map]
  refine List.map_congr_left fun e he => ?_
  obtain ⟨name, kind, object, size, exec⟩ := e
  have hexec := (h.entries _ he).2
  cases kind with
  | file => rfl
  | dir =>
      cases exec with
      | false => rfl
      | true => cases hexec rfl

theorem Tree.encodeError_value (t : Tree) :
    t.value.encodeError =
      match t.encode with
      | .ok _ => none
      | .error e => some e := by
  have hsorted : t.value.entries.IsChain (fun a b => a.name < b.name) ↔
      BytesAscend (t.entries.map (·.name)) := by
    rw [bytesAscend_iff, List.isChain_map, Tree.value, List.isChain_map]
    rfl
  have hlen : t.value.encodedLen = t.written.length := by
    have hentries : (t.entries.flatMap (·.encode)).length =
        (t.entries.map (·.value.encodedLen)).sum :=
      length_flatMap_eq fun e _ => by
        rw [length_tree_encode]
        show _ = strLen e.name + 1 + 32 + 8 + 1
        rw [strLen]
        omega
    have hmagic : treeMagic.length = 12 := by decide
    rw [Tree.written, List.length_append, List.length_append, hentries, length_leBytes, hmagic,
      Naatre.Tree.encodedLen, Tree.value, List.map_map]
    rfl
  unfold Naatre.Tree.encodeError Tree.encode
  rw [hlen]
  by_cases h : BytesAscend (t.entries.map (·.name))
  · rw [if_neg (not_not.mpr (hsorted.mpr h)), if_neg (not_not.mpr h)]
    show _ = match (if maxObjectBytes < t.written.length then .error .encodeTooLarge
        else .ok t.written : Except CoreError Bytes) with
      | .ok _ => none
      | .error e => some e
    split_ifs <;> rfl
  · rw [if_pos (fun hc => h (hsorted.mp hc)), if_pos h]

/-! ### Changesets and their bytes -/

/-- `id_for_encoded`: the hash of the bytes, under the domain of their version. -/
def idForEncoded (hash : Bool → Bytes → ObjectId) (canonical : Bytes) (hasConflicts : Bool) :
    ObjectId :=
  hash hasConflicts canonical

/-- `changeset_id`. -/
def changesetId (hash : Bool → Bytes → ObjectId) (nfc : String → String) (cs : Changeset) :
    Except CoreError ObjectId :=
  match cs.encode nfc with
  | .error e => .error e
  | .ok bytes => .ok (idForEncoded hash bytes (cs.conflicts ≠ []))

theorem Changeset.decode_encode {nfc : String → String} {cs : Changeset} {bytes : Bytes}
    (h : cs.encode nfc = .ok bytes) : Changeset.decode bytes = .ok cs := by
  obtain ⟨hparents, hpayload, hcanonical, rfl⟩ := Changeset.encode_eq_ok.mp h
  exact Changeset.decode_eq_ok.mpr ⟨hcanonical.decodable hparents hpayload, rfl⟩

/-- Re-encoding what was decoded: the same bytes or none. -/
theorem Changeset.encode_decode (nfc : String → String) {cs : Changeset} {bytes : Bytes}
    (h : Changeset.decode bytes = .ok cs) :
    (cs.encode nfc = .ok bytes ↔ cs.Canonical nfc) ∧
      ∀ other, cs.encode nfc = .ok other → other = bytes := by
  obtain ⟨hdec, rfl⟩ := Changeset.decode_eq_ok.mp h
  constructor
  · rw [Changeset.encode_eq_ok]
    exact ⟨fun h => h.2.2.1, fun h => ⟨hdec.parents, fun c hc => (hdec.changes c hc).2, h, rfl⟩⟩
  · intro other hother
    exact (Changeset.encode_eq_ok.mp hother).2.2.2

/-- The changeset encoding. What `encode` gives out decodes to the value it
was given. `decode` is structural: of the byte strings it accepts, `encode`
gives back those whose changes and conflicts keep its own rules, and never
other bytes in their place. No two accepted byte strings are one changeset. -/
theorem changeset_codec (nfc : String → String) (hash : Bool → Bytes → ObjectId) :
    (∀ cs bytes, Changeset.encode nfc cs = .ok bytes → Changeset.decode bytes = .ok cs) ∧
    (∀ bytes cs, Changeset.decode bytes = .ok cs →
      (cs.encode nfc = .ok bytes ↔ BytesAscend (cs.changes.map (·.path)) ∧
        validateConflicts nfc (cs.conflicts.map (·.value)) = .ok () ∧
        bytes.length ≤ maxObjectBytes) ∧
      (∀ other, cs.encode nfc = .ok other → other = bytes) ∧
      (∀ i, changesetId hash nfc cs = .ok i → i = idForEncoded hash bytes (cs.conflicts ≠ []))) ∧
    (∀ bytes bytes' cs, Changeset.decode bytes = .ok cs → Changeset.decode bytes' = .ok cs →
      bytes = bytes') := by
  refine ⟨fun cs bytes => Changeset.decode_encode, fun bytes cs h => ?_, fun b b' cs h h' => ?_⟩
  · obtain ⟨hiff, hsame⟩ := Changeset.encode_decode nfc h
    refine ⟨hiff.trans ?_, hsame, fun i hi => ?_⟩
    · rw [(Changeset.decode_eq_ok.mp h).2]
      exact ⟨fun hc => ⟨hc.sorted, hc.conflicts, hc.size⟩, fun hc => ⟨hc.1, hc.2.1, hc.2.2⟩⟩
    · unfold changesetId at hi
      cases henc : cs.encode nfc with
      | error e => rw [henc] at hi; cases hi
      | ok other =>
          rw [henc] at hi
          cases hi
          rw [hsame other henc]
  · rw [(Changeset.decode_eq_ok.mp h).2, (Changeset.decode_eq_ok.mp h').2]

/-- Two deletions, the later path first. -/
def unsortedDeletions : Changeset :=
  ⟨1, [], "a", "m", 1, [⟨"b", .del, none, none, none⟩, ⟨"a", .del, none, none, none⟩], []⟩

theorem decode_unsortedDeletions :
    Changeset.decode unsortedDeletions.written = .ok unsortedDeletions ∧
      ∀ nfc, unsortedDeletions.encode nfc = .error .encodeUnsorted := by
  constructor
  · refine Changeset.decode_eq_ok.mpr ⟨⟨by decide, by decide, by decide, by decide, ?_, by decide,
      fun rep hrep => absurd hrep List.not_mem_nil⟩, rfl⟩
    intro c hc
    simp only [unsortedDeletions, List.mem_cons, List.not_mem_nil, or_false] at hc
    rcases hc with rfl | rfl
    · exact ⟨by decide, rfl, rfl, rfl⟩
    · exact ⟨by decide, rfl, rfl, rfl⟩
  · intro nfc
    have hsorted : ¬ BytesAscend (unsortedDeletions.changes.map (·.path)) := by decide
    rw [Changeset.encode, if_neg (by decide), if_pos hsorted]

/-! ### Trees and their bytes -/

theorem checkCaseFold_eq_ok {lower : String → String} {paths : List Path}
    {seen : List ((List String × String) × Path)}
    (hseen : ∀ p ∈ paths, seen.lookup (p.dirs, lower p.leaf) = none)
    (hpaths : paths.Pairwise fun p q => (p.dirs, lower p.leaf) ≠ (q.dirs, lower q.leaf)) :
    checkCaseFold lower paths seen = .ok () := by
  induction paths generalizing seen with
  | nil => rfl
  | cons p paths ih =>
      obtain ⟨hp, hrest⟩ := List.pairwise_cons.mp hpaths
      rw [checkCaseFold, hseen p List.mem_cons_self]
      refine ih (fun q hq => ?_) hrest
      rw [List.lookup_cons, beq_eq_false_iff_ne.mpr (hp q hq).symm]
      exact hseen q (List.mem_cons_of_mem _ hq)

theorem checkCaseFoldDuplicates_iff {lower : String → String} {paths : List Path} :
    checkCaseFoldDuplicates lower paths = .ok () ↔
      paths.Pairwise fun p q => (p.dirs, lower p.leaf) ≠ (q.dirs, lower q.leaf) :=
  ⟨checkCaseFoldDuplicates_ok, checkCaseFold_eq_ok fun _ _ => rfl⟩

theorem no_slash_of_component {nfc : String → String} {name : String}
    (h : validateComponent nfc name = .ok ()) : '/' ∉ name.toList := by
  intro hslash
  unfold validateComponent at h
  simp only [if_pos hslash] at h
  split_ifs at h

/-- The rules of `tree::validate`. -/
theorem Tree.validate_eq_ok {nfc lower : String → String} {t : Tree} :
    t.validate nfc lower = .ok () ↔
      (∀ e ∈ t.entries, validateComponent nfc e.name = .ok () ∧ (e.kind = .dir → e.exec = false)) ∧
        (t.entries.map (fun e => lower e.name)).Nodup ∧ t.entries.length ≤ maxEntries := by
  rw [← validateEntries_ok]
  unfold Tree.validate
  cases hentries : validateEntries nfc t.entries with
  | error e => simp
  | ok u =>
      have hnames : ∀ e ∈ t.entries, Path.ofText e.name = ⟨[], e.name⟩ := fun e he =>
        Path.ofText_name (no_slash_of_component (validateEntries_ok.mp hentries e he).1)
      have hfold : checkCaseFoldDuplicates lower (t.entries.map fun e => .ofText e.name) = .ok () ↔
          (t.entries.map (fun e => lower e.name)).Nodup := by
        rw [checkCaseFoldDuplicates_iff, List.map_congr_left hnames, List.Nodup, List.pairwise_map,
          List.pairwise_map]
        simp
      rw [← hfold]
      cases hcase : checkCaseFoldDuplicates lower (t.entries.map fun e => .ofText e.name) with
      | error e => simp
      | ok u => simp

/-- The entries `encode` and `validate` both let through. -/
structure Tree.WellFormed (nfc lower : String → String) (t : Tree) : Prop where
  sorted : BytesAscend (t.entries.map (·.name))
  names : ∀ e ∈ t.entries, validateComponent nfc e.name = .ok ()
  exec : ∀ e ∈ t.entries, e.kind = .dir → e.exec = false
  folds : (t.entries.map (fun e => lower e.name)).Nodup
  count : t.entries.length ≤ maxEntries
  size : 16 + (t.entries.map (fun e => 50 + e.name.utf8ByteSize)).sum ≤ maxObjectBytes

theorem Tree.length_written (t : Tree) :
    t.written.length = 16 + (t.entries.map (fun e => 50 + e.name.utf8ByteSize)).sum := by
  have hmagic : treeMagic.length = 12 := by decide
  rw [Tree.written, List.length_append, List.length_append,
    length_flatMap_eq fun e _ => length_tree_encode e, length_leBytes, hmagic]

/-- The tree encoding. What `encode` gives out decodes to the tree it was
given, where no directory has an exec bit. `decode` is structural: it takes
every list of entries without such a bit that the length fields can hold.
Of these `encode` gives back the sorted ones within the object size, and
`encode` and `validate` together let through exactly the sorted ones with
valid names, no two of which fold alike. -/
theorem tree_codec (nfc lower : String → String) :
    (∀ t bytes, Tree.encode t = .ok bytes → (∀ e ∈ t.entries, e.kind = .dir → e.exec = false) →
      Tree.decode bytes = .ok t) ∧
    (∀ bytes t, Tree.decode bytes = .ok t →
      (t.encode = .ok bytes ↔
        BytesAscend (t.entries.map (·.name)) ∧ bytes.length ≤ maxObjectBytes) ∧
      (∀ other, t.encode = .ok other → other = bytes)) ∧
    (∀ bytes bytes' t, Tree.decode bytes = .ok t → Tree.decode bytes' = .ok t → bytes = bytes') ∧
    (∀ t, (∃ bytes, Tree.decode bytes = .ok t) ↔ t.entries.length < 2 ^ 32 ∧
      ∀ e ∈ t.entries, e.name.utf8ByteSize ≤ maxObjectBytes ∧ (e.kind = .dir → e.exec = false)) ∧
    (∀ t, (∃ bytes, Tree.decode bytes = .ok t ∧ t.encode = .ok bytes) ∧
      t.validate nfc lower = .ok () ↔ t.WellFormed nfc lower) := by
  refine ⟨fun t bytes h hexec => ?_, fun bytes t h => ?_, fun b b' t h h' => ?_, fun t => ?_,
    fun t => ?_⟩
  · obtain ⟨-, hsize, rfl⟩ := Tree.encode_eq_ok.mp h
    exact Tree.decode_eq_ok.mpr ⟨Tree.decodable_of_size hsize hexec, rfl⟩
  · obtain ⟨hdec, rfl⟩ := Tree.decode_eq_ok.mp h
    rw [Tree.encode_eq_ok]
    exact ⟨⟨fun hc => ⟨hc.1, hc.2.1⟩, fun hc => ⟨hc.1, hc.2, rfl⟩⟩,
      fun other hother => (Tree.encode_eq_ok.mp hother).2.2⟩
  · rw [(Tree.decode_eq_ok.mp h).2, (Tree.decode_eq_ok.mp h').2]
  · constructor
    · rintro ⟨bytes, h⟩
      obtain ⟨hdec, -⟩ := Tree.decode_eq_ok.mp h
      exact ⟨hdec.count, hdec.entries⟩
    · rintro ⟨hcount, hentries⟩
      exact ⟨t.written, Tree.decode_eq_ok.mpr ⟨⟨hcount, hentries⟩, rfl⟩⟩
  · rw [Tree.validate_eq_ok]
    constructor
    · rintro ⟨⟨bytes, -, hencode⟩, hentries, hfolds, hcount⟩
      obtain ⟨hsorted, hsize, -⟩ := Tree.encode_eq_ok.mp hencode
      rw [Tree.length_written] at hsize
      exact ⟨hsorted, fun e he => (hentries e he).1, fun e he => (hentries e he).2, hfolds, hcount,
        hsize⟩
    · intro h
      have hsize : t.written.length ≤ maxObjectBytes := by
        rw [Tree.length_written]
        exact h.size
      refine ⟨⟨t.written, ?_, ?_⟩, fun e he => ⟨h.names e he, h.exec e he⟩, h.folds, h.count⟩
      · exact Tree.decode_eq_ok.mpr ⟨Tree.decodable_of_size hsize h.exec, rfl⟩
      · exact Tree.encode_eq_ok.mpr ⟨h.sorted, hsize, rfl⟩

/-- Two files, the later name first. -/
def unsortedFiles : Tree := ⟨[⟨"b", .file, default, 0, false⟩, ⟨"a", .file, default, 0, false⟩]⟩

theorem decode_unsortedFiles :
    Tree.decode unsortedFiles.written = .ok unsortedFiles ∧
      unsortedFiles.encode = .error .encodeUnsorted := by
  constructor
  · refine Tree.decode_eq_ok.mpr ⟨⟨by decide, fun e he => ?_⟩, rfl⟩
    simp only [unsortedFiles, List.mem_cons, List.not_mem_nil, or_false] at he
    rcases he with rfl | rfl
    · exact ⟨by decide, fun h => nomatch h⟩
    · exact ⟨by decide, fun h => nomatch h⟩
  · have hsorted : ¬ BytesAscend (unsortedFiles.entries.map (·.name)) := by decide
    rw [Tree.encode, if_pos hsorted]

end Wire

end Naatre
