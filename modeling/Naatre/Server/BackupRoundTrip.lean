import Naatre.Server.RestoreSteps

/-!
The round trip of a backup (`backup.rs` `backup_begin`, `backup_finish`,
`restore`).

Every artifact's name comes back through the grammar of the manifest, and the
restore that the checks let through leaves the rows and the objects of the
source. The checks take the layout from the artifacts: a catalog without
repositories looks like a single database (`backup_restore_iff`).
-/

namespace Naatre

open Lib

section

variable {Id : Type} [Platform Id] {File : Type} {tools : BackupTools Id File}
  {world : BackupWorld File} {cfg : BackendConfig}

/-! ### Names -/

theorem join_shardPath (hex : String) :
    (shardPath hex).foldr (· ++ ·) "" = hex := by
  apply String.toList_injective
  simp only [shardPath, List.foldr_cons, List.foldr_nil, String.toList_append,
    String.toList_ofList]
  have hdrop : hex.toList.drop 4 = (hex.toList.drop 2).drop 2 := by rw [List.drop_drop]
  rw [hdrop, show "".toList = ([] : List Char) from rfl, List.append_nil, List.take_append_drop,
    List.take_append_drop]

theorem shardPath_injective : Function.Injective shardPath := fun hex hex' h => by
  rw [← join_shardPath hex, h, join_shardPath]

theorem objectArtifactPath_eq (hex : String) :
    objectArtifactPath hex = "objects/" ++ joinSlash (shardPath hex) := by
  apply String.toList_injective
  rw [objectArtifactPath, joinSlash, String.toList_append, joinSlash]
  simp only [shardPath, String.toList_intercalate, List.map_cons, List.map_nil]
  rfl

theorem stripPre_eq_none {pre s : String} (h : pre.toList.head? ≠ s.toList.head?)
    (hne : pre.toList ≠ []) : stripPre pre s = none := by
  cases hstrip : stripPre pre s with
  | none => rfl
  | some rest =>
      refine absurd ?_ h
      rw [eq_of_stripPre hstrip, String.toList_append]
      cases hpre : pre.toList with
      | nil => exact absurd hpre hne
      | cons c cs => rfl

theorem head_objectArtifactPath (hex : String) :
    (objectArtifactPath hex).toList.head? = some 'o' := by
  rw [objectArtifactPath_eq, String.toList_append]
  rfl

theorem stripPre_repos_object (hex : String) :
    stripPre "repos/" (objectArtifactPath hex) = none :=
  stripPre_eq_none (by rw [head_objectArtifactPath]; decide) (by decide)

theorem repoArtifactName_object (hex : String) :
    repoArtifactName (objectArtifactPath hex) = none := by
  rw [repoArtifactName, stripPre_repos_object]
  rfl

/-- The parts of a 64-character id. -/
theorem shardPath_valid {hex : String} (h : isHexId hex = true) :
    ∃ a b c, shardPath hex = [a, b, c] ∧ is2Hex a = true ∧ is2Hex b = true ∧
      c.toList.length = 60 ∧ c.toList.all isHexLower = true := by
  obtain ⟨hlen, hall⟩ := Bool.and_eq_true_iff.mp h
  have hlen : hex.toList.length = 64 := of_decide_eq_true hlen
  have hhex : ∀ c ∈ hex.toList, isHexLower c = true := List.all_eq_true.mp hall
  refine ⟨_, _, _, rfl, ?_, ?_, ?_, ?_⟩
  · rw [is2Hex, String.toList_ofList, Bool.and_eq_true, decide_eq_true_eq, List.all_eq_true,
      List.length_take, hlen]
    exact ⟨rfl, fun c hc => hhex c (List.mem_of_mem_take hc)⟩
  · rw [is2Hex, String.toList_ofList, Bool.and_eq_true, decide_eq_true_eq, List.all_eq_true,
      List.length_take, List.length_drop, hlen]
    exact ⟨rfl, fun c hc => hhex c (List.mem_of_mem_drop (List.mem_of_mem_take hc))⟩
  · rw [String.toList_ofList, List.length_drop, hlen]
  · rw [String.toList_ofList, List.all_eq_true]
    exact fun c hc => hhex c (List.mem_of_mem_drop hc)

theorem components_joined_shard {hex : String} (h : isHexId hex = true) :
    components (joinSlash (shardPath hex)) = shardPath hex := by
  have hslash := isHexId_noSlash h
  refine components_join (List.cons_ne_nil _ _) fun c hc => ?_
  simp only [shardPath, List.mem_cons, List.not_mem_nil, or_false] at hc
  rcases hc with rfl | rfl | rfl <;> rw [String.toList_ofList] <;> intro hmem
  · exact hslash (List.mem_of_mem_take hmem)
  · exact hslash (List.mem_of_mem_drop (List.mem_of_mem_take hmem))
  · exact hslash (List.mem_of_mem_drop hmem)

/-- The three kinds of names a backup gives its artifacts are within the grammar. -/
theorem validArtifactPath_object {hex : String} (h : isHexId hex = true) :
    validArtifactPath (objectArtifactPath hex) = true := by
  have hhead := head_objectArtifactPath hex
  have hne : ¬(objectArtifactPath hex = sqliteDump ∨ objectArtifactPath hex = pgDump) := by
    rintro (heq | heq) <;> rw [heq] at hhead <;> exact absurd hhead (by decide)
  obtain ⟨a, b, c, hshard, ha, hb, hlen, hc⟩ := shardPath_valid h
  have hcomponents := components_joined_shard h
  rw [hshard] at hcomponents
  unfold validArtifactPath
  rw [if_neg hne, stripPre_repos_object]
  simp only [objectArtifactPath_eq, stripPre_append, hshard, hcomponents, ha, hb, hlen, hc,
    decide_true, Bool.and_self]

theorem validArtifactPath_dump : validArtifactPath sqliteDump = true := by
  rw [validArtifactPath, if_pos (.inl rfl)]

theorem digits_repoId (id : RepoId) :
    toString id ≠ "" ∧ (toString id).toList.all Char.isDigit = true := by
  have htext : (toString id).toList = Nat.toDigits 10 id := Nat.toList_repr
  constructor
  · intro hempty
    rw [hempty] at htext
    have hlen := congrArg List.length htext
    have hpos : 0 < (Nat.toDigits 10 id).length := Nat.length_toDigits_pos
    rw [← hlen] at hpos
    exact absurd hpos (by decide)
  · rw [htext, List.all_eq_true]
    exact fun c hc => Nat.isDigit_of_mem_toDigits (by decide) (by decide) hc

def repoArtifactPath (id : RepoId) : String := joinSlash (repoDbPath id)

theorem repoArtifactPath_eq (id : RepoId) :
    repoArtifactPath id = "repos/" ++ (toString id ++ ".db") := by
  apply String.toList_injective
  rw [repoArtifactPath, joinSlash]
  simp [repoDbPath, reposDir, String.toList_append]

theorem repoArtifactName_repo (id : RepoId) :
    repoArtifactName (repoArtifactPath id) = some (toString id) := by
  rw [repoArtifactPath_eq, repoArtifactName_text]

theorem head_repoArtifactPath (id : RepoId) :
    (repoArtifactPath id).toList.head? = some 'r' := repoArtifact_head (repoArtifactName_repo id)

theorem validArtifactPath_repo (id : RepoId) : validArtifactPath (repoArtifactPath id) = true := by
  have hhead := head_repoArtifactPath id
  have hne : ¬(repoArtifactPath id = sqliteDump ∨ repoArtifactPath id = pgDump) := by
    rintro (heq | heq) <;> rw [heq] at hhead <;> exact absurd hhead (by decide)
  obtain ⟨hempty, hdigits⟩ := digits_repoId id
  unfold validArtifactPath
  rw [if_neg hne, repoArtifactPath_eq, stripPre_append]
  simp only [stripSuf_append, hempty, hdigits, ne_eq, not_false_eq_true, decide_true,
    Bool.and_self]

theorem components_repoArtifactPath (id : RepoId) :
    components (repoArtifactPath id) = repoDbPath id := by
  obtain ⟨-, hdigits⟩ := digits_repoId id
  refine components_join (List.cons_ne_nil _ _) fun c hc => ?_
  rcases List.mem_cons.mp hc with rfl | hc
  · decide
  · rw [List.mem_singleton.mp hc, String.toList_append]
    intro hmem
    rcases List.mem_append.mp hmem with hmem | hmem
    · exact absurd (List.all_eq_true.mp hdigits '/' hmem) (by decide)
    · exact absurd hmem (by decide)

theorem trimStartMatches_of_none {pre s : String} (h : stripPre pre s = none) (fuel : ℕ) :
    trimStartMatches pre fuel s = s := by
  cases fuel with
  | zero => rfl
  | succ fuel => rw [trimStartMatches, h]

/-- The id an object's artifact spells is its own. -/
theorem artifactHex_object {hex : String} (h : isHexId hex = true) :
    artifactHex (objectArtifactPath hex) = hex := by
  have hslash := isHexId_noSlash h
  obtain ⟨hlen, hall⟩ := Bool.and_eq_true_iff.mp h
  have hrest : (joinSlash (shardPath hex)).toList = hex.toList.take 2 ++
      ('/' :: ((hex.toList.drop 2).take 2 ++ ('/' :: hex.toList.drop 4))) := by
    simp [joinSlash, shardPath]
  have hnone : stripPre "objects/" (joinSlash (shardPath hex)) = none := by
    refine stripPre_eq_none ?_ (by decide)
    rw [hrest]
    cases hhex : hex.toList with
    | nil =>
        rw [hhex] at hlen
        exact absurd hlen (by decide)
    | cons c cs =>
        have hc : isHexLower c = true := List.all_eq_true.mp hall c (by rw [hhex]; exact List.mem_cons_self)
        intro heq
        have hco : c = 'o' := (Option.some.inj heq).symm
        rw [hco] at hc
        exact absurd hc (by decide)
  have htrim : trimStartMatches "objects/" (objectArtifactPath hex).toList.length
      (objectArtifactPath hex) = joinSlash (shardPath hex) := by
    cases hfuel : (objectArtifactPath hex).toList.length with
    | zero =>
        have hhead := head_objectArtifactPath hex
        rw [List.length_eq_zero_iff.mp hfuel] at hhead
        cases hhead
    | succ fuel =>
        rw [trimStartMatches, objectArtifactPath_eq, stripPre_append]
        exact trimStartMatches_of_none hnone fuel
  have hkeep : ∀ l : List Char, (∀ c ∈ l, c ∈ hex.toList) →
      l.filter (fun c => decide (c ≠ '/')) = l := by
    intro l hl
    rw [List.filter_eq_self]
    intro c hc
    rw [decide_eq_true_eq]
    rintro rfl
    exact hslash (hl _ hc)
  apply String.toList_injective
  rw [artifactHex, htrim, String.toList_ofList, hrest, List.filter_append, List.filter_cons,
    List.filter_append, List.filter_cons]
  simp only [ne_eq, not_true_eq_false, decide_false, Bool.false_eq_true, if_false]
  rw [hkeep _ fun c hc => List.mem_of_mem_take hc,
    hkeep _ fun c hc => List.mem_of_mem_drop (List.mem_of_mem_take hc),
    hkeep _ fun c hc => List.mem_of_mem_drop hc]
  have hdrop : hex.toList.drop 4 = (hex.toList.drop 2).drop 2 := by rw [List.drop_drop]
  rw [hdrop, List.take_append_drop, List.take_append_drop]

/-! ### Migrations -/

namespace Database

theorem metaGet_setVersion (db : Database Id) (version : ℕ) :
    (db.setVersion version).metaGet schemaVersion = some (toString version) := by
  let rows : List (String × String) := db .metaRows
  have hrows : (db.setVersion version) .metaRows =
      (rows.filter (fun row => row.1 ≠ schemaVersion) ++ [(schemaVersion, toString version)]) :=
    Function.update_self (β := fun table : Table => List (table.Row Id)) Table.metaRows _ _
  have hnone : List.lookup schemaVersion (rows.filter (fun row => row.1 ≠ schemaVersion)) =
      none := by
    rw [List.lookup_eq_none_iff]
    intro row hrow
    have hne : row.1 ≠ schemaVersion := of_decide_eq_true (List.mem_filter.mp hrow).2
    exact bne_iff_ne.mpr hne.symm
  unfold metaGet
  rw [hrows]
  show List.lookup schemaVersion (rows.filter _ ++ _) = _
  rw [List.lookup_append, hnone, List.lookup_cons, beq_self_eq_true]
  rfl

section

variable {sql : ℕ → Database Id → Database Id} {supported : ℕ}

theorem applyFrom_of_le {current : ℤ} (h : (supported : ℤ) ≤ current) (db : Database Id) :
    db.applyFrom sql supported current = db := by
  have hnone : (List.range' 1 supported).filter (fun v => decide (current < Int.ofNat v)) = [] := by
    rw [List.filter_eq_nil_iff]
    intro v hv
    have hle : v < 1 + supported := (List.mem_range'_1.mp hv).2
    simp only [decide_eq_true_eq, not_lt, Int.ofNat_eq_natCast]
    omega
  unfold applyFrom
  rw [hnone]
  rfl

/-- A list that has something to do ends at its last version. -/
theorem applyFrom_of_lt {current : ℤ} (h : current < (supported : ℤ)) (hpos : 0 < supported)
    (db : Database Id) :
    (db.applyFrom sql supported current).metaGet schemaVersion = some (toString supported) := by
  obtain ⟨n, rfl⟩ := Nat.exists_eq_succ_of_ne_zero hpos.ne'
  have hlast : decide (current < Int.ofNat (1 + n)) = true := by
    rw [decide_eq_true_eq, Int.ofNat_eq_natCast]
    push_cast at h ⊢
    omega
  unfold applyFrom
  rw [List.range'_1_concat, List.filter_append, List.filter_cons, if_pos hlast, List.filter_nil,
    List.foldl_append, List.foldl_cons, List.foldl_nil, metaGet_setVersion, Nat.add_comm]

/-- A migrated database is at the version its list reaches. -/
theorem migrateTo_version (hpos : 0 < supported)
    (hparse : parseI64 (toString supported) = some (supported : ℤ)) {db db' : Database Id}
    (h : db.migrateTo sql supported = .ok db') :
    ∃ text, db'.metaGet schemaVersion = some text ∧ parseI64 text = some (supported : ℤ) := by
  unfold migrateTo at h
  split at h
  next hnone =>
    cases h
    exact ⟨_, applyFrom_of_lt (by exact_mod_cast hpos) hpos db, hparse⟩
  next text htext =>
    split at h
    next => cases h
    next current hcurrent =>
      split_ifs at h with hlt
      cases h
      rcases (not_lt.mp hlt).lt_or_eq with hbelow | heq
      · exact ⟨_, applyFrom_of_lt hbelow hpos db, hparse⟩
      · rw [applyFrom_of_le heq.ge]
        exact ⟨text, htext, by rw [hcurrent, heq]⟩

/-- Migrating again changes nothing. -/
theorem migrateTo_idempotent (hpos : 0 < supported)
    (hparse : parseI64 (toString supported) = some (supported : ℤ)) {db db' : Database Id}
    (h : db.migrateTo sql supported = .ok db') : db'.migrateTo sql supported = .ok db' := by
  obtain ⟨text, htext, hversion⟩ := migrateTo_version hpos hparse h
  unfold migrateTo
  simp only [htext, hversion, lt_irrefl, if_false]
  rw [applyFrom_of_le le_rfl]

end

end Database

/-! ### What a backup holds -/

section

variable {data dest : Disk File}

theorem repoDbPath_injective : Function.Injective repoDbPath := fun id id' h => by
  have hname := congrArg repoArtifactName (congrArg joinSlash h)
  have htext : toString id = toString id' := Option.some.inj
    ((repoArtifactName_repo id).symm.trans (hname.trans (repoArtifactName_repo id')))
  have hdigits : Nat.toDigits 10 id = Nat.toDigits 10 id' := by
    rw [← Nat.toList_repr, ← Nat.toList_repr]
    exact congrArg String.toList htext
  rw [← @Nat.ofDigitChars_ten_toDigits id, hdigits, Nat.ofDigitChars_ten_toDigits]

theorem dumpRepos_ok {ids : List RepoId} {dest' : Disk File}
    (h : dumpRepos tools data ids dest = .ok dest') :
    (∀ id ∈ ids, ∃ rows, readRepoDb tools data id = some rows ∧
      dest'.get (repoDbPath id) = some (tools.vacuum rows)) ∧
    Disk.PutAt (fun p => ∃ id ∈ ids, repoDbPath id = p) dest dest' := by
  induction ids generalizing dest with
  | nil =>
      cases h
      exact ⟨fun id hid => absurd hid List.not_mem_nil, .refl _⟩
  | cons id ids ih =>
      rw [dumpRepos] at h
      split at h
      next => cases h
      next rows hrows =>
        obtain ⟨hget, hput⟩ := ih h
        refine ⟨fun id' hid' => ?_, ?_⟩
        · by_cases hmem : id' ∈ ids
          · exact hget id' hmem
          · have hid' : id' = id := (List.mem_cons.mp hid').resolve_right hmem
            subst hid'
            refine ⟨rows, hrows, ?_⟩
            rw [hput.frame, Disk.get_put_self]
            rintro ⟨other, hother, heq⟩
            exact hmem (repoDbPath_injective heq ▸ hother)
        · exact (Disk.PutAt.put ⟨id, List.mem_cons_self, rfl⟩ _ _).trans
            (hput.mono fun p ⟨other, hother, heq⟩ => ⟨other, List.mem_cons_of_mem _ hother, heq⟩)

def objectPath (hex : String) : List String := objectsDir :: shardPath hex

theorem objectPath_injective : Function.Injective objectPath := fun _ _ h =>
  shardPath_injective (List.cons.inj h).2

/-- The copy of objects that leaves none out. -/
theorem copyOut_ok {ids missing missing' : List String} {artifacts artifacts' : List ArtifactChecksum}
    {dest' : Disk File}
    (h : copyOut tools data ids (dest, artifacts, missing) = .ok (dest', artifacts', missing'))
    (hmissing : missing' = []) :
    missing = [] ∧
    (∀ hex ∈ ids, ∃ file, data.get (objectPath hex) = some file ∧
      dest'.get (objectPath hex) = some file) ∧
    (∀ a, a ∈ artifacts' ↔ a ∈ artifacts ∨ ∃ hex ∈ ids, ∃ file, data.get (objectPath hex) = some file ∧
      a = ⟨objectArtifactPath hex, tools.sha256 file⟩) ∧
    Disk.PutAt (fun p => ∃ hex ∈ ids, objectPath hex = p) dest dest' := by
  induction ids generalizing dest artifacts missing with
  | nil =>
      cases h
      exact ⟨hmissing, fun hex hhex => absurd hhex List.not_mem_nil, fun a => by simp, .refl _⟩
  | cons hex ids ih =>
      simp only [copyOut] at h
      split at h
      next file hfile =>
        obtain ⟨hnone, hget, hmem, hput⟩ := ih h
        refine ⟨hnone, fun hex' hhex' => ?_, fun a => ?_, ?_⟩
        · by_cases hin : hex' ∈ ids
          · exact hget hex' hin
          · have heq : hex' = hex := (List.mem_cons.mp hhex').resolve_right hin
            subst heq
            refine ⟨file, hfile, ?_⟩
            rw [hput.frame]
            · exact Disk.get_put_self _ _ _
            · rintro ⟨other, hother, heq⟩
              exact hin (objectPath_injective heq ▸ hother)
        · rw [hmem, List.mem_append, List.mem_singleton, or_assoc]
          refine or_congr_right ⟨?_, ?_⟩
          · rintro (rfl | ⟨other, hother, hfound⟩)
            · exact ⟨hex, List.mem_cons_self, file, hfile, rfl⟩
            · exact ⟨other, List.mem_cons_of_mem _ hother, hfound⟩
          · rintro ⟨other, hother, file', hfile', rfl⟩
            rcases List.mem_cons.mp hother with rfl | hother
            · rw [objectPath, hfile] at hfile'
              cases hfile'
              exact .inl rfl
            · exact .inr ⟨other, hother, file', hfile', rfl⟩
        · exact (Disk.PutAt.put ⟨hex, List.mem_cons_self, rfl⟩ _ file).trans
            (hput.mono fun p ⟨other, hother, heq⟩ => ⟨other, List.mem_cons_of_mem _ hother, heq⟩)
      next hfile =>
        split_ifs at h
        obtain ⟨hnone, -⟩ := ih h
        simp at hnone

theorem mem_sortText {l : List String} {s : String} : s ∈ sortText l ↔ s ∈ l :=
  (List.perm_insertionSort _ l).mem_iff

theorem isHexId_of_mem_casIds {hex : String} (h : hex ∈ casIds data) : isHexId hex = true :=
  (List.mem_filter.mp (mem_sortText.mp h)).2

/-- Every object file of the store is listed. -/
theorem mem_casIds {hex : String} (hvalid : isHexId hex = true) {file : File}
    (h : data.get (objectPath hex) = some file) : hex ∈ casIds data := by
  obtain ⟨e, he, hpath⟩ := List.mem_map.mp (Disk.mem_keys_of_get h)
  refine mem_sortText.mpr (List.mem_filter.mpr ⟨List.mem_map.mpr
    ⟨(String.ofList (hex.toList.take 2), String.ofList ((hex.toList.drop 2).take 2),
      String.ofList (hex.toList.drop 4)), ?_, ?_⟩, hvalid⟩)
  · rw [List.mem_dedup, List.mem_filterMap]
    refine ⟨e, he, ?_⟩
    rw [hpath]
    rfl
  · have hjoin := join_shardPath hex
    simp only [shardPath, List.foldr_cons, List.foldr_nil] at hjoin
    conv_rhs => rw [← hjoin]
    apply String.toList_injective
    simp [String.toList_append]

/-- The files of repositories in the destination, and the paths of their
artifacts. -/
theorem mem_repoArtifacts {ids : List RepoId}
    (honly : ∀ name, [reposDir, name] ∈ dest.map Prod.fst → ∃ id ∈ ids, repoDbPath id = [reposDir, name])
    (a : ArtifactChecksum) :
    a ∈ repoArtifacts tools dest ↔ ∃ id ∈ ids, ∃ file, dest.get (repoDbPath id) = some file ∧
      a = ⟨repoArtifactPath id, tools.sha256 file⟩ := by
  rw [repoArtifacts, List.mem_filterMap]
  constructor
  · rintro ⟨name, hname, ha⟩
    obtain ⟨hname, -⟩ := List.mem_filter.mp (mem_sortText.mp hname)
    obtain ⟨e, he, hpath⟩ := List.mem_filterMap.mp hname
    obtain ⟨file, hfile, rfl⟩ := Option.map_eq_some_iff.mp ha
    obtain ⟨id, hid, heq⟩ := honly name (Disk.mem_keys_of_get hfile)
    refine ⟨id, hid, file, heq ▸ hfile, ?_⟩
    rw [repoArtifactPath, heq]
  · rintro ⟨id, hid, file, hfile, rfl⟩
    obtain ⟨e, he, hpath⟩ := List.mem_map.mp (Disk.mem_keys_of_get hfile)
    refine ⟨toString id ++ ".db", mem_sortText.mpr (List.mem_filter.mpr ⟨?_, ?_⟩), ?_⟩
    · refine List.mem_filterMap.mpr ⟨e, he, ?_⟩
      rw [hpath]
      rfl
    · rw [stripSuf_append]
      rfl
    · exact Option.map_eq_some_iff.mpr ⟨file, hfile, rfl⟩

theorem joinSlash_pair (dir name : String) : joinSlash [dir, name] = dir ++ ("/" ++ name) := by
  apply String.toList_injective
  simp [joinSlash]

/-- No path comes twice among the artifacts of repositories. -/
theorem nodup_repoArtifacts (hdest : (dest.map Prod.fst).Nodup) :
    ((repoArtifacts tools dest).map fun a => a.path).Nodup := by
  rw [repoArtifacts, List.map_filterMap]
  have hpath : ∀ name name' path,
      path ∈ (((dest.get [reposDir, name]).map fun file =>
        (⟨joinSlash [reposDir, name], tools.sha256 file⟩ : ArtifactChecksum)).map fun a => a.path) →
      path ∈ (((dest.get [reposDir, name']).map fun file =>
        (⟨joinSlash [reposDir, name'], tools.sha256 file⟩ : ArtifactChecksum)).map fun a => a.path) →
      name = name' := by
    intro name name' path h h'
    obtain ⟨a, ha, rfl⟩ := Option.map_eq_some_iff.mp h
    obtain ⟨file, -, rfl⟩ := Option.map_eq_some_iff.mp ha
    obtain ⟨a', ha', heq⟩ := Option.map_eq_some_iff.mp h'
    obtain ⟨file', -, rfl⟩ := Option.map_eq_some_iff.mp ha'
    have heq : joinSlash [reposDir, name'] = joinSlash [reposDir, name] := heq
    rw [joinSlash_pair, joinSlash_pair] at heq
    have hlist := congrArg String.toList heq
    simp only [String.toList_append] at hlist
    exact (String.toList_injective (List.append_cancel_left (List.append_cancel_left hlist))).symm
  refine List.Nodup.filterMap hpath ?_
  refine ((List.perm_insertionSort _ _).nodup_iff).mpr (List.Nodup.filter _ ?_)
  refine Lib.nodup_picked hdest (fun name => [reposDir, name]) fun e name h => ?_
  split at h
  next dir name' hkey =>
    split at h
    next hdir =>
      cases h
      rw [hkey, hdir]
    next => cases h
  next => cases h

end

/-! ### A backup that completes -/

/-- The rows of a SQLite store once it is open. -/
def openStore (tools : BackupTools Id File) (layout : Layout) (data : Disk File) :
    Except StoreError (Database Id) :=
  match data.get (primaryPath layout) with
  | none => .error .db
  | some file => tools.openPrimary layout file (data.get (walOf (primaryPath layout)))

theorem mapError_eq_ok {α ε ε' : Type} {f : ε → ε'} {x : Except ε α} {a : α}
    (h : x.mapError f = .ok a) : x = .ok a := by
  cases x with
  | error e => cases h
  | ok b =>
      cases h
      rfl

section

variable {data dest : Disk File} {destTaken : Option Bool} {session : BackupSession File}
  {report : BackupReport}

theorem backupBegin_ok (hsqlite : cfg.metaKind = .sqlite) (hfs : cfg.blob = .fs)
    (h : backupBegin tools world cfg data destTaken = .ok session) :
    ∃ db changesets, openStore tools cfg.layout data = .ok db ∧
      dumpStore tools cfg data db = .ok (session.dest, changesets) ∧
      session.ids = casIds data := by
  simp only [backupBegin, Lib.bind_eq_ok, hsqlite, hfs, reduceCtorEq, if_false] at h
  obtain ⟨-, -, h⟩ := h
  split at h
  next => cases h
  next =>
    cases destTaken with
    | some taken => cases taken <;> cases h
    | none =>
        obtain ⟨-, -, h⟩ := Lib.bind_eq_ok.mp h
        obtain ⟨ids, hids, h⟩ := Lib.bind_eq_ok.mp h
        cases hids
        split at h
        next => cases h
        next file hfile =>
          obtain ⟨db, hopen, h⟩ := Lib.bind_eq_ok.mp h
          obtain ⟨⟨dumped, changesets⟩, hdump, h⟩ := Lib.bind_eq_ok.mp h
          cases h
          refine ⟨db, changesets, ?_, hdump, rfl⟩
          rw [openStore, hfile]
          exact mapError_eq_ok hopen

/-- The paths of the database files in a backup. -/
def DumpPaths (cfg : BackendConfig) (db : Database Id) (p : List String) : Prop :=
  p = [sqliteDump] ∨ cfg.layout = .dbPerRepo ∧ ∃ id ∈ registryIds db, repoDbPath id = p

theorem dumpStore_ok {db : Database Id} {changesets : ℕ}
    (h : dumpStore tools cfg data db = .ok (dest, changesets)) :
    dest.get [sqliteDump] = some (tools.vacuum db) ∧
    (cfg.layout = .dbPerRepo → ∀ id ∈ registryIds db, ∃ rows,
      readRepoDb tools data id = some rows ∧
        dest.get (repoDbPath id) = some (tools.vacuum rows)) ∧
    Disk.PutAt (DumpPaths cfg db) [] dest := by
  have hdump : Disk.PutAt (DumpPaths cfg db) ([] : Disk File)
      (Disk.put [] [sqliteDump] (tools.vacuum db)) := Disk.PutAt.put (.inl rfl) _ _
  unfold dumpStore at h
  dsimp only at h
  split at h
  next hlayout =>
    cases h
    exact ⟨Disk.get_put_self _ _ _, fun hsplit => absurd (hsplit.symm.trans hlayout) (by decide), hdump⟩
  next hlayout =>
    obtain ⟨total, -, h⟩ := Lib.bind_eq_ok.mp h
    obtain ⟨dumped, hrepos, h⟩ := Lib.bind_eq_ok.mp h
    cases h
    obtain ⟨hget, hput⟩ := dumpRepos_ok hrepos
    refine ⟨?_, fun _ => hget, hdump.trans (hput.mono fun p hp => .inr ⟨hlayout, hp⟩)⟩
    rw [hput.frame, Disk.get_put_self]
    rintro ⟨id, -, heq⟩
    exact absurd (List.cons.inj heq).1 (by decide)

/-- What the artifacts of a backup are for: the first file, the objects and the
repositories' files. -/
def ArtifactOf (cfg : BackendConfig) (data : Disk File) (db : Database Id) (path : String) : Prop :=
  (∃ hex ∈ casIds data, path = objectArtifactPath hex) ∨ path = sqliteDump ∨
    cfg.layout = .dbPerRepo ∧ ∃ id ∈ registryIds db, path = repoArtifactPath id

/-- A complete backup. -/
structure BackupHolds (tools : BackupTools Id File) (cfg : BackendConfig) (data : Disk File)
    (db : Database Id) (dest : Disk File) (manifest : BackupManifest) : Prop where
  stored : dest.get [manifestFile] = some (tools.toJson manifest)
  format : manifest.format = manifestFormat
  combo : manifest.metaText = cfg.metaKind.text ∧ manifest.blobText = cfg.blob.text
  dump : dest.get [sqliteDump] = some (tools.vacuum db)
  repos : cfg.layout = .dbPerRepo → ∀ id ∈ registryIds db, ∃ rows,
    readRepoDb tools data id = some rows ∧ dest.get (repoDbPath id) = some (tools.vacuum rows)
  objects : ∀ hex ∈ casIds data, dest.get (objectPath hex) = data.get (objectPath hex)
  listed : ∀ hex, hex ∈ manifest.objects ↔ hex ∈ casIds data
  sums : ∀ a ∈ manifest.artifacts, ∃ file, dest.get (components a.path) = some file ∧
    tools.sha256 file = a.sha256
  artifacts : ∀ path, path ∈ (manifest.artifacts.map fun a => a.path) ↔
    ArtifactOf cfg data db path
  nodup : (repoPaths manifest.artifacts).Nodup

theorem repoPaths_perm {artifacts artifacts' : List ArtifactChecksum}
    (h : artifacts.Perm artifacts') : (repoPaths artifacts).Perm (repoPaths artifacts') :=
  (h.map _).filter _

theorem repoPaths_append (artifacts artifacts' : List ArtifactChecksum) :
    repoPaths (artifacts ++ artifacts') = repoPaths artifacts ++ repoPaths artifacts' := by
  simp [repoPaths]

theorem components_dump : components sqliteDump = [sqliteDump] := by decide

theorem components_object {hex : String} (h : isHexId hex = true) :
    components (objectArtifactPath hex) = objectPath hex := components_objectArtifactPath h

/-- The artifacts of a copy: one for each object, the dump's, and one for each
repository. -/
theorem mem_backupArtifacts {db : Database Id} {copied : Disk File} {objects : List ArtifactChecksum}
    {dump : File}
    (hmem : ∀ a, a ∈ objects ↔ ∃ hex ∈ casIds data, ∃ file, data.get (objectPath hex) = some file ∧
      a = ⟨objectArtifactPath hex, tools.sha256 file⟩)
    (honly : ∀ name, [reposDir, name] ∈ copied.map Prod.fst →
      ∃ id ∈ registryIds db, repoDbPath id = [reposDir, name]) (a : ArtifactChecksum) :
    a ∈ sortArtifacts (objects ++ [⟨sqliteDump, tools.sha256 dump⟩] ++
        if cfg.layout = .dbPerRepo then repoArtifacts tools copied else []) ↔
      (∃ hex ∈ casIds data, ∃ file, data.get (objectPath hex) = some file ∧
        a = ⟨objectArtifactPath hex, tools.sha256 file⟩) ∨
      a = ⟨sqliteDump, tools.sha256 dump⟩ ∨
      cfg.layout = .dbPerRepo ∧ ∃ id ∈ registryIds db, ∃ file,
        copied.get (repoDbPath id) = some file ∧ a = ⟨repoArtifactPath id, tools.sha256 file⟩ := by
  rw [sortArtifacts, (List.perm_insertionSort _ _).mem_iff, List.mem_append, List.mem_append,
    List.mem_singleton, hmem, or_assoc]
  refine or_congr_right (or_congr_right ?_)
  split
  next hlayout => rw [mem_repoArtifacts honly, and_iff_right hlayout]
  next hlayout => simp [hlayout]

theorem nodup_backupArtifacts {copied : Disk File} {objects : List ArtifactChecksum} {dump : File}
    (hobjects : ∀ a ∈ objects, ∃ hex, a.path = objectArtifactPath hex)
    (hcopied : (copied.map Prod.fst).Nodup) :
    (repoPaths (sortArtifacts (objects ++ [⟨sqliteDump, tools.sha256 dump⟩] ++
      if cfg.layout = .dbPerRepo then repoArtifacts tools copied else []))).Nodup := by
  refine (repoPaths_perm (List.perm_insertionSort _ _)).nodup_iff.mpr ?_
  have hnone : repoPaths objects = [] := by
    refine List.filter_eq_nil_iff.mpr fun path hpath => ?_
    obtain ⟨a, ha, rfl⟩ := List.mem_map.mp hpath
    obtain ⟨hex, heq⟩ := hobjects a ha
    rw [heq, repoArtifactName_object]
    exact Bool.false_ne_true
  have hfirst : repoPaths [⟨sqliteDump, tools.sha256 dump⟩] = [] := by
    simp only [repoPaths, List.map_cons, List.map_nil]
    decide
  rw [repoPaths_append, repoPaths_append, hnone, hfirst, List.nil_append, List.nil_append]
  refine List.Nodup.filter _ ?_
  split
  next => exact nodup_repoArtifacts hcopied
  next => exact List.nodup_nil

/-- The ids the manifest carries are read back from the artifacts' paths. -/
theorem carried_iff {db : Database Id} {artifacts : List ArtifactChecksum}
    (hartifacts : ∀ path, path ∈ (artifacts.map fun a => a.path) ↔ ArtifactOf cfg data db path)
    (hex : String) :
    hex ∈ (artifacts.filter fun a => (stripPre "objects/" a.path).isSome).map
      (fun a => artifactHex a.path) ↔ hex ∈ casIds data := by
  rw [List.mem_map]
  constructor
  · rintro ⟨a, ha, rfl⟩
    obtain ⟨ha, hobj⟩ := List.mem_filter.mp ha
    rcases (hartifacts a.path).mp (List.mem_map_of_mem ha) with
      ⟨hex, hhex, heq⟩ | heq | ⟨-, id, -, heq⟩
    · rw [heq, artifactHex_object (isHexId_of_mem_casIds hhex)]
      exact hhex
    · rw [heq] at hobj
      exact absurd hobj (by decide)
    · have hnone : stripPre "objects/" (repoArtifactPath id) = none :=
        stripPre_eq_none (by rw [head_repoArtifactPath]; decide) (by decide)
      rw [heq, hnone] at hobj
      cases hobj
  · intro hhex
    obtain ⟨a, ha, heq⟩ := List.mem_map.mp ((hartifacts _).mpr (.inl ⟨hex, hhex, rfl⟩))
    refine ⟨a, List.mem_filter.mpr ⟨ha, ?_⟩, ?_⟩
    · rw [heq, objectArtifactPath_eq, stripPre_append]
      rfl
    · rw [heq, artifactHex_object (isHexId_of_mem_casIds hhex)]

theorem manifest_ne_repo (id : RepoId) : repoDbPath id ≠ [manifestFile] := by
  simp [repoDbPath]

theorem manifest_ne_object (hex : String) : objectPath hex ≠ [manifestFile] := by
  simp [objectPath, shardPath]

theorem backupFinish_ok {db : Database Id} {changesets : ℕ} (hsqlite : cfg.metaKind = .sqlite)
    (hfs : cfg.blob = .fs) (hdump : dumpStore tools cfg data db = .ok (session.dest, changesets))
    (hids : session.ids = casIds data)
    (h : backupFinish tools world cfg data session = .ok (dest, report))
    (hmissing : report.missing = []) :
    ∃ manifest, BackupHolds tools cfg data db dest manifest := by
  obtain ⟨hprimary, hrepos, hput⟩ := dumpStore_ok hdump
  simp only [backupFinish, hfs, hsqlite, hids] at h
  obtain ⟨⟨copied, objects, missing⟩, hcopy, h⟩ := Lib.bind_eq_ok.mp h
  dsimp only at h
  split at h
  next => cases h
  next dump hfound =>
    cases h
    obtain ⟨-, hobjects, hmem, hobjput⟩ := copyOut_ok hcopy hmissing
    simp only [List.not_mem_nil, false_or] at hmem
    -- the objects leave the dumps as they are
    have hkept : ∀ p, p.head? ≠ some objectsDir → copied.get p = session.dest.get p := by
      intro p hp
      refine hobjput.frame p ?_
      rintro ⟨hex, -, rfl⟩
      exact hp rfl
    have honly : ∀ name, [reposDir, name] ∈ copied.map Prod.fst →
        ∃ id ∈ registryIds db, repoDbPath id = [reposDir, name] := by
      intro name hname
      rcases hobjput.keys _ hname with hname | ⟨hex, -, heq⟩
      · rcases hput.keys _ hname with hname | heq | ⟨-, hid⟩
        · exact absurd hname List.not_mem_nil
        · exact absurd (List.cons.inj heq).1 (by decide)
        · exact hid
      · exact absurd (List.cons.inj heq).1 (by decide)
    have hcopiedRepos : cfg.layout = .dbPerRepo → ∀ id ∈ registryIds db, ∃ rows,
        readRepoDb tools data id = some rows ∧
          copied.get (repoDbPath id) = some (tools.vacuum rows) := by
      intro hlayout id hid
      rw [hkept _ (by simp [repoDbPath, reposDir, objectsDir])]
      exact hrepos hlayout id hid
    have hall := fun a => @mem_backupArtifacts _ _ _ tools cfg data db copied objects dump hmem honly a
    have hnodup := @nodup_backupArtifacts _ _ _ tools cfg copied objects dump
      (fun a ha => by
        obtain ⟨hex, -, file, -, rfl⟩ := (hmem a).mp ha
        exact ⟨hex, rfl⟩)
      (hobjput.nodup (hput.nodup List.nodup_nil))
    generalize sortArtifacts (objects ++ [⟨sqliteDump, tools.sha256 dump⟩] ++
      if cfg.layout = .dbPerRepo then repoArtifacts tools copied else []) = artifacts at hall hnodup
    have hpaths : ∀ path, path ∈ (artifacts.map fun a => a.path) ↔ ArtifactOf cfg data db path := by
      intro path
      rw [List.mem_map]
      constructor
      · rintro ⟨a, ha, rfl⟩
        rcases (hall a).mp ha with ⟨hex, hhex, file, -, rfl⟩ | rfl | ⟨hlayout, id, hid, file, -, rfl⟩
        · exact .inl ⟨hex, hhex, rfl⟩
        · exact .inr (.inl rfl)
        · exact .inr (.inr ⟨hlayout, id, hid, rfl⟩)
      · rintro (⟨hex, hhex, rfl⟩ | rfl | ⟨hlayout, id, hid, rfl⟩)
        · obtain ⟨file, hfile, -⟩ := hobjects hex hhex
          exact ⟨_, (hall _).mpr (.inl ⟨hex, hhex, file, hfile, rfl⟩), rfl⟩
        · exact ⟨_, (hall _).mpr (.inr (.inl rfl)), rfl⟩
        · obtain ⟨rows, -, hget⟩ := hcopiedRepos hlayout id hid
          exact ⟨_, (hall _).mpr (.inr (.inr ⟨hlayout, id, hid, _, hget, rfl⟩)), rfl⟩
    refine ⟨_, Disk.get_put_self _ _ _, rfl,
      ⟨congrArg MetaKind.text hsqlite.symm, congrArg BlobKind.text hfs.symm⟩, ?_, fun hlayout id hid => ?_,
      fun hex hhex => ?_, carried_iff hpaths, fun a ha => ?_, hpaths, hnodup⟩
    · rw [Disk.get_put_of_ne _ _ (by decide), hkept _ (by decide), hprimary]
    · rw [Disk.get_put_of_ne _ _ (manifest_ne_repo id)]
      exact hcopiedRepos hlayout id hid
    · obtain ⟨file, hfile, hget⟩ := hobjects hex hhex
      rw [Disk.get_put_of_ne _ _ (manifest_ne_object hex), hget, hfile]
    · rcases (hall a).mp ha with ⟨hex, hhex, file, hfile, rfl⟩ | rfl | ⟨-, id, -, file, hfile, rfl⟩
      · refine ⟨file, ?_, rfl⟩
        obtain ⟨file', hfile', hget⟩ := hobjects hex hhex
        rw [hfile] at hfile'
        cases hfile'
        rw [components_object (isHexId_of_mem_casIds hhex),
          Disk.get_put_of_ne _ _ (manifest_ne_object hex), hget]
      · refine ⟨dump, ?_, rfl⟩
        rw [components_dump, Disk.get_put_of_ne _ _ (by decide), hfound]
      · refine ⟨file, ?_, rfl⟩
        rw [components_repoArtifactPath, Disk.get_put_of_ne _ _ (manifest_ne_repo id), hfile]

end

/-! ### The restore of a backup -/

theorem parseI64_maxSupported : parseI64 (toString maxSupported) = some (maxSupported : ℤ) := by
  decide

theorem parseI64_catalogMaxSupported :
    parseI64 (toString catalogMaxSupported) = some (catalogMaxSupported : ℤ) := by
  decide

/-- The snapshot of an open store opens again as it was, at a supported version. -/
theorem openPrimary_vacuum {layout : Layout} {file : File} {log : Option File} {db : Database Id}
    (h : tools.openPrimary layout file log = .ok db) :
    tools.openPrimary layout (tools.vacuum db) none = .ok db ∧ ∃ text v,
      db.metaGet Database.schemaVersion = some text ∧ parseI64 text = some v ∧
        v ≤ (maxSupported : ℤ) := by
  unfold BackupTools.openPrimary at h ⊢
  rw [tools.read_vacuum]
  split at h
  next => cases h
  next rows hrows =>
    cases layout with
    | singleDb =>
        obtain ⟨text, htext, hversion⟩ :=
          Database.migrateTo_version (by decide) parseI64_maxSupported h
        exact ⟨Database.migrateTo_idempotent (by decide) parseI64_maxSupported h,
          text, _, htext, hversion, le_rfl⟩
    | dbPerRepo =>
        dsimp only at h ⊢
        split at h
        next => cases h
        next catalog hcatalog =>
          split_ifs at h with hadopted
          cases h
          obtain ⟨text, htext, hversion⟩ :=
            Database.migrateTo_version (by decide) parseI64_catalogMaxSupported hcatalog
          have hagain : tools.migrateCatalog db = .ok db :=
            Database.migrateTo_idempotent (by decide) parseI64_catalogMaxSupported hcatalog
          refine ⟨?_, text, _, htext, hversion, by decide⟩
          simp only [hagain, hadopted, if_true]

theorem openStore_vacuum {layout : Layout} {data : Disk File} {db : Database Id}
    (h : openStore tools layout data = .ok db) :
    tools.openPrimary layout (tools.vacuum db) none = .ok db ∧ ∃ text v,
      db.metaGet Database.schemaVersion = some text ∧ parseI64 text = some v ∧
        v ≤ (maxSupported : ℤ) := by
  unfold openStore at h
  split at h
  next => cases h
  next file hfile => exact openPrimary_vacuum h

section

variable {data dest : Disk File} {db : Database Id} {manifest : BackupManifest}

theorem ArtifactOf.valid {path : String} (h : ArtifactOf cfg data db path) :
    validArtifactPath path = true := by
  rcases h with ⟨hex, hhex, rfl⟩ | rfl | ⟨-, id, -, rfl⟩
  · exact validArtifactPath_object (isHexId_of_mem_casIds hhex)
  · exact validArtifactPath_dump
  · exact validArtifactPath_repo id

namespace BackupHolds

theorem load (h : BackupHolds tools cfg data db dest manifest) :
    loadManifest tools dest = .ok manifest := by
  have hobjects : (manifest.objects.any fun hex => !isHexId hex) = false := by
    rw [List.any_eq_false]
    intro hex hhex
    rw [isHexId_of_mem_casIds ((h.listed hex).mp hhex)]
    exact Bool.false_ne_true
  have hsums : (manifest.artifacts.any fun a =>
      decide (a.sha256.toList.length ≠ 64) || !a.sha256.toList.all isHexDigit) = false := by
    rw [List.any_eq_false]
    intro a ha
    obtain ⟨file, -, hsum⟩ := h.sums a ha
    obtain ⟨hlen, hall⟩ := tools.sha256_hex file
    rw [← hsum, hall, hlen]
    decide
  have hpaths : ((manifest.artifacts.map fun a => a.path).find? fun p => !validArtifactPath p) =
      none := by
    rw [List.find?_eq_none]
    intro path hpath
    rw [((h.artifacts path).mp hpath).valid]
    exact Bool.false_ne_true
  unfold loadManifest
  simp only [h.stored, tools.fromJson_toJson, h.format, ne_eq, not_true_eq_false, if_false,
    hobjects, Bool.false_eq_true, hsums, hpaths]

/-- The backup looks split where it carries a repository's file. -/
theorem isSplit (h : BackupHolds tools cfg data db dest manifest) :
    backupIsSplit manifest = true ↔ cfg.layout = .dbPerRepo ∧ registryIds db ≠ [] := by
  have hany : backupIsSplit manifest = true ↔
      ∃ path ∈ (manifest.artifacts.map fun a => a.path), (stripPre "repos/" path).isSome = true := by
    rw [backupIsSplit, List.any_eq_true]
    simp
  rw [hany]
  constructor
  · rintro ⟨path, hpath, hrepo⟩
    rcases (h.artifacts path).mp hpath with ⟨hex, -, rfl⟩ | rfl | ⟨hlayout, id, hid, -⟩
    · rw [stripPre_repos_object] at hrepo
      cases hrepo
    · exact absurd hrepo (by decide)
    · exact ⟨hlayout, List.ne_nil_of_mem hid⟩
  · rintro ⟨hlayout, hne⟩
    obtain ⟨id, hid⟩ := List.exists_mem_of_ne_nil _ hne
    refine ⟨repoArtifactPath id, (h.artifacts _).mpr (.inr (.inr ⟨hlayout, id, hid, rfl⟩)), ?_⟩
    rw [repoArtifactPath_eq, stripPre_append]
    rfl

theorem layoutGuard_iff (h : BackupHolds tools cfg data db dest manifest) :
    layoutGuard cfg manifest = .ok () ↔ ¬(cfg.layout = .dbPerRepo ∧ registryIds db = []) := by
  have hsplit := h.isSplit
  unfold layoutGuard
  cases hlayout : cfg.layout with
  | singleDb =>
      have hsingle : backupIsSplit manifest = false := by
        rw [Bool.eq_false_iff]
        intro htrue
        exact absurd (hlayout.symm.trans (hsplit.mp htrue).1) (by decide)
      simp [hsingle]
  | dbPerRepo =>
      cases hany : backupIsSplit manifest with
      | false =>
          have hempty : registryIds db = [] := by
            by_contra hne
            exact absurd (hany.symm.trans (hsplit.mpr ⟨hlayout, hne⟩)) (by decide)
          simp [hempty]
      | true =>
          have hne := (hsplit.mp hany).2
          simp [hne]

/-- A complete backup passes every check of a restore into an empty target but
the one of the layout. -/
theorem accepted (h : BackupHolds tools cfg data db dest manifest)
    (hsqlite : cfg.metaKind = .sqlite) (hfs : cfg.blob = .fs)
    (hopen : openStore tools cfg.layout data = .ok db) {world : BackupWorld File}
    (hunlocked : world.locked = false) (force : Bool) (allowMissing : Option String)
    (hlayout : layoutGuard cfg manifest = .ok ()) :
    ∃ stage, RestoreAccepted tools world cfg [] dest force allowMissing manifest [] stage := by
  obtain ⟨stage, hstaged⟩ := stageArtifacts_of_sums h.sums []
  have hdump : stage.get [sqliteDump] = some (tools.vacuum db) := by
    obtain ⟨a, ha, hpath⟩ := List.mem_map.mp ((h.artifacts sqliteDump).mpr (.inr (.inl rfl)))
    have hget := (stageArtifacts_staged hstaged).get a ha
    rw [hpath, components_dump] at hget
    rw [hget, h.dump]
  refine ⟨stage, h.load, ?_, rfl, ?_, ?_, ?_, ?_, hlayout, hstaged, ?_, hunlocked⟩
  · rw [comboGuard, h.combo.1, h.combo.2, if_neg (by simp)]
  · have hempty : notEmpty cfg ([] : Disk File) = none := by
      simp [notEmpty, Disk.hasEntries, Disk.stands]
    rw [notEmptyGuard, hempty]
  · simp only [postgresGuard, hsqlite]
  · rw [artifactGuard, if_neg]
    rintro ⟨-, hany⟩
    obtain ⟨hex, hhex, hmissing⟩ := List.any_eq_true.mp hany
    obtain ⟨a, ha, hpath⟩ := List.mem_map.mp
      ((h.artifacts _).mpr (.inl ⟨hex, (h.listed hex).mp hhex, rfl⟩))
    rw [Bool.not_eq_true', List.any_eq_false] at hmissing
    exact hmissing a ha (decide_eq_true hpath)
  · simp only [presenceGate, hfs]
  · obtain ⟨-, text, v, htext, hparse, hle⟩ := openStore_vacuum hopen
    have hversion : stagedSqliteVersion tools (stage.get [sqliteDump]) = .ok v := by
      simp only [stagedSqliteVersion, hdump, Option.bind_some, tools.read_vacuum, htext, hparse]
    simp only [versionGuard, hsqlite, hversion]
    exact if_neg (not_lt.mpr hle)

end BackupHolds

/-- The restored store: the rows of every database file, those of the first with
the audit row of the restore, and the bytes of every object. -/
structure RoundTrip (tools : BackupTools Id File) (world : BackupWorld File) (cfg : BackendConfig)
    (data : Disk File) (db : Database Id) (r : RestoreResult File) : Prop where
  answer : ∃ report, r.answer = .ok report
  primary : ∃ details, RestoreState.view tools r.target (primaryPath cfg.layout) =
    some (db.auditAppend world.nowNs.toNat "admin" "restore" details)
  repos : cfg.layout = .dbPerRepo → ∀ id ∈ registryIds db,
    RestoreState.view tools r.target (repoDbPath id) =
      RestoreState.view tools data (repoDbPath id)
  objects : ∀ hex, isHexId hex = true → r.target.get (objectPath hex) = data.get (objectPath hex)

theorem Restored.roundTrip (h : BackupHolds tools cfg data db dest manifest)
    (hfs : cfg.blob = .fs) {world : BackupWorld File} {waived : List String}
    {r : RestoreResult File} (hr : Restored tools world cfg manifest waived [] dest db r) :
    RoundTrip tools world cfg data db r := by
  have hids : restoredIds cfg manifest = manifest.objects := if_pos hfs
  refine ⟨hr.answer, ⟨_, hr.primary⟩, fun hlayout id hid => ?_, fun hex hvalid => ?_⟩
  · obtain ⟨a, ha, hpath⟩ := List.mem_map.mp
      ((h.artifacts _).mpr (.inr (.inr ⟨hlayout, id, hid, rfl⟩)))
    obtain ⟨rows, hrows, hget⟩ := h.repos hlayout id hid
    have hview := hr.repos hlayout a ha (toString id) (by rw [hpath, repoArtifactName_repo])
    rw [hpath, components_repoArtifactPath, hget, Option.bind_some, tools.read_vacuum] at hview
    exact hview.trans hrows.symm
  · by_cases hmem : hex ∈ casIds data
    · have hget := hr.objects hex (by rw [hids, h.listed]; exact hmem)
      exact hget.trans (h.objects hex hmem)
    · have hsource : data.get (objectPath hex) = none := by
        cases hfile : data.get (objectPath hex) with
        | none => rfl
        | some file => exact absurd (mem_casIds hvalid hfile) hmem
      rw [hsource]
      refine (hr.others (shardPath hex) fun other hother heq => ?_).trans rfl
      rw [hids, h.listed] at hother
      exact hmem (shardPath_injective heq ▸ hother)

/-- A backup without a missing object comes back whole from an empty target,
but for a catalog without repositories. -/
theorem backup_restore_iff {destTaken : Option Bool} {report : BackupReport}
    (hsqlite : cfg.metaKind = .sqlite) (hfs : cfg.blob = .fs)
    (hbackup : backup tools world cfg data destTaken = .ok (dest, report))
    (hmissing : report.missing = []) {restoreWorld : BackupWorld File}
    (hunlocked : restoreWorld.locked = false) (force : Bool) (allowMissing : Option String) :
    ∃ db, openStore tools cfg.layout data = .ok db ∧
      (RoundTrip tools restoreWorld cfg data db
          (restore tools restoreWorld cfg [] dest force allowMissing) ↔
        ¬(cfg.layout = .dbPerRepo ∧ registryIds db = [])) := by
  obtain ⟨session, hbegin, hfinish⟩ := Lib.bind_eq_ok.mp hbackup
  obtain ⟨db, changesets, hopen, hdump, hids⟩ := backupBegin_ok hsqlite hfs hbegin
  obtain ⟨manifest, hholds⟩ := backupFinish_ok hsqlite hfs hdump hids hfinish hmissing
  refine ⟨db, hopen, ?_⟩
  rw [← hholds.layoutGuard_iff]
  constructor
  · intro htrip
    obtain ⟨answer, hanswer⟩ := htrip.answer
    unfold restore at hanswer
    cases hchecks : restoreChecks tools restoreWorld cfg [] dest force allowMissing with
    | error e =>
        rw [hchecks] at hanswer
        cases hanswer
    | ok checked =>
        obtain ⟨m, waived, stage⟩ := checked
        have haccepted := restoreChecks_ok.mp hchecks
        have hload := haccepted.load
        rw [hholds.load] at hload
        cases hload
        exact haccepted.layout
  · intro hlayout
    obtain ⟨stage, haccepted⟩ :=
      hholds.accepted hsqlite hfs hopen hunlocked force allowMissing hlayout
    obtain ⟨file, -, hfile, hsource, -⟩ := haccepted.dump hsqlite
    rw [hholds.dump] at hsource
    cases hsource
    have hleft : leftoverLog cfg.layout ([] : Disk File) = none := by
      cases cfg.layout <;> rfl
    have hopened : tools.openPrimary cfg.layout (tools.vacuum db)
        (leftoverLog cfg.layout ([] : Disk File)) = .ok db := by
      rw [hleft]
      exact (openStore_vacuum hopen).1
    have hrun : restore tools restoreWorld cfg [] dest force allowMissing =
        restoreWrite tools restoreWorld cfg [] force manifest [] stage := by
      rw [restore, restoreChecks_ok.mpr haccepted]
    rw [hrun]
    exact (restoreWrite_opened haccepted hsqlite hfile (fun _ => hholds.nodup) hopened).roundTrip
      hholds hfs

end

end

/-! ### A store of one repository, and one of none -/

namespace BackedUp

/-- A catalog of one repository, its file and an object. -/
def oneRepo : Disk PlainFile :=
  [([catalogFile], .file (.database (plainCatalog [⟨1, "r", 0⟩]))),
    ([reposDir, "1.db"], .file (.database (.migrated "13"))),
    (objectPath (String.ofList (List.replicate 64 '0')), .file (.text []))]

/-- A store just initialised. -/
def noRepo : Disk PlainFile := [([catalogFile], .file (.database (plainCatalog [])))]

/-- The backup that completes without a missing object. -/
def complete (data : Disk PlainFile) : Option (Disk PlainFile × BackupReport) :=
  (backup plainTools plainWorld splitConfig data none).toOption.filter fun b =>
    decide (b.2.missing = [])

theorem complete_eq {data dest : Disk PlainFile} {report : BackupReport}
    (h : complete data = some (dest, report)) :
    backup plainTools plainWorld splitConfig data none = .ok (dest, report) ∧
      report.missing = [] := by
  obtain ⟨hbackup, hmissing⟩ := Option.filter_eq_some_iff.mp h
  refine ⟨?_, of_decide_eq_true hmissing⟩
  cases hrun : backup plainTools plainWorld splitConfig data none with
  | error e =>
      rw [hrun] at hbackup
      cases hbackup
  | ok b =>
      rw [hrun] at hbackup
      cases hbackup
      rfl

end BackedUp

open BackedUp in
theorem backup_restore_iff_oneRepo : ∃ dest report db,
    backup plainTools plainWorld splitConfig oneRepo none = .ok (dest, report) ∧
      RoundTrip plainTools plainWorld splitConfig oneRepo db
        (restore plainTools plainWorld splitConfig [] dest false none) := by
  have hsome : (complete oneRepo).isSome = true := by decide +kernel
  obtain ⟨⟨dest, report⟩, hcomplete⟩ := Option.isSome_iff_exists.mp hsome
  obtain ⟨hbackup, hmissing⟩ := complete_eq hcomplete
  obtain ⟨db, hopen, htrip⟩ := @backup_restore_iff _ _ _ plainTools plainWorld splitConfig oneRepo
    dest none report rfl rfl hbackup hmissing plainWorld rfl false none
  have hrepos : (openStore plainTools .dbPerRepo oneRepo).toOption.all
      (fun db => decide (registryIds db ≠ [])) = true := by
    decide +kernel
  have hopen : openStore plainTools .dbPerRepo oneRepo = .ok db := hopen
  rw [hopen] at hrepos
  exact ⟨dest, report, db, hbackup, htrip.mpr fun h => of_decide_eq_true hrepos h.2⟩

open BackedUp in
/-- The backup of a catalog without repositories is taken for a single database. -/
theorem empty_catalog_backup_refused : ∃ dest report,
    backup plainTools plainWorld splitConfig noRepo none = .ok (dest, report) ∧
      report.missing = [] ∧
      ∀ db, ¬RoundTrip plainTools plainWorld splitConfig noRepo db
        (restore plainTools plainWorld splitConfig [] dest false none) := by
  have hsome : (complete noRepo).isSome = true := by decide +kernel
  have hrefused : (complete noRepo).all (fun b =>
      (restore plainTools plainWorld splitConfig [] b.1 false none).answer.toOption.isNone) =
        true := by
    decide +kernel
  obtain ⟨⟨dest, report⟩, hcomplete⟩ := Option.isSome_iff_exists.mp hsome
  obtain ⟨hbackup, hmissing⟩ := complete_eq hcomplete
  refine ⟨dest, report, hbackup, hmissing, fun db htrip => ?_⟩
  obtain ⟨answer, hanswer⟩ := htrip.answer
  rw [hcomplete] at hrefused
  have hnone : (restore plainTools plainWorld splitConfig [] dest false none).answer.toOption.isNone =
      true := hrefused
  rw [hanswer] at hnone
  cases hnone

end Naatre
