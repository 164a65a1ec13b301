import Naatre.Server.Diff
import Naatre.Server.SizeIntegrity
import Naatre.Server.TreesHeld

/-!
What the path-level reads answer. A diff of two stored changesets never misses a
directory, and its entries are the paths whose blob or exec bit differ, each
side's pointer what `/file` answers for that side.
-/

namespace Naatre

/-! ### Path texts -/

def NonEmpty (name : String) : Prop := name ≠ ""

/-- A directory's path as the walk carries it. -/
def dirText (dirs : List String) : String := String.intercalate "/" dirs

theorem dirText_snoc {dirs : List String} (hdirs : dirs ≠ []) (name : String) :
    dirText (dirs ++ [name]) = dirText dirs ++ "/" ++ name := by
  rw [dirText, String.intercalate_append_of_ne_nil hdirs (by simp)]
  simp [dirText]

theorem dirText_eq_empty {dirs : List String} (h : ∀ d ∈ dirs, NonEmpty d) :
    dirText dirs = "" ↔ dirs = [] := by
  constructor
  · intro htext
    cases dirs with
    | nil => rfl
    | cons d ds =>
        have hd : d ≠ "" := h d List.mem_cons_self
        cases ds with
        | nil => exact absurd (by simpa [dirText] using htext) hd
        | cons d' ds =>
            have hlt := @intercalate_lt [d] (d' :: ds) (by simp) (by simp)
            rw [dirText] at htext
            rw [List.singleton_append, htext, String.lt_iff_toList_lt] at hlt
            exact absurd hlt (List.not_lt_nil _)
  · rintro rfl
    rfl

/-- The walk joins a name to its directory's path. -/
theorem join_eq_dirText {dirs : List String} (h : ∀ d ∈ dirs, NonEmpty d) (name : String) :
    (if dirText dirs = "" then name else dirText dirs ++ "/" ++ name) =
      dirText (dirs ++ [name]) := by
  split_ifs with hempty
  · rw [(dirText_eq_empty h).mp hempty]
    simp [dirText]
  · rw [dirText_snoc fun hnil => hempty ((dirText_eq_empty h).mpr hnil)]

section

variable {Id : Type}

/-! ### The flattened map -/

mutual

/-- A sorted tree lists every file once. -/
theorem nodup_flattenInto : (node : MemNode Id) → node.Sorted → ∀ dirs,
    ((node.flattenInto dirs).map fun f => f.1).Nodup
  | .empty => fun _ _ => List.nodup_nil
  | .entry name e rest => by
      intro hsorted dirs
      rw [MemNode.flattenInto, List.map_append, List.nodup_append]
      refine ⟨nodup_flattenEntry e hsorted.2.1 dirs name, nodup_flattenInto rest hsorted.2.2 dirs,
        ?_⟩
      intro p hp q hq hpq
      subst hpq
      obtain ⟨f, hf, rfl⟩ := List.mem_map.mp hp
      obtain ⟨g, hg, hpath⟩ := List.mem_map.mp hq
      obtain ⟨ds, leaf, hfds, hfile⟩ := lookup_of_mem_flattenEntry e hsorted.2.1 dirs name f hf
      obtain ⟨ds', leaf', hgds, hfile'⟩ := lookup_of_mem_flattenInto rest hsorted.2.2 dirs g hg
      rw [hfds, hgds, Path.mk.injEq, List.append_cancel_left_eq] at hpath
      obtain ⟨rfl, rfl⟩ := hpath
      -- the first name is the entry's, and the rest has no such name
      have hrest : rest.get name = none := MemNode.get_of_after rest name hsorted.2.2 hsorted.1
      cases ds' with
      | nil =>
          simp only [MemNode.lookupIn, MemNode.get] at hfile hfile'
          split_ifs at hfile with hname
          · rw [← hname, hrest] at hfile'
            cases hfile'
          · cases hfile
      | cons d ds =>
          simp only [MemNode.lookupIn_cons, MemNode.get] at hfile hfile'
          split_ifs at hfile with hname
          · rw [← hname, hrest] at hfile'
            cases hfile'
          · cases hfile

theorem nodup_flattenEntry : (e : MemEntry Id) → e.Sorted → ∀ dirs name,
    ((e.flattenEntry dirs name).map fun f => f.1).Nodup
  | .file _ _ _ => fun _ _ _ => List.nodup_singleton _
  | .dir child => fun hsorted dirs name => nodup_flattenInto child hsorted (dirs ++ [name])

end

/-- A file as the diff keeps it. -/
def diffEntryOf (f : Path × FileMeta Id) : String × Id × Bool := (f.1.text, f.2.key)

variable [Platform Id]

/-- What the diff flattens: the files of a tree by their texts, the later over
the earlier. -/
theorem walkFiles_load {trees : List (TreeRow Id)} {k : ℕ} {id : Id} {node : MemNode Id}
    (h : loadNode trees k id = .ok node) (hnames : node.Names NonEmpty) {dirs : List String}
    (hdirs : ∀ d ∈ dirs, NonEmpty d) (out : DiffFiles Id) :
    walkFiles trees k id (dirText dirs) out =
      Lib.sortedInsertAll out ((node.flattenInto dirs).map diffEntryOf) := by
  induction k generalizing id node dirs out with
  | zero => simp [loadNode] at h
  | succ k ih =>
      obtain ⟨row, hrow, hentries⟩ := loadNode_succ.mp h
      have hload : treeEntriesLoad trees id = row.entries := by
        rw [treeEntriesLoad, hrow]
        rfl
      rw [walkFiles, hload]
      generalize row.entries = es at hentries
      clear hload h
      induction es generalizing node out with
      | nil =>
          obtain rfl := Except.ok.inj hentries
          rfl
      | cons e es ihes =>
          obtain ⟨entry, rest, hentry, hrest, rfl⟩ := loadEntries_cons.mp hentries
          rw [walkEntries]
          simp only [join_eq_dirText hdirs]
          have hdown : ∀ d ∈ dirs ++ [e.name], NonEmpty d := by
            intro d hd
            rcases List.mem_append.mp hd with hd | hd
            · exact hdirs d hd
            · rw [List.mem_singleton.mp hd]
              exact hnames.1
          rw [MemNode.flattenInto, List.map_append, Lib.sortedInsertAll, List.foldl_append]
          cases hentry with
          | file hkind =>
              simp only [hkind]
              exact ihes hnames.2.2 _ hrest
          | dir child hkind hchild =>
              simp only [hkind]
              rw [ih hchild hnames.2.1 hdown]
              exact ihes hnames.2.2 _ hrest

omit [Platform Id] in
/-- Two files of one tree have different texts. -/
theorem diffEntryOf_keys {node : MemNode Id} (hsorted : node.Sorted) (hnames : node.Names NoSlash) :
    (((flattenFiles node).map diffEntryOf).map Prod.fst).Nodup := by
  have hpaths := nodup_flattenInto node hsorted []
  rw [List.map_map, List.Nodup, List.pairwise_map]
  rw [List.Nodup, List.pairwise_map] at hpaths
  refine hpaths.imp_of_mem fun hf hg hne htext => hne ?_
  exact Path.text_inj (flattenInto_names node hnames [] (by simp) _ hf)
    (flattenInto_names node hnames [] (by simp) _ hg) htext

/-- A map of a tree's files: ascending texts, and a file for each path. -/
structure Lists (node : MemNode Id) (files : DiffFiles Id) : Prop where
  ascends : Lib.Ascends files
  mem : ∀ x, x ∈ files ↔ ∃ p m, filesAt node p = some m ∧ x = (p.text, m.key)

omit [Platform Id] in
theorem mem_flattenFiles_iff {node : MemNode Id} (hsorted : node.Sorted) {f : Path × FileMeta Id} :
    f ∈ flattenFiles node ↔ filesAt node f.1 = some f.2 := by
  refine ⟨filesAt_of_mem_flattenFiles hsorted, fun h => ?_⟩
  exact Lib.mem_of_lookup h

theorem listFiles_lists {trees : List (TreeRow Id)} {root : Id} {node : MemNode Id}
    (h : MemNode.load trees (some root) = .ok node) (hsorted : node.Sorted)
    (hfilled : node.Names NonEmpty) (hnames : node.Names NoSlash) :
    Lists node (listFiles trees root) := by
  have hwalk : listFiles trees root =
      Lib.sortedInsertAll [] ((flattenFiles node).map diffEntryOf) :=
    @walkFiles_load _ _ trees _ _ _ h hfilled [] (by simp) []
  obtain ⟨hascends, hmem⟩ := @Lib.sortedInsertAll_spec String (Id × Bool) _ []
    ((flattenFiles node).map diffEntryOf) List.Pairwise.nil (diffEntryOf_keys hsorted hnames)
  rw [hwalk]
  refine ⟨hascends, fun x => (hmem x).trans ⟨?_, ?_⟩⟩
  · rintro (hx | ⟨hx, -⟩)
    · obtain ⟨f, hf, rfl⟩ := List.mem_map.mp hx
      exact ⟨f.1, f.2, (mem_flattenFiles_iff hsorted).mp hf, rfl⟩
    · cases hx
  · rintro ⟨p, m, hfile, rfl⟩
    have hf : (p, m) ∈ flattenFiles node := Lib.mem_of_lookup hfile
    exact .inl (List.mem_map.mpr ⟨(p, m), hf, rfl⟩)

omit [Platform Id] in
/-- A lookup by text finds the file of its path. -/
theorem Lists.lookup {node : MemNode Id} {files : DiffFiles Id} (h : Lists node files)
    (hnames : node.Names NoSlash) {p : Path} (hp : ∀ n ∈ p.components, NoSlash n) :
    files.lookup p.text = (filesAt node p).map FileMeta.key := by
  cases hfile : filesAt node p with
  | some m =>
      exact Lib.lookup_of_nodup h.ascends.keys ((h.mem _).mpr ⟨p, m, hfile, rfl⟩)
  | none =>
      rw [Option.map_none, List.lookup_eq_none_iff]
      intro x hx
      rw [bne_iff_ne]
      rintro htext
      obtain ⟨q, m, hq, rfl⟩ := (h.mem x).mp hx
      have hpq := Path.text_inj hp (filesAt_names hnames (by rw [hq]; rfl)) htext
      rw [hpq, hq] at hfile
      cases hfile

/-! ### The comparison -/

/-- The entry of a path, from the file each side has there. -/
def diffAt (redacted : Id → Bool) (p : Path) :
    Option (FileMeta Id) → Option (FileMeta Id) → Option (PathDiffEntry Id)
  | none, none => none
  | some a, none => some ⟨p.text, .del, hexOf a.blob (redacted a.blob), none, redacted a.blob⟩
  | none, some b => some ⟨p.text, .add, none, hexOf b.blob (redacted b.blob), redacted b.blob⟩
  | some a, some b =>
      if a.key = b.key then none
      else some ⟨p.text, .mod, hexOf a.blob (redacted a.blob), hexOf b.blob (redacted b.blob),
        redacted a.blob || redacted b.blob⟩

/-- What the two loops leave: first the paths of the base that change, then the
added ones, each part in path order. -/
structure DiffExact (redacted : Id → Bool) (a b : FileMap Id) (changes : List (PathDiffEntry Id)) :
    Prop where
  entry_iff : ∀ entry, entry ∈ changes ↔ ∃ p, diffAt redacted p (a p) (b p) = some entry
  ordered : ∃ kept added, changes = kept ++ added ∧ (∀ e ∈ kept, e.kind ≠ .add) ∧
    (∀ e ∈ added, e.kind = .add) ∧ kept.Pairwise (fun e e' => e.path < e'.path) ∧
      added.Pairwise (fun e e' => e.path < e'.path)

omit [Platform Id] in
/-- What keeps the keys keeps their order. -/
theorem ascends_filterMap {files : DiffFiles Id} (h : Lib.Ascends files)
    {pick : String × Id × Bool → Option (PathDiffEntry Id)}
    (hpick : ∀ x e, pick x = some e → e.path = x.1) :
    (files.filterMap pick).Pairwise fun e e' => e.path < e'.path := by
  refine h.filterMap pick ?_
  intro x y hlt e he e' he'
  rw [hpick x e he, hpick y e' he']
  exact hlt

theorem diffBase_eq {redacted : Id → Bool} {b : DiffFiles Id} {p : Path} {m : FileMeta Id}
    {y : Option (FileMeta Id)} (h : b.lookup p.text = y.map FileMeta.key) :
    diffBase redacted b (p.text, m.key) = diffAt redacted p (some m) y := by
  cases y with
  | none =>
      simp only [diffBase, h]
      rfl
  | some n =>
      simp only [diffBase, h, Option.map_some, diffAt]
      by_cases hkey : m.key = n.key
      · rw [if_neg (not_not.mpr hkey), if_pos hkey]
      · rw [if_pos hkey, if_neg hkey]
        rfl

theorem diffAdded_eq {redacted : Id → Bool} {a : DiffFiles Id} {p : Path} {m : FileMeta Id}
    {x : Option (FileMeta Id)} (h : a.lookup p.text = x.map FileMeta.key) :
    diffAdded redacted a (p.text, m.key) =
      if x.isSome then none else diffAt redacted p none (some m) := by
  simp only [diffAdded, h, Option.isSome_map]
  split_ifs <;> rfl

theorem diffBase_path {redacted : Id → Bool} {b : DiffFiles Id} {x : String × Id × Bool}
    {e : PathDiffEntry Id} (h : diffBase redacted b x = some e) : e.path = x.1 ∧ e.kind ≠ .add := by
  unfold diffBase at h
  split at h
  · split_ifs at h
    cases h
    exact ⟨rfl, by simp⟩
  · cases h
    exact ⟨rfl, by simp⟩

omit [Platform Id] in
theorem diffAdded_path {redacted : Id → Bool} {a : DiffFiles Id} {x : String × Id × Bool}
    {e : PathDiffEntry Id} (h : diffAdded redacted a x = some e) : e.path = x.1 ∧ e.kind = .add := by
  unfold diffAdded at h
  split_ifs at h
  cases h
  exact ⟨rfl, rfl⟩

theorem diffFiles_exact {redacted : Id → Bool} {a b : MemNode Id} {aFiles bFiles : DiffFiles Id}
    (ha : Lists a aFiles) (hb : Lists b bFiles) (hna : a.Names NoSlash) (hnb : b.Names NoSlash) :
    DiffExact redacted (filesAt a) (filesAt b) (diffFiles redacted aFiles bFiles) := by
  have hpath : ∀ {node : MemNode Id} {p : Path} {m : FileMeta Id}, node.Names NoSlash →
      filesAt node p = some m → ∀ n ∈ p.components, NoSlash n := fun hnode hfile =>
    filesAt_names hnode (by rw [hfile]; rfl)
  refine ⟨fun entry => ?_, _, _, rfl, ?_, ?_,
    ascends_filterMap ha.ascends fun x e he => (diffBase_path he).1,
    ascends_filterMap hb.ascends fun x e he => (diffAdded_path he).1⟩
  · rw [diffFiles, List.mem_append, List.mem_filterMap, List.mem_filterMap]
    constructor
    · rintro (⟨x, hx, hentry⟩ | ⟨x, hx, hentry⟩)
      · obtain ⟨p, m, hfile, rfl⟩ := (ha.mem x).mp hx
        rw [diffBase_eq (hb.lookup hnb (hpath hna hfile))] at hentry
        exact ⟨p, by rw [hfile, hentry]⟩
      · obtain ⟨p, m, hfile, rfl⟩ := (hb.mem x).mp hx
        rw [diffAdded_eq (ha.lookup hna (hpath hnb hfile))] at hentry
        split_ifs at hentry with hnone
        rw [Option.not_isSome_iff_eq_none] at hnone
        exact ⟨p, by rw [hfile, hnone, hentry]⟩
    · rintro ⟨p, hentry⟩
      cases hfa : filesAt a p with
      | some m =>
          refine .inl ⟨(p.text, m.key), (ha.mem _).mpr ⟨p, m, hfa, rfl⟩, ?_⟩
          rw [diffBase_eq (hb.lookup hnb (hpath hna hfa)), ← hfa, hentry]
      | none =>
          cases hfb : filesAt b p with
          | none =>
              rw [hfa, hfb] at hentry
              cases hentry
          | some m =>
              refine .inr ⟨(p.text, m.key), (hb.mem _).mpr ⟨p, m, hfb, rfl⟩, ?_⟩
              rw [diffAdded_eq (ha.lookup hna (hpath hnb hfb)), hfa, if_neg (by simp), ← hfa, ← hfb,
                hentry]
  · intro e he
    obtain ⟨x, -, hx⟩ := List.mem_filterMap.mp he
    exact (diffBase_path hx).2
  · intro e he
    obtain ⟨x, -, hx⟩ := List.mem_filterMap.mp he
    exact (diffAdded_path hx).2

/-! ### The file route -/

omit [Platform Id] in
/-- A directory's rows find by name what the loaded directory has there. -/
theorem find_loaded {load : Id → Except (DeriveError Id) (MemNode Id)} {es : List (TreeEntry Id)}
    {node : MemNode Id} (h : loadEntries load es = .ok node) (name : String) :
    (es.find? (fun e => decide (e.name = name)) = none ∧ node.get name = none) ∨
      ∃ e entry, es.find? (fun e => decide (e.name = name)) = some e ∧
        node.get name = some entry ∧ EntryLoaded load e entry := by
  induction es generalizing node with
  | nil =>
      obtain rfl := Except.ok.inj h
      exact .inl ⟨rfl, rfl⟩
  | cons e es ih =>
      obtain ⟨entry, rest, hentry, hrest, rfl⟩ := loadEntries_cons.mp h
      rw [List.find?_cons, MemNode.get]
      by_cases hname : e.name = name
      · rw [decide_eq_true hname, if_pos hname]
        exact .inr ⟨e, entry, rfl, rfl, hentry⟩
      · rw [decide_eq_false hname, if_neg hname]
        exact ih hrest

/-- The walk down a path ends at the file the loaded tree has there. -/
theorem fileWalk_load {trees : List (TreeRow Id)} {p : Path} {k : ℕ} {id : Id} {node : MemNode Id}
    (h : loadNode trees k id = .ok node) (dirs : List String) :
    (∃ e, fileWalk trees p id dirs = .ok e ∧
      MemEntry.toFile (node.lookupIn dirs p.leaf) = some ⟨e.object, e.size, e.exec⟩) ∨
    (∃ error, fileWalk trees p id dirs = .error error ∧ error.code = .notFound) ∧
      MemEntry.toFile (node.lookupIn dirs p.leaf) = none := by
  induction dirs generalizing k id node with
  | nil =>
      cases k with
      | zero => simp [loadNode] at h
      | succ k =>
          obtain ⟨row, hrow, hentries⟩ := loadNode_succ.mp h
          have hload : treeEntriesLoad trees id = row.entries := by
            rw [treeEntriesLoad, hrow]
            rfl
          rw [fileWalk, hload, MemNode.lookupIn]
          rcases find_loaded hentries p.leaf with ⟨hfind, hget⟩ | ⟨e, entry, hfind, hget, hloaded⟩
          · rw [hfind, hget]
            exact .inr ⟨⟨_, rfl, rfl⟩, rfl⟩
          · rw [hfind, hget]
            cases hloaded with
            | file hkind =>
                simp only [hkind]
                exact .inl ⟨e, rfl, rfl⟩
            | dir child hkind =>
                simp only [hkind]
                exact .inr ⟨⟨_, rfl, rfl⟩, rfl⟩
  | cons d dirs ih =>
      cases k with
      | zero => simp [loadNode] at h
      | succ k =>
          obtain ⟨row, hrow, hentries⟩ := loadNode_succ.mp h
          have hload : treeEntriesLoad trees id = row.entries := by
            rw [treeEntriesLoad, hrow]
            rfl
          rw [fileWalk, hload, MemNode.lookupIn_cons]
          rcases find_loaded hentries d with ⟨hfind, hget⟩ | ⟨e, entry, hfind, hget, hloaded⟩
          · rw [hfind, hget]
            exact .inr ⟨⟨_, rfl, rfl⟩, rfl⟩
          · rw [hfind, hget]
            cases hloaded with
            | file hkind =>
                simp only [hkind]
                exact .inr ⟨⟨_, rfl, rfl⟩, rfl⟩
            | dir child hkind hchild =>
                simp only [hkind]
                exact ih hchild

/-- The answers of `/file`. -/
inductive FileAnswers (redacted : Id → Bool) :
    Option (FileMeta Id) → Except (ApiError Id) (Id × ℕ × Bool) → Prop
  | absent (e : ApiError Id) (hcode : e.code = .notFound) : FileAnswers redacted none (.error e)
  | redacted (m : FileMeta Id) (e : ApiError Id) (hblob : redacted m.blob = true)
      (hcode : e.code = .objectRedacted) : FileAnswers redacted (some m) (.error e)
  | found (m : FileMeta Id) (hblob : redacted m.blob = false) :
      FileAnswers redacted (some m) (.ok (m.blob, m.size, m.exec))

theorem fileRead_answers {cx : RepoCx Id} {cs : Id} {row : ChangesetRow Id} {node : MemNode Id}
    (hrow : changesetGet cx.db cs = some row) (hfree : redactionActive cx.db cs = false)
    (hload : MemNode.load cx.trees (some row.rootTreeId) = .ok node) (hsorted : node.Sorted)
    (p : Path) : FileAnswers (redactionActive cx.db) (filesAt node p) (fileRead cx cs p) := by
  have hroot : diffRoot cx cs = .ok row.rootTreeId := by rw [diffRoot, hrow]
  rw [fileRead, if_neg (by simp [hfree]), hroot, filesAt_eq_lookup hsorted, MemNode.lookup]
  simp only [bind, Except.bind]
  rcases @fileWalk_load _ _ cx.trees p _ _ _ hload p.dirs with
    ⟨e, hwalk, hfile⟩ | ⟨⟨error, hwalk, hcode⟩, hfile⟩
  · rw [hwalk, hfile]
    simp only
    split_ifs with hblob
    · exact .redacted _ _ hblob rfl
    · exact .found ⟨e.object, e.size, e.exec⟩ (by simpa using hblob)
  · rw [hwalk, hfile]
    exact .absent error hcode

/-! ### The diff route -/

theorem diffFiles_congr {redacted redacted' : Id → Bool} {a b : DiffFiles Id}
    (ha : ∀ x ∈ a, redacted x.2.1 = redacted' x.2.1)
    (hb : ∀ x ∈ b, redacted x.2.1 = redacted' x.2.1) :
    diffFiles redacted a b = diffFiles redacted' a b := by
  rw [diffFiles, diffFiles]
  congr 1
  · refine List.filterMap_congr fun x hx => ?_
    rw [diffBase, diffBase, ha x hx]
    cases hlookup : b.lookup x.1 with
    | none => rfl
    | some bMeta => simp only [hb _ (Lib.mem_of_lookup hlookup)]
  · refine List.filterMap_congr fun x hx => ?_
    rw [diffAdded, diffAdded, hb x hx]

theorem mem_redactionsActiveAmong {db : RepoTables Id} {ids : List Id} {id : Id} (h : id ∈ ids) :
    decide (id ∈ redactionsActiveAmong db ids) = redactionActive db id := by
  rw [redactionsActiveAmong]
  cases hactive : redactionActive db id with
  | true =>
      rw [decide_eq_true_eq, List.mem_insertionSort, List.mem_filter, List.mem_dedup]
      exact ⟨h, hactive⟩
  | false =>
      rw [decide_eq_false_iff_not, List.mem_insertionSort, List.mem_filter, hactive]
      exact fun hmem => absurd hmem.2 (by simp)

theorem diff_exact {cx : RepoCx Id} {a b : Id} {rowA rowB : ChangesetRow Id} {nodeA nodeB : MemNode Id}
    (hrowA : changesetGet cx.db a = some rowA) (hrowB : changesetGet cx.db b = some rowB)
    (hfreeA : redactionActive cx.db a = false) (hfreeB : redactionActive cx.db b = false)
    (hlistsA : Lists nodeA (listFiles cx.trees rowA.rootTreeId))
    (hlistsB : Lists nodeB (listFiles cx.trees rowB.rootTreeId))
    (hna : nodeA.Names NoSlash) (hnb : nodeB.Names NoSlash) :
    ∃ changes, diff cx a b = .ok changes ∧
      DiffExact (redactionActive cx.db) (filesAt nodeA) (filesAt nodeB) changes := by
  have hrootA : diffRoot cx a = .ok rowA.rootTreeId := by rw [diffRoot, hrowA]
  have hrootB : diffRoot cx b = .ok rowB.rootTreeId := by rw [diffRoot, hrowB]
  rw [diff, if_neg (by simp [hfreeA]), if_neg (by simp [hfreeB]), hrootA, hrootB]
  refine ⟨_, rfl, ?_⟩
  rw [@diffFiles_congr _ _ _ (redactionActive cx.db)]
  · exact diffFiles_exact hlistsA hlistsB hna hnb
  · exact fun x hx => mem_redactionsActiveAmong
      (List.mem_append_left _ (List.mem_map.mpr ⟨x, hx, rfl⟩))
  · exact fun x hx => mem_redactionsActiveAmong
      (List.mem_append_right _ (List.mem_map.mpr ⟨x, hx, rfl⟩))

/-- No entry names a tombstoned blob. -/
theorem DiffExact.masked {redacted : Id → Bool} {a b : FileMap Id}
    {changes : List (PathDiffEntry Id)} (h : DiffExact redacted a b changes)
    {e : PathDiffEntry Id} (he : e ∈ changes) {id : Id}
    (hid : e.aBlob = some id ∨ e.bBlob = some id) : redacted id = false := by
  have hhex : ∀ blob, hexOf blob (redacted blob) = some id → redacted id = false := by
    intro blob hblob
    unfold hexOf at hblob
    split_ifs at hblob with hred
    cases hblob
    simpa using hred
  obtain ⟨p, hp⟩ := (h.entry_iff e).mp he
  cases ha : a p with
  | none =>
      cases hb : b p with
      | none =>
          rw [ha, hb] at hp
          cases hp
      | some n =>
          rw [ha, hb] at hp
          cases hp
          exact hid.elim (fun h => by cases h) (hhex _)
  | some m =>
      cases hb : b p with
      | none =>
          rw [ha, hb] at hp
          cases hp
          exact hid.elim (hhex _) fun h => by cases h
      | some n =>
          rw [ha, hb, diffAt] at hp
          split_ifs at hp
          cases hp
          exact hid.elim (hhex _) (hhex _)

/-! ### Names of every run -/

theorem Path.nonEmpty_of_valid {nfc : String → String} {p : Path} (h : p.validate nfc = .ok ()) :
    ∀ n ∈ p.components, NonEmpty n := by
  have hcomponents : ∀ (l : List String) (i : ℕ), validateComponents l i = .ok () →
      ∀ n ∈ l, NonEmpty n := by
    intro l
    induction l with
    | nil => exact fun _ _ n hn => absurd hn List.not_mem_nil
    | cons c l ih =>
        intro i hok n hn
        rw [validateComponents] at hok
        split_ifs at hok with _ _ hempty
        rcases List.mem_cons.mp hn with rfl | hn
        · exact hempty
        · exact ih _ hok n hn
  cases hvalid : validateComponents p.components 0 with
  | ok u => exact hcomponents _ _ hvalid
  | error e =>
      unfold Path.validate at h
      simp only [hvalid] at h
      repeat' split at h
      all_goals cases h

theorem validatePaths_mem {nfc : String → String} {paths : List Path}
    (h : validatePaths nfc paths = .ok ()) : ∀ p ∈ paths, p.validate nfc = .ok () := by
  induction paths with
  | nil => exact fun _ hp => absurd hp List.not_mem_nil
  | cons q paths ih =>
      intro p hp
      rw [validatePaths] at h
      split at h
      · cases h
      next hq =>
        rcases List.mem_cons.mp hp with rfl | hp
        · exact hq
        · exact ih h p hp

theorem createPrepare_valid {repoId nowNs : ℕ} {req : CreateRequest Id} {metas : ParentMetas Id}
    {p : PreparedCreate Id} (h : createPrepare repoId nowNs req metas = .ok p) :
    ∀ c ∈ req.changes, c.path.validate (Platform.nfc Id) = .ok () := by
  unfold createPrepare at h
  split at h
  · cases h
  simp only at h
  split at h
  · cases h
  split at h
  · cases h
  next hvalid =>
    unfold Changeset.validate at hvalid
    simp only at hvalid
    split at hvalid
    · cases hvalid
    next hpaths =>
      exact fun c hc => validatePaths_mem hpaths _ (List.mem_map.mpr ⟨c, hc, rfl⟩)

namespace Server

/-- The names of an imported tree. -/
def ImportNames (P : String → Prop) : Event Id → Prop
  | .importGit _ git _ _ _ => ∀ c ∈ git, c.tree.Names P
  | _ => True

/-- A create stores valid names only, so that imports alone bring others. -/
theorem nonEmpty_of_reach {ok : Server Id → Event Id → Prop}
    (hok : ∀ s e, ok s e → ImportNames NonEmpty e) {s : Server Id} (h : Reach ok s) :
    Named NonEmpty s := by
  have hvalid : ∀ name, validateComponent (Platform.nfc Id) name = .ok () → NonEmpty name := by
    rintro name hname rfl
    simp [validateComponent] at hname
  refine Lib.Reach.invariant ?_ (fun s e s' _ hinv hse he => ?_) h
  · rintro s ⟨layout, repos, nowNs, graceNs, -, rfl⟩
    exact ⟨fun f row hrow => absurd hrow List.not_mem_nil,
      fun r p hp => absurd hp List.not_mem_nil⟩
  · have himport := hok s e hse
    cases e with
    | createLookup r req =>
        cases step_cases he with
        | refused => exact hinv
        | createLookup r req metas p hlookup hprepare =>
            refine hinv.step hvalid ?_ he
            exact fun c hc => Path.nonEmpty_of_valid (createPrepare_valid hprepare c hc)
    | importGit r git opts head stop =>
        refine hinv.step hvalid ?_ he
        exact himport
    | _ =>
        refine hinv.step hvalid ?_ he
        trivial

/-- In every run the tree of a stored changeset loads, sorted and with names of
one component, and the diff flattens it whole. -/
theorem lists_of_reach {ok : Server Id → Event Id → Prop}
    (hok : ∀ s e, ok s e → SplitPaths e ∧ ImportNames NonEmpty e) {s : Server Id} (h : Reach ok s)
    {r : RepoId} (hr : r ∈ s.repoIds) {id : Id} {row : ChangesetRow Id}
    (hrow : changesetGet (s.dbs r) id = some row) :
    ∃ node, MemNode.load (s.cx r).trees (some row.rootTreeId) = .ok node ∧
      Lists node (listFiles (s.cx r).trees row.rootTreeId) ∧ node.Names NoSlash ∧ node.Sorted := by
  have hslash : Named NoSlash s :=
    named_of_reach (fun name hname => Wire.no_slash_of_component hname)
      (fun s e he => (hok s e he).1.names) h
  have hfilled := nonEmpty_of_reach (fun s e he => (hok s e he).2) h
  obtain ⟨node, hload⟩ := (trees_held_of_reach h).roots r hr row (changesetGet_some hrow).1
  have hsorted := load_sorted (treesWf_of_reach h (s.file r)) hload
  have hnames := (hslash.trees (s.file r)).load hload
  exact ⟨node, hload,
    listFiles_lists hload hsorted ((hfilled.trees (s.file r)).load hload) hnames, hnames, hsorted⟩

/-- In every run: a diff of two stored changesets that are not tombstoned
answers, with one entry for each path whose blob or exec bit differ between the
two root trees, the changed and deleted paths in order before the added ones, and
no tombstoned blob named; and `/file` answers on each side with the root tree's
file. -/
theorem diff_exact_of_reach {ok : Server Id → Event Id → Prop}
    (hok : ∀ s e, ok s e → SplitPaths e ∧ ImportNames NonEmpty e) {s : Server Id} (h : Reach ok s)
    {r : RepoId} (hr : r ∈ s.repoIds) {a b : Id} {rowA rowB : ChangesetRow Id}
    (hrowA : changesetGet (s.dbs r) a = some rowA) (hrowB : changesetGet (s.dbs r) b = some rowB)
    (hfreeA : redactionActive (s.dbs r) a = false)
    (hfreeB : redactionActive (s.dbs r) b = false) :
    ∃ nodeA nodeB changes, MemNode.load (s.cx r).trees (some rowA.rootTreeId) = .ok nodeA ∧
      MemNode.load (s.cx r).trees (some rowB.rootTreeId) = .ok nodeB ∧
      diff (s.cx r) a b = .ok changes ∧
      DiffExact (redactionActive (s.dbs r)) (filesAt nodeA) (filesAt nodeB) changes ∧
      (∀ e ∈ changes, ∀ id, e.aBlob = some id ∨ e.bBlob = some id →
        redactionActive (s.dbs r) id = false) ∧
      ∀ p, FileAnswers (redactionActive (s.dbs r)) (filesAt nodeA p) (fileRead (s.cx r) a p) ∧
        FileAnswers (redactionActive (s.dbs r)) (filesAt nodeB p) (fileRead (s.cx r) b p) := by
  obtain ⟨nodeA, hA, hlistsA, hna, hsortedA⟩ := lists_of_reach hok h hr hrowA
  obtain ⟨nodeB, hB, hlistsB, hnb, hsortedB⟩ := lists_of_reach hok h hr hrowB
  obtain ⟨changes, hdiff, hexact⟩ :=
    @diff_exact _ _ (s.cx r) a b rowA rowB nodeA nodeB hrowA hrowB hfreeA hfreeB hlistsA hlistsB
      hna hnb
  exact ⟨nodeA, nodeB, changes, hA, hB, hdiff, hexact,
    fun e he id hid => hexact.masked he hid, fun p =>
      ⟨@fileRead_answers _ _ (s.cx r) a rowA nodeA hrowA hfreeA hA hsortedA p,
        @fileRead_answers _ _ (s.cx r) b rowB nodeB hrowB hfreeB hB hsortedB p⟩⟩

end Server

end

/-! ### An edit of one file -/

namespace Server

open StaleTip HistoryKept in
/-- The diff of the import and the create on top of it is one changed file. -/
theorem diff_exact_of_reach_edited : ∃ s nodeA nodeB changes,
    Lib.exec step start edited = some s ∧
      diff (s.cx 1) (lastOf imported) (lastOf edited) = .ok changes ∧
      changes.map (fun e => e.kind) = [.mod] ∧
      DiffExact (redactionActive (s.dbs 1)) (filesAt nodeA) (filesAt nodeB) changes ∧
      ∀ p, FileAnswers (redactionActive (s.dbs 1)) (filesAt nodeA p)
          (fileRead (s.cx 1) (lastOf imported) p) ∧
        FileAnswers (redactionActive (s.dbs 1)) (filesAt nodeB p)
          (fileRead (s.cx 1) (lastOf edited) p) := by
  have hrun : (Lib.exec step start edited).any (fun s => decide (1 ∈ s.repoIds) &&
      (changesetGet (s.dbs 1) (lastOf imported)).isSome &&
      (changesetGet (s.dbs 1) (lastOf edited)).isSome &&
      !redactionActive (s.dbs 1) (lastOf imported) && !redactionActive (s.dbs 1) (lastOf edited) &&
      (diff (s.cx 1) (lastOf imported) (lastOf edited)).toOption.any fun changes =>
        decide (changes.map (fun e => e.kind) = [.mod])) = true := by
    decide +kernel
  obtain ⟨s, hs, hall⟩ := (Option.any_eq_true _ _).mp hrun
  simp only [Bool.and_eq_true, decide_eq_true_eq, Bool.not_eq_true'] at hall
  obtain ⟨⟨⟨⟨⟨hr, hsomeA⟩, hsomeB⟩, hfreeA⟩, hfreeB⟩, hkinds⟩ := hall
  obtain ⟨rowA, hrowA⟩ := Option.isSome_iff_exists.mp hsomeA
  obtain ⟨rowB, hrowB⟩ := Option.isSome_iff_exists.mp hsomeB
  have hname : (GitName.ofText "a").text ≠ "" := by decide +kernel
  have hreach : Reach (fun _ e => SplitPaths e ∧ ImportNames NonEmpty e) s := by
    refine Lib.Reach.exec (.start ⟨.dbPerRepo, [(1, "r")], 100, 10, by decide, rfl⟩) ?_ hs
    intro s
    simp [edited, create, imported, upload, source, SplitPaths, ImportNames, Path.components,
      NoSlash, NonEmpty, GitTree.Names, GitEntry.Names, hname]
  obtain ⟨nodeA, nodeB, changes, -, -, hdiff, hexact, -, hfiles⟩ :=
    diff_exact_of_reach (fun _ _ he => he) hreach hr hrowA hrowB hfreeA hfreeB
  rw [hdiff, Except.toOption, Option.any_some, decide_eq_true_eq] at hkinds
  exact ⟨s, nodeA, nodeB, changes, hs, hdiff, hkinds, hexact, hfiles⟩

end Server

end Naatre
