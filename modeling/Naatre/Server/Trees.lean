import Mathlib.Data.List.Chain
import Naatre.Server.Closure
import Naatre.Server.Merge
import Naatre.Lib.Loop
import Naatre.Lib.Table

/-!
Stores of tree rows: what a row is found by, what an insert adds, the rows a
node is collected to, and why a closure is the same in every store that holds
it.
-/

namespace Naatre

section

variable {Id : Type} [Platform Id]

/-! ### Inserts -/

theorem treesInsert_append (trees a b : List (TreeRow Id)) :
    treesInsert trees (a ++ b) = treesInsert (treesInsert trees a) b :=
  List.foldl_append

theorem treesInsert_cons (trees rows : List (TreeRow Id)) (row : TreeRow Id) :
    treesInsert trees (row :: rows) = treesInsert (treeInsert trees row) rows := rfl

theorem treeGet_cons (row : TreeRow Id) (rows : List (TreeRow Id)) (id : Id) :
    treeGet (row :: rows) id = if row.id = id then some row else treeGet rows id := by
  by_cases h : row.id = id <;> simp [treeGet, h]

theorem treeGet_treeInsert (trees : List (TreeRow Id)) (row : TreeRow Id) (id : Id) :
    treeGet (treeInsert trees row) id =
      (treeGet trees id).or (if row.id = id then some row else none) := by
  unfold treeInsert
  split_ifs with hsome hid hid
  · rw [← hid, Option.or_of_isSome hsome]
  · rw [Option.or_none]
  · rw [treeGet, List.find?_append, treeGet]
    simp [hid]
  · rw [treeGet, List.find?_append, treeGet]
    simp [hid]

/-- The first row of an id stays the one found. -/
theorem treeGet_treesInsert (trees rows : List (TreeRow Id)) (id : Id) :
    treeGet (treesInsert trees rows) id = (treeGet trees id).or (treeGet rows id) := by
  induction rows generalizing trees with
  | nil => exact Option.or_none.symm
  | cons row rows ih =>
      rw [treesInsert_cons, ih, treeGet_treeInsert, treeGet_cons, Option.or_assoc]
      split_ifs
      · rw [Option.some_or]
      · rw [Option.none_or]

theorem mem_treesInsert {trees rows : List (TreeRow Id)} {row : TreeRow Id}
    (h : row ∈ treesInsert trees rows) : row ∈ trees ∨ row ∈ rows := by
  induction rows generalizing trees with
  | nil => exact .inl h
  | cons first rows ih =>
      rcases ih h with h | h
      · unfold treeInsert at h
        split_ifs at h
        · exact .inl h
        · rcases List.mem_append.mp h with h | h
          · exact .inl h
          · exact .inr (List.mem_singleton.mp h ▸ List.mem_cons_self)
      · exact .inr (List.mem_cons_of_mem _ h)

theorem mem_treesInsert_ids {trees rows : List (TreeRow Id)} {id : Id} :
    id ∈ (treesInsert trees rows).map (fun row => row.id) ↔
      id ∈ trees.map (fun row => row.id) ∨ id ∈ rows.map (fun row => row.id) := by
  rw [← treeGet_isSome, treeGet_treesInsert, Option.isSome_or, Bool.or_eq_true, treeGet_isSome,
    treeGet_isSome]

/-! ### Well-formed stores -/

/-- A row is named by its frame, which lists each name once. -/
structure TreeRow.Wf (row : TreeRow Id) : Prop where
  named : row.id = Platform.treeId row.canonical
  distinct : (row.canonical.tree.entries.map (fun e => e.name)).Nodup

/-- A frame has one row. -/
theorem TreeRow.Wf.eq {a b : TreeRow Id} (ha : a.Wf) (hb : b.Wf) (h : a.id = b.id) : a = b := by
  have hframe : a.canonical = b.canonical := by
    apply Platform.treeId_inj
    rw [← ha.named, ← hb.named, h]
  cases a
  cases b
  simp only at h hframe
  rw [h, hframe]

structure TreesWf (trees : List (TreeRow Id)) : Prop where
  rows : ∀ row ∈ trees, row.Wf
  ids : (trees.map (fun row => row.id)).Nodup

namespace TreesWf

variable {trees : List (TreeRow Id)}

theorem nil : TreesWf ([] : List (TreeRow Id)) :=
  ⟨fun _ hrow => absurd hrow List.not_mem_nil, List.nodup_nil⟩

theorem sublist (h : TreesWf trees) {trees' : List (TreeRow Id)} (hsub : trees'.Sublist trees) :
    TreesWf trees' :=
  ⟨fun row hrow => h.rows row (hsub.subset hrow), h.ids.sublist (hsub.map _)⟩

theorem get (h : TreesWf trees) {row : TreeRow Id} (hrow : row ∈ trees) :
    treeGet trees row.id = some row :=
  Lib.find_of_nodup h.ids hrow

theorem insert (h : TreesWf trees) {rows : List (TreeRow Id)} (hrows : ∀ row ∈ rows, row.Wf) :
    TreesWf (treesInsert trees rows) := by
  induction rows generalizing trees with
  | nil => exact h
  | cons row rows ih =>
      refine ih ?_ fun r hr => hrows r (List.mem_cons_of_mem _ hr)
      unfold treeInsert
      split_ifs with hsome
      · exact h
      · have hfresh : row.id ∉ trees.map (fun row => row.id) := fun hmem =>
          hsome (treeGet_isSome.mpr hmem)
        refine ⟨fun r hr => ?_, Lib.nodup_insert h.ids hfresh⟩
        rcases List.mem_append.mp hr with hr | hr
        · exact h.rows r hr
        · exact List.mem_singleton.mp hr ▸ hrows row List.mem_cons_self

/-- What is inserted is found, whatever stood in the store. -/
theorem get_inserted (h : TreesWf trees) {rows : List (TreeRow Id)} (hrows : ∀ row ∈ rows, row.Wf)
    {row : TreeRow Id} (hrow : row ∈ rows) :
    treeGet (treesInsert trees rows) row.id = some row := by
  have hmem : row.id ∈ (treesInsert trees rows).map (fun row => row.id) :=
    mem_treesInsert_ids.mpr (.inr (List.mem_map_of_mem hrow))
  obtain ⟨found, hfound⟩ := Option.isSome_iff_exists.mp (treeGet_isSome.mpr hmem)
  obtain ⟨hfoundMem, hid⟩ := treeGet_some hfound
  rw [hfound, ((h.insert hrows).rows found hfoundMem).eq (hrows row hrow) hid]

end TreesWf

/-! ### Closures -/

/-- A walk that stays among stored rows is the same in every store that holds
these rows. -/
theorem mem_treeClosure_of_agree {a b : List (TreeRow Id)} {seeds : List Id}
    (hrows : ∀ id ∈ treeClosure a seeds, (treeGet a id).isSome ∧ treeGet b id = treeGet a id)
    {id : Id} : id ∈ treeClosure b seeds ↔ id ∈ treeClosure a seeds := by
  have hchild : ∀ x ∈ treeClosure a seeds, childTrees b x = childTrees a x := by
    intro x hx
    rw [childTrees, (hrows x hx).2, childTrees]
  constructor
  · intro h
    obtain ⟨s, hs, hpath⟩ := mem_treeClosure.mp h
    clear h
    induction hpath with
    | refl => exact subset_treeClosure hs
    | tail _ hstep ih =>
        rw [TreeChild, hchild _ ih] at hstep
        exact treeClosure_child ih hstep
  · intro h
    obtain ⟨s, hs, hpath⟩ := mem_treeClosure.mp h
    clear h
    suffices hboth : id ∈ treeClosure a seeds ∧ id ∈ treeClosure b seeds from hboth.2
    induction hpath with
    | refl => exact ⟨subset_treeClosure hs, subset_treeClosure hs⟩
    | tail _ hstep ih =>
        refine ⟨treeClosure_child ih.1 hstep, treeClosure_child ih.2 ?_⟩
        rw [TreeChild, hchild _ ih.1]
        exact hstep

/-- Every sub-directory of a row has its row. -/
def TreesClosed (rows : List (TreeRow Id)) : Prop :=
  ∀ row ∈ rows, ∀ d ∈ row.dirs, (treeGet rows d).isSome

/-- A closed set of rows holds every closure that starts in it. -/
theorem TreesClosed.closure {rows : List (TreeRow Id)} (h : TreesClosed rows) {seeds : List Id}
    (hseeds : ∀ s ∈ seeds, (treeGet rows s).isSome) {id : Id} (hid : id ∈ treeClosure rows seeds) :
    (treeGet rows id).isSome := by
  obtain ⟨s, hs, hpath⟩ := mem_treeClosure.mp hid
  clear hid
  induction hpath with
  | refl => exact hseeds s hs
  | tail _ hstep ih =>
      obtain ⟨row, hrow⟩ := Option.isSome_iff_exists.mp ih
      rw [TreeChild, childTrees, hrow] at hstep
      exact h row (treeGet_some hrow).1 _ hstep

/-- The closure of inserted rows is their own. -/
theorem TreesWf.closure_inserted {trees rows : List (TreeRow Id)} (h : TreesWf trees)
    (hrows : TreesWf rows) (hclosed : TreesClosed rows) {seeds : List Id}
    (hseeds : ∀ s ∈ seeds, (treeGet rows s).isSome) {id : Id} :
    id ∈ treeClosure (treesInsert trees rows) seeds ↔ id ∈ treeClosure rows seeds := by
  refine mem_treeClosure_of_agree fun x hx => ?_
  have hx := hclosed.closure hseeds hx
  obtain ⟨row, hrow⟩ := Option.isSome_iff_exists.mp hx
  obtain ⟨hmem, rfl⟩ := treeGet_some hrow
  exact ⟨hx, by rw [hrow, h.get_inserted hrows.rows hmem]⟩

/-! ### Entries -/

omit [Platform Id] in
theorem TreeRow.mem_entries {row : TreeRow Id} {e : TreeEntry Id} :
    e ∈ row.entries ↔ e ∈ row.canonical.tree.entries := by
  rw [TreeRow.entries, List.mem_insertionSort]

omit [Platform Id] in
theorem TreeRow.mem_dirs {row : TreeRow Id} {id : Id} :
    id ∈ row.dirs ↔ ∃ e ∈ row.canonical.tree.entries, e.kind = .dir ∧ e.object = id := by
  simp only [TreeRow.dirs, List.mem_map, List.mem_filter, mem_entries, decide_eq_true_eq,
    and_assoc]

omit [Platform Id] in
theorem TreeRow.mem_files {row : TreeRow Id} {id : Id} :
    id ∈ row.files ↔ ∃ e ∈ row.canonical.tree.entries, e.kind = .file ∧ e.object = id := by
  simp only [TreeRow.files, List.mem_map, List.mem_filter, mem_entries, decide_eq_true_eq,
    and_assoc]

theorem treeRowOf_ok {entries : List (TreeEntry Id)} {row : TreeRow Id}
    (h : treeRowOf entries = .ok row) :
    row.Wf ∧ row.canonical.tree.entries = entries.map (fun e => e.written) ∧
      entries.IsChain (fun a b => a.name < b.name) := by
  unfold treeRowOf at h
  split at h
  · cases h
  next canonical hencode =>
    cases h
    unfold Tree.encode at hencode
    simp only at hencode
    split at hencode
    · cases hencode
    next herror =>
      cases hencode
      unfold Tree.encodeError at herror
      split_ifs at herror with hchain
      have hascend : entries.IsChain (fun a b => a.name < b.name) :=
        (List.isChain_map (fun x : TreeEntry Id => x.written)).mp hchain
      have htrans : IsTrans (TreeEntry Id) fun a b => a.name < b.name :=
        ⟨fun _ _ _ hab hbc => lt_trans hab hbc⟩
      refine ⟨⟨rfl, ?_⟩, rfl, hascend⟩
      have hpairwise := List.isChain_iff_pairwise.mp hascend
      rw [List.map_map, List.Nodup, List.pairwise_map]
      exact hpairwise.imp fun hab => ne_of_lt hab

theorem Tree.validate_ok {t : Tree Id} (h : t.validate = .ok ()) :
    t.entries.Pairwise fun a b => Platform.lower Id a.name ≠ Platform.lower Id b.name := by
  unfold Tree.validate at h
  simp only at h
  split at h
  · cases h
  split at h
  · cases h
  next hfold =>
    have hpairwise := checkCaseFoldDuplicates_ok hfold
    rw [List.pairwise_map, List.pairwise_map] at hpairwise
    exact hpairwise.imp fun hab heq => hab (by rw [heq])

/-! ### Collected nodes -/

mutual

/-- The blobs of a node's files. -/
def MemNode.blobs : MemNode Id → List Id
  | .empty => []
  | .entry _ e rest => e.blobs ++ rest.blobs

def MemEntry.blobs : MemEntry Id → List Id
  | .file blob _ _ => [blob]
  | .dir child => child.blobs

end

/-- Rows that name their frames, hold their sub-directories and no other
blobs. -/
structure RowsOf (blobs : List Id) (rows : List (TreeRow Id)) : Prop where
  wf : ∀ row ∈ rows, row.Wf
  closed : ∀ row ∈ rows, ∀ d ∈ row.dirs, d ∈ rows.map (fun row => row.id)
  files : ∀ row ∈ rows, ∀ b ∈ row.files, b ∈ blobs

/-- Entries whose directories are among the rows. -/
structure EntriesOf (blobs : List Id) (rows : List (TreeRow Id)) (entries : List (TreeEntry Id)) :
    Prop where
  dirs : ∀ e ∈ entries, e.kind = .dir → e.object ∈ rows.map (fun row => row.id)
  files : ∀ e ∈ entries, e.kind = .file → e.object ∈ blobs

theorem RowsOf.mono {blobs blobs' : List Id} {rows : List (TreeRow Id)} (h : RowsOf blobs rows)
    (hsub : blobs ⊆ blobs') : RowsOf blobs' rows :=
  ⟨h.wf, h.closed, fun row hrow b hb => hsub (h.files row hrow b hb)⟩

theorem RowsOf.append {blobs : List Id} {a b : List (TreeRow Id)} (ha : RowsOf blobs a)
    (hb : RowsOf blobs b) : RowsOf blobs (a ++ b) := by
  refine ⟨fun row hrow => ?_, fun row hrow d hd => ?_, fun row hrow x hx => ?_⟩
  · rcases List.mem_append.mp hrow with hrow | hrow
    · exact ha.wf row hrow
    · exact hb.wf row hrow
  · rw [List.map_append, List.mem_append]
    rcases List.mem_append.mp hrow with hrow | hrow
    · exact .inl (ha.closed row hrow d hd)
    · exact .inr (hb.closed row hrow d hd)
  · rcases List.mem_append.mp hrow with hrow | hrow
    · exact ha.files row hrow x hx
    · exact hb.files row hrow x hx

/-- The row of a directory behind the rows of its sub-directories. -/
theorem RowsOf.snoc {blobs : List Id} {rows : List (TreeRow Id)} {entries : List (TreeEntry Id)}
    {row : TreeRow Id} (h : RowsOf blobs rows) (hentries : EntriesOf blobs rows entries)
    (hrow : treeRowOf entries = .ok row) : RowsOf blobs (rows ++ [row]) := by
  obtain ⟨hwf, hcanonical, -⟩ := treeRowOf_ok hrow
  refine ⟨fun r hr => ?_, fun r hr d hd => ?_, fun r hr b hb => ?_⟩
  · rcases List.mem_append.mp hr with hr | hr
    · exact h.wf r hr
    · exact List.mem_singleton.mp hr ▸ hwf
  · rw [List.map_append, List.mem_append]
    rcases List.mem_append.mp hr with hr | hr
    · exact .inl (h.closed r hr d hd)
    · rw [List.mem_singleton.mp hr, TreeRow.mem_dirs, hcanonical] at hd
      obtain ⟨e', he', hkind, rfl⟩ := hd
      obtain ⟨e, he, rfl⟩ := List.mem_map.mp he'
      exact .inl (hentries.dirs e he hkind)
  · rcases List.mem_append.mp hr with hr | hr
    · exact h.files r hr b hb
    · rw [List.mem_singleton.mp hr, TreeRow.mem_files, hcanonical] at hb
      obtain ⟨e', he', hkind, rfl⟩ := hb
      obtain ⟨e, he, rfl⟩ := List.mem_map.mp he'
      exact hentries.files e he hkind

mutual

theorem collectEntries_rows : (node : MemNode Id) →
    ∀ entries size rows, node.collectEntries = .ok (entries, size, rows) →
      RowsOf node.blobs rows ∧ EntriesOf node.blobs rows entries
  | .empty => by
      intro entries size rows h
      simp only [MemNode.collectEntries, Except.ok.injEq, Prod.mk.injEq] at h
      obtain ⟨rfl, -, rfl⟩ := h
      exact ⟨⟨by simp, by simp, by simp⟩, ⟨by simp, by simp⟩⟩
  | .entry name e rest => by
      intro entries size rows h
      rw [MemNode.collectEntries, Lib.bind_eq_ok] at h
      obtain ⟨⟨first, firstSize, firstRows⟩, hfirst, h⟩ := h
      rw [Lib.bind_eq_ok] at h
      obtain ⟨⟨others, total, otherRows⟩, hothers, h⟩ := h
      simp only [pure, Except.pure, Except.ok.injEq, Prod.mk.injEq] at h
      obtain ⟨rfl, -, rfl⟩ := h
      obtain ⟨hrows, hentry⟩ := collectEntry_rows e _ _ _ _ hfirst
      obtain ⟨hrows', hentries⟩ := collectEntries_rows rest _ _ _ hothers
      have hleft : e.blobs ⊆ (MemNode.entry name e rest).blobs := by
        rw [MemNode.blobs]
        exact List.subset_append_left _ _
      have hright : rest.blobs ⊆ (MemNode.entry name e rest).blobs := by
        rw [MemNode.blobs]
        exact List.subset_append_right _ _
      refine ⟨(hrows.mono hleft).append (hrows'.mono hright), fun x hx hkind => ?_,
        fun x hx hkind => ?_⟩
      · rw [List.map_append, List.mem_append]
        rcases List.mem_cons.mp hx with rfl | hx
        · exact .inl (hentry.dirs _ List.mem_cons_self hkind)
        · exact .inr (hentries.dirs x hx hkind)
      · rcases List.mem_cons.mp hx with rfl | hx
        · exact hleft (hentry.files _ List.mem_cons_self hkind)
        · exact hright (hentries.files x hx hkind)

theorem collectEntry_rows : (e : MemEntry Id) →
    ∀ name entry size rows, e.collectEntry name = .ok (entry, size, rows) →
      RowsOf e.blobs rows ∧ EntriesOf e.blobs rows [entry]
  | .file blob fileSize exec => by
      intro name entry size rows h
      simp only [MemEntry.collectEntry, Except.ok.injEq, Prod.mk.injEq] at h
      obtain ⟨rfl, -, rfl⟩ := h
      exact ⟨⟨by simp, by simp, by simp⟩, ⟨by simp, by simp [MemEntry.blobs]⟩⟩
  | .dir child => by
      intro name entry size rows h
      rw [MemEntry.collectEntry, Lib.bind_eq_ok] at h
      obtain ⟨⟨entries, total, childRows⟩, hchild, h⟩ := h
      rw [Lib.bind_eq_ok] at h
      obtain ⟨row, hrow, h⟩ := h
      simp only [pure, Except.pure, Except.ok.injEq, Prod.mk.injEq] at h
      obtain ⟨rfl, -, rfl⟩ := h
      obtain ⟨hrows, hentries⟩ := collectEntries_rows child _ _ _ hchild
      exact ⟨hrows.snoc hentries hrow, ⟨by simp, by simp⟩⟩

end

/-- The rows of a collected node, its root among them. -/
theorem collect_rows {node : MemNode Id} {root : Id} {size : ℕ} {rows : List (TreeRow Id)}
    (h : node.collect = .ok (root, size, rows)) :
    RowsOf node.blobs rows ∧ root ∈ rows.map (fun row => row.id) := by
  rw [MemNode.collect, Lib.bind_eq_ok] at h
  obtain ⟨⟨entries, total, below⟩, hentries, h⟩ := h
  rw [Lib.bind_eq_ok] at h
  obtain ⟨row, hrow, h⟩ := h
  simp only [pure, Except.pure, Except.ok.injEq, Prod.mk.injEq] at h
  obtain ⟨rfl, -, rfl⟩ := h
  obtain ⟨hrows, hof⟩ := collectEntries_rows node _ _ _ hentries
  exact ⟨hrows.snoc hof hrow, by simp⟩

theorem RowsOf.treesClosed {blobs : List Id} {rows : List (TreeRow Id)} (h : RowsOf blobs rows) :
    TreesClosed rows :=
  fun row hrow d hd => treeGet_isSome.mpr (h.closed row hrow d hd)

end

end Naatre
