import Mathlib.Data.List.Perm.Subperm
import Naatre.Server.TreeFiles
import Naatre.Server.TreeSteps

/-!
Loading a stored tree. The depth `load` is given always suffices, a load that
succeeds keeps its result as the store grows, and a node that was collected
loads back as itself.
-/

namespace Naatre

section

variable {Id : Type} [Platform Id]

/-! ### Entries -/

/-- What one entry loads as. -/
inductive EntryLoaded (load : Id → Except (DeriveError Id) (MemNode Id)) (e : TreeEntry Id) :
    MemEntry Id → Prop
  | file (hkind : e.kind = .file) : EntryLoaded load e (.file e.object e.size e.exec)
  | dir (child : MemNode Id) (hkind : e.kind = .dir) (hchild : load e.object = .ok child) :
      EntryLoaded load e (.dir child)

omit [Platform Id] in
theorem loadEntries_cons {load : Id → Except (DeriveError Id) (MemNode Id)} {e : TreeEntry Id}
    {es : List (TreeEntry Id)} {node : MemNode Id} :
    loadEntries load (e :: es) = .ok node ↔
      ∃ entry rest, EntryLoaded load e entry ∧ loadEntries load es = .ok rest ∧
        node = .entry e.name entry rest := by
  have hrest : ∀ entry, (loadEntries load es >>= fun rest =>
      (pure (.entry e.name entry rest) : Except (DeriveError Id) (MemNode Id))) = .ok node ↔
      ∃ rest, loadEntries load es = .ok rest ∧ node = .entry e.name entry rest := by
    intro entry
    rw [Lib.bind_eq_ok]
    simp only [pure, Except.pure, Except.ok.injEq, eq_comm]
  rw [loadEntries]
  match hkind : e.kind with
  | .file =>
      simp only [pure_bind, hrest]
      constructor
      · rintro ⟨rest, hload, hnode⟩
        exact ⟨_, rest, .file hkind, hload, hnode⟩
      · rintro ⟨entry, rest, hentry, hload, hnode⟩
        cases hentry with
        | file => exact ⟨rest, hload, hnode⟩
        | dir child hdir => rw [hkind] at hdir; cases hdir
  | .dir =>
      rw [Lib.bind_eq_ok]
      simp only [hrest, Lib.map_eq_ok]
      constructor
      · rintro ⟨entry, ⟨child, hchild, rfl⟩, rest, hload, hnode⟩
        exact ⟨_, rest, .dir child hkind hchild, hload, hnode⟩
      · rintro ⟨entry, rest, hentry, hload, hnode⟩
        cases hentry with
        | file hfile => rw [hkind] at hfile; cases hfile
        | dir child _ hchild => exact ⟨_, ⟨child, hchild, rfl⟩, rest, hload, hnode⟩

omit [Platform Id] in
theorem EntryLoaded.mono {load load' : Id → Except (DeriveError Id) (MemNode Id)}
    (hload : ∀ id node, load id = .ok node → load' id = .ok node) {e : TreeEntry Id}
    {entry : MemEntry Id} (h : EntryLoaded load e entry) : EntryLoaded load' e entry := by
  cases h with
  | file hkind => exact .file hkind
  | dir child hkind hchild => exact .dir child hkind (hload _ _ hchild)

/-! ### Depth -/

omit [Platform Id] in
/-- A loader that succeeds more often loads the same. -/
theorem loadEntries_mono {load load' : Id → Except (DeriveError Id) (MemNode Id)}
    (hload : ∀ id node, load id = .ok node → load' id = .ok node) {es : List (TreeEntry Id)}
    {node : MemNode Id} (h : loadEntries load es = .ok node) : loadEntries load' es = .ok node := by
  induction es generalizing node with
  | nil => exact h
  | cons e es ih =>
      obtain ⟨entry, rest, hentry, hrest, rfl⟩ := loadEntries_cons.mp h
      exact loadEntries_cons.mpr ⟨entry, rest, hentry.mono hload, ih hrest, rfl⟩

theorem loadNode_succ {trees : List (TreeRow Id)} {k : ℕ} {id : Id} {node : MemNode Id} :
    loadNode trees (k + 1) id = .ok node ↔
      ∃ row, treeGet trees id = some row ∧ loadEntries (loadNode trees k) row.entries = .ok node := by
  rw [loadNode]
  cases hrow : treeGet trees id with
  | none => simp
  | some row => simp

/-- More depth and a store that finds more load the same. -/
theorem loadNode_mono {trees trees' : List (TreeRow Id)}
    (hget : ∀ id row, treeGet trees id = some row → treeGet trees' id = some row) {k k' : ℕ}
    (hk : k ≤ k') {id : Id} {node : MemNode Id} (h : loadNode trees k id = .ok node) :
    loadNode trees' k' id = .ok node := by
  induction k generalizing k' id node with
  | zero => simp [loadNode] at h
  | succ k ih =>
      obtain ⟨j, rfl⟩ : ∃ j, k' = j + 1 := ⟨k' - 1, by omega⟩
      obtain ⟨row, hrow, hentries⟩ := loadNode_succ.mp h
      refine loadNode_succ.mpr ⟨row, hget id row hrow, ?_⟩
      exact loadEntries_mono (fun c child hchild => ih (by omega) hchild) hentries

/-- A tree that needs `k + 1` levels lies above one that needs `k`: there are
`k + 1` stored trees, each of a depth of its own. -/
theorem loadNode_chain {trees : List (TreeRow Id)} {k : ℕ} {id : Id} {node : MemNode Id}
    (h : loadNode trees (k + 1) id = .ok node) (hneed : ∀ n, loadNode trees k id ≠ .ok n) :
    ∃ ids : List Id, ids.length = k + 1 ∧ ids.Nodup ∧
      (∀ x ∈ ids, x ∈ trees.map (fun row => row.id)) ∧
      ∀ x ∈ ids, ∃ n, loadNode trees (k + 1) x = .ok n := by
  induction k generalizing id node with
  | zero =>
      obtain ⟨row, hrow, -⟩ := loadNode_succ.mp h
      have hstored : id ∈ trees.map (fun row => row.id) := treeGet_isSome.mp (by simp [hrow])
      exact ⟨[id], rfl, List.nodup_singleton id, by simpa using hstored, by simp [h]⟩
  | succ k ih =>
      obtain ⟨row, hrow, hentries⟩ := loadNode_succ.mp h
      have hbelow : ∃ c child, loadNode trees (k + 1) c = .ok child ∧
          ∀ n, loadNode trees k c ≠ .ok n := by
        by_contra hno
        push Not at hno
        refine hneed node (loadNode_succ.mpr ⟨row, hrow, loadEntries_mono ?_ hentries⟩)
        intro c child hchild
        obtain ⟨n, hn⟩ := hno c child hchild
        have hsame := loadNode_mono (fun _ _ h => h) (Nat.le_succ k) hn
        rw [hchild, Except.ok.injEq] at hsame
        rw [hn, hsame]
      obtain ⟨c, child, hchild, hchildNeed⟩ := hbelow
      obtain ⟨ids, hlength, hnodup, hstored, hloads⟩ := ih hchild hchildNeed
      have hfresh : id ∉ ids := fun hmem => by
        obtain ⟨n, hn⟩ := hloads id hmem
        exact hneed n hn
      refine ⟨id :: ids, by rw [List.length_cons, hlength], List.nodup_cons.mpr ⟨hfresh, hnodup⟩,
        fun x hx => ?_, fun x hx => ?_⟩
      · rcases List.mem_cons.mp hx with rfl | hx
        · exact treeGet_isSome.mp (by simp [hrow])
        · exact hstored x hx
      · rcases List.mem_cons.mp hx with rfl | hx
        · exact ⟨node, h⟩
        · obtain ⟨n, hn⟩ := hloads x hx
          exact ⟨n, loadNode_mono (fun _ _ h => h) (Nat.le_succ _) hn⟩

/-- A tree that loads at all loads within as many levels as there are rows. -/
theorem loadNode_fuel {trees : List (TreeRow Id)} {k : ℕ} {id : Id} {node : MemNode Id}
    (h : loadNode trees k id = .ok node) : loadNode trees trees.length id = .ok node := by
  classical
  have hexists : ∃ k n, loadNode trees k id = .ok n := ⟨k, node, h⟩
  obtain ⟨n, hn⟩ := Nat.find_spec hexists
  have hmin : ∀ j, j < Nat.find hexists → ∀ n, loadNode trees j id ≠ .ok n := fun j hj n hn =>
    Nat.find_min hexists hj ⟨n, hn⟩
  have hle : Nat.find hexists ≤ trees.length := by
    generalize Nat.find hexists = least at hn hmin
    match least with
    | 0 => omega
    | j + 1 =>
        obtain ⟨ids, hlength, hnodup, hstored, -⟩ := loadNode_chain hn (hmin j (by omega))
        have hcount := (hnodup.subperm hstored).length_le
        rw [hlength, List.length_map] at hcount
        exact hcount
  have hloaded := loadNode_mono (fun _ _ h => h) hle hn
  have hsame := loadNode_mono (fun _ _ h => h) (Nat.find_min' hexists ⟨node, h⟩) hn
  rw [h, Except.ok.injEq] at hsame
  rw [hloaded, hsame]

theorem treeInsert_length (trees : List (TreeRow Id)) (row : TreeRow Id) :
    trees.length ≤ (treeInsert trees row).length := by
  unfold treeInsert
  split_ifs
  · exact le_rfl
  · simp

theorem treesInsert_length (trees rows : List (TreeRow Id)) :
    trees.length ≤ (treesInsert trees rows).length := by
  induction rows generalizing trees with
  | nil => exact le_rfl
  | cons row rows ih => exact (treeInsert_length trees row).trans (ih _)

/-- A tree that loads keeps its files as the store grows. -/
theorem TreesGrow.load {a b : List (TreeRow Id)} (h : TreesGrow a b) {root : Option Id}
    {node : MemNode Id} (hload : MemNode.load a root = .ok node) :
    MemNode.load b root = .ok node := by
  cases root with
  | none => exact hload
  | some id =>
      have hlength : a.length ≤ b.length := by
        obtain ⟨rows, -, -, rfl⟩ := h
        exact treesInsert_length a rows
      exact loadNode_mono (fun _ _ hrow => h.get hrow) hlength hload

/-! ### Round trip -/

/-- The listing a row is loaded from is the one it was made of. -/
theorem treeRowOf_entries {entries : List (TreeEntry Id)} {row : TreeRow Id}
    (h : treeRowOf entries = .ok row) (hwritten : ∀ e ∈ entries, e.written = e) :
    row.entries = entries := by
  obtain ⟨-, hcanonical, hchain⟩ := treeRowOf_ok h
  have hsame : entries.map (fun e => e.written) = entries := by
    refine (List.map_congr_left hwritten).trans (List.map_id _)
  rw [TreeRow.entries, hcanonical, hsame]
  refine List.Pairwise.insertionSort_eq ?_
  have htrans : IsTrans (TreeEntry Id) fun a b => a.name < b.name :=
    ⟨fun _ _ _ hab hbc => lt_trans hab hbc⟩
  have hpairwise : entries.Pairwise fun a b => a.name < b.name :=
    List.isChain_iff_pairwise.mp hchain
  exact hpairwise.imp fun hab => le_of_lt hab

mutual

theorem loadEntries_collect {store : List (TreeRow Id)} : (node : MemNode Id) →
    ∀ entries size rows, node.collectEntries = .ok (entries, size, rows) →
      (∀ row ∈ rows, treeGet store row.id = some row) →
      (∀ e ∈ entries, e.written = e) ∧ ∃ k, loadEntries (loadNode store k) entries = .ok node
  | .empty => by
      intro entries size rows h _
      simp only [MemNode.collectEntries, Except.ok.injEq, Prod.mk.injEq] at h
      obtain ⟨rfl, -, -⟩ := h
      exact ⟨by simp, 0, rfl⟩
  | .entry name e rest => by
      intro entries size rows h hstore
      rw [MemNode.collectEntries, Lib.bind_eq_ok] at h
      obtain ⟨⟨first, firstSize, firstRows⟩, hfirst, h⟩ := h
      rw [Lib.bind_eq_ok] at h
      obtain ⟨⟨others, total, otherRows⟩, hothers, h⟩ := h
      simp only [pure, Except.pure, Except.ok.injEq, Prod.mk.injEq] at h
      obtain ⟨rfl, -, rfl⟩ := h
      obtain ⟨hwritten, hname, k, hload⟩ := entryLoaded_collect e _ _ _ _ hfirst
        fun row hrow => hstore row (List.mem_append_left _ hrow)
      obtain ⟨hwritten', k', hloads⟩ := loadEntries_collect rest _ _ _ hothers
        fun row hrow => hstore row (List.mem_append_right _ hrow)
      have hdeep : ∀ j, j ≤ max k k' → ∀ id node, loadNode store j id = .ok node →
          loadNode store (max k k') id = .ok node :=
        fun j hj id node => loadNode_mono (fun _ _ h => h) hj
      refine ⟨fun x hx => ?_, max k k', ?_⟩
      · rcases List.mem_cons.mp hx with rfl | hx
        · exact hwritten
        · exact hwritten' x hx
      · refine loadEntries_cons.mpr ⟨e, rest, hload.mono (hdeep k (le_max_left _ _)), ?_, by rw [hname]⟩
        exact loadEntries_mono (hdeep k' (le_max_right _ _)) hloads

theorem entryLoaded_collect {store : List (TreeRow Id)} : (e : MemEntry Id) →
    ∀ name entry size rows, e.collectEntry name = .ok (entry, size, rows) →
      (∀ row ∈ rows, treeGet store row.id = some row) →
      entry.written = entry ∧ entry.name = name ∧ ∃ k, EntryLoaded (loadNode store k) entry e
  | .file blob fileSize exec => by
      intro name entry size rows h _
      simp only [MemEntry.collectEntry, Except.ok.injEq, Prod.mk.injEq] at h
      obtain ⟨rfl, -, -⟩ := h
      exact ⟨by simp [TreeEntry.written], rfl, 0, .file rfl⟩
  | .dir child => by
      intro name entry size rows h hstore
      rw [MemEntry.collectEntry, Lib.bind_eq_ok] at h
      obtain ⟨⟨entries, total, childRows⟩, hchild, h⟩ := h
      rw [Lib.bind_eq_ok] at h
      obtain ⟨row, hrow, h⟩ := h
      simp only [pure, Except.pure, Except.ok.injEq, Prod.mk.injEq] at h
      obtain ⟨rfl, -, rfl⟩ := h
      obtain ⟨hwritten, k, hload⟩ := loadEntries_collect child _ _ _ hchild
        fun r hr => hstore r (List.mem_append_left _ hr)
      have hget := hstore row (by simp)
      have hnode : loadNode store (k + 1) row.id = .ok child :=
        loadNode_succ.mpr ⟨row, hget, by rw [treeRowOf_entries hrow hwritten, hload]⟩
      exact ⟨by simp [TreeEntry.written], rfl, k + 1, .dir child rfl hnode⟩

end

/-- A collected node loads back as itself from every store that holds its
rows. -/
theorem load_collect {node : MemNode Id} {root : Id} {size : ℕ} {rows trees : List (TreeRow Id)}
    (h : node.collect = .ok (root, size, rows)) (hwf : TreesWf trees) :
    MemNode.load (treesInsert trees rows) (some root) = .ok node := by
  have hrowsWf := (collect_rows h).1.wf
  rw [MemNode.collect, Lib.bind_eq_ok] at h
  obtain ⟨⟨entries, total, below⟩, hentries, h⟩ := h
  rw [Lib.bind_eq_ok] at h
  obtain ⟨row, hrow, h⟩ := h
  simp only [pure, Except.pure, Except.ok.injEq, Prod.mk.injEq] at h
  obtain ⟨rfl, -, rfl⟩ := h
  have hstore : ∀ r ∈ below ++ [row], treeGet (treesInsert trees (below ++ [row])) r.id = some r :=
    fun r hr => hwf.get_inserted hrowsWf hr
  obtain ⟨hwritten, k, hload⟩ := loadEntries_collect node _ _ _ hentries
    fun r hr => hstore r (List.mem_append_left _ hr)
  have hnode : loadNode (treesInsert trees (below ++ [row])) (k + 1) row.id = .ok node :=
    loadNode_succ.mpr ⟨row, hstore row (by simp), by rw [treeRowOf_entries hrow hwritten, hload]⟩
  exact loadNode_fuel hnode

/-! ### Order -/

omit [Platform Id] in
theorem TreeRow.entries_ascend {row : TreeRow Id}
    (hdistinct : (row.canonical.tree.entries.map (fun e => e.name)).Nodup) :
    row.entries.Pairwise fun a b => a.name < b.name := by
  have htotal : Std.Total (fun a b : TreeEntry Id => a.name ≤ b.name) :=
    ⟨fun a b => le_total a.name b.name⟩
  have htrans : IsTrans (TreeEntry Id) fun a b => a.name ≤ b.name :=
    ⟨fun _ _ _ hab hbc => le_trans hab hbc⟩
  have hsorted : row.entries.Pairwise fun a b => a.name ≤ b.name :=
    List.pairwise_insertionSort _ _
  have hperm : row.entries.Perm row.canonical.tree.entries := List.perm_insertionSort _ _
  have hnames : row.entries.Pairwise fun a b => a.name ≠ b.name := by
    have hnodup := (hperm.map (fun e => e.name)).nodup_iff.mpr hdistinct
    rwa [List.Nodup, List.pairwise_map] at hnodup
  exact hsorted.imp₂ (fun _ _ hle hne => lt_of_le_of_ne hle hne) hnames

omit [Platform Id] in
theorem loadEntries_sorted {load : Id → Except (DeriveError Id) (MemNode Id)}
    (hload : ∀ id node, load id = .ok node → node.Sorted) {es : List (TreeEntry Id)}
    (hascend : es.Pairwise fun a b => a.name < b.name) {node : MemNode Id}
    (h : loadEntries load es = .ok node) :
    node.Sorted ∧ ∀ a, (∀ e ∈ es, a < e.name) → node.After a := by
  induction es generalizing node with
  | nil =>
      obtain rfl := Except.ok.inj h
      exact ⟨trivial, fun _ _ => trivial⟩
  | cons e es ih =>
      obtain ⟨entry, rest, hentry, hrest, rfl⟩ := loadEntries_cons.mp h
      obtain ⟨hfirst, hothers⟩ := List.pairwise_cons.mp hascend
      obtain ⟨hsorted, hafter⟩ := ih hothers hrest
      have hentrySorted : entry.Sorted := by
        cases hentry with
        | file => trivial
        | dir child _ hchild => exact hload _ _ hchild
      exact ⟨⟨hafter e.name hfirst, hentrySorted, hsorted⟩, fun a ha => ha e List.mem_cons_self⟩

/-- What a well-formed store loads lists its names in order. -/
theorem load_sorted {trees : List (TreeRow Id)} (hwf : TreesWf trees) {root : Option Id}
    {node : MemNode Id} (h : MemNode.load trees root = .ok node) : node.Sorted := by
  have hnode : ∀ k id node, loadNode trees k id = .ok node → node.Sorted := by
    intro k
    induction k with
    | zero => exact fun id node h => absurd h (by simp [loadNode])
    | succ k ih =>
        intro id node h
        obtain ⟨row, hrow, hentries⟩ := loadNode_succ.mp h
        have hdistinct := (hwf.rows row (treeGet_some hrow).1).distinct
        exact (loadEntries_sorted ih (TreeRow.entries_ascend hdistinct) hentries).1
  cases root with
  | none =>
      obtain rfl := Except.ok.inj h
      trivial
  | some id => exact hnode _ id node h

end

end Naatre
