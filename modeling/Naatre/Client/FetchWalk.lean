import Naatre.Client.Fetch
import Naatre.Core.Plain
import Naatre.Server.TreeLoad
import Mathlib.Algebra.Group.Prod
import Mathlib.Algebra.Order.Group.Multiset

/-!
What the client's tree walk returns. The loop skips a directory whose tree it
has listed before; the files found and the files below the directories still
queued are together the files of the cone until it skips one. So the walk is
complete exactly when no directory it skips has files of the cone below it.
-/

namespace Naatre.Client

variable {Id : Type} [Platform Id]

/-- Files and masked paths, however often and in whatever order. -/
abbrev Tally (Id : Type) := Multiset (TreeFile Id) × Multiset Path

omit [Platform Id] in
def TreeWalk.tally (w : TreeWalk Id) : Tally Id := (↑w.files, ↑w.redacted)

def treeFile (f : Path × FileMeta Id) : TreeFile Id := ⟨f.1, f.2.blob, f.2.size, f.2.exec⟩

/-- What a walk has to return for one file of the tree. -/
def selectOne (prefixes : List Path) (redacted : List Id) (f : Path × FileMeta Id) : Tally Id :=
  if underSparse prefixes f.1 then
    if f.2.blob ∈ redacted then (0, {f.1}) else ({treeFile f}, 0)
  else 0

def select (prefixes : List Path) (redacted : List Id) (files : Files Id) : Tally Id :=
  (files.map (selectOne prefixes redacted)).sum

/-- The files of a tree that a walk over the cone returns, each at every path
where it occurs, and the masked ones. -/
structure TreeWalk.Complete (w : TreeWalk Id) (prefixes : List Path) (redacted : List Id)
    (tree : Files Id) : Prop where
  available : w.files.Perm ((tree.filter fun f =>
    underSparse prefixes f.1 && !decide (f.2.blob ∈ redacted)).map treeFile)
  masked : w.redacted.Perm ((tree.filter fun f =>
    underSparse prefixes f.1 && decide (f.2.blob ∈ redacted)).map (·.1))

theorem select_append (prefixes : List Path) (redacted : List Id) (a b : Files Id) :
    select prefixes redacted (a ++ b) = select prefixes redacted a + select prefixes redacted b := by
  rw [select, List.map_append, List.sum_append]
  rfl

theorem select_eq (prefixes : List Path) (redacted : List Id) (files : Files Id) :
    select prefixes redacted files =
      TreeWalk.tally ⟨(files.filter fun f =>
          underSparse prefixes f.1 && !decide (f.2.blob ∈ redacted)).map treeFile,
        (files.filter fun f =>
          underSparse prefixes f.1 && decide (f.2.blob ∈ redacted)).map (·.1)⟩ := by
  induction files with
  | nil => rfl
  | cons f files ih =>
      have hcons : select prefixes redacted (f :: files) =
          selectOne prefixes redacted f + select prefixes redacted files := by
        rw [select, List.map_cons, List.sum_cons]
        rfl
      rw [hcons, ih]
      by_cases hunder : underSparse prefixes f.1 = true
      · by_cases hred : f.2.blob ∈ redacted
        · simp [selectOne, TreeWalk.tally, hunder, hred]
        · simp [selectOne, TreeWalk.tally, hunder, hred]
      · simp [selectOne, TreeWalk.tally, hunder]

omit [Platform Id] in
theorem tally_file (w : TreeWalk Id) (f : TreeFile Id) :
    TreeWalk.tally { w with files := w.files ++ [f] } = w.tally + ({f}, 0) := by
  simp [TreeWalk.tally, ← Multiset.coe_add]

omit [Platform Id] in
theorem tally_masked (w : TreeWalk Id) (p : Path) :
    TreeWalk.tally { w with redacted := w.redacted ++ [p] } = w.tally + (0, {p}) := by
  simp [TreeWalk.tally, ← Multiset.coe_add]

theorem complete_iff {w : TreeWalk Id} {prefixes : List Path} {redacted : List Id}
    {files : Files Id} :
    w.Complete prefixes redacted files ↔ w.tally = select prefixes redacted files := by
  rw [select_eq, TreeWalk.tally, TreeWalk.tally, Prod.mk.injEq, Multiset.coe_eq_coe,
    Multiset.coe_eq_coe]
  exact ⟨fun h => ⟨h.available, h.masked⟩, fun h => ⟨h.1, h.2⟩⟩

theorem select_eq_zero {prefixes : List Path} {redacted : List Id} {files : Files Id} :
    select prefixes redacted files = 0 ↔ ∀ f ∈ files, underSparse prefixes f.1 = false := by
  rw [select_eq, TreeWalk.tally, Prod.mk_eq_zero, Multiset.coe_eq_zero, Multiset.coe_eq_zero,
    List.map_eq_nil_iff, List.map_eq_nil_iff, List.filter_eq_nil_iff, List.filter_eq_nil_iff]
  constructor
  · rintro ⟨hfiles, hred⟩ f hf
    by_cases hmem : f.2.blob ∈ redacted
    · simpa [hmem] using hred f hf
    · simpa [hmem] using hfiles f hf
  · intro h
    exact ⟨fun f hf => by simp [h f hf], fun f hf => by simp [h f hf]⟩

/-! ### The files still to be found -/

section Pending

variable (trees : List (TreeRow Id)) (nfc : String → String) (prefixes : List Path)
  (redacted : List Id)

/-- The files of the cone below a queued directory. -/
def below (item : List String × Id) : Tally Id :=
  match MemNode.load trees (some item.2) with
  | .ok node => select prefixes redacted (node.flattenInto item.1)
  | .error _ => 0

def pending (queue : List (List String × Id)) : Tally Id :=
  (queue.map (below trees prefixes redacted)).sum

/-- How much there is to walk. -/
noncomputable def weight (queue : List (List String × Id)) : ℕ :=
  (queue.map fun item =>
    match MemNode.load trees (some item.2) with
    | .ok node => sizeOf node
    | .error _ => 0).sum

/-- Every queued directory loads, and its files have paths of the grammar. -/
def Loads (queue : List (List String × Id)) : Prop :=
  ∀ item ∈ queue, ∃ node, MemNode.load trees (some item.2) = .ok node ∧
    ∀ f ∈ node.flattenInto item.1, f.1.validate nfc = .ok ()

variable {trees nfc prefixes redacted}

theorem pending_cons (item : List String × Id) (queue : List (List String × Id)) :
    pending trees prefixes redacted (item :: queue) =
      below trees prefixes redacted item + pending trees prefixes redacted queue := by
  rw [pending, List.map_cons, List.sum_cons]
  rfl

theorem pending_append (a b : List (List String × Id)) :
    pending trees prefixes redacted (a ++ b) =
      pending trees prefixes redacted a + pending trees prefixes redacted b := by
  rw [pending, List.map_append, List.sum_append]
  rfl

theorem weight_cons {dir : List String} {id : Id} {queue : List (List String × Id)}
    {node : MemNode Id} (h : MemNode.load trees (some id) = .ok node) :
    weight trees ((dir, id) :: queue) = sizeOf node + weight trees queue := by
  rw [weight, List.map_cons, List.sum_cons, h]
  rfl

theorem weight_append (a b : List (List String × Id)) :
    weight trees (a ++ b) = weight trees a + weight trees b := by
  rw [weight, List.map_append, List.sum_append]
  rfl

end Pending

/-- A directory outside the cone has no files in it. -/
theorem underSparse_of_below {prefixes : List Path} {full : List String} {p : Path}
    (h : descends prefixes full = false) (hp : full <+: p.components) :
    underSparse prefixes p = false := by
  rw [descends, Bool.or_eq_false_iff, List.any_eq_false] at h
  rw [underSparse, h.1, Bool.false_or, List.any_eq_false]
  intro q hq hunder
  have hcomparable := List.prefix_or_prefix_of_prefix
    (List.isPrefixOf_iff_prefix.mp hunder) hp
  have hno := h.2 q hq
  rw [Bool.or_eq_true, List.isPrefixOf_iff_prefix, List.isPrefixOf_iff_prefix] at hno
  exact hno hcomparable.symm

/-! ### One listing -/

section Listing

/-- The directories of the cone that a listing queues. -/
def childDirs (prefixes : List Path) (dir : List String) (entries : List (TreeEntry Id)) :
    List (List String × Id) :=
  (entries.filter fun e => decide (e.kind = .dir) && descends prefixes (dir ++ [e.name])).map
    fun e => (dir ++ [e.name], e.object)

omit [Platform Id] in
theorem childDirs_cons (prefixes : List Path) (dir : List String) (e : TreeEntry Id)
    (entries : List (TreeEntry Id)) :
    childDirs prefixes dir (e :: entries) =
      childDirs prefixes dir [e] ++ childDirs prefixes dir entries := by
  rw [childDirs, childDirs, childDirs, ← List.map_append, ← List.filter_append,
    List.singleton_append]

variable {trees : List (TreeRow Id)} {nfc : String → String} {prefixes : List Path}
  {redacted : List Id}

variable (prefixes) in
/-- What one entry adds to what is found and to what is queued is what lies
below it. -/
theorem visitEntry_ok {e : TreeEntry Id} {entry : MemEntry Id} {dir : List String}
    {s : WalkState Id} (hentry : EntryLoaded (loadNode trees trees.length) e entry)
    (hdirs : e.kind = .dir → e.object ∉ redacted)
    (hpaths : ∀ f ∈ entry.flattenEntry dir e.name, f.1.validate nfc = .ok ())
    (hloads : Loads trees nfc s.queue) :
    ∃ s', visitEntry nfc prefixes dir s (maskTreeEntry trees redacted e) = .ok s' ∧
      s'.visited = s.visited ∧ s'.queue = s.queue ++ childDirs prefixes dir [e] ∧
      Loads trees nfc s'.queue ∧
      s'.walk.tally + pending trees prefixes redacted s'.queue =
        s.walk.tally + pending trees prefixes redacted s.queue +
          select prefixes redacted (entry.flattenEntry dir e.name) ∧
      weight trees s'.queue ≤ weight trees s.queue + sizeOf entry := by
  cases hentry with
  | file hkind =>
      have hselect : select prefixes redacted
          ((MemEntry.file e.object e.size e.exec).flattenEntry dir e.name) =
          selectOne prefixes redacted (⟨dir, e.name⟩, ⟨e.object, e.size, e.exec⟩) := by
        simp [select, MemEntry.flattenEntry]
      have hvalid : (⟨dir, e.name⟩ : Path).validate nfc = .ok () :=
        hpaths (⟨dir, e.name⟩, ⟨e.object, e.size, e.exec⟩) List.mem_cons_self
      have hqueued : s.queue = s.queue ++ childDirs prefixes dir [e] := by
        simp [childDirs, hkind]
      rw [hselect]
      by_cases hred : e.object ∈ redacted
      · by_cases hunder : underSparse prefixes ⟨dir, e.name⟩ = true
        · refine ⟨{ s with walk.redacted := s.walk.redacted ++ [⟨dir, e.name⟩] },
            by simp [visitEntry, maskTreeEntry, hkind, hred, hunder], rfl, hqueued, hloads, ?_,
            by simp⟩
          rw [selectOne, if_pos hunder, if_pos hred, tally_masked, add_right_comm]
        · refine ⟨s, by simp [visitEntry, maskTreeEntry, hkind, hred, hunder], rfl, hqueued,
            hloads, ?_, by simp⟩
          simp [selectOne, hunder]
      · by_cases hunder : underSparse prefixes ⟨dir, e.name⟩ = true
        · refine ⟨{ s with walk.files := s.walk.files ++ [⟨⟨dir, e.name⟩, e.object, e.size, e.exec⟩] },
            by simp [visitEntry, maskTreeEntry, hkind, hred, hunder, hvalid], rfl, hqueued,
            hloads, ?_, by simp⟩
          rw [selectOne, if_pos hunder, if_neg hred, tally_file, add_right_comm]
          rfl
        · refine ⟨s, by simp [visitEntry, maskTreeEntry, hkind, hred, hunder], rfl, hqueued,
            hloads, ?_, by simp⟩
          simp [selectOne, hunder]
  | dir child hkind hchild =>
      have hload : MemNode.load trees (some e.object) = .ok child := hchild
      have hvisible := hdirs hkind
      by_cases hdescend : descends prefixes (dir ++ [e.name]) = true
      · refine ⟨{ s with
            descended := (dir ++ [e.name]) :: s.descended
            queue := s.queue ++ [(dir ++ [e.name], e.object)] },
          by simp [visitEntry, maskTreeEntry, hkind, hvisible, Path.components, hdescend], rfl,
          by simp [childDirs, hkind, hdescend], ?_, ?_, ?_⟩
        · intro item hitem
          rcases List.mem_append.mp hitem with hitem | hitem
          · exact hloads item hitem
          · rw [List.mem_singleton.mp hitem]
            exact ⟨child, hload, hpaths⟩
        · have hbelow : below trees prefixes redacted (dir ++ [e.name], e.object) =
              select prefixes redacted (child.flattenInto (dir ++ [e.name])) := by
            rw [below, hload]
          rw [pending_append, pending_cons, hbelow, MemEntry.flattenEntry, ← add_assoc]
          simp [pending]
        · rw [weight_append, weight_cons hload]
          simp [weight]
      · have hoff : descends prefixes (dir ++ [e.name]) = false := by simpa using hdescend
        refine ⟨s, by simp [visitEntry, maskTreeEntry, hkind, hvisible, Path.components, hoff],
          rfl, by simp [childDirs, hoff], hloads, ?_, by omega⟩
        have hnone : select prefixes redacted (child.flattenInto (dir ++ [e.name])) = 0 := by
          refine select_eq_zero.mpr fun f hf => underSparse_of_below hoff ?_
          exact (dirs_flattenInto child _ f hf).trans (List.prefix_append _ _)
        rw [MemEntry.flattenEntry, hnone, add_zero]

variable (prefixes) in
theorem visitEntries_ok {entries : List (TreeEntry Id)} {node : MemNode Id} {dir : List String}
    {s : WalkState Id} (hload : loadEntries (loadNode trees trees.length) entries = .ok node)
    (hdirs : ∀ e ∈ entries, e.kind = .dir → e.object ∉ redacted)
    (hpaths : ∀ f ∈ node.flattenInto dir, f.1.validate nfc = .ok ())
    (hloads : Loads trees nfc s.queue) :
    ∃ s', (entries.map (maskTreeEntry trees redacted)).foldlM (visitEntry nfc prefixes dir) s =
        .ok s' ∧
      s'.visited = s.visited ∧ s'.queue = s.queue ++ childDirs prefixes dir entries ∧
      Loads trees nfc s'.queue ∧
      s'.walk.tally + pending trees prefixes redacted s'.queue =
        s.walk.tally + pending trees prefixes redacted s.queue +
          select prefixes redacted (node.flattenInto dir) ∧
      weight trees s'.queue < weight trees s.queue + sizeOf node := by
  induction entries generalizing node s with
  | nil =>
      cases hload
      refine ⟨s, rfl, rfl, (List.append_nil _).symm, hloads, ?_, ?_⟩
      · rw [MemNode.flattenInto]
        exact (add_zero _).symm
      · rw [MemNode.empty.sizeOf_spec]
        omega
  | cons e entries ih =>
      obtain ⟨entry, rest, hentry, hrest, rfl⟩ := loadEntries_cons.mp hload
      obtain ⟨hdir, hdirs⟩ := List.forall_mem_cons.mp hdirs
      rw [MemNode.flattenInto] at hpaths ⊢
      obtain ⟨s₁, hrun₁, hvisited₁, hqueue₁, hloads₁, htally₁, hweight₁⟩ :=
        visitEntry_ok prefixes hentry hdir
          (fun f hf => hpaths f (List.mem_append_left _ hf)) hloads
      obtain ⟨s₂, hrun₂, hvisited₂, hqueue₂, hloads₂, htally₂, hweight₂⟩ := ih hrest hdirs
        (fun f hf => hpaths f (List.mem_append_right _ hf)) hloads₁
      refine ⟨s₂, ?_, hvisited₂.trans hvisited₁, ?_, hloads₂, ?_, ?_⟩
      · rw [List.map_cons, List.foldlM_cons, hrun₁]
        exact hrun₂
      · rw [hqueue₂, hqueue₁, List.append_assoc, ← childDirs_cons]
      · rw [htally₂, htally₁, select_append, add_assoc]
      · rw [MemNode.entry.sizeOf_spec]
        omega

end Listing

/-! ### The loop -/

section Loop

variable {trees : List (TreeRow Id)} {nfc : String → String} {prefixes : List Path}
  {redacted : List Id}

/-- No id of a stored tree is redacted: tombstones name blobs, and the two
hash domains are apart. -/
def BlobsOnly (redacted : List Id) : Prop := ∀ id ∈ redacted, ∀ t, id ≠ Platform.treeId t

/-- A tree that loads has a row, and its directories load. -/
theorem load_row {id : Id} {node : MemNode Id} (hload : MemNode.load trees (some id) = .ok node) :
    ∃ row, treeGet trees id = some row ∧
      loadEntries (loadNode trees trees.length) row.entries = .ok node := by
  have hnode : loadNode trees trees.length id = .ok node := hload
  cases hlen : trees.length with
  | zero => rw [hlen] at hnode; cases hnode
  | succ k =>
      rw [hlen] at hnode
      obtain ⟨row, hrow, hentries⟩ := loadNode_succ.mp hnode
      exact ⟨row, hrow, loadEntries_mono
        (fun _ _ h => loadNode_mono (fun _ _ h => h) (Nat.le_succ k) h) hentries⟩

theorem dirs_visible (hwf : TreesWf trees) (hred : BlobsOnly redacted)
    {entries : List (TreeEntry Id)} {node : MemNode Id}
    (hload : loadEntries (loadNode trees trees.length) entries = .ok node) :
    ∀ e ∈ entries, e.kind = .dir → e.object ∉ redacted := by
  induction entries generalizing node with
  | nil => exact fun e he => absurd he List.not_mem_nil
  | cons e entries ih =>
      obtain ⟨entry, rest, hentry, hrest, rfl⟩ := loadEntries_cons.mp hload
      refine List.forall_mem_cons.mpr ⟨fun hkind hmem => ?_, ih hrest⟩
      cases hentry with
      | file hfile => rw [hkind] at hfile; cases hfile
      | dir child _ hchild =>
          obtain ⟨row, hrow, -⟩ := load_row (show MemNode.load trees (some e.object) = _ from hchild)
          obtain ⟨hmemRow, hid⟩ := treeGet_some hrow
          exact hred _ hmem row.canonical (hid ▸ (hwf.rows row hmemRow).named)

/-- What a round does with its queue: the first directory is skipped when its
tree is already listed, and is listed and its directories queued otherwise. -/
inductive Turned (trees : List (TreeRow Id)) (prefixes : List Path) (s s' : WalkState Id) : Prop
  | skip {dir : List String} {id : Id} (hqueue : s.queue = (dir, id) :: s'.queue)
      (hseen : id ∈ s.visited) (hvisited : s'.visited = s.visited)
  | list {dir : List String} {id : Id} {rest : List (List String × Id)} {row : TreeRow Id}
      (hqueue : s.queue = (dir, id) :: rest) (hnew : id ∉ s.visited)
      (hrow : treeGet trees id = some row) (hvisited : s'.visited = id :: s.visited)
      (hqueue' : s'.queue = rest ++ childDirs prefixes dir row.entries)

variable (prefixes) in
/-- A tree already listed is skipped; another one is listed, and what is found
and what is queued stay the same files together. -/
theorem walkStep_ok {s : WalkState Id} {dir : List String} {id : Id}
    {rest : List (List String × Id)} (hwf : TreesWf trees) (hred : BlobsOnly redacted)
    (hqueue : s.queue = (dir, id) :: rest) (hloads : Loads trees nfc s.queue) :
    ∃ s', walkStep nfc (getTree trees redacted) prefixes s = .ok s' ∧
      Turned trees prefixes s s' ∧
      Loads trees nfc s'.queue ∧ weight trees s'.queue < weight trees s.queue ∧
      s'.walk.tally + pending trees prefixes redacted s'.queue +
          (if id ∈ s.visited then below trees prefixes redacted (dir, id) else 0) =
        s.walk.tally + pending trees prefixes redacted s.queue := by
  obtain ⟨node, hload, hpaths⟩ := hloads (dir, id) (by rw [hqueue]; exact List.mem_cons_self)
  have hrest : Loads trees nfc rest := fun item hitem =>
    hloads item (by rw [hqueue]; exact List.mem_cons_of_mem _ hitem)
  have hpos : 0 < sizeOf node := by
    cases node with
    | empty => rw [MemNode.empty.sizeOf_spec]; omega
    | entry name e rest => rw [MemNode.entry.sizeOf_spec]; omega
  simp only [walkStep, hqueue]
  rw [weight_cons hload, pending_cons]
  by_cases hseen : id ∈ s.visited
  · rw [if_pos hseen, if_pos hseen]
    refine ⟨_, rfl, .skip hqueue hseen rfl, hrest, by simpa using hpos, ?_⟩
    rw [add_assoc, add_comm (below trees prefixes redacted (dir, id))]
  · rw [if_neg hseen, if_neg hseen]
    obtain ⟨row, hrow, hentries⟩ := load_row hload
    have hlist : getTree trees redacted id =
        some (row.entries.map (maskTreeEntry trees redacted)) := by
      rw [getTree, hrow]
      rfl
    obtain ⟨s', hrun, hvisited, hqueue', hloads', htally, hweight⟩ := visitEntries_ok prefixes
      (s := { s with queue := rest, visited := id :: s.visited }) hentries
      (dirs_visible hwf hred hentries) hpaths hrest
    have hbelow : below trees prefixes redacted (dir, id) =
        select prefixes redacted (node.flattenInto dir) := by
      rw [below, hload]
    rw [hlist]
    refine ⟨s', hrun, .list hqueue hseen hrow hvisited hqueue', hloads',
      by simpa [Nat.add_comm] using hweight, ?_⟩
    rw [add_zero, htally, hbelow, add_assoc, add_comm (select prefixes redacted _)]

/-- The loop goes from one state to the next. -/
def Round (nfc : String → String) (list : Id → Option (List (TreeEntryOut Id)))
    (prefixes : List Path) (s s' : WalkState Id) : Prop :=
  s.queue ≠ [] ∧ walkStep nfc list prefixes s = .ok s'

/-- The loop is about to skip a directory with files of the cone below it. -/
def LosesFiles (trees : List (TreeRow Id)) (prefixes : List Path) (s : WalkState Id) : Prop :=
  ∃ dir id rest node, s.queue = (dir, id) :: rest ∧ id ∈ s.visited ∧
    MemNode.load trees (some id) = .ok node ∧
    ∃ f ∈ node.flattenInto dir, underSparse prefixes f.1 = true

theorem losesFiles_iff {s : WalkState Id} {dir : List String} {id : Id}
    {rest : List (List String × Id)} (hqueue : s.queue = (dir, id) :: rest)
    (hloads : Loads trees nfc s.queue) :
    LosesFiles trees prefixes s ↔
      (if id ∈ s.visited then below trees prefixes redacted (dir, id) else 0) ≠ 0 := by
  obtain ⟨node, hload, -⟩ := hloads (dir, id) (by rw [hqueue]; exact List.mem_cons_self)
  have hbelow : below trees prefixes redacted (dir, id) =
      select prefixes redacted (node.flattenInto dir) := by
    rw [below, hload]
  constructor
  · rintro ⟨dir', id', rest', node', hqueue', hseen, hload', f, hf, hunder⟩
    rw [hqueue] at hqueue'
    cases hqueue'
    rw [hload, Except.ok.injEq] at hload'
    rw [if_pos hseen, hbelow, Ne, select_eq_zero]
    intro hall
    rw [hall f (hload' ▸ hf)] at hunder
    cases hunder
  · intro hne
    by_cases hseen : id ∈ s.visited
    · rw [if_pos hseen, hbelow, Ne, select_eq_zero] at hne
      push Not at hne
      obtain ⟨f, hf, hunder⟩ := hne
      exact ⟨dir, id, rest, node, hqueue, hseen, hload, f, hf, by simpa using hunder⟩
    · rw [if_neg hseen] at hne
      exact absurd rfl hne

/-- From `s` the loop ends within `n` rounds, and what it has found then is
short of what it had to find by what it lost on the way. -/
def EndsWithin (trees : List (TreeRow Id)) (nfc : String → String) (prefixes : List Path)
    (redacted : List Id) (n : ℕ) (s : WalkState Id) : Prop :=
  ∃ t lost, (∀ fuel, n ≤ fuel →
      walkLoop nfc (getTree trees redacted) prefixes fuel s = some (.ok t)) ∧
    t.walk.tally + lost = s.walk.tally + pending trees prefixes redacted s.queue ∧
    (lost = 0 ↔ ∀ s', Relation.ReflTransGen
      (Round nfc (getTree trees redacted) prefixes) s s' → ¬ LosesFiles trees prefixes s')

theorem endsWithin_nil {s : WalkState Id} (hqueue : s.queue = []) (n : ℕ) :
    EndsWithin trees nfc prefixes redacted n s := by
  refine ⟨s, 0, fun fuel _ => ?_, by rw [hqueue]; rfl, iff_of_true rfl fun s' hreach => ?_⟩
  · cases fuel <;> simp [walkLoop, hqueue]
  · rcases Relation.ReflTransGen.cases_head hreach with rfl | ⟨s₁, ⟨hne, -⟩, -⟩
    · rintro ⟨dir, id, rest, node, hcons, -⟩
      rw [hqueue] at hcons
      cases hcons
    · exact absurd hqueue hne

omit [Platform Id] in
theorem tally_add_eq_zero {a b : Tally Id} : a + b = 0 ↔ a = 0 ∧ b = 0 := by
  obtain ⟨a₁, a₂⟩ := a
  obtain ⟨b₁, b₂⟩ := b
  have hzero : ∀ {α : Type} (x y : Multiset α), x + y = 0 ↔ x = 0 ∧ y = 0 := by
    intro α x y
    rw [← Multiset.card_eq_zero, ← Multiset.card_eq_zero, ← Multiset.card_eq_zero,
      Multiset.card_add]
    omega
  rw [Prod.mk_add_mk, Prod.mk_eq_zero, Prod.mk_eq_zero, Prod.mk_eq_zero, hzero, hzero]
  exact and_and_and_comm

theorem endsWithin_cons {s s' : WalkState Id} {n : ℕ} {here : Tally Id} (hqueue : s.queue ≠ [])
    (hstep : walkStep nfc (getTree trees redacted) prefixes s = .ok s')
    (htally : s'.walk.tally + pending trees prefixes redacted s'.queue + here =
      s.walk.tally + pending trees prefixes redacted s.queue)
    (hlose : LosesFiles trees prefixes s ↔ here ≠ 0)
    (h : EndsWithin trees nfc prefixes redacted n s') :
    EndsWithin trees nfc prefixes redacted (n + 1) s := by
  obtain ⟨t, lost, hrun, hsum, hlost⟩ := h
  refine ⟨t, lost + here, fun fuel hfuel => ?_, ?_, ?_⟩
  · obtain ⟨k, rfl⟩ : ∃ k, fuel = k + 1 := ⟨fuel - 1, by omega⟩
    rw [walkLoop, if_neg (by simpa using hqueue), hstep]
    exact hrun k (by omega)
  · rw [← add_assoc, hsum, htally]
  · rw [tally_add_eq_zero, hlost]
    constructor
    · rintro ⟨hrest, hhere⟩ x hreach
      rcases Relation.ReflTransGen.cases_head hreach with rfl | ⟨s₁, ⟨-, hfirst⟩, hreach⟩
      · exact fun hbad => hlose.mp hbad hhere
      · rw [hstep, Except.ok.injEq] at hfirst
        exact hrest x (hfirst ▸ hreach)
    · intro hall
      refine ⟨fun x hreach => hall x (.head ⟨hqueue, hstep⟩ hreach), ?_⟩
      exact not_not.mp fun hhere => hall s .refl (hlose.mpr hhere)

variable (prefixes) in
theorem endsWithin (hwf : TreesWf trees) (hred : BlobsOnly redacted) {n : ℕ} {s : WalkState Id}
    (hloads : Loads trees nfc s.queue) (hweight : weight trees s.queue ≤ n) :
    EndsWithin trees nfc prefixes redacted n s := by
  induction n generalizing s with
  | zero =>
      cases hqueue : s.queue with
      | nil => exact endsWithin_nil hqueue 0
      | cons item rest =>
          -- a queued directory weighs something
          obtain ⟨s', -, -, -, hless, -⟩ := walkStep_ok prefixes hwf hred hqueue hloads
          omega
  | succ n ih =>
      cases hqueue : s.queue with
      | nil => exact endsWithin_nil hqueue _
      | cons item rest =>
          obtain ⟨s', hstep, -, hloads', hless, htally⟩ :=
            walkStep_ok prefixes hwf hred hqueue hloads
          exact endsWithin_cons (by rw [hqueue]; exact List.cons_ne_nil _ _) hstep htally
            (losesFiles_iff hqueue hloads) (ih hloads' (by omega))

end Loop

/-! ### The walk -/

theorem validatePrefixes_ok {nfc : String → String} {prefixes : List Path}
    (h : ∀ p ∈ prefixes, p.validate nfc = .ok ()) : validatePrefixes nfc prefixes = .ok () := by
  induction prefixes with
  | nil => rfl
  | cons p prefixes ih =>
      obtain ⟨hp, hrest⟩ := List.forall_mem_cons.mp h
      rw [validatePrefixes, hp]
      exact ih hrest

end Naatre.Client
