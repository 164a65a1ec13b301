import Naatre.Core.Plain
import Naatre.Server.Access
import Naatre.Server.ClosureWalk

/-!
The scope gate of a snapshot post (`violation_in_closure` and
`closure_first_file` of `routes/snapshots.rs`), loop by loop: explicit stacks
and a memo of the trees already asked for a file. Each loop settles on what the
recursion over the closure answers, and the recursion is exact: a path comes
out only where a file of the expanded closure lies outside the scope.
-/

namespace Naatre

section

variable {Id : Type} [Platform Id]

/-! ### The files of the expanded closure -/

/-- `path` is a file of the directory at `id`, relative to it. A tree that is
mounted at several names counts under each of them. -/
inductive FileBelow (trees : List (TreeRow Id)) : Id → String → Prop
  | file {id : Id} {row : TreeRow Id} {e : TreeEntry Id} (hrow : treeGet trees id = some row)
      (he : e ∈ row.canonical.tree.entries) (hkind : e.kind = .file) : FileBelow trees id e.name
  | dir {id : Id} {row : TreeRow Id} {e : TreeEntry Id} {path : String}
      (hrow : treeGet trees id = some row) (he : e ∈ row.canonical.tree.entries)
      (hkind : e.kind = .dir) (hpath : FileBelow trees e.object path) :
      FileBelow trees id (e.name ++ "/" ++ path)

theorem treeChild_of_mem {trees : List (TreeRow Id)} {id : Id} {row : TreeRow Id}
    {e : TreeEntry Id} (hrow : treeGet trees id = some row)
    (he : e ∈ row.canonical.tree.entries) (hkind : e.kind = .dir) : TreeChild trees id e.object := by
  rw [TreeChild, childTrees, hrow, Option.map_some, Option.getD_some, TreeRow.dirs, List.mem_map]
  refine ⟨e, List.mem_filter.mpr ⟨?_, decide_eq_true hkind⟩, rfl⟩
  rwa [TreeRow.entries, List.mem_insertionSort]

theorem mem_ids_of_treeChild {trees : List (TreeRow Id)} (x y : Id) (h : TreeChild trees x y) :
    x ∈ trees.map (fun row => row.id) := by
  rw [← treeGet_isSome]
  cases hget : treeGet trees x with
  | none =>
      rw [TreeChild, childTrees, hget] at h
      cases h
  | some row => rfl

theorem treeGet_of_not_mem {trees : List (TreeRow Id)} {id : Id}
    (h : id ∉ trees.map (fun row => row.id)) : treeGet trees id = none := by
  rwa [← treeGet_isSome, Bool.not_eq_true, Option.isSome_eq_false_iff, Option.isNone_iff_eq_none]
    at h

/-! ### The first file of a subtree -/

/-- The first file among `entries`, the subtrees answered by `first`. -/
def firstAmong (first : Id → Option String) (entries : List (TreeEntry Id)) : Option String :=
  entries.findSome? fun e =>
    match e.kind with
    | .file => some e.name
    | .dir => (first e.object).map (e.name ++ "/" ++ ·)

omit [Platform Id] in
theorem firstAmong_congr {first first' : Id → Option String} {entries : List (TreeEntry Id)}
    (h : ∀ e ∈ entries, e.kind = .dir → first e.object = first' e.object) :
    firstAmong first entries = firstAmong first' entries := by
  induction entries with
  | nil => rfl
  | cons e entries ih =>
      rw [firstAmong, firstAmong, List.findSome?_cons, List.findSome?_cons]
      have hrest := ih fun e' he' => h e' (List.mem_cons_of_mem _ he')
      rw [firstAmong, firstAmong] at hrest
      cases hkind : e.kind with
      | file => rfl
      | dir => simp only [h e List.mem_cons_self hkind, hrest]

/-- What `closure_first_file` answers, the fuel of the recursion at the number
of trees. -/
def firstFile (trees : List (TreeRow Id)) (id : Id) : Option String :=
  closureFirstFile trees trees.length id

theorem firstFile_eq {trees : List (TreeRow Id)} (hacyclic : Lib.Acyclic (TreeChild trees))
    (id : Id) : firstFile trees id =
      (treeGet trees id).bind fun row =>
        firstAmong (firstFile trees) row.canonical.tree.entries := by
  refine hacyclic.fuel_eq mem_ids_of_treeChild
    (F := fun first id => (treeGet trees id).bind fun row =>
      firstAmong first row.canonical.tree.entries) ?_ ?_ ?_ (by rw [List.length_map]) id
  · intro n x
    rw [closureFirstFile]
    cases treeGet trees x <;> rfl
  · intro g g' x h
    cases hrow : treeGet trees x with
    | none => rfl
    | some row => exact firstAmong_congr fun e he hkind => h _ (treeChild_of_mem hrow he hkind)
  · intro g x hx
    rw [treeGet_of_not_mem hx, closureFirstFile, Option.bind_none]

/-- The first file is one, and there is none only where there is no file. -/
theorem firstFile_spec {trees : List (TreeRow Id)} (hacyclic : Lib.Acyclic (TreeChild trees))
    (id : Id) :
    (∀ path, firstFile trees id = some path → FileBelow trees id path) ∧
      (firstFile trees id = none → ∀ path, ¬ FileBelow trees id path) := by
  refine hacyclic.induct (P := fun id => (∀ path, firstFile trees id = some path →
    FileBelow trees id path) ∧ (firstFile trees id = none → ∀ path, ¬ FileBelow trees id path))
    mem_ids_of_treeChild (fun id ih => ?_) id
  rw [firstFile_eq hacyclic]
  constructor
  · intro path hpath
    obtain ⟨row, hrow, hpath⟩ := Option.bind_eq_some_iff.mp hpath
    obtain ⟨e, he, hpath⟩ := List.exists_of_findSome?_eq_some hpath
    cases hkind : e.kind with
    | file =>
        simp only [hkind, Option.some.injEq] at hpath
        exact hpath ▸ .file hrow he hkind
    | dir =>
        simp only [hkind, Option.map_eq_some_iff] at hpath
        obtain ⟨rel, hrel, rfl⟩ := hpath
        exact .dir hrow he hkind ((ih _ (treeChild_of_mem hrow he hkind)).1 rel hrel)
  · intro hnone path hpath
    cases hpath with
    | file hrow he hkind =>
        rw [hrow, Option.bind_some, firstAmong, List.findSome?_eq_none_iff] at hnone
        simpa [hkind] using hnone _ he
    | @dir _ row e path hrow he hkind hpath =>
        rw [hrow, Option.bind_some, firstAmong, List.findSome?_eq_none_iff] at hnone
        have hchild := hnone e he
        simp only [hkind, Option.map_eq_none_iff] at hchild
        exact (ih _ (treeChild_of_mem hrow he hkind)).2 hchild _ hpath

/-! ### `closure_first_file`, with its memo -/

/-- The verdicts so far, the newest first: an insert hides the older one. -/
abbrev FileMemo (Id : Type) := List (Id × Option String)

def memoGet (memo : FileMemo Id) (id : Id) : Option (Option String) :=
  (memo.find? (fun entry => decide (entry.1 = id))).map (fun entry => entry.2)

theorem memoGet_cons (entry : Id × Option String) (memo : FileMemo Id) (id : Id) :
    memoGet (entry :: memo) id = if entry.1 = id then some entry.2 else memoGet memo id := by
  rw [memoGet, List.find?_cons]
  by_cases h : entry.1 = id <;> simp [h, memoGet]

/-- `Frame` of `closure_first_file`; a scan keeps the entries from its index
on. -/
inductive FileFrame (Id : Type) where
  | enter (id : Id)
  | scan (tree : Id) (entries : List (TreeEntry Id))

/-- How the inner loop over the entries ends. -/
inductive ScanEnd (Id : Type) where
  | verdict (found : Option String)
  | descend (child : Id) (parked : List (TreeEntry Id))

def scanEntries (memo : FileMemo Id) : List (TreeEntry Id) → ScanEnd Id
  | [] => .verdict none
  | e :: rest =>
      match e.kind with
      | .file => .verdict (some e.name)
      | .dir =>
          match memoGet memo e.object with
          | some (some rel) => .verdict (some (e.name ++ "/" ++ rel))
          | some none => scanEntries memo rest
          | none => .descend e.object (e :: rest)

/-- The loop of `closure_first_file`. -/
def firstFileLoop (trees : List (TreeRow Id)) :
    ℕ → List (FileFrame Id) → FileMemo Id → Option (FileMemo Id)
  | 0, _, _ => none
  | _ + 1, [], memo => some memo
  | fuel + 1, .enter id :: stack, memo =>
      if (memoGet memo id).isSome then firstFileLoop trees fuel stack memo
      else match treeGet trees id with
        | none => firstFileLoop trees fuel stack ((id, none) :: memo)
        | some row =>
            -- provisional; the scan finalizes it
            firstFileLoop trees fuel (.scan id row.canonical.tree.entries :: stack)
              ((id, none) :: memo)
  | fuel + 1, .scan tree entries :: stack, memo =>
      match scanEntries memo entries with
      | .descend child parked =>
          firstFileLoop trees fuel (.enter child :: .scan tree parked :: stack) memo
      | .verdict found => firstFileLoop trees fuel stack ((tree, found) :: memo)

/-- `closure_first_file`: its answer and the memo it leaves. -/
def memoFirstFile (trees : List (TreeRow Id)) (fuel : ℕ) (memo : FileMemo Id) (root : Id) :
    Option (Option String × FileMemo Id) :=
  (firstFileLoop trees fuel [.enter root] memo).map fun memo => ((memoGet memo root).join, memo)

/-- Every verdict is final, except those of the trees still being scanned. -/
def MemoSound (trees : List (TreeRow Id)) (pending : List Id) (memo : FileMemo Id) : Prop :=
  ∀ id found, memoGet memo id = some found → id ∈ pending ∨ found = firstFile trees id

/-- From `stack` the loop gets to `rest`, with the memo `memo'`. -/
def LoopsTo (trees : List (TreeRow Id)) (stack : List (FileFrame Id)) (memo : FileMemo Id)
    (rest : List (FileFrame Id)) (memo' : FileMemo Id) : Prop :=
  ∀ out, Lib.Settles (fun fuel => firstFileLoop trees fuel rest memo') out →
    Lib.Settles (fun fuel => firstFileLoop trees fuel stack memo) out

theorem LoopsTo.step {trees : List (TreeRow Id)} {stack rest : List (FileFrame Id)}
    {memo memo' : FileMemo Id}
    (h : ∀ fuel, firstFileLoop trees (fuel + 1) stack memo = firstFileLoop trees fuel rest memo') :
    LoopsTo trees stack memo rest memo' := fun _ hout => .step h hout

theorem LoopsTo.trans {trees : List (TreeRow Id)} {a b c : List (FileFrame Id)}
    {memo memo' memo'' : FileMemo Id} (hab : LoopsTo trees a memo b memo')
    (hbc : LoopsTo trees b memo' c memo'') : LoopsTo trees a memo c memo'' :=
  fun out hout => hab out (hbc out hout)

/-- A finished tree adds its verdict. -/
theorem MemoSound.finish {trees : List (TreeRow Id)} {pending : List Id} {memo : FileMemo Id}
    {id : Id} (h : MemoSound trees (id :: pending) memo) :
    MemoSound trees pending ((id, firstFile trees id) :: memo) := by
  intro x found hfound
  rw [memoGet_cons] at hfound
  split_ifs at hfound with hid
  · exact .inr (by rw [← hid, ← Option.some.inj hfound])
  · rcases h x found hfound with hmem | hfinal
    · exact .inl ((List.mem_cons.mp hmem).resolve_left fun heq => hid heq.symm)
    · exact .inr hfinal

/-- A tree entered has a provisional verdict. -/
theorem MemoSound.enter {trees : List (TreeRow Id)} {pending : List Id} {memo : FileMemo Id}
    (h : MemoSound trees pending memo) (id : Id) :
    MemoSound trees (id :: pending) ((id, none) :: memo) := by
  intro x found hfound
  rw [memoGet_cons] at hfound
  split_ifs at hfound with hid
  · exact .inl (List.mem_cons.mpr (.inl hid.symm))
  · exact (h x found hfound).imp_left (List.mem_cons_of_mem id)

/-- Entering a tree that leads to none of the pending ones settles its verdict
for good. -/
def Enters (trees : List (TreeRow Id)) (id : Id) : Prop :=
  ∀ pending memo stack, MemoSound trees pending memo →
    (∀ p ∈ pending, ¬ Relation.ReflTransGen (TreeChild trees) id p) →
    ∃ memo', MemoSound trees pending memo' ∧ memoGet memo' id = some (firstFile trees id) ∧
      LoopsTo trees (.enter id :: stack) memo stack memo'

/-- The scan of a tree from any of its entries on. -/
theorem scan_settles {trees : List (TreeRow Id)} {id : Id} {pending : List Id}
    (stack : List (FileFrame Id)) (hacyclic : Lib.Acyclic (TreeChild trees))
    (hpending : ∀ p ∈ pending, ¬ Relation.ReflTransGen (TreeChild trees) id p)
    (henters : ∀ child, TreeChild trees id child → Enters trees child)
    {entries : List (TreeEntry Id)}
    (hentries : ∀ e ∈ entries, e.kind = .dir → TreeChild trees id e.object) {memo : FileMemo Id}
    (hmemo : MemoSound trees (id :: pending) memo) :
    ∃ memo', MemoSound trees (id :: pending) memo' ∧
      LoopsTo trees (.scan id entries :: stack) memo stack
        ((id, firstAmong (firstFile trees) entries) :: memo') := by
  induction entries generalizing memo with
  | nil => exact ⟨memo, hmemo, .step fun _ => rfl⟩
  | cons e rest ih =>
      cases hkind : e.kind with
      | file =>
          refine ⟨memo, hmemo, .step fun _ => ?_⟩
          simp only [firstFileLoop, scanEntries, hkind, firstAmong, List.findSome?_cons]
      | dir =>
          have hchild := hentries e List.mem_cons_self hkind
          have hout : ∀ p ∈ id :: pending, ¬ Relation.ReflTransGen (TreeChild trees) e.object p := by
            intro p hp hpath
            rcases List.mem_cons.mp hp with rfl | hp
            · exact hacyclic p (.head' hchild hpath)
            · exact hpending p hp (.head hchild hpath)
          -- once the child's verdict is in the memo, it is the final one
          have hhit : ∀ memo found, MemoSound trees (id :: pending) memo →
              memoGet memo e.object = some found →
              ∃ memo', MemoSound trees (id :: pending) memo' ∧
                LoopsTo trees (.scan id (e :: rest) :: stack) memo stack
                  ((id, firstAmong (firstFile trees) (e :: rest)) :: memo') := by
            intro memo found hmemo hget
            have hfinal : found = firstFile trees e.object :=
              (hmemo _ _ hget).resolve_left fun hmem => hout _ hmem .refl
            subst hfinal
            cases hfirst : firstFile trees e.object with
            | some rel =>
                rw [hfirst] at hget
                refine ⟨memo, hmemo, .step fun _ => ?_⟩
                simp only [firstFileLoop, scanEntries, hkind, hget, firstAmong,
                  List.findSome?_cons, hfirst, Option.map_some]
            | none =>
                rw [hfirst] at hget
                obtain ⟨memo', hmemo', hloop⟩ :=
                  ih (fun e' he' => hentries e' (List.mem_cons_of_mem _ he')) hmemo
                have hscan : scanEntries memo (e :: rest) = scanEntries memo rest := by
                  rw [scanEntries]
                  simp only [hkind, hget]
                have hsame : ∀ fuel, firstFileLoop trees fuel (.scan id (e :: rest) :: stack) memo =
                    firstFileLoop trees fuel (.scan id rest :: stack) memo := by
                  intro fuel
                  cases fuel with
                  | zero => rfl
                  | succ fuel => simp only [firstFileLoop, hscan]
                refine ⟨memo', hmemo', fun out hsettles => ?_⟩
                simp only [hsame]
                refine hloop out ?_
                simpa only [firstAmong, List.findSome?_cons, hkind, hfirst, Option.map_none]
                  using hsettles
          cases hget : memoGet memo e.object with
          | some found => exact hhit memo found hmemo hget
          | none =>
              obtain ⟨memo₁, hmemo₁, hget₁, henter⟩ :=
                henters _ hchild (id :: pending) memo (.scan id (e :: rest) :: stack) hmemo hout
              obtain ⟨memo₂, hmemo₂, hrest⟩ := hhit memo₁ _ hmemo₁ hget₁
              refine ⟨memo₂, hmemo₂, .trans (.step fun _ => ?_) (henter.trans hrest)⟩
              simp only [firstFileLoop, scanEntries, hkind, hget]

theorem enters {trees : List (TreeRow Id)} (hacyclic : Lib.Acyclic (TreeChild trees)) (id : Id) :
    Enters trees id := by
  refine hacyclic.induct mem_ids_of_treeChild (fun id ih => ?_) id
  intro pending memo stack hmemo hpending
  cases hget : memoGet memo id with
  | some found =>
      have hfinal : found = firstFile trees id :=
        (hmemo _ _ hget).resolve_left fun hmem => hpending _ hmem .refl
      refine ⟨memo, hmemo, by rw [hget, hfinal], .step fun _ => ?_⟩
      simp only [firstFileLoop, hget, Option.isSome_some, if_true]
  | none =>
      have heq := firstFile_eq hacyclic id
      cases hrow : treeGet trees id with
      | none =>
          rw [hrow, Option.bind_none] at heq
          refine ⟨(id, none) :: memo, ?_, ?_, .step fun _ => ?_⟩
          · rw [← heq]
            exact .finish fun x found hfound => (hmemo x found hfound).imp_left
              (List.mem_cons_of_mem id)
          · rw [memoGet_cons, if_pos rfl, heq]
          · simp only [firstFileLoop, hget, Option.isSome_none, Bool.false_eq_true, if_false, hrow]
      | some row =>
          rw [hrow, Option.bind_some] at heq
          obtain ⟨memo', hmemo', hscan⟩ := scan_settles stack hacyclic hpending ih
            (fun e he hkind => treeChild_of_mem hrow he hkind) (hmemo.enter id)
          rw [← heq] at hscan
          refine ⟨_, hmemo'.finish, ?_, .trans (.step fun _ => ?_) hscan⟩
          · rw [memoGet_cons, if_pos rfl]
          · simp only [firstFileLoop, hget, Option.isSome_none, Bool.false_eq_true, if_false, hrow]

/-- `closure_first_file` finds the first file, and leaves a memo as good. -/
theorem memoFirstFile_settles {trees : List (TreeRow Id)}
    (hacyclic : Lib.Acyclic (TreeChild trees)) {memo : FileMemo Id}
    (hmemo : MemoSound trees [] memo) (root : Id) :
    ∃ memo', MemoSound trees [] memo' ∧
      Lib.Settles (fun fuel => memoFirstFile trees fuel memo root)
        (firstFile trees root, memo') := by
  obtain ⟨memo', hmemo', hget, hloop⟩ := enters hacyclic root [] memo [] hmemo (by simp)
  obtain ⟨n, hn⟩ := hloop memo' (.step (fun _ => rfl) (.now memo'))
  refine ⟨memo', hmemo', n, fun fuel hfuel => ?_⟩
  have hrun := hn fuel hfuel
  beta_reduce at hrun ⊢
  rw [memoFirstFile, hrun, Option.map_some, hget, Option.join_some]

/-! ### Scopes and directory texts -/

/-- A directory's text: the root's is empty, any other ends in `/`. -/
def DirText (dir : String) : Prop := dir = "" ∨ dir.toList.getLast? = some '/'

/-- A scope as tokens carry it: `scope_path` with a trailing `/` is refused. -/
def ScopeFits (scope : String) : Prop := scope.toList.getLast? ≠ some '/'

theorem DirText.child (dir name : String) : DirText (dir ++ name ++ "/") := by
  right
  rw [String.toList_append]
  exact List.getLast?_concat

omit [Platform Id] in
theorem scopeAllows_iff {scope path : String} : scopeAllows (some scope) path = true ↔
    path = scope ∨ scope.toList ++ ['/'] <+: path.toList := by
  rw [scopeAllows, Option.all_some, Bool.or_eq_true, decide_eq_true_eq, List.isPrefixOf_iff_prefix]

/-- Every path below a covered directory is in the scope. -/
theorem scopeCovers_allows {scope dir : String} (hscope : ScopeFits scope) (hdir : DirText dir)
    (h : scopeCovers scope dir = true) (path : String) :
    scopeAllows (some scope) (dir ++ path) = true := by
  rw [scopeCovers, Bool.and_eq_true, decide_eq_true_eq, scopeAllows_iff] at h
  obtain ⟨hne, rfl | hextends⟩ := h
  · exact absurd (hdir.resolve_left hne) hscope
  · rw [scopeAllows_iff, String.toList_append]
    exact .inr (hextends.trans (List.prefix_append _ _))

/-- No path below a directory that parts from the scope is in it. -/
theorem disjoint_not_allows {scope dir : String} (hcovers : ¬ scopeCovers scope dir = true)
    (hstraddles : ¬ scopeStraddles scope dir = true) (path : String) :
    ¬ scopeAllows (some scope) (dir ++ path) = true := by
  rw [scopeStraddles, List.isPrefixOf_iff_prefix] at hstraddles
  rw [scopeCovers, Bool.and_eq_true, decide_eq_true_eq, scopeAllows_iff] at hcovers
  have hne : dir ≠ "" := by
    rintro rfl
    exact hstraddles (List.nil_prefix)
  rw [scopeAllows_iff, String.toList_append]
  rintro (heq | hextends)
  · exact hstraddles ⟨path.toList, by rw [← String.toList_append, heq]⟩
  · rcases List.prefix_or_prefix_of_prefix hextends (List.prefix_append dir.toList path.toList)
      with hlong | hshort
    · exact hcovers ⟨hne, .inr hlong⟩
    · -- a directory as long as the scope with its `/` is covered
      rcases List.prefix_concat_iff.mp hshort with heq | hshort
      · exact hcovers ⟨hne, .inr (heq ▸ List.prefix_rfl)⟩
      · exact hstraddles hshort

/-! ### The recursion -/

/-- The children of a straddling directory on the scope's own chain. -/
def straddlingChildren (scope dir : String) (entries : List (TreeEntry Id)) : List (Id × String) :=
  entries.filterMap fun e =>
    let child := dir ++ e.name ++ "/"
    if e.kind = .dir ∧ ¬ scopeCovers scope child ∧ scopeStraddles scope child then
      some (e.object, child)
    else none

/-- What the walk answers below one occurrence. -/
def occurrenceViolation (trees : List (TreeRow Id)) (scope : String) (id : Id) (dir : String) :
    Option String :=
  closureViolation trees scope (trees.length + 1) id dir

/-- One level of `closureViolation`. -/
def violationLevel (trees : List (TreeRow Id)) (scope : String) (below : Id → String → Option String)
    (id : Id) (dir : String) : Option String :=
  (treeGet trees id).bind fun row =>
    if scopeCovers scope dir then none
    else if !scopeStraddles scope dir then (firstFile trees id).map (dir ++ ·)
    else (row.canonical.tree.entries.findSome? (entryViolation trees scope dir)).or
      ((straddlingChildren scope dir row.canonical.tree.entries).reverse.findSome?
        fun occurrence => below occurrence.1 occurrence.2)

omit [Platform Id] in
theorem mem_straddlingChildren {scope dir : String} {entries : List (TreeEntry Id)}
    {occurrence : Id × String} (h : occurrence ∈ straddlingChildren scope dir entries) :
    ∃ e ∈ entries, e.kind = .dir ∧ occurrence = (e.object, dir ++ e.name ++ "/") := by
  obtain ⟨e, he, hsome⟩ := List.mem_filterMap.mp h
  simp only at hsome
  split_ifs at hsome with hcond
  exact ⟨e, he, hcond.1, (Option.some.inj hsome).symm⟩

theorem closureViolation_succ (trees : List (TreeRow Id)) (scope : String) (fuel : ℕ) (id : Id)
    (dir : String) : closureViolation trees scope (fuel + 1) id dir =
      violationLevel trees scope (closureViolation trees scope fuel) id dir := by
  rw [closureViolation, violationLevel]
  cases hrow : treeGet trees id with
  | none => rfl
  | some row =>
      rw [Option.bind_some]
      have hpushed : (row.canonical.tree.entries.reverse.findSome? fun e =>
          let child := dir ++ e.name ++ "/"
          if e.kind = .dir ∧ ¬ scopeCovers scope child ∧ scopeStraddles scope child then
            closureViolation trees scope fuel e.object child
          else none) =
          (straddlingChildren scope dir row.canonical.tree.entries).reverse.findSome?
            fun occurrence => closureViolation trees scope fuel occurrence.1 occurrence.2 := by
        rw [straddlingChildren, ← List.filterMap_reverse]
        rw [← List.head?_filterMap, ← List.head?_filterMap, List.filterMap_filterMap]
        congr 2
        funext e
        simp only
        split_ifs <;> rfl
      rw [← hpushed]
      split_ifs
      · rfl
      · rfl
      · simp only
        cases row.canonical.tree.entries.findSome? (entryViolation trees scope dir) <;> rfl

theorem occurrenceViolation_eq {trees : List (TreeRow Id)}
    (hacyclic : Lib.Acyclic (TreeChild trees)) (scope : String) (id : Id) :
    occurrenceViolation trees scope id =
      violationLevel trees scope (occurrenceViolation trees scope) id := by
  have hlen : (trees.map (fun row => row.id)).length ≤ trees.length + 1 := by
    rw [List.length_map]
    exact Nat.le_succ _
  refine hacyclic.fuel_eq mem_ids_of_treeChild (f := closureViolation trees scope)
    (F := violationLevel trees scope) ?_ ?_ ?_ hlen id
  · exact fun n x => funext fun dir => closureViolation_succ trees scope n x dir
  · intro g g' x h
    funext dir
    rw [violationLevel, violationLevel]
    cases hrow : treeGet trees x with
    | none => rfl
    | some row =>
        have hbelow : ((straddlingChildren scope dir row.canonical.tree.entries).reverse.findSome?
            fun occurrence => g occurrence.1 occurrence.2) =
            (straddlingChildren scope dir row.canonical.tree.entries).reverse.findSome?
              fun occurrence => g' occurrence.1 occurrence.2 := by
          rw [← List.head?_filterMap, ← List.head?_filterMap]
          refine congrArg List.head? (List.filterMap_congr fun occurrence hmem => ?_)
          obtain ⟨e, he, hkind, rfl⟩ := mem_straddlingChildren (List.mem_reverse.mp hmem)
          rw [h _ (treeChild_of_mem hrow he hkind)]
        rw [Option.bind_some, Option.bind_some, hbelow]
  · intro g x hx
    funext dir
    rw [violationLevel, treeGet_of_not_mem hx, closureViolation, Option.bind_none]

/-- What one entry of a straddling directory answers is a file out of scope, and
a silent entry has none outside its own chain. -/
theorem entryViolation_spec {trees : List (TreeRow Id)} (hacyclic : Lib.Acyclic (TreeChild trees))
    {scope dir : String} {id : Id} {row : TreeRow Id} {e : TreeEntry Id}
    (hrow : treeGet trees id = some row) (he : e ∈ row.canonical.tree.entries) {path : String}
    (h : entryViolation trees scope dir e = some path) :
    ∃ rel, path = dir ++ rel ∧ FileBelow trees id rel ∧ ¬ scopeAllows (some scope) path = true := by
  rw [entryViolation] at h
  cases hkind : e.kind with
  | file =>
      simp only [hkind] at h
      split_ifs at h with hallowed
      obtain rfl := Option.some.inj h
      exact ⟨e.name, rfl, .file hrow he hkind, hallowed⟩
  | dir =>
      simp only [hkind] at h
      split_ifs at h with hchain
      rw [Bool.or_eq_true, not_or] at hchain
      obtain ⟨rel, hrel, rfl⟩ := Option.map_eq_some_iff.mp h
      refine ⟨e.name ++ "/" ++ rel, ?_, .dir hrow he hkind ((firstFile_spec hacyclic _).1 rel hrel),
        disjoint_not_allows hchain.1 hchain.2 rel⟩
      rw [← String.append_assoc, ← String.append_assoc]

/-- The recursion answers a file out of scope, and is silent only where every
file is in it. -/
theorem occurrenceViolation_spec {trees : List (TreeRow Id)}
    (hacyclic : Lib.Acyclic (TreeChild trees)) {scope : String} (hscope : ScopeFits scope) (id : Id) :
    ∀ dir, DirText dir →
      (∀ path, occurrenceViolation trees scope id dir = some path →
        ∃ rel, path = dir ++ rel ∧ FileBelow trees id rel ∧ ¬ scopeAllows (some scope) path = true) ∧
      (occurrenceViolation trees scope id dir = none →
        ∀ rel, FileBelow trees id rel → scopeAllows (some scope) (dir ++ rel) = true) := by
  refine hacyclic.induct (P := fun id => ∀ dir, DirText dir →
      (∀ path, occurrenceViolation trees scope id dir = some path →
        ∃ rel, path = dir ++ rel ∧ FileBelow trees id rel ∧ ¬ scopeAllows (some scope) path = true) ∧
      (occurrenceViolation trees scope id dir = none →
        ∀ rel, FileBelow trees id rel → scopeAllows (some scope) (dir ++ rel) = true))
    mem_ids_of_treeChild (fun id ih => ?_) id
  intro dir hdir
  rw [occurrenceViolation_eq hacyclic, violationLevel]
  cases hrow : treeGet trees id with
  | none =>
      refine ⟨fun path h => (by cases h), fun _ rel hrel => ?_⟩
      cases hrel with
      | file hrow' => rw [hrow] at hrow'; cases hrow'
      | dir hrow' => rw [hrow] at hrow'; cases hrow'
  | some row =>
      rw [Option.bind_some]
      by_cases hcovers : scopeCovers scope dir = true
      · rw [if_pos hcovers]
        exact ⟨fun path h => (by cases h), fun _ rel _ => scopeCovers_allows hscope hdir hcovers rel⟩
      rw [if_neg hcovers]
      by_cases hstraddles : scopeStraddles scope dir = true
      · rw [hstraddles, Bool.not_true, if_neg Bool.false_ne_true]
        constructor
        · intro path h
          rcases Option.or_eq_some_iff.mp h with h | ⟨-, h⟩
          · obtain ⟨e, he, h⟩ := List.exists_of_findSome?_eq_some h
            exact entryViolation_spec hacyclic hrow he h
          · obtain ⟨occurrence, hmem, h⟩ := List.exists_of_findSome?_eq_some h
            obtain ⟨e, he, hkind, rfl⟩ := mem_straddlingChildren (List.mem_reverse.mp hmem)
            obtain ⟨rel, rfl, hrel, hout⟩ :=
              (ih _ (treeChild_of_mem hrow he hkind) _ (DirText.child dir e.name)).1 path h
            refine ⟨e.name ++ "/" ++ rel, ?_, .dir hrow he hkind hrel, hout⟩
            rw [← String.append_assoc, ← String.append_assoc]
        · intro h rel hrel
          rw [Option.or_eq_none_iff, List.findSome?_eq_none_iff, List.findSome?_eq_none_iff] at h
          obtain ⟨hentries, hchildren⟩ := h
          cases hrel with
          | @file _ row' e hrow' he hkind =>
              obtain rfl : row = row' := Option.some.inj (hrow.symm.trans hrow')
              have hsilent := hentries e he
              rw [entryViolation] at hsilent
              simp only [hkind] at hsilent
              split_ifs at hsilent with hallowed
              exact hallowed
          | @dir _ row' e rel hrow' he hkind hrel =>
              obtain rfl : row = row' := Option.some.inj (hrow.symm.trans hrow')
              have hsilent := hentries e he
              rw [entryViolation] at hsilent
              simp only [hkind] at hsilent
              have htext : dir ++ (e.name ++ "/" ++ rel) = dir ++ e.name ++ "/" ++ rel := by
                rw [← String.append_assoc, ← String.append_assoc]
              rw [htext]
              by_cases hcovers : scopeCovers scope (dir ++ e.name ++ "/") = true
              · exact scopeCovers_allows hscope (DirText.child dir e.name) hcovers rel
              by_cases hchain : scopeStraddles scope (dir ++ e.name ++ "/") = true
              · refine (ih _ (treeChild_of_mem hrow he hkind) _ (DirText.child dir e.name)).2 ?_ rel hrel
                refine hchildren (e.object, dir ++ e.name ++ "/") (List.mem_reverse.mpr ?_)
                exact List.mem_filterMap.mpr ⟨e, he, if_pos ⟨hkind, hcovers, hchain⟩⟩
              · rw [if_neg (by rw [Bool.or_eq_true, not_or]; exact ⟨hcovers, hchain⟩),
                  Option.map_eq_none_iff] at hsilent
                exact absurd hrel ((firstFile_spec hacyclic _).2 hsilent rel)
      · rw [Bool.not_eq_true] at hstraddles
        rw [hstraddles, Bool.not_false, if_pos rfl]
        constructor
        · intro path h
          obtain ⟨rel, hrel, rfl⟩ := Option.map_eq_some_iff.mp h
          exact ⟨rel, rfl, (firstFile_spec hacyclic id).1 rel hrel,
            disjoint_not_allows hcovers (by rw [hstraddles]; exact Bool.false_ne_true) rel⟩
        · intro h rel hrel
          exact absurd hrel ((firstFile_spec hacyclic id).2 (Option.map_eq_none_iff.mp h) rel)

/-! ### `violation_in_closure`, with its stack -/

/-- The entries of a straddling directory: a path out of scope, or the stack
with the children on the scope's chain pushed. -/
def scanStraddling (trees : List (TreeRow Id)) (scope dir : String) (fuel : ℕ) :
    List (TreeEntry Id) → List (Id × String) → FileMemo Id →
      Option (Except String (List (Id × String) × FileMemo Id))
  | [], stack, memo => some (.ok (stack, memo))
  | e :: rest, stack, memo =>
      let path := dir ++ e.name
      match e.kind with
      | .file =>
          if scopeAllows (some scope) path then scanStraddling trees scope dir fuel rest stack memo
          else some (.error path)
      | .dir =>
          let child := path ++ "/"
          if scopeCovers scope child then scanStraddling trees scope dir fuel rest stack memo
          else if scopeStraddles scope child then
            scanStraddling trees scope dir fuel rest ((e.object, child) :: stack) memo
          else (memoFirstFile trees fuel memo e.object).bind fun found =>
            match found.1 with
            | some rel => some (.error (child ++ rel))
            | none => scanStraddling trees scope dir fuel rest stack found.2

/-- The loop of `violation_in_closure`. -/
def violationLoop (trees : List (TreeRow Id)) (scope : String) :
    ℕ → List (Id × String) → FileMemo Id → Option (Option String)
  | 0, _, _ => none
  | _ + 1, [], _ => some none
  | fuel + 1, (id, dir) :: stack, memo =>
      match treeGet trees id with
      | none => violationLoop trees scope fuel stack memo
      | some row =>
          if scopeCovers scope dir then violationLoop trees scope fuel stack memo
          else if !scopeStraddles scope dir then
            (memoFirstFile trees fuel memo id).bind fun found =>
              match found.1 with
              | some rel => some (some (dir ++ rel))
              | none => violationLoop trees scope fuel stack found.2
          else (scanStraddling trees scope dir fuel row.canonical.tree.entries stack memo).bind
            fun scanned =>
              match scanned with
              | .error path => some (some path)
              | .ok (stack, memo) => violationLoop trees scope fuel stack memo

/-- `violation_in_closure`, run. -/
def runViolationInClosure (trees : List (TreeRow Id)) (fuel : ℕ) (root : Id)
    (scope : Option String) : Option (Option String) :=
  match scope with
  | none => some none
  | some scope => violationLoop trees scope fuel [(root, "")] []

/-- The scan answers its first violation, or pushes the chain's children. -/
theorem scanStraddling_settles {trees : List (TreeRow Id)}
    (hacyclic : Lib.Acyclic (TreeChild trees)) (scope dir : String)
    (entries : List (TreeEntry Id)) (stack : List (Id × String)) {memo : FileMemo Id}
    (hmemo : MemoSound trees [] memo) :
    ∃ memo', MemoSound trees [] memo' ∧
      Lib.Settles (fun fuel => scanStraddling trees scope dir fuel entries stack memo)
        (match entries.findSome? (entryViolation trees scope dir) with
          | some path => .error path
          | none => .ok ((straddlingChildren scope dir entries).reverse ++ stack, memo')) := by
  induction entries generalizing stack memo with
  | nil => exact ⟨memo, hmemo, .now _⟩
  | cons e rest ih =>
      rw [List.findSome?_cons, entryViolation]
      cases hkind : e.kind with
      | file =>
          have hskip : straddlingChildren scope dir (e :: rest) = straddlingChildren scope dir rest := by
            simp [straddlingChildren, hkind]
          simp only [scanStraddling, hkind]
          by_cases hallowed : scopeAllows (some scope) (dir ++ e.name) = true
          · simp only [if_pos hallowed, hskip]
            exact ih stack hmemo
          · simp only [if_neg hallowed]
            exact ⟨memo, hmemo, .now _⟩
      | dir =>
          simp only [scanStraddling, hkind]
          by_cases hcovers : scopeCovers scope (dir ++ e.name ++ "/") = true
          · have hskip : straddlingChildren scope dir (e :: rest) =
                straddlingChildren scope dir rest := by
              simp [straddlingChildren, hcovers]
            simp only [hcovers, Bool.true_or, if_true, hskip]
            exact ih stack hmemo
          by_cases hchain : scopeStraddles scope (dir ++ e.name ++ "/") = true
          · have hpush : straddlingChildren scope dir (e :: rest) =
                (e.object, dir ++ e.name ++ "/") :: straddlingChildren scope dir rest :=
              List.filterMap_cons_some (if_pos ⟨hkind, hcovers, hchain⟩)
            simp only [hcovers, hchain, Bool.or_true, if_true, if_false, Bool.false_eq_true,
              hpush, List.reverse_cons, List.append_assoc, List.singleton_append]
            exact ih _ hmemo
          · have hskip : straddlingChildren scope dir (e :: rest) =
                straddlingChildren scope dir rest := by
              simp [straddlingChildren, hchain]
            simp only [hcovers, hchain, Bool.or_false, if_false, Bool.false_eq_true, hskip]
            obtain ⟨memo₁, hmemo₁, hfirst⟩ := memoFirstFile_settles hacyclic hmemo e.object
            rw [← firstFile]
            cases hfound : firstFile trees e.object with
            | some rel =>
                rw [hfound] at hfirst
                exact ⟨memo₁, hmemo₁, hfirst.bind (.now _)⟩
            | none =>
                rw [hfound] at hfirst
                obtain ⟨memo₂, hmemo₂, hrest⟩ := ih stack hmemo₁
                exact ⟨memo₂, hmemo₂, hfirst.bind hrest⟩

/-- The loop settles on `answer` from this stack, whatever a sound memo holds. -/
def Answers (trees : List (TreeRow Id)) (scope : String) (stack : List (Id × String))
    (answer : Option String) : Prop :=
  ∀ memo, MemoSound trees [] memo →
    Lib.Settles (fun fuel => violationLoop trees scope fuel stack memo) answer

/-- One occurrence answers first, the rest of the stack if it is silent. -/
def AnswersFirst (trees : List (TreeRow Id)) (scope : String) (occurrence : Id × String) : Prop :=
  ∀ stack answer, Answers trees scope stack answer → Answers trees scope (occurrence :: stack)
    ((occurrenceViolation trees scope occurrence.1 occurrence.2).or answer)

theorem Answers.append {trees : List (TreeRow Id)} {scope : String}
    {occurrences stack : List (Id × String)} {answer : Option String}
    (hfirst : ∀ o ∈ occurrences, AnswersFirst trees scope o) (h : Answers trees scope stack answer) :
    Answers trees scope (occurrences ++ stack)
      ((occurrences.findSome? fun o => occurrenceViolation trees scope o.1 o.2).or answer) := by
  induction occurrences with
  | nil => exact h
  | cons o rest ih =>
      have hrest := ih fun o' ho' => hfirst o' (List.mem_cons_of_mem _ ho')
      have hall := hfirst o List.mem_cons_self _ _ hrest
      rw [List.findSome?_cons]
      cases hviolation : occurrenceViolation trees scope o.1 o.2 with
      | some path =>
          rw [hviolation] at hall
          exact hall
      | none =>
          rw [hviolation, Option.none_or] at hall
          exact hall

theorem answersFirst {trees : List (TreeRow Id)} (hacyclic : Lib.Acyclic (TreeChild trees))
    (scope : String) (id : Id) : ∀ dir, AnswersFirst trees scope (id, dir) := by
  refine hacyclic.induct (P := fun id => ∀ dir, AnswersFirst trees scope (id, dir))
    mem_ids_of_treeChild (fun id ih => ?_) id
  intro dir stack answer hstack memo hmemo
  simp only [occurrenceViolation_eq hacyclic scope id, violationLevel]
  cases hrow : treeGet trees id with
  | none =>
      refine .step (fun fuel => ?_) (hstack memo hmemo)
      simp only [violationLoop, hrow]
  | some row =>
      simp only [Option.bind_some]
      by_cases hcovers : scopeCovers scope dir = true
      · rw [if_pos hcovers, Option.none_or]
        refine .step (fun fuel => ?_) (hstack memo hmemo)
        simp only [violationLoop, hrow, hcovers, if_true]
      rw [if_neg hcovers]
      cases hstraddles : scopeStraddles scope dir with
      | false =>
          obtain ⟨memo', hmemo', hfirst⟩ := memoFirstFile_settles hacyclic hmemo id
          rw [Bool.not_false, if_pos rfl]
          refine .step (fun fuel => ?_) (hfirst.bind (g := fun fuel found =>
            match found.1 with
            | some rel => some (some (dir ++ rel))
            | none => violationLoop trees scope fuel stack found.2) ?_)
          · simp only [violationLoop, hrow, if_neg hcovers, hstraddles, Bool.not_false, if_true]
          · cases firstFile trees id with
            | some rel => exact .now _
            | none => exact hstack memo' hmemo'
      | true =>
          obtain ⟨memo', hmemo', hscan⟩ :=
            scanStraddling_settles hacyclic scope dir row.canonical.tree.entries stack hmemo
          rw [Bool.not_true, if_neg Bool.false_ne_true]
          refine .step (fun fuel => ?_) (hscan.bind (g := fun fuel scanned =>
            match scanned with
            | .error path => some (some path)
            | .ok (stack, memo) => violationLoop trees scope fuel stack memo) ?_)
          · simp only [violationLoop, hrow, if_neg hcovers, hstraddles, Bool.not_true,
              Bool.false_eq_true, if_false]
          · cases row.canonical.tree.entries.findSome? (entryViolation trees scope dir) with
            | some path => exact .now _
            | none =>
                rw [Option.none_or]
                refine Answers.append (fun o ho => ?_) hstack memo' hmemo'
                obtain ⟨e, he, hkind, rfl⟩ := mem_straddlingChildren (List.mem_reverse.mp ho)
                exact ih _ (treeChild_of_mem hrow he hkind) _

/-- The loop answers what the recursion answers. -/
theorem runViolationInClosure_settles {trees : List (TreeRow Id)}
    (hacyclic : Lib.Acyclic (TreeChild trees)) (root : Id) (scope : Option String) :
    Lib.Settles (fun fuel => runViolationInClosure trees fuel root scope)
      (violationInClosure trees root scope) := by
  cases scope with
  | none => exact .now none
  | some scope =>
      have hempty : Answers trees scope [] none := fun memo _ => .step (fun _ => rfl) (.now none)
      have hroot := answersFirst hacyclic scope root "" [] none hempty []
        fun id found hfound => (by cases hfound)
      rw [Option.or_none] at hroot
      exact hroot

/-! ### The gate -/

omit [Platform Id] in
/-- A scope that the token route stores has no `/` at its end. -/
theorem checkScope_fits {body scope : Option String}
    (h : (Accounts.checkScope body : Except (ApiError Id) _) = .ok scope) : ∀ s ∈ scope, ScopeFits s := by
  intro s hs
  cases body with
  | none =>
      rw [Accounts.checkScope, Except.ok.injEq] at h
      rw [← h] at hs
      cases hs
  | some p =>
      rw [Accounts.checkScope] at h
      simp only at h
      split_ifs at h with _ _ hslash
      rw [Except.ok.injEq] at h
      rw [← h, Option.mem_some_iff] at hs
      exact hs ▸ hslash

/-- The gate's path is a file out of scope and there is one whenever a file is;
the walk returns the distinct blobs reachable, and says when there are more
than the cap. -/
theorem scopeGate_exact {trees : List (TreeRow Id)} (hacyclic : Lib.Acyclic (TreeChild trees))
    (root : Id) {scope : Option String} (hscope : ∀ s ∈ scope, ScopeFits s) :
    (∃ answer,
      Lib.Settles (fun fuel => runViolationInClosure trees fuel root scope) answer ∧
      (answer.isSome ↔ ∃ path, FileBelow trees root path ∧ ¬ scopeAllows scope path = true) ∧
      ∀ path, answer = some path → FileBelow trees root path ∧ ¬ scopeAllows scope path = true) ∧
    ∃ reached : List Id, reached.Nodup ∧ (∀ b, b ∈ reached ↔ BlobBelow trees root b) ∧
      Lib.Settles (fun fuel => runWalkClosure trees fuel root)
        (reached.take maxSnapshotBlobs, decide (maxSnapshotBlobs < reached.length)) := by
  refine ⟨⟨violationInClosure trees root scope, runViolationInClosure_settles hacyclic root scope,
    ?_⟩, runWalkClosure_settles trees root⟩
  cases scope with
  | none =>
      have hall : ∀ path, scopeAllows none path = true := fun path => rfl
      simp [violationInClosure, hall]
  | some scope =>
      obtain ⟨hsome, hnone⟩ := occurrenceViolation_spec hacyclic (hscope scope rfl) root "" (.inl rfl)
      have hanswer : ∀ path, violationInClosure trees root (some scope) = some path →
          FileBelow trees root path ∧ ¬ scopeAllows (some scope) path = true := by
        intro path h
        obtain ⟨rel, rfl, hrel, hout⟩ := hsome path h
        rw [String.empty_append] at hout ⊢
        exact ⟨hrel, hout⟩
      refine ⟨⟨fun h => ?_, ?_⟩, hanswer⟩
      · obtain ⟨path, hpath⟩ := Option.isSome_iff_exists.mp h
        exact ⟨path, hanswer path hpath⟩
      · rintro ⟨path, hpath, hout⟩
        rw [← Option.ne_none_iff_isSome]
        intro h
        have hallowed := hnone h path hpath
        rw [String.empty_append] at hallowed
        exact hout hallowed

end

/-! ### One tree at two names -/

namespace SharedSubtree

def sharedFrame : TreeFrame PlainId := ⟨⟨[⟨"x", .file, [9], 1, false⟩]⟩, rfl⟩

def rootFrame : TreeFrame PlainId :=
  ⟨⟨[⟨"app", .dir, [1], 0, false⟩, ⟨"docs", .dir, [1], 0, false⟩]⟩, rfl⟩

def trees : List (TreeRow PlainId) := [⟨[2], rootFrame⟩, ⟨[1], sharedFrame⟩]

theorem trees_acyclic : Lib.Acyclic (TreeChild trees) := by
  refine .of_rank List.sum fun x y h => ?_
  have hx := mem_ids_of_treeChild x y h
  have hcases : x = [2] ∨ x = [1] := by simpa [trees] using hx
  rcases hcases with rfl | rfl
  · have hy : y ∈ ([[1], [1]] : List PlainId) := h
    obtain rfl : y = [1] := by simpa using hy
    decide
  · cases h

end SharedSubtree

/-- `docs/x` is out of the scope `app`, though `app/x` is the same file. -/
theorem scopeGate_exact_shared :
    (∃ answer,
      Lib.Settles (fun fuel => runViolationInClosure SharedSubtree.trees fuel [2] (some "app"))
        answer ∧
      (answer.isSome ↔ ∃ path, FileBelow SharedSubtree.trees [2] path ∧
        ¬ scopeAllows (some "app") path = true) ∧
      ∀ path, answer = some path → FileBelow SharedSubtree.trees [2] path ∧
        ¬ scopeAllows (some "app") path = true) ∧
    ∃ reached : List PlainId, reached.Nodup ∧
      (∀ b, b ∈ reached ↔ BlobBelow SharedSubtree.trees [2] b) ∧
      Lib.Settles (fun fuel => runWalkClosure SharedSubtree.trees fuel [2])
        (reached.take maxSnapshotBlobs, decide (maxSnapshotBlobs < reached.length)) := by
  refine scopeGate_exact SharedSubtree.trees_acyclic [2] fun s hs => ?_
  obtain rfl := Option.mem_some_iff.mp hs
  exact (by decide : ("app".toList.getLast? ≠ some '/'))

/-- The runs themselves: a straddling root, one subtree covered, one disjoint. -/
example : runViolationInClosure SharedSubtree.trees 10 [2] (some "app") = some (some "docs/x") ∧
    runWalkClosure SharedSubtree.trees 10 [2] = some ([[9]], false) := by decide +kernel

/-! ### A scope with a slash at its end -/

namespace SlashScope

def rootFrame : TreeFrame PlainId := ⟨⟨[⟨"app", .dir, [1], 0, false⟩]⟩, rfl⟩

def trees : List (TreeRow PlainId) := [⟨[2], rootFrame⟩, ⟨[1], SharedSubtree.sharedFrame⟩]

theorem trees_acyclic : Lib.Acyclic (TreeChild trees) := by
  refine .of_rank List.sum fun x y h => ?_
  have hx := mem_ids_of_treeChild x y h
  have hcases : x = [2] ∨ x = [1] := by simpa [trees] using hx
  rcases hcases with rfl | rfl
  · obtain rfl : y = [1] := List.mem_singleton.mp h
    decide
  · cases h

end SlashScope

/-- The scope `app/` covers the directory `app/` and allows no path below it: the
gate finds no violation, and `app/x` is one. -/
theorem slash_scope_passes : Lib.Acyclic (TreeChild SlashScope.trees) ∧
    Lib.Settles (fun fuel => runViolationInClosure SlashScope.trees fuel [2] (some "app/")) none ∧
    FileBelow SlashScope.trees [2] "app/x" ∧ ¬ scopeAllows (some "app/") "app/x" = true := by
  refine ⟨SlashScope.trees_acyclic, ?_, ?_, by decide⟩
  · have hnone : violationInClosure SlashScope.trees [2] (some "app/") = none := by decide +kernel
    have hsettles := runViolationInClosure_settles SlashScope.trees_acyclic [2] (some "app/")
    rwa [hnone] at hsettles
  · have hfile : FileBelow SlashScope.trees [1] "x" :=
      @FileBelow.file _ _ SlashScope.trees [1] ⟨[1], SharedSubtree.sharedFrame⟩
        ⟨"x", .file, [9], 1, false⟩ rfl (List.mem_singleton_self _) rfl
    exact @FileBelow.dir _ _ SlashScope.trees [2] ⟨[2], SlashScope.rootFrame⟩
      ⟨"app", .dir, [1], 0, false⟩ "x" rfl (List.mem_singleton_self _) rfl hfile

end Naatre
