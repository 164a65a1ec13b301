import Naatre.Server.DeltaApply
import Naatre.Server.Trees

/-!
The leaves of a tree, its files and empty directories: what a change list makes
of them, and that siblings fold apart exactly when the leaves' paths do.
-/

namespace Naatre

/-! ### Paths that clash -/

/-- Two paths agree up to a directory and go on with two names that fold
alike. -/
def clash (lower : String → String) : List String → List String → Bool
  | a :: s, b :: t => if a = b then clash lower s t else decide (lower a = lower b)
  | _, _ => false

/-- One path is the other, or leads to it. -/
def comparable : List String → List String → Bool
  | a :: s, b :: t => decide (a = b) && comparable s t
  | _, _ => true

section

variable {Id : Type}

/-- A file, or a directory with nothing in it. -/
def MemEntry.isLeaf : Option (MemEntry Id) → Bool
  | some (.file _ _ _) => true
  | some (.dir .empty) => true
  | _ => false

theorem MemEntry.not_isLeaf_dir {child : MemNode Id} (h : child ≠ .empty) :
    isLeaf (some (.dir child)) = false := by
  cases child with
  | empty => exact absurd rfl h
  | entry => rfl

/-! ### Siblings -/

/-- The names of one directory. -/
def MemNode.names : MemNode Id → List String
  | .empty => []
  | .entry name _ rest => name :: rest.names

mutual

/-- No directory has two names that fold alike. -/
def MemNode.FoldDistinct (lower : String → String) : MemNode Id → Prop
  | .empty => True
  | .entry name e rest =>
      (∀ n ∈ rest.names, lower name ≠ lower n) ∧ e.FoldDistinct lower ∧ rest.FoldDistinct lower

def MemEntry.FoldDistinct (lower : String → String) : MemEntry Id → Prop
  | .file _ _ _ => True
  | .dir child => child.FoldDistinct lower

end

namespace MemNode

variable {lower : String → String}

theorem after_names (node : MemNode Id) : ∀ name, node.Sorted → node.After name →
    ∀ n ∈ node.names, name < n := by
  induction node with
  | empty => exact fun _ _ _ _ h => absurd h List.not_mem_nil
  | entry m e rest _ ih =>
      intro name hsorted hafter n hn
      rcases List.mem_cons.mp hn with rfl | hn
      · exact hafter
      · exact lt_trans hafter (ih m hsorted.2.2 hsorted.1 n hn)

theorem names_pairwise (node : MemNode Id) : node.FoldDistinct lower →
    node.names.Pairwise fun a b => lower a ≠ lower b := by
  induction node with
  | empty => exact fun _ => .nil
  | entry _ _ _ _ ih => exact fun h => .cons h.1 (ih h.2.2)

theorem mem_names_insert {name : String} {new : MemEntry Id} {n : String} (node : MemNode Id) :
    n ∈ (node.insert name new).names → n = name ∨ n ∈ node.names := by
  induction node with
  | empty =>
      intro h
      exact .inl (List.mem_singleton.mp h)
  | entry m e rest _ ih =>
      intro h
      rw [insert] at h
      split_ifs at h with hsame hbefore
      · rcases List.mem_cons.mp h with rfl | h
        · exact .inl rfl
        · exact .inr (List.mem_cons_of_mem _ h)
      · rcases List.mem_cons.mp h with rfl | h
        · exact .inl rfl
        · exact .inr h
      · rcases List.mem_cons.mp h with rfl | h
        · exact .inr List.mem_cons_self
        · rcases ih h with rfl | h
          · exact .inl rfl
          · exact .inr (List.mem_cons_of_mem _ h)

theorem insert_foldDistinct {name : String} {new : MemEntry Id}
    (hnew : new.FoldDistinct lower) (node : MemNode Id) : node.FoldDistinct lower →
    (∀ n ∈ node.names, lower name ≠ lower n) → (node.insert name new).FoldDistinct lower := by
  induction node with
  | empty => exact fun _ _ => ⟨by simp [names], hnew, trivial⟩
  | entry m e rest _ ih =>
      intro hnode hfresh
      have hrest : ∀ n ∈ rest.names, lower name ≠ lower n := fun n hn =>
        hfresh n (List.mem_cons_of_mem _ hn)
      have hhere : lower name ≠ lower m := hfresh m List.mem_cons_self
      rw [insert]
      split_ifs with hsame hbefore
      · exact ⟨hrest, hnew, hnode.2.2⟩
      · exact ⟨hfresh, hnew, hnode⟩
      · refine ⟨fun n hn => ?_, hnode.2.1, ih hnode.2.2 hrest⟩
        rcases mem_names_insert rest hn with rfl | hn
        · exact hhere.symm
        · exact hnode.1 n hn

/-- An entry has a leaf at or below it. -/
theorem exists_leaf : (e : MemEntry Id) → (n : String) → (rest : MemNode Id) →
    ∃ ds leaf, firstOf ds leaf = n ∧
      MemEntry.isLeaf ((MemNode.entry n e rest).lookupIn ds leaf) = true
  | .file blob size exec => fun n rest => ⟨[], n, rfl, by simp [lookupIn, get, MemEntry.isLeaf]⟩
  | .dir .empty => fun n rest => ⟨[], n, rfl, by simp [lookupIn, get, MemEntry.isLeaf]⟩
  | .dir (.entry m e below) => by
      intro n rest
      obtain ⟨ds, leaf, -, hleaf⟩ := exists_leaf e m below
      exact ⟨n :: ds, leaf, rfl, by simpa [lookupIn_cons, get] using hleaf⟩

/-- A path that starts elsewhere is looked up in the rest. -/
theorem lookupIn_rest {n : String} {e : MemEntry Id} {rest : MemNode Id} {ds : List String}
    {leaf : String} (h : n ≠ firstOf ds leaf) :
    (MemNode.entry n e rest).lookupIn ds leaf = rest.lookupIn ds leaf := by
  cases ds with
  | nil => simp only [lookupIn, get, if_neg (show n ≠ leaf from h)]
  | cons d ds => simp only [lookupIn_cons, get, if_neg (show n ≠ d from h)]

theorem components_first (ds : List String) (leaf : String) :
    ∃ rest, ds ++ [leaf] = firstOf ds leaf :: rest := by
  cases ds with
  | nil => exact ⟨[], rfl⟩
  | cons d ds => exact ⟨ds ++ [leaf], rfl⟩

/-- The leaf a name of a directory has. -/
theorem exists_leaf_name (node : MemNode Id) : ∀ n ∈ node.names, node.Sorted →
    ∃ ds leaf, firstOf ds leaf = n ∧ MemEntry.isLeaf (node.lookupIn ds leaf) = true := by
  induction node with
  | empty => exact fun _ h => absurd h List.not_mem_nil
  | entry m e rest _ ih =>
      intro n hn hsorted
      rcases List.mem_cons.mp hn with rfl | hmem
      · exact exists_leaf e n rest
      · obtain ⟨ds, leaf, hfirst, hleaf⟩ := ih n hmem hsorted.2.2
        have hne : m ≠ n := ne_of_lt (after_names rest m hsorted.2.2 hsorted.1 n hmem)
        refine ⟨ds, leaf, hfirst, ?_⟩
        rwa [lookupIn_rest (hfirst.symm ▸ hne)]

/-- Siblings fold apart where no two leaves clash. -/
theorem foldDistinct_of_leaves (node : MemNode Id) : node.Sorted →
    (∀ ds l es m, MemEntry.isLeaf (node.lookupIn ds l) = true →
      MemEntry.isLeaf (node.lookupIn es m) = true → clash lower (ds ++ [l]) (es ++ [m]) = false) →
    node.FoldDistinct lower := by
  induction node with
  | empty => exact fun _ _ => trivial
  | entry n e rest ihChild ih =>
      intro hsorted hclear
      have hrest : ∀ {ds leaf}, MemEntry.isLeaf (rest.lookupIn ds leaf) = true →
          n ≠ firstOf ds leaf ∧
            MemEntry.isLeaf ((MemNode.entry n e rest).lookupIn ds leaf) = true := by
        intro ds leaf hleaf
        have hne : n ≠ firstOf ds leaf := by
          rintro rfl
          have hnone := get_of_after rest _ hsorted.2.2 hsorted.1
          rw [lookupIn_of_get_none hnone rfl] at hleaf
          cases hleaf
        exact ⟨hne, by rwa [lookupIn_rest hne]⟩
      refine ⟨fun m hm hfold => ?_, ?_, ?_⟩
      · -- a leaf under each of the two names
        obtain ⟨ds, l, hfirst, hleaf⟩ := exists_leaf e n rest
        obtain ⟨es, k, hfirst', hleaf'⟩ := exists_leaf_name rest m hm hsorted.2.2
        obtain ⟨hne, hleaf'⟩ := hrest hleaf'
        have hno := hclear ds l es k hleaf hleaf'
        obtain ⟨s, hs⟩ := components_first ds l
        obtain ⟨t, ht⟩ := components_first es k
        rw [hs, ht, hfirst, hfirst', clash, if_neg (hfirst' ▸ hne), hfold] at hno
        simp at hno
      · cases e with
        | file => trivial
        | dir child =>
            refine ihChild child rfl hsorted.2.1 fun ds l es m hl hm => ?_
            have hchild : ∀ ds leaf, (MemNode.entry n (.dir child) rest).lookupIn (n :: ds) leaf =
                child.lookupIn ds leaf := fun ds leaf => by simp [lookupIn_cons, get]
            have hno := hclear (n :: ds) l (n :: es) m (by rwa [hchild]) (by rwa [hchild])
            simpa [clash] using hno
      · refine ih hsorted.2.2 fun ds l es m hl hm => ?_
        exact hclear ds l es m (hrest hl).2 (hrest hm).2

/-! ### Changes -/

theorem insertIn_ne_empty {leaf : String} {file : MemEntry Id} {dirs : List String}
    {node node' : MemNode Id} (h : node.insertIn leaf file dirs = some node') : node' ≠ .empty := by
  cases dirs with
  | nil =>
      obtain rfl := Option.some.inj h
      exact insert_ne_empty _ _ _
  | cons d ds =>
      obtain ⟨child, child', -, -, rfl⟩ := insertIn_cons h
      exact insert_ne_empty _ _ _

/-- An insertion makes its path a leaf and takes away the leaves the path leads
to or comes from. -/
theorem isLeaf_insertIn {leaf : String} {m : FileMeta Id} {dirs : List String}
    {node node' : MemNode Id} (h : node.insertIn leaf m.entry dirs = some node')
    (qs : List String) (ql : String) :
    MemEntry.isLeaf (node'.lookupIn qs ql) = true ↔
      (qs = dirs ∧ ql = leaf) ∨ MemEntry.isLeaf (node.lookupIn qs ql) = true ∧
        comparable (dirs ++ [leaf]) (qs ++ [ql]) = false := by
  induction dirs generalizing node node' qs ql with
  | nil =>
      obtain rfl := Option.some.inj h
      cases qs with
      | nil =>
          rw [lookupIn, lookupIn, get_insert]
          by_cases heq : leaf = ql
          · simp [heq, FileMeta.entry, MemEntry.isLeaf]
          · simp [heq, Ne.symm heq, comparable]
      | cons e es =>
          rw [lookupIn_cons, lookupIn_cons, get_insert]
          by_cases heq : leaf = e
          · cases hes : es ++ [ql] <;> simp [heq, FileMeta.entry, MemEntry.isLeaf, comparable, hes]
          · simp [heq, comparable]
  | cons d ds ih =>
      obtain ⟨child, child', hget, hchild, rfl⟩ := insertIn_cons h
      have hfull := MemEntry.not_isLeaf_dir (insertIn_ne_empty hchild)
      cases qs with
      | nil =>
          rw [lookupIn, lookupIn, get_insert]
          by_cases heq : d = ql
          · simp [heq, hfull, comparable]
          · simp [heq, comparable]
      | cons e es =>
          rw [lookupIn_cons, get_insert]
          by_cases heq : d = e
          · subst heq
            simp only [if_true]
            rw [ih hchild es ql, lookupIn_child hget]
            simp [comparable]
          · rw [if_neg heq, ← lookupIn_cons]
            simp [comparable, heq, Ne.symm heq]

/-- The removal of a file takes its path from the leaves: a directory that
becomes empty goes with it. -/
theorem isLeaf_removeIn {leaf : String} {m : FileMeta Id} {dirs : List String} {node : MemNode Id}
    (hsorted : node.Sorted) (h : MemEntry.toFile (node.lookupIn dirs leaf) = some m)
    (qs : List String) (ql : String) :
    MemEntry.isLeaf ((node.removeIn leaf dirs).1.lookupIn qs ql) = true ↔
      ¬ (qs = dirs ∧ ql = leaf) ∧ MemEntry.isLeaf (node.lookupIn qs ql) = true := by
  induction dirs generalizing node qs with
  | nil =>
      rw [removeIn]
      cases qs with
      | nil =>
          rw [lookupIn, lookupIn, get_erase node leaf ql hsorted]
          by_cases heq : leaf = ql
          · simp [heq, MemEntry.isLeaf]
          · simp [heq, Ne.symm heq]
      | cons e es =>
          rw [lookupIn_cons, get_erase node leaf e hsorted]
          by_cases heq : leaf = e
          · subst heq
            rw [lookupIn] at h
            have hfile : (MemNode.lookupIn node (leaf :: es) ql) = none := by
              rw [lookupIn_cons]
              split
              next child hchild => rw [hchild] at h; cases h
              next => rfl
            simp [hfile, MemEntry.isLeaf]
          · rw [if_neg heq, ← lookupIn_cons]
            simp
  | cons d ds ih =>
      obtain ⟨child, hget, hchild⟩ := toFile_lookupIn_cons h
      have hcut := get_removeIn_cons hsorted hget (removeIn_removed hchild)
      have hnonempty : child ≠ .empty := by
        rintro rfl
        rw [lookupIn_empty] at hchild
        cases hchild
      cases qs with
      | nil =>
          rw [lookupIn, lookupIn, hcut]
          by_cases heq : d = ql
          · subst heq
            rw [if_pos rfl, hget, MemEntry.not_isLeaf_dir hnonempty]
            split_ifs with hempty
            · simp [MemEntry.isLeaf]
            · have hkept : (child.removeIn leaf ds).1 ≠ .empty := by
                intro hnil
                rw [hnil] at hempty
                exact hempty rfl
              simp [MemEntry.not_isLeaf_dir hkept]
          · simp [heq]
      | cons e es =>
          rw [lookupIn_cons, hcut]
          by_cases heq : d = e
          · subst heq
            have hbelow := ih (get_sorted node d _ hsorted hget) hchild es
            rw [if_pos rfl, lookupIn_cons, hget]
            simp only [List.cons.injEq, true_and]
            rw [← hbelow]
            split_ifs with hempty
            · rw [eq_empty_of_isEmpty hempty, lookupIn_empty]
            · rfl
          · rw [if_neg heq, ← lookupIn_cons]
            simp [Ne.symm heq]

mutual

/-- The leaves of a node below the directory `dirs`. -/
def leavesInto (dirs : List String) : MemNode Id → List Path
  | .empty => []
  | .entry name e rest => leavesEntry dirs name e ++ rest.leavesInto dirs

def leavesEntry (dirs : List String) (name : String) : MemEntry Id → List Path
  | .file _ _ _ => [⟨dirs, name⟩]
  | .dir .empty => [⟨dirs, name⟩]
  | .dir child => child.leavesInto (dirs ++ [name])

end

def leaves (node : MemNode Id) : List Path := node.leavesInto []

theorem mem_leavesInto (node : MemNode Id) : node.Sorted → ∀ dirs q, q ∈ node.leavesInto dirs ↔
    ∃ ds, q.dirs = dirs ++ ds ∧ MemEntry.isLeaf (node.lookupIn ds q.leaf) = true := by
  induction node with
  | empty =>
      intro _ dirs q
      simp [leavesInto, lookupIn_empty, MemEntry.isLeaf]
  | entry n e rest ihChild ih =>
      intro hsorted dirs q
      have hother : ∀ {ds}, n = firstOf ds q.leaf →
          MemEntry.isLeaf (rest.lookupIn ds q.leaf) = false := by
        intro ds hfirst
        have hnone := get_of_after rest n hsorted.2.2 hsorted.1
        rw [lookupIn_of_get_none hnone hfirst.symm]
        rfl
      have hentry : q ∈ leavesEntry dirs n e ↔ ∃ ds, q.dirs = dirs ++ ds ∧ n = firstOf ds q.leaf ∧
          MemEntry.isLeaf ((MemNode.entry n e rest).lookupIn ds q.leaf) = true := by
        have hhere : MemEntry.isLeaf (some e) = true → leavesEntry dirs n e = [⟨dirs, n⟩] →
            (q ∈ leavesEntry dirs n e ↔ ∃ ds, q.dirs = dirs ++ ds ∧ n = firstOf ds q.leaf ∧
              MemEntry.isLeaf ((MemNode.entry n e rest).lookupIn ds q.leaf) = true) := by
          intro hleaf hlist
          rw [hlist, List.mem_singleton]
          constructor
          · rintro rfl
            exact ⟨[], (List.append_nil _).symm, rfl, by simpa [lookupIn, get] using hleaf⟩
          · rintro ⟨ds, hdirs, hfirst, hfound⟩
            cases ds with
            | nil =>
                rw [List.append_nil] at hdirs
                obtain ⟨qdirs, qleaf⟩ := q
                simp only at hdirs hfirst
                rw [hdirs, hfirst]
                rfl
            | cons d ds =>
                obtain rfl : n = d := hfirst
                rw [lookupIn_cons, get, if_pos rfl] at hfound
                cases e with
                | file blob size exec => cases hfound
                | dir child =>
                    cases child with
                    | empty => simp [lookupIn_empty, MemEntry.isLeaf] at hfound
                    | entry m e' below => cases hleaf
        cases e with
        | file blob size exec => exact hhere rfl rfl
        | dir child =>
        cases child with
        | empty => exact hhere rfl rfl
        | entry m e' below =>
            have hbelow := ihChild (.entry m e' below) rfl hsorted.2.1 (dirs ++ [n]) q
            have hlist : leavesEntry dirs n (.dir (.entry m e' below)) =
                (MemNode.entry m e' below).leavesInto (dirs ++ [n]) := by simp only [leavesEntry]
            rw [hlist, hbelow]
            constructor
            · rintro ⟨ds, hdirs, hfound⟩
              refine ⟨n :: ds, by rw [hdirs, List.append_assoc]; rfl, rfl, ?_⟩
              rw [lookupIn_cons, get, if_pos rfl]
              exact hfound
            · rintro ⟨ds, hdirs, hfirst, hfound⟩
              cases ds with
              | nil =>
                  rw [lookupIn, get, if_pos (show n = q.leaf from hfirst)] at hfound
                  cases hfound
              | cons d ds =>
                  obtain rfl : n = d := hfirst
                  rw [lookupIn_cons, get, if_pos rfl] at hfound
                  exact ⟨ds, by rw [hdirs, List.append_assoc]; rfl, hfound⟩
      rw [leavesInto, List.mem_append, hentry, ih hsorted.2.2 dirs q]
      constructor
      · rintro (⟨ds, hdirs, -, hfound⟩ | ⟨ds, hdirs, hfound⟩)
        · exact ⟨ds, hdirs, hfound⟩
        · refine ⟨ds, hdirs, ?_⟩
          rwa [lookupIn_rest fun hfirst => by simp [hother hfirst] at hfound]
      · rintro ⟨ds, hdirs, hfound⟩
        by_cases hfirst : n = firstOf ds q.leaf
        · exact .inl ⟨ds, hdirs, hfirst, hfound⟩
        · exact .inr ⟨ds, hdirs, by rwa [lookupIn_rest hfirst] at hfound⟩

theorem mem_leaves {node : MemNode Id} (hsorted : node.Sorted) {q : Path} :
    q ∈ node.leaves ↔ MemEntry.isLeaf (node.lookup q) = true := by
  rw [leaves, mem_leavesInto node hsorted]
  simp [lookup]

end MemNode

/-! ### Change lists -/

/-- What a change makes of the leaves. -/
def FileChange.leavesAfter (leaves : List Path) (c : FileChange Id) : List Path :=
  if c.op = .del then leaves.filter (fun q => decide (q ≠ c.path))
  else c.path :: leaves.filter (fun q => !comparable c.path.components q.components)

/-- The leaves of a parent's tree with a change list over them. -/
def changedLeaves (parent : MemNode Id) (changes : List (FileChange Id)) : List Path :=
  changes.foldl FileChange.leavesAfter parent.leaves

theorem ChangeApplied.mem_leaves {node node' : MemNode Id} {c : FileChange Id}
    (h : ChangeApplied node c node') (hsorted : node.Sorted) {leaves : List Path}
    (hleaves : ∀ q, q ∈ leaves ↔ MemEntry.isLeaf (node.lookup q) = true) (q : Path) :
    q ∈ c.leavesAfter leaves ↔ MemEntry.isLeaf (node'.lookup q) = true := by
  have hpath : q = c.path ↔ q.dirs = c.path.dirs ∧ q.leaf = c.path.leaf := by
    constructor
    · rintro rfl
      exact ⟨rfl, rfl⟩
    · rintro ⟨hdirs, hleaf⟩
      cases q
      cases hc : c.path
      simp_all
  cases h with
  | removed m hop hfile =>
      have hcut := MemNode.isLeaf_removeIn hsorted hfile q.dirs q.leaf
      rw [FileChange.leavesAfter, if_pos hop, List.mem_filter, hleaves, decide_eq_true_eq]
      show _ ↔ MemEntry.isLeaf ((node.removeIn c.path.leaf c.path.dirs).1.lookupIn q.dirs q.leaf) = true
      rw [hcut, ← hpath, and_comm]
      rfl
  | written m hop hfile hmod _ hinsert =>
      have hwritten := MemNode.isLeaf_insertIn hinsert q.dirs q.leaf
      rw [FileChange.leavesAfter, if_neg hop, List.mem_cons, List.mem_filter, hleaves,
        Bool.not_eq_true']
      show _ ↔ MemEntry.isLeaf (node'.lookupIn q.dirs q.leaf) = true
      rw [hwritten, ← hpath]
      rfl

theorem ChangeApplied.sorted {node node' : MemNode Id} {c : FileChange Id}
    (h : ChangeApplied node c node') (hsorted : node.Sorted) : node'.Sorted := by
  cases h with
  | removed m hop hfile => exact MemNode.removeIn_sorted hsorted hfile
  | written m hop hfile hmod _ hinsert =>
      exact MemNode.insertIn_sorted (show m.entry.Sorted from trivial) hsorted hinsert

/-- The leaves of the tree a change list makes. -/
theorem apply_leaves {parent node : MemNode Id} {changes : List (FileChange Id)}
    (hsorted : parent.Sorted) (h : parent.apply changes = .ok node) :
    node.Sorted ∧ ∀ q, q ∈ changedLeaves parent changes ↔ MemEntry.isLeaf (node.lookup q) = true := by
  refine Lib.foldlM_induct (P := fun done node => node.Sorted ∧ ∀ q,
    q ∈ changedLeaves parent done ↔ MemEntry.isLeaf (node.lookup q) = true) h
    ⟨hsorted, fun q => MemNode.mem_leaves hsorted⟩ ?_
  rintro done c rest mid mid' - ⟨hmid, hleaves⟩ hc
  have happlied := (applyChange_ok.mp hc).2
  refine ⟨happlied.sorted hmid, fun q => ?_⟩
  rw [changedLeaves, List.foldl_append]
  exact happlied.mem_leaves hmid hleaves q

end

end Naatre
