import Mathlib.Data.List.Infix
import Naatre.Server.MergeSteps

/-!
The files of a tree: a flattened directory read as a map from paths to files,
and the map of a tree that was applied from a list of files in path order.
-/

namespace Naatre

/-! ### Path order -/

theorem intercalate_lt {xs ys : List String} (hxs : xs ≠ []) (hys : ys ≠ []) :
    String.intercalate "/" xs < String.intercalate "/" (xs ++ ys) := by
  rw [String.intercalate_append_of_ne_nil hxs hys, String.lt_iff_toList_lt, String.toList_append,
    String.toList_append, List.append_assoc]
  have hlt : ∀ l : List Char, l < l ++ ("/".toList ++ (String.intercalate "/" ys).toList) := by
    intro l
    induction l with
    | nil => exact List.nil_lt_cons _ _
    | cons c l ih => exact List.cons_lt_cons_self.mpr ih
  exact hlt _

/-- A file comes before everything below it. -/
theorem Path.text_lt_of_below {p q : Path} (h : p.components <+: q.dirs) : p.text < q.text := by
  obtain ⟨rest, hrest⟩ := h
  have hq : q.components = p.components ++ (rest ++ [q.leaf]) := by
    rw [Path.components, ← hrest, List.append_assoc]
  rw [Path.text, Path.text, hq]
  exact intercalate_lt (by simp [Path.components]) (by simp)

section

variable {Id : Type}

/-! ### One directory -/

/-- A tree as a map from paths to files. -/
abbrev FileMap (Id : Type) := Path → Option (FileMeta Id)

def filesAt (node : MemNode Id) : FileMap Id := fun p => (flattenFiles node).lookup p

/-- The file a looked-up entry is. -/
def MemEntry.toFile : Option (MemEntry Id) → Option (FileMeta Id)
  | some (.file blob size exec) => some ⟨blob, size, exec⟩
  | _ => none

def FileMeta.entry (m : FileMeta Id) : MemEntry Id := .file m.blob m.size m.exec

@[simp] theorem MemEntry.toFile_entry (m : FileMeta Id) : toFile (some m.entry) = some m := rfl

@[simp] theorem MemEntry.toFile_dir (child : MemNode Id) : toFile (some (.dir child)) = none := rfl

@[simp] theorem MemEntry.toFile_none : toFile (none : Option (MemEntry Id)) = none := rfl

/-- A directory stands at the looked-up place. -/
def MemEntry.IsDir (e : Option (MemEntry Id)) : Prop := ∃ child, e = some (.dir child)

theorem MemEntry.toFile_of_isDir {e : Option (MemEntry Id)} (h : IsDir e) : toFile e = none := by
  obtain ⟨child, rfl⟩ := h
  rfl

namespace MemNode

/-- The entries of a directory in order, each with what holds of the directory it
is. -/
@[induction_eliminator]
theorem induct {motive : MemNode Id → Prop} (empty : motive .empty)
    (entry : ∀ name e rest, (∀ child, e = .dir child → motive child) → motive rest →
      motive (.entry name e rest)) (node : MemNode Id) : motive node :=
  @MemNode.rec Id (fun e => ∀ child, e = .dir child → motive child) motive
    (fun _ _ _ _ h => by cases h) (fun _ ih _ h => by cases h; exact ih) empty
    (fun name e rest ihe ih => entry name e rest ihe ih) node

/-- The first name lies after `name`. -/
def After (name : String) : MemNode Id → Prop
  | .empty => True
  | .entry n _ _ => name < n

end MemNode

mutual

/-- Every directory lists its names in ascending order. -/
def MemNode.Sorted : MemNode Id → Prop
  | .empty => True
  | .entry name e rest => rest.After name ∧ e.Sorted ∧ rest.Sorted

def MemEntry.Sorted : MemEntry Id → Prop
  | .file _ _ _ => True
  | .dir child => child.Sorted

end

namespace MemNode

theorem After.trans {a b : String} {node : MemNode Id} (hab : a < b) (h : node.After b) :
    node.After a := by
  cases node with
  | empty => trivial
  | entry n e rest => exact lt_trans hab h

theorem get_of_after : (node : MemNode Id) → ∀ name, node.Sorted → node.After name →
    node.get name = none
  | .empty => fun _ _ _ => rfl
  | .entry n e rest => by
      intro name hsorted hafter
      have hne : n ≠ name := (ne_of_lt hafter).symm
      rw [get, if_neg hne]
      exact get_of_after rest name hsorted.2.2 (hsorted.1.trans hafter)

theorem get_insert : (node : MemNode Id) → ∀ name new n,
    (node.insert name new).get n = if name = n then some new else node.get n
  | .empty => fun _ _ _ => rfl
  | .entry m e rest => by
      intro name new n
      rw [insert]
      by_cases hm : m = name
      · subst hm
        rw [if_pos rfl, get, get]
        split_ifs <;> rfl
      · rw [if_neg hm]
        split_ifs with hlt hn hn
        · rw [get, if_pos hn]
        · rw [get, if_neg hn]
        · subst hn
          rw [get, if_neg hm, get_insert rest, if_pos rfl]
        · rw [get, get, get_insert rest, if_neg hn]

theorem get_sorted : (node : MemNode Id) → ∀ name e, node.Sorted → node.get name = some e →
    e.Sorted
  | .empty => fun _ _ _ h => by simp [get] at h
  | .entry n e rest => by
      intro name found hsorted h
      rw [get] at h
      split_ifs at h
      · exact Option.some.inj h ▸ hsorted.2.1
      · exact get_sorted rest name found hsorted.2.2 h

theorem insert_after {node : MemNode Id} {a name : String} {new : MemEntry Id} (h : node.After a)
    (hname : a < name) : (node.insert name new).After a := by
  cases node with
  | empty => exact hname
  | entry n e rest =>
      rw [insert]
      split_ifs
      · exact hname
      · exact hname
      · exact h

theorem insert_sorted : (node : MemNode Id) → ∀ name new, node.Sorted → new.Sorted →
    (node.insert name new).Sorted
  | .empty => fun _ _ _ hnew => ⟨trivial, hnew, trivial⟩
  | .entry n e rest => by
      intro name new hsorted hnew
      rw [insert]
      split_ifs with hn hlt
      · subst hn
        exact ⟨hsorted.1, hnew, hsorted.2.2⟩
      · exact ⟨hlt, hnew, hsorted⟩
      · have hname : n < name := lt_of_le_of_ne (not_lt.mp hlt) hn
        exact ⟨insert_after hsorted.1 hname, hsorted.2.1, insert_sorted rest name new hsorted.2.2 hnew⟩

/-! ### One insertion -/

/-- What an insertion does below a directory component: the child it goes into,
which is a fresh one where there is none. -/
theorem insertIn_cons {node node' : MemNode Id} {leaf d : String} {file : MemEntry Id}
    {ds : List String} (h : node.insertIn leaf file (d :: ds) = some node') :
    ∃ child child', (node.get d = some (.dir child) ∨ node.get d = none ∧ child = .empty) ∧
      child.insertIn leaf file ds = some child' ∧ node' = node.insert d (.dir child') := by
  rw [insertIn] at h
  split at h
  next hget =>
    obtain ⟨child', hchild, rfl⟩ := Option.map_eq_some_iff.mp h
    exact ⟨.empty, child', .inr ⟨hget, rfl⟩, hchild, rfl⟩
  next child hget =>
    obtain ⟨child', hchild, rfl⟩ := Option.map_eq_some_iff.mp h
    exact ⟨child, child', .inl hget, hchild, rfl⟩
  next => cases h

theorem insertIn_sorted {leaf : String} {file : MemEntry Id} (hfile : file.Sorted)
    {dirs : List String} {node node' : MemNode Id} (hsorted : node.Sorted)
    (h : node.insertIn leaf file dirs = some node') : node'.Sorted := by
  induction dirs generalizing node node' with
  | nil =>
      obtain rfl := Option.some.inj h
      exact insert_sorted node leaf file hsorted hfile
  | cons d ds ih =>
      obtain ⟨child, child', hget, hchild, rfl⟩ := insertIn_cons h
      refine insert_sorted node d _ hsorted (ih ?_ hchild)
      rcases hget with hget | ⟨-, rfl⟩
      · exact get_sorted node d _ hsorted hget
      · trivial

theorem lookupIn_cons (node : MemNode Id) (d : String) (ds : List String) (leaf : String) :
    node.lookupIn (d :: ds) leaf =
      match node.get d with
      | some (.dir child) => child.lookupIn ds leaf
      | _ => none := rfl

theorem lookupIn_empty (dirs : List String) (leaf : String) :
    (MemNode.empty : MemNode Id).lookupIn dirs leaf = none := by
  cases dirs <;> rfl

/-- The child an insertion goes into holds what the directory held there. -/
theorem lookupIn_child {node child : MemNode Id} {d : String}
    (hget : node.get d = some (.dir child) ∨ node.get d = none ∧ child = .empty)
    (ds : List String) (leaf : String) :
    child.lookupIn ds leaf = node.lookupIn (d :: ds) leaf := by
  rcases hget with hget | ⟨hget, rfl⟩
  · rw [lookupIn_cons, hget]
  · rw [lookupIn_cons, hget, lookupIn_empty]

/-- A file that goes in where no directory stands changes its own path only. -/
theorem toFile_insertIn {leaf : String} {m : FileMeta Id} {dirs : List String}
    {node node' : MemNode Id} (h : node.insertIn leaf m.entry dirs = some node')
    (hdir : ¬ MemEntry.IsDir (node.lookupIn dirs leaf)) (qs : List String) (q : String) :
    MemEntry.toFile (node'.lookupIn qs q) =
      if qs = dirs ∧ q = leaf then some m else MemEntry.toFile (node.lookupIn qs q) := by
  induction dirs generalizing node node' qs with
  | nil =>
      obtain rfl := Option.some.inj h
      cases qs with
      | nil =>
          rw [lookupIn, lookupIn, get_insert]
          by_cases hq : q = leaf
          · simp [hq]
          · rw [if_neg fun h => hq h.symm, if_neg fun h => hq h.2]
      | cons d ds =>
          rw [if_neg (by simp), lookupIn_cons, get_insert]
          by_cases hd : leaf = d
          · subst hd
            rw [if_pos rfl, lookupIn_cons]
            rw [lookupIn] at hdir
            split
            next child hchild => cases hchild
            next =>
              split
              next child hchild => exact absurd ⟨child, hchild⟩ hdir
              next => rfl
          · rw [if_neg hd, lookupIn_cons]
  | cons d ds ih =>
      obtain ⟨child, child', hget, hchild, rfl⟩ := insertIn_cons h
      have hbelow := lookupIn_child hget
      rw [← hbelow] at hdir
      cases qs with
      | nil =>
          rw [if_neg (by simp), lookupIn, lookupIn, get_insert]
          split_ifs with hq
          · subst hq
            rcases hget with hget | ⟨hget, -⟩ <;> rw [hget] <;> rfl
          · rfl
      | cons e es =>
          rw [lookupIn_cons, get_insert]
          by_cases he : d = e
          · subst he
            rw [if_pos rfl, ← hbelow]
            simpa using ih hchild hdir es
          · rw [if_neg he, if_neg (by simp [Ne.symm he]), lookupIn_cons]

/-- The directories an insertion makes lie on its path. -/
theorem isDir_insertIn {leaf : String} {m : FileMeta Id} {dirs : List String}
    {node node' : MemNode Id} (h : node.insertIn leaf m.entry dirs = some node')
    {qs : List String} {q : String} (hq : MemEntry.IsDir (node'.lookupIn qs q)) :
    MemEntry.IsDir (node.lookupIn qs q) ∨ qs ++ [q] <+: dirs := by
  induction dirs generalizing node node' qs with
  | nil =>
      obtain rfl := Option.some.inj h
      refine .inl ?_
      obtain ⟨found, hfound⟩ := hq
      cases qs with
      | nil =>
          rw [lookupIn, get_insert] at hfound
          split_ifs at hfound with hleaf
          · cases hfound
          · exact ⟨found, hfound⟩
      | cons d ds =>
          rw [lookupIn_cons, get_insert] at hfound
          split_ifs at hfound with hleaf
          · cases hfound
          · exact ⟨found, by rw [lookupIn_cons]; exact hfound⟩
  | cons d ds ih =>
      obtain ⟨child, child', hget, hchild, rfl⟩ := insertIn_cons h
      cases qs with
      | nil =>
          rw [lookupIn, get_insert] at hq
          split_ifs at hq with hd
          · subst hd
            exact .inr ⟨ds, rfl⟩
          · exact .inl hq
      | cons e es =>
          rw [lookupIn_cons, get_insert] at hq
          split_ifs at hq with he
          · subst he
            rcases ih hchild hq with hold | hprefix
            · rw [lookupIn_child hget] at hold
              exact .inl hold
            · exact .inr (by simpa using hprefix)
          · exact .inl (by rw [lookupIn_cons]; exact hq)

end MemNode

/-! ### The flattened tree -/

mutual

theorem dirs_flattenInto : (node : MemNode Id) → ∀ dirs, ∀ f ∈ node.flattenInto dirs,
    dirs <+: f.1.dirs
  | .empty => fun _ _ hf => absurd hf List.not_mem_nil
  | .entry name e rest => by
      intro dirs f hf
      rcases List.mem_append.mp hf with hf | hf
      · exact dirs_flattenEntry e dirs name f hf
      · exact dirs_flattenInto rest dirs f hf

theorem dirs_flattenEntry : (e : MemEntry Id) → ∀ dirs name, ∀ f ∈ e.flattenEntry dirs name,
    dirs <+: f.1.dirs
  | .file blob size exec => by
      intro dirs name f hf
      rw [List.mem_singleton.mp hf]
  | .dir child => by
      intro dirs name f hf
      have hbelow := dirs_flattenInto child (dirs ++ [name]) f hf
      exact (List.prefix_append dirs [name]).trans hbelow

end

namespace MemNode

/-- A directory in order is its first entry and the rest. -/
theorem toFile_lookupIn_entry {name : String} {e : MemEntry Id} {rest : MemNode Id}
    (hrest : rest.get name = none) (ds : List String) (leaf : String) :
    MemEntry.toFile ((MemNode.entry name e rest).lookupIn ds leaf) =
      (MemEntry.toFile ((MemNode.entry name e .empty).lookupIn ds leaf)).or
        (MemEntry.toFile (rest.lookupIn ds leaf)) := by
  cases ds with
  | nil =>
      simp only [lookupIn, get]
      by_cases hname : name = leaf
      · subst hname
        rw [if_pos rfl, if_pos rfl, hrest, MemEntry.toFile_none, Option.or_none]
      · rw [if_neg hname, if_neg hname, MemEntry.toFile_none, Option.none_or]
  | cons d ds =>
      simp only [lookupIn_cons, get]
      by_cases hname : name = d
      · subst hname
        rw [if_pos rfl, if_pos rfl, hrest, MemEntry.toFile_none, Option.or_none]
      · rw [if_neg hname, if_neg hname, MemEntry.toFile_none, Option.none_or]

end MemNode

mutual

theorem lookup_flattenInto : (node : MemNode Id) → node.Sorted → ∀ dirs ds leaf,
    (node.flattenInto dirs).lookup ⟨dirs ++ ds, leaf⟩ = MemEntry.toFile (node.lookupIn ds leaf)
  | .empty => by
      intro _ dirs ds leaf
      rw [MemNode.lookupIn_empty]
      rfl
  | .entry name e rest => by
      intro hsorted dirs ds leaf
      have hrest : rest.get name = none := MemNode.get_of_after rest name hsorted.2.2 hsorted.1
      rw [MemNode.flattenInto, List.lookup_append, MemNode.toFile_lookupIn_entry hrest,
        lookup_flattenEntry e hsorted.2.1, lookup_flattenInto rest hsorted.2.2]

theorem lookup_flattenEntry : (e : MemEntry Id) → e.Sorted → ∀ dirs name ds leaf,
    (e.flattenEntry dirs name).lookup ⟨dirs ++ ds, leaf⟩ =
      MemEntry.toFile ((MemNode.entry name e .empty).lookupIn ds leaf)
  | .file blob size exec => by
      intro _ dirs name ds leaf
      rw [MemEntry.flattenEntry, List.lookup_cons]
      cases ds with
      | nil =>
          simp only [MemNode.lookupIn, MemNode.get]
          by_cases hname : name = leaf
          · simp [hname, MemEntry.toFile]
          · have hne : (⟨dirs ++ [], leaf⟩ : Path) ≠ ⟨dirs, name⟩ := by simp [Ne.symm hname]
            rw [beq_eq_false_iff_ne.mpr hne, if_neg hname]
            rfl
      | cons d ds =>
          have hne : (⟨dirs ++ d :: ds, leaf⟩ : Path) ≠ ⟨dirs, name⟩ := by simp
          rw [beq_eq_false_iff_ne.mpr hne, MemNode.lookupIn_cons]
          by_cases hname : name = d <;> simp [MemNode.get, hname]
  | .dir child => by
      intro hsorted dirs name ds leaf
      rw [MemEntry.flattenEntry]
      have hmiss : (∀ rest, ds ≠ name :: rest) →
          (child.flattenInto (dirs ++ [name])).lookup ⟨dirs ++ ds, leaf⟩ = none := by
        intro hds
        rw [List.lookup_eq_none_iff]
        intro f hf
        rw [bne_iff_ne]
        intro hpath
        obtain ⟨rest, hrest⟩ := dirs_flattenInto child _ _ hf
        rw [← hpath, List.append_assoc, List.append_cancel_left_eq] at hrest
        exact hds rest hrest.symm
      cases ds with
      | nil =>
          rw [hmiss (by simp), MemNode.lookupIn, MemNode.get]
          split_ifs <;> rfl
      | cons d ds =>
          rw [MemNode.lookupIn_cons, MemNode.get]
          by_cases hname : name = d
          · subst hname
            rw [if_pos rfl]
            have hbelow := lookup_flattenInto child hsorted (dirs ++ [name]) ds leaf
            rw [List.append_assoc] at hbelow
            exact hbelow
          · rw [if_neg hname, hmiss (by simp [Ne.symm hname])]
            rfl

end

/-- A sorted tree holds at a path what a lookup finds there. -/
theorem filesAt_eq_lookup {node : MemNode Id} (hsorted : node.Sorted) (p : Path) :
    filesAt node p = MemEntry.toFile (node.lookup p) :=
  lookup_flattenInto node hsorted [] p.dirs p.leaf

/-! ### A tree applied from its files -/

theorem applyChange_add {node node' : MemNode Id} {f : Path × FileMeta Id}
    (h : node.applyChange (addChange f) = .ok node') :
    node.insertIn f.1.leaf f.2.entry f.1.dirs = some node' := by
  unfold MemNode.applyChange at h
  simp only [addChange] at h
  split_ifs at h with hdeep
  unfold MemNode.insertFile at h
  split at h
  next inserted hinserted =>
    cases h
    exact hinserted
  next => cases h

/-- What a tree holds after some of the files went in. -/
structure HoldsFiles (done : Files Id) (node : MemNode Id) : Prop where
  sorted : node.Sorted
  files : ∀ p, MemEntry.toFile (node.lookup p) = done.lookup p
  dirs : ∀ p, MemEntry.IsDir (node.lookup p) → ∃ f ∈ done, p.components <+: f.1.dirs

theorem HoldsFiles.insert {done : Files Id} {node node' : MemNode Id} {f : Path × FileMeta Id}
    (h : HoldsFiles done node) (hfresh : done.lookup f.1 = none)
    (horder : ∀ g ∈ done, g.1.before f.1 = true)
    (hf : node.insertIn f.1.leaf f.2.entry f.1.dirs = some node') :
    HoldsFiles (done ++ [f]) node' := by
  have hdir : ¬ MemEntry.IsDir (node.lookup f.1) := by
    intro hdir
    obtain ⟨g, hg, hbelow⟩ := h.dirs f.1 hdir
    have hle : g.1.text ≤ f.1.text := by simpa [Path.before] using horder g hg
    exact absurd (Path.text_lt_of_below hbelow) (not_lt.mpr hle)
  have hfile : f.2.entry.Sorted := trivial
  refine ⟨MemNode.insertIn_sorted hfile h.sorted hf, fun p => ?_, fun p hp => ?_⟩
  · have hfiles := MemNode.toFile_insertIn hf hdir p.dirs p.leaf
    rw [List.lookup_append, List.lookup_cons, List.lookup_nil]
    by_cases hp : p = f.1
    · subst hp
      rw [hfresh, beq_self_eq_true, Option.none_or, MemNode.lookup, hfiles]
      simp
    · rw [beq_eq_false_iff_ne.mpr hp, Option.or_none, ← h.files p]
      have hpath : ¬ (p.dirs = f.1.dirs ∧ p.leaf = f.1.leaf) := by
        rintro ⟨hdirs, hleaf⟩
        exact hp (by cases p; simp_all)
      rw [if_neg hpath] at hfiles
      exact hfiles
  · rcases MemNode.isDir_insertIn hf hp with hold | hprefix
    · obtain ⟨g, hg, hbelow⟩ := h.dirs p hold
      exact ⟨g, List.mem_append_left _ hg, hbelow⟩
    · exact ⟨f, by simp, hprefix⟩

theorem HoldsFiles.of_loop {files : Files Id} {node : MemNode Id}
    (horder : files.Pairwise fun f g => f.1.before g.1 = true)
    (hnodup : (files.map (fun f => f.1)).Nodup)
    (hrun : files.foldlM (fun node f => MemNode.applyChange node (addChange f)) .empty = .ok node) :
    HoldsFiles files node := by
  refine Lib.foldlM_induct (P := HoldsFiles) hrun ?_ ?_
  · refine ⟨trivial, fun p => ?_, fun p hp => ?_⟩
    · rw [MemNode.lookup, MemNode.lookupIn_empty]
      rfl
    · rw [MemNode.lookup, MemNode.lookupIn_empty] at hp
      obtain ⟨child, hchild⟩ := hp
      cases hchild
  · intro done f rest node node' hfiles hholds hf
    subst hfiles
    refine hholds.insert ?_ ?_ (applyChange_add hf)
    · apply lookup_eq_none_of_not_mem
      rw [List.map_append, List.map_cons, List.nodup_append] at hnodup
      exact fun hmem => hnodup.2.2 _ hmem _ List.mem_cons_self rfl
    · intro g hg
      rw [List.pairwise_append] at horder
      exact horder.2.2 g hg f List.mem_cons_self

/-- The tree applied from files in path order holds exactly these. -/
theorem filesAt_apply {files : Files Id} {node : MemNode Id}
    (horder : files.Pairwise fun f g => f.1.before g.1 = true)
    (hnodup : (files.map (fun f => f.1)).Nodup)
    (h : MemNode.empty.apply (files.map addChange) = .ok node) (p : Path) :
    filesAt node p = files.lookup p := by
  rw [MemNode.apply, List.foldlM_map] at h
  have hholds := HoldsFiles.of_loop horder hnodup h
  rw [filesAt_eq_lookup hholds.sorted, hholds.files]

end

end Naatre
