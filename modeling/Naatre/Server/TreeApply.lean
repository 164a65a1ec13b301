import Naatre.Lib.Table
import Naatre.Server.TreeFiles

/-!
What a change list does to the files of a tree. A change touches its own path
only, unless it adds a file where a directory stands; a directory never stays
behind empty.
-/

namespace Naatre

section

variable {Id : Type}

/-! ### Below a path -/

/-- `q` lies below `p`. -/
def Path.Below (p q : Path) : Prop := p.components <+: q.dirs

namespace MemNode

/-- A lookup goes through every directory on its way. -/
theorem lookupIn_append (node : MemNode Id) (ds : List String) (leaf : String) (qs : List String)
    (q : String) : node.lookupIn (ds ++ leaf :: qs) q =
      match node.lookupIn ds leaf with
      | some (.dir child) => child.lookupIn qs q
      | _ => none := by
  induction ds generalizing node with
  | nil => rfl
  | cons d ds ih =>
      rw [List.cons_append, lookupIn_cons, lookupIn_cons]
      match node.get d with
      | some (.dir child) => exact ih child
      | some (.file _ _ _) => rfl
      | none => rfl

theorem lookup_below {node : MemNode Id} {p q : Path} (h : p.Below q)
    (hdir : ¬ MemEntry.IsDir (node.lookup p)) : node.lookup q = none := by
  obtain ⟨rest, hrest⟩ := h
  have hq : q.dirs = p.dirs ++ p.leaf :: rest := by
    rw [← hrest, Path.components, List.append_assoc, List.singleton_append]
  rw [lookup, hq, lookupIn_append]
  split
  next child hchild => exact absurd ⟨child, hchild⟩ hdir
  next => rfl

/-! ### One removal -/

theorem erase_after {node : MemNode Id} {a name : String} (hsorted : node.Sorted)
    (h : node.After a) : (node.erase name).After a := by
  cases node with
  | empty => trivial
  | entry n e rest =>
      rw [erase]
      split_ifs
      · exact hsorted.1.trans h
      · exact h

theorem erase_sorted (node : MemNode Id) : ∀ name, node.Sorted → (node.erase name).Sorted := by
  induction node with
  | empty => exact fun _ _ => trivial
  | entry n e rest _ ih =>
      intro name hsorted
      rw [erase]
      split_ifs
      · exact hsorted.2.2
      · exact ⟨erase_after hsorted.2.2 hsorted.1, hsorted.2.1, ih name hsorted.2.2⟩

theorem get_erase (node : MemNode Id) : ∀ name n, node.Sorted →
    (node.erase name).get n = if name = n then none else node.get n := by
  induction node with
  | empty => exact fun name n _ => by simp [erase, get]
  | entry m e rest _ ih =>
      intro name n hsorted
      rw [erase]
      by_cases hm : m = name
      · subst hm
        rw [if_pos rfl, get]
        split_ifs with hn
        · subst hn
          exact get_of_after rest m hsorted.2.2 hsorted.1
        · rfl
      · rw [if_neg hm, get, get, ih name n hsorted.2.2]
        by_cases hn : name = n
        · subst hn
          rw [if_neg hm, if_pos rfl, if_pos rfl]
        · rw [if_neg hn, if_neg hn]

theorem removeIn_cons {node child : MemNode Id} {d leaf : String} {ds : List String}
    (hget : node.get d = some (.dir child)) (hremoved : (child.removeIn leaf ds).2 = true) :
    node.removeIn leaf (d :: ds) =
      (if (child.removeIn leaf ds).1.isEmpty then node.erase d
        else node.insert d (.dir (child.removeIn leaf ds).1), true) := by
  rw [removeIn, hget]
  simp only [hremoved, Bool.true_and]
  split_ifs <;> rfl

/-- The directory a file is removed from, one level down. -/
theorem toFile_lookupIn_cons {node : MemNode Id} {d : String} {ds : List String} {leaf : String}
    {m : FileMeta Id} (h : MemEntry.toFile (node.lookupIn (d :: ds) leaf) = some m) :
    ∃ child, node.get d = some (.dir child) ∧ MemEntry.toFile (child.lookupIn ds leaf) = some m := by
  rw [lookupIn_cons] at h
  split at h
  next child hchild => exact ⟨child, hchild, h⟩
  next => cases h

theorem removeIn_removed {leaf : String} {m : FileMeta Id} {dirs : List String} {node : MemNode Id}
    (h : MemEntry.toFile (node.lookupIn dirs leaf) = some m) :
    (node.removeIn leaf dirs).2 = true := by
  induction dirs generalizing node with
  | nil =>
      rw [lookupIn] at h
      rw [removeIn]
      match hget : node.get leaf with
      | some e => rfl
      | none => rw [hget] at h; cases h
  | cons d ds ih =>
      obtain ⟨child, hget, hchild⟩ := toFile_lookupIn_cons h
      rw [removeIn_cons hget (ih hchild)]

theorem removeIn_sorted {leaf : String} {m : FileMeta Id} {dirs : List String} {node : MemNode Id}
    (hsorted : node.Sorted) (h : MemEntry.toFile (node.lookupIn dirs leaf) = some m) :
    (node.removeIn leaf dirs).1.Sorted := by
  induction dirs generalizing node with
  | nil => exact erase_sorted node leaf hsorted
  | cons d ds ih =>
      obtain ⟨child, hget, hchild⟩ := toFile_lookupIn_cons h
      rw [removeIn_cons hget (removeIn_removed hchild)]
      simp only
      split_ifs
      · exact erase_sorted node d hsorted
      · exact insert_sorted node d _ hsorted (ih (get_sorted node d _ hsorted hget) hchild)

/-- What stands at a name after a removal below it. -/
theorem get_removeIn_cons {node child : MemNode Id} {d leaf : String} {ds : List String}
    (hsorted : node.Sorted) (hget : node.get d = some (.dir child))
    (hremoved : (child.removeIn leaf ds).2 = true) (n : String) :
    (node.removeIn leaf (d :: ds)).1.get n =
      if d = n then
        if (child.removeIn leaf ds).1.isEmpty then none
        else some (.dir (child.removeIn leaf ds).1)
      else node.get n := by
  rw [removeIn_cons hget hremoved]
  simp only
  split_ifs with hempty hn hn
  · rw [get_erase node d n hsorted, if_pos hn]
  · rw [get_erase node d n hsorted, if_neg hn]
  · rw [get_insert, if_pos hn]
  · rw [get_insert, if_neg hn]

theorem eq_empty_of_isEmpty {node : MemNode Id} (h : node.isEmpty = true) : node = .empty := by
  cases node with
  | empty => rfl
  | entry => cases h

/-- A removal changes its own path only. -/
theorem toFile_removeIn {leaf : String} {m : FileMeta Id} {dirs : List String} {node : MemNode Id}
    (hsorted : node.Sorted) (h : MemEntry.toFile (node.lookupIn dirs leaf) = some m)
    (qs : List String) (q : String) :
    MemEntry.toFile ((node.removeIn leaf dirs).1.lookupIn qs q) =
      if qs = dirs ∧ q = leaf then none else MemEntry.toFile (node.lookupIn qs q) := by
  induction dirs generalizing node qs with
  | nil =>
      rw [removeIn]
      cases qs with
      | nil =>
          rw [lookupIn, lookupIn, get_erase node leaf q hsorted]
          by_cases hq : q = leaf
          · subst hq
            simp
          · rw [if_neg fun h => hq h.symm, if_neg fun h => hq h.2]
      | cons e es =>
          rw [if_neg (by simp), lookupIn_cons, get_erase node leaf e hsorted]
          by_cases he : leaf = e
          · subst he
            rw [if_pos rfl, lookupIn_cons]
            rw [lookupIn] at h
            split
            next child hchild => cases hchild
            next =>
              split
              next child hchild => rw [hchild] at h; cases h
              next => rfl
          · rw [if_neg he, lookupIn_cons]
  | cons d ds ih =>
      obtain ⟨child, hget, hchild⟩ := toFile_lookupIn_cons h
      have hremoved := removeIn_removed hchild
      have hcut := get_removeIn_cons hsorted hget hremoved
      cases qs with
      | nil =>
          rw [if_neg (by simp), lookupIn, lookupIn, hcut]
          split_ifs with hn hempty
          · subst hn
            rw [hget]
            rfl
          · subst hn
            rw [hget]
            rfl
          · rfl
      | cons e es =>
          rw [lookupIn_cons, hcut]
          by_cases he : d = e
          · subst he
            have hbelow := ih (get_sorted node d _ hsorted hget) hchild es
            rw [if_pos rfl, lookupIn_cons, hget]
            simp only [List.cons.injEq, true_and]
            rw [← hbelow]
            split_ifs with hempty
            · rw [eq_empty_of_isEmpty hempty, lookupIn_empty]
            · rfl
          · rw [if_neg he, if_neg (by simp [Ne.symm he]), lookupIn_cons]

/-- A removal makes no directory. -/
theorem isDir_removeIn {leaf : String} {m : FileMeta Id} {dirs : List String} {node : MemNode Id}
    (hsorted : node.Sorted) (h : MemEntry.toFile (node.lookupIn dirs leaf) = some m)
    {qs : List String} {q : String}
    (hq : MemEntry.IsDir ((node.removeIn leaf dirs).1.lookupIn qs q)) :
    MemEntry.IsDir (node.lookupIn qs q) := by
  induction dirs generalizing node qs with
  | nil =>
      rw [removeIn] at hq
      obtain ⟨found, hfound⟩ := hq
      cases qs with
      | nil =>
          rw [lookupIn, get_erase node leaf q hsorted] at hfound
          split_ifs at hfound
          exact ⟨found, hfound⟩
      | cons e es =>
          rw [lookupIn_cons, get_erase node leaf e hsorted] at hfound
          split_ifs at hfound
          exact ⟨found, by rw [lookupIn_cons]; exact hfound⟩
  | cons d ds ih =>
      obtain ⟨child, hget, hchild⟩ := toFile_lookupIn_cons h
      have hcut := get_removeIn_cons hsorted hget (removeIn_removed hchild)
      cases qs with
      | nil =>
          rw [lookupIn, hcut] at hq
          split_ifs at hq with hn hempty
          · obtain ⟨found, hfound⟩ := hq
            cases hfound
          · subst hn
            exact ⟨child, hget⟩
          · exact hq
      | cons e es =>
          rw [lookupIn_cons, hcut] at hq
          by_cases he : d = e
          · subst he
            rw [lookupIn_cons, hget]
            rw [if_pos rfl] at hq
            split_ifs at hq with hempty
            · obtain ⟨found, hfound⟩ := hq
              cases hfound
            · exact ih (get_sorted node d _ hsorted hget) hchild hq
          · rw [if_neg he] at hq
            rw [lookupIn_cons]
            exact hq

end MemNode

/-! ### One change -/

/-- The file a change leaves at its path. -/
def FileChange.file (c : FileChange Id) : Option (FileMeta Id) :=
  match c.op, c.blob, c.size, c.exec with
  | .del, _, _, _ => none
  | _, some blob, some size, some exec => some ⟨blob, size, exec⟩
  | _, _, _, _ => none

/-- What a change that was applied did: a file was removed, or one was written. -/
inductive ChangeApplied (node : MemNode Id) (c : FileChange Id) : MemNode Id → Prop
  | removed (m : FileMeta Id) (hop : c.op = .del)
      (hfile : MemEntry.toFile (node.lookup c.path) = some m) :
      ChangeApplied node c (node.removeFile c.path)
  | written (m : FileMeta Id) (hop : c.op ≠ .del) (hfile : c.file = some m)
      (hmod : c.op = .mod → (MemEntry.toFile (node.lookup c.path)).isSome) (node' : MemNode Id)
      (hinsert : node.insertIn c.path.leaf m.entry c.path.dirs = some node') :
      ChangeApplied node c node'

theorem isFile_iff {e : Option (MemEntry Id)} :
    MemNode.isFile e = true ↔ ∃ m, MemEntry.toFile e = some m := by
  match e with
  | some (.file blob size exec) => simp [MemNode.isFile, MemEntry.toFile]
  | some (.dir child) => simp [MemNode.isFile]
  | none => simp [MemNode.isFile]

theorem applyChange_ok {node node' : MemNode Id} {c : FileChange Id} :
    node.applyChange c = .ok node' ↔
      c.path.components.length ≤ maxPathComponents ∧ ChangeApplied node c node' := by
  obtain ⟨path, op, blob, size, exec⟩ := c
  unfold MemNode.applyChange
  by_cases hdeep : maxPathComponents < path.components.length
  · rw [if_pos hdeep]
    simp only [reduceCtorEq, false_iff, not_and]
    omega
  · rw [if_neg hdeep]
    have hle : path.components.length ≤ maxPathComponents := by omega
    constructor
    · intro h
      refine ⟨hle, ?_⟩
      split at h
      next hop =>
        split_ifs at h with hfile
        obtain ⟨m, hm⟩ := isFile_iff.mp hfile
        cases h
        exact .removed m hop hm
      next hop =>
        split at h
        next b s e hb hs he =>
          simp only at hb hs he
          subst hb hs he
          split_ifs at h with hmod
          unfold MemNode.insertFile at h
          split at h
          next inserted hinserted =>
            cases h
            refine .written ⟨b, s, e⟩ hop ?_ (fun hisMod => ?_) _ hinserted
            · cases op <;> first | rfl | exact absurd rfl hop
            · simp only at hisMod
              subst hisMod
              obtain ⟨m, hm⟩ := isFile_iff.mp (by simpa using hmod)
              simp [hm]
          next => cases h
        next => cases h
    · rintro ⟨-, happlied⟩
      cases happlied with
      | removed m hop hfile =>
          simp only at hop hfile
          subst hop
          simp only
          rw [if_pos (isFile_iff.mpr ⟨m, hfile⟩)]
      | written m hop hfile hmod _ hinsert =>
          simp only at hop hmod hinsert
          have hpayload : blob = some m.blob ∧ size = some m.size ∧ exec = some m.exec := by
            cases op <;> cases blob <;> cases size <;> cases exec <;>
              simp_all [FileChange.file] <;> simp [← hfile]
          obtain ⟨rfl, rfl, rfl⟩ := hpayload
          have hinserted : node.insertFile path m.blob m.size m.exec = .ok node' := by
            unfold MemNode.insertFile
            rw [show MemEntry.file m.blob m.size m.exec = m.entry from rfl, hinsert]
          cases op with
          | del => exact absurd rfl hop
          | add => simpa using hinserted
          | mod =>
              obtain ⟨old, hold⟩ := Option.isSome_iff_exists.mp (hmod rfl)
              have hisFile := isFile_iff.mpr ⟨old, hold⟩
              simpa [hisFile] using hinserted

/-! ### A change list -/

/-- `d` may follow `c` in a list: another path, and none that `c`'s lies
below. -/
def FileChange.Ordered (c d : FileChange Id) : Prop :=
  c.path ≠ d.path ∧ ¬ d.path.Below c.path

theorem FileChange.ordered_of_lt {c d : FileChange Id} (h : c.path.text < d.path.text) :
    c.Ordered d :=
  ⟨fun heq => absurd h (by rw [heq]; exact lt_irrefl _),
    fun hbelow => lt_asymm h (Path.text_lt_of_below hbelow)⟩

/-- The files of a tree with a change list over them. -/
def changed (changes : List (FileChange Id)) (files : FileMap Id) : FileMap Id := fun p =>
  match changes.find? (fun c => decide (c.path = p)) with
  | some c => c.file
  | none => files p

theorem changed_of_fresh {changes : List (FileChange Id)} {files : FileMap Id} {p : Path}
    (h : ∀ c ∈ changes, c.path ≠ p) : changed changes files p = files p := by
  have hnone : changes.find? (fun c => decide (c.path = p)) = none := by
    rw [List.find?_eq_none]
    exact fun c hc => by simpa using h c hc
  rw [changed, hnone]

theorem changed_of_mem {changes : List (FileChange Id)} {files : FileMap Id} {c : FileChange Id}
    (horder : changes.Pairwise FileChange.Ordered) (hc : c ∈ changes) :
    changed changes files c.path = c.file := by
  have hnodup : (changes.map (fun c => c.path)).Nodup := by
    rw [List.Nodup, List.pairwise_map]
    exact horder.imp fun hordered => hordered.1
  have hfound : changes.find? (fun d => decide (d.path = c.path)) = some c :=
    Lib.find_of_nodup hnodup hc
  rw [changed, hfound]

theorem changed_append {done : List (FileChange Id)} {c : FileChange Id} {files : FileMap Id}
    (hfresh : ∀ d ∈ done, d.path ≠ c.path) (p : Path) :
    changed (done ++ [c]) files p = if p = c.path then c.file else changed done files p := by
  rw [changed, changed, List.find?_append]
  by_cases hp : p = c.path
  · subst hp
    have hnone : done.find? (fun d => decide (d.path = c.path)) = none := by
      rw [List.find?_eq_none]
      exact fun d hd => by simpa using hfresh d hd
    simp [hnone]
  · have hmiss : ([c] : List (FileChange Id)).find? (fun d => decide (d.path = p)) = none := by
      simp [Ne.symm hp]
    rw [hmiss, Option.or_none, if_neg hp]

/-- What a tree holds after some of the changes. -/
structure Applied (orig : MemNode Id) (done : List (FileChange Id)) (node : MemNode Id) : Prop where
  sorted : node.Sorted
  files : ∀ p, MemEntry.toFile (node.lookup p) =
    changed done (fun q => MemEntry.toFile (orig.lookup q)) p
  dirs : ∀ p, MemEntry.IsDir (node.lookup p) →
    MemEntry.IsDir (orig.lookup p) ∨ ∃ c ∈ done, p.Below c.path

namespace Applied

variable {orig node node' : MemNode Id} {done : List (FileChange Id)} {c : FileChange Id}

theorem start (hsorted : orig.Sorted) : Applied orig [] orig :=
  ⟨hsorted, fun _ => rfl, fun _ h => .inl h⟩

theorem next (h : Applied orig done node) (hc : ChangeApplied node c node')
    (horder : ∀ d ∈ done, d.Ordered c)
    (hadd : c.op = .add → ¬ MemEntry.IsDir (orig.lookup c.path)) :
    Applied orig (done ++ [c]) node' := by
  have hfresh : ∀ d ∈ done, d.path ≠ c.path := fun d hd => (horder d hd).1
  have hpath : ∀ p : Path, p = c.path ↔ p.dirs = c.path.dirs ∧ p.leaf = c.path.leaf := by
    intro p
    constructor
    · rintro rfl
      exact ⟨rfl, rfl⟩
    · rintro ⟨hdirs, hleaf⟩
      cases p
      cases hc' : c.path
      simp_all
  cases hc with
  | removed m hop hfile =>
      refine ⟨MemNode.removeIn_sorted h.sorted hfile, fun p => ?_, fun p hp => ?_⟩
      · have hcut := MemNode.toFile_removeIn h.sorted hfile p.dirs p.leaf
        have hnone : c.file = none := by rw [FileChange.file, hop]
        rw [changed_append hfresh, hnone, ← h.files p]
        simp only [← hpath] at hcut
        exact hcut
      · rcases h.dirs p (MemNode.isDir_removeIn h.sorted hfile hp) with hold | ⟨d, hd, hbelow⟩
        · exact .inl hold
        · exact .inr ⟨d, List.mem_append_left _ hd, hbelow⟩
  | written m hop hfile hmod node' hinsert =>
      have hdir : ¬ MemEntry.IsDir (node.lookup c.path) := by
        intro hdir
        cases hcop : c.op with
        | del => exact hop hcop
        | mod =>
            obtain ⟨old, hold⟩ := Option.isSome_iff_exists.mp (hmod hcop)
            rw [MemEntry.toFile_of_isDir hdir] at hold
            cases hold
        | add =>
            rcases h.dirs _ hdir with hold | hbelow
            · exact hadd hcop hold
            · obtain ⟨d, hd, hbelow⟩ := hbelow
              exact (horder d hd).2 hbelow
      refine ⟨MemNode.insertIn_sorted (show m.entry.Sorted from trivial) h.sorted hinsert, fun p => ?_,
        fun p hp => ?_⟩
      · have hwritten := MemNode.toFile_insertIn hinsert hdir p.dirs p.leaf
        rw [changed_append hfresh, hfile, ← h.files p]
        simp only [← hpath] at hwritten
        exact hwritten
      · rcases MemNode.isDir_insertIn hinsert hp with hold | hbelow
        · rcases h.dirs p hold with hold | ⟨d, hd, hbelow⟩
          · exact .inl hold
          · exact .inr ⟨d, List.mem_append_left _ hd, hbelow⟩
        · exact .inr ⟨c, by simp, hbelow⟩

end Applied

/-- A change list in order that adds no file over a directory leaves the tree's
files with the list over them. -/
theorem apply_applied {node node' : MemNode Id} {changes : List (FileChange Id)}
    (hsorted : node.Sorted) (horder : changes.Pairwise FileChange.Ordered)
    (hadd : ∀ c ∈ changes, c.op = .add → ¬ MemEntry.IsDir (node.lookup c.path))
    (h : node.apply changes = .ok node') : Applied node changes node' := by
  refine Lib.foldlM_induct (P := Applied node) h (.start hsorted) ?_
  intro done c rest mid mid' hchanges ih hc
  subst hchanges
  refine ih.next (applyChange_ok.mp hc).2 ?_ (hadd c (by simp))
  rw [List.pairwise_append] at horder
  exact fun d hd => horder.2.2 d hd c List.mem_cons_self

end

end Naatre
