import Naatre.Core.Plain
import Naatre.Server.ThreeWay
import Naatre.Server.TreeApply

/-!
The delta of two trees applied to the first of them. It gives the second one
exactly when no file of the second stands where the first has a directory, and
files alike in content and mode are alike in size.
-/

namespace Naatre

section

variable {Id : Type}

/-! ### Trees without empty directories -/

mutual

/-- No directory below the root is empty. -/
def MemNode.Full : MemNode Id → Prop
  | .empty => True
  | .entry _ e rest => e.Full ∧ rest.Full

def MemEntry.Full : MemEntry Id → Prop
  | .file _ _ _ => True
  | .dir child => child ≠ .empty ∧ child.Full

end

namespace MemNode

theorem get_full (node : MemNode Id) : ∀ name e, node.Full → node.get name = some e → e.Full := by
  induction node with
  | empty => exact fun _ _ _ h => by simp [get] at h
  | entry n e rest _ ih =>
      intro name found hfull h
      rw [get] at h
      split_ifs at h
      · exact Option.some.inj h ▸ hfull.1
      · exact ih name found hfull.2 h

theorem lookupIn_full {node : MemNode Id} (ds : List String) (leaf : String) (e : MemEntry Id)
    (hfull : node.Full) (h : node.lookupIn ds leaf = some e) : e.Full := by
  induction ds generalizing node with
  | nil => exact get_full node leaf e hfull h
  | cons d ds ih =>
      rw [lookupIn_cons] at h
      split at h
      next child hchild => exact ih (get_full node d _ hfull hchild).2 h
      next => cases h

theorem insert_full (node : MemNode Id) : ∀ name new, node.Full → new.Full →
    (node.insert name new).Full := by
  induction node with
  | empty => exact fun _ _ _ hnew => ⟨hnew, trivial⟩
  | entry n e rest _ ih =>
      intro name new hfull hnew
      rw [insert]
      split_ifs
      · exact ⟨hnew, hfull.2⟩
      · exact ⟨hnew, hfull⟩
      · exact ⟨hfull.1, ih name new hfull.2 hnew⟩

theorem insert_ne_empty (node : MemNode Id) (name : String) (new : MemEntry Id) :
    node.insert name new ≠ .empty := by
  cases node with
  | empty => simp [insert]
  | entry n e rest =>
      rw [insert]
      split_ifs <;> simp

theorem erase_full (node : MemNode Id) : ∀ name, node.Full → (node.erase name).Full := by
  induction node with
  | empty => exact fun _ h => h
  | entry n e rest _ ih =>
      intro name hfull
      rw [erase]
      split_ifs
      · exact hfull.2
      · exact ⟨hfull.1, ih name hfull.2⟩

theorem insertIn_full {leaf : String} {m : FileMeta Id} {dirs : List String}
    {node node' : MemNode Id} (hfull : node.Full)
    (h : node.insertIn leaf m.entry dirs = some node') : node' ≠ .empty ∧ node'.Full := by
  induction dirs generalizing node node' with
  | nil =>
      obtain rfl := Option.some.inj h
      exact ⟨insert_ne_empty _ _ _, insert_full node leaf _ hfull trivial⟩
  | cons d ds ih =>
      obtain ⟨child, child', hget, hchild, rfl⟩ := insertIn_cons h
      have hchildFull : child.Full := by
        rcases hget with hget | ⟨-, rfl⟩
        · exact (get_full node d _ hfull hget).2
        · trivial
      exact ⟨insert_ne_empty _ _ _, insert_full node d _ hfull (ih hchildFull hchild)⟩

theorem removeIn_full {leaf : String} {m : FileMeta Id} {dirs : List String} {node : MemNode Id}
    (hfull : node.Full) (h : MemEntry.toFile (node.lookupIn dirs leaf) = some m) :
    (node.removeIn leaf dirs).1.Full := by
  induction dirs generalizing node with
  | nil => exact erase_full node leaf hfull
  | cons d ds ih =>
      obtain ⟨child, hget, hchild⟩ := toFile_lookupIn_cons h
      rw [removeIn_cons hget (removeIn_removed hchild)]
      simp only
      split_ifs with hempty
      · exact erase_full node d hfull
      · refine insert_full node d _ hfull ⟨fun heq => ?_, ih (get_full node d _ hfull hget).2 hchild⟩
        rw [heq] at hempty
        exact hempty rfl

end MemNode

theorem ChangeApplied.full {node node' : MemNode Id} {c : FileChange Id}
    (h : ChangeApplied node c node') (hfull : node.Full) : node'.Full := by
  cases h with
  | removed m hop hfile => exact MemNode.removeIn_full hfull hfile
  | written m hop hfile hmod _ hinsert => exact (MemNode.insertIn_full hfull hinsert).2

theorem apply_full {node node' : MemNode Id} {changes : List (FileChange Id)} (hfull : node.Full)
    (h : node.apply changes = .ok node') : node'.Full :=
  Lib.foldlM_invariant (I := MemNode.Full) h hfull fun _ _ _ _ hmid hc =>
    (applyChange_ok.mp hc).2.full hmid

/-! ### A full tree is its files -/

/-- The first component of a split path. -/
def firstOf (ds : List String) (leaf : String) : String := ds.headD leaf

namespace MemNode

theorem lookupIn_of_get_none {node : MemNode Id} {n : String} (h : node.get n = none)
    {ds : List String} {leaf : String} (hfirst : firstOf ds leaf = n) :
    node.lookupIn ds leaf = none := by
  subst hfirst
  cases ds with
  | nil => exact h
  | cons d ds =>
      rw [lookupIn_cons]
      rw [firstOf, List.headD_cons] at h
      rw [h]

/-- A full directory holds a file. -/
theorem exists_file : (node : MemNode Id) → node.Full → node ≠ .empty →
    ∃ ds leaf m, MemEntry.toFile (node.lookupIn ds leaf) = some m
  | .empty => fun _ h => absurd rfl h
  | .entry n (.file blob size exec) rest => fun _ _ =>
      ⟨[], n, ⟨blob, size, exec⟩, by simp [lookupIn, get, MemEntry.toFile]⟩
  | .entry n (.dir child) rest => by
      intro hfull _
      obtain ⟨ds, leaf, m, hm⟩ := exists_file child hfull.1.2 hfull.1.1
      exact ⟨n :: ds, leaf, m, by simpa [lookupIn_cons, get] using hm⟩

/-- A full entry holds a file. -/
theorem exists_file_first (n : String) {e : MemEntry Id} (rest : MemNode Id) (hfull : e.Full) :
    ∃ ds leaf m, firstOf ds leaf = n ∧
      MemEntry.toFile ((MemNode.entry n e rest).lookupIn ds leaf) = some m := by
  cases e with
  | file blob size exec =>
      exact ⟨[], n, ⟨blob, size, exec⟩, rfl, by simp [lookupIn, get, MemEntry.toFile]⟩
  | dir child =>
      obtain ⟨ds, leaf, m, hm⟩ := exists_file child hfull.2 hfull.1
      exact ⟨n :: ds, leaf, m, rfl, by simpa [lookupIn_cons, get] using hm⟩

/-- The first name of a full tree is the first name of one with its files. -/
theorem first_le {n n' : String} {e e' : MemEntry Id} {rest rest' : MemNode Id} (hfull : e.Full)
    (hsorted : (MemNode.entry n' e' rest').Sorted)
    (h : ∀ ds leaf, MemEntry.toFile ((MemNode.entry n e rest).lookupIn ds leaf) =
      MemEntry.toFile ((MemNode.entry n' e' rest').lookupIn ds leaf)) : n' ≤ n := by
  by_contra hlt
  obtain ⟨ds, leaf, m, hfirst, hm⟩ := exists_file_first n rest hfull
  have hnone := get_of_after (.entry n' e' rest') n hsorted (not_le.mp hlt)
  rw [h, lookupIn_of_get_none hnone hfirst] at hm
  cases hm

/-- Full sorted trees with the same files are one tree. -/
theorem eq_of_files (a : MemNode Id) : ∀ b, a.Sorted → a.Full → b.Sorted → b.Full →
    (∀ ds leaf, MemEntry.toFile (a.lookupIn ds leaf) = MemEntry.toFile (b.lookupIn ds leaf)) →
    a = b := by
  induction a with
  | empty =>
      intro b _ _ _ hb h
      by_contra hne
      obtain ⟨ds, leaf, m, hm⟩ := exists_file b hb (Ne.symm hne)
      rw [← h, lookupIn_empty] at hm
      cases hm
  | entry n e rest ihChild ih =>
      intro b hsorted hfull hsorted' hfull' h
      cases b with
      | empty =>
          obtain ⟨ds, leaf, m, -, hm⟩ := exists_file_first n rest hfull.1
          rw [h, lookupIn_empty] at hm
          cases hm
      | entry n' e' rest' =>
          obtain rfl : n = n' := le_antisymm
            (first_le hfull'.1 hsorted fun ds leaf => (h ds leaf).symm)
            (first_le hfull.1 hsorted' h)
          have hentry : e = e' := by
            have hleaf := h [] n
            simp only [lookupIn, get, if_true] at hleaf
            cases e with
            | file blob size exec =>
                cases e' with
                | file blob' size' exec' => simpa [MemEntry.toFile] using hleaf
                | dir child' => cases hleaf
            | dir child =>
                cases e' with
                | file blob' size' exec' => cases hleaf
                | dir child' =>
                    rw [ihChild child rfl child' hsorted.2.1 hfull.1.2 hsorted'.2.1 hfull'.1.2]
                    intro ds leaf
                    have hbelow := h (n :: ds) leaf
                    simpa [lookupIn_cons, get] using hbelow
          have hrest : rest = rest' := by
            refine ih rest' hsorted.2.2 hfull.2 hsorted'.2.2 hfull'.2 ?_
            intro ds leaf
            by_cases hfirst : firstOf ds leaf = n
            · rw [lookupIn_of_get_none (get_of_after rest n hsorted.2.2 hsorted.1) hfirst,
                lookupIn_of_get_none (get_of_after rest' n hsorted'.2.2 hsorted'.1) hfirst]
            · have hothers := h ds leaf
              cases ds with
              | nil =>
                  have hne : ¬ n = leaf := fun heq => hfirst heq.symm
                  simpa [lookupIn, get, hne] using hothers
              | cons d ds =>
                  have hne : ¬ n = d := fun heq => hfirst heq.symm
                  simpa [lookupIn_cons, get, hne] using hothers
          rw [hentry, hrest]

/-- A file goes in where no file stands above it. -/
theorem insertIn_exists {leaf : String} {file : MemEntry Id} {dirs : List String}
    {node : MemNode Id}
    (h : ∀ ds d, ds ++ [d] <+: dirs → MemEntry.toFile (node.lookupIn ds d) = none) :
    ∃ node', node.insertIn leaf file dirs = some node' := by
  induction dirs generalizing node with
  | nil => exact ⟨_, rfl⟩
  | cons d ds ih =>
      rw [insertIn]
      cases hget : node.get d with
      | none =>
          obtain ⟨child', hchild⟩ := @ih .empty fun es e _ => by rw [lookupIn_empty]; rfl
          simp [hchild]
      | some found =>
          cases found with
          | dir child =>
              obtain ⟨child', hchild⟩ := @ih child fun es e hprefix => by
                have hbelow := h (d :: es) e (by simpa using hprefix)
                rw [lookupIn_cons, hget] at hbelow
                exact hbelow
              simp [hchild]
          | file blob size exec =>
              have hnone := h [] d (by simp)
              rw [lookupIn, hget] at hnone
              cases hnone

theorem lookupIn_insertIn_self {leaf : String} {file : MemEntry Id} {dirs : List String}
    {node node' : MemNode Id} (h : node.insertIn leaf file dirs = some node') :
    node'.lookupIn dirs leaf = some file := by
  induction dirs generalizing node node' with
  | nil =>
      obtain rfl := Option.some.inj h
      rw [lookupIn, get_insert, if_pos rfl]
  | cons d ds ih =>
      obtain ⟨child, child', -, hchild, rfl⟩ := insertIn_cons h
      rw [lookupIn_cons, get_insert, if_pos rfl]
      exact ih hchild

/-- A file that goes in leaves what does not lie below it. -/
theorem toFile_insertIn_of_not_below {leaf : String} {m : FileMeta Id} {dirs : List String}
    {node node' : MemNode Id} (h : node.insertIn leaf m.entry dirs = some node') {qs : List String}
    {q : String} (hne : ¬ (qs = dirs ∧ q = leaf)) (hbelow : ¬ dirs ++ [leaf] <+: qs) :
    MemEntry.toFile (node'.lookupIn qs q) = MemEntry.toFile (node.lookupIn qs q) := by
  induction dirs generalizing node node' qs with
  | nil =>
      obtain rfl := Option.some.inj h
      cases qs with
      | nil =>
          have hq : ¬ leaf = q := fun heq => hne ⟨rfl, heq.symm⟩
          rw [lookupIn, lookupIn, get_insert, if_neg hq]
      | cons d ds =>
          have hd : ¬ leaf = d := by
            rintro rfl
            exact hbelow (by simp)
          rw [lookupIn_cons, lookupIn_cons, get_insert, if_neg hd]
  | cons d ds ih =>
      obtain ⟨child, child', hget, hchild, rfl⟩ := insertIn_cons h
      cases qs with
      | nil =>
          rw [lookupIn, lookupIn, get_insert]
          split_ifs with hq
          · subst hq
            rcases hget with hget | ⟨hget, -⟩ <;> rw [hget] <;> rfl
          · rfl
      | cons e es =>
          rw [lookupIn_cons, get_insert]
          by_cases he : d = e
          · subst he
            rw [if_pos rfl, ← lookupIn_child hget]
            exact ih hchild (fun heq => hne (by simpa using heq)) fun hprefix =>
              hbelow (by simpa using hprefix)
          · rw [if_neg he, lookupIn_cons]

end MemNode

/-- Trees as the grammar has them: names in order, no empty directory, paths no
deeper than the cap. -/
structure MemNode.WellFormed (node : MemNode Id) : Prop where
  sorted : node.Sorted
  full : node.Full
  depth : ∀ p m, filesAt node p = some m → p.components.length ≤ maxPathComponents

/-! ### The delta -/

/-- The change the delta records where the trees differ. -/
theorem deltaAt_some {p : Path} {a b : Option (FileMeta Id)} {c : FileChange Id}
    [Platform Id] (h : deltaAt p a b = some c) :
    c.path = p ∧ c.file = b ∧ a.map (fun m => m.key) ≠ b.map (fun m => m.key) ∧
      (c.op = .del ↔ b = none) ∧ (c.op = .mod → a.isSome) ∧ (c.op = .add → a = none) := by
  cases a with
  | none =>
      cases b with
      | none => simp [deltaAt] at h
      | some m =>
          obtain rfl := Option.some.inj h
          simp [addChange, FileChange.file]
  | some old =>
      cases b with
      | none =>
          obtain rfl := Option.some.inj h
          simp [FileChange.file]
      | some m =>
          simp only [deltaAt] at h
          split_ifs at h with hkey
          obtain rfl := Option.some.inj h
          simp [FileChange.file, hkey]

variable [Platform Id]

theorem mem_deltaBetween {parent child : MemNode Id} {c : FileChange Id} :
    c ∈ deltaBetween parent child ↔
      deltaAt c.path (filesAt parent c.path) (filesAt child c.path) = some c := by
  rw [deltaBetween, List.mem_filterMap]
  constructor
  · rintro ⟨p, -, hp⟩
    obtain ⟨rfl, -⟩ := deltaAt_some hp
    exact hp
  · intro h
    refine ⟨c.path, ?_, h⟩
    rw [Path.mem_sortPaths, List.mem_append]
    by_contra hno
    rw [not_or] at hno
    have hparent : filesAt parent c.path = none := lookup_eq_none_of_not_mem hno.1
    have hchild : filesAt child c.path = none := lookup_eq_none_of_not_mem hno.2
    rw [hparent, hchild] at h
    cases h

/-- The delta lists each path once, and none above one it lists before. -/
theorem deltaBetween_ordered (parent child : MemNode Id) :
    (deltaBetween parent child).Pairwise FileChange.Ordered := by
  have hnodup := Path.sortPaths_nodup
    ((flattenFiles parent).map (·.1) ++ (flattenFiles child).map (·.1))
  have hsorted := Path.sortPaths_pairwise
    ((flattenFiles parent).map (·.1) ++ (flattenFiles child).map (·.1))
  rw [deltaBetween, List.pairwise_filterMap]
  refine (hnodup.and hsorted).imp ?_
  rintro p q ⟨hne, hbefore⟩ c hc d hd
  obtain ⟨rfl, -⟩ := deltaAt_some hc
  obtain ⟨rfl, -⟩ := deltaAt_some hd
  refine ⟨hne, fun hbelow => ?_⟩
  have hle : c.path.text ≤ d.path.text := by simpa [Path.before] using hbefore
  exact absurd (Path.text_lt_of_below hbelow) (not_lt.mpr hle)

/-- The files of a tree with the delta to another over them: the other's where
content or mode differ. -/
theorem changed_deltaBetween (parent child : MemNode Id) (p : Path) :
    changed (deltaBetween parent child) (filesAt parent) p =
      if (filesAt parent p).map (fun m => m.key) = (filesAt child p).map (fun m => m.key) then
        filesAt parent p
      else filesAt child p := by
  split_ifs with hkey
  · refine changed_of_fresh fun c hc => ?_
    rintro rfl
    exact (deltaAt_some (mem_deltaBetween.mp hc)).2.2.1 hkey
  · have hsome : ∃ c, deltaAt p (filesAt parent p) (filesAt child p) = some c :=
      Option.ne_none_iff_exists'.mp fun hnone => hkey (deltaAt_eq_none.mp hnone)
    obtain ⟨c, hc⟩ := hsome
    obtain ⟨rfl, hfile, -⟩ := deltaAt_some hc
    rw [changed_of_mem (deltaBetween_ordered parent child) (mem_deltaBetween.mpr hc), hfile]

/-! ### The delta applied -/

theorem MemEntry.not_isDir_of_toFile {Id : Type} {e : Option (MemEntry Id)} {m : FileMeta Id}
    (h : MemEntry.toFile e = some m) : ¬ MemEntry.IsDir e := by
  intro hdir
  rw [MemEntry.toFile_of_isDir hdir] at h
  cases h

omit [Platform Id] in
/-- Nothing lies below a file. -/
theorem filesAt_below {node : MemNode Id} (hsorted : node.Sorted) {p q : Path} (hbelow : p.Below q)
    {m : FileMeta Id} (h : filesAt node p = some m) : filesAt node q = none := by
  rw [filesAt_eq_lookup hsorted] at h ⊢
  rw [MemNode.lookup_below hbelow (MemEntry.not_isDir_of_toFile h)]
  rfl

omit [Platform Id] in
/-- A directory of a full tree has a file below it. -/
theorem exists_file_below {Id : Type} {node : MemNode Id} (hfull : node.Full) {p : Path}
    (hdir : MemEntry.IsDir (node.lookup p)) :
    ∃ q m, p.Below q ∧ MemEntry.toFile (node.lookup q) = some m := by
  obtain ⟨child, hchild⟩ := hdir
  have hchildFull : (MemEntry.dir child).Full := MemNode.lookupIn_full p.dirs p.leaf _ hfull hchild
  obtain ⟨ds, leaf, m, hm⟩ := MemNode.exists_file child hchildFull.2 hchildFull.1
  refine ⟨⟨p.dirs ++ p.leaf :: ds, leaf⟩, m, ⟨ds, by simp [Path.components]⟩, ?_⟩
  rw [MemNode.lookup] at hchild ⊢
  rw [MemNode.lookupIn_append, hchild]
  exact hm

omit [Platform Id] in
/-- What a tree holds midway, said of the parent's files. -/
theorem Applied.filesAt {orig node : MemNode Id} {done : List (FileChange Id)}
    (h : Applied orig done node) (hsorted : orig.Sorted) (p : Path) :
    filesAt node p = changed done (Naatre.filesAt orig) p := by
  have horig : (fun q => MemEntry.toFile (orig.lookup q)) = Naatre.filesAt orig :=
    funext fun q => (filesAt_eq_lookup hsorted q).symm
  rw [filesAt_eq_lookup h.sorted, h.files, horig]

section

variable {parent child node : MemNode Id} {done rest : List (FileChange Id)} {c : FileChange Id}

/-- Midway through the delta no file stands above a path the child has. -/
theorem delta_clear (hparent : parent.WellFormed) (hchild : child.WellFormed)
    (hdelta : deltaBetween parent child = done ++ c :: rest) (h : Applied parent done node)
    {m : FileMeta Id} (hm : filesAt child c.path = some m) {q : Path} (hbelow : q.Below c.path) :
    filesAt node q = none := by
  have hchildNone : filesAt child q = none := by
    match hq : filesAt child q with
    | none => rfl
    | some old =>
        rw [filesAt_below hchild.sorted hbelow hq] at hm
        cases hm
  have horder := deltaBetween_ordered parent child
  rw [hdelta, List.pairwise_append] at horder
  rw [h.filesAt hparent.sorted]
  by_cases hdone : ∃ d ∈ done, d.path = q
  · obtain ⟨d, hd, rfl⟩ := hdone
    have hmem : d ∈ deltaBetween parent child := by
      rw [hdelta]
      exact List.mem_append_left _ hd
    obtain ⟨-, hfile, -⟩ := deltaAt_some (mem_deltaBetween.mp hmem)
    rw [changed_of_mem horder.1 hd, hfile, hchildNone]
  · rw [changed_of_fresh fun d hd heq => hdone ⟨d, hd, heq⟩]
    match hq : filesAt parent q with
    | none => rfl
    | some old =>
        exfalso
        have hdel : (⟨q, .del, none, none, none⟩ : FileChange Id) ∈ done ++ c :: rest := by
          rw [← hdelta, mem_deltaBetween]
          simp only [hq, hchildNone]
          rfl
        rcases List.mem_append.mp hdel with hmem | hmem
        · exact hdone ⟨_, hmem, rfl⟩
        · rcases List.mem_cons.mp hmem with heq | hmem
          · rw [← heq] at hbelow
            exact lt_irrefl _ (Path.text_lt_of_below hbelow)
          · exact ((List.pairwise_cons.mp horder.2.1).1 _ hmem).2 hbelow

/-- Each change of the delta applies to what the ones before it left. -/
theorem delta_step (hparent : parent.WellFormed) (hchild : child.WellFormed)
    (hdelta : deltaBetween parent child = done ++ c :: rest) (h : Applied parent done node) :
    ∃ node', node.applyChange c = .ok node' := by
  have hmem : c ∈ deltaBetween parent child := by rw [hdelta]; simp
  obtain ⟨-, hfile, hkey, hdel, hmod, hadd⟩ := deltaAt_some (mem_deltaBetween.mp hmem)
  have horder := deltaBetween_ordered parent child
  rw [hdelta, List.pairwise_append] at horder
  have hold : filesAt node c.path = filesAt parent c.path := by
    rw [h.filesAt hparent.sorted]
    exact changed_of_fresh fun d hd => (horder.2.2 d hd c List.mem_cons_self).1
  have hdepth : c.path.components.length ≤ maxPathComponents := by
    match hp : filesAt parent c.path, hc : filesAt child c.path with
    | some m, _ => exact hparent.depth _ m hp
    | none, some m => exact hchild.depth _ m hc
    | none, none => rw [hp, hc] at hkey; exact absurd rfl hkey
  match hm : filesAt child c.path with
  | none =>
      have hop : c.op = .del := hdel.mpr hm
      match hp : filesAt parent c.path with
      | none => rw [hp, hm] at hkey; exact absurd rfl hkey
      | some m =>
          rw [hp, filesAt_eq_lookup h.sorted] at hold
          exact ⟨_, applyChange_ok.mpr ⟨hdepth, .removed m hop hold⟩⟩
  | some m =>
      have hop : c.op ≠ .del := fun hisDel => by rw [hdel.mp hisDel] at hm; cases hm
      obtain ⟨node', hinsert⟩ := @MemNode.insertIn_exists Id c.path.leaf m.entry c.path.dirs node
        fun ds d hprefix => by
          have hclear := delta_clear hparent hchild hdelta h hm (q := ⟨ds, d⟩) hprefix
          rw [filesAt_eq_lookup h.sorted] at hclear
          exact hclear
      refine ⟨node', applyChange_ok.mpr ⟨hdepth, .written m hop (hfile.trans hm) (fun hisMod => ?_) _
        hinsert⟩⟩
      rw [← filesAt_eq_lookup h.sorted, hold]
      exact hmod hisMod

/-- The delta applies where no file of the child stands on a directory of the
parent. -/
theorem apply_delta (hparent : parent.WellFormed) (hchild : child.WellFormed)
    (hflip : ∀ p m, filesAt child p = some m → ¬ MemEntry.IsDir (parent.lookup p)) :
    ∃ node, parent.apply (deltaBetween parent child) = .ok node ∧
      Applied parent (deltaBetween parent child) node := by
  refine Lib.foldlM_progress (P := Applied parent) (.start hparent.sorted) ?_
  intro done c rest node hdelta h
  obtain ⟨node', hc⟩ := delta_step hparent hchild hdelta h
  refine ⟨node', hc, h.next (applyChange_ok.mp hc).2 ?_ fun hadd => ?_⟩
  · have horder := deltaBetween_ordered parent child
    rw [hdelta, List.pairwise_append] at horder
    exact fun d hd => horder.2.2 d hd c List.mem_cons_self
  · have hmem : c ∈ deltaBetween parent child := by rw [hdelta]; simp
    obtain ⟨-, -, -, hdel, -, -⟩ := deltaAt_some (mem_deltaBetween.mp hmem)
    match hm : filesAt child c.path with
    | none => rw [hadd] at hdel; exact absurd (hdel.mpr hm) (by simp)
    | some m => exact hflip _ m hm

/-! ### A file over a directory -/

omit [Platform Id] in
/-- A file stays through changes at other paths, none above it. -/
theorem ChangeApplied.keeps_file {node' : MemNode Id} (h : ChangeApplied node c node')
    (hsorted : node.Sorted) {p : Path} (hne : c.path ≠ p) (habove : ¬ c.path.Below p)
    {m : FileMeta Id} (hm : MemEntry.toFile (node.lookup p) = some m) :
    node'.Sorted ∧ MemEntry.toFile (node'.lookup p) = some m := by
  have hpath : ¬ (p.dirs = c.path.dirs ∧ p.leaf = c.path.leaf) := by
    rintro ⟨hdirs, hleaf⟩
    refine hne ?_
    cases p
    cases hc : c.path
    simp_all
  cases h with
  | removed old hop hfile =>
      refine ⟨MemNode.removeIn_sorted hsorted hfile, ?_⟩
      have hcut := MemNode.toFile_removeIn hsorted hfile p.dirs p.leaf
      rw [if_neg hpath] at hcut
      exact hcut.trans hm
  | written new hop hfile hmod _ hinsert =>
      refine ⟨MemNode.insertIn_sorted (show new.entry.Sorted from trivial) hsorted hinsert, ?_⟩
      exact (MemNode.toFile_insertIn_of_not_below hinsert hpath habove).trans hm

omit [Platform Id] in
/-- A change list that adds a file and later deletes one below it does not
apply. -/
theorem apply_flip (hsorted : parent.Sorted) {changes : List (FileChange Id)}
    (horder : changes.Pairwise FileChange.Ordered) {d : FileChange Id} (hc : c ∈ changes)
    (hcop : c.op ≠ .del) (hd : d ∈ changes) (hdop : d.op = .del) (hbelow : c.path.Below d.path) :
    parent.apply changes ≠ .ok node := by
  intro h
  suffices hkeeps : node.Sorted ∧
      (c ∈ changes → ∃ m, MemEntry.toFile (node.lookup c.path) = some m) ∧ d ∉ changes from
    hkeeps.2.2 hd
  refine Lib.foldlM_induct (P := fun done node => node.Sorted ∧
    (c ∈ done → ∃ m, MemEntry.toFile (node.lookup c.path) = some m) ∧ d ∉ done) h
    ⟨hsorted, fun hmem => absurd hmem List.not_mem_nil, List.not_mem_nil⟩ ?_
  rintro done e rest mid mid' rfl ⟨hmid, hfile, hnot⟩ he
  have happlied := (applyChange_ok.mp he).2
  rw [List.pairwise_append] at horder
  have hlast : d ≠ e := by
    rintro rfl
    rcases List.mem_append.mp hc with hcdone | hcrest
    · obtain ⟨m, hm⟩ := hfile hcdone
      have hnone := MemNode.lookup_below hbelow (MemEntry.not_isDir_of_toFile hm)
      cases happlied with
      | removed old hop hold => rw [hnone] at hold; cases hold
      | written _ hop => exact hop hdop
    · rcases List.mem_cons.mp hcrest with rfl | hcrest
      · exact hcop hdop
      · exact ((List.pairwise_cons.mp horder.2.1).1 c hcrest).2 hbelow
  have hsorted' : mid'.Sorted := by
    cases happlied with
    | removed m hop hold => exact MemNode.removeIn_sorted hmid hold
    | written m hop hwritten hmod _ hinsert =>
        exact MemNode.insertIn_sorted (show m.entry.Sorted from trivial) hmid hinsert
  refine ⟨hsorted', fun hmem => ?_, fun hmem => ?_⟩
  · rcases List.mem_append.mp hmem with hcdone | hce
    · obtain ⟨m, hm⟩ := hfile hcdone
      have hordered := horder.2.2 c hcdone e List.mem_cons_self
      exact ⟨m, (happlied.keeps_file hmid hordered.1.symm hordered.2 hm).2⟩
    · obtain rfl := List.mem_singleton.mp hce
      cases happlied with
      | removed m hop => exact absurd hop hcop
      | written m hop hwritten hmod _ hinsert =>
          exact ⟨m, by rw [MemNode.lookup, MemNode.lookupIn_insertIn_self hinsert]; rfl⟩
  · rcases List.mem_append.mp hmem with hmem | hmem
    · exact hnot hmem
    · exact hlast (List.mem_singleton.mp hmem)

end

/-- Applying the delta of two trees to the first gives the second, and the delta
is empty exactly when the trees hold the same contents and modes: this is so
exactly when no file of the second stands on a directory of the first, and files
of one content and mode are recorded with one size. -/
theorem delta_inverts {parent child : MemNode Id} (hparent : parent.WellFormed)
    (hchild : child.WellFormed) :
    (parent.apply (deltaBetween parent child) = .ok child ∧
        (deltaBetween parent child = [] ↔ SameContent (filesAt parent) (filesAt child))) ↔
      (∀ p m, filesAt child p = some m → ¬ MemEntry.IsDir (parent.lookup p)) ∧
        ∀ p m m', filesAt parent p = some m → filesAt child p = some m' → m.key = m'.key →
          m.size = m'.size := by
  constructor
  · rintro ⟨happly, -⟩
    have hflip : ∀ p m, filesAt child p = some m → ¬ MemEntry.IsDir (parent.lookup p) := by
      intro p m hm hdir
      obtain ⟨q, old, hbelow, hold⟩ := exists_file_below hparent.full hdir
      rw [← filesAt_eq_lookup hparent.sorted] at hold
      have hgone := filesAt_below hchild.sorted hbelow hm
      have hparentNone : filesAt parent p = none := by
        rw [filesAt_eq_lookup hparent.sorted, MemEntry.toFile_of_isDir hdir]
      have hadd : addChange (p, m) ∈ deltaBetween parent child := by
        rw [mem_deltaBetween]
        simp only [addChange, hparentNone, hm]
        rfl
      have hdel : (⟨q, .del, none, none, none⟩ : FileChange Id) ∈ deltaBetween parent child := by
        rw [mem_deltaBetween]
        simp only [hold, hgone]
        rfl
      exact apply_flip hparent.sorted (deltaBetween_ordered parent child) hadd (by simp [addChange])
        hdel rfl hbelow happly
    refine ⟨hflip, fun p m m' hm hm' hkey => ?_⟩
    obtain ⟨node, hnode, happlied⟩ := apply_delta hparent hchild hflip
    obtain rfl : node = child := Except.ok.inj (hnode.symm.trans happly)
    have hfile := happlied.filesAt hparent.sorted p
    rw [changed_deltaBetween, hm, hm', Option.map_some, Option.map_some, hkey, if_pos rfl] at hfile
    exact (congrArg FileMeta.size (Option.some.inj hfile)).symm
  · rintro ⟨hflip, hsize⟩
    obtain ⟨node, hnode, happlied⟩ := apply_delta hparent hchild hflip
    refine ⟨?_, deltaBetween_eq_nil⟩
    have hfiles : ∀ p, filesAt node p = filesAt child p := by
      intro p
      rw [happlied.filesAt hparent.sorted, changed_deltaBetween]
      split_ifs with hkey
      · cases hm : filesAt parent p with
        | none =>
            cases hm' : filesAt child p with
            | none => rfl
            | some m' =>
                rw [hm, hm'] at hkey
                cases hkey
        | some m =>
            cases hm' : filesAt child p with
            | none =>
                rw [hm, hm'] at hkey
                cases hkey
            | some m' =>
                rw [hm, hm', Option.map_some, Option.map_some, Option.some.injEq] at hkey
                have hsame := hsize p m m' hm hm' hkey
                cases m
                cases m'
                simp_all [FileMeta.key]
      · rfl
    have hequal : node = child := by
      refine MemNode.eq_of_files node child happlied.sorted (apply_full hparent.full hnode)
        hchild.sorted hchild.full fun ds leaf => ?_
      have hfile := hfiles ⟨ds, leaf⟩
      rw [filesAt_eq_lookup happlied.sorted, filesAt_eq_lookup hchild.sorted] at hfile
      exact hfile
    rw [hnode, hequal]

end

/-! ### A file where a directory was -/

namespace FileOverDir

def dir : MemNode PlainId := .entry "d" (.dir (.entry "x" (.file [1] 2 false) .empty)) .empty

def file : MemNode PlainId := .entry "d" (.file [1] 2 false) .empty

theorem dir_flat : flattenFiles dir = [(⟨["d"], "x"⟩, ⟨[1], 2, false⟩)] := by decide

theorem file_flat : flattenFiles file = [(⟨[], "d"⟩, ⟨[1], 2, false⟩)] := by decide

theorem depth_of_flat {node : MemNode PlainId} {p : Path} {m : FileMeta PlainId}
    (hflat : flattenFiles node = [(p, m)]) (hp : p.components.length ≤ maxPathComponents) :
    ∀ q k, filesAt node q = some k → q.components.length ≤ maxPathComponents := by
  intro q k hq
  rw [filesAt, hflat, List.lookup_cons] at hq
  split at hq
  next heq => exact eq_of_beq heq ▸ hp
  next => cases hq

theorem dir_wellFormed : dir.WellFormed where
  sorted := by simp [dir, MemNode.Sorted, MemEntry.Sorted, MemNode.After]
  full := by simp [dir, MemNode.Full, MemEntry.Full]
  depth := depth_of_flat dir_flat (by decide)

theorem file_wellFormed : file.WellFormed where
  sorted := by simp [file, MemNode.Sorted, MemEntry.Sorted, MemNode.After]
  full := by simp [file, MemNode.Full, MemEntry.Full]
  depth := depth_of_flat file_flat (by decide)

end FileOverDir

/-- A directory in the place of a file comes out of the delta as it is. -/
theorem delta_inverts_dir : FileOverDir.file.apply (deltaBetween FileOverDir.file FileOverDir.dir) =
    .ok FileOverDir.dir := by
  refine ((delta_inverts FileOverDir.file_wellFormed FileOverDir.dir_wellFormed).mpr ⟨?_, ?_⟩).1
  · rintro p m hm ⟨child, hchild⟩
    rw [filesAt, FileOverDir.dir_flat, List.lookup_cons] at hm
    split at hm
    next heq =>
      rw [eq_of_beq heq] at hchild
      exact absurd hchild (by simp [FileOverDir.file, MemNode.lookup, MemNode.lookupIn, MemNode.get])
    next => cases hm
  · intro p m m' hm hm' _
    rw [filesAt, FileOverDir.file_flat, List.lookup_cons] at hm
    rw [filesAt, FileOverDir.dir_flat, List.lookup_cons] at hm'
    split at hm <;> split at hm' <;> simp_all

/-- A file in the place of a directory is written over it before the delta comes
to the files below, which are gone by then. -/
theorem delta_over_dir : FileOverDir.dir.WellFormed ∧ FileOverDir.file.WellFormed ∧
    FileOverDir.dir.apply (deltaBetween FileOverDir.dir FileOverDir.file) =
      .error (.delNotFile ⟨["d"], "x"⟩) :=
  ⟨FileOverDir.dir_wellFormed, FileOverDir.file_wellFormed, by rfl⟩

end Naatre
