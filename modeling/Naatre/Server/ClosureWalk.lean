import Naatre.Lib.Fuel
import Naatre.Server.Snapshots

/-!
`walk_closure` of `routes/snapshots.rs`, turn by turn: a stack of trees, the
trees and blobs seen, and the cap past which blobs are no longer stored. It ends
with the first blobs reachable from its root and says whether they are all.
-/

namespace Naatre

section

variable {Id : Type} [Platform Id]

/-- A blob that a tree reachable from `root` names. -/
def BlobBelow (trees : List (TreeRow Id)) (root blob : Id) : Prop :=
  ∃ id row, Relation.ReflTransGen (TreeChild trees) root id ∧ treeGet trees id = some row ∧
    blob ∈ row.files

/-! ### The walk -/

/-- The loop variables of `walk_closure` beside its stack. -/
structure ClosureWalk (Id : Type) where
  blobs : List Id
  seenBlobs : List Id
  seenTrees : List Id
  overCap : Bool

/-- A file entry: a blob not seen is stored up to the cap. -/
def ClosureWalk.addBlob (w : ClosureWalk Id) (blob : Id) : ClosureWalk Id :=
  if blob ∈ w.seenBlobs then w
  else if w.blobs.length = maxSnapshotBlobs then
    { w with seenBlobs := w.seenBlobs ++ [blob], overCap := true }
  else { w with seenBlobs := w.seenBlobs ++ [blob], blobs := w.blobs ++ [blob] }

/-- One entry of a tree, the stack beside the walk. -/
def walkEntry (s : ClosureWalk Id × List Id) (e : TreeEntry Id) : ClosureWalk Id × List Id :=
  match e.kind with
  | .file => (s.1.addBlob e.object, s.2)
  | .dir => (s.1, e.object :: s.2)

/-- The loop of `walk_closure`. -/
def walkClosureLoop (trees : List (TreeRow Id)) :
    ℕ → List Id → ClosureWalk Id → Option (ClosureWalk Id)
  | 0, _, _ => none
  | _ + 1, [], w => some w
  | fuel + 1, id :: stack, w =>
      if id ∈ w.seenTrees then walkClosureLoop trees fuel stack w
      else
        let w := { w with seenTrees := id :: w.seenTrees }
        match treeGet trees id with
        | none => walkClosureLoop trees fuel stack w
        | some row =>
            let s := row.canonical.tree.entries.foldl walkEntry (w, stack)
            walkClosureLoop trees fuel s.2 s.1

/-- `walk_closure`: the blobs stored and whether there were more. -/
def runWalkClosure (trees : List (TreeRow Id)) (fuel : ℕ) (root : Id) : Option (List Id × Bool) :=
  (walkClosureLoop trees fuel [root] ⟨[], [], [], false⟩).map fun w => (w.blobs, w.overCap)

/-- The blobs stored are the first ones seen, up to the cap. -/
structure ClosureWalk.Capped (w : ClosureWalk Id) : Prop where
  nodup : w.seenBlobs.Nodup
  blobs : w.blobs = w.seenBlobs.take maxSnapshotBlobs
  cut : w.overCap = decide (maxSnapshotBlobs < w.seenBlobs.length)

theorem ClosureWalk.Capped.addBlob {w : ClosureWalk Id} (h : w.Capped) (blob : Id) :
    (w.addBlob blob).Capped := by
  obtain ⟨hnodup, hblobs, hover⟩ := h
  rw [ClosureWalk.addBlob]
  split_ifs with hseen hfull
  · exact ⟨hnodup, hblobs, hover⟩
  · rw [hblobs, List.length_take] at hfull
    refine ⟨List.nodup_append_comm.mp (List.nodup_cons.mpr ⟨hseen, hnodup⟩), ?_, ?_⟩
    · rw [List.take_append_of_le_length (by omega)]
      exact hblobs
    · rw [List.length_append, List.length_singleton, eq_comm, decide_eq_true_eq]
      omega
  · rw [hblobs, List.length_take] at hfull
    refine ⟨List.nodup_append_comm.mp (List.nodup_cons.mpr ⟨hseen, hnodup⟩), ?_, ?_⟩
    · change w.blobs ++ [blob] = _
      rw [hblobs, List.take_of_length_le (by omega), List.take_of_length_le]
      rw [List.length_append, List.length_singleton]
      omega
    · rw [List.length_append, List.length_singleton]
      change w.overCap = _
      rw [hover, decide_eq_decide]
      omega

@[simp]
theorem ClosureWalk.addBlob_seenTrees (w : ClosureWalk Id) (blob : Id) :
    (w.addBlob blob).seenTrees = w.seenTrees := by
  rw [ClosureWalk.addBlob]
  split_ifs <;> rfl

theorem ClosureWalk.mem_addBlob {w : ClosureWalk Id} {blob b : Id} :
    b ∈ (w.addBlob blob).seenBlobs ↔ b ∈ w.seenBlobs ∨ b = blob := by
  rw [ClosureWalk.addBlob]
  split_ifs with hseen
  · exact ⟨.inl, fun h => h.elim id fun heq => heq ▸ hseen⟩
  · exact List.mem_append.trans (or_congr_right List.mem_singleton)
  · exact List.mem_append.trans (or_congr_right List.mem_singleton)

omit [Platform Id] in
theorem mem_rowFiles {row : TreeRow Id} {blob : Id} :
    blob ∈ row.files ↔ ∃ e ∈ row.canonical.tree.entries, e.kind = .file ∧ e.object = blob := by
  simp [TreeRow.files, TreeRow.entries, and_assoc]

omit [Platform Id] in
theorem mem_rowDirs {row : TreeRow Id} {child : Id} :
    child ∈ row.dirs ↔ ∃ e ∈ row.canonical.tree.entries, e.kind = .dir ∧ e.object = child := by
  simp [TreeRow.dirs, TreeRow.entries, and_assoc]

/-- What the entries of one tree add. -/
theorem foldl_walkEntry (entries : List (TreeEntry Id)) (w : ClosureWalk Id) (stack : List Id) :
    (w.Capped → (entries.foldl walkEntry (w, stack)).1.Capped) ∧
      (entries.foldl walkEntry (w, stack)).1.seenTrees = w.seenTrees ∧
      (∀ b, b ∈ (entries.foldl walkEntry (w, stack)).1.seenBlobs ↔
        b ∈ w.seenBlobs ∨ ∃ e ∈ entries, e.kind = .file ∧ e.object = b) ∧
      (∀ t, t ∈ (entries.foldl walkEntry (w, stack)).2 ↔
        t ∈ stack ∨ ∃ e ∈ entries, e.kind = .dir ∧ e.object = t) := by
  induction entries generalizing w stack with
  | nil => simp
  | cons e entries ih =>
      rw [List.foldl_cons, walkEntry]
      cases hkind : e.kind with
      | file =>
          obtain ⟨hcapped, htrees, hblobs, hstack⟩ := ih (w.addBlob e.object) stack
          refine ⟨fun h => hcapped (h.addBlob e.object), ?_, fun b => ?_, fun t => ?_⟩
          · rw [htrees, ClosureWalk.addBlob_seenTrees]
          · rw [hblobs, ClosureWalk.mem_addBlob, or_assoc]
            simp [hkind, eq_comm]
          · rw [hstack]
            simp [hkind]
      | dir =>
          obtain ⟨hcapped, htrees, hblobs, hstack⟩ := ih w (e.object :: stack)
          refine ⟨hcapped, htrees, fun b => ?_, fun t => ?_⟩
          · rw [hblobs]
            simp [hkind]
          · rw [hstack, List.mem_cons]
            simp only [List.exists_mem_cons_iff, hkind, true_and, eq_comm (a := t)]
            tauto

/-- What holds of the walk from `root` at every turn: what is on the stack or
seen is reachable, and a tree seen has its children there and its blobs seen. -/
structure WalkInv (trees : List (TreeRow Id)) (root : Id) (stack : List Id) (w : ClosureWalk Id) :
    Prop where
  capped : w.Capped
  start : root ∈ w.seenTrees ∨ root ∈ stack
  reached : ∀ t, t ∈ w.seenTrees ∨ t ∈ stack → Relation.ReflTransGen (TreeChild trees) root t
  children : ∀ t ∈ w.seenTrees, ∀ child, TreeChild trees t child →
    child ∈ w.seenTrees ∨ child ∈ stack
  blobs : ∀ b, b ∈ w.seenBlobs ↔
    ∃ t ∈ w.seenTrees, ∃ row, treeGet trees t = some row ∧ b ∈ row.files

theorem WalkInv.skip {trees : List (TreeRow Id)} {root id : Id} {stack : List Id}
    {w : ClosureWalk Id} (h : WalkInv trees root (id :: stack) w) (hid : id ∈ w.seenTrees) :
    WalkInv trees root stack w := by
  have hdrop : ∀ t, t ∈ w.seenTrees ∨ t ∈ id :: stack → t ∈ w.seenTrees ∨ t ∈ stack := by
    rintro t (ht | ht)
    · exact .inl ht
    · rcases List.mem_cons.mp ht with rfl | ht
      · exact .inl hid
      · exact .inr ht
  exact ⟨h.capped, hdrop _ h.start, fun t ht => h.reached t (ht.imp_right (List.mem_cons_of_mem id)),
    fun t ht child hchild => hdrop _ (h.children t ht child hchild), h.blobs⟩

/-- A tree without a row is seen and adds nothing. -/
theorem WalkInv.missing {trees : List (TreeRow Id)} {root id : Id} {stack : List Id}
    {w : ClosureWalk Id} (h : WalkInv trees root (id :: stack) w) (hrow : treeGet trees id = none) :
    WalkInv trees root stack { w with seenTrees := id :: w.seenTrees } := by
  have hmove : ∀ t, t ∈ w.seenTrees ∨ t ∈ id :: stack ↔ t ∈ id :: w.seenTrees ∨ t ∈ stack := by
    intro t
    rw [List.mem_cons, List.mem_cons]
    tauto
  refine ⟨⟨h.capped.nodup, h.capped.blobs, h.capped.cut⟩, (hmove _).mp h.start,
    fun t ht => h.reached t ((hmove t).mpr ht), ?_, fun b => (h.blobs b).trans ?_⟩
  · intro t ht child hchild
    rcases List.mem_cons.mp ht with rfl | ht
    · rw [TreeChild, childTrees, hrow] at hchild
      cases hchild
    · exact (hmove _).mp (h.children t ht child hchild)
  · simp only [List.exists_mem_cons_iff, hrow]
    simp

/-- A tree with a row is seen, its children pushed and its blobs seen. -/
theorem WalkInv.visit {trees : List (TreeRow Id)} {root id : Id} {stack : List Id}
    {w : ClosureWalk Id} (h : WalkInv trees root (id :: stack) w) {row : TreeRow Id}
    (hrow : treeGet trees id = some row) :
    WalkInv trees root
      (row.canonical.tree.entries.foldl walkEntry
        ({ w with seenTrees := id :: w.seenTrees }, stack)).2
      (row.canonical.tree.entries.foldl walkEntry
        ({ w with seenTrees := id :: w.seenTrees }, stack)).1 := by
  obtain ⟨hcapped, htrees, hblobs, hstack⟩ := foldl_walkEntry row.canonical.tree.entries
    { w with seenTrees := id :: w.seenTrees } stack
  have hpushed : ∀ t, (∃ e ∈ row.canonical.tree.entries, e.kind = .dir ∧ e.object = t) ↔
      TreeChild trees id t := by
    intro t
    rw [TreeChild, childTrees, hrow, Option.map_some, Option.getD_some, mem_rowDirs]
  have hmove : ∀ t, t ∈ w.seenTrees ∨ t ∈ id :: stack → t ∈ id :: w.seenTrees ∨
      t ∈ stack ∨ TreeChild trees id t := by
    intro t
    rw [List.mem_cons, List.mem_cons]
    tauto
  simp only at htrees hblobs
  refine ⟨hcapped ⟨h.capped.nodup, h.capped.blobs, h.capped.cut⟩, ?_, ?_, ?_, fun b => ?_⟩
  · rw [htrees, hstack, hpushed]
    exact hmove _ h.start
  · intro t ht
    rw [htrees, hstack, hpushed, List.mem_cons] at ht
    have hid : Relation.ReflTransGen (TreeChild trees) root id :=
      h.reached id (.inr List.mem_cons_self)
    rcases ht with (rfl | ht) | ht | ht
    · exact hid
    · exact h.reached t (.inl ht)
    · exact h.reached t (.inr (List.mem_cons_of_mem id ht))
    · exact hid.tail ht
  · intro t ht child hchild
    rw [htrees, List.mem_cons] at ht
    rw [htrees, hstack, hpushed]
    rcases ht with rfl | ht
    · exact .inr (.inr hchild)
    · exact hmove _ (h.children t ht child hchild)
  · rw [hblobs, h.blobs, htrees, List.exists_mem_cons_iff, ← mem_rowFiles, hrow, or_comm]
    simp

/-- The trees not yet visited. -/
def unseenTrees (trees : List (TreeRow Id)) (w : ClosureWalk Id) : ℕ :=
  trees.countP fun row => decide (row.id ∉ w.seenTrees)

theorem unseenTrees_lt {trees : List (TreeRow Id)} {w w' : ClosureWalk Id} {id : Id}
    {row : TreeRow Id} (hrow : treeGet trees id = some row) (hid : id ∉ w.seenTrees)
    (hseen : w'.seenTrees = id :: w.seenTrees) : unseenTrees trees w' < unseenTrees trees w := by
  obtain ⟨hmem, rfl⟩ := treeGet_some hrow
  have hmono : ∀ l : List (TreeRow Id), l.countP (fun r => decide (r.id ∉ w'.seenTrees)) ≤
      l.countP (fun r => decide (r.id ∉ w.seenTrees)) := by
    refine fun l => List.countP_mono_left fun r _ hr => ?_
    rw [decide_eq_true_eq, hseen, List.mem_cons] at hr
    exact decide_eq_true fun h => hr (.inr h)
  obtain ⟨before, after, rfl⟩ := List.append_of_mem hmem
  have hgone : decide (row.id ∉ w'.seenTrees) = false := by simp [hseen]
  rw [unseenTrees, unseenTrees, List.countP_append, List.countP_append, List.countP_cons,
    List.countP_cons, decide_eq_true hid, hgone]
  have hbefore := hmono before
  have hafter := hmono after
  simp only [Bool.false_eq_true, if_false, if_true]
  omega

/-- The walk ends with everything reachable seen. -/
theorem walkClosureLoop_settles {trees : List (TreeRow Id)} {root : Id} (n : ℕ) :
    ∀ (stack : List Id) (w : ClosureWalk Id), unseenTrees trees w ≤ n →
      WalkInv trees root stack w → ∃ out, WalkInv trees root [] out ∧
        Lib.Settles (fun fuel => walkClosureLoop trees fuel stack w) out := by
  induction n using Nat.strong_induction_on with
  | _ n ihn =>
  intro stack
  induction stack with
  | nil => exact fun w _ h => ⟨w, h, .step (fun _ => rfl) (.now w)⟩
  | cons id stack ih =>
      intro w hn h
      by_cases hid : id ∈ w.seenTrees
      · obtain ⟨out, hout, hloop⟩ := ih w hn (h.skip hid)
        exact ⟨out, hout, .step (fun fuel => by rw [walkClosureLoop, if_pos hid]) hloop⟩
      cases hrow : treeGet trees id with
      | none =>
          have hle : unseenTrees trees { w with seenTrees := id :: w.seenTrees } ≤ n := by
            refine le_trans (List.countP_mono_left fun r _ hr => ?_) hn
            rw [decide_eq_true_eq, List.mem_cons] at hr
            exact decide_eq_true fun h => hr (.inr h)
          obtain ⟨out, hout, hloop⟩ := ih _ hle (h.missing hrow)
          refine ⟨out, hout, .step (fun fuel => ?_) hloop⟩
          simp only [walkClosureLoop, if_neg hid, hrow]
      | some row =>
          have hlt : unseenTrees trees (row.canonical.tree.entries.foldl walkEntry
              ({ w with seenTrees := id :: w.seenTrees }, stack)).1 < unseenTrees trees w :=
            unseenTrees_lt hrow hid (foldl_walkEntry row.canonical.tree.entries
              { w with seenTrees := id :: w.seenTrees } stack).2.1
          obtain ⟨out, hout, hloop⟩ := ihn _ (lt_of_lt_of_le hlt hn) _ _ le_rfl (h.visit hrow)
          refine ⟨out, hout, .step (fun fuel => ?_) hloop⟩
          simp only [walkClosureLoop, if_neg hid, hrow]

/-- A finished walk has seen exactly the blobs reachable from its root. -/
theorem WalkInv.mem_seenBlobs {trees : List (TreeRow Id)} {root : Id} {w : ClosureWalk Id}
    (h : WalkInv trees root [] w) (blob : Id) : blob ∈ w.seenBlobs ↔ BlobBelow trees root blob := by
  have hseen : ∀ t, Relation.ReflTransGen (TreeChild trees) root t → t ∈ w.seenTrees := by
    intro t hpath
    induction hpath with
    | refl => exact h.start.resolve_right List.not_mem_nil
    | tail _ hchild ih => exact (h.children _ ih _ hchild).resolve_right List.not_mem_nil
  rw [h.blobs]
  constructor
  · rintro ⟨t, ht, row, hrow, hblob⟩
    exact ⟨t, row, h.reached t (.inl ht), hrow, hblob⟩
  · rintro ⟨t, row, hpath, hrow, hblob⟩
    exact ⟨t, hseen t hpath, row, hrow, hblob⟩

/-- The first blobs reachable from the root, and whether they are not all. -/
theorem runWalkClosure_settles (trees : List (TreeRow Id)) (root : Id) :
    ∃ reached : List Id, reached.Nodup ∧ (∀ b, b ∈ reached ↔ BlobBelow trees root b) ∧
      Lib.Settles (fun fuel => runWalkClosure trees fuel root)
        (reached.take maxSnapshotBlobs, decide (maxSnapshotBlobs < reached.length)) := by
  have hinit : WalkInv trees root [root] ⟨[], [], [], false⟩ :=
    ⟨⟨List.nodup_nil, rfl, rfl⟩, .inr List.mem_cons_self,
      fun t ht => (by simp only [List.not_mem_nil, false_or, List.mem_singleton] at ht; rw [ht]),
      fun t ht => absurd ht List.not_mem_nil, by simp⟩
  obtain ⟨w, hw, n, hn⟩ := walkClosureLoop_settles _ _ _ le_rfl hinit
  refine ⟨w.seenBlobs, hw.capped.nodup, hw.mem_seenBlobs, n, fun fuel hfuel => ?_⟩
  have hrun := hn fuel hfuel
  beta_reduce at hrun ⊢
  rw [runWalkClosure, hrun, Option.map_some, hw.capped.blobs, hw.capped.cut]

end

end Naatre
