import Naatre.Client.FetchWalk

/-!
Where the trees of a stored tree occur, and what the client's walk returns.
The loop takes each directory of the cone from its queue at most once, so it
skips one only when the same tree occurs elsewhere in the cone. Without sparse
prefixes that is all: the walk is complete exactly when no tree with a file
below it occurs at two places.
-/

namespace Naatre.Client

section

variable {Id : Type}

mutual

theorem length_flattenInto : (node : MemNode Id) → ∀ dirs dirs',
    (node.flattenInto dirs).length = (node.flattenInto dirs').length
  | .empty, _, _ => by rw [MemNode.flattenInto, MemNode.flattenInto]
  | .entry name e rest, dirs, dirs' => by
      rw [MemNode.flattenInto, MemNode.flattenInto, List.length_append, List.length_append,
        length_flattenEntry e name dirs dirs', length_flattenInto rest dirs dirs']

theorem length_flattenEntry : (e : MemEntry Id) → ∀ name dirs dirs',
    (e.flattenEntry dirs name).length = (e.flattenEntry dirs' name).length
  | .file _ _ _, _, _, _ => by simp [MemEntry.flattenEntry]
  | .dir node, name, dirs, dirs' => by
      rw [MemEntry.flattenEntry, MemEntry.flattenEntry]
      exact length_flattenInto node _ _

end

/-- A directory that is listed loads, and its files are files of the listing. -/
theorem loadEntries_child {load : Id → Except (DeriveError Id) (MemNode Id)}
    {entries : List (TreeEntry Id)} {node : MemNode Id} (hload : loadEntries load entries = .ok node)
    {e : TreeEntry Id} (he : e ∈ entries) (hkind : e.kind = .dir) (dir : List String) :
    ∃ child, load e.object = .ok child ∧
      ∀ f ∈ child.flattenInto (dir ++ [e.name]), f ∈ node.flattenInto dir := by
  induction entries generalizing node with
  | nil => exact absurd he List.not_mem_nil
  | cons e' entries ih =>
      obtain ⟨entry, rest, hentry, hrest, rfl⟩ := loadEntries_cons.mp hload
      rw [MemNode.flattenInto]
      rcases List.mem_cons.mp he with rfl | he
      · cases hentry with
        | file hfile => rw [hkind] at hfile; cases hfile
        | dir child _ hchild =>
            exact ⟨child, hchild, fun f hf => List.mem_append_left _ hf⟩
      · obtain ⟨child, hchild, hfiles⟩ := ih hrest he
        exact ⟨child, hchild, fun f hf => List.mem_append_right _ (hfiles f hf)⟩

variable [Platform Id]

/-- The directories of the tree of `root`, and the stored tree each one is. -/
inductive Placed (trees : List (TreeRow Id)) (root : Id) : List String → Id → Prop
  | root : Placed trees root [] root
  | child {dir : List String} {id : Id} {row : TreeRow Id} {e : TreeEntry Id}
      (hplaced : Placed trees root dir id) (hrow : treeGet trees id = some row)
      (hentry : e ∈ row.entries) (hkind : e.kind = .dir) :
      Placed trees root (dir ++ [e.name]) e.object

/-- Two directories of the cone are the same stored tree only when no file of
the cone lies below them. -/
def SharesNoFiles (trees : List (TreeRow Id)) (root : Id) (prefixes : List Path) : Prop :=
  ∀ dir dir' id node, Placed trees root dir id → Placed trees root dir' id →
    descends prefixes dir = true → descends prefixes dir' = true →
    MemNode.load trees (some id) = .ok node →
    (∃ f ∈ node.flattenInto dir, underSparse prefixes f.1 = true) → dir = dir'

/-! ### Directories are taken once -/

/-- The directories taken from the queue and those still in it are directories
of the cone, each once, and each is the root or in a directory already taken. -/
structure WalkedOnce (trees : List (TreeRow Id)) (root : Id) (prefixes : List Path)
    (taken : List (List String × Id)) (s : WalkState Id) : Prop where
  placed : ∀ item ∈ taken ++ s.queue,
    Placed trees root item.1 item.2 ∧ descends prefixes item.1 = true
  once : ((taken ++ s.queue).map fun item => item.1).Nodup
  inside : ∀ item ∈ taken ++ s.queue,
    item.1 = [] ∨ item.1.dropLast ∈ taken.map fun item => item.1
  seen : ∀ id ∈ s.visited, ∃ dir, (dir, id) ∈ taken

variable {trees : List (TreeRow Id)} {nfc : String → String} {root : Id} {prefixes : List Path}
  {redacted : List Id}

omit [Platform Id] in
theorem descends_nil (prefixes : List Path) : descends prefixes [] = true := by
  cases prefixes with
  | nil => rfl
  | cons p prefixes => simp [descends]

theorem walkedOnce_start (trees : List (TreeRow Id)) (root : Id) (prefixes : List Path) :
    WalkedOnce trees root prefixes [] (walkStart root) where
  placed item hitem := by
    rw [List.mem_singleton.mp hitem]
    exact ⟨.root, descends_nil prefixes⟩
  once := List.nodup_singleton _
  inside item hitem := by
    rw [List.mem_singleton.mp hitem]
    exact .inl rfl
  seen id hid := absurd hid List.not_mem_nil

omit [Platform Id] in
theorem mem_childDirs {dir : List String} {entries : List (TreeEntry Id)}
    {item : List String × Id} :
    item ∈ childDirs prefixes dir entries ↔
      ∃ e ∈ entries, e.kind = .dir ∧ descends prefixes (dir ++ [e.name]) = true ∧
        (dir ++ [e.name], e.object) = item := by
  simp only [childDirs, List.mem_map, List.mem_filter, Bool.and_eq_true, decide_eq_true_eq,
    and_assoc]

omit [Platform Id] in
theorem nodup_childDirs {dir : List String} {entries : List (TreeEntry Id)}
    (h : entries.Pairwise fun a b => a.name < b.name) :
    ((childDirs prefixes dir entries).map fun item => item.1).Nodup := by
  rw [childDirs, List.map_map]
  refine List.pairwise_map.mpr ((h.filter _).imp ?_)
  intro a b hlt heq
  have hname : a.name = b.name := by simpa using heq
  exact absurd hname hlt.ne

/-- A round takes the first directory, and queues those in it. -/
theorem WalkedOnce.turned {taken : List (List String × Id)} {s s' : WalkState Id}
    (h : WalkedOnce trees root prefixes taken s) (hwf : TreesWf trees)
    (hturned : Turned trees prefixes s s') :
    ∃ item, WalkedOnce trees root prefixes (taken ++ [item]) s' := by
  cases hturned with
  | @skip dir id hqueue hseen hvisited =>
      have hsame : taken ++ [(dir, id)] ++ s'.queue = taken ++ s.queue := by
        rw [hqueue, List.append_assoc, List.singleton_append]
      refine ⟨(dir, id), ?_, ?_, ?_, ?_⟩
      · rw [hsame]
        exact h.placed
      · rw [hsame]
        exact h.once
      · rw [hsame]
        intro item hitem
        refine (h.inside item hitem).imp_right fun hmem => ?_
        rw [List.map_append]
        exact List.mem_append_left _ hmem
      · intro i hi
        obtain ⟨d, hd⟩ := h.seen i (hvisited ▸ hi)
        exact ⟨d, List.mem_append_left _ hd⟩
  | @list dir id rest row hqueue hnew hrow hvisited hqueue' =>
      have hsame : taken ++ [(dir, id)] ++ s'.queue =
          (taken ++ s.queue) ++ childDirs prefixes dir row.entries := by
        rw [hqueue', hqueue]
        simp
      have hhead : (dir, id) ∈ taken ++ s.queue := by simp [hqueue]
      -- nothing in the directory was queued before it was taken
      have hfirst : dir ∉ taken.map fun item => item.1 := by
        have honce := h.once
        rw [hqueue, List.map_append, List.map_cons] at honce
        intro hmem
        exact (List.nodup_append.mp honce).2.2 dir hmem dir List.mem_cons_self rfl
      have hascend := TreeRow.entries_ascend (hwf.rows row (treeGet_some hrow).1).distinct
      refine ⟨(dir, id), ?_, ?_, ?_, ?_⟩
      · rw [hsame]
        intro item hitem
        rcases List.mem_append.mp hitem with hitem | hitem
        · exact h.placed item hitem
        · obtain ⟨e, he, hkind, hdescends, rfl⟩ := mem_childDirs.mp hitem
          exact ⟨.child (h.placed _ hhead).1 hrow he hkind, hdescends⟩
      · rw [hsame, List.map_append, List.nodup_append]
        refine ⟨h.once, nodup_childDirs hascend, ?_⟩
        rintro a ha b hb rfl
        obtain ⟨item, hitem, rfl⟩ := List.mem_map.mp ha
        obtain ⟨child, hchild, heq⟩ := List.mem_map.mp hb
        obtain ⟨e, -, -, -, rfl⟩ := mem_childDirs.mp hchild
        rcases h.inside item hitem with hroot | hmem
        · rw [hroot] at heq
          exact absurd heq (List.append_ne_nil_of_right_ne_nil _ (List.cons_ne_nil _ _))
        · rw [← heq, List.dropLast_concat] at hmem
          exact hfirst hmem
      · rw [hsame]
        intro item hitem
        rw [List.map_append]
        rcases List.mem_append.mp hitem with hitem | hitem
        · exact (h.inside item hitem).imp_right (List.mem_append_left _)
        · obtain ⟨e, -, -, -, rfl⟩ := mem_childDirs.mp hitem
          right
          rw [List.dropLast_concat]
          exact List.mem_append_right _ List.mem_cons_self
      · intro i hi
        rw [hvisited] at hi
        rcases List.mem_cons.mp hi with rfl | hi
        · exact ⟨dir, List.mem_append_right _ List.mem_cons_self⟩
        · obtain ⟨d, hd⟩ := h.seen i hi
          exact ⟨d, List.mem_append_left _ hd⟩

theorem Round.turned (hwf : TreesWf trees) (hred : BlobsOnly redacted) {s s' : WalkState Id}
    (hloads : Loads trees nfc s.queue) (h : Round nfc (getTree trees redacted) prefixes s s') :
    Turned trees prefixes s s' ∧ Loads trees nfc s'.queue := by
  obtain ⟨hne, hstep⟩ := h
  obtain ⟨⟨dir, id⟩, rest, hqueue⟩ := List.exists_cons_of_ne_nil hne
  obtain ⟨t, hrun, hturned, hloads', -⟩ := walkStep_ok prefixes hwf hred hqueue hloads
  rw [hstep, Except.ok.injEq] at hrun
  exact ⟨hrun ▸ hturned, hrun ▸ hloads'⟩

theorem walkedOnce_of_rounds (hwf : TreesWf trees) (hred : BlobsOnly redacted)
    (hloads : Loads trees nfc (walkStart root).queue) {s : WalkState Id}
    (hrounds : Relation.ReflTransGen (Round nfc (getTree trees redacted) prefixes)
      (walkStart root) s) :
    Loads trees nfc s.queue ∧ ∃ taken, WalkedOnce trees root prefixes taken s := by
  induction hrounds with
  | refl => exact ⟨hloads, [], walkedOnce_start trees root prefixes⟩
  | tail _ hround ih =>
      obtain ⟨hloads₁, taken, hwalked⟩ := ih
      obtain ⟨hturned, hloads₂⟩ := hround.turned hwf hred hloads₁
      obtain ⟨item, hwalked'⟩ := hwalked.turned hwf hturned
      exact ⟨hloads₂, _, hwalked'⟩

theorem keepsFiles_of_sharesNoFiles (hwf : TreesWf trees) (hred : BlobsOnly redacted)
    (hloads : Loads trees nfc (walkStart root).queue) (h : SharesNoFiles trees root prefixes)
    {s : WalkState Id}
    (hrounds : Relation.ReflTransGen (Round nfc (getTree trees redacted) prefixes)
      (walkStart root) s) : ¬ LosesFiles trees prefixes s := by
  rintro ⟨dir, id, rest, node, hqueue, hseen, hload, hfiles⟩
  obtain ⟨-, taken, hwalked⟩ := walkedOnce_of_rounds hwf hred hloads hrounds
  obtain ⟨dir', htaken⟩ := hwalked.seen id hseen
  obtain ⟨hplaced, hdescends⟩ := hwalked.placed (dir, id) (by simp [hqueue])
  obtain ⟨hplaced', hdescends'⟩ := hwalked.placed (dir', id) (List.mem_append_left _ htaken)
  have heq := h dir dir' id node hplaced hplaced' hdescends hdescends' hload hfiles
  -- the same place, taken before and still queued
  have honce := hwalked.once
  rw [hqueue, List.map_append, List.map_cons] at honce
  exact (List.nodup_append.mp honce).2.2 dir' (List.mem_map.mpr ⟨_, htaken, rfl⟩) dir
    List.mem_cons_self heq.symm

/-! ### Every directory is taken -/

theorem Placed.loads {node : MemNode Id} (hload : MemNode.load trees (some root) = .ok node)
    {dir : List String} {id : Id} (h : Placed trees root dir id) :
    ∃ node, MemNode.load trees (some id) = .ok node := by
  induction h with
  | root => exact ⟨node, hload⟩
  | @child dir id row e _ hrow hentry hkind ih =>
      obtain ⟨parent, hparent⟩ := ih
      obtain ⟨row', hrow', hentries⟩ := load_row hparent
      rw [hrow, Option.some.injEq] at hrow'
      obtain ⟨child, hchild, -⟩ := loadEntries_child (hrow' ▸ hentries) hentry hkind []
      exact ⟨child, hchild⟩

/-- What is queued comes to the head of the queue. -/
theorem rounds_to (hwf : TreesWf trees) (hred : BlobsOnly redacted)
    (ahead : List (List String × Id)) {s : WalkState Id} {item : List String × Id}
    {rest : List (List String × Id)} (hloads : Loads trees nfc s.queue)
    (hqueue : s.queue = ahead ++ item :: rest) :
    ∃ s' rest', Relation.ReflTransGen (Round nfc (getTree trees redacted) prefixes) s s' ∧
      s'.queue = item :: rest' := by
  induction ahead generalizing s rest with
  | nil => exact ⟨s, rest, .refl, hqueue⟩
  | cons first ahead ih =>
      have hne : s.queue ≠ [] := by rw [hqueue]; exact List.cons_ne_nil _ _
      obtain ⟨s₁, hstep, hturned, hloads₁, -⟩ := walkStep_ok prefixes hwf hred hqueue hloads
      have hahead : ∃ rest₁, s₁.queue = ahead ++ item :: rest₁ := by
        cases hturned with
        | skip hqueue₁ =>
            rw [hqueue] at hqueue₁
            exact ⟨rest, (List.cons.inj hqueue₁).2.symm⟩
        | @list dir id rest₁ row hqueue₁ _ _ _ hqueue' =>
            rw [hqueue] at hqueue₁
            refine ⟨rest ++ childDirs prefixes dir row.entries, ?_⟩
            rw [hqueue', ← (List.cons.inj hqueue₁).2]
            exact List.append_assoc ahead (item :: rest) _
      obtain ⟨rest₁, hqueue₁⟩ := hahead
      obtain ⟨s', rest', hrounds, hhead⟩ := ih hloads₁ hqueue₁
      exact ⟨s', rest', .head ⟨hne, hstep⟩ hrounds, hhead⟩

/-- A walk of the whole tree that skips no files takes every directory with files,
and lists it. -/
theorem Placed.taken (hwf : TreesWf trees) (hred : BlobsOnly redacted) {node : MemNode Id}
    (hload : MemNode.load trees (some root) = .ok node)
    (hloads : Loads trees nfc (walkStart root).queue)
    (hkeeps : ∀ s, Relation.ReflTransGen (Round nfc (getTree trees redacted) [])
      (walkStart root) s → ¬ LosesFiles trees [] s)
    {dir : List String} {id : Id} (h : Placed trees root dir id) :
    ∀ child, MemNode.load trees (some id) = .ok child → child.flattenInto dir ≠ [] →
      ∃ s rest, Relation.ReflTransGen (Round nfc (getTree trees redacted) [])
        (walkStart root) s ∧ s.queue = (dir, id) :: rest ∧ id ∉ s.visited := by
  induction h with
  | root => exact fun _ _ _ => ⟨walkStart root, [], .refl, rfl, List.not_mem_nil⟩
  | @child dir id row e hplaced hrow hentry hkind ih =>
      intro child hchild hfiles
      obtain ⟨parent, hparent⟩ := hplaced.loads hload
      obtain ⟨row', hrow', hentries⟩ := load_row hparent
      rw [hrow, Option.some.injEq] at hrow'
      obtain ⟨child', hchild', hbelow⟩ := loadEntries_child (hrow' ▸ hentries) hentry hkind dir
      obtain rfl : child' = child :=
        Except.ok.inj (hchild'.symm.trans (show loadNode trees trees.length e.object = _ from hchild))
      obtain ⟨f, hf⟩ := List.exists_mem_of_ne_nil _ hfiles
      obtain ⟨s, rest, hrounds, hqueue, hnew⟩ :=
        ih parent hparent (List.ne_nil_of_mem (hbelow f hf))
      obtain ⟨hloads₀, -⟩ := walkedOnce_of_rounds hwf hred hloads hrounds
      obtain ⟨s₁, hstep, hturned, hloads₁, -⟩ := walkStep_ok [] hwf hred hqueue hloads₀
      have hqueued : (dir ++ [e.name], e.object) ∈ s₁.queue := by
        cases hturned with
        | skip hqueue₁ hseen =>
            rw [hqueue] at hqueue₁
            cases hqueue₁
            exact absurd hseen hnew
        | @list dir₁ id₁ rest₁ row₁ hqueue₁ _ hrow₁ _ hqueue' =>
            rw [hqueue] at hqueue₁
            cases hqueue₁
            rw [hrow, Option.some.injEq] at hrow₁
            rw [hqueue', ← hrow₁]
            exact List.mem_append_right _ (mem_childDirs.mpr ⟨e, hentry, hkind, rfl, rfl⟩)
      obtain ⟨ahead, behind, hsplit⟩ := List.append_of_mem hqueued
      obtain ⟨s₂, rest₂, hrounds₂, hhead⟩ := rounds_to hwf hred ahead hloads₁ hsplit
      have hreach := (hrounds.tail ⟨by rw [hqueue]; exact List.cons_ne_nil _ _, hstep⟩).trans hrounds₂
      refine ⟨s₂, rest₂, hreach, hhead, fun hseen => hkeeps s₂ hreach ?_⟩
      exact ⟨_, _, rest₂, child', hhead, hseen, hchild, f, hf, rfl⟩

/-- A tree is listed once. -/
theorem rounds_head_once (hwf : TreesWf trees) (hred : BlobsOnly redacted)
    {s s' : WalkState Id} {dir dir' : List String} {id : Id}
    {rest rest' : List (List String × Id)} (hloads : Loads trees nfc s.queue)
    (hrounds : Relation.ReflTransGen (Round nfc (getTree trees redacted) prefixes) s s')
    (hqueue : s.queue = (dir, id) :: rest) (hqueue' : s'.queue = (dir', id) :: rest')
    (hnew : id ∉ s.visited) (hnew' : id ∉ s'.visited) : dir = dir' := by
  have hseen : ∀ {t t'}, Loads trees nfc t.queue → id ∈ t.visited →
      Relation.ReflTransGen (Round nfc (getTree trees redacted) prefixes) t t' →
      id ∈ t'.visited := by
    intro t t' ht hmem hreach
    have hboth : Loads trees nfc t'.queue ∧ id ∈ t'.visited := by
      induction hreach with
      | refl => exact ⟨ht, hmem⟩
      | tail _ hround ih =>
          obtain ⟨hturned, hloads'⟩ := hround.turned hwf hred ih.1
          refine ⟨hloads', ?_⟩
          cases hturned with
          | skip _ _ hvisited => exact hvisited ▸ ih.2
          | list _ _ _ hvisited => exact hvisited ▸ List.mem_cons_of_mem _ ih.2
    exact hboth.2
  rcases Relation.ReflTransGen.cases_head hrounds with rfl | ⟨s₁, hround, hrounds⟩
  · rw [hqueue] at hqueue'
    cases hqueue'
    rfl
  · obtain ⟨hturned, hloads₁⟩ := hround.turned hwf hred hloads
    refine absurd (hseen hloads₁ ?_ hrounds) hnew'
    cases hturned with
    | skip hqueue₁ hold =>
        rw [hqueue] at hqueue₁
        cases hqueue₁
        exact absurd hold hnew
    | list hqueue₁ _ _ hvisited =>
        rw [hqueue] at hqueue₁
        cases hqueue₁
        exact hvisited ▸ List.mem_cons_self

theorem sharesNoFiles_of_keepsFiles (hwf : TreesWf trees) (hred : BlobsOnly redacted)
    {node : MemNode Id} (hload : MemNode.load trees (some root) = .ok node)
    (hloads : Loads trees nfc (walkStart root).queue)
    (hkeeps : ∀ s, Relation.ReflTransGen (Round nfc (getTree trees redacted) [])
      (walkStart root) s → ¬ LosesFiles trees [] s) : SharesNoFiles trees root [] := by
  rintro dir dir' id shared hplaced hplaced' - - hshared ⟨f, hf, -⟩
  have hfiles : shared.flattenInto dir ≠ [] := List.ne_nil_of_mem hf
  have hfiles' : shared.flattenInto dir' ≠ [] := by
    rw [← List.length_pos_iff, length_flattenInto shared dir' dir]
    exact List.length_pos_iff.mpr hfiles
  obtain ⟨s, rest, hrounds, hqueue, hnew⟩ :=
    hplaced.taken hwf hred hload hloads hkeeps shared hshared hfiles
  obtain ⟨s', rest', hrounds', hqueue', hnew'⟩ :=
    hplaced'.taken hwf hred hload hloads hkeeps shared hshared hfiles'
  have hunique : Relator.RightUnique (Round nfc (getTree trees redacted) ([] : List Path)) := by
    intro a b c hb hc
    exact Except.ok.inj (hb.2.symm.trans hc.2)
  rcases Relation.ReflTransGen.total_of_right_unique hunique hrounds hrounds' with hle | hle
  · exact rounds_head_once hwf hred (walkedOnce_of_rounds hwf hred hloads hrounds).1 hle hqueue
      hqueue' hnew hnew'
  · exact (rounds_head_once hwf hred (walkedOnce_of_rounds hwf hred hloads hrounds').1 hle
      hqueue' hqueue hnew' hnew).symm

/-! ### The walk -/

/-- The walk of a stored tree ends, in the strict form with its result or a
prefix it did not find. The result is complete exactly when the loop never
skips a directory with files of the cone below it, because it has listed the
same tree elsewhere. No two directories of the cone being one tree is enough for
that, and without prefixes it is the same. -/
theorem walk_complete_iff {trees : List (TreeRow Id)} {nfc : String → String}
    {prefixes : List Path} {redacted : List Id} {root : Id} {node : MemNode Id}
    (hwf : TreesWf trees) (hred : BlobsOnly redacted)
    (hload : MemNode.load trees (some root) = .ok node)
    (hpaths : ∀ f ∈ flattenFiles node, f.1.validate nfc = .ok ())
    (hprefixes : ∀ p ∈ prefixes, p.validate nfc = .ok ()) :
    ∃ w n, (∀ fuel, n ≤ fuel →
        walkTreeInner nfc (getTree trees redacted) fuel root prefixes false = some (.ok w) ∧
        (walkTreeInner nfc (getTree trees redacted) fuel root prefixes true = some (.ok w) ∨
          ∃ p ∈ prefixes,
            walkTreeInner nfc (getTree trees redacted) fuel root prefixes true =
              some (.error (.localError
                ("sparse prefix " ++ quoted p.text ++ " does not exist in the tree"))))) ∧
      (w.Complete prefixes redacted (flattenFiles node) ↔
        ∀ s, Relation.ReflTransGen (Round nfc (getTree trees redacted) prefixes)
          (walkStart root) s → ¬ LosesFiles trees prefixes s) ∧
      (SharesNoFiles trees root prefixes → w.Complete prefixes redacted (flattenFiles node)) ∧
      (prefixes = [] →
        (w.Complete prefixes redacted (flattenFiles node) ↔ SharesNoFiles trees root prefixes)) := by
  have hloads : Loads trees nfc (walkStart root).queue := by
    intro item hitem
    rw [List.mem_singleton.mp hitem]
    exact ⟨node, hload, hpaths⟩
  obtain ⟨t, lost, hrun, hsum, hlost⟩ := endsWithin prefixes hwf hred hloads le_rfl
  have htotal : t.walk.tally + lost = select prefixes redacted (flattenFiles node) := by
    rw [hsum, walkStart, pending_cons, below, hload]
    simp [TreeWalk.tally, pending, flattenFiles]
  have hcomplete : t.walk.Complete prefixes redacted (flattenFiles node) ↔
      ∀ s, Relation.ReflTransGen (Round nfc (getTree trees redacted) prefixes)
        (walkStart root) s → ¬ LosesFiles trees prefixes s := by
    rw [complete_iff, ← hlost, ← htotal]
    exact left_eq_add
  have henough : SharesNoFiles trees root prefixes →
      t.walk.Complete prefixes redacted (flattenFiles node) := fun hshares =>
    hcomplete.mpr fun _ hrounds => keepsFiles_of_sharesNoFiles hwf hred hloads hshares hrounds
  refine ⟨t.walk, weight trees (walkStart root).queue, fun fuel hfuel => ?_, hcomplete, henough,
    ?_⟩
  · have hinner : ∀ required,
        walkTreeInner nfc (getTree trees redacted) fuel root prefixes required =
          some (checkPrefixes required prefixes t) := by
      intro required
      rw [walkTreeInner, validatePrefixes_ok hprefixes]
      simp only [hrun fuel hfuel]
    rw [hinner, hinner]
    refine ⟨rfl, ?_⟩
    rw [checkPrefixes, if_pos rfl]
    cases hfind : prefixes.find? (fun p => !prefixFound t p) with
    | none => exact .inl rfl
    | some p => exact .inr ⟨p, List.mem_of_find?_eq_some hfind, rfl⟩
  · rintro rfl
    exact ⟨fun h => sharesNoFiles_of_keepsFiles hwf hred hload hloads (hcomplete.mp h), henough⟩

end

/-! ### Two directories with the same content -/

namespace SharedDirs

/-- `x/f` and `y/f`: one blob, one directory tree at two places. -/
def node : MemNode PlainId :=
  let dir : MemEntry PlainId := .dir (.entry "f" (.file [9] 1 false) .empty)
  .entry "x" dir (.entry "y" dir .empty)

def collected : PlainId × List (TreeRow PlainId) :=
  match node.collect with
  | .ok (root, _, rows) => (root, rows)
  | .error _ => ([], [])

def trees : List (TreeRow PlainId) := treesInsert [] collected.2

theorem collect_node : ∃ size, node.collect = .ok (collected.1, size, collected.2) := by
  have hok : node.collect.isOk = true := by decide +kernel
  cases h : node.collect with
  | error e => rw [h] at hok; cases hok
  | ok p => exact ⟨p.2.1, by simp only [collected, h]⟩

theorem trees_wf : TreesWf trees := by
  obtain ⟨size, hcollect⟩ := collect_node
  exact TreesWf.nil.insert (collect_rows hcollect).1.wf

theorem load_node : MemNode.load trees (some collected.1) = .ok node := by
  obtain ⟨size, hcollect⟩ := collect_node
  exact load_collect hcollect TreesWf.nil

/-- The root, and `x` and `y` with a file each. -/
theorem placed_cases {dir : List String} {id : PlainId} (h : Placed trees collected.1 dir id) :
    (dir = [] ∧ id = collected.1) ∨ ((dir = ["x"] ∨ dir = ["y"]) ∧ id ≠ collected.1 ∧
      ∀ row ∈ treeGet trees id, ∀ e ∈ row.entries, e.kind = .file) := by
  have hroot : ∀ row ∈ treeGet trees collected.1, ∀ e ∈ row.entries,
      (e.name = "x" ∨ e.name = "y") ∧ e.object ≠ collected.1 ∧
        ∀ row ∈ treeGet trees e.object, ∀ e ∈ row.entries, e.kind = .file := by decide +kernel
  induction h with
  | root => exact .inl ⟨rfl, rfl⟩
  | @child dir id row e _ hrow hentry hkind ih =>
      rcases ih with ⟨rfl, rfl⟩ | ⟨-, -, hfiles⟩
      · obtain ⟨hname, hother⟩ := hroot row hrow e hentry
        exact .inr ⟨hname.imp (fun h => by rw [h]; rfl) (fun h => by rw [h]; rfl), hother⟩
      · rw [hfiles row hrow e hentry] at hkind
        cases hkind

/-- In the cone `x` no tree occurs twice. -/
theorem sharesNoFiles_x : SharesNoFiles trees collected.1 [⟨[], "x"⟩] := by
  intro dir dir' id node hplaced hplaced' hdescends hdescends' _ _
  have hy : descends [⟨[], "x"⟩] ["y"] = false := by decide
  rcases placed_cases hplaced with ⟨rfl, hid⟩ | ⟨rfl | rfl, hid, -⟩
  · rcases placed_cases hplaced' with ⟨rfl, -⟩ | ⟨-, hid', -⟩
    · rfl
    · exact absurd hid hid'
  · rcases placed_cases hplaced' with ⟨-, hid'⟩ | ⟨rfl | rfl, -⟩
    · exact absurd hid' hid
    · rfl
    · rw [hy] at hdescends'
      cases hdescends'
  · rw [hy] at hdescends
    cases hdescends

end SharedDirs

open SharedDirs in
/-- The walk of the whole tree returns `x/f` alone. -/
theorem walk_shared :
    walkTreeInner id (getTree trees []) 3 collected.1 [] true =
        some (.ok ⟨[⟨⟨["x"], "f"⟩, [9], 1, false⟩], []⟩) ∧
      ¬ (⟨[⟨⟨["x"], "f"⟩, [9], 1, false⟩], []⟩ : TreeWalk PlainId).Complete [] []
        (flattenFiles node) := by
  constructor
  · decide +kernel
  · intro h
    have hlen := h.available.length_eq
    revert hlen
    decide

open SharedDirs in
/-- The walk of the cone `x` returns what lies in it. -/
theorem walk_complete_iff_cone :
    ∃ w n, (∀ fuel, n ≤ fuel →
        walkTreeInner id (getTree trees []) fuel collected.1 [⟨[], "x"⟩] false = some (.ok w)) ∧
      w.Complete [⟨[], "x"⟩] [] (flattenFiles node) := by
  have hpaths : ∀ f ∈ flattenFiles node, f.1.validate id = .ok () := by decide +kernel
  have hprefixes : ∀ p ∈ [(⟨[], "x"⟩ : Path)], p.validate id = .ok () := by decide +kernel
  obtain ⟨w, n, hruns, -, henough, -⟩ := walk_complete_iff trees_wf
    (fun _ hid => absurd hid List.not_mem_nil) load_node hpaths hprefixes
  exact ⟨w, n, fun fuel hfuel => (hruns fuel hfuel).1, henough sharesNoFiles_x⟩

end Naatre.Client
