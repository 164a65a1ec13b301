import Naatre.Server.TreeNames

/-!
What a land encodes. Over trees of split names the frame of a rebased
changeset and the rows of a merged tree break no rule of the encoders but the
size caps.
-/

namespace Naatre

section

variable {Id : Type} [Platform Id]

/-! ### The change list -/

theorem deltaAt_payload {p : Path} {a c : Option (FileMeta Id)} {d : FileChange Id}
    (h : deltaAt p a c = some d) : d.payloadOk = true := by
  unfold deltaAt at h
  split at h
  · split_ifs at h
    cases h
    rfl
  · cases h
    rfl
  · cases h
    rfl
  · cases h

/-- The delta of two trees of split names lists its paths in strict order. -/
theorem deltaBetween_ascend {parent child : MemNode Id} (hparent : parent.Names NoSlash)
    (hchild : child.Names NoSlash) :
    pathsAscend ((deltaBetween parent child).map (fun c => c.path)) = true := by
  rw [pathsAscend, decide_eq_true_iff]
  refine List.Pairwise.isChain ?_
  rw [List.pairwise_map]
  have hnodup := Path.sortPaths_nodup
    ((flattenFiles parent).map (·.1) ++ (flattenFiles child).map (·.1))
  have hsorted := Path.sortPaths_pairwise
    ((flattenFiles parent).map (·.1) ++ (flattenFiles child).map (·.1))
  have hsplit : ∀ p ∈ Path.sortPaths
      ((flattenFiles parent).map (·.1) ++ (flattenFiles child).map (·.1)),
      ∀ n ∈ p.components, NoSlash n := by
    intro p hp
    rw [Path.mem_sortPaths, List.mem_append] at hp
    have hnone : ∀ d ∈ ([] : List String), NoSlash d := fun d hd => absurd hd List.not_mem_nil
    rcases hp with hp | hp
    · obtain ⟨f, hf, rfl⟩ := List.mem_map.mp hp
      exact flattenInto_names parent hparent [] hnone f hf
    · obtain ⟨f, hf, rfl⟩ := List.mem_map.mp hp
      exact flattenInto_names child hchild [] hnone f hf
  rw [deltaBetween, List.pairwise_filterMap]
  refine (hnodup.and hsorted).imp_of_mem ?_
  rintro p q hp hq ⟨hne, hbefore⟩ c hc d hd
  obtain ⟨rfl, -⟩ := deltaAt_some hc
  obtain ⟨rfl, -⟩ := deltaAt_some hd
  have hle : c.path.text ≤ d.path.text := by simpa [Path.before] using hbefore
  exact lt_of_le_of_ne hle fun heq => hne (Path.text_inj (hsplit _ hp) (hsplit _ hq) heq)

/-! ### The carried conflicts -/

omit [Platform Id] in
/-- A node whose rebase conflicts nowhere carries the reps it had. -/
theorem carry_none {existing : List (ConflictRep Id)}
    (h : pathsAscend (existing.map (fun rep => rep.path)) = true) : carry existing [] = existing := by
  have hchain : (existing.map (fun rep => rep.path)).IsChain fun p q => p.text < q.text := by
    simpa [pathsAscend] using h
  have htrans : IsTrans Path fun p q => p.text < q.text := ⟨fun _ _ _ hab hbc => lt_trans hab hbc⟩
  have hascend := List.isChain_iff_pairwise.mp hchain
  have hnodup : (existing.map (fun rep => rep.path)).Nodup := by
    refine hascend.imp fun {p q} hlt heq => ?_
    rw [heq] at hlt
    exact absurd hlt (lt_irrefl _)
  have hsort : Path.sortPaths (existing.map (fun rep => rep.path)) =
      existing.map (fun rep => rep.path) := by
    rw [Path.sortPaths, hnodup.dedup]
    refine List.Pairwise.insertionSort_eq (hascend.imp fun hlt => ?_)
    simpa [Path.before] using le_of_lt hlt
  have hone : ∀ rep ∈ existing, repAt rep.path existing = some rep := by
    intro rep hrep
    obtain ⟨found, hfound⟩ := Option.isSome_iff_exists.mp
      (repAt_isSome.mpr (List.mem_map_of_mem (f := fun rep => rep.path) hrep))
    obtain ⟨hpath, hmem⟩ := repAt_path hfound
    rw [hfound, List.inj_on_of_nodup_map hnodup hmem hrep hpath]
  have hall : (existing.map fun rep => rep.path).filterMap (fun p => repAt p existing) =
      existing := by
    rw [List.filterMap_map]
    refine (List.filterMap_congr (g := some) hone).trans (List.filterMap_some)
  simp only [carry, List.append_nil]
  rw [hsort, hall]

/-- The conflicts of a frame pass the encoder's check. -/
theorem Frame.conflicts_ok (canonical : Canonical Id) :
    validateConflicts (Platform.nfc Id) canonical.cs.conflicts = .ok () := by
  have h := canonical.encodable
  cases hvalid : validateConflicts (Platform.nfc Id) canonical.cs.conflicts with
  | ok => rfl
  | error e =>
      unfold Changeset.encodeError at h
      simp only [hvalid] at h
      split_ifs at h

theorem carried_ok (canonical : Canonical Id) :
    carry canonical.cs.conflicts [] = canonical.cs.conflicts := by
  have h := canonical.conflicts_ok
  unfold validateConflicts at h
  split_ifs at h with hmany hascend
  exact carry_none (by simpa using hascend)

/-! ### The frame -/

/-- A clean rebase breaks no rule of the encoder but its size cap. -/
theorem NodeMerge.encode_cases {cmd : LandCommand Id} {st : LandState Id} {node : Id}
    (m : NodeMerge cmd st node) (hclean : m.reconflicted = [])
    (htrees : TreesNamed NoSlash st.cx.trees) (htip : st.tipTree.Names NoSlash) :
    (∃ canonical, m.rebased.encode = .ok canonical) ∨
      m.rebased.encode = .error .encodeTooLarge := by
  have hreps : m.reps = m.input.row.canonical.cs.conflicts := by
    rw [NodeMerge.reps, hclean]
    exact carried_ok m.input.row.canonical
  have hascend := deltaBetween_ascend htip (m.names htrees htip).2
  have hpayload : m.delta.all (fun c => c.payloadOk) = true := by
    rw [List.all_eq_true]
    exact fun c hc => deltaAt_payload (mem_deltaBetween.mp hc)
  have herror : m.rebased.encodeError (Platform.nfc Id) =
      if maxObjectBytes < m.rebased.encodedLen then some .encodeTooLarge else none := by
    have hparents : ¬ maxParents < m.rebased.parents.length := by
      show ¬ maxParents < 1
      decide
    have hsorted : ¬ (!pathsAscend (m.rebased.changes.map (·.path))) = true := by
      show ¬ (!pathsAscend ((deltaBetween st.tipTree m.merged.node).map (·.path))) = true
      rw [hascend]
      decide
    have hconflicts : validateConflicts (Platform.nfc Id) m.rebased.conflicts = .ok () := by
      show validateConflicts (Platform.nfc Id) m.reps = .ok ()
      rw [hreps]
      exact m.input.row.canonical.conflicts_ok
    have hchanges : m.rebased.changes.all (fun c => c.payloadOk) = true := hpayload
    rw [Changeset.encodeError, if_neg hparents, if_neg hsorted, hconflicts, hchanges]
    rfl
  unfold Changeset.encode
  split
  next e he =>
    rw [herror] at he
    split_ifs at he
    cases he
    exact .inr rfl
  next he => exact .inl ⟨_, rfl⟩

/-! ### The rows -/

theorem treeRowOf_cases {entries : List (TreeEntry Id)}
    (h : entries.IsChain fun a b => a.name < b.name) :
    (∃ row, treeRowOf entries = .ok row) ∨
      treeRowOf entries = .error (.core .encodeTooLarge) := by
  have hwritten : (entries.map (fun e => e.written)).IsChain fun a b => a.name < b.name := by
    rw [List.isChain_map]
    exact h
  unfold treeRowOf Tree.encode
  simp only
  split
  next e he =>
    split at he
    next e' herror =>
      cases he
      rw [Tree.encodeError, if_neg (not_not.mpr hwritten)] at herror
      split_ifs at herror
      cases herror
      exact .inr rfl
    · cases he
  next canonical he => exact .inl ⟨_, rfl⟩

omit [Platform Id] in
theorem names_ascend (node : MemNode Id) : node.Sorted → node.names.Pairwise fun a b => a < b := by
  induction node with
  | empty => exact fun _ => .nil
  | entry name _ rest _ ih =>
      exact fun h => .cons (MemNode.after_names rest name h.2.2 h.1) (ih h.2.2)

omit [Platform Id] in
theorem entries_chain {node : MemNode Id} (hsorted : node.Sorted) {entries : List (TreeEntry Id)}
    (hnames : entries.map (fun e => e.name) = node.names) :
    entries.IsChain fun a b => a.name < b.name := by
  have hascend := names_ascend node hsorted
  rw [← hnames, List.pairwise_map] at hascend
  exact hascend.isChain

mutual

/-- A directory in name order makes its rows or one of them is too large. -/
theorem collectEntries_cases : (node : MemNode Id) → node.Sorted →
    (∃ entries size rows, node.collectEntries = .ok (entries, size, rows) ∧
        entries.map (fun e => e.name) = node.names) ∨
      node.collectEntries = .error (.core .encodeTooLarge)
  | .empty => fun _ => .inl ⟨[], 0, [], rfl, rfl⟩
  | .entry name e rest => by
      intro hsorted
      rw [MemNode.collectEntries]
      rcases collectEntry_cases e hsorted.2.1 name with ⟨entry, size, rows, hentry, hname⟩ | hlarge
      · rcases collectEntries_cases rest hsorted.2.2 with
          ⟨entries, total, rows', hrest, hnames⟩ | hlarge
        · refine .inl ⟨entry :: entries, (size + total) % 2 ^ 64, rows ++ rows', ?_, ?_⟩
          · rw [hentry, hrest]
            rfl
          · rw [List.map_cons, hname, hnames]
            rfl
        · right
          rw [hentry, hlarge]
          rfl
      · right
        rw [hlarge]
        rfl

theorem collectEntry_cases : (e : MemEntry Id) → e.Sorted → ∀ name,
    (∃ entry size rows, e.collectEntry name = .ok (entry, size, rows) ∧ entry.name = name) ∨
      e.collectEntry name = .error (.core .encodeTooLarge)
  | .file blob size exec => fun _ name => .inl ⟨_, _, _, rfl, rfl⟩
  | .dir child => by
      intro hsorted name
      rw [MemEntry.collectEntry]
      rcases collectEntries_cases child hsorted with ⟨entries, total, rows, hchild, hnames⟩ | hlarge
      · rcases treeRowOf_cases (entries_chain hsorted hnames) with ⟨row, hrow⟩ | hlarge
        · refine .inl ⟨⟨name, .dir, row.id, total, false⟩, total, rows ++ [row], ?_, rfl⟩
          rw [hchild]
          show (treeRowOf entries >>= fun row => _) = _
          rw [hrow]
          rfl
        · right
          rw [hchild]
          show (treeRowOf entries >>= fun row => _) = _
          rw [hlarge]
          rfl
      · right
        rw [hlarge]
        rfl

end

theorem collect_cases {node : MemNode Id} (hsorted : node.Sorted) :
    (∃ root size rows, node.collect = .ok (root, size, rows)) ∨
      node.collect = .error (.core .encodeTooLarge) := by
  rw [MemNode.collect]
  rcases collectEntries_cases node hsorted with ⟨entries, total, rows, hnode, hnames⟩ | hlarge
  · rcases treeRowOf_cases (entries_chain hsorted hnames) with ⟨row, hrow⟩ | hlarge
    · refine .inl ⟨row.id, total, rows ++ [row], ?_⟩
      rw [hnode]
      show (treeRowOf entries >>= fun row => _) = _
      rw [hrow]
      rfl
    · right
      rw [hnode]
      show (treeRowOf entries >>= fun row => _) = _
      rw [hlarge]
      rfl
  · right
    rw [hlarge]
    rfl

end

end Naatre
