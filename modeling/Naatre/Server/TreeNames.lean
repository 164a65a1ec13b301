import Naatre.Core.WireFrames
import Naatre.Server.CaseFold

/-!
The names of the stored trees. A property of single names that holds of the
components a request names, of the names a git tree has and of every valid
component holds of every name the server stores: no writer of a tree makes a
name of its own.
-/

namespace Naatre

/-! ### Paths of split texts -/

/-- No component has a slash: what splitting a text at its slashes yields. -/
def NoSlash (name : String) : Prop := '/' ∉ name.toList

/-- A split path is determined by its text. -/
theorem Path.text_inj {p q : Path} (hp : ∀ n ∈ p.components, NoSlash n)
    (hq : ∀ n ∈ q.components, NoSlash n) (h : p.text = q.text) : p = q := by
  have hsplit : ∀ r : Path, (∀ n ∈ r.components, NoSlash n) →
      r.text.toList.splitOn '/' = r.components.map String.toList := by
    intro r hr
    rw [Path.text, String.toList_intercalate]
    refine List.splitOn_intercalate '/' ?_ (by simp [Path.components])
    intro l hl
    obtain ⟨n, hn, rfl⟩ := List.mem_map.mp hl
    exact hr n hn
  have hcomponents : p.components = q.components := by
    have hlists := (hsplit p hp).symm.trans ((congrArg (fun s => s.toList.splitOn '/') h).trans
      (hsplit q hq))
    exact List.map_injective_iff.mpr (fun _ _ => String.toList_injective) hlists
  obtain ⟨hdirs, hleaf⟩ := List.append_inj' hcomponents rfl
  obtain ⟨dirs, leaf⟩ := p
  obtain ⟨dirs', leaf'⟩ := q
  simp only at hdirs hleaf
  rw [hdirs, List.singleton_inj.mp hleaf]

section

variable {Id : Type} {P : String → Prop}

/-! ### Trees in memory -/

mutual

/-- Every name of the tree, at any depth. -/
def MemNode.Names (P : String → Prop) : MemNode Id → Prop
  | .empty => True
  | .entry name e rest => P name ∧ e.Names P ∧ rest.Names P

def MemEntry.Names (P : String → Prop) : MemEntry Id → Prop
  | .file _ _ _ => True
  | .dir child => child.Names P

end

namespace MemNode

theorem get_names (node : MemNode Id) : node.Names P → ∀ name e, node.get name = some e →
    P name ∧ e.Names P := by
  induction node with
  | empty => exact fun _ _ _ h => by simp [get] at h
  | entry n e rest _ ih =>
      intro hnode name found h
      rw [get] at h
      split_ifs at h with hname
      · cases h
        exact ⟨hname ▸ hnode.1, hnode.2.1⟩
      · exact ih hnode.2.2 name found h

theorem insert_names {name : String} {new : MemEntry Id} (hname : P name) (hnew : new.Names P)
    (node : MemNode Id) : node.Names P → (node.insert name new).Names P := by
  induction node with
  | empty => exact fun _ => ⟨hname, hnew, trivial⟩
  | entry n e rest _ ih =>
      intro hnode
      rw [insert]
      split_ifs
      · exact ⟨hname, hnew, hnode.2.2⟩
      · exact ⟨hname, hnew, hnode⟩
      · exact ⟨hnode.1, hnode.2.1, ih hnode.2.2⟩

theorem erase_names {name : String} (node : MemNode Id) : node.Names P →
    (node.erase name).Names P := by
  induction node with
  | empty => exact fun h => h
  | entry n e rest _ ih =>
      intro hnode
      rw [erase]
      split_ifs
      · exact hnode.2.2
      · exact ⟨hnode.1, hnode.2.1, ih hnode.2.2⟩

theorem insertIn_names {leaf : String} {file : MemEntry Id} (hleaf : P leaf)
    (hfile : file.Names P) {dirs : List String} (hdirs : ∀ d ∈ dirs, P d) {node node' : MemNode Id}
    (hnode : node.Names P) (h : node.insertIn leaf file dirs = some node') : node'.Names P := by
  induction dirs generalizing node node' with
  | nil =>
      cases h
      exact insert_names hleaf hfile node hnode
  | cons d ds ih =>
      have hd := hdirs d List.mem_cons_self
      have ih := fun {node node'} => @ih (fun x hx => hdirs x (List.mem_cons_of_mem _ hx)) node node'
      rw [insertIn] at h
      split at h
      · obtain ⟨child, hchild, rfl⟩ := Option.map_eq_some_iff.mp h
        have hempty : (MemNode.empty : MemNode Id).Names P := trivial
        have hnew : (MemEntry.dir child).Names P := ih hempty hchild
        exact insert_names hd hnew node hnode
      next below hget =>
        obtain ⟨child, hchild, rfl⟩ := Option.map_eq_some_iff.mp h
        have hbelow : below.Names P := (get_names node hnode d _ hget).2
        have hnew : (MemEntry.dir child).Names P := ih hbelow hchild
        exact insert_names hd hnew node hnode
      · cases h

theorem removeIn_names {leaf : String} {dirs : List String} {node : MemNode Id}
    (hnode : node.Names P) : (node.removeIn leaf dirs).1.Names P := by
  induction dirs generalizing node with
  | nil => exact erase_names node hnode
  | cons d ds ih =>
      rw [removeIn]
      split
      next child hget =>
        obtain ⟨hd, hchild⟩ := get_names node hnode d _ hget
        have hnew : (MemEntry.dir (child.removeIn leaf ds).1).Names P := ih hchild
        simp only
        split_ifs
        · exact erase_names node hnode
        · exact insert_names hd hnew node hnode
      · exact hnode

theorem applyChange_names {node node' : MemNode Id} {c : FileChange Id}
    (h : node.applyChange c = .ok node') (hnode : node.Names P)
    (hc : ∀ n ∈ c.path.components, P n) : node'.Names P := by
  cases (applyChange_ok.mp h).2 with
  | removed => exact removeIn_names hnode
  | written m hop hfile hmod _ hinsert =>
      refine insertIn_names (hc _ (List.mem_append_right _ (List.mem_singleton.mpr rfl))) ?_
        (fun d hd => hc d (List.mem_append_left _ hd)) hnode hinsert
      exact trivial

theorem apply_names {changes : List (FileChange Id)} {node node' : MemNode Id}
    (h : node.apply changes = .ok node') (hnode : node.Names P)
    (hchanges : ∀ c ∈ changes, ∀ n ∈ c.path.components, P n) : node'.Names P := by
  induction changes generalizing node with
  | nil =>
      cases h
      exact hnode
  | cons c changes ih =>
      rw [apply, List.foldlM_cons, Lib.bind_eq_ok] at h
      obtain ⟨mid, hmid, h⟩ := h
      exact ih h (applyChange_names hmid hnode (hchanges c List.mem_cons_self))
        fun d hd => hchanges d (List.mem_cons_of_mem _ hd)

end MemNode

mutual

theorem flattenInto_names : (node : MemNode Id) → node.Names P → ∀ dirs, (∀ d ∈ dirs, P d) →
    ∀ f ∈ node.flattenInto dirs, ∀ n ∈ f.1.components, P n
  | .empty => fun _ _ _ _ hf => absurd hf List.not_mem_nil
  | .entry name e rest => by
      intro hnode dirs hdirs f hf
      rcases List.mem_append.mp hf with hf | hf
      · exact flattenEntry_names e hnode.2.1 dirs name hdirs hnode.1 f hf
      · exact flattenInto_names rest hnode.2.2 dirs hdirs f hf

theorem flattenEntry_names : (e : MemEntry Id) → e.Names P → ∀ dirs name, (∀ d ∈ dirs, P d) →
    P name → ∀ f ∈ e.flattenEntry dirs name, ∀ n ∈ f.1.components, P n
  | .file blob size exec => by
      intro _ dirs name hdirs hname f hf n hn
      rw [List.mem_singleton.mp hf] at hn
      rcases List.mem_append.mp hn with hn | hn
      · exact hdirs n hn
      · rw [List.mem_singleton.mp hn]
        exact hname
  | .dir child => by
      intro hchild dirs name hdirs hname
      refine flattenInto_names child hchild (dirs ++ [name]) fun d hd => ?_
      rcases List.mem_append.mp hd with hd | hd
      · exact hdirs d hd
      · rw [List.mem_singleton.mp hd]
        exact hname

end

/-- The components of every file of the tree. -/
theorem filesAt_names {node : MemNode Id} (hnode : node.Names P) {p : Path}
    (hp : (filesAt node p).isSome) : ∀ n ∈ p.components, P n := by
  have hmem : p ∈ (flattenFiles node).map (·.1) := by
    by_contra hnot
    rw [filesAt, lookup_eq_none_of_not_mem hnot] at hp
    cases hp
  obtain ⟨f, hf, rfl⟩ := List.mem_map.mp hmem
  exact flattenInto_names node hnode [] (fun d hd => absurd hd List.not_mem_nil) f hf

mutual

theorem exists_flattenInto : (node : MemNode Id) → node ≠ .empty → node.Full → ∀ dirs,
    ∃ f, f ∈ node.flattenInto dirs
  | .empty => fun h => absurd rfl h
  | .entry name e rest => by
      intro _ hfull dirs
      obtain ⟨f, hf⟩ := exists_flattenEntry e hfull.1 dirs name
      exact ⟨f, List.mem_append_left _ hf⟩

theorem exists_flattenEntry : (e : MemEntry Id) → e.Full → ∀ dirs name,
    ∃ f, f ∈ e.flattenEntry dirs name
  | .file _ _ _ => fun _ _ _ => ⟨_, List.mem_singleton.mpr rfl⟩
  | .dir child => fun hfull dirs name => exists_flattenInto child hfull.1 hfull.2 (dirs ++ [name])

end

mutual

theorem names_of_flattenInto : (node : MemNode Id) → node.Full → ∀ dirs,
    (∀ f ∈ node.flattenInto dirs, ∀ n ∈ f.1.components, P n) → node.Names P
  | .empty => fun _ _ _ => trivial
  | .entry name e rest => by
      intro hfull dirs hnames
      have hentry := names_of_flattenEntry e hfull.1 dirs name fun f hf =>
        hnames f (List.mem_append_left _ hf)
      exact ⟨hentry.1, hentry.2, names_of_flattenInto rest hfull.2 dirs fun f hf =>
        hnames f (List.mem_append_right _ hf)⟩

theorem names_of_flattenEntry : (e : MemEntry Id) → e.Full → ∀ dirs name,
    (∀ f ∈ e.flattenEntry dirs name, ∀ n ∈ f.1.components, P n) → P name ∧ e.Names P
  | .file blob size exec => fun _ dirs name hnames =>
      ⟨hnames _ (List.mem_singleton.mpr rfl) name
        (List.mem_append_right _ (List.mem_singleton.mpr rfl)), trivial⟩
  | .dir child => by
      intro hfull dirs name hnames
      -- a full directory has a file below it, whose path names the directory
      obtain ⟨f, hf⟩ := exists_flattenInto child hfull.1 hfull.2 (dirs ++ [name])
      have hbelow := (dirs_flattenInto child (dirs ++ [name]) f hf).subset
        (List.mem_append_right dirs (List.mem_singleton.mpr rfl))
      exact ⟨hnames f hf name (List.mem_append_left _ hbelow),
        names_of_flattenInto child hfull.2 (dirs ++ [name]) hnames⟩

end

/-- A tree without empty directories has the names its files' paths have. -/
theorem names_of_files {node : MemNode Id} (hfull : node.Full)
    (hfiles : ∀ p, (filesAt node p).isSome → ∀ n ∈ p.components, P n) : node.Names P := by
  refine names_of_flattenInto node hfull [] fun f hf => hfiles f.1 ?_
  rw [filesAt, List.lookup_isSome_iff]
  exact ⟨f, hf, beq_self_eq_true f.1⟩

mutual

/-- Every name of the commit's tree. -/
def GitTree.Names (P : String → Prop) : GitTree → Prop
  | .empty => True
  | .entry name e rest => P name.text ∧ e.Names P ∧ rest.Names P

def GitEntry.Names (P : String → Prop) : GitEntry → Prop
  | .dir _ tree => tree.Names P
  | .blob _ _ _ => True

end

/-- The text of a name in a git tree has no slash either. -/
theorem GitName.text_noSlash (name : GitName) : NoSlash name.text := by
  intro hmem
  rw [GitName.text, String.toList_ofList] at hmem
  obtain ⟨x, hx, hslash⟩ := Lib.mem_decodeLossy_ascii (by decide) hmem
  have hbyte : x = 0x2F := UInt8.toNat_inj.mp hslash
  rw [hbyte] at hx
  exact name.no_slash hx

mutual

theorem GitTree.noSlash : (tree : GitTree) → tree.Names NoSlash
  | .empty => trivial
  | .entry name e rest => ⟨name.text_noSlash, e.noSlash, rest.noSlash⟩

theorem GitEntry.noSlash : (e : GitEntry) → e.Names NoSlash
  | .dir _ tree => tree.noSlash
  | .blob _ _ _ => trivial

end

variable [Platform Id]

/-! ### Rows -/

def TreeRow.Names (P : String → Prop) (row : TreeRow Id) : Prop :=
  ∀ e ∈ row.canonical.tree.entries, P e.name

/-- A store whose rows list only such names. -/
def TreesNamed (P : String → Prop) (trees : List (TreeRow Id)) : Prop :=
  ∀ row ∈ trees, row.Names P

theorem TreesNamed.insert {trees rows : List (TreeRow Id)} (h : TreesNamed P trees)
    (hrows : TreesNamed P rows) : TreesNamed P (treesInsert trees rows) := by
  intro row hrow
  rcases mem_treesInsert hrow with hrow | hrow
  · exact h row hrow
  · exact hrows row hrow

theorem treeRowOf_names {entries : List (TreeEntry Id)} {row : TreeRow Id}
    (h : treeRowOf entries = .ok row) (hentries : ∀ e ∈ entries, P e.name) : row.Names P := by
  obtain ⟨-, hcanonical, -⟩ := treeRowOf_ok h
  intro e he
  rw [hcanonical] at he
  obtain ⟨e', he', rfl⟩ := List.mem_map.mp he
  exact hentries e' he'

mutual

theorem collectEntries_names : (node : MemNode Id) → node.Names P →
    ∀ entries size rows, node.collectEntries = .ok (entries, size, rows) →
      (∀ e ∈ entries, P e.name) ∧ TreesNamed P rows
  | .empty => by
      intro _ entries size rows h
      simp only [MemNode.collectEntries, Except.ok.injEq, Prod.mk.injEq] at h
      obtain ⟨rfl, -, rfl⟩ := h
      exact ⟨by simp, by simp [TreesNamed]⟩
  | .entry name e rest => by
      intro hnode entries size rows h
      rw [MemNode.collectEntries, Lib.bind_eq_ok] at h
      obtain ⟨⟨first, firstSize, firstRows⟩, hfirst, h⟩ := h
      rw [Lib.bind_eq_ok] at h
      obtain ⟨⟨others, total, otherRows⟩, hothers, h⟩ := h
      simp only [pure, Except.pure, Except.ok.injEq, Prod.mk.injEq] at h
      obtain ⟨rfl, -, rfl⟩ := h
      obtain ⟨hname, hrows⟩ := collectEntry_names e hnode.2.1 _ _ _ _ hfirst
      obtain ⟨hnames, hrows'⟩ := collectEntries_names rest hnode.2.2 _ _ _ hothers
      refine ⟨fun x hx => ?_, fun row hrow => ?_⟩
      · rcases List.mem_cons.mp hx with rfl | hx
        · exact hname ▸ hnode.1
        · exact hnames x hx
      · rcases List.mem_append.mp hrow with hrow | hrow
        · exact hrows row hrow
        · exact hrows' row hrow

theorem collectEntry_names : (e : MemEntry Id) → e.Names P →
    ∀ name entry size rows, e.collectEntry name = .ok (entry, size, rows) →
      entry.name = name ∧ TreesNamed P rows
  | .file blob fileSize exec => by
      intro _ name entry size rows h
      simp only [MemEntry.collectEntry, Except.ok.injEq, Prod.mk.injEq] at h
      obtain ⟨rfl, -, rfl⟩ := h
      exact ⟨rfl, by simp [TreesNamed]⟩
  | .dir child => by
      intro hchild name entry size rows h
      rw [MemEntry.collectEntry, Lib.bind_eq_ok] at h
      obtain ⟨⟨entries, total, childRows⟩, hentries, h⟩ := h
      rw [Lib.bind_eq_ok] at h
      obtain ⟨row, hrow, h⟩ := h
      simp only [pure, Except.pure, Except.ok.injEq, Prod.mk.injEq] at h
      obtain ⟨rfl, -, rfl⟩ := h
      obtain ⟨hnames, hrows⟩ := collectEntries_names child hchild _ _ _ hentries
      refine ⟨rfl, fun r hr => ?_⟩
      rcases List.mem_append.mp hr with hr | hr
      · exact hrows r hr
      · rw [List.mem_singleton.mp hr]
        exact treeRowOf_names hrow hnames

end

theorem collect_names {node : MemNode Id} (hnode : node.Names P) {root : Id} {size : ℕ}
    {rows : List (TreeRow Id)} (h : node.collect = .ok (root, size, rows)) : TreesNamed P rows := by
  rw [MemNode.collect, Lib.bind_eq_ok] at h
  obtain ⟨⟨entries, total, below⟩, hentries, h⟩ := h
  rw [Lib.bind_eq_ok] at h
  obtain ⟨row, hrow, h⟩ := h
  simp only [pure, Except.pure, Except.ok.injEq, Prod.mk.injEq] at h
  obtain ⟨rfl, -, rfl⟩ := h
  obtain ⟨hnames, hrows⟩ := collectEntries_names node hnode _ _ _ hentries
  intro r hr
  rcases List.mem_append.mp hr with hr | hr
  · exact hrows r hr
  · rw [List.mem_singleton.mp hr]
    exact treeRowOf_names hrow hnames

omit [Platform Id] in
theorem loadEntries_names {load : Id → Except (DeriveError Id) (MemNode Id)}
    (hload : ∀ id node, load id = .ok node → node.Names P) {es : List (TreeEntry Id)}
    (hes : ∀ e ∈ es, P e.name) {node : MemNode Id} (h : loadEntries load es = .ok node) :
    node.Names P := by
  induction es generalizing node with
  | nil =>
      obtain rfl := Except.ok.inj h
      trivial
  | cons e es ih =>
      obtain ⟨entry, rest, hentry, hrest, rfl⟩ := loadEntries_cons.mp h
      have hentryNames : entry.Names P := by
        cases hentry with
        | file => trivial
        | dir child _ hchild => exact hload _ _ hchild
      exact ⟨hes e List.mem_cons_self, hentryNames,
        ih (fun x hx => hes x (List.mem_cons_of_mem _ hx)) hrest⟩

/-- What such a store loads has such names. -/
theorem TreesNamed.load {trees : List (TreeRow Id)} (htrees : TreesNamed P trees)
    {root : Option Id} {node : MemNode Id} (h : MemNode.load trees root = .ok node) :
    node.Names P := by
  have hnode : ∀ k id node, loadNode trees k id = .ok node → node.Names P := by
    intro k
    induction k with
    | zero => exact fun id node h => absurd h (by simp [loadNode])
    | succ k ih =>
        intro id node h
        obtain ⟨row, hget, hload⟩ := loadNode_succ.mp h
        refine loadEntries_names ih (fun e he => ?_) hload
        exact htrees row (List.mem_of_find?_eq_some hget) e (TreeRow.mem_entries.mp he)
  cases root with
  | none =>
      cases h
      trivial
  | some id => exact hnode _ _ _ h

/-! ### Creates -/

theorem Persisted.named {cx cx' : RepoCx Id} {p : PreparedCreate Id} (w : Persisted cx p cx')
    (hp : ∀ c ∈ p.canonical.cs.changes, ∀ n ∈ c.path.components, P n)
    (htrees : TreesNamed P cx.trees) : TreesNamed P cx'.trees := by
  have hnode := MemNode.apply_names w.apply_ok (htrees.load w.parent_ok) hp
  obtain ⟨-, hcx⟩ := changesetInsertRows_some w.insert_ok
  rw [hcx]
  exact htrees.insert (collect_names hnode w.collect_ok)

/-! ### Imports -/

mutual

theorem buildTreeInto_names {nowNs : ℕ} : (tree : GitTree) → tree.Names P →
    ∀ (cx : RepoCx Id) node built cx', buildTreeInto nowNs cx node tree = .ok (built, cx') →
      node.Names P → built.Names P
  | .empty => by
      intro _ cx node built cx' h hnode
      simp only [buildTreeInto, Except.ok.injEq, Prod.mk.injEq] at h
      rw [← h.1]
      exact hnode
  | .entry name e rest => by
      intro htree cx node built cx' h hnode
      rw [buildTreeInto, Lib.bind_eq_ok] at h
      obtain ⟨⟨entry, mid⟩, hentry, h⟩ := h
      have hfirst := buildTreeEntry_names e htree.2.1 _ _ _ hentry
      exact buildTreeInto_names rest htree.2.2 _ _ _ _ h (MemNode.insert_names htree.1 hfirst node hnode)

theorem buildTreeEntry_names {nowNs : ℕ} : (e : GitEntry) → e.Names P →
    ∀ (cx : RepoCx Id) built cx', buildTreeEntry nowNs cx e = .ok (built, cx') → built.Names P
  | .dir _ tree => by
      intro he cx built cx' h
      rw [buildTreeEntry, Lib.bind_eq_ok] at h
      obtain ⟨⟨node, mid⟩, hnode, h⟩ := h
      simp only [pure, Except.pure, Except.ok.injEq, Prod.mk.injEq] at h
      rw [← h.1]
      exact buildTreeInto_names tree he _ _ _ _ hnode trivial
  | .blob mode oid content => by
      intro _ cx built cx' h
      rw [buildTreeEntry] at h
      split_ifs at h with hmode
      rw [Lib.bind_eq_ok] at h
      obtain ⟨mid, -, h⟩ := h
      simp only [pure, Except.pure, Except.ok.injEq, Prod.mk.injEq] at h
      rw [← h.1]
      exact trivial

end

theorem Imported.named {nowNs : ℕ} {cx cx' : RepoCx Id} {ps : List (PreparedCommit Id)}
    (h : Imported nowNs cx ps cx') (hps : ∀ p ∈ ps, p.gitTree.Names P)
    (htrees : TreesNamed P cx.trees) : TreesNamed P cx'.trees := by
  induction h with
  | nil => exact htrees
  | cons hcommit _ ih =>
      obtain ⟨c⟩ := hcommit
      refine ih (fun p hp => hps p (List.mem_cons_of_mem _ hp)) ?_
      have hnode := buildTreeInto_names _ (hps _ List.mem_cons_self) _ _ _ _ c.build_ok trivial
      obtain ⟨cas, cat, hstored⟩ := c.puts.frame
      obtain ⟨-, hcx⟩ := changesetInsertRows_some c.insert_ok
      rw [hcx, hstored]
      exact htrees.insert (collect_names hnode c.collect_ok)

omit [Platform Id] in
/-- The commits of a batch are commits of the source. -/
theorem collectLoop_mem {git : GitRepo} {mapped : GitOid → Bool} {fuel : ℕ}
    {stack : List GitFrame} {visited : List GitOid} {out batch : List GitCommit}
    (h : collectLoop git mapped fuel stack visited out = some batch)
    (hstack : ∀ c, .emit c ∈ stack → c ∈ git) (hout : out ⊆ git) : batch ⊆ git := by
  induction fuel, stack, visited, out using collectLoop.induct git mapped with
  | case1 => simp [collectLoop] at h
  | case2 =>
      simp only [collectLoop, Option.some.injEq] at h
      exact h ▸ hout
  | case3 fuel c stack visited out ih =>
      simp only [collectLoop] at h
      refine ih h (fun c' hc' => hstack c' (List.mem_cons_of_mem _ hc')) fun c' hc' => ?_
      rcases List.mem_append.mp hc' with hc' | hc'
      · exact hout hc'
      · rw [List.mem_singleton.mp hc']
        exact hstack c List.mem_cons_self
  | case4 fuel oid stack visited out hseen ih =>
      simp only [collectLoop, hseen, if_true] at h
      exact ih h (fun c' hc' => hstack c' (List.mem_cons_of_mem _ hc')) hout
  | case5 fuel oid stack visited out hseen hfind =>
      simp only [collectLoop, hseen, if_false, hfind, reduceCtorEq] at h
  | case6 fuel oid stack visited out hseen c hfind ih =>
      simp only [collectLoop, hseen, if_false, hfind] at h
      refine ih h (fun c' hc' => ?_) hout
      rcases List.mem_append.mp hc' with hc' | hc'
      · simp at hc'
      · rcases List.mem_cons.mp hc' with hc' | hc'
        · cases hc'
          exact List.mem_of_find?_eq_some hfind
        · exact hstack c' (List.mem_cons_of_mem _ hc')

/-- What the scan prepared is a commit of the source. -/
theorem Scanned.commit {cx : RepoCx Id} {git : GitRepo} {opts : ImportOptions} {head : GitOid}
    (sc : Scanned cx git opts head) : ∀ p ∈ sc.scan.importable, ∃ c ∈ git, p.gitTree = c.tree := by
  have hbatch : sc.batch ⊆ git :=
    collectLoop_mem sc.batch_ok (fun c hc => by simp at hc) fun c hc => absurd hc List.not_mem_nil
  suffices hfold : ∀ (batch : List GitCommit) (st st' : ScanState Id), batch ⊆ git →
      batch.foldlM (scanCommit git opts cx.id cx.db) st = .ok st' →
      (∀ p ∈ st.importable, ∃ c ∈ git, p.gitTree = c.tree) →
      ∀ p ∈ st'.importable, ∃ c ∈ git, p.gitTree = c.tree from
    hfold sc.batch _ _ hbatch sc.scan_ok fun p hp => absurd hp List.not_mem_nil
  intro batch
  induction batch with
  | nil =>
      intro st st' _ h hst
      cases h
      exact hst
  | cons c batch ih =>
      intro st st' hsub h hst
      rw [List.foldlM_cons, Lib.bind_eq_ok] at h
      obtain ⟨mid, hmid, h⟩ := h
      refine ih mid st' (fun x hx => hsub (List.mem_cons_of_mem _ hx)) h ?_
      rcases scanCommit_ok hmid with ⟨hsame, -⟩ | ⟨p, ⟨ready⟩, hadded, -⟩
      · rw [hsame]
        exact hst
      · rw [hadded]
        intro q hq
        rcases List.mem_append.mp hq with hq | hq
        · exact hst q hq
        · rw [List.mem_singleton.mp hq]
          exact ⟨c, hsub List.mem_cons_self, ready.tree_eq⟩

theorem RunBackend.named {nowNs : ℕ} {cx cx' : RepoCx Id} {git : GitRepo}
    {opts : ImportOptions} {head : GitOid} (h : RunBackend nowNs cx git opts head cx')
    (hgit : ∀ c ∈ git, c.tree.Names P) (htrees : TreesNamed P cx.trees) :
    TreesNamed P cx'.trees := by
  have hscan : ∀ sc : Scanned cx git opts head, ∀ p ∈ sc.scan.importable, p.gitTree.Names P := by
    intro sc p hp
    obtain ⟨c, hc, htree⟩ := sc.commit p hp
    exact htree ▸ hgit c hc
  cases h with
  | untouched => exact htrees
  | commits sc k mid cx' himported hputs =>
      obtain ⟨cas, cat, rfl⟩ := hputs.frame
      exact himported.named (fun p hp => hscan sc p (List.mem_of_mem_take hp)) htrees
  | grafted sc last main db himported hgraft => exact himported.named (hscan sc) htrees

/-! ### Lands -/

/-- A merged tree has the names of the trees it was merged of. -/
theorem NodeMerge.names {cmd : LandCommand Id} {st : LandState Id} {node : Id}
    (m : NodeMerge cmd st node) (htrees : TreesNamed P st.cx.trees) (htip : st.tipTree.Names P) :
    m.input.tree.Names P ∧ m.merged.node.Names P := by
  obtain ⟨-, htree, hparent⟩ := landInput_ok m.input_ok
  have hnode : m.input.tree.Names P := htrees.load (loadTree_ok.mp htree)
  have hbase : m.input.parentTree.Names P := by
    rcases hparent with ⟨-, hempty⟩ | ⟨p, pRow, -, -, hload⟩
    · rw [hempty]
      exact trivial
    · exact htrees.load (loadTree_ok.mp hload)
  refine ⟨hnode, names_of_files m.merged_full.2 fun p hp => ?_⟩
  have hmerge := (m.threeWay fun _ _ h => h).1 p
  generalize hresult : filesAt m.merged.node p = result at hmerge hp
  by_contra hbad
  have hno : ∀ {node : MemNode Id}, node.Names P → filesAt node p = none := by
    intro node hnamed
    by_contra hsome
    exact hbad (filesAt_names hnamed (Option.isSome_iff_ne_none.mpr hsome))
  rw [hno hnode, hno hbase, hno htip] at hmerge
  cases hmerge with
  | agreed => cases hp
  | theirs hot => exact hot rfl
  | ours hot => exact hot rfl
  | computed bytes inputs hc => exact hc.diverged.1 rfl

theorem NodeStep.named {cmd : LandCommand Id} {st st' : LandState Id} {node : Id}
    {o : NodeOutcome} (h : NodeStep cmd st node o st') (htrees : TreesNamed P st.cx.trees)
    (htip : st.tipTree.Names P) : TreesNamed P st'.cx.trees ∧ st'.tipTree.Names P := by
  cases h with
  | dropped => exact ⟨htrees, htip⟩
  | adopted m canonical hencode hgate hid stored hput =>
      obtain ⟨cas, cat, written, rfl⟩ := putBlobs_ok hput
      exact ⟨htrees, (m.names htrees htip).1⟩
  | inserted m canonical hencode hgate hid stored st' hput hinsert =>
      obtain ⟨cas, cat, written, rfl⟩ := putBlobs_ok hput
      obtain ⟨rootTreeId, size, trees, cx, hcollect, hrow, rfl⟩ := landInsert_ok hinsert
      obtain ⟨-, rfl⟩ := changesetInsertRows_some hrow
      have hmerged := (m.names htrees htip).2
      exact ⟨htrees.insert (collect_names hmerged hcollect), hmerged⟩

theorem LandTrace.named {cmd : LandCommand Id} {st st' : LandState Id} {chain : List Id}
    {os : List NodeOutcome} (h : LandTrace cmd st chain os st') (htrees : TreesNamed P st.cx.trees)
    (htip : st.tipTree.Names P) : TreesNamed P st'.cx.trees ∧ st'.tipTree.Names P := by
  induction h with
  | nil => exact ⟨htrees, htip⟩
  | cons hnode _ ih => exact ih (hnode.named htrees htip).1 (hnode.named htrees htip).2

theorem LandSuccess.named {cx cx' : RepoCx Id} {cmd : LandCommand Id} {done : LandDone Id}
    (h : LandSuccess cx cmd done cx') (htrees : TreesNamed P cx.trees) :
    TreesNamed P cx'.trees := by
  cases h with
  | replay => exact htrees
  | contained => exact htrees
  | rebased f hout b =>
      obtain ⟨os, hos⟩ := landTrace_exists b.loop
      have htip : b.start.tipTree.Names P := htrees.load (loadTree_ok.mp b.tree_ok)
      exact (hos.named htrees htip).1

/-! ### Snapshots -/

/-- A validated listing has valid names. -/
theorem Tree.validate_component {t : Tree Id} (h : t.validate = .ok ()) :
    ∀ e ∈ t.entries, validateComponent (Platform.nfc Id) e.name = .ok () := by
  have hnames : ∀ names : List String, validateNames (Platform.nfc Id) names = .ok () →
      ∀ n ∈ names, validateComponent (Platform.nfc Id) n = .ok () := by
    intro names
    induction names with
    | nil => exact fun _ n hn => absurd hn List.not_mem_nil
    | cons name names ih =>
        intro h n hn
        rw [validateNames] at h
        split at h
        · cases h
        next hname =>
          rcases List.mem_cons.mp hn with rfl | hn
          · exact hname
          · exact ih h n hn
  unfold Tree.validate at h
  simp only at h
  split at h
  · cases h
  next hvalid => exact fun e he => hnames _ hvalid e.name (List.mem_map_of_mem he)

theorem snapshotPrepare_named
    (hvalid : ∀ name, validateComponent (Platform.nfc Id) name = .ok () → P name)
    {req : SnapshotRequest Id} {p : PreparedSnapshot Id} (h : snapshotPrepare req = .ok p) :
    TreesNamed P p.trees := by
  obtain ⟨hdecode, -⟩ := snapshotPrepare_ok h
  obtain ⟨rows, hrows, hrow⟩ := decodeTrees_ok hdecode
  rw [hrows]
  have hnil : TreesNamed P ([] : List (TreeRow Id)) := fun _ hmem => absurd hmem List.not_mem_nil
  refine hnil.insert fun row hmem e he => hvalid e.name ?_
  exact Tree.validate_component (hrow row hmem).2 e he

/-! ### The system -/

namespace Server

/-- The names a request brings. -/
def EventNames (P : String → Prop) : Event Id → Prop
  | .createLookup _ req => ∀ c ∈ req.changes, ∀ n ∈ c.path.components, P n
  | .importGit _ git _ _ _ => ∀ c ∈ git, c.tree.Names P
  | _ => True

/-- The paths of a request are texts split at their slashes. -/
def SplitPaths : Event Id → Prop
  | .createLookup _ req => ∀ c ∈ req.changes, ∀ n ∈ c.path.components, NoSlash n
  | _ => True

omit [Platform Id] in
theorem SplitPaths.names {e : Event Id} (h : SplitPaths e) : EventNames NoSlash e := by
  cases e with
  | createLookup r req => exact h
  | importGit r git opts head stop => exact fun c _ => c.tree.noSlash
  | _ => trivial

/-- Every stored name, and every one a create in flight will store. -/
structure Named (P : String → Prop) (s : Server Id) : Prop where
  trees : ∀ f, TreesNamed P (s.trees f)
  creates : ∀ r p, (r, p) ∈ s.creates → ∀ c ∈ p.canonical.cs.changes, ∀ n ∈ c.path.components, P n

theorem trees_put_named {s : Server Id} {r : RepoId} {cx : RepoCx Id}
    (hcx : TreesNamed P cx.trees) (htrees : ∀ f, TreesNamed P (s.trees f)) (f : RepoId) :
    TreesNamed P ((s.put r cx).trees f) := by
  rw [trees_put]
  split_ifs with hf
  · exact hcx
  · exact htrees f

theorem Named.step (hvalid : ∀ name, validateComponent (Platform.nfc Id) name = .ok () → P name)
    {s s' : Server Id} {e : Event Id} (hinv : Named P s) (he : EventNames P e)
    (h : s.step e = some s') : Named P s' := by
  refine ⟨fun f => ?_, fun r p hp => ?_⟩
  · have hcx : ∀ r, TreesNamed P (s.cx r).trees := fun r => hinv.trees (s.file r)
    cases step_cases h with
    | createWrite i r p cx hpending hpersist =>
        obtain ⟨w⟩ := hpersist
        have hwritten := w.named (hinv.creates r p (List.mem_of_getElem? hpending)) (hcx r)
        exact trees_put_named (s := { s with creates := s.creates.eraseIdx i }) hwritten hinv.trees f
    | land r cmd done cx hland => exact trees_put_named (hland.named (hcx r)) hinv.trees f
    | landAborted r cmd cas cat => exact trees_put_named (hcx r) hinv.trees f
    | importGit r git opts head stop cx hquiescent hrun =>
        exact trees_put_named (hrun.named he (hcx r)) hinv.trees f
    | casRef r req done db => exact trees_put_named (hcx r) hinv.trees f
    | putBytes r bytes cas => exact trees_put_named (hcx r) hinv.trees f
    | recorded r bytes => exact trees_put_named (hcx r) hinv.trees f
    | recordTombstoned r bytes => exact trees_put_named (hcx r) hinv.trees f
    | mark r id kind => exact trees_put_named (hcx r) hinv.trees f
    | snapshotPost r req p done cx hprepare hwritten =>
        refine trees_put_named ?_ hinv.trees f
        cases hwritten with
        | existing => exact hcx r
        | created => exact (hcx r).insert (snapshotPrepare_named hvalid hprepare)
    | sgcStep i pass =>
        exact fun row hrow => hinv.trees f row ((sgcPassStep_trees s pass f).subset hrow)
    | gcStep pass => exact fun row hrow => hinv.trees f row ((gcPassStep_trees s pass f).subset hrow)
    | _ => exact hinv.trees f
  · rcases step_creates h hp with hold | ⟨req, metas, rfl, -, hprepare⟩
    · exact hinv.creates r p hold
    · rw [(createPrepare_ok hprepare).1]
      exact he

/-- In every run whose requests bring such names, nothing else is stored. -/
theorem named_of_reach (hvalid : ∀ name, validateComponent (Platform.nfc Id) name = .ok () → P name)
    {ok : Server Id → Event Id → Prop} (hok : ∀ s e, ok s e → EventNames P e) {s : Server Id}
    (h : Reach ok s) : Named P s := by
  refine Lib.Reach.invariant ?_ (fun s e s' _ hinv hse he => hinv.step hvalid (hok s e hse) he) h
  rintro s ⟨layout, repos, nowNs, graceNs, -, rfl⟩
  exact ⟨fun f row hrow => absurd hrow List.not_mem_nil,
    fun r p hp => absurd hp List.not_mem_nil⟩

end Server

end

end Naatre
