import Naatre.Client.CheckoutEffect

/-!
Where the verbs write and delete. The links a verb discards go one after the
other, each before what is below it; the files it discards are ones the listings
show; an indexed path it deletes is taken as it stands, and the reserved names
are compared without the file system's rule. `touched_contained` says under
which conditions a run stays in the checkout and out of `.naatre` and `.git`.
-/

namespace Naatre.Client

open Lib LinkTree

section

variable {κ : Type} [DecidableEq κ] {rule : NameRule κ} {root : List κ} {fs : CheckoutTree κ}
  {Id : Type} [Platform Id]

/-! ### What a run discards -/

/-- What the directory listings show is in the file system, and no listing names
`.` or `..`. -/
structure Shows (rule : NameRule κ) (root : List κ) (fs : CheckoutTree κ) (disk : Disk) : Prop where
  plain : ∀ raw stat content, disk.HasFile raw stat content → Plain raw.components
  dirs : ∀ raw stat content, disk.HasFile raw stat content →
    ∀ names, names ≠ [] → names <+: raw.dirs → fs.node (root ++ rule.keys names) = some .dir

/-- A file read so far has this raw path and is at this normalized one. -/
def ReadAs (done : List DiskFile) (norm raw : Path) : Prop :=
  ∃ f ∈ done, f.norm = norm ∧ f.raw = raw

/-- Every raw path the report keeps is one of a file read. -/
structure RawsRead (done : List DiskFile) (s : Classifying) : Prop where
  untracked : ∀ e ∈ s.report.rawOfUntracked, ReadAs done e.1 e.2
  folds : ∀ e ∈ s.report.folds, ∀ raw ∈ e.2, ReadAs done e.1 raw
  first : ∀ e ∈ s.firstTracked, ReadAs done e.1 e.2

theorem mem_pushFold {folds : List (Path × List Path)} {norm first raw : Path}
    {e : Path × List Path} (he : e ∈ pushFold folds norm first raw) {p : Path} (hp : p ∈ e.2) :
    (∃ e' ∈ folds, e'.1 = e.1 ∧ p ∈ e'.2) ∨ (e.1 = norm ∧ (p = first ∨ p = raw)) := by
  rw [pushFold] at he
  split at he
  next =>
    obtain ⟨e', he', rfl⟩ := List.mem_map.mp he
    split at hp
    next hnorm =>
      rw [if_pos hnorm]
      rcases List.mem_append.mp hp with hp | hp
      · exact .inl ⟨e', he', rfl, hp⟩
      · exact .inr ⟨hnorm, .inr (List.mem_singleton.mp hp)⟩
    next hnorm =>
      rw [if_neg hnorm]
      exact .inl ⟨e', he', rfl, hp⟩
  next =>
    rcases List.mem_append.mp he with he | he
    · exact .inl ⟨e, he, rfl, hp⟩
    · cases List.mem_singleton.mp he
      rcases List.mem_cons.mp hp with rfl | hp
      · exact .inr ⟨rfl, .inl rfl⟩
      · exact .inr ⟨rfl, .inr (List.mem_singleton.mp hp)⟩

theorem mem_of_lookup {l : List (Path × Path)} {k v : Path} (h : l.lookup k = some v) :
    (k, v) ∈ l := by
  obtain ⟨front, back, rfl, -⟩ := List.lookup_eq_some_iff.mp h
  exact List.mem_append_right _ List.mem_cons_self

theorem RawsRead.next {index : Index Id} {done : List DiskFile} {s : Classifying}
    (h : RawsRead done s) (file : DiskFile) :
    RawsRead (done ++ [file]) (classifyFile index s file) := by
  have hold : ∀ {norm raw}, ReadAs done norm raw → ReadAs (done ++ [file]) norm raw :=
    fun ⟨f, hf, hread⟩ => ⟨f, List.mem_append_left _ hf, hread⟩
  have hnew : ReadAs (done ++ [file]) file.norm file.raw :=
    ⟨file, List.mem_append_right _ (List.mem_singleton.mpr rfl), rfl, rfl⟩
  have hfolds : ∀ {first}, ReadAs (done ++ [file]) file.norm first →
      ∀ e ∈ pushFold s.report.folds file.norm first file.raw, ∀ raw ∈ e.2,
        ReadAs (done ++ [file]) e.1 raw := by
    intro first hfirst e he raw hraw
    rcases mem_pushFold he hraw with ⟨e', he', hnorm, hraw⟩ | ⟨hnorm, hraw⟩
    · exact hnorm ▸ hold (h.folds e' he' raw hraw)
    · rw [hnorm]
      rcases hraw with rfl | rfl
      · exact hfirst
      · exact hnew
  have hcons : ∀ {l : List (Path × Path)}, (∀ e ∈ l, ReadAs done e.1 e.2) →
      ∀ e ∈ (file.norm, file.raw) :: l, ReadAs (done ++ [file]) e.1 e.2 := by
    intro l hl e he
    rcases List.mem_cons.mp he with rfl | he
    · exact hnew
    · exact hold (hl e he)
  have hsame : RawsRead (done ++ [file]) s :=
    ⟨fun e he => hold (h.untracked e he), fun e he raw hraw => hold (h.folds e he raw hraw),
      fun e he => hold (h.first e he)⟩
  unfold classifyFile
  cases index.get file.norm with
  | some row =>
      have hmet : ReadAs (done ++ [file]) file.norm
          ((s.firstTracked.lookup file.norm).getD file.raw) := by
        cases hfirst : s.firstTracked.lookup file.norm with
        | none => exact hnew
        | some first => exact hold (h.first _ (mem_of_lookup hfirst))
      dsimp only
      split_ifs
      · exact ⟨hsame.untracked, hfolds hmet, hsame.first⟩
      · exact ⟨hsame.untracked, hfolds hmet, hsame.first⟩
      · exact ⟨hsame.untracked, hsame.folds, hcons h.first⟩
      · exact ⟨hsame.untracked, hsame.folds, hcons h.first⟩
      · exact ⟨hsame.untracked, hsame.folds, hcons h.first⟩
  | none =>
      dsimp only
      cases hfirst : s.report.rawOfUntracked.lookup file.norm with
      | some first =>
          exact ⟨hsame.untracked, hfolds (hold (h.untracked _ (mem_of_lookup hfirst))), hsame.first⟩
      | none => exact ⟨hcons h.untracked, hsame.folds, hsame.first⟩

theorem rawsRead (index : Index Id) (files : List DiskFile) :
    RawsRead files (files.foldl (classifyFile index) {}) := by
  induction files using List.reverseRecOn with
  | nil => constructor <;> simp
  | append_singleton done file ih =>
      rw [List.foldl_append]
      exact ih.next file

/-- What stands in the way of a verb are files of the disk, at one of its
paths. -/
theorem mem_colliders {disk : Disk} {index : Index Id} {paths : List Path} {raw : Path}
    (h : raw ∈ colliders (classify disk index) paths) :
    normalized (Platform.nfc Id) raw ∈ paths ∧
      ∃ stat content, disk.HasFile raw stat content := by
  have hreads := rawsRead index (scanDisk (Platform.nfc Id) disk)
  have hread : ∃ norm ∈ paths, ReadAs (scanDisk (Platform.nfc Id) disk) norm raw := by
    rw [colliders, Path.mem_sortPaths, List.mem_append] at h
    rcases h with h | h
    · obtain ⟨e, he, hraw⟩ := List.mem_flatMap.mp h
      obtain ⟨he, hpaths⟩ := List.mem_filter.mp he
      exact ⟨e.1, of_decide_eq_true hpaths, hreads.folds e he raw hraw⟩
    · obtain ⟨p, hp, hraw⟩ := List.mem_filterMap.mp h
      exact ⟨p, of_decide_eq_true (List.mem_filter.mp hp).2,
        hreads.untracked _ (mem_of_lookup hraw)⟩
  obtain ⟨norm, hnorm, f, hf, rfl, rfl⟩ := hread
  obtain ⟨hf, hfile⟩ := mem_scanDisk.mp hf
  exact ⟨hf ▸ hnorm, f.stat, f.content, hfile⟩

/-- A file the disk lists is reached through directories. -/
theorem Shows.free {disk : Disk} (h : Shows rule root fs disk) {raw : Path} {stat : Metadata}
    {content : Bytes} (hfile : disk.HasFile raw stat content) :
    fs.LinkFree root (rule.keys raw.dirs) := by
  intro pre hne hpre hlink
  obtain ⟨names, hnames, rfl⟩ := List.prefix_map_iff.mp hpre
  have hdir := h.dirs raw stat content hfile names (fun hnil => hne (by rw [hnil]; rfl)) hnames
  obtain ⟨absolute, target, hlink⟩ := hlink
  rw [show List.map rule.key names = rule.keys names from rfl, hdir] at hlink
  cases hlink

/-- Links that stand in the way, each before what is below it. -/
structure LinkList (rule : NameRule κ) (root : List κ) (fs : CheckoutTree κ) (links : List Path) :
    Prop where
  plain : ∀ q ∈ links, Plain q.components
  name : ∀ q ∈ links, Unreserved rule q.components
  sorted : links.Pairwise fun q r => q.text ≤ r.text
  /-- a link above one of them is one of them -/
  above : ∀ q ∈ links, ∀ r : Path, r.components <+: q.dirs →
    IsLink (fs.node (root ++ rule.keys r.components)) → r ∈ links

/-- The links go one after the other: what is above one is gone when its turn
comes. -/
theorem LinkList.safe {links : List Path} (h : LinkList rule root fs links)
    (hcur : Keeps root fs fs) :
    RunSafe rule root fs (links.map (@FileOp.remove Id)) := by
  suffices hall : ∀ done rest, links = done ++ rest → ∀ fs', Keeps root fs fs' →
      (∀ q ∈ done, ¬IsLink (fs'.node (root ++ rule.keys q.components))) →
        RunSafe rule root fs' (rest.map (@FileOp.remove Id)) from
    hall [] links rfl fs hcur fun _ hq => absurd hq List.not_mem_nil
  intro done rest
  induction rest generalizing done with
  | nil => exact fun _ _ _ _ => trivial
  | cons q rest ih =>
      intro hsplit fs' hkeeps hdone
      have hq : q ∈ links := hsplit ▸ List.mem_append_right _ List.mem_cons_self
      have hsafe : DeleteSafe rule root fs' q := by
        refine ⟨h.plain q hq, h.name q hq, fun pre hne hpre hlink => ?_⟩
        obtain ⟨names, hnames, rfl⟩ := List.prefix_map_iff.mp hpre
        have hnames' : names ≠ [] := fun hnil => hne (by rw [hnil]; rfl)
        obtain ⟨r, rfl⟩ : ∃ r : Path, names = r.components :=
          ⟨⟨names.dropLast, names.getLast hnames'⟩, (List.dropLast_append_getLast hnames').symm⟩
        have hr := h.above q hq r hnames (hkeeps.links _ hlink)
        have hlt := Path.text_lt_of_below hnames
        -- it comes before in the list, so it went
        rw [hsplit] at hr
        rcases List.mem_append.mp hr with hr | hr
        · exact hdone r hr hlink
        · have hsorted := h.sorted
          rw [hsplit, List.pairwise_append] at hsorted
          rcases List.mem_cons.mp hr with rfl | hr
          · exact lt_irrefl _ hlt
          · exact absurd (List.rel_of_pairwise_cons hsorted.2.1 hr) (not_le.mpr hlt)
      refine ⟨hsafe, fun fs'' touched hrun => ?_⟩
      obtain ⟨-, hnext, hgone⟩ := removeAndPrune_contained hkeeps.self hsafe
      have heq : removeAndPrune rule root fs' q = ((fs'', touched), none) := by
        simp only [FileOp.run, Prod.mk.injEq, Option.isNone_iff_eq_none] at hrun
        exact Prod.ext hrun.1 hrun.2
      rw [heq] at hnext hgone
      refine ih (done ++ [q]) (by rw [hsplit, List.append_assoc, List.singleton_append]) fs''
        (hkeeps.trans hnext) fun r hr hlink => ?_
      rcases List.mem_append.mp hr with hr | hr
      · exact hdone r hr (hnext.links _ hlink)
      · cases List.mem_singleton.mp hr
        exact hgone rfl hlink

omit [Platform Id] in
/-- The links the gate names. -/
theorem linkList_gate {report : Report} {files : List (TreeFile Id)} (hcur : Keeps root fs fs)
    (hvalid : ∀ file ∈ files, Plain file.path.components)
    (hname : ∀ q ∈ (gate rule root fs report files).symlinks, Unreserved rule q.components) :
    LinkList rule root fs (gate rule root fs report files).symlinks := by
  have hmem : ∀ q, q ∈ (gate rule root fs report files).symlinks ↔ ∃ file ∈ files,
      q.components <+: file.path.components ∧
        fs.lstatLink rule.links root (rule.hops q.dirs) (rule.hop q.leaf) = true := by
    intro q
    simp only [gate, Path.mem_sortPaths, List.mem_flatMap, List.mem_map, mem_symlinkComponents]
    constructor
    · rintro ⟨_, ⟨file, hfile, rfl⟩, hq⟩
      exact ⟨file, hfile, hq⟩
    · rintro ⟨file, hfile, hq⟩
      exact ⟨_, ⟨file, hfile, rfl⟩, hq⟩
  have hplain : ∀ q ∈ (gate rule root fs report files).symlinks, Plain q.components := by
    intro q hq
    obtain ⟨file, hfile, hpre, -⟩ := (hmem q).mp hq
    exact fun c hc => hvalid file hfile c (hpre.subset hc)
  refine ⟨hplain, hname, ?_, fun q hq r hr hlink => ?_⟩
  · refine (Path.sortPaths_pairwise _).imp fun hbefore => ?_
    simpa [Path.before] using hbefore
  · obtain ⟨file, hfile, hpre, -⟩ := (hmem q).mp hq
    have hrq : r.components <+: q.components := hr.trans (List.prefix_append _ _)
    have hrplain : Plain r.components := fun c hc => hplain q hq c (hrq.subset hc)
    refine (hmem r).mpr ⟨file, hfile, hrq.trans hpre, ?_⟩
    obtain ⟨absolute, target, hnode⟩ := hlink
    rw [Path.components, keys_snoc, ← List.append_assoc] at hnode
    have hdirs : fs.resolve rule.links root ((rule.keys r.dirs).map .into) =
        .ok (root ++ rule.keys r.dirs) := by
      refine resolve_dirs fun pre _ hpre => ?_
      obtain ⟨rest, hrest⟩ := hpre
      have hne : rest ++ [rule.key r.leaf] ≠ [] := by simp
      refine hcur.rooted.above hne ?_
      rw [← hrest] at hnode
      simp only [List.append_assoc] at hnode ⊢
      rw [hnode]
      exact Option.some_ne_none _
    rw [hops_plain (show Plain r.dirs from Plain.left hrplain),
      hop_plain (hrplain r.leaf (by simp [Path.components])), lstatLink, hdirs]
    simp only [hnode]

/-! ### The files of a walk -/

/-- Every file of a walk is one of the grammar. -/
def WalkValid (nfc : String → String) (s : WalkState Id) : Prop :=
  ∀ f ∈ s.walk.files, f.path.validate nfc = .ok ()

omit [Platform Id] in
theorem visitEntry_valid {nfc : String → String} {prefixes : List Path} {dir : List String}
    {s s' : WalkState Id} {e : TreeEntryOut Id} (hs : WalkValid nfc s)
    (h : visitEntry nfc prefixes dir s e = .ok s') : WalkValid nfc s' := by
  unfold visitEntry at h
  dsimp only at h
  split at h
  · split at h
    · split_ifs at h
      · cases h
        exact hs
      · cases h
        exact hs
    · split_ifs at h
      · split at h
        · cases h
        next hvalid =>
          cases h
          intro f hf
          rcases List.mem_append.mp hf with hf | hf
          · exact hs f hf
          · cases List.mem_singleton.mp hf
            exact hvalid
      · cases h
        exact hs
  · split at h
    · cases h
    · split_ifs at h
      · cases h
        exact hs
      · cases h
        exact hs

theorem walkLoop_valid {nfc : String → String} {list : Id → Option (List (TreeEntryOut Id))}
    {prefixes : List Path} {fuel : ℕ} {s s' : WalkState Id} (hs : WalkValid nfc s)
    (h : walkLoop nfc list prefixes fuel s = some (.ok s')) : WalkValid nfc s' := by
  induction fuel generalizing s with
  | zero =>
      rw [walkLoop] at h
      split_ifs at h
      cases h
      exact hs
  | succ fuel ih =>
      rw [walkLoop] at h
      split_ifs at h
      · cases h
        exact hs
      · split at h
        next => cases h
        next m hstep =>
          refine ih ?_ h
          unfold walkStep at hstep
          split at hstep
          next =>
            cases hstep
            exact hs
          next =>
            split_ifs at hstep
            · cases hstep
              exact hs
            · split at hstep
              next => cases hstep
              next entries _ =>
                exact Lib.foldlM_invariant hstep hs fun _ _ _ _ hs he => visitEntry_valid hs he

theorem walked_valid {walk : TreeWalk Id} (h : Walked (.ok walk)) :
    ∀ f ∈ walk.files, f.path.validate (Platform.nfc Id) = .ok () := by
  obtain ⟨list, fuel, treeRoot, prefixes, requirePrefixes, h⟩ := h
  unfold walkTreeInner at h
  split at h
  next => cases h
  next =>
    split at h
    next => cases h
    next => cases h
    next s hloop =>
      have hvalid : WalkValid (Platform.nfc Id) s :=
        walkLoop_valid (fun _ hf => absurd hf List.not_mem_nil) hloop
      rw [Option.some.injEq] at h
      unfold checkPrefixes at h
      split at h
      next => cases h
      next =>
        cases h
        exact hvalid

/-! ### Containment -/

/-- What the steps of a run must not meet: a path whose first name the file system
takes for `.naatre` or `.git`, and a delete with a link above it when the run
comes to it. The discards look for links themselves. -/
structure Plan.StepsSafe (rule : NameRule κ) (root : List κ) (fs : CheckoutTree κ) (plan : Plan Id) :
    Prop where
  discards : ∀ rel ∈ plan.discards, Unreserved rule rel.components
  rest : ∀ fs', runAll rule root fs (plan.discards.map (@FileOp.remove Id)) = some fs' →
    RunSafe rule root fs' (plan.files.map (fun f => .materialize f.1 f.2) ++
      plan.deletes.map (@FileOp.remove Id))

/-- The same of the checkout as the run finds it. -/
structure Plan.Safe (rule : NameRule κ) (root : List κ) (fs : CheckoutTree κ) (plan : Plan Id) :
    Prop where
  names : ∀ rel ∈ plan.discards ++ plan.files.map (fun f => f.1.path) ++ plan.deletes,
    Unreserved rule rel.components
  plain : ∀ rel ∈ plan.deletes, Plain rel.components
  links : ∀ rel ∈ plan.deletes, fs.LinkFree root (rule.keys rel.dirs)

/-- The discards of the colliders. -/
theorem colliders_safe {disk : Disk} {index : Index Id} {paths : List Path}
    (hdisk : Shows rule root fs disk)
    (hname : ∀ q ∈ colliders (classify disk index) paths, Unreserved rule q.components) :
    ∀ q ∈ colliders (classify disk index) paths, DeleteSafe rule root fs q := by
  intro q hq
  obtain ⟨-, stat, content, hfile⟩ := mem_colliders hq
  exact ⟨hdisk.plain q stat content hfile, hname q hq, hdisk.free hfile⟩

/-- The discards of the gate. -/
theorem gate_safe {disk : Disk} {index : Index Id} {files : List (TreeFile Id)}
    (hcur : Keeps root fs fs) (hdisk : Shows rule root fs disk)
    (hvalid : ∀ file ∈ files, file.path.validate (Platform.nfc Id) = .ok ())
    (hname : ∀ q ∈ (gate rule root fs (classify disk index) files).symlinks ++
      (gate rule root fs (classify disk index) files).colliding, Unreserved rule q.components) :
    RunSafe rule root fs (((gate rule root fs (classify disk index) files).symlinks ++
      (gate rule root fs (classify disk index) files).colliding).map (@FileOp.remove Id)) := by
  rw [List.map_append]
  have hlinks := linkList_gate hcur (fun file hfile => validate_plain (hvalid file hfile))
    fun q hq => hname q (List.mem_append_left _ hq)
  refine (hlinks.safe hcur).append hcur fun fs' hkeeps => runSafe_of_forall hkeeps.self ?_
  intro op hop
  obtain ⟨q, hq, rfl⟩ := List.mem_map.mp hop
  exact (colliders_safe hdisk (fun q hq => hname q (List.mem_append_right _ hq)) q hq).mono hkeeps

/-- What is safe at the start is safe after the discards. -/
theorem Plan.Safe.steps {plan : Plan Id} (hcur : Keeps root fs fs) (h : plan.Safe rule root fs)
    (hdiscards : RunSafe rule root fs (plan.discards.map (@FileOp.remove Id))) :
    plan.StepsSafe rule root fs := by
  refine ⟨fun rel hrel => h.names rel (List.mem_append_left _ (List.mem_append_left _ hrel)),
    fun fs' hrun => ?_⟩
  have hkeeps := runAll_keeps hcur hdiscards hrun
  refine runSafe_of_forall hkeeps.self fun op hop => ?_
  rcases List.mem_append.mp hop with hop | hop
  · obtain ⟨f, hf, rfl⟩ := List.mem_map.mp hop
    exact h.names _ (List.mem_append_left _ (List.mem_append_right _ (List.mem_map_of_mem hf)))
  · obtain ⟨rel, hrel, rfl⟩ := List.mem_map.mp hop
    exact ⟨h.plain rel hrel, h.names rel (List.mem_append_right _ hrel),
      (h.links rel hrel).mono hkeeps.links⟩

/-- The discards of a verb stay in the checkout where their names do. -/
theorem Verb.discards_safe {disk : Disk} {sparse : List Path} {index : Index Id} {verb : Verb Id}
    {plan : Plan Id} (hcur : Keeps root fs fs) (hdisk : Shows rule root fs disk)
    (hplan : verb.plan rule root fs disk sparse index = .ok plan)
    (hname : ∀ q ∈ plan.discards, Unreserved rule q.components) :
    RunSafe rule root fs (plan.discards.map (@FileOp.remove Id)) := by
  cases verb with
  | sync answers force =>
      simp only [Verb.plan, syncPlan] at hplan
      split_ifs at hplan
      split at hplan
      next => cases hplan
      split at hplan
      next => cases hplan
      split at hplan
      next => cases hplan
      cases hplan
      refine runSafe_of_forall hcur fun op hop => ?_
      obtain ⟨q, hq, rfl⟩ := List.mem_map.mp hop
      exact colliders_safe hdisk hname q hq
  | restore answers force =>
      simp only [Verb.plan, restorePlan] at hplan
      split at hplan
      next => cases hplan
      next walk hwalk =>
        split_ifs at hplan
        split at hplan
        next => cases hplan
        cases hplan
        exact gate_safe hcur hdisk (walked_valid (hwalk ▸ answers.walked)) hname
  | sparseAdd added answers force =>
      simp only [Verb.plan, sparseAddPlan] at hplan
      split at hplan
      next => cases hplan
      split_ifs at hplan
      · cases hplan
        trivial
      · split at hplan
        next => cases hplan
        next walk hwalk =>
          split_ifs at hplan
          split at hplan
          next => cases hplan
          cases hplan
          exact gate_safe hcur hdisk (walked_valid (hwalk ▸ answers.walked)) hname
  | sparseRemove removed =>
      simp only [Verb.plan, sparseRemovePlan] at hplan
      split_ifs at hplan
      cases hplan
      trivial

theorem Verb.run_safe {disk : Disk} {sparse : List Path} {index : Index Id} {verb : Verb Id}
    {plan : Plan Id} (hcur : Keeps root fs fs) (hdisk : Shows rule root fs disk)
    (hplan : verb.plan rule root fs disk sparse index = .ok plan)
    (h : plan.StepsSafe rule root fs) : RunSafe rule root fs plan.ops := by
  rw [Plan.ops, List.append_assoc]
  exact (Verb.discards_safe hcur hdisk hplan h.discards).append_run h.rest

/-! ### What a verb is asked to do -/

/-- The paths a verb is about and what is to become of each, in the words of a
path-level diff. -/
def Verb.diff (sparse : List Path) (index : Index Id) : Verb Id → List (Path × String)
  | .sync answers _ => answers.incoming.filter fun e => underSparse sparse e.1
  | .restore answers _ | .sparseAdd _ answers _ =>
      match answers.walk with
      | .ok walk => walk.files.map fun file => (file.path, "add")
      | .error _ => []
  | .sparseRemove removed =>
      ((index.rows.map Prod.fst).filter (underPrefix removed ·)).map (·, "del")

def Verb.writes (sparse : List Path) (index : Index Id) (verb : Verb Id) : List Path :=
  ((verb.diff sparse index).filter (·.2 ≠ "del")).map Prod.fst

/-- The tracked paths among the deletes. -/
def Verb.deletes (sparse : List Path) (index : Index Id) (verb : Verb Id) : List Path :=
  (((verb.diff sparse index).filter (·.2 = "del")).map Prod.fst).filter
    (· ∈ index.rows.map Prod.fst ++ verb.writes sparse index)

/-- A question to the checkout as a verb finds it, whatever the verb's gate says:
no path to write or to delete, and no file on the disk at a path of the diff, has
a first name that the file system takes for `.naatre` or `.git`; and no path to
delete has a link above it. -/
structure Verb.Safe (rule : NameRule κ) (root : List κ) (fs : CheckoutTree κ) (disk : Disk)
    (sparse : List Path) (index : Index Id) (verb : Verb Id) : Prop where
  writes : ∀ rel ∈ verb.writes sparse index, Unreserved rule rel.components
  found : ∀ raw stat content, disk.HasFile raw stat content →
    normalized (Platform.nfc Id) raw ∈ (verb.diff sparse index).map Prod.fst →
      Unreserved rule raw.components
  deletes : ∀ rel ∈ verb.deletes sparse index,
    Plain rel.components ∧ Unreserved rule rel.components ∧
      fs.LinkFree root (rule.keys rel.dirs)

omit [Platform Id] in
theorem mem_syncAdds {sparse : List Path} {walk : TreeWalk Id} {incoming : List (Path × String)}
    {adds : List (TreeFile Id)} (h : syncAdds sparse walk incoming = .ok adds) :
    ∀ file ∈ adds, ∃ e ∈ incoming, underSparse sparse e.1 = true ∧ e.2 ≠ "del" ∧
      e.1 = file.path := by
  induction incoming generalizing adds with
  | nil =>
      cases h
      exact fun _ hf => absurd hf List.not_mem_nil
  | cons e incoming ih =>
      obtain ⟨path, kind⟩ := e
      have hlater : ∀ {adds : List (TreeFile Id)}, syncAdds sparse walk incoming = .ok adds →
          ∀ file ∈ adds, ∃ e ∈ (path, kind) :: incoming, underSparse sparse e.1 = true ∧
            e.2 ≠ "del" ∧ e.1 = file.path := fun h file hf => by
        obtain ⟨e, he, hadd⟩ := ih h file hf
        exact ⟨e, List.mem_cons_of_mem _ he, hadd⟩
      rw [syncAdds] at h
      split_ifs at h with hskip
      · exact hlater h
      · exact hlater h
      · split at h
        next => cases h
        next file hfind =>
          split at h
          next => cases h
          next files hfiles =>
            cases h
            rw [Bool.or_eq_true, not_or, Bool.not_eq_true', Bool.not_eq_false,
              decide_eq_true_iff] at hskip
            have hpath := List.find?_some hfind
            intro f hf
            rcases List.mem_cons.mp hf with rfl | hf
            · exact ⟨_, List.mem_cons_self, hskip.1, hskip.2, (of_decide_eq_true hpath).symm⟩
            · exact hlater hfiles f hf

theorem mem_syncDeletes {sparse : List Path} {incoming : List (Path × String)} :
    ∀ {tracked : List Path}, ∀ rel ∈ syncDeletes sparse tracked incoming,
      rel ∈ tracked ∧ underSparse sparse rel = true ∧ (rel, "del") ∈ incoming := by
  induction incoming with
  | nil => exact fun _ h => absurd h List.not_mem_nil
  | cons e incoming ih =>
      obtain ⟨path, kind⟩ := e
      intro tracked rel h
      rw [syncDeletes] at h
      split_ifs at h with hdel
      · obtain ⟨rfl, hsparse, htracked⟩ := hdel
        rcases List.mem_cons.mp h with rfl | h
        · exact ⟨htracked, hsparse, List.mem_cons_self⟩
        · obtain ⟨hin, hrest⟩ := ih rel h
          exact ⟨(List.mem_filter.mp hin).1, hrest.1, List.mem_cons_of_mem _ hrest.2⟩
      · obtain ⟨hin, hrest⟩ := ih rel h
        exact ⟨hin, hrest.1, List.mem_cons_of_mem _ hrest.2⟩

omit [Platform Id] in
/-- The links the gate names stand at the head of a path to write. -/
theorem gate_names {report : Report} {files : List (TreeFile Id)}
    (h : ∀ file ∈ files, Unreserved rule file.path.components) :
    ∀ q ∈ (gate rule root fs report files).symlinks, Unreserved rule q.components := by
  intro q hq
  simp only [gate, Path.mem_sortPaths, List.mem_flatMap, List.mem_map,
    mem_symlinkComponents] at hq
  obtain ⟨_, ⟨file, hfile, rfl⟩, hpre, -⟩ := hq
  have hhead : file.path.components.headD "" = q.components.headD "" := by
    obtain ⟨rest, hrest⟩ := hpre
    have hne : q.components ≠ [] := by simp [Path.components]
    obtain ⟨c, cs, hcons⟩ := List.exists_cons_of_ne_nil hne
    rw [← hrest, hcons]
    rfl
  have hsafe := h file hfile
  rw [Unreserved, hhead] at hsafe
  exact hsafe

omit [Platform Id] in
/-- The plan behind the gate. -/
theorem gated_safe {report : Report} {files : List (TreeFile Id)}
    {written : List (TreeFile Id × Bytes)}
    (hname : ∀ file ∈ files, Unreserved rule file.path.components)
    (hfound : ∀ q ∈ (gate rule root fs report files).colliding, Unreserved rule q.components)
    (hwritten : ∀ w ∈ written, w.1 ∈ files) :
    Plan.Safe rule root fs
      { discards := (gate rule root fs report files).symlinks ++
          (gate rule root fs report files).colliding
        files := written
        deletes := [] } := by
  refine ⟨fun rel hrel => ?_, fun _ h => absurd h List.not_mem_nil,
    fun _ h => absurd h List.not_mem_nil⟩
  rw [List.append_nil] at hrel
  rcases List.mem_append.mp hrel with hrel | hrel
  · rcases List.mem_append.mp hrel with hrel | hrel
    · exact gate_names hname rel hrel
    · exact hfound rel hrel
  · obtain ⟨w, hw, rfl⟩ := List.mem_map.mp hrel
    exact hname _ (hwritten w hw)

/-- A verb that meets none of this makes a safe plan. -/
theorem Verb.Safe.plan {disk : Disk} {sparse : List Path} {index : Index Id} {verb : Verb Id}
    {plan : Plan Id} (h : verb.Safe rule root fs disk sparse index)
    (hplan : verb.plan rule root fs disk sparse index = .ok plan) :
    plan.Safe rule root fs := by
  have hcolliders : ∀ paths : List Path,
      (∀ p ∈ paths, p ∈ (verb.diff sparse index).map Prod.fst) →
      ∀ q ∈ colliders (classify disk index) paths, Unreserved rule q.components := by
    intro paths hpaths q hq
    obtain ⟨hnorm, stat, content, hfile⟩ := mem_colliders hq
    exact h.found q stat content hfile (hpaths _ hnorm)
  -- the verbs that write what they walked
  have hwalked : ∀ files : List (TreeFile Id),
      verb.diff sparse index = files.map (fun file => (file.path, "add")) →
      (∀ file ∈ files, Unreserved rule file.path.components) ∧
        ∀ p ∈ files.map (·.path), p ∈ (verb.diff sparse index).map Prod.fst := by
    intro files hdiff
    refine ⟨fun file hfile => h.writes _ ?_, fun p hp => ?_⟩
    · rw [Verb.writes, hdiff]
      exact List.mem_map.mpr ⟨_, List.mem_filter.mpr ⟨List.mem_map_of_mem hfile, rfl⟩, rfl⟩
    · rw [hdiff, List.map_map]
      exact hp
  cases verb with
  | sync answers force =>
      simp only [Verb.plan, syncPlan] at hplan
      split_ifs at hplan
      split at hplan
      next => cases hplan
      split at hplan
      next => cases hplan
      next adds hadds =>
        split at hplan
        next => cases hplan
        cases hplan
        have hwritten : ∀ file ∈ adds,
            file.path ∈ Verb.writes sparse index (.sync answers force) := by
          intro file hfile
          obtain ⟨e, he, hsparse, hkind, hpath⟩ := mem_syncAdds hadds file hfile
          exact hpath ▸ List.mem_map_of_mem (List.mem_filter.mpr
            ⟨List.mem_filter.mpr ⟨he, hsparse⟩, decide_eq_true hkind⟩)
        have hdeleted : ∀ rel ∈ syncDeletes sparse
            (index.rows.map Prod.fst ++ adds.map (·.path)) answers.incoming,
            rel ∈ Verb.deletes sparse index (.sync answers force) := by
          intro rel hrel
          obtain ⟨htracked, hsparse, hin⟩ := mem_syncDeletes rel hrel
          refine List.mem_filter.mpr ⟨List.mem_map.mpr ⟨(rel, "del"), List.mem_filter.mpr
            ⟨List.mem_filter.mpr ⟨hin, hsparse⟩, rfl⟩, rfl⟩, decide_eq_true ?_⟩
          rcases List.mem_append.mp htracked with hrow | hadd
          · exact List.mem_append_left _ hrow
          · obtain ⟨file, hfile, rfl⟩ := List.mem_map.mp hadd
            exact List.mem_append_right _ (hwritten file hfile)
        refine ⟨fun rel hrel => ?_, fun rel hrel => (h.deletes rel (hdeleted rel hrel)).1,
          fun rel hrel => (h.deletes rel (hdeleted rel hrel)).2.2⟩
        rcases List.mem_append.mp hrel with hrel | hrel
        · rcases List.mem_append.mp hrel with hrel | hrel
          · refine hcolliders _ (fun p hp => ?_) rel hrel
            obtain ⟨hp, hsparse⟩ := List.mem_filter.mp hp
            obtain ⟨e, he, rfl⟩ := List.mem_map.mp hp
            exact List.mem_map_of_mem (List.mem_filter.mpr ⟨he, hsparse⟩)
          · simp only [List.map_map, List.mem_map, Function.comp_apply] at hrel
            obtain ⟨file, hfile, rfl⟩ := hrel
            exact h.writes _ (hwritten file hfile)
        · exact (h.deletes rel (hdeleted rel hrel)).2.1
  | restore answers force =>
      simp only [Verb.plan, restorePlan] at hplan
      split at hplan
      next => cases hplan
      next walk hwalk =>
        split_ifs at hplan
        split at hplan
        next => cases hplan
        cases hplan
        obtain ⟨hfiles, hpaths⟩ := hwalked walk.files (by simp [Verb.diff, hwalk])
        exact gated_safe hfiles (hcolliders _ hpaths) (by simp)
  | sparseAdd added answers force =>
      simp only [Verb.plan, sparseAddPlan] at hplan
      split at hplan
      next => cases hplan
      split_ifs at hplan
      · cases hplan
        exact ⟨by simp, by simp, by simp⟩
      · split at hplan
        next => cases hplan
        next walk hwalk =>
          split_ifs at hplan
          split at hplan
          next => cases hplan
          cases hplan
          obtain ⟨hfiles, hpaths⟩ := hwalked walk.files (by simp [Verb.diff, hwalk])
          refine gated_safe hfiles (hcolliders _ hpaths) fun w hw => ?_
          obtain ⟨file, hfile, rfl⟩ := List.mem_map.mp hw
          exact (List.mem_filter.mp hfile).1
  | sparseRemove removed =>
      simp only [Verb.plan, sparseRemovePlan] at hplan
      split_ifs at hplan
      cases hplan
      have hdeleted : ∀ rel ∈ (index.rows.map Prod.fst).filter (underPrefix removed ·),
          rel ∈ Verb.deletes sparse index (.sparseRemove removed) := by
        intro rel hrel
        refine List.mem_filter.mpr ⟨List.mem_map.mpr ⟨(rel, "del"), List.mem_filter.mpr
          ⟨List.mem_map_of_mem hrel, rfl⟩, rfl⟩, decide_eq_true ?_⟩
        exact List.mem_append_left _ (List.mem_filter.mp hrel).1
      exact ⟨fun rel hrel => (h.deletes rel (hdeleted rel hrel)).2.1,
        fun rel hrel => (h.deletes rel (hdeleted rel hrel)).1,
        fun rel hrel => (h.deletes rel (hdeleted rel hrel)).2.2⟩

theorem Verb.Safe.steps {disk : Disk} {sparse : List Path} {index : Index Id} {verb : Verb Id}
    (hcur : Keeps root fs fs) (hdisk : Shows rule root fs disk)
    (h : verb.Safe rule root fs disk sparse index) {plan : Plan Id}
    (hplan : verb.plan rule root fs disk sparse index = .ok plan) :
    plan.StepsSafe rule root fs := by
  have hsafe := h.plan hplan
  refine hsafe.steps hcur (Verb.discards_safe hcur hdisk hplan fun q hq => ?_)
  exact hsafe.names q (List.mem_append_left _ (List.mem_append_left _ hq))

/-- A run past the verb's gate none of whose steps meets this touches nothing
outside the checkout and nothing in its two reserved directories, wherever it
ends. -/
theorem touched_contained {disk : Disk} (hrooted : fs.Rooted) (hroot : fs.node root = some .dir)
    (hdisk : Shows rule root fs disk) (sparse : List Path) (index : Index Id) (verb : Verb Id)
    (hsafe : ∀ plan, verb.plan rule root fs disk sparse index = .ok plan →
      plan.StepsSafe rule root fs) (done : ℕ) :
    ∀ p ∈ verb.touched rule root fs disk sparse index done, Contained rule root p := by
  intro p hp
  unfold Verb.touched at hp
  split at hp
  next => cases hp
  next plan hplan =>
    have hcur : Keeps root fs fs := .refl hrooted hroot
    exact runOps_contained hcur
      ((Verb.run_safe hcur hdisk hplan (hsafe plan hplan)).take done) p hp
end

/-! ### Two working copies -/

section

/-- Names as they are written, and Linux's bound on links. -/
def exactNames : NameRule String := ⟨fun name => name, 40⟩

/-- Names without their case. -/
def caselessNames : NameRule String := ⟨fun name => name.map Char.toLower, 40⟩

/-- The row of an empty file. -/
def emptyRow (p : Path) : Path × Row PlainId :=
  (p, .fromStat p (Platform.blobId []) ⟨0, ⟨0, 0⟩, ⟨0, 0⟩, 0, 0o644⟩)

/-- `sparse remove d` of a checkout in `wt` that holds `d/x`: the file goes, and
then its directory. -/
theorem touched_contained_sparse_remove :
    let fs : CheckoutTree String :=
      [(["wt"], .dir), (["wt", "d"], .dir), (["wt", "d", "x"], .file ([], false))]
    let disk : Disk :=
      ⟨.entry (.ok "d") (.dir (.entry (.ok "x") (.file ⟨0, ⟨0, 0⟩, ⟨0, 0⟩, 0, 0o644⟩ []) .empty))
        .empty, by simp [DiskDir.wellNamed, DiskNode.wellNamed, DiskDir.names, OsName.legal]⟩
    let index : Index PlainId := ⟨[emptyRow ⟨["d"], "x"⟩], by simp⟩
    let touched := (Verb.sparseRemove ⟨[], "d"⟩).touched exactNames ["wt"] fs disk
      [⟨[], "d"⟩, ⟨[], "e"⟩] index 1
    touched = [["wt", "d", "x"], ["wt", "d"]] ∧
      ∀ p ∈ touched, Contained exactNames ["wt"] p := by
  intro fs disk index touched
  have hlisted : ∀ raw stat content, disk.HasFile raw stat content → raw = ⟨["d"], "x"⟩ := by
    rintro raw stat content ⟨hfile, -⟩
    cases hfile with
    | inside h =>
        cases h with
        | here => rfl
        | later h => cases h
    | later h => cases h
  have hrooted : fs.Rooted := rooted_of_entries (by decide)
  have hshows : Shows exactNames ["wt"] fs disk := by
    constructor
    · rintro raw stat content hfile
      rw [hlisted raw stat content hfile]
      simp [Plain, Path.components]
    · rintro raw stat content hfile names hne hpre
      rw [hlisted raw stat content hfile] at hpre
      rcases List.prefix_cons_iff.mp hpre with rfl | ⟨rest, rfl, hrest⟩
      · exact absurd rfl hne
      · rw [List.prefix_nil.mp hrest]
        rfl
  have hsafe : (Verb.sparseRemove ⟨[], "d"⟩).Safe exactNames ["wt"] fs disk
      [⟨[], "d"⟩, ⟨[], "e"⟩] index := by
    refine ⟨by decide +kernel, ?_, fun rel hrel => ?_⟩
    · rintro raw stat content hfile -
      rw [hlisted raw stat content hfile]
      decide
    · have hdeletes : Verb.deletes [⟨[], "d"⟩, ⟨[], "e"⟩] index (.sparseRemove ⟨[], "d"⟩) =
          [⟨["d"], "x"⟩] := by decide +kernel
      rw [hdeletes, List.mem_singleton] at hrel
      subst hrel
      refine ⟨by simp [Plain, Path.components], by decide, fun pre hne hpre => ?_⟩
      rcases List.prefix_cons_iff.mp hpre with rfl | ⟨rest, rfl, hrest⟩
      · exact absurd rfl hne
      · rw [List.prefix_nil.mp hrest]
        rintro ⟨absolute, target, hlink⟩
        cases hlink
  exact ⟨by decide +kernel, touched_contained hrooted rfl hshows _ _ _
    (fun plan hplan => hsafe.steps (.refl hrooted rfl) hshows hplan) 1⟩

/-- A tracked `d/x` whose directory the user made a link out of the checkout:
narrowing the sparse list deletes the file it leads to. -/
theorem sparse_remove_through_link :
    let fs : CheckoutTree String :=
      [(["wt"], .dir), (["wt", "d"], .link true [.into "out"]), (["out"], .dir),
        (["out", "x"], .file ([0x61], false))]
    let disk : Disk := ⟨.entry (.ok "d") .other .empty,
      by simp [DiskDir.wellNamed, DiskNode.wellNamed, DiskDir.names, OsName.legal]⟩
    let index : Index PlainId := ⟨[emptyRow ⟨["d"], "x"⟩], by simp⟩
    fs.Rooted ∧ fs.node ["wt"] = some .dir ∧ Shows exactNames ["wt"] fs disk ∧
      ¬∀ done, ∀ p ∈ (Verb.sparseRemove ⟨[], "d"⟩).touched exactNames ["wt"] fs disk
        [⟨[], "d"⟩, ⟨[], "e"⟩] index done, Contained exactNames ["wt"] p := by
  intro fs disk index
  have hempty : ∀ raw stat content, ¬disk.HasFile raw stat content := by
    rintro raw stat content ⟨hfile, -⟩
    cases hfile with
    | later h => cases h
  refine ⟨rooted_of_entries (by decide), rfl,
    ⟨fun raw stat content h => absurd h (hempty raw stat content),
      fun raw stat content h => absurd h (hempty raw stat content)⟩, fun hall => ?_⟩
  have hp : (["out", "x"] : List String) ∈ (Verb.sparseRemove ⟨[], "d"⟩).touched exactNames ["wt"]
      fs disk [⟨[], "d"⟩, ⟨[], "e"⟩] index 1 := by decide +kernel
  obtain ⟨k, rest, hp, -⟩ := hall 1 _ hp
  simp at hp

/-- A tree path that differs from `.git` in case is written into it where the
file system does not tell the two apart. -/
example : ∃ answers : TreeAnswers PlainId,
    (Verb.restore answers false).touched caselessNames ["wt"]
      [(["wt"], .dir), (["wt", ".git"], .dir)]
      ⟨.entry (.ok ".git") (.dir .empty) .empty,
        by simp [DiskDir.wellNamed, DiskNode.wellNamed, DiskDir.names, OsName.legal]⟩
      [] ⟨[], by simp⟩ 1 = [["wt", ".git", "config"]] := by
  let list : PlainId → Option (List (TreeEntryOut PlainId)) := fun id =>
    if id = [0] then some [⟨".GIT", .dir, some [1], none, none, false⟩]
    else some [⟨"config", .file, some (Platform.blobId []), some 0, none, false⟩]
  refine ⟨⟨.ok ⟨[⟨⟨[".GIT"], "config"⟩, Platform.blobId [], 0, false⟩], []⟩,
    ⟨list, 3, [0], [], false, ?_⟩, fun _ => .ok fun _ => []⟩, ?_⟩
  · decide +kernel
  · decide +kernel

end

end Naatre.Client
