import Naatre.Client.CheckoutEffect
import Naatre.Client.Containment
import Naatre.Client.FetchWalk
import Naatre.Server.DiffExact

/-!
What a sync leaves in the checkout. The client takes the paths from the diff,
the blobs from its walk of the target's tree, and the bytes only where they hash
to the blob. So a sync that goes through leaves the target's file at each path
of the cone that differs, unless the walk found it masked, and every other file
as it was, whatever the server did between its answers.
-/

namespace Naatre.Client

open Lib LinkTree

section

variable {Id : Type} [Platform Id]

/-! ### The walk finds files of the tree only -/

/-- What a walk of the tree with these files may have found so far: files of it,
masked paths of it, and directories whose files are files of it. -/
structure WalkSound (trees : List (TreeRow Id)) (tombstoned : Id → Prop) (tree : Files Id)
    (s : WalkState Id) : Prop where
  files : ∀ f ∈ s.walk.files, ∃ g ∈ tree, g.1 = f.path ∧ g.2.key = (f.blob, f.exec)
  masked : ∀ p ∈ s.walk.redacted, ∃ g ∈ tree, g.1 = p ∧ tombstoned g.2.blob
  queue : ∀ item ∈ s.queue, ∃ node, MemNode.load trees (some item.2) = .ok node ∧
    ∀ g ∈ node.flattenInto item.1, g ∈ tree

variable {trees : List (TreeRow Id)} {tombstoned : Id → Prop} {tree : Files Id}

theorem visitEntry_sound {nfc : String → String} {prefixes : List Path} {dir : List String}
    {s s' : WalkState Id} {e : TreeEntry Id} {entry : MemEntry Id} {rows : List (TreeRow Id)}
    {redacted : List Id} (hred : ∀ id ∈ redacted, tombstoned id)
    (hentry : EntryLoaded (loadNode trees trees.length) e entry)
    (hbelow : ∀ g ∈ entry.flattenEntry dir e.name, g ∈ tree)
    (hs : WalkSound trees tombstoned tree s)
    (h : visitEntry nfc prefixes dir s (maskTreeEntry rows redacted e) = .ok s') :
    WalkSound trees tombstoned tree s' := by
  unfold visitEntry maskTreeEntry at h
  dsimp only at h
  cases hentry with
  | file hkind =>
      have hfile := hbelow (⟨dir, e.name⟩, ⟨e.object, e.size, e.exec⟩) (List.mem_singleton.mpr rfl)
      rw [hkind] at h
      dsimp only at h
      by_cases hmasked : e.object ∈ redacted
      · rw [decide_eq_true hmasked, if_pos rfl] at h
        dsimp only at h
        split_ifs at h
        · cases h
          refine ⟨hs.files, fun p hp => ?_, hs.queue⟩
          rcases List.mem_append.mp hp with hp | hp
          · exact hs.masked p hp
          · cases List.mem_singleton.mp hp
            exact ⟨_, hfile, rfl, hred _ hmasked⟩
        · cases h
          exact hs
      · simp only [decide_eq_false hmasked, Bool.false_eq_true, if_false] at h
        by_cases hunder : underSparse prefixes ⟨dir, e.name⟩ = true
        · rw [if_pos hunder] at h
          split at h
          next => cases h
          next =>
            cases h
            refine ⟨fun f hf => ?_, hs.masked, hs.queue⟩
            rcases List.mem_append.mp hf with hf | hf
            · exact hs.files f hf
            · cases List.mem_singleton.mp hf
              exact ⟨_, hfile, rfl, rfl⟩
        · rw [if_neg hunder] at h
          cases h
          exact hs
  | dir child hkind hchild =>
      rw [hkind] at h
      dsimp only at h
      split at h
      next => cases h
      next oid hoid =>
        split_ifs at hoid
        cases hoid
        split_ifs at h
        · cases h
          refine ⟨hs.files, hs.masked, fun item hitem => ?_⟩
          rcases List.mem_append.mp hitem with hitem | hitem
          · exact hs.queue item hitem
          · cases List.mem_singleton.mp hitem
            exact ⟨child, hchild, hbelow⟩
        · cases h
          exact hs

omit [Platform Id] in
/-- The entries of a loaded directory, each loaded, with its files among the
directory's. -/
theorem entries_loaded {load : Id → Except (DeriveError Id) (MemNode Id)}
    {entries : List (TreeEntry Id)} {node : MemNode Id} {dir : List String}
    (h : loadEntries load entries = .ok node) :
    ∀ e ∈ entries, ∃ entry, EntryLoaded load e entry ∧
      ∀ g ∈ entry.flattenEntry dir e.name, g ∈ node.flattenInto dir := by
  induction entries generalizing node with
  | nil => exact fun _ he => absurd he List.not_mem_nil
  | cons first entries ih =>
      obtain ⟨entry, rest, hentry, hrest, rfl⟩ := loadEntries_cons.mp h
      intro e he
      rw [MemNode.flattenInto]
      rcases List.mem_cons.mp he with rfl | he
      · exact ⟨entry, hentry, fun g hg => List.mem_append_left _ hg⟩
      · obtain ⟨found, hfound, hsub⟩ := ih hrest e he
        exact ⟨found, hfound, fun g hg => List.mem_append_right _ (hsub g hg)⟩

/-- A listing shows a stored directory with some blobs masked, or nothing. -/
def ListsTree (trees : List (TreeRow Id)) (tombstoned : Id → Prop)
    (list : Id → Option (List (TreeEntryOut Id))) : Prop :=
  ∀ id row entries, treeGet trees id = some row → list id = some entries →
    entries = [] ∨ ∃ rows redacted, (∀ id ∈ redacted, tombstoned id) ∧
      entries = row.entries.map (maskTreeEntry rows redacted)

theorem walkStep_sound {nfc : String → String} {list : Id → Option (List (TreeEntryOut Id))}
    {prefixes : List Path} {s s' : WalkState Id} (hlist : ListsTree trees tombstoned list)
    (hs : WalkSound trees tombstoned tree s) (h : walkStep nfc list prefixes s = .ok s') :
    WalkSound trees tombstoned tree s' := by
  unfold walkStep at h
  split at h
  next =>
    cases h
    exact hs
  next dir id rest hqueue =>
    obtain ⟨node, hload, hbelow⟩ := hs.queue (dir, id) (by rw [hqueue]; exact List.mem_cons_self)
    have hrest : ∀ item ∈ rest, ∃ node, MemNode.load trees (some item.2) = .ok node ∧
        ∀ g ∈ node.flattenInto item.1, g ∈ tree := fun item hitem =>
      hs.queue item (by rw [hqueue]; exact List.mem_cons_of_mem _ hitem)
    split_ifs at h
    · cases h
      exact ⟨hs.files, hs.masked, hrest⟩
    · split at h
      next => cases h
      next entries hentries =>
        obtain ⟨row, hrow, hloaded⟩ := load_row hload
        rcases hlist id row entries hrow hentries with rfl | ⟨rows, redacted, hred, rfl⟩
        · cases h
          exact ⟨hs.files, hs.masked, hrest⟩
        · refine Lib.foldlM_invariant h ⟨hs.files, hs.masked, hrest⟩ fun m x hx m' hm hvisit => ?_
          obtain ⟨e, he, rfl⟩ := List.mem_map.mp hx
          obtain ⟨entry, hentry, hsub⟩ := @entries_loaded _ _ _ _ dir hloaded e he
          exact visitEntry_sound hred hentry (fun g hg => hbelow g (hsub g hg)) hm hvisit

theorem walkLoop_sound {nfc : String → String} {list : Id → Option (List (TreeEntryOut Id))}
    {prefixes : List Path} {fuel : ℕ} {s s' : WalkState Id}
    (hlist : ListsTree trees tombstoned list) (hs : WalkSound trees tombstoned tree s)
    (h : walkLoop nfc list prefixes fuel s = some (.ok s')) :
    WalkSound trees tombstoned tree s' := by
  induction fuel generalizing s with
  | zero =>
      rw [walkLoop] at h
      split_ifs at h
      cases h
      exact hs
  | succ fuel ih =>
      rw [walkLoop] at h
      split_ifs at h
      · cases h
        exact hs
      · split at h
        next => cases h
        next m hstep => exact ih (walkStep_sound hlist hs hstep) h

/-- What a walk returns are files of the tree, and masked paths of it. -/
theorem walkTree_sound {nfc : String → String} {list : Id → Option (List (TreeEntryOut Id))}
    {prefixes : List Path} {required : Bool} {fuel : ℕ} {root : Id} {node : MemNode Id}
    {walk : TreeWalk Id} (hlist : ListsTree trees tombstoned list)
    (hload : MemNode.load trees (some root) = .ok node)
    (h : walkTreeInner nfc list fuel root prefixes required = some (.ok walk)) :
    (∀ f ∈ walk.files, ∃ g ∈ flattenFiles node, g.1 = f.path ∧ g.2.key = (f.blob, f.exec)) ∧
      ∀ p ∈ walk.redacted, ∃ g ∈ flattenFiles node, g.1 = p ∧ tombstoned g.2.blob := by
  unfold walkTreeInner at h
  split at h
  next => cases h
  next =>
    split at h
    next => cases h
    next => cases h
    next s hloop =>
      have hstart : WalkSound trees tombstoned (flattenFiles node) (walkStart root) := by
        refine ⟨fun _ hf => absurd hf List.not_mem_nil, fun _ hp => absurd hp List.not_mem_nil, ?_⟩
        intro item hitem
        cases List.mem_singleton.mp hitem
        exact ⟨node, hload, fun g hg => hg⟩
      have hsound := walkLoop_sound hlist hstart hloop
      rw [Option.some.injEq] at h
      unfold checkPrefixes at h
      split at h
      next => cases h
      next =>
        cases h
        exact ⟨hsound.files, hsound.masked⟩

end

section

variable {κ : Type} [DecidableEq κ] {rule : NameRule κ} {root : List κ} {fs fs' : CheckoutTree κ}
  {Id : Type} [Platform Id] {sparse : List Path} {index : Index Id} {force : Bool}

/-! ### The plan of a sync -/

theorem syncPlan_ok {report : Report} {answers : SyncAnswers Id} {plan : Plan Id}
    (h : syncPlan sparse index report answers force = .ok plan) :
    ∃ walk adds, ∃ blobs : Id → Bytes, answers.walk = .ok walk ∧
      syncAdds sparse walk answers.incoming = .ok adds ∧
      plan =
        { discards := colliders report
            ((answers.incoming.map Prod.fst).filter (underSparse sparse ·))
          files := adds.map fun file => (file, blobs file.blob)
          deletes := syncDeletes sparse (index.rows.map Prod.fst ++ adds.map (·.path))
            answers.incoming } := by
  simp only [syncPlan] at h
  split_ifs at h
  split at h
  next => cases h
  next walk hwalk =>
    split at h
    next => cases h
    next adds hadds =>
      split at h
      next => cases h
      next blobs _ =>
        cases h
        exact ⟨walk, adds, blobs, hwalk, hadds, rfl⟩

omit [Platform Id] in
/-- The files to write are files of the walk, one for each incoming path of the
cone that is not deleted and not masked. -/
theorem syncAdds_ok {walk : TreeWalk Id} {incoming : List (Path × String)}
    {adds : List (TreeFile Id)} (h : syncAdds sparse walk incoming = .ok adds) :
    (∀ file ∈ adds, file ∈ walk.files) ∧
      ∀ e ∈ incoming, underSparse sparse e.1 = true → e.2 ≠ "del" → e.1 ∉ walk.redacted →
        ∃ file ∈ adds, file.path = e.1 := by
  induction incoming generalizing adds with
  | nil =>
      cases h
      exact ⟨fun _ hf => absurd hf List.not_mem_nil, fun _ he => absurd he List.not_mem_nil⟩
  | cons first incoming ih =>
      obtain ⟨path, kind⟩ := first
      rw [syncAdds] at h
      split_ifs at h with hskip hmasked
      · obtain ⟨hfiles, hall⟩ := ih h
        refine ⟨hfiles, fun e he hunder hkind hshown => ?_⟩
        rcases List.mem_cons.mp he with rfl | he
        · rw [Bool.or_eq_true, Bool.not_eq_true', hunder, decide_eq_true_iff] at hskip
          exact absurd hskip (by simp [hkind])
        · exact hall e he hunder hkind hshown
      · obtain ⟨hfiles, hall⟩ := ih h
        refine ⟨hfiles, fun e he hunder hkind hshown => ?_⟩
        rcases List.mem_cons.mp he with rfl | he
        · exact absurd hmasked hshown
        · exact hall e he hunder hkind hshown
      · split at h
        next => cases h
        next file hfind =>
          split at h
          next => cases h
          next files hrest =>
            cases h
            obtain ⟨hfiles, hall⟩ := ih hrest
            have hpath := List.find?_some hfind
            refine ⟨fun f hf => ?_, fun e he hunder hkind hshown => ?_⟩
            · rcases List.mem_cons.mp hf with rfl | hf
              · exact List.mem_reverse.mp (List.mem_of_find?_eq_some hfind)
              · exact hfiles f hf
            · rcases List.mem_cons.mp he with rfl | he
              · exact ⟨file, List.mem_cons_self, of_decide_eq_true hpath⟩
              · obtain ⟨f, hf, hthere⟩ := hall e he hunder hkind hshown
                exact ⟨f, List.mem_cons_of_mem _ hf, hthere⟩

theorem syncDeletes_of_mem {incoming : List (Path × String)} {rel : Path}
    (hunder : underSparse sparse rel = true) (hin : (rel, "del") ∈ incoming) :
    ∀ {tracked : List Path}, rel ∈ tracked → rel ∈ syncDeletes sparse tracked incoming := by
  induction incoming with
  | nil => cases hin
  | cons first incoming ih =>
      obtain ⟨path, kind⟩ := first
      intro tracked htracked
      rw [syncDeletes]
      rcases List.mem_cons.mp hin with heq | hin
      · cases heq
        rw [if_pos ⟨rfl, hunder, htracked⟩]
        exact List.mem_cons_self
      · split_ifs
        · by_cases hpath : rel = path
          · exact hpath ▸ List.mem_cons_self
          · refine List.mem_cons_of_mem _ (ih hin ?_)
            exact List.mem_filter.mpr ⟨htracked, decide_eq_true hpath⟩
        · exact ih hin htracked

/-! ### What a sync installs -/

/-- What a path-level diff says of a path. -/
def kindAt : Option (FileMeta Id) → Option (FileMeta Id) → Option DiffKind
  | none, none => none
  | some _, none => some .del
  | none, some _ => some .add
  | some a, some b => if a.key = b.key then none else some .mod

theorem kindAt_eq_none {a b : Option (FileMeta Id)} (h : kindAt a b = none) :
    a.map FileMeta.key = b.map FileMeta.key := by
  cases a with
  | none =>
      cases b with
      | none => rfl
      | some n => cases h
  | some m =>
      cases b with
      | none => cases h
      | some n =>
          rw [kindAt] at h
          split_ifs at h with hkey
          exact congrArg some hkey

/-- Where the target has a file, the diff says anything but a deletion. -/
theorem kindAt_ne_del {a : Option (FileMeta Id)} {b : FileMeta Id} {kind : DiffKind}
    (h : kindAt a (some b) = some kind) : kind.text ≠ "del" := by
  cases a with
  | none =>
      cases h
      decide
  | some m =>
      rw [kindAt] at h
      split_ifs at h
      cases h
      decide

/-- The checkout's file is the one a tree has: its bytes hash to the blob. -/
def Holds (want : Option (FileMeta Id)) (found : Option (Bytes × Bool)) : Prop :=
  found.map (fun file => (Platform.blobId file.1, file.2)) = want.map FileMeta.key

/-- A sync of a checkout that went through. -/
structure SyncRan (rule : NameRule κ) (root : List κ) (fs : CheckoutTree κ) (disk : Disk)
    (sparse : List Path) (index : Index Id) (answers : SyncAnswers Id) (force : Bool)
    (fs' : CheckoutTree κ) : Prop where
  rooted : fs.Rooted
  dir : fs.node root = some .dir
  shown : Shows rule root fs disk
  ran : ∃ plan, (Verb.sync answers force).plan rule root fs disk sparse index = .ok plan ∧
    plan.StepsSafe rule root fs ∧ runAll rule root fs plan.ops = some fs'

/-- The incoming paths are those at which the two trees differ. -/
def DiffOf (a b : FileMap Id) (incoming : List (Path × String)) : Prop :=
  ∀ p kind, (p, kind) ∈ incoming ↔ (kindAt (a p) (b p)).map DiffKind.text = some kind

/-- The files of a walk are files of the target. -/
def WalksIn (b : FileMap Id) (walk : TreeWalk Id) : Prop :=
  ∀ f ∈ walk.files, ∃ m, b f.path = some m ∧ m.key = (f.blob, f.exec)

theorem sync_installs {disk : Disk} {answers : SyncAnswers Id} {a b : FileMap Id}
    (hkey : Function.Injective rule.key)
    (hrun : SyncRan rule root fs disk sparse index answers force fs')
    (hdiff : DiffOf a b answers.incoming)
    (hwalks : ∀ walk, answers.walk = .ok walk → WalksIn b walk)
    (htracked : ∀ p, underSparse sparse p = true → (a p).isSome → p ∈ index.rows.map Prod.fst)
    {p : Path} (hnorm : normalized (Platform.nfc Id) p = p) :
    (underSparse sparse p = true → kindAt (a p) (b p) ≠ none →
      (∃ walk, answers.walk = .ok walk ∧ p ∈ walk.redacted) ∨
        Holds (b p) (checkoutFile rule root fs' p)) ∧
      (underSparse sparse p = false ∨ kindAt (a p) (b p) = none →
        checkoutFile rule root fs' p = checkoutFile rule root fs p) := by
  obtain ⟨plan, hplan, hsafe, hall⟩ := hrun.ran
  have hcur : Keeps root fs fs := .refl hrun.rooted hrun.dir
  obtain ⟨hfiles, hverified⟩ := runAll_fileAt hcur
    (Verb.run_safe hcur hrun.shown hplan hsafe) hall
  obtain ⟨walk, adds, blobs, hwalk, hadds, rfl⟩ := syncPlan_ok hplan
  obtain ⟨hadded, hcovered⟩ := syncAdds_ok hadds
  have hwalked := hwalks walk hwalk
  -- an operation on the real path of `p` is one on `p`
  have hat : ∀ op : FileOp Id, realPath rule root op.path = realPath rule root p → op.path = p :=
    fun op => realPath_inj hkey
  -- what stands in the incoming list for an operation on `p`
  have hwritten : ∀ file ∈ adds, file.path = p → underSparse sparse p = true ∧
      ∃ kind, (p, kind) ∈ answers.incoming ∧ kind ≠ "del" := by
    rintro file hfile rfl
    obtain ⟨e, he, hunder, hkind, hpath⟩ := mem_syncAdds hadds file hfile
    exact ⟨hpath ▸ hunder, e.2, hpath ▸ he, hkind⟩
  rw [checkoutFile, hfiles, Plan.ops, List.append_assoc, overlay_append]
  constructor
  · intro hunder hdiffers
    obtain ⟨kind, hkind⟩ := Option.ne_none_iff_exists'.mp hdiffers
    have hincoming : (p, kind.text) ∈ answers.incoming := (hdiff p _).mpr (by rw [hkind]; rfl)
    have hsole : ∀ text, (p, text) ∈ answers.incoming → text = kind.text := by
      intro text htext
      have hmap := (hdiff p text).mp htext
      rw [hkind, Option.map_some, Option.some.injEq] at hmap
      exact hmap.symm
    cases hb : b p with
    | none =>
        right
        have hdel : kind = .del := by
          rw [hb] at hkind
          cases ha : a p with
          | none =>
              rw [ha] at hkind
              cases hkind
          | some m =>
              rw [ha] at hkind
              cases hkind
              rfl
        subst hdel
        have hsome : (a p).isSome := by
          cases ha : a p with
          | none =>
              rw [ha, hb] at hkind
              cases hkind
          | some m => rfl
        rw [Holds, overlay_of_written (b := none)]
        · rfl
        · refine ⟨.remove p, List.mem_append_right _ (List.mem_map_of_mem ?_), rfl⟩
          exact syncDeletes_of_mem hunder hincoming
            (List.mem_append_left _ (htracked p hunder hsome))
        · intro op hop hreal
          rcases List.mem_append.mp hop with hop | hop
          · obtain ⟨f, hf, rfl⟩ := List.mem_map.mp hop
            obtain ⟨file, hfile, rfl⟩ := List.mem_map.mp hf
            obtain ⟨-, text, htext, hne⟩ := hwritten file hfile (hat _ hreal)
            exact absurd (hsole text htext) hne
          · obtain ⟨rel, -, rfl⟩ := List.mem_map.mp hop
            rfl
    | some m =>
        by_cases hmasked : p ∈ walk.redacted
        · exact .inl ⟨walk, hwalk, hmasked⟩
        right
        have hne : kind.text ≠ "del" := kindAt_ne_del (hb ▸ hkind)
        obtain ⟨file, hfile, hpath⟩ := hcovered _ hincoming hunder hne hmasked
        have hmeta : ∀ file ∈ adds, file.path = p → m.key = (file.blob, file.exec) := by
          rintro file hfile rfl
          obtain ⟨found, hfound, hkeyed⟩ := hwalked file (hadded file hfile)
          rw [hb, Option.some.injEq] at hfound
          exact hfound ▸ hkeyed
        have hop : FileOp.materialize file (blobs file.blob) ∈
            (adds.map fun file => (file, blobs file.blob)).map
              (fun f => FileOp.materialize f.1 f.2) :=
          List.mem_map.mpr ⟨_, List.mem_map_of_mem hfile, rfl⟩
        have hbytes : Platform.blobId (blobs m.blob) = m.blob := by
          have hkeyed := hmeta file hfile hpath
          rw [FileMeta.key, Prod.mk.injEq] at hkeyed
          rw [hkeyed.1]
          refine hverified (.materialize file (blobs file.blob)) ?_
          rw [Plan.ops]
          exact List.mem_append_left _ (List.mem_append_right _ hop)
        rw [Holds, overlay_of_written (b := some (blobs m.blob, m.exec))]
        · rw [Option.map_some, hbytes]
          rfl
        · exact ⟨_, List.mem_append_left _ hop, congrArg (realPath rule root) hpath⟩
        · intro op hop hreal
          rcases List.mem_append.mp hop with hop | hop
          · obtain ⟨f, hf, rfl⟩ := List.mem_map.mp hop
            obtain ⟨other, hother, rfl⟩ := List.mem_map.mp hf
            have hkeyed := hmeta other hother (hat _ hreal)
            rw [FileMeta.key, Prod.mk.injEq] at hkeyed
            rw [hkeyed.1, hkeyed.2]
            rfl
          · obtain ⟨rel, hrel, rfl⟩ := List.mem_map.mp hop
            obtain rfl : rel = p := hat _ hreal
            exact absurd (hsole _ (mem_syncDeletes rel hrel).2.2) (Ne.symm hne)
  · intro hsame
    -- an incoming path of the cone is one at which the trees differ
    have hnot : ∀ text, (p, text) ∈ answers.incoming → underSparse sparse p = true → False := by
      intro text htext hunder
      rcases hsame with hout | hnone
      · rw [hunder] at hout
        cases hout
      · have hmap := (hdiff p text).mp htext
        rw [hnone] at hmap
        cases hmap
    rw [overlay_of_not_written, overlay_of_not_written]
    · rfl
    · intro op hop hreal
      obtain ⟨raw, hraw, rfl⟩ := List.mem_map.mp hop
      obtain rfl : raw = p := hat _ hreal
      obtain ⟨hpath, -⟩ := mem_colliders hraw
      obtain ⟨hpath, hunder⟩ := List.mem_filter.mp hpath
      rw [hnorm] at hpath hunder
      obtain ⟨e, he, hfst⟩ := List.mem_map.mp hpath
      exact hnot e.2 (hfst ▸ he) hunder
    · intro op hop hreal
      rcases List.mem_append.mp hop with hop | hop
      · obtain ⟨f, hf, rfl⟩ := List.mem_map.mp hop
        obtain ⟨file, hfile, rfl⟩ := List.mem_map.mp hf
        obtain ⟨hunder, text, htext, -⟩ := hwritten file hfile (hat _ hreal)
        exact hnot text htext hunder
      · obtain ⟨rel, hrel, rfl⟩ := List.mem_map.mp hop
        obtain rfl : rel = p := hat _ hreal
        obtain ⟨-, hunder, hin⟩ := mem_syncDeletes rel hrel
        exact hnot _ hin hunder

end

/-! ### A sync against the server -/

section

variable {Id : Type} [Platform Id]

theorem ofText_text {p : Path} (hp : ∀ n ∈ p.components, NoSlash n) : Path.ofText p.text = p := by
  have hsplit : p.text.toList.splitOn '/' = p.components.map String.toList := by
    rw [Path.text, String.toList_intercalate]
    refine List.splitOn_intercalate '/' (fun l hl => ?_) (by simp [Path.components])
    obtain ⟨n, hn, rfl⟩ := List.mem_map.mp hl
    exact hp n hn
  have hofList : (String.ofList ∘ String.toList : String → String) = id := by
    funext n
    simp
  rw [Path.ofText, hsplit, List.map_map, hofList, List.map_id]
  simp [Path.components]

/-- The paths and kinds the client reads off a diff. -/
def incomingOf (changes : List (PathDiffEntry Id)) : List (Path × String) :=
  changes.map fun e => (.ofText e.path, e.kind.text)

theorem diffAt_kind {redacted : Id → Bool} {p : Path} {a b : Option (FileMeta Id)} :
    (diffAt redacted p a b).map (fun e => (e.path, e.kind)) =
      (kindAt a b).map fun kind => (p.text, kind) := by
  cases a with
  | none => cases b <;> rfl
  | some m =>
      cases b with
      | none => rfl
      | some n =>
          rw [diffAt, kindAt]
          split_ifs <;> rfl

/-- What the client reads off an exact diff. -/
theorem diffOf_incoming {redacted : Id → Bool} {a b : FileMap Id}
    {changes : List (PathDiffEntry Id)} (h : DiffExact redacted a b changes)
    (hnames : ∀ p, kindAt (a p) (b p) ≠ none → ∀ n ∈ p.components, NoSlash n) :
    DiffOf a b (incomingOf changes) := by
  have hentry : ∀ q e, diffAt redacted q (a q) (b q) = some e →
      ∃ kind, kindAt (a q) (b q) = some kind ∧ e.path = q.text ∧ e.kind = kind := by
    intro q e he
    have hkind := @diffAt_kind _ _ redacted q (a q) (b q)
    rw [he, Option.map_some] at hkind
    obtain ⟨kind, hsome, heq⟩ := Option.map_eq_some_iff.mp hkind.symm
    obtain ⟨hpath, hword⟩ := Prod.mk.inj heq
    exact ⟨kind, hsome, hpath.symm, hword.symm⟩
  intro p text
  rw [incomingOf, List.mem_map]
  constructor
  · rintro ⟨e, he, heq⟩
    cases heq
    obtain ⟨q, hq⟩ := (h.entry_iff e).mp he
    obtain ⟨kind, hkind, hpath, rfl⟩ := hentry q e hq
    rw [hpath, ofText_text (hnames q (by rw [hkind]; exact Option.some_ne_none _)), hkind]
    rfl
  · intro hmap
    obtain ⟨kind, hkind, rfl⟩ := Option.map_eq_some_iff.mp hmap
    have hat := @diffAt_kind _ _ redacted p (a p) (b p)
    rw [hkind, Option.map_some] at hat
    obtain ⟨e, he, heq⟩ := Option.map_eq_some_iff.mp hat
    obtain ⟨hpath, rfl⟩ := Prod.mk.inj heq
    refine ⟨e, (h.entry_iff e).mpr ⟨p, he⟩, ?_⟩
    rw [hpath, ofText_text (hnames p (by rw [hkind]; exact Option.some_ne_none _))]

/-- The files of a changeset's root tree. -/
def rootFiles (cx : RepoCx Id) (id : Id) : Files Id :=
  match (changesetGet cx.db id).map fun row => MemNode.load cx.trees (some row.rootTreeId) with
  | some (.ok node) => flattenFiles node
  | _ => []

def changesetFiles (cx : RepoCx Id) (id : Id) : FileMap Id := fun p => (rootFiles cx id).lookup p

theorem changesetFiles_load {cx : RepoCx Id} {id : Id} {row : ChangesetRow Id} {node : MemNode Id}
    (hrow : changesetGet cx.db id = some row)
    (hload : MemNode.load cx.trees (some row.rootTreeId) = .ok node) :
    changesetFiles cx id = filesAt node := by
  funext p
  rw [changesetFiles, rootFiles, hrow, Option.map_some, hload]
  rfl

open Server in
/-- A listing of a later state shows the stored directory, with the blobs masked
that are tombstoned by then. -/
theorem listsTree_of_later {ok : Server Id → Event Id → Prop} {s : Server Id} (h : Reach ok s)
    {r : RepoId} {list : Id → Option (List (TreeEntryOut Id))}
    (hlist : ∀ id entries, list id = some entries → ∃ s', Lib.Later step ok s s' ∧
      getRepoTree (s'.cx r) id = .ok entries) :
    ListsTree (s.cx r).trees (fun blob => ∃ s', Lib.Later step ok s s' ∧
      redactionActive (s'.dbs r) blob = true) list := by
  intro id row entries hrow hentries
  obtain ⟨s', hlater, hanswer⟩ := hlist id entries hentries
  rw [getRepoTree] at hanswer
  split_ifs at hanswer
  rw [Except.ok.injEq, listTree, getTree] at hanswer
  cases hfound : treeGet (s'.cx r).trees id with
  | none =>
      rw [hfound] at hanswer
      exact .inl hanswer.symm
  | some found =>
      obtain ⟨hmem, hid⟩ := treeGet_some hrow
      obtain ⟨hmem', hid'⟩ := treeGet_some hfound
      have hsame : found = row :=
        ((treesWf_of_reach (h.later hlater) (s'.file r)).rows found hmem').eq
          ((treesWf_of_reach h (s.file r)).rows row hmem) (hid'.trans hid.symm)
      subst hsame
      rw [hfound] at hanswer
      exact .inr ⟨_, _, fun blob hblob => ⟨s', hlater, redactionActive_iff.mpr hblob⟩,
        hanswer.symm⟩

variable {κ : Type} [DecidableEq κ] {rule : NameRule κ} {root : List κ} {fs fs' : CheckoutTree κ}

open Server in
/-- A sync to the target `b` of `main`, from a checkout of `a`, on a file system
that tells names apart. The ref, the diff, the root and each listing are
answered in states one after the other, with any server steps between. If every
operation goes through, a path of the cone that is not masked has the file of
`b`, where it had the one of `a` or the two differ; only a tombstoned blob is
masked; and no other path changes. -/
theorem sync_converges_of_reach {ok : Server Id → Event Id → Prop}
    (hok : ∀ s e, ok s e → SplitPaths e ∧ ImportNames NonEmpty e) {s₀ s₁ s₂ : Server Id}
    (h : Reach ok s₀) (h₁ : Lib.Later step ok s₀ s₁) (h₂ : Lib.Later step ok s₁ s₂) {r : RepoId}
    (hr : r ∈ s₁.repoIds) {ref : RefRow Id} {a b : Id} {rowB : ChangesetRow Id}
    (href : refGet (s₀.dbs r) "main" = some ref) (htarget : ref.target = some b)
    (hrowB : changesetGet (s₀.dbs r) b = some rowB) {changes : List (PathDiffEntry Id)}
    (hdiff : diff (s₁.cx r) a b = .ok changes) {treeRoot : Id}
    (hroot : getRoot (s₂.cx r) b = .ok treeRoot) {list : Id → Option (List (TreeEntryOut Id))}
    (hlist : ∀ id entries, list id = some entries → ∃ s', Lib.Later step ok s₂ s' ∧
      getRepoTree (s'.cx r) id = .ok entries) {disk : Disk} {sparse : List Path}
    {index : Index Id} {answers : SyncAnswers Id} {force : Bool} {fuel : ℕ}
    (hincoming : answers.incoming = incomingOf changes)
    (hwalk : walkTreeInner (Platform.nfc Id) list fuel treeRoot sparse false = some answers.walk)
    (hkey : Function.Injective rule.key)
    (hrun : SyncRan rule root fs disk sparse index answers force fs')
    (htracked : ∀ p, underSparse sparse p = true → (changesetFiles (s₁.cx r) a p).isSome →
      p ∈ index.rows.map Prod.fst)
    {p : Path} (hnorm : normalized (Platform.nfc Id) p = p) :
    (underSparse sparse p = true →
      (∀ walk, answers.walk = .ok walk → p ∉ walk.redacted) →
      (kindAt (changesetFiles (s₁.cx r) a p) (changesetFiles (s₁.cx r) b p) = none →
        Holds (changesetFiles (s₁.cx r) a p) (checkoutFile rule root fs p)) →
      Holds (changesetFiles (s₁.cx r) b p) (checkoutFile rule root fs' p)) ∧
      (∀ walk, answers.walk = .ok walk → p ∈ walk.redacted →
        ∃ m s', changesetFiles (s₁.cx r) b p = some m ∧ Lib.Later step ok s₁ s' ∧
          redactionActive (s'.dbs r) m.blob = true) ∧
      (underSparse sparse p = false ∨
          kindAt (changesetFiles (s₁.cx r) a p) (changesetFiles (s₁.cx r) b p) = none →
        checkoutFile rule root fs' p = checkoutFile rule root fs p) := by
  have hreach₁ := h.later h₁
  -- the target keeps its row while `main` is above it
  obtain ⟨hreaches₁, hrowB₁⟩ := history_later h h₁ ⟨ref, b, href, htarget, le_rfl, .refl⟩ hrowB
  have hrowB₂ := (history_later hreach₁ h₂ hreaches₁ hrowB₁).2
  have hrootB : treeRoot = rowB.rootTreeId := by
    rw [getRoot] at hroot
    split_ifs at hroot
    rw [show changesetGet (s₂.cx r).db b = some rowB from hrowB₂] at hroot
    exact (Except.ok.inj hroot).symm
  obtain ⟨rowA, hrowA, hfreeA, hfreeB⟩ : ∃ rowA, changesetGet (s₁.dbs r) a = some rowA ∧
      redactionActive (s₁.dbs r) a = false ∧ redactionActive (s₁.dbs r) b = false := by
    have hanswer := hdiff
    rw [diff] at hanswer
    split_ifs at hanswer with hredA hredB
    cases hrowA : changesetGet (s₁.dbs r) a with
    | none =>
        rw [diffRoot, show changesetGet (s₁.cx r).db a = none from hrowA] at hanswer
        cases hanswer
    | some rowA => exact ⟨rowA, rfl, by simpa using hredA, by simpa using hredB⟩
  obtain ⟨nodeA, hloadA, hlistsA, hnamesA, hsortedA⟩ := lists_of_reach hok hreach₁ hr hrowA
  obtain ⟨nodeB, hloadB, hlistsB, hnamesB, hsortedB⟩ := lists_of_reach hok hreach₁ hr hrowB₁
  rw [@changesetFiles_load _ _ (s₁.cx r) a rowA nodeA hrowA hloadA,
    @changesetFiles_load _ _ (s₁.cx r) b rowB nodeB hrowB₁ hloadB] at *
  obtain ⟨changes', hchanges, hexact⟩ := @diff_exact _ _ (s₁.cx r) a b rowA rowB nodeA nodeB
    hrowA hrowB₁ hfreeA hfreeB hlistsA hlistsB hnamesA hnamesB
  rw [hdiff, Except.ok.injEq] at hchanges
  subst hchanges
  have hlists := listsTree_of_later hreach₁ fun id entries hentries => by
    obtain ⟨s', hlater, hanswer⟩ := hlist id entries hentries
    exact ⟨s', h₂.trans hlater, hanswer⟩
  rw [hrootB] at hwalk
  have hsound : ∀ walk, answers.walk = .ok walk →
      WalksIn (filesAt nodeB) walk ∧ ∀ p ∈ walk.redacted, ∃ m, filesAt nodeB p = some m ∧
        ∃ s', Lib.Later step ok s₁ s' ∧ redactionActive (s'.dbs r) m.blob = true := by
    intro walk hok
    rw [hok] at hwalk
    obtain ⟨hfiles, hmasked⟩ := walkTree_sound hlists hloadB hwalk
    refine ⟨fun f hf => ?_, fun q hq => ?_⟩
    · obtain ⟨g, hg, hpath, hmeta⟩ := hfiles f hf
      exact ⟨g.2, hpath ▸ (mem_flattenFiles_iff hsortedB).mp hg, hmeta⟩
    · obtain ⟨g, hg, hpath, hblob⟩ := hmasked q hq
      exact ⟨g.2, hpath ▸ (mem_flattenFiles_iff hsortedB).mp hg, hblob⟩
  have hnames : ∀ q, kindAt (filesAt nodeA q) (filesAt nodeB q) ≠ none →
      ∀ n ∈ q.components, NoSlash n := by
    intro q hq
    cases ha : filesAt nodeA q with
    | some m => exact filesAt_names hnamesA (by rw [ha]; rfl)
    | none =>
        cases hb : filesAt nodeB q with
        | some m => exact filesAt_names hnamesB (by rw [hb]; rfl)
        | none =>
            rw [ha, hb] at hq
            exact absurd rfl hq
  obtain ⟨hinstalls, hkeeps⟩ := sync_installs hkey hrun
    (hincoming ▸ diffOf_incoming hexact hnames) (fun walk hok => (hsound walk hok).1) htracked hnorm
  refine ⟨fun hunder hshown hheld => ?_, fun walk hok hmasked => ?_, hkeeps⟩
  · cases hkind : kindAt (filesAt nodeA p) (filesAt nodeB p) with
    | none =>
        rw [hkeeps (.inr hkind), Holds, hheld hkind]
        exact kindAt_eq_none hkind
    | some kind =>
        rcases hinstalls hunder (by rw [hkind]; exact Option.some_ne_none _) with
          ⟨walk, hok, hmasked⟩ | hholds
        · exact absurd hmasked (hshown walk hok)
        · exact hholds
  · obtain ⟨m, hm, s', hlater, hblob⟩ := (hsound walk hok).2 p hmasked
    exact ⟨m, s', hm, hlater, hblob⟩

end

/-! ### A sync over one edit -/

section

namespace EditSynced

open Server.StaleTip Server.HistoryKept

/-- The edit of one file, landed. -/
def moved : List (Event PlainId) :=
  edited ++ [.land 1 ⟨"r", "ann", none, lastOf edited, "k", none, false, 0⟩]

/-- The checkout of the import, with a file of its own. -/
def before : CheckoutTree String :=
  [(["wt"], .dir), (["wt", "a"], .file ([97, 10], false)), (["wt", "u"], .file ([117], false))]

def stat (size : ℕ) : Metadata := ⟨size, ⟨0, 0⟩, ⟨0, 0⟩, 0, 0o644⟩

def disk : Disk :=
  ⟨.entry (.ok "a") (.file (stat 2) [97, 10]) (.entry (.ok "u") (.file (stat 1) [117]) .empty),
    by simp [DiskDir.wellNamed, DiskNode.wellNamed, DiskDir.names, OsName.legal]⟩

def index : Index PlainId :=
  ⟨[(⟨[], "a"⟩, .fromStat ⟨[], "a"⟩ (Platform.blobId [97, 10]) (stat 2))], by simp⟩

def changes (s : Server PlainId) : List (PathDiffEntry PlainId) :=
  ((diff (s.cx 1) (lastOf imported) (lastOf edited)).toOption).getD []

def treeRoot (s : Server PlainId) : PlainId :=
  ((getRoot (s.cx 1) (lastOf edited)).toOption).getD []

def list (s : Server PlainId) (id : PlainId) : Option (List (TreeEntryOut PlainId)) :=
  (getRepoTree (s.cx 1) id).toOption

def walked (s : Server PlainId) : Option (Except FetchError (TreeWalk PlainId)) :=
  walkTreeInner (Platform.nfc PlainId) (list s) 4 (treeRoot s) [] false

def answers (s : Server PlainId) : SyncAnswers PlainId where
  walk := (walked s).getD (.error .http)
  walked := by
    cases h : walked s with
    | some walk => exact ⟨list s, 4, treeRoot s, [], false, h⟩
    | none => exact ⟨fun _ => none, 1, [], [], false, rfl⟩
  blobs := fun _ => .ok fun _ => [98, 10]
  incoming := incomingOf (changes s)

/-- The checkout after the sync. -/
def syncedTree (s : Server PlainId) : Option (CheckoutTree String) :=
  match (Verb.sync (answers s) false).plan exactNames ["wt"] before disk [] index with
  | .ok plan => runAll exactNames ["wt"] before plan.ops
  | .error _ => none

theorem eq_ok_of_isSome {ε α : Type} {answer : Except ε α} {default : α}
    (h : answer.toOption.isSome) : answer = .ok (answer.toOption.getD default) := by
  cases answer with
  | ok a => rfl
  | error e => cases h

theorem disk_files {raw : Path} {meta' : Metadata} {content : Bytes}
    (h : disk.HasFile raw meta' content) : raw.dirs = [] ∧ (raw.leaf = "a" ∨ raw.leaf = "u") := by
  obtain ⟨hfile, -⟩ := h
  cases hfile with
  | here => exact ⟨rfl, .inl rfl⟩
  | later h =>
      cases h with
      | here => exact ⟨rfl, .inr rfl⟩
      | later h => cases h

end EditSynced

open Server.StaleTip Server.HistoryKept EditSynced in
/-- The sync brings the edit, and leaves the untracked file. -/
theorem sync_converges_of_reach_edited : ∃ s fs',
    Lib.exec Server.step start moved = some s ∧ syncedTree s = some fs' ∧
      Holds (changesetFiles (s.cx 1) (lastOf edited) ⟨[], "a"⟩)
        (checkoutFile exactNames ["wt"] fs' ⟨[], "a"⟩) ∧
      checkoutFile exactNames ["wt"] fs' ⟨[], "a"⟩ = some ([98, 10], false) ∧
      checkoutFile exactNames ["wt"] fs' ⟨[], "u"⟩ = some ([117], false) := by
  have hrun : (Lib.exec Server.step start moved).any (fun s => decide (1 ∈ s.repoIds) &&
      decide (((refGet (s.dbs 1) "main").bind fun ref => ref.target) = some (lastOf edited)) &&
      (changesetGet (s.dbs 1) (lastOf edited)).isSome &&
      (diff (s.cx 1) (lastOf imported) (lastOf edited)).toOption.isSome &&
      (getRoot (s.cx 1) (lastOf edited)).toOption.isSome &&
      decide (walked s = some (.ok ⟨[⟨⟨[], "a"⟩, Platform.blobId [98, 10], 2, false⟩], []⟩)) &&
      decide ((answers s).incoming = [(⟨[], "a"⟩, "mod")]) &&
      decide ((rootFiles (s.cx 1) (lastOf imported)).map Prod.fst = [⟨[], "a"⟩]) &&
      decide (kindAt ((rootFiles (s.cx 1) (lastOf imported)).lookup ⟨[], "a"⟩)
        ((rootFiles (s.cx 1) (lastOf edited)).lookup ⟨[], "a"⟩) = some .mod) &&
      (syncedTree s).any fun fs' =>
        decide (checkoutFile exactNames ["wt"] fs' ⟨[], "a"⟩ = some ([98, 10], false)) &&
          decide (checkoutFile exactNames ["wt"] fs' ⟨[], "u"⟩ = some ([117], false))) = true := by
    decide +kernel
  obtain ⟨s, hs, hall⟩ := (Option.any_eq_true _ _).mp hrun
  simp only [Bool.and_eq_true, decide_eq_true_eq] at hall
  obtain ⟨⟨⟨⟨⟨⟨⟨⟨⟨hr, hmain⟩, hrow⟩, hdiff⟩, hroot⟩, hwalk⟩, hincoming⟩, hfiles⟩, hkind⟩, hafter⟩ :=
    hall
  obtain ⟨fs', hfs', hbytes⟩ := (Option.any_eq_true _ _).mp hafter
  rw [Bool.and_eq_true, decide_eq_true_eq, decide_eq_true_eq] at hbytes
  refine ⟨s, fs', hs, hfs', ?_, hbytes.1, hbytes.2⟩
  obtain ⟨ref, href, htarget⟩ := Option.bind_eq_some_iff.mp hmain
  obtain ⟨row, hrow⟩ := Option.isSome_iff_exists.mp hrow
  have hname : (GitName.ofText "a").text ≠ "" := by decide +kernel
  have hreach : Server.Reach (fun _ e => Server.SplitPaths e ∧ Server.ImportNames NonEmpty e) s := by
    refine Lib.Reach.exec (.start ⟨.dbPerRepo, [(1, "r")], 100, 10, by decide, rfl⟩) ?_ hs
    intro s
    simp [moved, edited, create, imported, upload, source, Server.SplitPaths, Server.ImportNames,
      Path.components, NoSlash, NonEmpty, GitTree.Names, GitEntry.Names, hname]
  have hplain : ∀ raw stat content, disk.HasFile raw stat content → Plain raw.components ∧
      Unreserved exactNames raw.components := by
    intro raw stat content hfile
    obtain ⟨hdirs, hleaf | hleaf⟩ := disk_files hfile
    · rw [Path.components, hdirs, hleaf]
      exact ⟨by simp [Plain], by decide⟩
    · rw [Path.components, hdirs, hleaf]
      exact ⟨by simp [Plain], by decide⟩
  have hrooted : LinkTree.Rooted before := rooted_of_entries (by decide)
  have hshows : Shows exactNames ["wt"] before disk := by
    refine ⟨fun raw stat content hfile => (hplain raw stat content hfile).1, ?_⟩
    intro raw stat content hfile names hne hpre
    rw [(disk_files hfile).1, List.prefix_nil] at hpre
    exact absurd hpre hne
  have hsafe : (Verb.sync (answers s) false).Safe exactNames ["wt"] before disk [] index := by
    refine ⟨?_, fun raw stat content hfile _ => (hplain raw stat content hfile).2, ?_⟩
    · simp only [Verb.writes, Verb.diff, hincoming]
      decide
    · simp only [Verb.deletes, Verb.writes, Verb.diff, hincoming]
      simp
  have hsynced : SyncRan exactNames ["wt"] before disk [] index (answers s) false fs' := by
    refine ⟨hrooted, rfl, hshows, ?_⟩
    unfold syncedTree at hfs'
    split at hfs'
    next plan hplan =>
      exact ⟨plan, hplan, hsafe.steps (.refl hrooted rfl) hshows hplan, hfs'⟩
    next => cases hfs'
  have htracked : ∀ p, underSparse [] p = true →
      (changesetFiles (s.cx 1) (lastOf imported) p).isSome → p ∈ index.rows.map Prod.fst := by
    intro p _ hsome
    obtain ⟨m, hm⟩ := Option.isSome_iff_exists.mp hsome
    have hmem : p ∈ (rootFiles (s.cx 1) (lastOf imported)).map Prod.fst :=
      List.mem_map.mpr ⟨(p, m), Lib.mem_of_lookup hm, rfl⟩
    rw [hfiles] at hmem
    exact hmem
  have hanswer : (answers s).walk =
      .ok ⟨[⟨⟨[], "a"⟩, Platform.blobId [98, 10], 2, false⟩], []⟩ :=
    show (walked s).getD (.error .http) = _ by rw [hwalk, Option.getD_some]
  have hwalks : walkTreeInner (Platform.nfc PlainId) (list s) 4 (treeRoot s) [] false =
      some (answers s).walk := hanswer ▸ hwalk
  refine (sync_converges_of_reach (fun _ _ he => he) hreach .refl .refl hr href htarget hrow
    (eq_ok_of_isSome hdiff) (eq_ok_of_isSome hroot) (fun id entries hentries => ⟨s, .refl, ?_⟩) rfl
    hwalks (fun _ _ h => h) hsynced htracked (p := ⟨[], "a"⟩) (by decide +kernel)).1 rfl ?_ ?_
  · rw [eq_ok_of_isSome (Option.isSome_iff_exists.mpr ⟨_, hentries⟩)]
    exact congrArg (fun found => Except.ok (found.getD [])) hentries
  · intro walk hok hmasked
    rw [hanswer, Except.ok.injEq] at hok
    subst hok
    cases hmasked
  · intro hnone
    exact absurd (hkind.symm.trans hnone) (by simp)

end

end Naatre.Client
