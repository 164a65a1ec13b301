import Naatre.Client.CheckoutSteps
import Naatre.Lib.Overlay

/-!
What a run leaves in the checkout. One operation that goes through gives its
path its content, and no other file changes; a run all of whose operations go
through is these writes laid over the files, one after the other.
-/

namespace Naatre.Client

open Lib LinkTree

section

variable {κ : Type} [DecidableEq κ] {rule : NameRule κ} {root : List κ} {fs : CheckoutTree κ}
  {Id : Type}

/-! ### Operations -/

def FileOp.path : FileOp Id → Path
  | .remove rel => rel
  | .materialize file _ => file.path

/-- What the operation leaves at its path. -/
def FileOp.leaves : FileOp Id → Option (Bytes × Bool)
  | .remove _ => none
  | .materialize file bytes => some (bytes, file.exec)

/-- The real path of a path without a link. -/
def realPath (rule : NameRule κ) (root : List κ) (p : Path) : List κ :=
  root ++ rule.keys p.components

/-- The file of a checkout at a path. -/
def checkoutFile (rule : NameRule κ) (root : List κ) (fs : CheckoutTree κ) (p : Path) :
    Option (Bytes × Bool) := fs.fileAt (realPath rule root p)

omit [DecidableEq κ] in
theorem realPath_leaf (p : Path) :
    realPath rule root p = root ++ rule.keys p.dirs ++ [rule.key p.leaf] := by
  rw [realPath, Path.components, keys_snoc, List.append_assoc]

omit [DecidableEq κ] in
theorem realPath_inj (hkey : Function.Injective rule.key) {p q : Path}
    (h : realPath rule root p = realPath rule root q) : p = q := by
  have hnames : p.components = q.components := hkey.list_map (List.append_cancel_left h)
  obtain ⟨hdirs, hleaf⟩ := List.append_inj' hnames rfl
  cases p
  cases q
  rw [Path.mk.injEq]
  exact ⟨hdirs, (List.cons.inj hleaf).1⟩

theorem prune_fileAt (parents : List String) :
    (prune rule root fs parents).1.fileAt = fs.fileAt := by
  induction parents generalizing fs with
  | nil => rfl
  | cons d parents ih =>
      rw [prune]
      split
      next => rfl
      next fs' p hrm => exact ih.trans (fileAt_rmdir hrm)

theorem removeAndPrune_fileAt {rel : Path} (hcur : Keeps root fs fs)
    (hsafe : DeleteSafe rule root fs rel) (h : (removeAndPrune rule root fs rel).2 = none) :
    (removeAndPrune rule root fs rel).1.1.fileAt =
      Function.update fs.fileAt (realPath rule root rel) none := by
  obtain ⟨hplain, -, hfree⟩ := hsafe
  have hdirs : Plain rel.dirs := hplain.left
  rw [realPath_leaf]
  rw [removeAndPrune, hops_plain hdirs, hop_plain (hplain rel.leaf (by simp [Path.components]))]
    at h ⊢
  split at h
  next hnone =>
    exact (Function.update_eq_self_iff.mpr (fileAt_unlink_notFound hcur hnone).symm).symm
  next => cases h
  next fs' p hunlink => exact (prune_fileAt _).trans (fileAt_unlink hfree hunlink)

theorem writeCheckoutFile_fileAt {rel : Path} {bytes : Bytes} {exec : Bool}
    (hcur : Keeps root fs fs) (hplain : Plain rel.components)
    (hfree : fs.LinkFree root (rule.keys rel.dirs))
    (h : (writeCheckoutFile rule root fs rel bytes exec).2 = none) :
    (writeCheckoutFile rule root fs rel bytes exec).1.1.fileAt =
      Function.update fs.fileAt (realPath rule root rel) (some (bytes, exec)) := by
  have hdirs : Plain rel.dirs := hplain.left
  rw [realPath_leaf]
  rw [writeCheckoutFile, hops_plain hdirs, hop_plain (hplain rel.leaf (by simp [Path.components]))]
    at h ⊢
  have hmade := @mkdirs_linkFree _ _ _ fs
    (fs.mkdirs rule.links root [] ((rule.keys rel.dirs).map .into)).1.1 root rule.links []
    (rule.keys rel.dirs) hcur hfree _ _ rfl
  have hfiles : (fs.mkdirs rule.links root [] ((rule.keys rel.dirs).map .into)).1.1.fileAt =
      fs.fileAt := fileAt_mkdirs
  split at h
  next => cases h
  next fs' made hmk =>
    rw [hmk] at hmade hfiles
    split at h
    next => cases h
    next fs'' p hplace =>
      rw [← hfiles]
      exact fileAt_place (hfree.mono hmade.2.links) hplace

variable [Platform Id]

/-- A file that is materialized has the bytes its blob id names. -/
theorem materialize_fileAt {file : TreeFile Id} {bytes : Bytes} (hcur : Keeps root fs fs)
    (h : (materialize rule root fs file bytes).2 = true) :
    (materialize rule root fs file bytes).1.1.fileAt =
        Function.update fs.fileAt (realPath rule root file.path) (some (bytes, file.exec)) ∧
      Platform.blobId bytes = file.blob := by
  rw [materialize] at h ⊢
  split at h
  next => cases h
  next hvalid =>
    split_ifs at h ⊢ with hverify hlinks
    rw [Bool.not_eq_true', Bool.not_eq_false] at hverify hlinks
    refine ⟨?_, of_decide_eq_true hverify⟩
    have hplain := validate_plain hvalid
    have hfree := linkFree_of_components hcur hplain (List.isEmpty_iff.mp hlinks)
    rw [Path.components, keys_snoc] at hfree
    refine writeCheckoutFile_fileAt hcur hplain (hfree.take (List.prefix_append _ _)) ?_
    exact Option.isNone_iff_eq_none.mp h

def FileOp.Verified : FileOp Id → Prop
  | .remove _ => True
  | .materialize file bytes => Platform.blobId bytes = file.blob

/-- An operation that goes through changes one file. -/
theorem op_fileAt {op : FileOp Id} {fs' : CheckoutTree κ} {touched : Touched κ}
    (hcur : Keeps root fs fs) (hsafe : OpSafe rule root fs op)
    (h : op.run rule root fs = ((fs', touched), true)) :
    fs'.fileAt = Function.update fs.fileAt (realPath rule root op.path) op.leaves ∧
      op.Verified := by
  cases op with
  | remove rel =>
      simp only [FileOp.run, Prod.mk.injEq, Option.isNone_iff_eq_none] at h
      have hfiles := removeAndPrune_fileAt hcur hsafe h.2
      rw [h.1] at hfiles
      exact ⟨hfiles, trivial⟩
  | materialize file bytes =>
      simp only [FileOp.run] at h
      have hfiles := @materialize_fileAt _ _ rule root fs _ _ file bytes hcur (by rw [h])
      rw [h] at hfiles
      exact hfiles

/-! ### Runs -/

/-- The operations in turn, if all of them go through. -/
def runAll (rule : NameRule κ) (root : List κ) :
    CheckoutTree κ → List (FileOp Id) → Option (CheckoutTree κ)
  | fs, [] => some fs
  | fs, op :: ops =>
      match op.run rule root fs with
      | (_, false) => none
      | ((fs, _), true) => runAll rule root fs ops

theorem runAll_cons {op : FileOp Id} {ops : List (FileOp Id)} {fs' : CheckoutTree κ}
    (h : runAll rule root fs (op :: ops) = some fs') :
    ∃ mid touched, op.run rule root fs = ((mid, touched), true) ∧
      runAll rule root mid ops = some fs' := by
  rw [runAll] at h
  split at h
  next => cases h
  next mid touched hrun => exact ⟨mid, touched, hrun, h⟩

theorem runAll_keeps {ops : List (FileOp Id)} {fs' : CheckoutTree κ} (hcur : Keeps root fs fs)
    (hsafe : RunSafe rule root fs ops) (h : runAll rule root fs ops = some fs') :
    Keeps root fs fs' := by
  induction ops generalizing fs with
  | nil =>
      obtain rfl := Option.some.inj h
      exact hcur
  | cons op ops ih =>
      obtain ⟨mid, touched, hrun, hrest⟩ := runAll_cons h
      have hkeeps := (op_contained hcur hsafe.1).2
      rw [hrun] at hkeeps
      exact hkeeps.trans (ih hkeeps.self (hsafe.2 mid touched hrun) hrest)

/-- The operations behind others are asked about the state those leave. -/
theorem RunSafe.append_run {ops ops' : List (FileOp Id)} (h : RunSafe rule root fs ops)
    (h' : ∀ fs', runAll rule root fs ops = some fs' → RunSafe rule root fs' ops') :
    RunSafe rule root fs (ops ++ ops') := by
  induction ops generalizing fs with
  | nil => exact h' fs rfl
  | cons op ops ih =>
      refine ⟨h.1, fun mid touched hrun => ih (h.2 mid touched hrun) fun fs' hrest => h' fs' ?_⟩
      rw [runAll, hrun]
      exact hrest

/-- A run that goes through lays its operations over the files. -/
theorem runAll_fileAt {ops : List (FileOp Id)} {fs' : CheckoutTree κ} (hcur : Keeps root fs fs)
    (hsafe : RunSafe rule root fs ops) (h : runAll rule root fs ops = some fs') :
    fs'.fileAt = overlay (fun op => realPath rule root (FileOp.path op)) FileOp.leaves fs.fileAt ops ∧
      ∀ op ∈ ops, op.Verified := by
  induction ops generalizing fs with
  | nil => exact ⟨by rw [Option.some.inj h]; rfl, fun _ hop => absurd hop List.not_mem_nil⟩
  | cons op ops ih =>
      obtain ⟨mid, touched, hrun, hrest⟩ := runAll_cons h
      obtain ⟨hop, hverified⟩ := op_fileAt hcur hsafe.1 hrun
      have hkeeps := (op_contained hcur hsafe.1).2
      rw [hrun] at hkeeps
      obtain ⟨hfiles, hall⟩ := ih hkeeps.self (hsafe.2 mid touched hrun) hrest
      rw [overlay_cons, ← hop]
      exact ⟨hfiles, List.forall_mem_cons.mpr ⟨hverified, hall⟩⟩

end

end Naatre.Client
