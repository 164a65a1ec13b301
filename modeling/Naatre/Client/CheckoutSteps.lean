import Naatre.Client.Checkout
import Naatre.Client.Status
import Naatre.Server.TreeFiles

/-!
One operation on a checkout, and a run of them. A write looks at every component
of its path and refuses a link; a delete does not look. `DeleteSafe` and
`OpSafe` are what keeps an operation below the checkout root and out of
`.naatre` and `.git`, `runOps_contained` says it of a run.
-/

namespace Naatre.Client

open Lib LinkTree

section

variable {κ : Type} [DecidableEq κ] {rule : NameRule κ} {root : List κ}

/-! ### Names -/

/-- A real path below the checkout root and outside its reserved directories. -/
def Contained (rule : NameRule κ) (root p : List κ) : Prop :=
  ∃ k rest, p = root ++ k :: rest ∧ k ∉ rule.reserved

/-- No component is empty, `.` or `..`. -/
def Plain (names : List String) : Prop := ∀ c ∈ names, c ≠ "" ∧ c ≠ "." ∧ c ≠ ".."

/-- The file system does not take the first name for a reserved one. -/
def Unreserved (rule : NameRule κ) (names : List String) : Prop :=
  rule.key (names.headD "") ∉ rule.reserved

instance (names : List String) : Decidable (Unreserved rule names) :=
  inferInstanceAs (Decidable (_ ∉ _))

def NameRule.keys (rule : NameRule κ) (names : List String) : List κ := names.map rule.key

omit [DecidableEq κ] in
theorem hop_plain {c : String} (h : c ≠ "" ∧ c ≠ "." ∧ c ≠ "..") :
    rule.hop c = .into (rule.key c) := by
  rw [NameRule.hop, if_neg (not_or.mpr ⟨h.1, h.2.1⟩), if_neg h.2.2]

omit [DecidableEq κ] in
theorem hops_plain {names : List String} (h : Plain names) :
    rule.hops names = (rule.keys names).map .into := by
  rw [NameRule.hops, NameRule.keys, List.map_map]
  exact List.map_congr_left fun c hc => hop_plain (h c hc)

omit [DecidableEq κ] in
theorem keys_snoc (names : List String) (c : String) :
    rule.keys (names ++ [c]) = rule.keys names ++ [rule.key c] := by
  rw [NameRule.keys, List.map_append, List.map_singleton, NameRule.keys]

omit [DecidableEq κ] in
theorem contained_of_names {names : List String} (hne : names ≠ [])
    (h : Unreserved rule names) : Contained rule root (root ++ rule.keys names) := by
  obtain ⟨c, rest, rfl⟩ := List.exists_cons_of_ne_nil hne
  exact ⟨rule.key c, rule.keys rest, rfl, h⟩

theorem Plain.left {a b : List String} (h : Plain (a ++ b)) : Plain a :=
  fun c hc => h c (List.mem_append_left _ hc)

omit [DecidableEq κ] in
theorem Unreserved.pre {a b : List String} (hne : a ≠ []) (h : Unreserved rule (a ++ b)) :
    Unreserved rule a := by
  obtain ⟨c, rest, rfl⟩ := List.exists_cons_of_ne_nil hne
  exact h

/-! ### Deletes -/

variable {fs : CheckoutTree κ}

theorem prune_contained {parents : List String} (hcur : Keeps root fs fs)
    (hplain : Plain parents.reverse) (hname : Unreserved rule parents.reverse)
    (hfree : fs.LinkFree root (rule.keys parents.reverse)) :
    (∀ p ∈ (prune rule root fs parents).2, Contained rule root p) ∧
      Keeps root fs (prune rule root fs parents).1 := by
  induction parents generalizing fs with
  | nil => exact ⟨fun _ hp => absurd hp List.not_mem_nil, hcur⟩
  | cons d parents ih =>
      rw [List.reverse_cons] at hplain hname hfree
      rw [keys_snoc] at hfree
      rw [prune]
      split
      next => exact ⟨fun _ hp => absurd hp List.not_mem_nil, hcur⟩
      next fs' p hrm =>
        rw [hops_plain hplain.left, hop_plain (hplain d (by simp))] at hrm
        obtain ⟨rfl, hkeeps⟩ := rmdir_linkFree hcur (hfree.take (List.prefix_append _ _)) hrm
        have hhere : Contained rule root (root ++ rule.keys parents.reverse ++ [rule.key d]) := by
          rw [List.append_assoc, ← keys_snoc]
          exact contained_of_names (by simp) hname
        by_cases hparents : parents = []
        · subst hparents
          refine ⟨fun q hq => ?_, hkeeps⟩
          cases List.mem_singleton.mp hq
          exact hhere
        · obtain ⟨hgone, hlast⟩ := ih hkeeps.self hplain.left
            (hname.pre (by simpa using hparents))
            ((hfree.take (List.prefix_append _ _)).mono hkeeps.links)
          refine ⟨fun q hq => ?_, hkeeps.trans hlast⟩
          rcases List.mem_cons.mp hq with rfl | hq
          · exact hhere
          · exact hgone q hq

/-- A delete without a link above it. -/
structure DeleteSafe (rule : NameRule κ) (root : List κ) (fs : CheckoutTree κ) (rel : Path) :
    Prop where
  plain : Plain rel.components
  name : Unreserved rule rel.components
  free : fs.LinkFree root (rule.keys rel.dirs)

theorem DeleteSafe.mono {fs' : CheckoutTree κ} {rel : Path} (h : DeleteSafe rule root fs rel)
    (hkeeps : Keeps root fs fs') : DeleteSafe rule root fs' rel :=
  ⟨h.plain, h.name, h.free.mono hkeeps.links⟩

/-- A safe delete stays in the checkout, and leaves no link at its path. -/
theorem removeAndPrune_contained {rel : Path} (hcur : Keeps root fs fs)
    (hsafe : DeleteSafe rule root fs rel) :
    (∀ p ∈ (removeAndPrune rule root fs rel).1.2, Contained rule root p) ∧
      Keeps root fs (removeAndPrune rule root fs rel).1.1 ∧
      ((removeAndPrune rule root fs rel).2 = none →
        ¬IsLink ((removeAndPrune rule root fs rel).1.1.node (root ++ rule.keys rel.components))) := by
  obtain ⟨hplain, hname, hfree⟩ := hsafe
  have hdirs : Plain rel.dirs := hplain.left
  have hpath : root ++ rule.keys rel.components =
      root ++ rule.keys rel.dirs ++ [rule.key rel.leaf] := by
    rw [Path.components, keys_snoc, List.append_assoc]
  obtain ⟨hgone, hunlinked⟩ := @unlink_gone _ _ _ fs root (rule.keys rel.dirs) (rule.key rel.leaf)
    rule.links hcur hfree
  rw [removeAndPrune, hops_plain hdirs, hop_plain (hplain rel.leaf (by simp [Path.components]))]
  split
  next hnone =>
    refine ⟨fun _ hp => absurd hp List.not_mem_nil, hcur, fun _ => ?_⟩
    rw [hpath]
    exact hgone hnone
  next => exact ⟨fun _ hp => absurd hp List.not_mem_nil, hcur, fun h => by cases h⟩
  next fs' p hunlink =>
    obtain ⟨rfl, hkeeps⟩ := unlink_linkFree hcur hfree hunlink
    have hhere : Contained rule root (root ++ rule.keys rel.dirs ++ [rule.key rel.leaf]) := by
      rw [← hpath]
      exact contained_of_names (by simp [Path.components]) hname
    have hpruned : (∀ p ∈ (prune rule root fs' rel.dirs.reverse).2, Contained rule root p) ∧
        Keeps root fs' (prune rule root fs' rel.dirs.reverse).1 := by
      by_cases hnil : rel.dirs = []
      · rw [hnil]
        exact ⟨fun _ hp => absurd hp List.not_mem_nil, hkeeps.self⟩
      · refine prune_contained hkeeps.self ?_ ?_ ?_
        · rw [List.reverse_reverse]
          exact hdirs
        · rw [List.reverse_reverse]
          exact hname.pre hnil
        · rw [List.reverse_reverse]
          exact hfree.mono hkeeps.links
    refine ⟨fun q hq => ?_, hkeeps.trans hpruned.2, fun _ hlink => ?_⟩
    · rcases List.mem_cons.mp hq with rfl | hq
      · exact hhere
      · exact hpruned.1 q hq
    · rw [hpath] at hlink
      exact hunlinked _ _ hunlink (hpruned.2.links _ hlink)

/-! ### Writes -/

theorem writeCheckoutFile_contained {rel : Path} (hcur : Keeps root fs fs)
    (hplain : Plain rel.components) (hname : Unreserved rule rel.components)
    (hfree : fs.LinkFree root (rule.keys rel.dirs)) (bytes : Bytes) (exec : Bool) :
    (∀ p ∈ (writeCheckoutFile rule root fs rel bytes exec).1.2, Contained rule root p) ∧
      Keeps root fs (writeCheckoutFile rule root fs rel bytes exec).1.1 := by
  have hdirs : Plain rel.dirs := hplain.left
  have hmade : ∀ {fs' made e}, fs.mkdirs rule.links root [] (rule.hops rel.dirs) =
      ((fs', made), e) → (∀ p ∈ made, Contained rule root p) ∧ Keeps root fs fs' := by
    intro fs' made e h
    rw [hops_plain hdirs] at h
    obtain ⟨hmade, hkeeps⟩ := @mkdirs_linkFree _ _ _ fs fs' root rule.links [] (rule.keys rel.dirs)
      hcur hfree made e h
    refine ⟨fun p hp => ?_, hkeeps⟩
    obtain ⟨pre, k, hpre, rfl⟩ := hmade p hp
    rw [List.nil_append, NameRule.keys] at hpre
    obtain ⟨names, hnames, hkeys⟩ := List.prefix_map_iff.mp hpre
    have hne : names ≠ [] := by
      rintro rfl
      simp at hkeys
    rw [List.append_assoc, hkeys]
    obtain ⟨rest, hrest⟩ := hnames
    refine contained_of_names hne (Unreserved.pre (b := rest ++ [rel.leaf]) hne ?_)
    rwa [← List.append_assoc, hrest]
  rw [writeCheckoutFile]
  split
  next st e hmk => exact hmade hmk
  next fs' made hmk =>
    obtain ⟨hdirsMade, hkeeps⟩ := hmade hmk
    split
    next => exact ⟨hdirsMade, hkeeps⟩
    next fs'' p hplace =>
      rw [hops_plain hdirs, hop_plain (hplain rel.leaf (by simp [Path.components]))] at hplace
      obtain ⟨rfl, hlast⟩ := place_linkFree hkeeps.self
        (hfree.mono hkeeps.links) hplace
      refine ⟨fun q hq => ?_, hkeeps.trans hlast⟩
      rcases List.mem_append.mp hq with hq | hq
      · exact hdirsMade q hq
      · cases List.mem_singleton.mp hq
        rw [List.append_assoc, ← keys_snoc]
        exact contained_of_names (by simp) hname

theorem validateComponents_plain {names : List String} {index : ℕ}
    (h : validateComponents names index = .ok ()) : Plain names := by
  induction names generalizing index with
  | nil => exact fun _ hc => absurd hc List.not_mem_nil
  | cons c names ih =>
      rw [validateComponents] at h
      split_ifs at h with hdots hlen hempty
      intro d hd
      rcases List.mem_cons.mp hd with rfl | hd
      · exact ⟨hempty, fun heq => hdots (.inl heq), fun heq => hdots (.inr heq)⟩
      · exact ih h d hd

/-- A path of the grammar has plain components, and none of the reserved names
first. -/
theorem validate_plain {nfc : String → String} {p : Path} (h : p.validate nfc = .ok ()) :
    Plain p.components := by
  simp only [Path.validate] at h
  iterate 5 (split at h; · cases h)
  split at h
  · cases h
  split at h
  · cases h
  next hcomponents => exact validateComponents_plain hcomponents

theorem mem_symlinkComponents {p q : Path} :
    q ∈ symlinkComponents rule root fs p ↔ q.components <+: p.components ∧
      fs.lstatLink rule.links root (rule.hops q.dirs) (rule.hop q.leaf) = true := by
  rw [symlinkComponents, List.mem_filter, and_congr_left_iff]
  intro _
  rw [List.mem_map]
  constructor
  · rintro ⟨i, hi, rfl⟩
    have hlt : i < p.components.length := List.mem_range.mp hi
    show p.components.take i ++ [p.components.getD i ""] <+: p.components
    rw [List.getD_eq_getElem?_getD, List.getElem?_eq_getElem hlt, Option.getD_some,
      List.take_concat_get' _ _ hlt]
    exact List.take_prefix _ _
  · rintro ⟨rest, hrest⟩
    have hcomponents : q.dirs ++ q.leaf :: rest = p.components := by
      rw [← hrest, Path.components, List.append_assoc, List.singleton_append]
    refine ⟨q.dirs.length, ?_, ?_⟩
    · rw [List.mem_range, ← hcomponents, List.length_append, List.length_cons]
      omega
    · rw [← hcomponents, List.take_left, List.getD_eq_getElem?_getD,
        List.getElem?_append_right (Nat.le_refl _), Nat.sub_self]
      rfl

/-- A path whose components `lstat` finds no link among. -/
theorem linkFree_of_components {p : Path} (hcur : Keeps root fs fs) (hplain : Plain p.components)
    (h : symlinkComponents rule root fs p = []) :
    fs.LinkFree root (rule.keys p.components) := by
  refine @linkFree_of_lstat _ _ _ fs root (rule.keys p.components) rule.links hcur.rooted
    fun pre k hpre => ?_
  obtain ⟨names, hnames, hkeys⟩ := List.prefix_map_iff.mp hpre
  obtain ⟨dirs, leaf, rfl⟩ : ∃ dirs leaf, names = dirs ++ [leaf] := by
    have hne : names ≠ [] := by
      rintro rfl
      simp at hkeys
    exact ⟨names.dropLast, names.getLast hne, (List.dropLast_append_getLast hne).symm⟩
  rw [List.map_append, List.map_singleton] at hkeys
  obtain ⟨hdirs, hleaf⟩ := List.append_inj' hkeys rfl
  cases hleaf
  have hq : Plain (dirs ++ [leaf]) := fun c hc => hplain c (hnames.subset hc)
  rw [← Bool.not_eq_true]
  intro hlink
  have hmem : (⟨dirs, leaf⟩ : Path) ∈ symlinkComponents rule root fs p := by
    refine mem_symlinkComponents.mpr ⟨hnames, ?_⟩
    rw [hops_plain hq.left, hop_plain (hq leaf (by simp)), NameRule.keys, ← hdirs]
    exact hlink
  rw [h] at hmem
  cases hmem

variable {Id : Type} [Platform Id]

theorem materialize_contained {file : TreeFile Id} (hcur : Keeps root fs fs)
    (hname : Unreserved rule file.path.components) (bytes : Bytes) :
    (∀ p ∈ (materialize rule root fs file bytes).1.2, Contained rule root p) ∧
      Keeps root fs (materialize rule root fs file bytes).1.1 := by
  have hnone : (∀ p ∈ ([] : Touched κ), Contained rule root p) ∧ Keeps root fs fs :=
    ⟨fun _ hp => absurd hp List.not_mem_nil, hcur⟩
  rw [materialize]
  split
  next => exact hnone
  next hvalid =>
    split_ifs with hverify hlinks
    · exact hnone
    · exact hnone
    · have hplain := validate_plain hvalid
      have hempty : symlinkComponents rule root fs file.path = [] := by
        rw [Bool.not_eq_true', Bool.not_eq_false, List.isEmpty_iff] at hlinks
        exact hlinks
      have hfree := linkFree_of_components hcur hplain hempty
      have hdirs : fs.LinkFree root (rule.keys file.path.dirs) := by
        rw [Path.components, keys_snoc] at hfree
        exact hfree.take (List.prefix_append _ _)
      exact writeCheckoutFile_contained hcur hplain hname hdirs bytes file.exec

/-! ### Runs -/

/-- What keeps one operation in the checkout. -/
def OpSafe (rule : NameRule κ) (root : List κ) (fs : CheckoutTree κ) : FileOp Id → Prop
  | .remove rel => DeleteSafe rule root fs rel
  | .materialize file _ => Unreserved rule file.path.components

omit [Platform Id] in
theorem OpSafe.mono {fs' : CheckoutTree κ} {op : FileOp Id} (h : OpSafe rule root fs op)
    (hkeeps : Keeps root fs fs') : OpSafe rule root fs' op := by
  cases op with
  | remove rel => exact DeleteSafe.mono h hkeeps
  | materialize file bytes => exact h

theorem op_contained {op : FileOp Id} (hcur : Keeps root fs fs) (hsafe : OpSafe rule root fs op) :
    (∀ p ∈ (op.run rule root fs).1.2, Contained rule root p) ∧
      Keeps root fs (op.run rule root fs).1.1 := by
  cases op with
  | remove rel =>
      obtain ⟨hcontained, hkeeps, -⟩ := removeAndPrune_contained hcur hsafe
      exact ⟨hcontained, hkeeps⟩
  | materialize file bytes => exact materialize_contained hcur hsafe bytes

/-- Every operation is safe in the state it meets. -/
def RunSafe (rule : NameRule κ) (root : List κ) : CheckoutTree κ → List (FileOp Id) → Prop
  | _, [] => True
  | fs, op :: ops => OpSafe rule root fs op ∧
      ∀ fs' touched, op.run rule root fs = ((fs', touched), true) → RunSafe rule root fs' ops

theorem runOps_contained {ops : List (FileOp Id)} (hcur : Keeps root fs fs)
    (h : RunSafe rule root fs ops) :
    ∀ p ∈ (runOps rule root fs ops).2, Contained rule root p := by
  induction ops generalizing fs with
  | nil => exact fun _ hp => absurd hp List.not_mem_nil
  | cons op ops ih =>
      obtain ⟨hop, hrest⟩ := h
      obtain ⟨hhere, hkeeps⟩ := op_contained hcur hop
      rw [runOps]
      split
      next st hrun =>
        rw [hrun] at hhere
        exact hhere
      next fs' touched hrun =>
        rw [hrun] at hhere hkeeps
        intro p hp
        rcases List.mem_append.mp hp with hp | hp
        · exact hhere p hp
        · exact ih hkeeps.self (hrest fs' touched hrun) p hp

/-- Operations that are safe from the start stay so. -/
theorem runSafe_of_forall {ops : List (FileOp Id)} (hcur : Keeps root fs fs)
    (h : ∀ op ∈ ops, OpSafe rule root fs op) : RunSafe rule root fs ops := by
  induction ops generalizing fs with
  | nil => trivial
  | cons op ops ih =>
      refine ⟨h op List.mem_cons_self, fun fs' touched hrun => ?_⟩
      obtain ⟨-, hkeeps⟩ := op_contained hcur (h op List.mem_cons_self)
      rw [hrun] at hkeeps
      exact ih hkeeps.self fun op' hop' => (h op' (List.mem_cons_of_mem _ hop')).mono hkeeps

theorem RunSafe.append {ops ops' : List (FileOp Id)} (hcur : Keeps root fs fs)
    (h : RunSafe rule root fs ops)
    (h' : ∀ fs', Keeps root fs fs' → RunSafe rule root fs' ops') :
    RunSafe rule root fs (ops ++ ops') := by
  induction ops generalizing fs with
  | nil => exact h' fs hcur
  | cons op ops ih =>
      refine ⟨h.1, fun fs' touched hrun => ?_⟩
      obtain ⟨-, hkeeps⟩ := op_contained hcur h.1
      rw [hrun] at hkeeps
      exact ih hkeeps.self (h.2 fs' touched hrun) fun fs'' hlast => h' fs'' (hkeeps.trans hlast)

theorem RunSafe.take {ops : List (FileOp Id)} (h : RunSafe rule root fs ops) (n : ℕ) :
    RunSafe rule root fs (ops.take n) := by
  induction ops generalizing fs n with
  | nil =>
      rw [List.take_nil]
      trivial
  | cons op ops ih =>
      cases n with
      | zero => trivial
      | succ n => exact ⟨h.1, fun fs' touched hrun => ih (h.2 fs' touched hrun) n⟩

end

end Naatre.Client
