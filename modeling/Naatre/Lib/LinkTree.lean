import Mathlib.Data.List.Basic
import Mathlib.Data.List.Infix
import Naatre.Lib.Table

/-!
A file system with symbolic links, as a table of real paths.

A name is kept as what the file system compares of it, so names that it takes
for one another are one key. A real path goes through directories alone;
`resolve` follows the links of a path to its real one. Where no link stands on
the way, a path is its own real path (`resolve_linkFree`).
-/

namespace Naatre.Lib

/-- One step of a path. -/
inductive Hop (κ : Type*)
  | here
  | up
  | into (name : κ)
  deriving DecidableEq

inductive LinkNode (κ α : Type*)
  | dir
  | file (content : α)
  | link (absolute : Bool) (target : List (Hop κ))
  deriving DecidableEq

/-- Why a call fails: nothing is there, or something else. -/
inductive Errno
  | notFound
  | other
  deriving DecidableEq, Repr

/-- What stands at each real path; the empty path is the root. -/
abbrev LinkTree (κ α : Type*) := List (List κ × LinkNode κ α)

namespace LinkTree

variable {κ α : Type*} [DecidableEq κ]

def node (t : LinkTree κ α) (p : List κ) : Option (LinkNode κ α) :=
  if p = [] then some .dir else t.lookup p

def put (t : LinkTree κ α) (p : List κ) (n : LinkNode κ α) : LinkTree κ α :=
  (p, n) :: t.filter fun e => decide (e.1 ≠ p)

def erase (t : LinkTree κ α) (p : List κ) : LinkTree κ α := t.filter fun e => decide (e.1 ≠ p)

def hasEntries (t : LinkTree κ α) (p : List κ) : Bool :=
  t.any fun e => p.isPrefixOf e.1 && decide (p.length < e.1.length)

/-! ### Calls -/

/-- A walk through the directories; `follow` goes on where a link leads. -/
def resolveFrom (t : LinkTree κ α) (follow : List κ → List (Hop κ) → Except Errno (List κ)) :
    List κ → List (Hop κ) → Except Errno (List κ)
  | cur, [] => .ok cur
  | cur, .here :: hops => resolveFrom t follow cur hops
  | cur, .up :: hops => resolveFrom t follow cur.dropLast hops
  | cur, .into k :: hops =>
      match t.node (cur ++ [k]) with
      | none => .error .notFound
      | some .dir => resolveFrom t follow (cur ++ [k]) hops
      | some (.file _) => .error .other
      | some (.link absolute target) => follow (if absolute then [] else cur) (target ++ hops)

/-- The real path of a directory, through at most so many links. -/
def resolve (t : LinkTree κ α) : ℕ → List κ → List (Hop κ) → Except Errno (List κ)
  | 0 => resolveFrom t fun _ _ => .error .other
  | n + 1 => resolveFrom t (resolve t n)

/-- `lstat` finds a link. -/
def lstatLink (t : LinkTree κ α) (n : ℕ) (cur : List κ) (dirs : List (Hop κ)) : Hop κ → Bool
  | .into k =>
      match t.resolve n cur dirs with
      | .error _ => false
      | .ok d =>
          match t.node (d ++ [k]) with
          | some (.link _ _) => true
          | _ => false
  | _ => false

/-- `unlink`, with the real path that is gone. -/
def unlink (t : LinkTree κ α) (n : ℕ) (cur : List κ) (dirs : List (Hop κ)) :
    Hop κ → Except Errno (LinkTree κ α × List κ)
  | .into k =>
      match t.resolve n cur dirs with
      | .error e => .error e
      | .ok d =>
          match t.node (d ++ [k]) with
          | none => .error .notFound
          | some .dir => .error .other
          | some _ => .ok (t.erase (d ++ [k]), d ++ [k])
  | _ => .error .other

/-- `rmdir`. -/
def rmdir (t : LinkTree κ α) (n : ℕ) (cur : List κ) (dirs : List (Hop κ)) :
    Hop κ → Except Errno (LinkTree κ α × List κ)
  | .into k =>
      match t.resolve n cur dirs with
      | .error e => .error e
      | .ok d =>
          match t.node (d ++ [k]) with
          | none => .error .notFound
          | some .dir =>
              if t.hasEntries (d ++ [k]) then .error .other
              else .ok (t.erase (d ++ [k]), d ++ [k])
          | some _ => .error .other
  | _ => .error .other

/-- `mkdir`. -/
def mkdir (t : LinkTree κ α) (n : ℕ) (cur : List κ) (dirs : List (Hop κ)) :
    Hop κ → Except Errno (LinkTree κ α × List κ)
  | .into k =>
      match t.resolve n cur dirs with
      | .error e => .error e
      | .ok d =>
          match t.node (d ++ [k]) with
          | none => .ok (t.put (d ++ [k]) .dir, d ++ [k])
          | some _ => .error .other
  | _ => .error .other

/-- A `rename` of a new file onto the path: a link there is replaced. -/
def place (t : LinkTree κ α) (n : ℕ) (cur : List κ) (dirs : List (Hop κ)) (content : α) :
    Hop κ → Except Errno (LinkTree κ α × List κ)
  | .into k =>
      match t.resolve n cur dirs with
      | .error e => .error e
      | .ok d =>
          match t.node (d ++ [k]) with
          | some .dir => .error .other
          | _ => .ok (t.put (d ++ [k]) (.file content), d ++ [k])
  | _ => .error .other

/-- Makes the missing directories of a path, from the first on, with those it
made. -/
def mkdirs (t : LinkTree κ α) (n : ℕ) (cur : List κ) :
    List (Hop κ) → List (Hop κ) → (LinkTree κ α × List (List κ)) × Option Errno
  | _, [] => ((t, []), none)
  | done, h :: hops =>
      match t.resolve n cur (done ++ [h]) with
      | .ok _ => mkdirs t n cur (done ++ [h]) hops
      | .error _ =>
          match t.mkdir n cur done h with
          | .error e => ((t, []), some e)
          | .ok (t', p) =>
              let ((t'', made), e) := mkdirs t' n cur (done ++ [h]) hops
              ((t'', p :: made), e)

/-! ### Nodes -/

@[simp] theorem node_nil (t : LinkTree κ α) : t.node [] = some .dir := if_pos rfl

theorem lookup_filter_ne (t : LinkTree κ α) (p q : List κ) :
    List.lookup q (t.filter fun e => decide (e.1 ≠ p)) = if q = p then none else t.lookup q := by
  induction t with
  | nil => simp
  | cons e t ih =>
      rw [List.filter_cons]
      by_cases hp : e.1 = p
      · rw [if_neg (by simpa using hp), ih, List.lookup_cons]
        by_cases hq : q = p
        · rw [if_pos hq, if_pos hq]
        · rw [if_neg hq, if_neg hq, hp, beq_false_of_ne hq]
      · rw [if_pos (by simpa using hp), List.lookup_cons, List.lookup_cons, ih]
        by_cases hq : q = p
        · rw [hq, beq_false_of_ne (Ne.symm hp), if_pos rfl]
        · rw [if_neg hq, if_neg hq]

theorem node_put (t : LinkTree κ α) {p : List κ} (hp : p ≠ []) (n : LinkNode κ α) (q : List κ) :
    (t.put p n).node q = if q = p then some n else t.node q := by
  unfold node put
  by_cases hq : q = p
  · subst hq
    simp [hp]
  · rw [if_neg hq, List.lookup_cons, beq_false_of_ne hq, lookup_filter_ne, if_neg hq]

theorem node_erase (t : LinkTree κ α) {p : List κ} (hp : p ≠ []) (q : List κ) :
    (t.erase p).node q = if q = p then none else t.node q := by
  unfold node erase
  by_cases hq : q = p
  · subst hq
    rw [if_neg hp, if_pos rfl, lookup_filter_ne, if_pos rfl]
  · rw [if_neg hq, lookup_filter_ne, if_neg hq]

/-- What stands is below directories alone. -/
def Rooted (t : LinkTree κ α) : Prop := ∀ p k, t.node (p ++ [k]) ≠ none → t.node p = some .dir

theorem Rooted.above {t : LinkTree κ α} (h : t.Rooted) {p q : List κ} (hq : q ≠ [])
    (hnode : t.node (p ++ q) ≠ none) : t.node p = some .dir := by
  induction q using List.reverseRecOn with
  | nil => exact absurd rfl hq
  | append_singleton q k ih =>
      rw [← List.append_assoc] at hnode
      have hdir := h _ _ hnode
      by_cases hq' : q = []
      · rw [hq', List.append_nil] at hdir
        exact hdir
      · exact ih hq' (by rw [hdir]; exact Option.some_ne_none _)

/-- A table each of whose entries has its directory in it. -/
theorem rooted_of_entries {t : LinkTree κ α} (h : ∀ e ∈ t, t.node e.1.dropLast = some .dir) :
    t.Rooted := by
  intro p k hnode
  rw [node, if_neg (by simp)] at hnode
  obtain ⟨n, hn⟩ := Option.ne_none_iff_exists'.mp hnode
  have hdir := h (p ++ [k], n) (mem_of_lookup hn)
  rw [List.dropLast_concat] at hdir
  exact hdir

theorem Rooted.dropLast {t : LinkTree κ α} (h : t.Rooted) {p : List κ}
    (hp : t.node p = some .dir) : t.node p.dropLast = some .dir := by
  cases p using List.reverseRecOn with
  | nil => exact hp
  | append_singleton p k =>
      rw [List.dropLast_concat]
      exact h p k (by rw [hp]; exact Option.some_ne_none _)

def IsLink (n : Option (LinkNode κ α)) : Prop := ∃ absolute target, n = some (.link absolute target)

/-- `t'` has no link that `t` has not. -/
def NoNewLinks (t t' : LinkTree κ α) : Prop := ∀ p, IsLink (t'.node p) → IsLink (t.node p)

/-- No link stands at `cur`'s descendants on the way down `ks`. -/
def LinkFree (t : LinkTree κ α) (cur ks : List κ) : Prop :=
  ∀ pre, pre ≠ [] → pre <+: ks → ¬IsLink (t.node (cur ++ pre))

theorem LinkFree.mono {t t' : LinkTree κ α} {cur ks : List κ} (h : t.LinkFree cur ks)
    (hlinks : NoNewLinks t t') : t'.LinkFree cur ks :=
  fun pre hne hpre hlink => h pre hne hpre (hlinks _ hlink)

theorem LinkFree.take {t : LinkTree κ α} {cur ks ks' : List κ} (h : t.LinkFree cur ks')
    (hpre : ks <+: ks') : t.LinkFree cur ks :=
  fun pre hne hks => h pre hne (hks.trans hpre)

theorem LinkFree.tail {t : LinkTree κ α} {cur ks : List κ} {k : κ} (h : t.LinkFree cur (k :: ks)) :
    t.LinkFree (cur ++ [k]) ks := by
  intro pre hne hpre
  rw [List.append_assoc, List.singleton_append]
  exact h (k :: pre) (List.cons_ne_nil _ _) (List.cons_prefix_cons.mpr ⟨rfl, hpre⟩)

/-! ### Real paths -/

section

variable {t : LinkTree κ α} {cur ks d : List κ} {n : ℕ}

theorem resolve_eq (t : LinkTree κ α) (n : ℕ) :
    ∃ follow, t.resolve n = t.resolveFrom follow := by
  cases n with
  | zero => exact ⟨_, rfl⟩
  | succ n => exact ⟨_, rfl⟩

theorem resolveFrom_linkFree {follow : List κ → List (Hop κ) → Except Errno (List κ)}
    (h : t.LinkFree cur ks) (hd : t.resolveFrom follow cur (ks.map .into) = .ok d) :
    d = cur ++ ks := by
  induction ks generalizing cur with
  | nil =>
      cases hd
      exact (List.append_nil _).symm
  | cons k ks ih =>
      rw [List.map_cons, resolveFrom] at hd
      split at hd
      next => cases hd
      next =>
        rw [ih h.tail hd, List.append_assoc, List.singleton_append]
      next => cases hd
      next absolute target hlink =>
        exact absurd ⟨absolute, target, hlink⟩
          (h [k] (List.cons_ne_nil _ _) (List.cons_prefix_cons.mpr ⟨rfl, List.nil_prefix⟩))

/-- A path without a link is its own real path. -/
theorem resolve_linkFree (h : t.LinkFree cur ks)
    (hd : t.resolve n cur (ks.map .into) = .ok d) : d = cur ++ ks := by
  obtain ⟨follow, hfollow⟩ := resolve_eq t n
  rw [hfollow] at hd
  exact resolveFrom_linkFree h hd

/-- A path of directories is followed. -/
theorem resolve_dirs (h : ∀ pre, pre ≠ [] → pre <+: ks → t.node (cur ++ pre) = some .dir) :
    t.resolve n cur (ks.map .into) = .ok (cur ++ ks) := by
  obtain ⟨follow, hfollow⟩ := resolve_eq t n
  rw [hfollow]
  induction ks generalizing cur with
  | nil => exact congrArg Except.ok (List.append_nil _).symm
  | cons k ks ih =>
      have hk : t.node (cur ++ [k]) = some .dir :=
        h [k] (List.cons_ne_nil _ _) (List.cons_prefix_cons.mpr ⟨rfl, List.nil_prefix⟩)
      rw [List.map_cons, resolveFrom, hk]
      dsimp only
      rw [ih, List.append_assoc, List.singleton_append]
      intro pre hne hpre
      rw [List.append_assoc, List.singleton_append]
      exact h (k :: pre) (List.cons_ne_nil _ _) (List.cons_prefix_cons.mpr ⟨rfl, hpre⟩)

/-- A link on the way is one that `lstat` finds. -/
theorem linkFree_of_lstat (hrooted : t.Rooted)
    (h : ∀ pre k, pre ++ [k] <+: ks → t.lstatLink n cur (pre.map .into) (.into k) = false) :
    t.LinkFree cur ks := by
  intro pre hne hpre hlink
  induction pre using List.reverseRecOn with
  | nil => exact hne rfl
  | append_singleton pre k _ =>
      obtain ⟨absolute, target, hnode⟩ := hlink
      have hdirs : t.resolve n cur (pre.map .into) = .ok (cur ++ pre) := by
        refine resolve_dirs fun pre' _ hpre' => ?_
        obtain ⟨rest, rfl⟩ := hpre'
        have hne : rest ++ [k] ≠ [] := by simp
        refine hrooted.above hne ?_
        rw [← List.append_assoc] at hnode
        simp only [List.append_assoc] at hnode ⊢
        rw [hnode]
        exact Option.some_ne_none _
      have hstat := h pre k hpre
      rw [← List.append_assoc] at hnode
      simp only [lstatLink, hdirs, hnode] at hstat
      cases hstat

theorem resolveFrom_dir {follow : List κ → List (Hop κ) → Except Errno (List κ)}
    (hrooted : t.Rooted) (hfollow : ∀ cur hops d, t.node cur = some .dir →
      follow cur hops = .ok d → t.node d = some .dir) {hops : List (Hop κ)}
    (hcur : t.node cur = some .dir) (hd : t.resolveFrom follow cur hops = .ok d) :
    t.node d = some .dir := by
  induction hops generalizing cur with
  | nil =>
      cases hd
      exact hcur
  | cons h hops ih =>
      cases h with
      | here => exact ih hcur hd
      | up => exact ih (hrooted.dropLast hcur) hd
      | into k =>
          rw [resolveFrom] at hd
          split at hd
          next => cases hd
          next hdir => exact ih hdir hd
          next => cases hd
          next absolute target _ =>
            refine hfollow _ _ _ ?_ hd
            split
            · exact node_nil t
            · exact hcur

/-- What a path is followed to is a directory. -/
theorem resolve_dir (hrooted : t.Rooted) {hops : List (Hop κ)} (hcur : t.node cur = some .dir)
    (hd : t.resolve n cur hops = .ok d) : t.node d = some .dir := by
  induction n generalizing cur hops d with
  | zero =>
      refine resolveFrom_dir hrooted (fun _ _ _ _ h => ?_) hcur hd
      cases h
  | succ n ih => exact resolveFrom_dir hrooted (fun _ _ _ hcur h => ih hcur h) hcur hd

end

/-! ### What the calls leave -/

/-- `t` with a directory at `cur` became `t'`: the directory is there still, and
no link is new. -/
structure Keeps (cur : List κ) (t t' : LinkTree κ α) : Prop where
  rooted : t'.Rooted
  dir : t'.node cur = some .dir
  links : NoNewLinks t t'

section

variable {t t' t'' : LinkTree κ α} {cur ks p d : List κ} {k : κ} {n : ℕ}

theorem Keeps.refl (h : t.Rooted) (hcur : t.node cur = some .dir) : Keeps cur t t :=
  ⟨h, hcur, fun _ hlink => hlink⟩

theorem Keeps.self (h : Keeps cur t t') : Keeps cur t' t' := .refl h.rooted h.dir

theorem Keeps.trans (h : Keeps cur t t') (h' : Keeps cur t' t'') : Keeps cur t t'' :=
  ⟨h'.rooted, h'.dir, fun p hlink => h.links p (h'.links p hlink)⟩

theorem keeps_erase (h : Keeps cur t t) (hp : cur.length < p.length)
    (hleaf : ∀ k, t.node (p ++ [k]) = none) : Keeps cur t (t.erase p) where
  rooted := by
    have hne : p ≠ [] := List.ne_nil_of_length_pos (Nat.zero_lt_of_lt hp)
    intro q k hnode
    rw [node_erase t hne] at hnode
    split at hnode
    next => exact absurd rfl hnode
    next =>
      rw [node_erase t hne, if_neg]
      · exact h.rooted q k hnode
      · rintro rfl
        exact hnode (hleaf k)
  dir := by
    rw [node_erase t (List.ne_nil_of_length_pos (Nat.zero_lt_of_lt hp)), if_neg]
    · exact h.dir
    · rintro rfl
      exact lt_irrefl _ hp
  links := by
    rintro q ⟨absolute, target, hlink⟩
    rw [node_erase t (List.ne_nil_of_length_pos (Nat.zero_lt_of_lt hp))] at hlink
    split at hlink
    next => cases hlink
    next => exact ⟨absolute, target, hlink⟩

theorem keeps_put (h : Keeps cur t t) (hd : t.node d = some .dir)
    (hnot : t.node (d ++ [k]) ≠ some .dir) {new : LinkNode κ α} (hnew : ¬IsLink (some new)) :
    Keeps cur t (t.put (d ++ [k]) new) where
  rooted := by
    intro q j hnode
    rw [node_put t (by simp)] at hnode ⊢
    by_cases hq : q = d ++ [k]
    · -- nothing stands below what was no directory
      refine absurd (h.rooted q j ?_) (hq ▸ hnot)
      rwa [if_neg] at hnode
      intro heq
      rw [hq] at heq
      have hlen := congrArg List.length heq
      simp at hlen
    · rw [if_neg hq]
      split at hnode
      next heq =>
        obtain ⟨hqd, -⟩ := List.append_inj' heq rfl
        rw [hqd]
        exact hd
      next => exact h.rooted q j hnode
  dir := by
    rw [node_put t (by simp), if_neg]
    · exact h.dir
    · rintro rfl
      exact hnot h.dir
  links := by
    rintro q ⟨absolute, target, hlink⟩
    rw [node_put t (by simp)] at hlink
    split at hlink
    next => exact absurd ⟨absolute, target, hlink⟩ hnew
    next => exact ⟨absolute, target, hlink⟩

theorem leaf_of_not_dir (h : t.Rooted) (hp : t.node p ≠ some .dir) (k : κ) :
    t.node (p ++ [k]) = none := by
  by_contra hne
  exact hp (h p k hne)

theorem leaf_of_no_entries (hp : t.hasEntries p = false) (k : κ) : t.node (p ++ [k]) = none := by
  by_contra hne
  rw [node, if_neg (by simp)] at hne
  obtain ⟨found, hfound⟩ := Option.ne_none_iff_exists'.mp hne
  have hmem : (p ++ [k], found) ∈ t := mem_of_lookup hfound
  have hnone := List.any_eq_false.mp hp _ hmem
  simp at hnone

omit [DecidableEq κ] in
theorem length_lt_below (cur ks : List κ) (k : κ) : cur.length < (cur ++ ks ++ [k]).length := by
  simp only [List.length_append, List.length_singleton]
  omega

/-- The calls on a path without a link on the way act at that path. -/
theorem unlink_linkFree (hcur : Keeps cur t t) (hfree : t.LinkFree cur ks)
    (h : t.unlink n cur (ks.map .into) (.into k) = .ok (t', p)) :
    p = cur ++ ks ++ [k] ∧ Keeps cur t t' := by
  rw [unlink] at h
  split at h
  next => cases h
  next d hd =>
    cases resolve_linkFree hfree hd
    split at h
    next => cases h
    next => cases h
    next found hdir hfound =>
      cases h
      refine ⟨rfl, keeps_erase hcur (length_lt_below ..) (leaf_of_not_dir hcur.rooted ?_)⟩
      rw [hfound]
      exact fun heq => hdir (Option.some.inj heq)

/-- What was there to unlink is no link any more. -/
theorem unlink_gone (hcur : Keeps cur t t) (hfree : t.LinkFree cur ks) :
    (t.unlink n cur (ks.map .into) (.into k) = .error .notFound →
      ¬IsLink (t.node (cur ++ ks ++ [k]))) ∧
    ∀ t' p, t.unlink n cur (ks.map .into) (.into k) = .ok (t', p) →
      ¬IsLink (t'.node (cur ++ ks ++ [k])) := by
  have hdirs : t.node (cur ++ ks ++ [k]) ≠ none →
      t.resolve n cur (ks.map .into) = .ok (cur ++ ks) := by
    intro hnode
    refine resolve_dirs fun pre _ hpre => ?_
    obtain ⟨rest, rfl⟩ := hpre
    have hne : rest ++ [k] ≠ [] := by simp
    refine hcur.rooted.above hne ?_
    simpa only [List.append_assoc] using hnode
  refine ⟨fun h hlink => ?_, fun t' p h => ?_⟩
  · have hnode : t.node (cur ++ ks ++ [k]) ≠ none := by
      obtain ⟨absolute, target, hlink⟩ := hlink
      rw [hlink]
      exact Option.some_ne_none _
    rw [unlink, hdirs hnode] at h
    dsimp only at h
    split at h
    next hnone => exact hnode hnone
    next => cases h
    next => cases h
  · obtain ⟨rfl, -⟩ := unlink_linkFree hcur hfree h
    rw [unlink] at h
    split at h
    next => cases h
    next d hd =>
      cases resolve_linkFree hfree hd
      split at h
      next => cases h
      next => cases h
      next =>
        cases h
        rw [node_erase t (by simp), if_pos rfl]
        rintro ⟨_, _, hnone⟩
        cases hnone

theorem rmdir_linkFree (hcur : Keeps cur t t) (hfree : t.LinkFree cur ks)
    (h : t.rmdir n cur (ks.map .into) (.into k) = .ok (t', p)) :
    p = cur ++ ks ++ [k] ∧ Keeps cur t t' := by
  rw [rmdir] at h
  split at h
  next => cases h
  next d hd =>
    cases resolve_linkFree hfree hd
    split at h
    next => cases h
    next =>
      split at h
      next => cases h
      next hempty =>
        cases h
        exact ⟨rfl, keeps_erase hcur (length_lt_below ..)
          (leaf_of_no_entries (Bool.eq_false_iff.mpr hempty))⟩
    next => cases h

theorem mkdir_linkFree (hcur : Keeps cur t t) (hfree : t.LinkFree cur ks)
    (h : t.mkdir n cur (ks.map .into) (.into k) = .ok (t', p)) :
    p = cur ++ ks ++ [k] ∧ Keeps cur t t' := by
  rw [mkdir] at h
  split at h
  next => cases h
  next d hd =>
    have hdir := resolve_dir hcur.rooted hcur.dir hd
    cases resolve_linkFree hfree hd
    split at h
    next hnone =>
      cases h
      refine ⟨rfl, keeps_put hcur hdir (by rw [hnone]; exact nofun) ?_⟩
      rintro ⟨_, _, heq⟩
      cases heq
    next => cases h

theorem place_linkFree (hcur : Keeps cur t t) (hfree : t.LinkFree cur ks) {content : α}
    (h : t.place n cur (ks.map .into) content (.into k) = .ok (t', p)) :
    p = cur ++ ks ++ [k] ∧ Keeps cur t t' := by
  rw [place] at h
  split at h
  next => cases h
  next d hd =>
    have hdir := resolve_dir hcur.rooted hcur.dir hd
    cases resolve_linkFree hfree hd
    split at h
    next => cases h
    next hnot =>
      cases h
      refine ⟨rfl, keeps_put hcur hdir hnot ?_⟩
      rintro ⟨_, _, heq⟩
      cases heq

/-- The directories made on the way down a path without a link are its own. -/
theorem mkdirs_linkFree {done todo : List κ} (hcur : Keeps cur t t)
    (hfree : t.LinkFree cur (done ++ todo)) {made : List (List κ)} {e : Option Errno}
    (h : t.mkdirs n cur (done.map .into) (todo.map .into) = ((t', made), e)) :
    (∀ p ∈ made, ∃ pre k, pre ++ [k] <+: done ++ todo ∧ p = cur ++ pre ++ [k]) ∧
      Keeps cur t t' := by
  induction todo generalizing t made done with
  | nil =>
      cases h
      exact ⟨fun _ hp => absurd hp List.not_mem_nil, hcur⟩
  | cons k todo ih =>
      have happend : done ++ k :: todo = (done ++ [k]) ++ todo := by
        rw [List.append_assoc, List.singleton_append]
      have hhops : done.map Hop.into ++ [.into k] = (done ++ [k]).map Hop.into := by
        rw [List.map_append, List.map_singleton]
      rw [List.map_cons, mkdirs] at h
      split at h
      next =>
        rw [hhops] at h
        rw [happend] at hfree ⊢
        exact ih hcur hfree h
      next =>
        split at h
        next =>
          cases h
          exact ⟨fun _ hp => absurd hp List.not_mem_nil, hcur⟩
        next t₁ p hmk =>
          obtain ⟨rfl, hkeeps⟩ := mkdir_linkFree hcur (hfree.take (List.prefix_append _ _)) hmk
          rw [hhops] at h
          cases hrest : t₁.mkdirs n cur ((done ++ [k]).map .into) (todo.map .into) with
          | mk st e' =>
              obtain ⟨t₂, made'⟩ := st
              rw [hrest] at h
              cases h
              rw [happend] at hfree ⊢
              obtain ⟨hmade, hlast⟩ := ih hkeeps.self
                (hfree.mono hkeeps.links) hrest
              refine ⟨fun q hq => ?_, hkeeps.trans hlast⟩
              rcases List.mem_cons.mp hq with rfl | hq
              · exact ⟨done, k, List.prefix_append _ _, rfl⟩
              · exact hmade q hq

end

/-! ### What becomes of the files -/

/-- The content of the file at a real path. -/
def fileAt (t : LinkTree κ α) (p : List κ) : Option α :=
  match t.node p with
  | some (.file content) => some content
  | _ => none

section

variable {t t' : LinkTree κ α} {cur ks p : List κ} {k : κ} {n : ℕ}

theorem fileAt_erase (t : LinkTree κ α) (hp : p ≠ []) :
    (t.erase p).fileAt = Function.update t.fileAt p none := by
  funext q
  unfold fileAt
  rw [node_erase t hp]
  by_cases hq : q = p
  · rw [hq, if_pos rfl, Function.update_self]
  · rw [if_neg hq, Function.update_of_ne hq]

theorem fileAt_put_file (t : LinkTree κ α) (hp : p ≠ []) (content : α) :
    (t.put p (.file content)).fileAt = Function.update t.fileAt p (some content) := by
  funext q
  unfold fileAt
  rw [node_put t hp]
  by_cases hq : q = p
  · rw [hq, if_pos rfl, Function.update_self]
  · rw [if_neg hq, Function.update_of_ne hq]

theorem fileAt_put_dir (hp : p ≠ []) (hnone : t.node p = none) :
    (t.put p .dir).fileAt = t.fileAt := by
  funext q
  unfold fileAt
  rw [node_put t hp]
  by_cases hq : q = p
  · rw [hq, if_pos rfl, hnone]
  · rw [if_neg hq]

theorem fileAt_of_not_file (hp : ∀ content, t.node p ≠ some (.file content)) :
    t.fileAt p = none := by
  unfold fileAt
  split
  next content hfile => exact absurd hfile (hp content)
  next => rfl

/-- Above what stands are directories. -/
theorem resolve_above (hcur : Keeps cur t t) (hnode : t.node (cur ++ ks ++ [k]) ≠ none) :
    t.resolve n cur (ks.map .into) = .ok (cur ++ ks) := by
  refine resolve_dirs fun pre _ hpre => ?_
  obtain ⟨rest, rfl⟩ := hpre
  have hne : rest ++ [k] ≠ [] := by simp
  refine hcur.rooted.above hne ?_
  simpa only [List.append_assoc] using hnode

theorem fileAt_unlink (hfree : t.LinkFree cur ks)
    (h : t.unlink n cur (ks.map .into) (.into k) = .ok (t', p)) :
    t'.fileAt = Function.update t.fileAt (cur ++ ks ++ [k]) none := by
  rw [unlink] at h
  split at h
  next => cases h
  next d hd =>
    cases resolve_linkFree hfree hd
    split at h
    next => cases h
    next => cases h
    next =>
      cases h
      exact fileAt_erase t (by simp)

/-- Where nothing is found to unlink, no file stands. -/
theorem fileAt_unlink_notFound (hcur : Keeps cur t t)
    (h : t.unlink n cur (ks.map .into) (.into k) = .error .notFound) :
    t.fileAt (cur ++ ks ++ [k]) = none := by
  refine fileAt_of_not_file fun content hfile => ?_
  rw [unlink, resolve_above hcur (by rw [hfile]; exact Option.some_ne_none _)] at h
  dsimp only at h
  rw [hfile] at h
  cases h

/-- A directory that goes takes no file. -/
theorem fileAt_rmdir {dirs : List (Hop κ)} {hop : Hop κ} (h : t.rmdir n cur dirs hop = .ok (t', p)) :
    t'.fileAt = t.fileAt := by
  cases hop with
  | into k =>
      rw [rmdir] at h
      split at h
      next => cases h
      next d hd =>
        split at h
        next => cases h
        next hdir =>
          split_ifs at h
          cases h
          rw [fileAt_erase t (by simp)]
          refine Function.update_eq_self_iff.mpr (fileAt_of_not_file fun content hfile => ?_).symm
          rw [hdir] at hfile
          cases hfile
        next => cases h
  | here => cases h
  | up => cases h

theorem fileAt_mkdir {dirs : List (Hop κ)} {hop : Hop κ} (h : t.mkdir n cur dirs hop = .ok (t', p)) :
    t'.fileAt = t.fileAt := by
  cases hop with
  | into k =>
      rw [mkdir] at h
      split at h
      next => cases h
      next d hd =>
        split at h
        next hnone =>
          cases h
          exact fileAt_put_dir (by simp) hnone
        next => cases h
  | here => cases h
  | up => cases h

theorem fileAt_mkdirs {done todo : List (Hop κ)} :
    (t.mkdirs n cur done todo).1.1.fileAt = t.fileAt := by
  induction todo generalizing t done with
  | nil => rfl
  | cons hop todo ih =>
      rw [mkdirs]
      split
      next => exact ih
      next =>
        split
        next => rfl
        next t₁ p hmk => exact ih.trans (fileAt_mkdir hmk)

theorem fileAt_place (hfree : t.LinkFree cur ks) {content : α}
    (h : t.place n cur (ks.map .into) content (.into k) = .ok (t', p)) :
    t'.fileAt = Function.update t.fileAt (cur ++ ks ++ [k]) (some content) := by
  rw [place] at h
  split at h
  next => cases h
  next d hd =>
    cases resolve_linkFree hfree hd
    split at h
    next => cases h
    next =>
      cases h
      exact fileAt_put_file t (by simp) content

end

end LinkTree

end Naatre.Lib
