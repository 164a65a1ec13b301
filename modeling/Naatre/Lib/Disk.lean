import Mathlib.Data.List.Basic
import Mathlib.Data.String.Basic
import Naatre.Lib.Table

/-!
A directory tree as a table of paths, and paths as text.

A directory stands where something stands below it; an empty one has an entry of
its own. `get_put` and `get_removeAll` read the tables back; `components_join`
is the round trip of the text.
-/

namespace Naatre.Lib

/-! ### Text -/

/-- `strip_prefix`. -/
def stripPre (pre s : String) : Option String :=
  if pre.toList.isPrefixOf s.toList then some (String.ofList (s.toList.drop pre.toList.length))
  else none

/-- `strip_suffix`. -/
def stripSuf (suf s : String) : Option String :=
  if suf.toList.isSuffixOf s.toList then
    some (String.ofList (s.toList.take (s.toList.length - suf.toList.length)))
  else none

theorem stripPre_append (pre s : String) : stripPre pre (pre ++ s) = some s := by
  rw [stripPre, String.toList_append, if_pos (by simp), List.drop_left, String.ofList_toList]

theorem stripSuf_append (s suf : String) : stripSuf suf (s ++ suf) = some s := by
  have hlen : (s.toList ++ suf.toList).length - suf.toList.length = s.toList.length := by
    rw [List.length_append, Nat.add_sub_cancel]
  rw [stripSuf, String.toList_append, if_pos (by simp), hlen, List.take_left,
    String.ofList_toList]

/-- What has the prefix is the prefix and the rest. -/
theorem eq_of_stripPre {pre s rest : String} (h : stripPre pre s = some rest) :
    s = pre ++ rest := by
  unfold stripPre at h
  split at h
  next hpre =>
    cases h
    obtain ⟨tail, htail⟩ := List.isPrefixOf_iff_prefix.mp hpre
    apply String.toList_injective
    rw [String.toList_append, String.toList_ofList, ← htail, List.drop_left]
  next => cases h

theorem eq_of_stripSuf {suf s rest : String} (h : stripSuf suf s = some rest) :
    s = rest ++ suf := by
  unfold stripSuf at h
  split at h
  next hsuf =>
    cases h
    obtain ⟨front, hfront⟩ := List.isSuffixOf_iff_suffix.mp hsuf
    apply String.toList_injective
    have hlen : (front ++ suf.toList).length - suf.toList.length = front.length := by
      rw [List.length_append, Nat.add_sub_cancel]
    rw [String.toList_append, String.toList_ofList, ← hfront, hlen, List.take_left]
  next => cases h

/-- The components of a slash-separated path. -/
def components (s : String) : List String := (s.toList.splitOn '/').map String.ofList

def joinSlash (path : List String) : String := String.intercalate "/" path

theorem not_mem_splitOn (sep : Char) (l : List Char) : ∀ piece ∈ l.splitOn sep, sep ∉ piece := by
  induction l with
  | nil => simp
  | cons c l ih =>
      rw [List.splitOn_eq_splitOnP] at ih ⊢
      rw [List.splitOnP_cons_eq_if_modifyHead]
      split
      next =>
        intro piece hpiece
        rcases List.mem_cons.mp hpiece with rfl | hpiece
        · exact List.not_mem_nil
        · exact ih piece hpiece
      next hc =>
        cases hpieces : l.splitOnP (· == sep) with
        | nil => simp
        | cons first rest =>
            rw [hpieces] at ih
            intro piece hpiece
            rcases List.mem_cons.mp hpiece with rfl | hpiece
            · intro hmem
              rcases List.mem_cons.mp hmem with rfl | hmem
              · exact hc (beq_self_eq_true _)
              · exact ih first List.mem_cons_self hmem
            · exact ih piece (List.mem_cons_of_mem _ hpiece)

theorem components_noSlash (s : String) : ∀ c ∈ components s, '/' ∉ c.toList := by
  intro c hc
  obtain ⟨piece, hpiece, rfl⟩ := List.mem_map.mp hc
  rw [String.toList_ofList]
  exact not_mem_splitOn '/' _ piece hpiece

/-- Components without a slash come back from their path. -/
theorem components_join {path : List String} (hne : path ≠ [])
    (h : ∀ c ∈ path, '/' ∉ c.toList) : components (joinSlash path) = path := by
  have hsplit : (joinSlash path).toList.splitOn '/' = path.map String.toList := by
    rw [joinSlash, String.toList_intercalate]
    refine List.splitOn_intercalate '/' ?_ (by simpa using hne)
    intro l hl
    obtain ⟨c, hc, rfl⟩ := List.mem_map.mp hl
    exact h c hc
  rw [components, hsplit, List.map_map]
  have hid : String.ofList ∘ String.toList = id := by
    funext s
    exact String.ofList_toList
  rw [hid, List.map_id]

theorem join_components (s : String) : joinSlash (components s) = s := by
  apply String.toList_injective
  rw [joinSlash, String.toList_intercalate, components, List.map_map]
  have hid : String.toList ∘ String.ofList = id := by
    funext l
    exact String.toList_ofList
  rw [hid, List.map_id]
  exact List.intercalate_splitOn '/'

theorem components_injective : Function.Injective components := fun s t h => by
  rw [← join_components s, h, join_components]

/-! ### Disks -/

inductive Node (α : Type*)
  | dir
  | file (content : α)
  deriving DecidableEq

/-- What stands at each path below a root. -/
abbrev Disk (α : Type*) := List (List String × Node α)

namespace Disk

variable {α : Type*}

def get (d : Disk α) (p : List String) : Option α :=
  match d.lookup p with
  | some (.file content) => some content
  | _ => none

def put (d : Disk α) (p : List String) (content : α) : Disk α :=
  (p, .file content) :: d.filter fun e => e.1 ≠ p

def remove (d : Disk α) (p : List String) : Disk α := d.filter fun e => e.1 ≠ p

/-- Something stands at the path, a directory at least. -/
def stands (d : Disk α) (p : List String) : Bool := d.any fun e => p.isPrefixOf e.1

/-- The directory is there and not empty. -/
def hasEntries (d : Disk α) (p : List String) : Bool :=
  d.any fun e => p.isPrefixOf e.1 && decide (p.length < e.1.length)

/-- A directory goes with all that is below it. -/
def removeAll (d : Disk α) (p : List String) : Disk α := d.filter fun e => !p.isPrefixOf e.1

theorem lookup_filter (d : Disk α) (keep : List String → Bool) (p : List String) :
    List.lookup p (d.filter fun e => keep e.1) = if keep p then d.lookup p else none := by
  induction d with
  | nil => simp
  | cons e d ih =>
      obtain ⟨q, node⟩ := e
      rw [List.filter_cons]
      by_cases hq : p = q
      · subst hq
        by_cases hkeep : keep p = true
        · simp [hkeep]
        · rw [if_neg hkeep, ih, if_neg hkeep, if_neg hkeep]
      · have hne : (p == q) = false := beq_false_of_ne hq
        split
        · rw [List.lookup_cons, hne, List.lookup_cons, hne]
          exact ih
        · rw [List.lookup_cons, hne]
          exact ih

theorem get_put (d : Disk α) (p : List String) (content : α) (q : List String) :
    (d.put p content).get q = if q = p then some content else d.get q := by
  unfold get put
  by_cases hq : q = p
  · subst hq
    simp
  · have hne : (q == p) = false := beq_false_of_ne hq
    rw [List.lookup_cons, hne, if_neg hq]
    have hfilter := lookup_filter d (fun r => decide (r ≠ p)) q
    rw [if_pos (by simpa using hq)] at hfilter
    rw [hfilter]

theorem get_put_self (d : Disk α) (p : List String) (content : α) :
    (d.put p content).get p = some content := by
  rw [get_put, if_pos rfl]

theorem get_put_of_ne (d : Disk α) {p q : List String} (content : α) (h : q ≠ p) :
    (d.put p content).get q = d.get q := by
  rw [get_put, if_neg h]

theorem get_remove (d : Disk α) (p q : List String) :
    (d.remove p).get q = if q = p then none else d.get q := by
  unfold get remove
  rw [lookup_filter d (fun r => decide (r ≠ p)) q]
  by_cases hq : q = p
  · simp [hq]
  · simp [hq]

theorem get_removeAll (d : Disk α) (p q : List String) :
    (d.removeAll p).get q = if p.isPrefixOf q then none else d.get q := by
  unfold get removeAll
  rw [lookup_filter d (fun r => !p.isPrefixOf r) q]
  cases p.isPrefixOf q <;> simp

theorem stands_of_get {d : Disk α} {p : List String} {content : α} (h : d.get p = some content) :
    d.stands p = true := by
  unfold get at h
  split at h
  next found hlookup =>
    exact List.any_eq_true.mpr ⟨(p, .file found), mem_of_lookup hlookup, by simp⟩
  next => cases h

theorem get_eq_none_of_not_mem {d : Disk α} {p : List String} (h : p ∉ d.map Prod.fst) :
    d.get p = none := by
  cases hget : d.get p with
  | none => rfl
  | some content =>
      unfold get at hget
      split at hget
      next found hlookup =>
        exact absurd (List.mem_map_of_mem (mem_of_lookup hlookup)) h
      next => cases hget

theorem get_eq_none_of_stands {d : Disk α} {p : List String} (h : d.stands p = false) :
    d.get p = none := by
  cases hget : d.get p with
  | none => rfl
  | some content =>
      rw [stands_of_get hget] at h
      cases h

theorem mem_keys_of_get {d : Disk α} {p : List String} {content : α}
    (h : d.get p = some content) : p ∈ d.map Prod.fst := by
  by_contra hmem
  rw [get_eq_none_of_not_mem hmem] at h
  cases h

/-- Files put at `paths` alone, a path at most once in the table. -/
structure PutAt (paths : List String → Prop) (d d' : Disk α) : Prop where
  frame : ∀ p, ¬paths p → d'.get p = d.get p
  keys : ∀ p ∈ d'.map Prod.fst, p ∈ d.map Prod.fst ∨ paths p
  nodup : (d.map Prod.fst).Nodup → (d'.map Prod.fst).Nodup

namespace PutAt

variable {paths : List String → Prop} {d d' d'' : Disk α}

theorem refl (d : Disk α) : PutAt paths d d := ⟨fun _ _ => rfl, fun _ hp => .inl hp, id⟩

theorem trans (h : PutAt paths d d') (h' : PutAt paths d' d'') : PutAt paths d d'' where
  frame p hp := (h'.frame p hp).trans (h.frame p hp)
  keys p hp := (h'.keys p hp).elim (h.keys p) .inr
  nodup hd := h'.nodup (h.nodup hd)

theorem mono {paths' : List String → Prop} (h : PutAt paths d d') (hsub : ∀ p, paths p → paths' p) :
    PutAt paths' d d' where
  frame p hp := h.frame p fun hin => hp (hsub p hin)
  keys p hp := (h.keys p hp).imp_right (hsub p)
  nodup := h.nodup

theorem put {path : List String} (hpath : paths path) (d : Disk α) (content : α) :
    PutAt paths d (d.put path content) where
  frame p hp := get_put_of_ne d content fun heq => hp (heq ▸ hpath)
  keys p hp := by
    rcases List.mem_cons.mp hp with rfl | hp
    · exact .inr hpath
    · obtain ⟨e, he, rfl⟩ := List.mem_map.mp hp
      exact .inl (List.mem_map_of_mem (List.mem_filter.mp he).1)
  nodup hd := by
    refine List.nodup_cons.mpr ⟨fun hmem => ?_, hd.sublist (List.filter_sublist.map _)⟩
    obtain ⟨e, he, heq⟩ := List.mem_map.mp hmem
    exact of_decide_eq_true (List.mem_filter.mp he).2 heq

end PutAt

end Disk

end Naatre.Lib
