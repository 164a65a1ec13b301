import Mathlib.Data.List.Dedup
import Mathlib.Data.List.Pairwise
import Mathlib.Data.List.Range
import Mathlib.Data.List.Sort

/-!
Edits of a sequence, woven into it.

An edit replaces a range of the sequence by new elements; an empty range makes
it an insertion. `weave` says point by point what several edits leave: the
insertions before the point, the replacements that begin there, the element
itself if no edit covers it. Edits that two parties made alike count once. A
single pass over compatible edits in order computes it, in whatever order they
were collected.
-/

namespace Naatre.Lib

/-- One change: the elements `[start, stop)` become `new`. -/
structure Edit (α : Type*) where
  start : ℕ
  stop : ℕ
  new : List α
  deriving DecidableEq

/-- What stands at a point: insertions, replacements, the element. -/
inductive Part
  | insert
  | replace
  | keep
  deriving DecidableEq

def Part.rank : Part → ℕ
  | .insert => 0
  | .replace => 1
  | .keep => 2

section

variable {α : Type*}

namespace Edit

/-- The edit begins at point `i` as this part of it. -/
def At (i : ℕ) : Part → Edit α → Prop
  | .insert, e => e.start = i ∧ e.stop = i
  | .replace, e => e.start = i ∧ i < e.stop
  | .keep, _ => False

instance (i : ℕ) (part : Part) (e : Edit α) : Decidable (At i part e) := by
  cases part <;> unfold At <;> infer_instance

def Covers (i : ℕ) (e : Edit α) : Prop := e.start ≤ i ∧ i < e.stop

instance (i : ℕ) (e : Edit α) : Decidable (Covers i e) := by
  unfold Covers
  infer_instance

/-- The range lies in a sequence of length `n`. -/
def Fits (n : ℕ) (e : Edit α) : Prop := e.start ≤ e.stop ∧ e.stop ≤ n

/-- Two edits that both apply: apart from each other, or the same insertion. -/
def Compatible (a b : Edit α) : Prop :=
  (a.stop ≤ b.start ∨ b.stop ≤ a.start) ∧
    (a.start = a.stop → b.start = b.stop → a.start = b.start → a = b)

theorem Compatible.symm {a b : Edit α} (h : Compatible a b) : Compatible b a :=
  ⟨h.1.symm, fun hb ha heq => (h.2 ha hb heq.symm).symm⟩

instance : Std.Symm (@Compatible α) := ⟨fun _ _ h => h.symm⟩

/-- The order of the pass: by start, insertions first. -/
def Ordered (a b : Edit α) : Prop :=
  a.start < b.start ∨ a.start = b.start ∧ (a.start = a.stop ∨ b.start < b.stop)

/-- `b` follows `a` in the pass: the same insertion again, or one beyond. -/
def Follows (a b : Edit α) : Prop :=
  a = b ∧ a.start = a.stop ∨
    a.stop ≤ b.start ∧ ¬ (a.start = a.stop ∧ b.start = b.stop ∧ a.start = b.start)

theorem Compatible.follows {n : ℕ} {a b : Edit α} (h : Compatible a b) (ha : a.Fits n)
    (hb : b.Fits n) (horder : Ordered a b) : Follows a b := by
  obtain ⟨ha, -⟩ := ha
  obtain ⟨hb, -⟩ := hb
  obtain ⟨hapart, hsame⟩ := h
  rcases horder with hlt | ⟨heq, hinsert | hreplace⟩
  · exact .inr ⟨by omega, by omega⟩
  · by_cases hb' : b.start = b.stop
    · exact .inl ⟨hsame hinsert hb' heq, hinsert⟩
    · exact .inr ⟨by omega, by omega⟩
  · exact .inr ⟨by omega, by omega⟩

/-- Compatible edits that begin alike are one. -/
theorem Compatible.eq_of_at {a b : Edit α} {i : ℕ} {part : Part} (h : Compatible a b)
    (ha : At i part a) (hb : At i part b) : a = b := by
  obtain ⟨hapart, hsame⟩ := h
  cases part with
  | insert => exact hsame (ha.1.trans ha.2.symm) (hb.1.trans hb.2.symm) (ha.1.trans hb.1.symm)
  | replace =>
      obtain ⟨ha, ha'⟩ := ha
      obtain ⟨hb, hb'⟩ := hb
      omega
  | keep => exact ha.elim

end Edit

variable [DecidableEq α]

/-! ### The weave -/

/-- One part of one point. -/
def piece (base : List α) (edits : List (Edit α)) (i : ℕ) : Part → List α
  | .keep => if ∃ e ∈ edits, e.Covers i then [] else base[i]?.toList
  | part => ((edits.filter fun e => decide (e.At i part)).dedup).flatMap Edit.new

def weaveAt (base : List α) (edits : List (Edit α)) (i : ℕ) : List α :=
  piece base edits i .insert ++ piece base edits i .replace ++ piece base edits i .keep

/-- The sequence with all the edits in it, each once. -/
def weave (base : List α) (edits : List (Edit α)) : List α :=
  (List.range' 0 (base.length + 1)).flatMap (weaveAt base edits)

/-- The weave from a point on. -/
def weaveFrom (base : List α) (edits : List (Edit α)) (pos : ℕ) : List α :=
  (List.range' pos (base.length + 1 - pos)).flatMap (weaveAt base edits)

theorem weaveFrom_zero (base : List α) (edits : List (Edit α)) :
    weaveFrom base edits 0 = weave base edits := rfl

/-- The edits that begin at a point or cover it. -/
def Edit.Touches (i : ℕ) (e : Edit α) : Prop := e.start = i ∨ e.Covers i

instance (i : ℕ) (e : Edit α) : Decidable (e.Touches i) := by
  unfold Edit.Touches
  infer_instance

omit [DecidableEq α] in
theorem Edit.At.touches {i : ℕ} {part : Part} {e : Edit α} (h : e.At i part) : e.Touches i := by
  cases part with
  | insert => exact .inl h.1
  | replace => exact .inl h.1
  | keep => exact h.elim

/-- A point sees only the edits that touch it. -/
theorem weaveAt_congr {base : List α} {edits edits' : List (Edit α)} {i : ℕ}
    (h : edits.filter (fun e => decide (e.Touches i)) =
      edits'.filter (fun e => decide (e.Touches i))) :
    weaveAt base edits i = weaveAt base edits' i := by
  have hat : ∀ (l : List (Edit α)) part, l.filter (fun e => decide (e.At i part)) =
      (l.filter (fun e => decide (e.Touches i))).filter (fun e => decide (e.At i part)) := by
    intro l part
    rw [List.filter_filter]
    refine List.filter_congr fun e _ => ?_
    by_cases he : e.At i part
    · simp [he, he.touches]
    · simp [he]
  have hcover : ∀ l : List (Edit α), (∃ e ∈ l, e.Covers i) ↔
      ∃ e ∈ l.filter (fun e => decide (e.Touches i)), e.Covers i := by
    intro l
    constructor
    · rintro ⟨e, he, hcovers⟩
      exact ⟨e, List.mem_filter.mpr ⟨he, decide_eq_true (.inr hcovers)⟩, hcovers⟩
    · rintro ⟨e, he, hcovers⟩
      exact ⟨e, (List.mem_filter.mp he).1, hcovers⟩
  have hkeep : (∃ e ∈ edits, e.Covers i) ↔ ∃ e ∈ edits', e.Covers i := by
    rw [hcover edits, hcover edits', h]
  rw [weaveAt, weaveAt]
  simp only [piece, hat edits, hat edits', h, hkeep]

theorem dedup_of_eq {β : Type*} [DecidableEq β] {l : List β} {a : β} (ha : a ∈ l)
    (heq : ∀ b ∈ l, b = a) : l.dedup = [a] := by
  rw [List.eq_replicate_iff.mpr ⟨rfl, heq⟩]
  exact List.replicate_dedup (List.length_pos_of_mem ha).ne'

/-- Equal elements in another order are the same list. -/
theorem perm_eq_of_eq {β : Type*} {l l' : List β} (hperm : l.Perm l')
    (heq : ∀ a ∈ l, ∀ b ∈ l, a = b) : l = l' := by
  cases l with
  | nil => exact (List.perm_nil.mp hperm.symm).symm
  | cons a l =>
      have hrep : a :: l = List.replicate (a :: l).length a :=
        List.eq_replicate_iff.mpr ⟨rfl, fun b hb => heq b hb a List.mem_cons_self⟩
      rw [hrep] at hperm ⊢
      exact List.replicate_perm.mp hperm

/-- Compatible edits weave alike in any order. -/
theorem weave_perm {base : List α} {edits edits' : List (Edit α)} (hperm : edits.Perm edits')
    (hcompat : edits.Pairwise Edit.Compatible) : weave base edits = weave base edits' := by
  have hall : ∀ a ∈ edits, ∀ b ∈ edits, a ≠ b → a.Compatible b :=
    fun a ha b hb hne => hcompat.forall ha hb hne
  have hfilter : ∀ i part, edits.filter (fun e => decide (e.At i part)) =
      edits'.filter (fun e => decide (e.At i part)) := by
    intro i part
    refine perm_eq_of_eq (hperm.filter _) fun a ha b hb => ?_
    rw [List.mem_filter, decide_eq_true_eq] at ha hb
    by_contra hne
    exact hne ((hall a ha.1 b hb.1 hne).eq_of_at ha.2 hb.2)
  have hkeep : ∀ i, (∃ e ∈ edits, e.Covers i) ↔ ∃ e ∈ edits', e.Covers i :=
    fun i => exists_congr fun e => and_congr_left' hperm.mem_iff
  rw [weave, weave]
  congr 1
  funext i
  rw [weaveAt, weaveAt]
  simp only [piece, hfilter, hkeep]

/-- Edits that both parties made alike count once. -/
theorem weave_self (base : List α) (edits : List (Edit α)) :
    weave base (edits ++ edits) = weave base edits := by
  have hdedup : ∀ l : List (Edit α), (l ++ l).dedup = l.dedup :=
    fun l => List.Subset.dedup_append_right (List.Subset.refl l)
  rw [weave, weave]
  congr 1
  funext i
  rw [weaveAt, weaveAt]
  simp only [piece, List.filter_append, hdedup, List.mem_append, or_self]

/-! ### Stretches of points -/

omit [DecidableEq α] in
theorem flatMap_getElem? (base : List α) (pos len : ℕ) :
    ((List.range' pos len).flatMap fun i => base[i]?.toList) = (base.drop pos).take len := by
  induction len generalizing pos with
  | zero => simp
  | succ len ih =>
      rw [List.range'_succ, List.flatMap_cons, ih]
      by_cases hpos : pos < base.length
      · rw [List.getElem?_eq_getElem hpos, Option.toList_some, List.drop_eq_getElem_cons hpos,
          List.take_succ_cons, List.singleton_append]
      · rw [List.getElem?_eq_none (by omega), List.drop_eq_nil_of_le (by omega),
          List.drop_eq_nil_of_le (by omega)]
        simp

/-- No edit touches the points before the first one's start. -/
theorem weave_untouched {base : List α} {edits : List (Edit α)} {pos len : ℕ}
    (h : ∀ e ∈ edits, pos + len ≤ e.start) :
    (List.range' pos len).flatMap (weaveAt base edits) = (base.drop pos).take len := by
  rw [← flatMap_getElem?]
  refine List.flatMap_congr fun i hi => ?_
  rw [List.mem_range'_1] at hi
  have hnone : ∀ e ∈ edits, ¬ e.Touches i := by
    intro e he htouch
    have hstart := h e he
    rcases htouch with heq | ⟨hle, -⟩ <;> omega
  have hempty : edits.filter (fun e => decide (e.Touches i)) =
      ([] : List (Edit α)).filter fun e => decide (e.Touches i) := by
    rw [List.filter_nil, List.filter_eq_nil_iff]
    exact fun e he => by simpa using hnone e he
  rw [weaveAt_congr hempty, weaveAt]
  simp [piece]

theorem weaveFrom_nil (base : List α) (pos : ℕ) : weaveFrom base [] pos = base.drop pos := by
  rw [weaveFrom, weave_untouched (by simp), List.take_of_length_le]
  rw [List.length_drop]
  omega

/-- The weave from `pos` on, up to a later point. -/
theorem weaveFrom_split {base : List α} {edits : List (Edit α)} {pos mid : ℕ} (hpos : pos ≤ mid)
    (hmid : mid ≤ base.length + 1) : weaveFrom base edits pos =
      (List.range' pos (mid - pos)).flatMap (weaveAt base edits) ++ weaveFrom base edits mid := by
  rw [weaveFrom, weaveFrom, ← List.flatMap_append]
  congr 1
  have hlen : base.length + 1 - pos = (mid - pos) + (base.length + 1 - mid) := by omega
  rw [hlen, ← List.range'_append]
  congr 2
  omega

/-! ### The pass over the edits -/

/-- The edits applied in order from `pos` on. An insertion equal to the one
applied last is skipped. -/
def applyEdits (base : List α) : Option (Edit α) → ℕ → List (Edit α) → List α
  | _, pos, [] => base.drop pos
  | prev, pos, e :: rest =>
      if prev = some e ∧ e.start = e.stop then applyEdits base prev pos rest
      else (base.drop pos).take (e.start - pos) ++ e.new ++ applyEdits base (some e) e.stop rest

/-- The point of an insertion: its new elements first, whatever copies there are. -/
theorem weaveAt_insertion {base : List α} {e : Edit α} {edits : List (Edit α)}
    (hinsert : e.start = e.stop) (hafter : ∀ f ∈ edits, e.Follows f) :
    weaveAt base (e :: edits) e.start =
      e.new ++ weaveAt base (edits.filter fun f => decide (f ≠ e)) e.start := by
  have hcopies : ∀ f ∈ edits, f.At e.start .insert → f = e := by
    intro f hf hat
    rcases hafter f hf with ⟨rfl, -⟩ | ⟨-, hno⟩
    · rfl
    · exact absurd ⟨hinsert, hat.1.trans hat.2.symm, hat.1.symm⟩ hno
  have hat : e.At e.start .insert := ⟨rfl, hinsert.symm⟩
  have hins : piece base (e :: edits) e.start .insert = e.new := by
    have hone : ((e :: edits).filter fun f => decide (f.At e.start .insert)).dedup = [e] := by
      refine dedup_of_eq (List.mem_filter.mpr ⟨List.mem_cons_self, decide_eq_true hat⟩) fun f hf => ?_
      rw [List.mem_filter, decide_eq_true_eq] at hf
      rcases List.mem_cons.mp hf.1 with rfl | hmem
      · rfl
      · exact hcopies f hmem hf.2
    simp only [piece, hone, List.flatMap_singleton]
  have hinsRest : piece base (edits.filter fun f => decide (f ≠ e)) e.start .insert = [] := by
    have hnone : (edits.filter fun f => decide (f ≠ e)).filter
        (fun f => decide (f.At e.start .insert)) = [] := by
      rw [List.filter_eq_nil_iff]
      intro f hf hat
      rw [List.mem_filter, decide_eq_true_eq] at hf
      exact hf.2 (hcopies f hf.1 (of_decide_eq_true hat))
    simp only [piece, hnone, List.dedup_nil, List.flatMap_nil]
  have hrep : piece base (e :: edits) e.start .replace =
      piece base (edits.filter fun f => decide (f ≠ e)) e.start .replace := by
    have hnot : ¬ e.At e.start .replace := by
      rintro ⟨-, hlt⟩
      omega
    have hsame : (edits.filter fun f => decide (f ≠ e)).filter
        (fun f => decide (f.At e.start .replace)) =
        edits.filter (fun f => decide (f.At e.start .replace)) := by
      rw [List.filter_filter]
      refine List.filter_congr fun f _ => ?_
      by_cases hf : f = e
      · simp [hf, hnot]
      · simp [hf]
    have hcons : (e :: edits).filter (fun f => decide (f.At e.start .replace)) =
        edits.filter (fun f => decide (f.At e.start .replace)) :=
      List.filter_cons_of_neg (by simpa using hnot)
    simp only [piece, hsame, hcons]
  have hkeep : piece base (e :: edits) e.start .keep =
      piece base (edits.filter fun f => decide (f ≠ e)) e.start .keep := by
    have hcovers : ¬ e.Covers e.start := by
      rintro ⟨-, hlt⟩
      omega
    have hiff : (∃ f ∈ e :: edits, f.Covers e.start) ↔
        ∃ f ∈ edits.filter fun f => decide (f ≠ e), f.Covers e.start := by
      constructor
      · rintro ⟨f, hf, hcover⟩
        have hne : f ≠ e := fun heq => hcovers (heq ▸ hcover)
        exact ⟨f, List.mem_filter.mpr
          ⟨(List.mem_cons.mp hf).resolve_left hne, decide_eq_true hne⟩, hcover⟩
      · rintro ⟨f, hf, hcover⟩
        exact ⟨f, List.mem_cons_of_mem _ (List.mem_filter.mp hf).1, hcover⟩
    simp only [piece, hiff]
  rw [weaveAt, weaveAt, hins, hinsRest, hrep, hkeep, List.nil_append, List.append_assoc]

/-- The points a replacement covers hold its new elements and nothing else. -/
theorem weave_replacement {base : List α} {e : Edit α} {edits : List (Edit α)}
    (hreplace : e.start < e.stop) (hlater : ∀ f ∈ edits, e.stop ≤ f.start) :
    (List.range' e.start (e.stop - e.start)).flatMap (weaveAt base (e :: edits)) = e.new := by
  have halone : ∀ i, e.start ≤ i → i < e.stop →
      weaveAt base (e :: edits) i = weaveAt base [e] i := by
    intro i hi hlt
    refine weaveAt_congr ?_
    have htouch : e.Touches i := .inr ⟨hi, hlt⟩
    rw [List.filter_cons_of_pos (by simpa using htouch),
      List.filter_cons_of_pos (by simpa using htouch), List.filter_nil]
    refine congrArg _ (List.filter_eq_nil_iff.mpr fun f hf htouch => ?_)
    have hstart := hlater f hf
    rcases of_decide_eq_true htouch with heq | ⟨hle, -⟩ <;> omega
  have hpoints : e.stop - e.start = (e.stop - e.start - 1) + 1 := by omega
  rw [hpoints, List.range'_succ, List.flatMap_cons]
  have hfirst : weaveAt base (e :: edits) e.start = e.new := by
    rw [halone e.start le_rfl hreplace, weaveAt]
    have hins : ¬ e.At e.start .insert := fun h => by have := h.2; omega
    have hrep : e.At e.start .replace := ⟨rfl, hreplace⟩
    have hcovers : e.Covers e.start := ⟨le_rfl, hreplace⟩
    simp [piece, hins, hrep, hcovers]
  have hinner : (List.range' (e.start + 1) (e.stop - e.start - 1)).flatMap
      (weaveAt base (e :: edits)) = [] := by
    rw [List.flatMap_eq_nil_iff]
    intro i hi
    rw [List.mem_range'_1] at hi
    rw [halone i (by omega) (by omega), weaveAt]
    have hins : ¬ e.At i .insert := fun h => by have := h.1; omega
    have hrep : ¬ e.At i .replace := fun h => by have := h.1; omega
    have hcovers : e.Covers i := ⟨by omega, by omega⟩
    simp [piece, hins, hrep, hcovers]
  rw [hfirst, hinner, List.append_nil]

/-- The points an edit begins at and covers hold its new elements. -/
theorem weaveFrom_cons {base : List α} {e : Edit α} {edits : List (Edit α)} {pos : ℕ}
    (hfits : e.Fits base.length) (hpos : pos ≤ e.start) (hafter : ∀ f ∈ edits, e.Follows f) :
    weaveFrom base (e :: edits) pos = (base.drop pos).take (e.start - pos) ++ e.new ++
      weaveFrom base (edits.filter fun f => decide (f ≠ e)) e.stop := by
  obtain ⟨hle, hstop⟩ := hfits
  have hstarts : ∀ f ∈ e :: edits, pos + (e.start - pos) ≤ f.start := by
    intro f hf
    rcases List.mem_cons.mp hf with rfl | hf
    · omega
    · rcases hafter f hf with ⟨rfl, -⟩ | ⟨h, -⟩ <;> omega
  -- past the edit, neither it nor a copy of it touches a point
  have hpast : ∀ mid, e.stop ≤ mid → e.start < mid → weaveFrom base (e :: edits) mid =
      weaveFrom base (edits.filter fun f => decide (f ≠ e)) mid := by
    intro mid hmid hlt
    refine List.flatMap_congr fun i hi => ?_
    rw [List.mem_range'_1] at hi
    have htouch : ¬ e.Touches i := by
      rintro (heq | ⟨-, hlt⟩) <;> omega
    refine weaveAt_congr ?_
    rw [List.filter_cons_of_neg (by simpa using htouch), List.filter_filter]
    refine (List.filter_congr fun f _ => ?_)
    by_cases hf : f = e
    · simp [hf, htouch]
    · simp [hf]
  rw [weaveFrom_split hpos (by omega), weave_untouched hstarts, List.append_assoc]
  congr 1
  rcases hle.eq_or_lt with hinsert | hreplace
  · have hmid : e.start ≤ e.start + 1 := Nat.le_succ _
    rw [weaveFrom_split hmid (by omega), ← hinsert, weaveFrom_split hmid (by omega),
      hpast (e.start + 1) (by omega) (by omega), ← List.append_assoc, Nat.add_sub_cancel_left,
      List.range'_one, List.flatMap_singleton, List.flatMap_singleton,
      weaveAt_insertion hinsert hafter]
  · have hlater : ∀ f ∈ edits, e.stop ≤ f.start := by
      intro f hf
      rcases hafter f hf with ⟨-, hinsert⟩ | ⟨h, -⟩
      · omega
      · exact h
    rw [weaveFrom_split hle (by omega), hpast e.stop le_rfl hreplace,
      weave_replacement hreplace hlater]

/-- The pass over edits in order is the weave. -/
theorem applyEdits_eq {base : List α} {edits : List (Edit α)} {prev : Option (Edit α)} {pos : ℕ}
    (hfits : ∀ e ∈ edits, e.Fits base.length) (hpairs : edits.Pairwise Edit.Follows)
    (hpos : ∀ e ∈ edits, pos ≤ e.start)
    (hprev : ∀ p, prev = some p → p.start ≤ p.stop ∧ p.stop = pos ∧ ∀ e ∈ edits, p.Follows e) :
    applyEdits base prev pos edits =
      weaveFrom base (edits.filter fun e => decide (prev ≠ some e)) pos := by
  induction edits generalizing prev pos with
  | nil => rw [applyEdits, List.filter_nil, weaveFrom_nil]
  | cons e rest ih =>
      obtain ⟨hhead, hrest⟩ := List.pairwise_cons.mp hpairs
      have hfitsRest := fun f hf => hfits f (List.mem_cons_of_mem _ hf)
      rw [applyEdits]
      by_cases hcopy : prev = some e ∧ e.start = e.stop
      · rw [if_pos hcopy, List.filter_cons_of_neg (by simp [hcopy.1])]
        refine ih hfitsRest hrest (fun f hf => hpos f (List.mem_cons_of_mem _ hf)) fun p hp => ?_
        obtain ⟨hp, hstop, hall⟩ := hprev p hp
        exact ⟨hp, hstop, fun f hf => hall f (List.mem_cons_of_mem _ hf)⟩
      · have hne : prev ≠ some e := by
          intro heq
          obtain ⟨hle, hstop, hall⟩ := hprev e heq
          have hstart := hpos e List.mem_cons_self
          exact hcopy ⟨heq, by omega⟩
        -- the edit applied last does not come again
        have hgone : rest.filter (fun f => decide (prev ≠ some f)) = rest := by
          rw [List.filter_eq_self]
          intro f hf
          rw [decide_eq_true_eq]
          intro heq
          obtain ⟨hle, hstop, hall⟩ := hprev f heq
          have hef : e ≠ f := fun h => hne (h ▸ heq)
          have hfit := (hfits e List.mem_cons_self).1
          have hstart := hpos e List.mem_cons_self
          rcases hall e List.mem_cons_self with ⟨h, -⟩ | ⟨-, hno⟩
          · exact hef h.symm
          · rcases hhead f hf with ⟨h, -⟩ | ⟨hback, -⟩
            · exact hef h
            · exact hno ⟨by omega, by omega, by omega⟩
        rw [if_neg hcopy, List.filter_cons_of_pos (by simpa using hne), hgone,
          weaveFrom_cons (hfits e List.mem_cons_self) (hpos e List.mem_cons_self) hhead]
        congr 1
        have hlater : ∀ f ∈ rest, e.stop ≤ f.start := by
          intro f hf
          rcases hhead f hf with ⟨rfl, hinsert⟩ | ⟨h, -⟩
          · exact hinsert.ge
          · exact h
        rw [ih hfitsRest hrest hlater fun p hp => ?_]
        · congr 1
          refine List.filter_congr fun f _ => ?_
          simp [eq_comm]
        · obtain rfl := Option.some.inj hp
          exact ⟨(hfits e List.mem_cons_self).1, rfl, hhead⟩

/-- A pass over compatible edits, put in order, weaves them. -/
theorem applyEdits_weave {base : List α} {edits sorted : List (Edit α)}
    (hperm : sorted.Perm edits) (hfits : ∀ e ∈ edits, e.Fits base.length)
    (hcompat : edits.Pairwise Edit.Compatible) (horder : sorted.Pairwise Edit.Ordered) :
    applyEdits base none 0 sorted = weave base edits := by
  have hfits' : ∀ e ∈ sorted, e.Fits base.length := fun e he => hfits e (hperm.mem_iff.mp he)
  have hcompat' : sorted.Pairwise Edit.Compatible :=
    (hperm.pairwise_iff fun h => Edit.Compatible.symm h).mpr hcompat
  have hfollows : sorted.Pairwise Edit.Follows :=
    (hcompat'.and horder).imp_of_mem fun ha hb h => h.1.follows (hfits' _ ha) (hfits' _ hb) h.2
  rw [applyEdits_eq hfits' hfollows (fun e _ => Nat.zero_le _) (fun p hp => by cases hp),
    weaveFrom_zero]
  have hall : sorted.filter (fun e => decide ((none : Option (Edit α)) ≠ some e)) = sorted := by
    simp
  rw [hall]
  exact weave_perm hperm hcompat'

/-! ### Slots -/

/-- The slots of the weave, point after point. -/
def slots (n : ℕ) : List (ℕ × Part) :=
  (List.range' 0 (n + 1)).flatMap fun i => [(i, .insert), (i, .replace), (i, .keep)]

def SlotBefore (a b : ℕ × Part) : Prop := a.1 < b.1 ∨ a.1 = b.1 ∧ a.2.rank < b.2.rank

theorem SlotBefore.asymm {a b : ℕ × Part} (h : SlotBefore a b) : ¬ SlotBefore b a := by
  unfold SlotBefore at *
  omega

/-- In a list that is in order, the related pairs are the ones in order. -/
theorem pairwise_rel {β : Type*} {lt R : β → β → Prop} (hasymm : ∀ a b, lt a b → ¬ lt b a)
    {l : List β} (hl : l.Pairwise lt) (h : l.Pairwise R) {a b : β} (ha : a ∈ l) (hb : b ∈ l)
    (hab : lt a b) : R a b := by
  induction l with
  | nil => cases ha
  | cons c l ih =>
      obtain ⟨hlt, hl⟩ := List.pairwise_cons.mp hl
      obtain ⟨hR, h⟩ := List.pairwise_cons.mp h
      rcases List.mem_cons.mp ha with rfl | ha' <;> rcases List.mem_cons.mp hb with rfl | hb'
      · exact absurd hab (hasymm _ _ hab)
      · exact hR b hb'
      · exact absurd (hlt a ha') (hasymm _ _ hab)
      · exact ih hl h ha' hb'

theorem slots_pairwise (n : ℕ) : (slots n).Pairwise SlotBefore := by
  rw [slots, List.pairwise_flatMap]
  constructor
  · intro i _
    simp [SlotBefore, Part.rank]
  · refine (List.pairwise_lt_range' (s := 0) (n := n + 1)).imp fun {i j} hlt a ha b hb => ?_
    have hai : a.1 = i := by
      simp only [List.mem_cons, List.not_mem_nil, or_false] at ha
      rcases ha with rfl | rfl | rfl <;> rfl
    have hbj : b.1 = j := by
      simp only [List.mem_cons, List.not_mem_nil, or_false] at hb
      rcases hb with rfl | rfl | rfl <;> rfl
    exact .inl (by omega)

theorem mem_slots {n i : ℕ} {part : Part} : (i, part) ∈ slots n ↔ i ≤ n := by
  rw [slots, List.mem_flatMap]
  constructor
  · rintro ⟨j, hj, hmem⟩
    rw [List.mem_range'_1] at hj
    simp only [List.mem_cons, Prod.mk.injEq, List.not_mem_nil, or_false] at hmem
    omega
  · intro hi
    refine ⟨i, List.mem_range'_1.mpr ⟨Nat.zero_le _, by omega⟩, ?_⟩
    cases part <;> simp

theorem weave_slots (base : List α) (edits : List (Edit α)) :
    weave base edits = (slots base.length).flatMap fun s => piece base edits s.1 s.2 := by
  rw [weave, slots, List.flatMap_assoc]
  refine List.flatMap_congr fun i _ => ?_
  simp [weaveAt]

/-- What holds between all elements of a weave, said of its pieces. -/
theorem weave_pairwise {base : List α} {edits : List (Edit α)} {R : α → α → Prop} :
    (weave base edits).Pairwise R ↔
      (∀ s ∈ slots base.length, (piece base edits s.1 s.2).Pairwise R) ∧
      ∀ s ∈ slots base.length, ∀ s' ∈ slots base.length, SlotBefore s s' →
        ∀ x ∈ piece base edits s.1 s.2, ∀ y ∈ piece base edits s'.1 s'.2, R x y := by
  rw [weave_slots, List.pairwise_flatMap]
  refine and_congr_right fun _ => ⟨fun h s hs s' hs' hbefore => ?_, fun h => ?_⟩
  · exact pairwise_rel (fun _ _ => SlotBefore.asymm) (slots_pairwise _) h hs hs' hbefore
  · exact (slots_pairwise base.length).imp_of_mem fun hs hs' hbefore => h _ hs _ hs' hbefore

/-- The piece at the slot of an edit is what the edit brings. -/
theorem piece_of_mem {base : List α} {edits : List (Edit α)}
    (hcompat : edits.Pairwise Edit.Compatible) {e : Edit α} (he : e ∈ edits) {i : ℕ} {part : Part}
    (hat : e.At i part) : piece base edits i part = e.new := by
  have hone : (edits.filter fun f => decide (f.At i part)).dedup = [e] := by
    refine dedup_of_eq (List.mem_filter.mpr ⟨he, decide_eq_true hat⟩) fun f hf => ?_
    rw [List.mem_filter, decide_eq_true_eq] at hf
    by_contra hne
    exact hne ((hcompat.forall hf.1 he hne).eq_of_at hf.2 hat)
  cases part with
  | insert => simp only [piece, hone, List.flatMap_singleton]
  | replace => simp only [piece, hone, List.flatMap_singleton]
  | keep => exact hat.elim

/-- An element of a weave is one that no edit covers or one an edit brings. -/
theorem mem_piece {base : List α} {edits : List (Edit α)} {i : ℕ} {part : Part} {x : α}
    (hx : x ∈ piece base edits i part) :
    part = .keep ∧ (∀ e ∈ edits, ¬ e.Covers i) ∧ base[i]? = some x ∨
      ∃ e ∈ edits, e.At i part ∧ x ∈ e.new := by
  have hedit : part ≠ .keep → x ∈ ((edits.filter fun e => decide (e.At i part)).dedup).flatMap
      Edit.new → ∃ e ∈ edits, e.At i part ∧ x ∈ e.new := by
    intro _ hx
    obtain ⟨e, he, hx⟩ := List.mem_flatMap.mp hx
    rw [List.mem_dedup, List.mem_filter, decide_eq_true_eq] at he
    exact ⟨e, he.1, he.2, hx⟩
  cases part with
  | insert => exact .inr (hedit (by decide) hx)
  | replace => exact .inr (hedit (by decide) hx)
  | keep =>
      rw [piece] at hx
      split_ifs at hx with hcovers
      · cases hx
      · exact .inl ⟨rfl, by simpa using hcovers, by simpa using hx⟩

end

end Naatre.Lib
