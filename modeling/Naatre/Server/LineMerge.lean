import Naatre.Core.Plain
import Naatre.Lib.Cut
import Naatre.Lib.Weave
import Naatre.Server.Merge

/-!
The line merge, as lines. `merge_lines` applies the hunks of both sides in one
pass; over valid edit scripts that pass weaves both into the base, so that the
order of the two sides does not matter. The text it gives reads back as the
woven lines unless a side's last line lacks its newline and lines of the other
side come after it.
-/

namespace Naatre

/-! ### Edit scripts -/

/-- The lines of a text, each with its newline, the last perhaps without. -/
def isNewline (c : UInt8) : Bool := decide (c = 10)

def textLines (text : Bytes) : List Bytes := Lib.cutAfter isNewline text

def DiffOp.isEqual : DiffOp → Bool
  | .equal _ _ _ => true
  | _ => false

/-- The edits from old line `i` and new line `j` on take the old lines to the
new ones, none of them empty. -/
inductive EditScript (old new : List Bytes) : ℕ → ℕ → List DiffOp → Prop
  | done : EditScript old new old.length new.length []
  | equal {i j len : ℕ} {ops : List DiffOp} (hlen : 0 < len)
      (hsame : (old.drop i).take len = (new.drop j).take len)
      (hrest : EditScript old new (i + len) (j + len) ops) :
      EditScript old new i j (.equal i j len :: ops)
  | delete {i j len : ℕ} {ops : List DiffOp} (hlen : 0 < len)
      (hrest : EditScript old new (i + len) j ops) : EditScript old new i j (.delete i len j :: ops)
  | insert {i j len : ℕ} {ops : List DiffOp} (hlen : 0 < len)
      (hrest : EditScript old new i (j + len) ops) : EditScript old new i j (.insert i j len :: ops)
  | replace {i j oldLen newLen : ℕ} {ops : List DiffOp} (hold : 0 < oldLen) (hnew : 0 < newLen)
      (hrest : EditScript old new (i + oldLen) (j + newLen) ops) :
      EditScript old new i j (.replace i oldLen j newLen :: ops)

/-- What the line diff of two texts is: an edit script over the tokens they are
cut into. -/
structure ScriptDiff (tokens : Bytes → List Bytes) (fromLines : Bytes → Bytes → TextDiff)
    (old new : Bytes) : Prop where
  oldSlices : (fromLines old new).oldSlices = tokens old
  newSlices : (fromLines old new).newSlices = tokens new
  script : EditScript (tokens old) (tokens new) 0 0 (fromLines old new).ops

/-- Its changes are blocks of maximal length. -/
structure LineDiff (tokens : Bytes → List Bytes) (fromLines : Bytes → Bytes → TextDiff)
    (old new : Bytes) : Prop extends ScriptDiff tokens fromLines old new where
  grouped : (fromLines old new).ops.IsChain fun a b => a.isEqual = true ∨ b.isEqual = true

/-- The line diff of any two texts is one. -/
def LineDiffs (tokens : Bytes → List Bytes) (fromLines : Bytes → Bytes → TextDiff) : Prop :=
  ∀ old new, isUtf8 old = true → isUtf8 new = true → LineDiff tokens fromLines old new

def Hunk.edit (h : Hunk) : Lib.Edit Bytes := ⟨h.start, h.stop, h.lines⟩

theorem EditScript.le {old new : List Bytes} {i j : ℕ} {ops : List DiffOp}
    (h : EditScript old new i j ops) : i ≤ old.length ∧ j ≤ new.length := by
  induction h with
  | done => exact ⟨le_rfl, le_rfl⟩
  | equal hlen hsame hrest ih => omega
  | delete hlen hrest ih => omega
  | insert hlen hrest ih => omega
  | replace hold hnew hrest ih => omega

/-- The edits of one side: in the base, apart from each other, and woven into
the base they give the side. -/
structure SideEdits (base side : List Bytes) (edits : List (Lib.Edit Bytes)) : Prop where
  fits : ∀ e ∈ edits, e.Fits base.length
  apart : edits.Pairwise fun e f => e.stop < f.start
  weave : Lib.weave base edits = side

/-- The hunks of a script, from old line `i` on. -/
structure HunksFrom (old new : List Bytes) (i j : ℕ) (strict : Bool)
    (edits : List (Lib.Edit Bytes)) : Prop where
  fits : ∀ e ∈ edits, e.Fits old.length
  starts : ∀ e ∈ edits, i ≤ e.start ∧ (strict = true → i < e.start)
  apart : edits.Pairwise fun e f => e.stop < f.start
  weave : Lib.weaveFrom old edits i = new.drop j

/-- A change before hunks that begin beyond it. -/
theorem HunksFrom.change {old new : List Bytes} {i j stop : ℕ} {lines : List Bytes}
    {edits : List (Lib.Edit Bytes)} {j' : ℕ} (h : HunksFrom old new stop j' true edits)
    (hle : i ≤ stop) (hstop : stop ≤ old.length) (hnew : new.drop j = lines ++ new.drop j') :
    HunksFrom old new i j false (⟨i, stop, lines⟩ :: edits) := by
  have hlater : ∀ e ∈ edits, stop < e.start := fun e he => (h.starts e he).2 rfl
  refine ⟨?_, ?_, List.pairwise_cons.mpr ⟨hlater, h.apart⟩, ?_⟩
  · intro e he
    rcases List.mem_cons.mp he with rfl | he
    · exact ⟨hle, hstop⟩
    · exact h.fits e he
  · intro e he
    refine ⟨?_, fun hstrict => absurd hstrict Bool.false_ne_true⟩
    rcases List.mem_cons.mp he with rfl | he
    · exact le_rfl
    · exact hle.trans (hlater e he).le
  · have hothers : edits.filter (fun f => decide (f ≠ ⟨i, stop, lines⟩)) = edits := by
      rw [List.filter_eq_self]
      intro e he
      rw [decide_eq_true_eq]
      rintro rfl
      have := hlater _ he
      simp only at this
      omega
    rw [Lib.weaveFrom_cons ⟨hle, hstop⟩ le_rfl fun e he => .inr ⟨(hlater e he).le, fun hsame => ?_⟩,
      hothers, h.weave, Nat.sub_self, List.take_zero, List.nil_append, hnew]
    have hstart := hlater e he
    have heq : i = e.start := hsame.2.2
    omega

theorem equal_after_change {op : DiffOp} {ops : List DiffOp}
    (h : (op :: ops).IsChain fun a b => a.isEqual = true ∨ b.isEqual = true)
    (hchange : op.isEqual = false) : ops.head?.all DiffOp.isEqual = true := by
  cases ops with
  | nil => rfl
  | cons next ops =>
      rw [List.isChain_cons_cons, hchange] at h
      exact h.1.resolve_left Bool.false_ne_true

theorem hunksFrom_of_script {old new : List Bytes} {i j : ℕ} {ops : List DiffOp}
    (h : EditScript old new i j ops)
    (hgrouped : ops.IsChain fun a b => a.isEqual = true ∨ b.isEqual = true) :
    HunksFrom old new i j (ops.head?.all DiffOp.isEqual) ((hunksOf ops new).map Hunk.edit) := by
  induction h with
  | done =>
      refine ⟨by simp [hunksOf], by simp [hunksOf], .nil, ?_⟩
      rw [hunksOf, List.filterMap_nil, List.map_nil, Lib.weaveFrom_nil, List.drop_length,
        List.drop_length]
  | @equal i j len ops hlen hsame hrest ih =>
      have hrec := ih hgrouped.tail
      obtain ⟨hi, hj⟩ := hrest.le
      have hhunks : hunksOf (.equal i j len :: ops) new = hunksOf ops new := rfl
      have hlater : ∀ e ∈ (hunksOf ops new).map Hunk.edit, i + len ≤ e.start :=
        fun e he => (hrec.starts e he).1
      rw [hhunks]
      refine ⟨hrec.fits, fun e he => ?_, hrec.apart, ?_⟩
      · have := hlater e he
        exact ⟨by omega, fun _ => by omega⟩
      · rw [Lib.weaveFrom_split (Nat.le_add_right i len) (by omega), Nat.add_sub_cancel_left,
          Lib.weave_untouched hlater, hrec.weave, hsame, ← List.drop_drop, List.take_append_drop]
  | @delete i j len ops hlen hrest ih =>
      have hrec := ih hgrouped.tail
      rw [equal_after_change hgrouped rfl] at hrec
      exact hrec.change (Nat.le_add_right i len) hrest.le.1 rfl
  | @insert i j len ops hlen hrest ih =>
      have hrec := ih hgrouped.tail
      rw [equal_after_change hgrouped rfl] at hrec
      refine hrec.change le_rfl hrest.le.1 ?_
      rw [← List.drop_drop, List.take_append_drop]
  | @replace i j oldLen newLen ops hold hnew hrest ih =>
      have hrec := ih hgrouped.tail
      rw [equal_after_change hgrouped rfl] at hrec
      refine hrec.change (Nat.le_add_right i oldLen) hrest.le.1 ?_
      rw [← List.drop_drop, List.take_append_drop]

/-- The lines of a text are its hunks woven into the base's lines. -/
theorem LineDiff.sideEdits {tokens : Bytes → List Bytes}
    {fromLines : Bytes → Bytes → TextDiff} {old new : Bytes}
    (h : LineDiff tokens fromLines old new) :
    SideEdits (tokens old) (tokens new)
      ((hunksOf (fromLines old new).ops (fromLines old new).newSlices).map Hunk.edit) := by
  have hhunks := hunksFrom_of_script h.script h.grouped
  rw [h.newSlices]
  exact ⟨hhunks.fits, hhunks.apart, hhunks.weave⟩

/-! ### The hunks of a side -/

/-- What one side changed: nothing, the hunks of the line diff, or, where the
contents are no text, everything. -/
def sideHunks (tokens : Bytes → List Bytes) (fromLines : Bytes → Bytes → TextDiff)
    (base side : Bytes) : List Hunk :=
  if side = base then []
  else if isUtf8 base && isUtf8 side then
    hunksOf (fromLines base side).ops (fromLines base side).newSlices
  else [⟨0, (tokens base).length, tokens side⟩]

def editsOf (hunks : List Hunk) : List (Lib.Edit Bytes) := hunks.map Hunk.edit

theorem sideHunks_edits {tokens : Bytes → List Bytes} {fromLines : Bytes → Bytes → TextDiff}
    (hdiff : LineDiffs tokens fromLines) (base side : Bytes) :
    SideEdits (tokens base) (tokens side) (editsOf (sideHunks tokens fromLines base side)) := by
  rw [sideHunks]
  split_ifs with hsame htext
  · subst hsame
    refine ⟨by simp [editsOf], .nil, ?_⟩
    rw [editsOf, List.map_nil, ← Lib.weaveFrom_zero, Lib.weaveFrom_nil, List.drop_zero]
  · rw [Bool.and_eq_true] at htext
    exact (hdiff base side htext.1 htext.2).sideEdits
  · refine ⟨?_, List.pairwise_singleton _ _, ?_⟩
    · intro e he
      rw [List.mem_singleton.mp he]
      exact ⟨Nat.zero_le _, le_rfl⟩
    · have hwhole : Lib.Edit.Fits (tokens base).length
          (⟨0, (tokens base).length, tokens side⟩ : Lib.Edit Bytes) :=
        ⟨Nat.zero_le _, le_rfl⟩
      have hweave := Lib.weaveFrom_cons hwhole le_rfl fun f hf => absurd hf List.not_mem_nil
      rw [editsOf, List.map_singleton, ← Lib.weaveFrom_zero]
      refine hweave.trans ?_
      simp [Lib.weaveFrom_nil]

/-! ### The pass -/

theorem applyHunks_eq (baseLines : List Bytes) (prev : Option Hunk) (pos : ℕ)
    (l : List (Hunk × Bool)) : applyHunks baseLines prev pos l =
      Lib.applyEdits baseLines (prev.map Hunk.edit) pos (l.map fun h => h.1.edit) := by
  induction l generalizing prev pos with
  | nil => rfl
  | cons h l ih =>
      obtain ⟨hunk, flag⟩ := h
      have hcopy : (prev.any fun p => hunk.isInsertion && p.isInsertion &&
          decide (hunk.start = p.start) && decide (hunk.lines = p.lines)) = true ↔
          prev.map Hunk.edit = some hunk.edit ∧ hunk.edit.start = hunk.edit.stop := by
        cases prev with
        | none => simp
        | some p =>
            simp only [Option.any_some, Hunk.isInsertion, Bool.and_eq_true, decide_eq_true_eq,
              Option.map_some, Option.some.injEq, Hunk.edit, Lib.Edit.mk.injEq]
            constructor
            · rintro ⟨⟨⟨hh, hp⟩, hstart⟩, hlines⟩
              exact ⟨⟨hstart.symm, by omega, hlines.symm⟩, hh⟩
            · rintro ⟨⟨hstart, hstop, hlines⟩, hh⟩
              exact ⟨⟨⟨hh, by omega⟩, hstart.symm⟩, hlines.symm⟩
      rw [applyHunks, List.map_cons, Lib.applyEdits]
      by_cases hskip : prev.map Hunk.edit = some hunk.edit ∧ hunk.edit.start = hunk.edit.stop
      · rw [if_pos (hcopy.mpr hskip), if_pos hskip, ih]
      · rw [if_neg fun h => hskip (hcopy.mp h), if_neg hskip, ih]
        rfl

theorem hunkBefore_total (a b : Hunk × Bool) : hunkBefore a b = true ∨ hunkBefore b a = true := by
  simp only [hunkBefore, Bool.or_eq_true, Bool.and_eq_true, decide_eq_true_eq, Bool.not_eq_true']
  rcases lt_trichotomy a.1.start b.1.start with h | h | h
  · exact .inl (.inl h)
  · cases a.1.isInsertion <;> cases b.1.isInsertion <;> cases a.2 <;> cases b.2 <;> simp [h]
  · exact .inr (.inl h)

theorem hunkBefore_trans {a b c : Hunk × Bool} (hab : hunkBefore a b = true)
    (hbc : hunkBefore b c = true) : hunkBefore a c = true := by
  simp only [hunkBefore, Bool.or_eq_true, Bool.and_eq_true, decide_eq_true_eq,
    Bool.not_eq_true'] at *
  rcases hab with hab | ⟨hab, hab'⟩
  · rcases hbc with hbc | ⟨hbc, -⟩
    · exact .inl (hab.trans hbc)
    · exact .inl (hbc ▸ hab)
  · rcases hbc with hbc | ⟨hbc, hbc'⟩
    · exact .inl (hab ▸ hbc)
    · refine .inr ⟨hab.trans hbc, ?_⟩
      revert hab' hbc'
      generalize a.1.isInsertion = ka, b.1.isInsertion = kb, c.1.isInsertion = kc, a.2 = sa,
        b.2 = sb, c.2 = sc
      revert ka kb kc sa sb sc
      decide

instance : Std.Total (fun a b : Hunk × Bool => hunkBefore a b = true) := ⟨hunkBefore_total⟩

instance : IsTrans (Hunk × Bool) (fun a b => hunkBefore a b = true) :=
  ⟨fun _ _ _ => hunkBefore_trans⟩

/-- The sort key puts edits in the order of the pass. -/
theorem hunkBefore_ordered {a b : Hunk × Bool} (h : hunkBefore a b = true)
    (hb : b.1.start ≤ b.1.stop) : a.1.edit.Ordered b.1.edit := by
  simp only [hunkBefore, Bool.or_eq_true, Bool.and_eq_true, decide_eq_true_eq, Bool.not_eq_true',
    Hunk.isInsertion] at h
  rcases h with h | ⟨heq, ⟨ha, hb'⟩ | ⟨hkind, -⟩⟩
  · exact .inl h
  · have hinsert : a.1.start = a.1.stop := by simpa using ha
    exact .inr ⟨heq, .inl hinsert⟩
  · refine .inr ⟨heq, ?_⟩
    change a.1.start = a.1.stop ∨ b.1.start < b.1.stop
    by_cases ha : a.1.start = a.1.stop
    · exact .inl ha
    · have hne : ¬ b.1.start = b.1.stop := by simpa [ha] using hkind
      exact .inr (by omega)

/-- Hunks that do not conflict are compatible edits. -/
theorem compatible_of_not_conflict {a b : Hunk} (h : hunksConflict a b = false) :
    a.edit.Compatible b.edit := by
  rw [hunksConflict, Bool.or_eq_false_iff] at h
  obtain ⟨hapart, hsame⟩ := h
  constructor
  · change a.stop ≤ b.start ∨ b.stop ≤ a.start
    simp only [Hunk.overlaps, Bool.and_eq_false_iff, decide_eq_false_iff_not, not_lt] at hapart
    exact hapart.symm
  · intro ha hb heq
    change a.start = a.stop at ha
    change b.start = b.stop at hb
    change a.start = b.start at heq
    have hlines : a.lines = b.lines := by
      rw [Hunk.isInsertion, Hunk.isInsertion, decide_eq_true ha, decide_eq_true hb,
        decide_eq_true heq] at hsame
      simpa using hsame
    simp only [Hunk.edit, Lib.Edit.mk.injEq]
    exact ⟨heq, by omega, hlines⟩

theorem SideEdits.compatible {base side : List Bytes} {edits : List (Lib.Edit Bytes)}
    (h : SideEdits base side edits) : edits.Pairwise Lib.Edit.Compatible := by
  refine h.apart.imp_of_mem fun {a b} ha hb hlt => ⟨.inl hlt.le, fun hinsert _ heq => ?_⟩
  have hle := (h.fits a ha).1
  omega

theorem SideEdits.flatten {tokens : Bytes → List Bytes} {base side : Bytes}
    {edits : List (Lib.Edit Bytes)} (htokens : ∀ text, (tokens text).flatten = text)
    (h : SideEdits (tokens base) (tokens side) edits) :
    (Lib.weave (tokens base) edits).flatten = side := by
  rw [h.weave, htokens]

/-- What a merge of lines is: both sides woven into the base, the sides alike or
compatible. -/
structure LinesWoven (tokens : Bytes → List Bytes) (base ours theirs result : Bytes)
    (eo et : List (Lib.Edit Bytes)) : Prop where
  result : result = (Lib.weave (tokens base) (eo ++ et)).flatten
  sides : ours = theirs ∨ (eo ++ et).Pairwise Lib.Edit.Compatible

theorem mergeLines_woven {tokens : Bytes → List Bytes}
    (htokens : ∀ text, (tokens text).flatten = text) {fromLines : Bytes → Bytes → TextDiff} (hdiff : LineDiffs tokens fromLines)
    {base ours theirs result : Bytes} (h : mergeLines fromLines base ours theirs = .merged result) :
    LinesWoven tokens base ours theirs result (editsOf (sideHunks tokens fromLines base ours))
      (editsOf (sideHunks tokens fromLines base theirs)) := by
  have hours := sideHunks_edits hdiff base ours
  have htheirs := sideHunks_edits hdiff base theirs
  have hsame : sideHunks tokens fromLines base base = [] := if_pos rfl
  rw [mergeLines] at h
  split_ifs at h with hob htb hot htext
  · obtain rfl := MergeOutcome.merged.inj h
    subst hob
    rw [hsame]
    exact ⟨(htheirs.flatten htokens).symm, .inr htheirs.compatible⟩
  · obtain rfl := MergeOutcome.merged.inj h
    subst htb
    rw [hsame]
    refine ⟨?_, .inr ?_⟩
    · rw [editsOf, editsOf, List.map_nil, List.append_nil]
      exact (hours.flatten htokens).symm
    · rw [editsOf, editsOf, List.map_nil, List.append_nil]
      exact hours.compatible
  · obtain rfl := MergeOutcome.merged.inj h
    subst hot
    refine ⟨?_, .inl rfl⟩
    rw [Lib.weave_self]
    exact (hours.flatten htokens).symm
  · -- both sides changed, and no hunks conflict
    rw [Bool.not_eq_true', Bool.not_eq_false, Bool.and_eq_true, Bool.and_eq_true] at htext
    obtain ⟨⟨hbase, ho⟩, ht⟩ := htext
    have hunksOurs : hunksOf (fromLines base ours).ops (fromLines base ours).newSlices =
        sideHunks tokens fromLines base ours := by
      rw [sideHunks, if_neg hob, if_pos (by rw [hbase, ho]; rfl)]
    have hunksTheirs : hunksOf (fromLines base theirs).ops (fromLines base theirs).newSlices =
        sideHunks tokens fromLines base theirs := by
      rw [sideHunks, if_neg htb, if_pos (by rw [hbase, ht]; rfl)]
    simp only [hunksOurs, hunksTheirs, (hdiff base ours hbase ho).oldSlices] at h
    split_ifs at h with hconflict
    obtain rfl := MergeOutcome.merged.inj h
    have hcompat : (editsOf (sideHunks tokens fromLines base ours) ++
        editsOf (sideHunks tokens fromLines base theirs)).Pairwise Lib.Edit.Compatible := by
      refine List.pairwise_append.mpr ⟨hours.compatible, htheirs.compatible, fun a ha b hb => ?_⟩
      obtain ⟨ho, hmemOurs, rfl⟩ := List.mem_map.mp ha
      obtain ⟨ht, hmemTheirs, rfl⟩ := List.mem_map.mp hb
      refine compatible_of_not_conflict ?_
      simp only [List.any_eq_true, not_exists, not_and, Bool.not_eq_true] at hconflict
      exact hconflict ho hmemOurs ht hmemTheirs
    refine ⟨?_, .inr hcompat⟩
    rw [applyHunks_eq]
    congr 1
    have hfits : ∀ e ∈ editsOf (sideHunks tokens fromLines base ours) ++
        editsOf (sideHunks tokens fromLines base theirs), e.Fits (tokens base).length := by
      intro e he
      exact (List.mem_append.mp he).elim (hours.fits e) (htheirs.fits e)
    refine Lib.applyEdits_weave ?_ hfits hcompat ?_
    · refine ((List.perm_insertionSort _ _).map _).trans ?_
      rw [List.map_append, List.map_map, List.map_map]
      exact List.Perm.refl _
    · rw [List.pairwise_map]
      refine (List.pairwise_insertionSort _ _).imp_of_mem fun {a b} _ hb hbefore => ?_
      refine hunkBefore_ordered hbefore ?_
      rw [List.mem_insertionSort] at hb
      have hmem : b.1.edit ∈ editsOf (sideHunks tokens fromLines base ours) ++
          editsOf (sideHunks tokens fromLines base theirs) := by
        rcases List.mem_append.mp hb with hb | hb
        · obtain ⟨c, hc, rfl⟩ := List.mem_map.mp hb
          exact List.mem_append_left _ (List.mem_map_of_mem hc)
        · obtain ⟨c, hc, rfl⟩ := List.mem_map.mp hb
          exact List.mem_append_right _ (List.mem_map_of_mem hc)
      exact (hfits _ hmem).1

/-! ### Lines without their newline -/

/-- The order in which the pass applies two hunks. -/
def Hunk.Precedes (a b : Hunk) : Prop :=
  a.start < b.start ∨ a.start = b.start ∧ a.start = a.stop ∧ b.start < b.stop

/-- A hunk of one side ends in a line without its newline, and a hunk of the
other side brings lines after it. -/
def Glued (hunks others : List Hunk) : Prop :=
  ∃ h ∈ hunks, ∃ k ∈ others, h.Precedes k ∧ k.lines ≠ [] ∧
    ∃ line, h.lines.getLast? = some line ∧ ¬ Lib.Marked isNewline line

/-- The part of its point that an edit is. -/
def editPart (e : Lib.Edit Bytes) : Lib.Part := if e.start = e.stop then .insert else .replace

theorem editPart_at {e : Lib.Edit Bytes} {n : ℕ} (h : e.Fits n) : e.At e.start (editPart e) := by
  rw [editPart]
  split_ifs with hinsert
  · exact ⟨rfl, hinsert.symm⟩
  · exact ⟨rfl, lt_of_le_of_ne h.1 hinsert⟩

theorem Hunk.Precedes.slotBefore {a b : Hunk} (h : a.Precedes b) :
    Lib.SlotBefore (a.start, editPart a.edit) (b.start, editPart b.edit) := by
  rcases h with hlt | ⟨heq, hinsert, hreplace⟩
  · exact .inl hlt
  · refine .inr ⟨heq, ?_⟩
    have ha : editPart a.edit = .insert := if_pos hinsert
    have hb : editPart b.edit = .replace := if_neg (Nat.ne_of_lt hreplace)
    simp [ha, hb, Lib.Part.rank]

theorem precedes_of_slotBefore {a b : Hunk} {i j : ℕ} {p q : Lib.Part} (ha : a.edit.At i p)
    (hb : b.edit.At j q) (h : Lib.SlotBefore (i, p) (j, q)) : a.Precedes b := by
  have hstart : ∀ {e : Lib.Edit Bytes} {i : ℕ} {p : Lib.Part}, e.At i p → e.start = i := by
    intro e i p hat
    cases p with
    | insert => exact hat.1
    | replace => exact hat.1
    | keep => exact hat.elim
  obtain rfl : a.start = i := hstart ha
  obtain rfl : b.start = j := hstart hb
  rcases h with hlt | ⟨heq, hrank⟩
  · exact .inl hlt
  · refine .inr ⟨heq, ?_⟩
    cases p with
    | keep => exact ha.elim
    | replace =>
        cases q with
        | keep => exact hb.elim
        | insert => simp [Lib.Part.rank] at hrank
        | replace => simp at hrank
    | insert =>
        cases q with
        | keep => exact hb.elim
        | insert => simp at hrank
        | replace => exact ⟨ha.2.symm, hb.2⟩

/-- In a weave whose lines all end but the last, what comes before other lines
ends too. -/
theorem marked_of_precedes {base : List Bytes} {hunks : List Hunk}
    (hfits : ∀ e ∈ editsOf hunks, e.Fits base.length)
    (hcompat : (editsOf hunks).Pairwise Lib.Edit.Compatible)
    (hweave : (Lib.weave base (editsOf hunks)).Pairwise fun l _ => Lib.Marked isNewline l)
    {h k : Hunk} (hh : h ∈ hunks) (hk : k ∈ hunks) (hbefore : h.Precedes k) (hne : k.lines ≠ [])
    {line : Bytes} (hline : line ∈ h.lines) : Lib.Marked isNewline line := by
  have hslots := (Lib.weave_pairwise.mp hweave).2
  have hedit := hfits _ (List.mem_map_of_mem hh)
  have kedit := hfits _ (List.mem_map_of_mem hk)
  obtain ⟨next, hnext⟩ := List.exists_mem_of_ne_nil _ hne
  have hmemH : h.edit.start ≤ base.length := hedit.1.trans hedit.2
  have hmemK : k.edit.start ≤ base.length := kedit.1.trans kedit.2
  refine hslots _ (Lib.mem_slots.mpr hmemH) _ (Lib.mem_slots.mpr hmemK) hbefore.slotBefore line ?_
    next ?_
  · rw [Lib.piece_of_mem hcompat (List.mem_map_of_mem hh) (editPart_at hedit)]
    exact hline
  · rw [Lib.piece_of_mem hcompat (List.mem_map_of_mem hk) (editPart_at kedit)]
    exact hnext

/-- One element of a list before which all end: it ends, or is the last. -/
theorem marked_or_last {lines : List Bytes}
    (h : lines.Pairwise fun l _ => Lib.Marked isNewline l) {line : Bytes} (hline : line ∈ lines) :
    Lib.Marked isNewline line ∨ lines.getLast? = some line := by
  induction lines with
  | nil => cases hline
  | cons first rest ih =>
      obtain ⟨hhead, htail⟩ := List.pairwise_cons.mp h
      rcases List.mem_cons.mp hline with rfl | hline
      · cases rest with
        | nil => exact .inr rfl
        | cons next rest => exact .inl (hhead next List.mem_cons_self)
      · rcases ih htail hline with hmarked | hlast
        · exact .inl hmarked
        · exact .inr (by rw [List.getLast?_cons, hlast]; rfl)

/-! ### The merge as lines -/

theorem textLines_flatten (text : Bytes) : (textLines text).flatten = text :=
  Lib.flatten_cutAfter text

theorem textLines_parts (text : Bytes) : ∀ line ∈ textLines text, Lib.IsPart isNewline line :=
  (Lib.cutAfter_parts text).1

theorem textLines_marked (text : Bytes) :
    (textLines text).Pairwise fun line _ => Lib.Marked isNewline line :=
  (Lib.cutAfter_parts text).2

/-- The element at a slot that no edit covers stands in every weave of some of
the edits. -/
theorem mem_piece_keep {base : List Bytes} {edits edits' : List (Lib.Edit Bytes)} {i : ℕ}
    {line : Bytes} (hsub : edits' ⊆ edits) (hfree : ∀ e ∈ edits, ¬ e.Covers i)
    (hline : base[i]? = some line) : line ∈ Lib.piece base edits' i .keep := by
  have hkept : ¬ ∃ e ∈ edits', e.Covers i := by
    rintro ⟨e, he, hcovers⟩
    exact hfree e (hsub he) hcovers
  rw [Lib.piece, if_neg hkept, hline]
  exact List.mem_singleton_self line

/-- A line of one side's hunk before a line of the other's. -/
theorem marked_of_not_glued {base : List Bytes} {ho ht : List Hunk} (hglue : ¬ Glued ho ht)
    (hcompat : (editsOf ho).Pairwise Lib.Edit.Compatible)
    (hside : (Lib.weave base (editsOf ho)).Pairwise fun l _ => Lib.Marked isNewline l)
    {i j : ℕ} {p q : Lib.Part} (hi : (i, p) ∈ Lib.slots base.length)
    (hbefore : Lib.SlotBefore (i, p) (j, q)) {e f : Lib.Edit Bytes} (he : e ∈ editsOf ho)
    (hf : f ∈ editsOf ht) (heAt : e.At i p) (hfAt : f.At j q) {x y : Bytes} (hx : x ∈ e.new)
    (hy : y ∈ f.new) : Lib.Marked isNewline x := by
  obtain ⟨h, hh, rfl⟩ := List.mem_map.mp he
  obtain ⟨k, hk, rfl⟩ := List.mem_map.mp hf
  have hpiece := (Lib.weave_pairwise.mp hside).1 _ hi
  rw [Lib.piece_of_mem hcompat he heAt] at hpiece
  rcases marked_or_last hpiece hx with hmarked | hlast
  · exact hmarked
  · by_contra hno
    exact hglue ⟨h, hh, k, hk, precedes_of_slotBefore heAt hfAt hbefore, List.ne_nil_of_mem hy, x,
      hlast, hno⟩

/-- Two sides that leave no open line before the other's weave into lines that
all end but the last. -/
theorem woven_marked {base : List Bytes} {ho ht : List Hunk}
    (hcompat : (editsOf ho ++ editsOf ht).Pairwise Lib.Edit.Compatible)
    (hours : (Lib.weave base (editsOf ho)).Pairwise fun l _ => Lib.Marked isNewline l)
    (htheirs : (Lib.weave base (editsOf ht)).Pairwise fun l _ => Lib.Marked isNewline l)
    (hglue : ¬ Glued ho ht) (hglue' : ¬ Glued ht ho) :
    (Lib.weave base (editsOf ho ++ editsOf ht)).Pairwise fun l _ => Lib.Marked isNewline l := by
  obtain ⟨hcompatOurs, hcompatTheirs, -⟩ := List.pairwise_append.mp hcompat
  have hsubOurs : editsOf ho ⊆ editsOf ho ++ editsOf ht := List.subset_append_left _ _
  have hsubTheirs : editsOf ht ⊆ editsOf ho ++ editsOf ht := List.subset_append_right _ _
  obtain ⟨hpiecesO, hslotsO⟩ := Lib.weave_pairwise.mp hours
  obtain ⟨hpiecesT, hslotsT⟩ := Lib.weave_pairwise.mp htheirs
  refine Lib.weave_pairwise.mpr ⟨?_, ?_⟩
  · rintro ⟨i, p⟩ hs
    rcases (Lib.piece base (editsOf ho ++ editsOf ht) i p).eq_nil_or_concat with hnil | ⟨l, x, hl⟩
    · simp only [hnil]
      exact .nil
    · have hx : x ∈ Lib.piece base (editsOf ho ++ editsOf ht) i p := by
        rw [hl, List.concat_eq_append]
        exact List.mem_append_right _ (List.mem_singleton_self x)
      rcases Lib.mem_piece hx with ⟨rfl, hfree, hline⟩ | ⟨e, he, hat, -⟩
      · have hone : Lib.piece base (editsOf ho ++ editsOf ht) i .keep = [x] := by
          have hkept : ¬ ∃ e ∈ editsOf ho ++ editsOf ht, e.Covers i := by
            rintro ⟨e, he, hcovers⟩
            exact hfree e he hcovers
          rw [Lib.piece, if_neg hkept, hline]
          rfl
        simp only [hone]
        exact List.pairwise_singleton _ _
      · simp only [Lib.piece_of_mem hcompat he hat]
        rcases List.mem_append.mp he with he | he
        · have hpiece := hpiecesO _ hs
          rwa [Lib.piece_of_mem hcompatOurs he hat] at hpiece
        · have hpiece := hpiecesT _ hs
          rwa [Lib.piece_of_mem hcompatTheirs he hat] at hpiece
  · rintro ⟨i, p⟩ hs ⟨j, q⟩ hs' hbefore x hx y hy
    rcases Lib.mem_piece hx with ⟨rfl, hfree, hline⟩ | ⟨e, he, hat, hxe⟩
    · rcases Lib.mem_piece hy with ⟨rfl, hfree', hline'⟩ | ⟨f, hf, hat', hyf⟩
      · exact hslotsO _ hs _ hs' hbefore x (mem_piece_keep hsubOurs hfree hline) y
          (mem_piece_keep hsubOurs hfree' hline')
      · rcases List.mem_append.mp hf with hf | hf
        · rw [← Lib.piece_of_mem hcompatOurs hf hat'] at hyf
          exact hslotsO _ hs _ hs' hbefore x (mem_piece_keep hsubOurs hfree hline) y hyf
        · rw [← Lib.piece_of_mem hcompatTheirs hf hat'] at hyf
          exact hslotsT _ hs _ hs' hbefore x (mem_piece_keep hsubTheirs hfree hline) y hyf
    · rcases Lib.mem_piece hy with ⟨rfl, hfree', hline'⟩ | ⟨f, hf, hat', hyf⟩
      · rcases List.mem_append.mp he with he | he
        · rw [← Lib.piece_of_mem hcompatOurs he hat] at hxe
          exact hslotsO _ hs _ hs' hbefore x hxe y (mem_piece_keep hsubOurs hfree' hline')
        · rw [← Lib.piece_of_mem hcompatTheirs he hat] at hxe
          exact hslotsT _ hs _ hs' hbefore x hxe y (mem_piece_keep hsubTheirs hfree' hline')
      · rcases List.mem_append.mp he with he | he <;> rcases List.mem_append.mp hf with hf | hf
        · rw [← Lib.piece_of_mem hcompatOurs he hat] at hxe
          rw [← Lib.piece_of_mem hcompatOurs hf hat'] at hyf
          exact hslotsO _ hs _ hs' hbefore x hxe y hyf
        · exact marked_of_not_glued hglue hcompatOurs hours hs hbefore he hf hat hat' hxe hyf
        · exact marked_of_not_glued hglue' hcompatTheirs htheirs hs hbefore he hf hat hat' hxe hyf
        · rw [← Lib.piece_of_mem hcompatTheirs he hat] at hxe
          rw [← Lib.piece_of_mem hcompatTheirs hf hat'] at hyf
          exact hslotsT _ hs _ hs' hbefore x hxe y hyf

/-- A line of a weave is one of the base or of an edit. -/
theorem mem_weave {base : List Bytes} {edits : List (Lib.Edit Bytes)} {line : Bytes}
    (h : line ∈ Lib.weave base edits) : line ∈ base ∨ ∃ e ∈ edits, line ∈ e.new := by
  rw [Lib.weave_slots, List.mem_flatMap] at h
  obtain ⟨s, -, h⟩ := h
  rcases Lib.mem_piece h with ⟨-, -, hline⟩ | ⟨e, he, -, hline⟩
  · exact .inl (List.mem_of_getElem? hline)
  · exact .inr ⟨e, he, hline⟩

/-- The lines an edit of a side brings are lines of the side. -/
theorem SideEdits.mem {base side : List Bytes} {edits : List (Lib.Edit Bytes)}
    (h : SideEdits base side edits) {e : Lib.Edit Bytes} (he : e ∈ edits) {line : Bytes}
    (hline : line ∈ e.new) : line ∈ side := by
  have hfits := h.fits e he
  have hslot : e.start ≤ base.length := hfits.1.trans hfits.2
  rw [← h.weave, Lib.weave_slots, List.mem_flatMap]
  refine ⟨(e.start, editPart e), Lib.mem_slots.mpr hslot, ?_⟩
  rw [Lib.piece_of_mem h.compatible he (editPart_at hfits)]
  exact hline

/-- The lines of a merge: each base line that neither side covers and each
side's new lines, in place, a change that both made once, and no other line. -/
structure MergesLines (fromLines : Bytes → Bytes → TextDiff) (base ours theirs result : Bytes) :
    Prop where
  woven : textLines result = Lib.weave (textLines base)
    (editsOf (sideHunks textLines fromLines base ours) ++
      editsOf (sideHunks textLines fromLines base theirs))
  known : ∀ line ∈ textLines result,
    line ∈ textLines base ∨ line ∈ textLines ours ∨ line ∈ textLines theirs

/-- The merged text has the merge's lines unless a side's last line lacks its
newline and the other side's lines come after it. -/
theorem mergeLines_lines_iff {fromLines : Bytes → Bytes → TextDiff}
    (hdiff : LineDiffs textLines fromLines)
    {base ours theirs result : Bytes} (h : mergeLines fromLines base ours theirs = .merged result) :
    MergesLines fromLines base ours theirs result ↔
      ¬ Glued (sideHunks textLines fromLines base ours)
          (sideHunks textLines fromLines base theirs) ∧
        ¬ Glued (sideHunks textLines fromLines base theirs)
          (sideHunks textLines fromLines base ours) := by
  have hours := sideHunks_edits hdiff base ours
  have htheirs := sideHunks_edits hdiff base theirs
  obtain ⟨hresult, hsides⟩ := mergeLines_woven textLines_flatten hdiff h
  have hknown : ∀ line ∈ Lib.weave (textLines base)
      (editsOf (sideHunks textLines fromLines base ours) ++
        editsOf (sideHunks textLines fromLines base theirs)),
      line ∈ textLines base ∨ line ∈ textLines ours ∨ line ∈ textLines theirs := by
    intro line hline
    rcases mem_weave hline with hbase | ⟨e, he, hline⟩
    · exact .inl hbase
    · rcases List.mem_append.mp he with he | he
      · exact .inr (.inl (hours.mem he hline))
      · exact .inr (.inr (htheirs.mem he hline))
  have hparts : ∀ line ∈ Lib.weave (textLines base)
      (editsOf (sideHunks textLines fromLines base ours) ++
        editsOf (sideHunks textLines fromLines base theirs)), Lib.IsPart isNewline line := by
    intro line hline
    rcases hknown line hline with hline | hline | hline
    · exact textLines_parts _ line hline
    · exact textLines_parts _ line hline
    · exact textLines_parts _ line hline
  have hoursMarked : (Lib.weave (textLines base)
      (editsOf (sideHunks textLines fromLines base ours))).Pairwise
        fun l _ => Lib.Marked isNewline l := by
    rw [hours.weave]
    exact textLines_marked ours
  have htheirsMarked : (Lib.weave (textLines base)
      (editsOf (sideHunks textLines fromLines base theirs))).Pairwise
        fun l _ => Lib.Marked isNewline l := by
    rw [htheirs.weave]
    exact textLines_marked theirs
  have hread : MergesLines fromLines base ours theirs result ↔
      (Lib.weave (textLines base) (editsOf (sideHunks textLines fromLines base ours) ++
        editsOf (sideHunks textLines fromLines base theirs))).Pairwise
          fun l _ => Lib.Marked isNewline l := by
    rw [← Lib.cutAfter_flatten_iff hparts, ← hresult]
    constructor
    · exact fun hmerge => hmerge.woven
    · exact fun hwoven => ⟨hwoven, fun line hline => hknown line (hwoven ▸ hline)⟩
  rw [hread]
  have hnot : ∀ {hs ks all : List Hunk}, (∀ e ∈ editsOf all, e.Fits (textLines base).length) →
      (editsOf all).Pairwise Lib.Edit.Compatible →
      (Lib.weave (textLines base) (editsOf all)).Pairwise (fun l _ => Lib.Marked isNewline l) →
      hs ⊆ all → ks ⊆ all → ¬ Glued hs ks := by
    rintro hs ks all hfits hcompat hmarked hsub hsub' ⟨a, ha, k, hk, hbefore, hne, line, hline, hno⟩
    exact hno (marked_of_precedes hfits hcompat hmarked (hsub ha) (hsub' hk) hbefore hne
      (List.mem_of_getLast? hline))
  rcases hsides with rfl | hcompat
  · -- the sides are alike: the weave is the side
    rw [Lib.weave_self]
    have hno := hnot hours.fits hours.compatible hoursMarked (List.Subset.refl _)
      (List.Subset.refl _)
    exact ⟨fun _ => ⟨hno, hno⟩, fun _ => hoursMarked⟩
  · have hall : editsOf (sideHunks textLines fromLines base ours ++
          sideHunks textLines fromLines base theirs) =
        editsOf (sideHunks textLines fromLines base ours) ++
          editsOf (sideHunks textLines fromLines base theirs) :=
      List.map_append
    constructor
    · intro hmarked
      have hfits : ∀ e ∈ editsOf (sideHunks textLines fromLines base ours ++
          sideHunks textLines fromLines base theirs), e.Fits (textLines base).length := by
        rw [hall]
        intro e he
        exact (List.mem_append.mp he).elim (hours.fits e) (htheirs.fits e)
      rw [← hall] at hcompat hmarked
      exact ⟨hnot hfits hcompat hmarked (List.subset_append_left _ _)
          (List.subset_append_right _ _),
        hnot hfits hcompat hmarked (List.subset_append_right _ _)
          (List.subset_append_left _ _)⟩
    · rintro ⟨hglue, hglue'⟩
      exact woven_marked hcompat hoursMarked htheirsMarked hglue hglue'

/-! ### A line without its newline -/

namespace OpenLine

/-- The lines two texts begin with alike. -/
def commonPrefix : List Bytes → List Bytes → ℕ
  | a :: as, b :: bs => if a = b then commonPrefix as bs + 1 else 0
  | _, _ => 0

theorem commonPrefix_spec (as bs : List Bytes) :
    as.take (commonPrefix as bs) = bs.take (commonPrefix as bs) ∧
      commonPrefix as bs ≤ as.length ∧ commonPrefix as bs ≤ bs.length := by
  induction as, bs using commonPrefix.induct with
  | case1 a as bs ih =>
      rw [commonPrefix, if_pos rfl]
      simpa using ih
  | case2 a as b bs hne =>
      rw [commonPrefix, if_neg hne]
      simp
  | case3 as bs h =>
      have hzero : commonPrefix as bs = 0 := by
        cases as with
        | nil => rfl
        | cons a as =>
            cases bs with
            | nil => rfl
            | cons b bs => exact (h a as b bs rfl rfl).elim
      simp [hzero]

/-- The edits past the common prefix. -/
def tailOps (n old new : ℕ) : List DiffOp :=
  if old = n ∧ new = n then []
  else if old = n then [.insert n n (new - n)]
  else if new = n then [.delete n (old - n) n]
  else [.replace n (old - n) n (new - n)]

/-- The diff that keeps the common first lines. -/
def prefixDiffOf (tokens : Bytes → List Bytes) (old new : Bytes) : TextDiff :=
  let a := tokens old
  let b := tokens new
  let n := commonPrefix a b
  ⟨a, b, (if n = 0 then [] else [.equal 0 0 n]) ++ tailOps n a.length b.length⟩

theorem tailOps_script {old new : List Bytes} {n : ℕ} (hold : n ≤ old.length)
    (hnew : n ≤ new.length) : EditScript old new n n (tailOps n old.length new.length) := by
  rw [tailOps]
  split_ifs with hboth ho hn
  · obtain ⟨ho, hn⟩ := hboth
    have hdone : EditScript old new old.length new.length [] := .done
    rwa [ho, hn] at hdone
  · refine .insert (by omega) ?_
    have hdone : EditScript old new old.length new.length [] := .done
    rwa [ho, show new.length = n + (new.length - n) by omega] at hdone
  · refine .delete (by omega) ?_
    have hdone : EditScript old new old.length new.length [] := .done
    rwa [hn, show old.length = n + (old.length - n) by omega] at hdone
  · refine .replace (by omega) (by omega) ?_
    have hdone : EditScript old new old.length new.length [] := .done
    rwa [show old.length = n + (old.length - n) by omega,
      show new.length = n + (new.length - n) by omega] at hdone

theorem prefixDiffOf_lineDiffs (tokens : Bytes → List Bytes) :
    LineDiffs tokens (prefixDiffOf tokens) := by
  intro old new _ _
  obtain ⟨hsame, hold, hnew⟩ := commonPrefix_spec (tokens old) (tokens new)
  have htail := tailOps_script hold hnew
  refine ⟨⟨rfl, rfl, ?_⟩, ?_⟩
  · change EditScript _ _ 0 0 ((if commonPrefix _ _ = 0 then [] else [_]) ++ _)
    split_ifs with hzero
    · rw [List.nil_append, hzero]
      rwa [hzero] at htail
    · refine .equal (Nat.pos_of_ne_zero hzero) ?_ ?_
      · rw [List.drop_zero, List.drop_zero]
        exact hsame
      · rwa [Nat.zero_add]
  · change ((if commonPrefix _ _ = 0 then [] else [_]) ++ tailOps _ _ _).IsChain _
    have hone : ∀ n o m, (tailOps n o m).length ≤ 1 := by
      intro n o m
      rw [tailOps]
      split_ifs <;> simp
    have hshort := hone (commonPrefix (tokens old) (tokens new)) (tokens old).length
      (tokens new).length
    match htail' : tailOps (commonPrefix (tokens old) (tokens new)) (tokens old).length
        (tokens new).length, hshort with
    | [], _ => split_ifs <;> simp
    | [op], _ => split_ifs <;> simp [DiffOp.isEqual]

def prefixDiff : Bytes → Bytes → TextDiff := prefixDiffOf textLines

theorem prefixDiff_lineDiffs : LineDiffs textLines prefixDiff := prefixDiffOf_lineDiffs textLines

/-- `a b`, the last newline deleted on one side, a line added on the other. -/
def base : Bytes := [97, 10, 98, 10]
def ours : Bytes := [97, 10, 98]
def theirs : Bytes := [97, 10, 98, 10, 99, 10]

end OpenLine

theorem mergeLines_lines_iff_open : MergesLines OpenLine.prefixDiff OpenLine.base OpenLine.ours
      OpenLine.theirs [97, 10, 98, 99, 10] ↔
    ¬ Glued (sideHunks textLines OpenLine.prefixDiff OpenLine.base OpenLine.ours)
        (sideHunks textLines OpenLine.prefixDiff OpenLine.base OpenLine.theirs) ∧
      ¬ Glued (sideHunks textLines OpenLine.prefixDiff OpenLine.base OpenLine.theirs)
        (sideHunks textLines OpenLine.prefixDiff OpenLine.base OpenLine.ours) :=
  mergeLines_lines_iff OpenLine.prefixDiff_lineDiffs (by decide +kernel)

/-- The merge of the two joins them in the one line `bc`, which is in none of
the three texts. -/
theorem open_line_joined : ¬ ∀ fromLines, LineDiffs textLines fromLines → ∀ base ours theirs result,
    mergeLines fromLines base ours theirs = .merged result →
    MergesLines fromLines base ours theirs result := by
  intro hall
  have hmerge := hall OpenLine.prefixDiff OpenLine.prefixDiff_lineDiffs OpenLine.base OpenLine.ours
    OpenLine.theirs [97, 10, 98, 99, 10] (by decide +kernel)
  have hknown := hmerge.known [98, 99, 10] (by decide +kernel)
  exact absurd hknown (by decide +kernel)

end Naatre
