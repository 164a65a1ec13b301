import Naatre.Lib.Loop
import Naatre.Server.LineMerge

/-!
Blame assembly (`naatre-server/src/derived.rs`): the layers of a path's history,
oldest first, and whom each line of the newest one is attributed to.

The assembler counts the lines of a text by their newlines; the diff cuts it
behind carriage returns too.
-/

namespace Naatre

/-! ### The assembler -/

/-- `BLAME_MAX_LINES`. -/
def blameMaxLines : ℕ := 200000

structure BlameLayer (Id : Type) where
  cs : Id
  author : String
  bytes : Bytes
  deriving DecidableEq

structure BlameLine (Id : Type) where
  cs : Id
  author : String
  text : Bytes
  deriving DecidableEq

/-- The cap's error, or an index out of range. -/
inductive BlameFailure
  | lineCapExceeded
  | panicked
  deriving DecidableEq, Repr

structure BlameAssembler (Id : Type) where
  currentRaw : Bytes
  owners : List (Id × String)

/-- `raw_text`: invalid UTF-8 diffs as empty. -/
def rawText (bytes : Bytes) : Bytes := if isUtf8 bytes then bytes else []

/-- `line_count`. -/
def lineCount (text : Bytes) : ℕ := (textLines text).length

namespace BlameAssembler

variable {Id : Type}

/-- `BlameAssembler::new`. -/
def new (base : BlameLayer Id) : Except BlameFailure (BlameAssembler Id) :=
  let currentRaw := rawText base.bytes
  let lines := lineCount currentRaw
  if blameMaxLines < lines then .error .lineCapExceeded
  else .ok ⟨currentRaw, List.replicate lines (base.cs, base.author)⟩

/-- The new side of one edit: kept lines keep their owners, the others are the
step's. `none` where an owner is out of range. -/
def pushOp {ω : Type} (owners : List ω) (owner : ω) (newOwners : List ω) : DiffOp → Option (List ω)
  | .equal oldIndex _ len =>
      ((List.range len).mapM fun j => owners[oldIndex + j]?).map (newOwners ++ ·)
  | .insert _ _ newLen | .replace _ _ _ newLen => some (newOwners ++ List.replicate newLen owner)
  | .delete _ _ _ => some newOwners

/-- `push_step`. -/
def pushStep (fromLines : Bytes → Bytes → TextDiff) (st : BlameAssembler Id)
    (step : BlameLayer Id) : Except BlameFailure (BlameAssembler Id) :=
  let newRaw := rawText step.bytes
  let newLines := lineCount newRaw
  let owner := (step.cs, step.author)
  if blameMaxLines < newLines then .error .lineCapExceeded
  else match (fromLines st.currentRaw newRaw).ops.foldlM (pushOp st.owners owner) [] with
    | none => .error .panicked
    | some newOwners =>
        -- padded and cut to the number of lines
        let padded := newOwners ++ List.replicate (newLines - newOwners.length) owner
        .ok ⟨newRaw, padded.take newLines⟩

/-- `strip_suffix('\n')`. -/
def stripNewline (line : Bytes) : Bytes := if line.getLast? = some 10 then line.dropLast else line

/-- `finish`. -/
def finish (st : BlameAssembler Id) : List (BlameLine Id) :=
  (((textLines st.currentRaw).map stripNewline).zip st.owners).map
    fun (text, owner) => ⟨owner.1, owner.2, text⟩

end BlameAssembler

/-- The assembly of a blame: the oldest layer, then the newer ones. -/
def assembleBlame {Id : Type} (fromLines : Bytes → Bytes → TextDiff) (base : BlameLayer Id)
    (steps : List (BlameLayer Id)) : Except BlameFailure (List (BlameLine Id)) := do
  let start ← BlameAssembler.new base
  let last ← steps.foldlM (BlameAssembler.pushStep fromLines) start
  pure last.finish

/-! ### The tokens of the diff -/

/-- A newline ends a token, and so does a carriage return no newline follows. -/
def endsToken (c : UInt8) (rest : Bytes) : Bool :=
  isNewline c || (decide (c = 13) && decide (rest.head? ≠ some 10))

/-- The tokens `from_lines` compares, each with its end. -/
def diffTokens : Bytes → List Bytes
  | [] => []
  | c :: rest =>
      if endsToken c rest then [c] :: diffTokens rest
      else match diffTokens rest with
        | [] => [[c]]
        | token :: tokens => (c :: token) :: tokens

/-- A carriage return inside a line. -/
def innerReturn : Bytes → Bool
  | [] => false
  | c :: rest =>
      (decide (c = 13) && !rest.isEmpty && decide (rest.head? ≠ some 10)) || innerReturn rest

/-- The tokens of a text without such a return are its lines. -/
theorem diffTokens_lines {text : Bytes} (h : innerReturn text = false) :
    diffTokens text = textLines text := by
  induction text with
  | nil => rfl
  | cons c rest ih =>
      rw [innerReturn, Bool.or_eq_false_iff] at h
      obtain ⟨hhere, hrest⟩ := h
      have hlines := ih hrest
      rw [textLines] at hlines
      rw [diffTokens, textLines, Lib.cutAfter, hlines]
      by_cases hnewline : isNewline c = true
      · rw [if_pos (by rw [endsToken, hnewline, Bool.true_or]), if_pos hnewline]
      · rw [if_neg hnewline]
        cases rest with
        | nil => split_ifs <;> rfl
        | cons d rest =>
            have hends : endsToken c (d :: rest) = false := by
              rw [Bool.not_eq_true] at hnewline
              rw [endsToken, hnewline, Bool.false_or]
              simpa using hhere
            rw [if_neg (by rw [hends]; exact Bool.false_ne_true)]
            cases Lib.cutAfter isNewline (d :: rest) <;> rfl

/-- Such a return makes one token more than there are lines. -/
theorem diffTokens_length (text : Bytes) :
    (textLines text).length ≤ (diffTokens text).length ∧
      (innerReturn text = true → (textLines text).length < (diffTokens text).length) := by
  induction text with
  | nil => exact ⟨le_rfl, fun h => absurd h (by simp [innerReturn])⟩
  | cons c rest ih =>
      obtain ⟨hle, hlt⟩ := ih
      have hnil : (textLines rest).length = 0 ↔ rest = [] := by
        rw [List.length_eq_zero_iff, textLines, Lib.cutAfter_eq_nil]
      have hlines : (textLines (c :: rest)).length =
          if isNewline c then (textLines rest).length + 1 else max 1 (textLines rest).length := by
        rw [textLines, Lib.cutAfter, ← textLines]
        split_ifs
        · rfl
        · cases textLines rest with
          | nil => rfl
          | cons line lines => simp
      have htokens : (diffTokens (c :: rest)).length =
          if endsToken c rest then (diffTokens rest).length + 1
          else max 1 (diffTokens rest).length := by
        rw [diffTokens]
        split_ifs
        · rfl
        · cases diffTokens rest with
          | nil => rfl
          | cons token tokens => simp
      rw [hlines, htokens, innerReturn]
      by_cases hnewline : isNewline c = true
      · have hc : c ≠ 13 := by
          rintro rfl
          exact absurd hnewline (by decide)
        rw [if_pos hnewline, if_pos (by rw [endsToken, hnewline, Bool.true_or])]
        simp only [hc, decide_false, Bool.false_and, Bool.false_or]
        exact ⟨by omega, fun h => by have := hlt h; omega⟩
      · rw [if_neg hnewline]
        rw [Bool.not_eq_true] at hnewline
        have hends : endsToken c rest = (decide (c = 13) && decide (rest.head? ≠ some 10)) := by
          rw [endsToken, hnewline, Bool.false_or]
        cases rest with
        | nil => split_ifs <;> simp [textLines, diffTokens, Lib.cutAfter, innerReturn]
        | cons d rest =>
            have hinner : (decide (c = 13) && !(d :: rest).isEmpty &&
                decide ((d :: rest).head? ≠ some 10)) = endsToken c (d :: rest) := by
              rw [hends, List.isEmpty_cons, Bool.not_false, Bool.and_true]
            have hsome : 0 < (textLines (d :: rest)).length :=
              Nat.pos_of_ne_zero fun hzero => List.cons_ne_nil d rest (hnil.mp hzero)
            rw [hinner]
            by_cases hhere : endsToken c (d :: rest) = true
            · rw [if_pos hhere]
              exact ⟨by omega, fun _ => by omega⟩
            · rw [if_neg hhere, Bool.eq_false_of_not_eq_true hhere, Bool.false_or]
              exact ⟨by omega, fun h => by have := hlt h; omega⟩

/-- The diff's tokens are the lines exactly where no return is inside one. -/
theorem diffTokens_lines_iff (text : Bytes) :
    diffTokens text = textLines text ↔ innerReturn text = false := by
  refine ⟨fun hsame => ?_, diffTokens_lines⟩
  rw [← Bool.not_eq_true]
  intro hinner
  have hlt := (diffTokens_length text).2 hinner
  rw [hsame] at hlt
  exact lt_irrefl _ hlt

/-! ### Where a line comes from -/

/-- The line diff of any two texts: an edit script over their tokens. -/
def TokenDiffs (fromLines : Bytes → Bytes → TextDiff) : Prop :=
  ∀ old new, isUtf8 old = true → isUtf8 new = true → ScriptDiff diffTokens fromLines old new

/-- Line `j` of the new side is line `i` of the old one, unchanged. -/
def Kept (ops : List DiffOp) (i j : ℕ) : Prop :=
  ∃ a b len, DiffOp.equal a b len ∈ ops ∧ a ≤ i ∧ i < a + len ∧ j = b + (i - a)

section

variable {Id : Type} (fromLines : Bytes → Bytes → TextDiff)

/-- The oldest layer from which a line of the newest one survives every newer
layer's diff; the layers newest first. -/
inductive LineOrigin : List (BlameLayer Id) → ℕ → BlameLayer Id → Prop
  | base (base : BlameLayer Id) (j : ℕ) : LineOrigin [base] j base
  | survives {step older origin : BlameLayer Id} {rest : List (BlameLayer Id)} {i j : ℕ}
      (hkept : Kept (fromLines (rawText older.bytes) (rawText step.bytes)).ops i j)
      (horigin : LineOrigin (older :: rest) i origin) : LineOrigin (step :: older :: rest) j origin
  | brought {step older : BlameLayer Id} {rest : List (BlameLayer Id)} {j : ℕ}
      (hnew : ∀ i, ¬ Kept (fromLines (rawText older.bytes) (rawText step.bytes)).ops i j) :
      LineOrigin (step :: older :: rest) j step

/-- One attribution for each line of the newest layer, to its origin. -/
structure Blamed (newest : BlameLayer Id) (older : List (BlameLayer Id))
    (lines : List (BlameLine Id)) : Prop where
  texts : lines.map (fun line => line.text) =
    (textLines (rawText newest.bytes)).map BlameAssembler.stripNewline
  origins : ∀ j line, lines[j]? = some line → ∃ origin,
    LineOrigin fromLines (newest :: older) j origin ∧ line.cs = origin.cs ∧ line.author = origin.author

end

theorem isUtf8_rawText (bytes : Bytes) : isUtf8 (rawText bytes) = true := by
  rw [rawText]
  split_ifs with h
  · exact h
  · rfl

theorem EditScript.kept {old new : List Bytes} {i j : ℕ} {ops : List DiffOp}
    (h : EditScript old new i j ops) {i' j' : ℕ} (hkept : Kept ops i' j') :
    i ≤ i' ∧ i' < old.length ∧ j ≤ j' ∧ j' < new.length := by
  obtain ⟨a, b, len, hmem, ha, hlt, rfl⟩ := hkept
  induction h with
  | done => exact absurd hmem List.not_mem_nil
  | equal hlen hsame hrest ih =>
      rcases List.mem_cons.mp hmem with heq | hmem
      · cases heq
        have := hrest.le
        omega
      · have := ih hmem
        omega
  | delete hlen hrest ih =>
      have := ih ((List.mem_cons.mp hmem).resolve_left (by simp))
      omega
  | insert hlen hrest ih =>
      have := ih ((List.mem_cons.mp hmem).resolve_left (by simp))
      omega
  | replace hold hnew hrest ih =>
      have := ih ((List.mem_cons.mp hmem).resolve_left (by simp))
      omega

/-- A new line is one old line at most. -/
theorem EditScript.kept_unique {old new : List Bytes} {i j : ℕ} {ops : List DiffOp}
    (h : EditScript old new i j ops) {x y k : ℕ} (hx : Kept ops x k) (hy : Kept ops y k) :
    x = y := by
  have hskip : ∀ {op : DiffOp} {ops : List DiffOp} {x : ℕ}, op.isEqual = false →
      Kept (op :: ops) x k → Kept ops x k := by
    rintro op ops x hop ⟨a, b, len, hmem, hrest⟩
    refine ⟨a, b, len, (List.mem_cons.mp hmem).resolve_left ?_, hrest⟩
    rintro rfl
    cases hop
  induction h with
  | done =>
      obtain ⟨a, b, len, hmem, -⟩ := hx
      exact absurd hmem List.not_mem_nil
  | @equal i j len ops hlen hsame hrest ih =>
      have hcases : ∀ {x}, Kept (.equal i j len :: ops) x k →
          (i ≤ x ∧ x < i + len ∧ k = j + (x - i)) ∨ Kept ops x k := by
        rintro x ⟨a, b, n, hmem, hin⟩
        rcases List.mem_cons.mp hmem with heq | hmem
        · cases heq
          exact .inl hin
        · exact .inr ⟨a, b, n, hmem, hin⟩
      rcases hcases hx with hx | hx
      · rcases hcases hy with hy | hy
        · omega
        · have := hrest.kept hy
          omega
      · rcases hcases hy with hy | hy
        · have := hrest.kept hx
          omega
        · exact ih hx hy
  | delete hlen hrest ih => exact ih (hskip rfl hx) (hskip rfl hy)
  | insert hlen hrest ih => exact ih (hskip rfl hx) (hskip rfl hy)
  | replace hold hnew hrest ih => exact ih (hskip rfl hx) (hskip rfl hy)

theorem TokenDiffs.script {fromLines : Bytes → Bytes → TextDiff} (hdiff : TokenDiffs fromLines)
    (old new : Bytes) : EditScript (diffTokens (rawText old)) (diffTokens (rawText new)) 0 0
      (fromLines (rawText old) (rawText new)).ops :=
  (hdiff _ _ (isUtf8_rawText old) (isUtf8_rawText new)).script

/-- A line has one origin. -/
theorem LineOrigin.unique {Id : Type} {fromLines : Bytes → Bytes → TextDiff}
    (hdiff : TokenDiffs fromLines) {layers : List (BlameLayer Id)} {j : ℕ}
    {a b : BlameLayer Id} (ha : LineOrigin fromLines layers j a)
    (hb : LineOrigin fromLines layers j b) :
    a = b := by
  induction ha with
  | base => cases hb; rfl
  | @survives step older origin rest i j hkept _ ih =>
      cases hb with
      | survives hkept' horigin' =>
          rw [(hdiff.script older.bytes step.bytes).kept_unique hkept' hkept] at horigin'
          exact ih horigin'
      | brought hnew => exact absurd hkept (hnew _)
  | brought hnew =>
      cases hb with
      | survives hkept => exact absurd hkept (hnew _)
      | brought => rfl

/-! ### One layer -/

/-- The owners a script gives the new lines from `j` on. -/
structure Pushed {ω : Type} (owners : List ω) (owner : ω) (ops : List DiffOp) (j : ℕ)
    (acc out : List ω) (count : ℕ) : Prop where
  length : out.length = count
  before : ∀ k < j, out[k]? = acc[k]?
  kept : ∀ i k, Kept ops i k → out[k]? = owners[i]?
  brought : ∀ k, j ≤ k → k < count → (∀ i, ¬ Kept ops i k) → out[k]? = some owner

theorem mapM_owners {ω : Type} {owners : List ω} {i len : ℕ} (h : i + len ≤ owners.length) :
    ((List.range len).mapM fun j => owners[i + j]?) = some ((owners.drop i).take len) := by
  refine Lib.mapM_of_forall₂ (List.forall₂_iff_get.mpr ⟨?_, fun k hk hk' => ?_⟩)
  · rw [List.length_range, List.length_take, List.length_drop]
    omega
  · rw [List.length_range] at hk
    simp only [List.get_eq_getElem, List.getElem_range, List.getElem_take, List.getElem_drop]
    rw [List.getElem?_eq_getElem]

/-- The edits of a change bring no kept line. -/
theorem kept_cons_of_change {op : DiffOp} (hop : op.isEqual = false) {ops : List DiffOp} {i k : ℕ} :
    Kept (op :: ops) i k ↔ Kept ops i k := by
  constructor
  · rintro ⟨a, b, len, hmem, hrest⟩
    refine ⟨a, b, len, (List.mem_cons.mp hmem).resolve_left ?_, hrest⟩
    rintro rfl
    cases hop
  · rintro ⟨a, b, len, hmem, hrest⟩
    exact ⟨a, b, len, List.mem_cons_of_mem _ hmem, hrest⟩

/-- New lines of the step's own. -/
theorem Pushed.change {ω : Type} {owners : List ω} {owner : ω} {op : DiffOp} {ops : List DiffOp}
    {j count : ℕ} {acc out : List ω} (n : ℕ) (hop : op.isEqual = false) (hacc : acc.length = j)
    (h : Pushed owners owner ops (j + n) (acc ++ List.replicate n owner) out count) :
    Pushed owners owner (op :: ops) j acc out count where
  length := h.length
  before := fun k hk => by rw [h.before k (by omega), List.getElem?_append_left (by omega)]
  kept := fun i k hkept => h.kept i k ((kept_cons_of_change hop).mp hkept)
  brought := by
    intro k hk hcount hnone
    by_cases hbelow' : k < j + n
    · rw [h.before k hbelow', List.getElem?_append_right (by omega), List.getElem?_replicate,
        if_pos (by omega)]
    · exact h.brought k (by omega) hcount fun i hkept =>
        hnone i ((kept_cons_of_change hop).mpr hkept)

theorem pushOps_script {ω : Type} {owners : List ω} {owner : ω} {old new : List Bytes} {i j : ℕ}
    {ops : List DiffOp} (h : EditScript old new i j ops) (howners : owners.length = old.length)
    {acc : List ω} (hacc : acc.length = j) :
    ∃ out, ops.foldlM (BlameAssembler.pushOp owners owner) acc = some out ∧
      Pushed owners owner ops j acc out new.length := by
  induction h generalizing acc with
  | done =>
      refine ⟨acc, rfl, hacc, fun _ _ => rfl, ?_, fun k hk hcount => by omega⟩
      rintro i k ⟨a, b, len, hmem, -⟩
      exact absurd hmem List.not_mem_nil
  | @equal i j len ops hlen hsame hrest ih =>
      have hin : i + len ≤ owners.length := howners ▸ hrest.le.1
      have hseg : ((owners.drop i).take len).length = len := by
        rw [List.length_take, List.length_drop]
        omega
      obtain ⟨out, hout, hpushed⟩ := @ih (acc ++ (owners.drop i).take len)
        (by rw [List.length_append, hacc, hseg])
      have hkeptHere : ∀ k, j ≤ k → k < j + len → out[k]? = owners[i + (k - j)]? := by
        intro k hk hlt
        rw [hpushed.before k hlt, List.getElem?_append_right (by omega), hacc,
          List.getElem?_take_of_lt (by omega), List.getElem?_drop]
      refine ⟨out, ?_, hpushed.length, fun k hk => ?_, ?_, fun k hk hcount hnone => ?_⟩
      · rw [List.foldlM_cons, BlameAssembler.pushOp, mapM_owners hin]
        exact hout
      · rw [hpushed.before k (by omega), List.getElem?_append_left (by omega)]
      · rintro x k ⟨a, b, n, hmem, ha, hlt, rfl⟩
        rcases List.mem_cons.mp hmem with heq | hmem
        · cases heq
          rw [hkeptHere _ (by omega) (by omega)]
          congr 1
          omega
        · exact hpushed.kept x _ ⟨a, b, n, hmem, ha, hlt, rfl⟩
      · by_cases hhere : k < j + len
        · exact absurd ⟨i, j, len, List.mem_cons_self, by omega, by omega, by omega⟩
            (hnone (i + (k - j)))
        · refine hpushed.brought k (by omega) hcount fun x hkept => hnone x ?_
          obtain ⟨a, b, n, hmem, hin⟩ := hkept
          exact ⟨a, b, n, List.mem_cons_of_mem _ hmem, hin⟩
  | @delete i j len ops hlen hrest ih =>
      obtain ⟨out, hout, hpushed⟩ := ih hacc
      refine ⟨out, by rw [List.foldlM_cons]; exact hout, .change 0 rfl hacc ?_⟩
      rwa [Nat.add_zero, List.replicate_zero, List.append_nil]
  | @insert i j len ops hlen hrest ih =>
      obtain ⟨out, hout, hpushed⟩ := @ih (acc ++ List.replicate len owner)
        (by rw [List.length_append, List.length_replicate, hacc])
      exact ⟨out, by rw [List.foldlM_cons]; exact hout, .change len rfl hacc hpushed⟩
  | @replace i j oldLen newLen ops hold hnew hrest ih =>
      obtain ⟨out, hout, hpushed⟩ := @ih (acc ++ List.replicate newLen owner)
        (by rw [List.length_append, List.length_replicate, hacc])
      exact ⟨out, by rw [List.foldlM_cons]; exact hout, .change newLen rfl hacc hpushed⟩

/-! ### The assembly -/

section

variable {Id : Type} {fromLines : Bytes → Bytes → TextDiff}

/-- A layer whose text the diff and the count cut alike. -/
def CutAlike (layer : BlameLayer Id) : Prop :=
  diffTokens (rawText layer.bytes) = textLines (rawText layer.bytes)

/-- The assembler has fed the newest of the layers. -/
structure Fed (fromLines : Bytes → Bytes → TextDiff) (newest : BlameLayer Id)
    (older : List (BlameLayer Id)) (st : BlameAssembler Id) : Prop where
  raw : st.currentRaw = rawText newest.bytes
  length : st.owners.length = lineCount (rawText newest.bytes)
  owners : ∀ j owner, st.owners[j]? = some owner → ∃ origin,
    LineOrigin fromLines (newest :: older) j origin ∧ owner = (origin.cs, origin.author)

theorem Fed.push {newest step : BlameLayer Id} {older : List (BlameLayer Id)}
    {st : BlameAssembler Id} (h : Fed fromLines newest older st) (hdiff : TokenDiffs fromLines)
    (hnewest : CutAlike newest) (hstep : CutAlike step)
    (hcap : lineCount (rawText step.bytes) ≤ blameMaxLines) :
    ∃ st', BlameAssembler.pushStep fromLines st step = .ok st' ∧
      Fed fromLines step (newest :: older) st' := by
  have hscript := hdiff.script newest.bytes step.bytes
  have howners : st.owners.length = (diffTokens (rawText newest.bytes)).length := by
    rw [h.length, lineCount, hnewest]
  obtain ⟨out, hout, hpushed⟩ :=
    @pushOps_script _ _ (step.cs, step.author) _ _ _ _ _ hscript howners [] rfl
  have hlength : out.length = lineCount (rawText step.bytes) := by
    rw [hpushed.length, lineCount, hstep]
  refine ⟨⟨rawText step.bytes, out⟩, ?_, rfl, hlength, fun j owner howner => ?_⟩
  · simp only [BlameAssembler.pushStep, h.raw, hout]
    rw [if_neg (by omega), hlength, Nat.sub_self, List.replicate_zero, List.append_nil,
      List.take_of_length_le hlength.le]
  · by_cases hkept : ∃ i, Kept (fromLines (rawText newest.bytes) (rawText step.bytes)).ops i j
    · obtain ⟨i, hkept⟩ := hkept
      rw [hpushed.kept i j hkept] at howner
      obtain ⟨origin, horigin, rfl⟩ := h.owners i owner howner
      exact ⟨origin, .survives hkept horigin, rfl⟩
    · have hj : j < out.length := (List.getElem?_eq_some_iff.mp howner).1
      rw [hpushed.brought j (Nat.zero_le j) (hpushed.length ▸ hj) (not_exists.mp hkept),
        Option.some.injEq] at howner
      exact ⟨step, .brought (not_exists.mp hkept), howner.symm⟩

theorem Fed.blamed {newest : BlameLayer Id} {older : List (BlameLayer Id)}
    {st : BlameAssembler Id} (h : Fed fromLines newest older st) :
    Blamed fromLines newest older st.finish := by
  have hlength : ((textLines st.currentRaw).map BlameAssembler.stripNewline).length =
      st.owners.length := by
    rw [List.length_map, h.length, h.raw, lineCount]
  refine ⟨?_, fun j line hline => ?_⟩
  · rw [BlameAssembler.finish, List.map_map, ← h.raw]
    exact List.map_fst_zip hlength.le
  · rw [BlameAssembler.finish, List.getElem?_map, Option.map_eq_some_iff] at hline
    obtain ⟨⟨text, owner⟩, hzip, rfl⟩ := hline
    obtain ⟨origin, horigin, rfl⟩ := h.owners j owner (List.getElem?_zip_eq_some.mp hzip).2
    exact ⟨origin, horigin, rfl, rfl⟩

/-- A layer beyond the cap. -/
def OverCap (layer : BlameLayer Id) : Prop := blameMaxLines < lineCount (rawText layer.bytes)

theorem pushStep_capped {st : BlameAssembler Id} {step : BlameLayer Id} (h : OverCap step) :
    BlameAssembler.pushStep fromLines st step = .error .lineCapExceeded := if_pos h

theorem new_capped {base : BlameLayer Id} (h : OverCap base) :
    BlameAssembler.new base = .error .lineCapExceeded := if_pos h

theorem new_ok {base : BlameLayer Id} (h : ¬ OverCap base) :
    BlameAssembler.new base = .ok ⟨rawText base.bytes,
      List.replicate (lineCount (rawText base.bytes)) (base.cs, base.author)⟩ := if_neg h

/-- The newer layers, pushed one after the other. -/
theorem pushSteps {newest : BlameLayer Id} {older steps : List (BlameLayer Id)}
    {st : BlameAssembler Id} (h : Fed fromLines newest older st) (hdiff : TokenDiffs fromLines)
    (hcut : steps = [] ∨ ∀ layer ∈ newest :: steps, CutAlike layer) :
    (∃ layer ∈ steps, OverCap layer) ∧
        steps.foldlM (BlameAssembler.pushStep fromLines) st = .error .lineCapExceeded ∨
      (∀ layer ∈ steps, ¬ OverCap layer) ∧
        ∃ st' last rest, steps.foldlM (BlameAssembler.pushStep fromLines) st = .ok st' ∧
          last :: rest = steps.reverse ++ newest :: older ∧ Fed fromLines last rest st' := by
  induction steps generalizing newest older st with
  | nil => exact .inr ⟨by simp, st, newest, older, rfl, rfl, h⟩
  | cons step steps ih =>
      have hcut := hcut.resolve_left (List.cons_ne_nil _ _)
      rw [List.foldlM_cons]
      by_cases hcap : OverCap step
      · refine .inl ⟨⟨step, List.mem_cons_self, hcap⟩, ?_⟩
        rw [pushStep_capped hcap]
        rfl
      · obtain ⟨st', hpush, hfed⟩ := h.push hdiff (hcut _ List.mem_cons_self)
          (hcut _ (List.mem_cons_of_mem _ List.mem_cons_self)) (not_lt.mp hcap)
        rw [hpush]
        rcases ih hfed (.inr fun layer hlayer => hcut layer (List.mem_cons_of_mem _ hlayer)) with
          ⟨⟨layer, hlayer, hover⟩, herror⟩ | ⟨hnone, last, newest', rest, hok, hlayers, hlast⟩
        · exact .inl ⟨⟨layer, List.mem_cons_of_mem _ hlayer, hover⟩, herror⟩
        · refine .inr ⟨fun layer hlayer => ?_, last, newest', rest, hok, ?_, hlast⟩
          · rcases List.mem_cons.mp hlayer with rfl | hlayer
            · exact hcap
            · exact hnone layer hlayer
          · rw [hlayers, List.reverse_cons, List.append_assoc, List.singleton_append]

/-- What an assembly answers: the cap's error where a layer is beyond it, else
the newest layer's lines, each attributed to its one origin. -/
structure Assembles (fromLines : Bytes → Bytes → TextDiff) (base : BlameLayer Id)
    (steps : List (BlameLayer Id)) : Prop where
  capped : (∃ layer ∈ base :: steps, OverCap layer) →
    assembleBlame fromLines base steps = .error .lineCapExceeded
  blamed : (∀ layer ∈ base :: steps, ¬ OverCap layer) →
    ∃ lines newest older, assembleBlame fromLines base steps = .ok lines ∧
      newest :: older = (base :: steps).reverse ∧ Blamed fromLines newest older lines
  determined : ∀ j a b, LineOrigin fromLines (base :: steps).reverse j a →
    LineOrigin fromLines (base :: steps).reverse j b → a = b

/-- A blame is assembled right where there is one layer, or no text among them
has a carriage return inside a line. -/
theorem assembleBlame_assembles (hdiff : TokenDiffs fromLines) (base : BlameLayer Id)
    (steps : List (BlameLayer Id))
    (hreturns : steps = [] ∨ ∀ layer ∈ base :: steps, innerReturn (rawText layer.bytes) = false) :
    Assembles fromLines base steps := by
  have hcut : steps = [] ∨ ∀ layer ∈ base :: steps, CutAlike layer :=
    hreturns.imp_right fun hnone layer hlayer => (diffTokens_lines_iff _).mpr (hnone layer hlayer)
  by_cases hcap : OverCap base
  · refine ⟨fun _ => ?_, fun hnone => absurd hcap (hnone base List.mem_cons_self),
      fun j a b ha hb => ha.unique hdiff hb⟩
    rw [assembleBlame, new_capped hcap]
    rfl
  have hnew := new_ok hcap
  have hfed : Fed fromLines base [] ⟨rawText base.bytes,
      List.replicate (lineCount (rawText base.bytes)) (base.cs, base.author)⟩ := by
    refine ⟨rfl, List.length_replicate, fun j owner howner => ⟨base, .base base j, ?_⟩⟩
    exact List.eq_of_mem_replicate (List.mem_of_getElem? howner)
  have hpushed := pushSteps hfed hdiff hcut
  refine ⟨?_, ?_, fun j a b ha hb => ha.unique hdiff hb⟩
  · rintro ⟨layer, hlayer, hover⟩
    rcases hpushed with ⟨-, herror⟩ | ⟨hnone, -⟩
    · rw [assembleBlame, hnew]
      simp only [bind, Except.bind] at herror ⊢
      rw [herror]
    · rcases List.mem_cons.mp hlayer with rfl | hlayer
      · exact absurd hover hcap
      · exact absurd hover (hnone layer hlayer)
  · intro hnone
    rcases hpushed with ⟨⟨layer, hlayer, hover⟩, -⟩ | ⟨-, st, last, rest, hok, hlayers, hlast⟩
    · exact absurd hover (hnone layer (List.mem_cons_of_mem _ hlayer))
    · refine ⟨st.finish, last, rest, ?_, by rw [hlayers, List.reverse_cons], hlast.blamed⟩
      rw [assembleBlame, hnew]
      simp only [bind, Except.bind] at hok ⊢
      rw [hok]
      rfl

end

/-! ### A carriage return inside a line -/

namespace InnerReturn

/-- `a`, a lone carriage return, `b`. -/
def first : BlameLayer ℕ := ⟨1, "ann", [97, 13, 98, 10]⟩

/-- A line added below. -/
def second : BlameLayer ℕ := ⟨2, "bob", [97, 13, 98, 10, 99, 10]⟩

def diff : Bytes → Bytes → TextDiff := OpenLine.prefixDiffOf diffTokens

theorem diff_tokenDiffs : TokenDiffs diff :=
  fun old new hold hnew => (OpenLine.prefixDiffOf_lineDiffs diffTokens old new hold hnew).toScriptDiff

/-- Two lines, and one between them. -/
def plain : BlameLayer ℕ := ⟨1, "ann", [97, 13, 10, 98, 10]⟩

def edited : BlameLayer ℕ := ⟨2, "bob", [97, 13, 10, 99, 10, 98, 10]⟩

end InnerReturn

open InnerReturn in
theorem assembleBlame_assembles_plain : Assembles diff plain [edited] ∧
    assembleBlame diff plain [edited] =
      .ok [⟨1, "ann", [97, 13]⟩, ⟨2, "bob", [99]⟩, ⟨2, "bob", [98]⟩] :=
  ⟨assembleBlame_assembles diff_tokenDiffs plain [edited] (.inr (by decide +kernel)),
    by decide +kernel⟩

open InnerReturn in
/-- The kept tokens are more than the owners of the lines. -/
theorem inner_return_panics : TokenDiffs diff ∧ (∀ layer ∈ [first, second], ¬ OverCap layer) ∧
    assembleBlame diff first [second] = .error .panicked := by
  refine ⟨diff_tokenDiffs, ?_, by decide +kernel⟩
  intro layer hlayer
  simp only [List.mem_cons, List.not_mem_nil, or_false] at hlayer
  rcases hlayer with rfl | rfl
  · exact not_lt.mpr (by decide +kernel)
  · exact not_lt.mpr (by decide +kernel)

end Naatre
