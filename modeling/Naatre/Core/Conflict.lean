import Naatre.Core.Object

/-!
Conflict representations under rebasing: the carry rule and the deterministic
marker rendering (`naatre-core/src/conflict.rs`).
-/

namespace Naatre

variable {Id : Type} [Platform Id]

/-- The rep a map keyed by path holds after the reps of `l` were inserted in
order: the last one at the path. -/
def repAt (p : Path) (l : List (ConflictRep Id)) : Option (ConflictRep Id) :=
  (l.filter (·.path = p)).getLast?

/-- `conflict::carry`: paths the rebase did not re-conflict keep their reps,
a re-conflicted path takes the new one. -/
def carry (existing reconflicted : List (ConflictRep Id)) : List (ConflictRep Id) :=
  let inserted := existing ++ reconflicted
  (Path.sortPaths (inserted.map (·.path))).filterMap (fun p => repAt p inserted)

omit [Platform Id] in
theorem repAt_path {p : Path} {l : List (ConflictRep Id)} {rep : ConflictRep Id}
    (h : repAt p l = some rep) : rep.path = p ∧ rep ∈ l := by
  have hmem : rep ∈ l.filter (·.path = p) := List.mem_of_getLast? h
  have := List.mem_filter.mp hmem
  exact ⟨by simpa using this.2, this.1⟩

omit [Platform Id] in
theorem repAt_isSome {p : Path} {l : List (ConflictRep Id)} :
    (repAt p l).isSome ↔ p ∈ l.map (·.path) := by
  rw [repAt, List.getLast?_isSome]
  simp [List.filter_eq_nil_iff]

omit [Platform Id] in
theorem mem_carry {existing reconflicted : List (ConflictRep Id)} {rep : ConflictRep Id} :
    rep ∈ carry existing reconflicted ↔
      repAt rep.path (existing ++ reconflicted) = some rep := by
  simp only [carry, List.mem_filterMap, Path.mem_sortPaths]
  constructor
  · rintro ⟨p, -, hp⟩
    rwa [(repAt_path hp).1]
  · intro h
    exact ⟨rep.path, List.mem_map_of_mem (repAt_path h).2, h⟩

omit [Platform Id] in
/-- Every path of either list is a path of the carried list. -/
theorem mem_carry_paths {existing reconflicted : List (ConflictRep Id)} {p : Path} :
    p ∈ (carry existing reconflicted).map (·.path) ↔
      p ∈ (existing ++ reconflicted).map (·.path) := by
  constructor
  · intro h
    obtain ⟨rep, hrep, rfl⟩ := List.mem_map.mp h
    exact List.mem_map_of_mem (repAt_path (mem_carry.mp hrep)).2
  · intro h
    obtain ⟨rep, hrep⟩ := Option.isSome_iff_exists.mp (repAt_isSome.mpr h)
    have hpath := (repAt_path hrep).1
    exact List.mem_map.mpr ⟨rep, mem_carry.mpr (by rwa [hpath]), hpath⟩

omit [Platform Id] in
theorem carry_eq_nil {existing reconflicted : List (ConflictRep Id)} :
    carry existing reconflicted = [] ↔ existing = [] ∧ reconflicted = [] := by
  constructor
  · intro h
    have hp : ∀ p, p ∉ (existing ++ reconflicted).map (·.path) := by
      intro p hp
      have := mem_carry_paths.mpr hp
      simp [h] at this
    have hnil : existing ++ reconflicted = [] := by
      rw [List.eq_nil_iff_forall_not_mem]
      intro rep hrep
      exact hp rep.path (List.mem_map_of_mem hrep)
    exact List.append_eq_nil_iff.mp hnil
  · rintro ⟨rfl, rfl⟩
    rfl

/-! ### Marker rendering -/

/-- The token a marker line appends when that side's exec bit is set. -/
def execToken (exec : Bool) : String := if exec then " +x" else ""

/-- One content block: a non-empty block always ends in a newline. -/
def pushBlock (content : Bytes) : Bytes :=
  if content ≠ [] ∧ content.getLast? ≠ some 10 then content ++ [10] else content

def openerLine (n : ℕ) (side : Id) (exec : Bool) : Bytes :=
  utf8 ("<<<<<<< naatre side 1/" ++ toString n ++ ": " ++ Platform.toHex side
    ++ execToken exec ++ "\n")

def baseLine (base : Id) (exec : Bool) : Bytes :=
  utf8 ("||||||| naatre base: " ++ Platform.toHex base ++ execToken exec ++ "\n")

def sideLine (i n : ℕ) (side : Id) (exec : Bool) : Bytes :=
  utf8 ("======= naatre side " ++ toString i ++ "/" ++ toString n ++ ": "
    ++ Platform.toHex side ++ execToken exec ++ "\n")

def deletedLine (n : ℕ) : Bytes :=
  utf8 ("======= naatre side " ++ toString n ++ "/" ++ toString n ++ ": deleted\n")

def closerLine (p : Path) : Bytes := utf8 (">>>>>>> naatre conflict: " ++ p.text ++ "\n")

/-- The base section, empty where there is no base. -/
def baseSection (rep : ConflictRep Id) (fetch : Id → Option Bytes) : Except Id Bytes :=
  match rep.base with
  | none => .ok []
  | some base =>
      match fetch base with
      | none => .error base
      | some content => .ok (baseLine base rep.baseExec ++ pushBlock content)

/-- The side blocks from index `i` on; the base section stands before side 2. -/
def sideBlocks (rep : ConflictRep Id) (n : ℕ) (fetch : Id → Option Bytes) :
    ℕ → List Id → Except Id Bytes
  | _, [] => .ok []
  | i, side :: sides => do
      let exec := rep.sidesExec.getD i false
      let head ←
        if i = 0 then pure (openerLine n side exec)
        else do
          let base ← if i = 1 then baseSection rep fetch else pure []
          pure (base ++ sideLine (i + 1) n side exec)
      match fetch side with
      | none => .error side
      | some content => do
          let rest ← sideBlocks rep n fetch (i + 1) sides
          pure (head ++ pushBlock content ++ rest)

/-- `conflict::marker_bytes`; a fetch failure names the id that was asked for. -/
def markerBytes (rep : ConflictRep Id) (fetch : Id → Option Bytes) : Except Id Bytes := do
  let n := rep.sides.length + (if rep.deleted then 1 else 0)
  let sides ← sideBlocks rep n fetch 0 rep.sides
  let deleted ←
    if rep.deleted then do
      let base ← if rep.sides.length = 1 then baseSection rep fetch else pure []
      pure (base ++ deletedLine n)
    else pure []
  pure (sides ++ deleted ++ closerLine rep.path)

end Naatre
