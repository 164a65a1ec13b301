import Mathlib.Data.Finset.Insert
import Naatre.Lib.Walk

/-!
The best common ancestor of two changesets: the walk over explicit seeds, and
the climb over skip entries that goes before it. With honest skip entries the
two give an answer of one generation, the highest there is.
-/

namespace Naatre

/-! ### The graph -/

structure SkipEdge (Id : Type) where
  target : Id
  hop : ℕ
  generation : ℤ
  pure : Bool

structure SkipNode (Id : Type) where
  generation : ℤ
  /-- In `ord` order. -/
  parents : List Id
  skips : List (SkipEdge Id)

/-- The changesets of a repository, as the route fetches them. -/
abbrev SkipGraph (Id : Type) := List (Id × SkipNode Id)

section

variable {Id : Type} [DecidableEq Id]

namespace SkipGraph

def fetch (g : SkipGraph Id) (id : Id) : Option (SkipNode Id) :=
  (g.find? (fun row => decide (row.1 = id))).map Prod.snd

/-- What a walk queues behind an id: nothing where the fetch misses. -/
def parentsOf (g : SkipGraph Id) (id : Id) : List Id :=
  ((g.fetch id).map (fun node => node.parents)).getD []

/-- The ids a queue takes up, in order. -/
def visit (g : SkipGraph Id) (seeds : List Id) : List Id :=
  (Lib.walk (fun id => some (g.parentsOf id))
    (seeds.length + (g.map (fun row => row.2.parents.length)).sum + 1) seeds []).getD []

/-- One round of the second loop: the first hit of a higher generation wins. -/
def better (g : SkipGraph Id) (ancestorSet : List Id) (excluded : Finset Id)
    (best : Option (ℤ × Id)) (id : Id) : Option (ℤ × Id) :=
  match g.fetch id with
  | none => best
  | some node =>
      if id ∈ ancestorSet ∧ id ∉ excluded ∧ ∀ b ∈ best, b.1 < node.generation then
        some (node.generation, id)
      else best

/-- `merge_base_walk_seeded`. -/
def mergeBaseWalkSeeded (g : SkipGraph Id) (setSeeds walkSeeds : List Id)
    (excluded : Finset Id) : Option Id :=
  ((g.visit walkSeeds).foldl (g.better (g.visit setSeeds) excluded) none).map Prod.snd

/-- `max_by_key(hop)`: of several longest hops the last. -/
def longest : List (SkipEdge Id) → Option (SkipEdge Id)
  | [] => none
  | e :: es =>
      match longest es with
      | none => some e
      | some e' => if e.hop ≤ e'.hop then some e' else some e

/-- A step is taken only to a fetched node strictly below. -/
def descend (g : SkipGraph Id) (hi : SkipNode Id) (next : Id) : Option (Id × SkipNode Id) :=
  match g.fetch next with
  | some node => if node.generation < hi.generation then some (next, node) else none
  | none => none

/-- The step to the first parent. -/
def stepParent (g : SkipGraph Id) (hi : SkipNode Id) : Option (Id × SkipNode Id) :=
  hi.parents.head?.bind (g.descend hi)

/-- One step of the climb: the longest pure jump that stays at or above `lo`,
the first parent where there is none or the jump does not descend. -/
def climbStep (g : SkipGraph Id) (lo hi : SkipNode Id) : Option (Id × SkipNode Id) :=
  match longest (hi.skips.filter (fun e => e.pure && decide (lo.generation ≤ e.generation))) with
  | none => g.stepParent hi
  | some e =>
      match g.fetch e.target with
      | none => none
      | some node =>
          if node.generation < hi.generation then some (e.target, node)
          else if hi.parents.head? = some e.target then none
          else g.stepParent hi

/-- `CLIMB_MAX_STEPS`. -/
def climbMaxSteps : ℕ := 100000

/-- Phase 1: the endpoint and the side branches met on the way. -/
def climb (g : SkipGraph Id) (lo : SkipNode Id) :
    ℕ → Id → SkipNode Id → List Id → Id × List Id
  | 0, hiId, _, frontier => (hiId, frontier)
  | steps + 1, hiId, hi, frontier =>
      if lo.generation < hi.generation then
        match g.climbStep lo hi with
        | some (id, node) => g.climb lo steps id node (frontier ++ hi.parents.drop 1)
        | none => (hiId, frontier ++ hi.parents.drop 1)
      else (hiId, frontier)

/-- The climb from the higher side, then the walk from where it ends. -/
def alignedWalk (g : SkipGraph Id) (loId : Id) (lo : SkipNode Id) (hiId : Id) (hi : SkipNode Id)
    (excluded : Finset Id) : Option Id :=
  let (endId, frontier) := g.climb lo climbMaxSteps hiId hi []
  g.mergeBaseWalkSeeded [loId] (frontier ++ [endId]) excluded

/-- `merge_base_skip`. -/
def mergeBaseSkip (g : SkipGraph Id) (a b : Id) (excluded : Finset Id) : Option Id :=
  match g.fetch a, g.fetch b with
  | some na, some nb =>
      if nb.generation ≤ na.generation then g.alignedWalk b nb a na excluded
      else g.alignedWalk a na b nb excluded
  | _, _ => none

/-! ### What a skip entry promises -/

/-- The first-parent ancestor a number of hops up. -/
def firstParentAt (g : SkipGraph Id) : ℕ → Id → Option Id
  | 0, id => some id
  | hop + 1, id => (g.parentsOf id).head?.bind (g.firstParentAt hop)

end SkipGraph

/-- A skip entry of `id` names its ancestor at the hop with that node's
generation, and a pure one spans only nodes of at most one parent. -/
structure SkipEdge.Honest (g : SkipGraph Id) (id : Id) (e : SkipEdge Id) : Prop where
  target : g.firstParentAt e.hop id = some e.target
  generation : (g.fetch e.target).map (fun node => node.generation) = some e.generation
  pure : e.pure → ∀ k, 0 < k → k < e.hop → ∀ x, g.firstParentAt k id = some x →
    (g.parentsOf x).length ≤ 1

/-- Generations ascend from parent to child, and every skip entry is honest. -/
structure SkipGraph.Honest (g : SkipGraph Id) : Prop where
  ascending : ∀ x p n m, g.fetch x = some n → p ∈ n.parents → g.fetch p = some m →
    m.generation < n.generation
  skips : ∀ x n, g.fetch x = some n → ∀ e ∈ n.skips, e.Honest g x

/-- `z` is `x` or an ancestor of it. -/
def SkipGraph.Reaches (g : SkipGraph Id) (x z : Id) : Prop :=
  Relation.ReflTransGen (fun x y => y ∈ g.parentsOf x) x z

/-- A changeset the answer may name. -/
structure CommonAncestor (g : SkipGraph Id) (excluded : Finset Id) (a b z : Id) : Prop where
  stored : (g.fetch z).isSome
  left : g.Reaches a z
  right : g.Reaches b z
  kept : z ∉ excluded

/-- The generation of a changeset; of one that is not stored, none. -/
def SkipGraph.genOf (g : SkipGraph Id) (id : Id) : Option ℤ :=
  (g.fetch id).map (fun node => node.generation)

/-- A common ancestor of the highest generation; none descends from it. -/
structure BestAncestor (g : SkipGraph Id) (excluded : Finset Id) (a b z : Id) : Prop where
  common : CommonAncestor g excluded a b z
  highest : ∀ w gw gz, CommonAncestor g excluded a b w → g.genOf w = some gw →
    g.genOf z = some gz → gw ≤ gz
  last : ∀ w, CommonAncestor g excluded a b w → g.Reaches w z → w = z

/-! ### The walk -/

namespace SkipGraph

variable {g : SkipGraph Id} {excluded : Finset Id}

theorem parentsOf_of_fetch {x : Id} {n : SkipNode Id} (h : g.fetch x = some n) :
    g.parentsOf x = n.parents := by
  rw [parentsOf, h]
  rfl

/-- A node with a parent is stored. -/
theorem fetch_of_parent {x y : Id} (h : y ∈ g.parentsOf x) :
    ∃ n, g.fetch x = some n ∧ y ∈ n.parents := by
  match hx : g.fetch x with
  | none => simp [parentsOf, hx] at h
  | some n => exact ⟨n, rfl, parentsOf_of_fetch hx ▸ h⟩

/-- A queue takes up exactly what its seeds reach. -/
theorem mem_visit {seeds : List Id} {z : Id} :
    z ∈ g.visit seeds ↔ ∃ s ∈ seeds, g.Reaches s z := by
  have hedge : Lib.Edge (fun id => some (g.parentsOf id)) = fun x y => y ∈ g.parentsOf x := by
    funext x y
    simp [Lib.Edge]
  have hrow : ∀ x next, some (g.parentsOf x) = some next → next ≠ [] →
      Lib.rowNext (fun row : Id × SkipNode Id => row.1) (fun row => row.2.parents) g x =
        some next := by
    intro x next hx hne
    rw [Option.some.injEq] at hx
    subst hx
    rw [Lib.rowNext]
    cases hfind : g.find? (fun row => decide (row.1 = x)) with
    | none => exact absurd (by simp [parentsOf, fetch, hfind]) hne
    | some row => simp [parentsOf, fetch, hfind]
  have hsome : (Lib.walk _ (seeds.length + _ + 1) seeds []).isSome :=
    Lib.walk_table_isSome (fun row : Id × SkipNode Id => row.1) (fun row => row.2.parents) hrow
      (fun _ _ _ _ => rfl)
  obtain ⟨out, hout⟩ := Option.isSome_iff_exists.mp hsome
  rw [visit, hout, Option.getD_some, Lib.mem_walk_iff hout, hedge]
  rfl

/-- What the second loop may pick. -/
def Candidate (g : SkipGraph Id) (ancestorSet : List Id) (excluded : Finset Id) (z : Id)
    (gen : ℤ) : Prop :=
  g.genOf z = some gen ∧ z ∈ ancestorSet ∧ z ∉ excluded

/-- The pick of a loop: one of the candidates met, none of them higher. -/
structure Picked (P : Id → ℤ → Prop) (best : Option (ℤ × Id)) : Prop where
  sound : ∀ gen z, best = some (gen, z) → P z gen
  highest : ∀ w gen, P w gen → ∃ gz z, best = some (gz, z) ∧ gen ≤ gz

theorem better_picked (g : SkipGraph Id) (excluded : Finset Id) (ancestorSet : List Id)
    {best : Option (ℤ × Id)} {P : Id → ℤ → Prop} (h : Picked P best) (id : Id) :
    Picked (fun z gen => P z gen ∨ z = id ∧ g.Candidate ancestorSet excluded z gen)
      (g.better ancestorSet excluded best id) := by
  have hkeep (hnot : ∀ gen, g.Candidate ancestorSet excluded id gen →
      ∃ gz z, best = some (gz, z) ∧ gen ≤ gz) :
      Picked (fun z gen => P z gen ∨ z = id ∧ g.Candidate ancestorSet excluded z gen) best := by
    refine ⟨fun gen z hz => .inl (h.sound gen z hz), ?_⟩
    rintro w gen (hw | ⟨rfl, hcand⟩)
    · exact h.highest w gen hw
    · exact hnot gen hcand
  rw [better]
  split
  next hfetch =>
      refine hkeep fun gen hcand => ?_
      rw [Candidate, genOf, hfetch] at hcand
      cases hcand.1
  next node hfetch =>
      have hgen : g.genOf id = some node.generation := by rw [genOf, hfetch]; rfl
      split
      next hbetter =>
        obtain ⟨hset, hkept, habove⟩ := hbetter
        refine ⟨?_, ?_⟩
        · intro gen z hz
          obtain ⟨rfl, rfl⟩ := Prod.mk.inj (Option.some.inj hz)
          exact .inr ⟨rfl, hgen, hset, hkept⟩
        · rintro w gen (hw | ⟨rfl, hcand⟩)
          · obtain ⟨gz, z, hbest, hle⟩ := h.highest w gen hw
            exact ⟨node.generation, id, rfl, hle.trans (habove (gz, z) hbest).le⟩
          · rw [Candidate, hgen, Option.some.injEq] at hcand
            exact ⟨node.generation, w, rfl, hcand.1.ge⟩
      next hbetter =>
        refine hkeep fun gen hcand => ?_
        have hhigh : ¬ ∀ b ∈ best, b.1 < node.generation :=
          fun habove => hbetter ⟨hcand.2.1, hcand.2.2, habove⟩
        push Not at hhigh
        obtain ⟨⟨gz, z⟩, hbest, hle⟩ := hhigh
        have heq : node.generation = gen := Option.some.inj (hgen.symm.trans hcand.1)
        exact ⟨gz, z, hbest, heq ▸ hle⟩

theorem foldl_picked (g : SkipGraph Id) (excluded : Finset Id) (ancestorSet l : List Id) :
    ∀ {best : Option (ℤ × Id)} {P : Id → ℤ → Prop}, Picked P best →
      Picked (fun z gen => P z gen ∨ z ∈ l ∧ g.Candidate ancestorSet excluded z gen)
        (l.foldl (g.better ancestorSet excluded) best) := by
  induction l with
  | nil =>
      intro best P h
      simpa using h
  | cons id l ih =>
      intro best P h
      rw [List.foldl_cons]
      have hstep := ih (better_picked g excluded ancestorSet h id)
      simpa [or_and_right, or_assoc] using hstep

/-- A changeset two lists of seeds have in common. -/
def Meets (g : SkipGraph Id) (setSeeds walkSeeds : List Id) (excluded : Finset Id) (z : Id)
    (gen : ℤ) : Prop :=
  g.genOf z = some gen ∧ (∃ s ∈ setSeeds, g.Reaches s z) ∧ (∃ s ∈ walkSeeds, g.Reaches s z) ∧
    z ∉ excluded

/-- The walk picks among what its seeds have in common. -/
theorem mergeBaseWalkSeeded_picked (g : SkipGraph Id) (excluded : Finset Id)
    (setSeeds walkSeeds : List Id) :
    ∃ best, g.mergeBaseWalkSeeded setSeeds walkSeeds excluded = best.map Prod.snd ∧
      Picked (g.Meets setSeeds walkSeeds excluded) best := by
  refine ⟨_, rfl, ?_⟩
  have hstart : Picked (fun (_ : Id) (_ : ℤ) => False) none :=
    ⟨(fun _ _ h => by cases h), fun _ _ h => h.elim⟩
  have hpicked := foldl_picked g excluded (g.visit setSeeds) (g.visit walkSeeds) hstart
  have hmeets : g.Meets setSeeds walkSeeds excluded = fun z gen => False ∨
      z ∈ g.visit walkSeeds ∧ g.Candidate (g.visit setSeeds) excluded z gen := by
    funext z gen
    rw [Meets, Candidate, mem_visit, mem_visit, false_or]
    exact propext (by tauto)
  rwa [hmeets]

/-! ### The climb -/

/-- Everything below a stored node that is stored has a lower generation. -/
theorem Honest.genOf_lt (hg : g.Honest) {x y z : Id} {gx gz : ℤ} (hxy : y ∈ g.parentsOf x)
    (hyz : g.Reaches y z) (hx : g.genOf x = some gx) (hz : g.genOf z = some gz) : gz < gx := by
  have hedge : ∀ x y gx gy, y ∈ g.parentsOf x → g.genOf x = some gx → g.genOf y = some gy →
      gy < gx := by
    intro x y gx gy hxy hx hy
    obtain ⟨n, hn, hmem⟩ := fetch_of_parent hxy
    match hm : g.fetch y with
    | none => simp [genOf, hm] at hy
    | some m =>
        have hlt := hg.ascending x y n m hn hmem hm
        simp only [genOf, hn, hm, Option.map_some, Option.some.injEq] at hx hy
        omega
  unfold Reaches at hyz
  induction hyz using Relation.ReflTransGen.head_induction_on generalizing x gx with
  | refl => exact hedge x z gx gz hxy hx hz
  | head hyw _ ih =>
      rename_i y _ _
      obtain ⟨n, hn, -⟩ := fetch_of_parent hyw
      have hy : g.genOf y = some n.generation := by rw [genOf, hn]; rfl
      exact (ih hyw hy).trans (hedge x y gx n.generation hxy hx hy)

theorem Honest.genOf_le (hg : g.Honest) {x z : Id} {gx gz : ℤ} (hxz : g.Reaches x z)
    (hx : g.genOf x = some gx) (hz : g.genOf z = some gz) : gz ≤ gx := by
  rcases hxz.cases_head with rfl | ⟨y, hxy, hyz⟩
  · rw [hx, Option.some.injEq] at hz
    exact hz.ge
  · exact (hg.genOf_lt hxy hyz hx hz).le

/-- The first-parent chain runs through ancestors. -/
theorem reaches_firstParentAt {hop : ℕ} {x t : Id} (h : g.firstParentAt hop x = some t) :
    g.Reaches x t := by
  induction hop generalizing x with
  | zero => exact Option.some.inj h ▸ .refl
  | succ hop ih =>
      rw [firstParentAt, Option.bind_eq_some_iff] at h
      obtain ⟨y, hy, ht⟩ := h
      exact .head (List.mem_of_mem_head? (Option.mem_def.mpr hy)) (ih ht)

/-- Over a span of nodes of one parent each, what is low enough to lie below its
end does. -/
theorem Honest.reaches_span (hg : g.Honest) {t z : Id} {gt gz : ℤ} (ht : g.genOf t = some gt)
    (hz : g.genOf z = some gz) (hle : gz ≤ gt) {hop : ℕ} {x : Id}
    (hchain : g.firstParentAt hop x = some t)
    (hpure : ∀ k < hop, ∀ y, g.firstParentAt k x = some y → (g.parentsOf y).length ≤ 1)
    (hxz : g.Reaches x z) : g.Reaches t z := by
  induction hop generalizing x with
  | zero => exact Option.some.inj hchain ▸ hxz
  | succ hop ih =>
      rw [firstParentAt, Option.bind_eq_some_iff] at hchain
      obtain ⟨y, hy, hyt⟩ := hchain
      have hmem : y ∈ g.parentsOf x := List.mem_of_mem_head? (Option.mem_def.mpr hy)
      rcases hxz.cases_head with rfl | ⟨p, hp, hpz⟩
      · -- `z` sits at or below the end of the span, not at its head
        exact absurd hle (not_le.mpr (hg.genOf_lt hmem (reaches_firstParentAt hyt) hz ht))
      · have hone := hpure 0 (Nat.succ_pos hop) x rfl
        have hpy : p = y := by
          match hl : g.parentsOf x, hone with
          | [], _ => rw [hl] at hmem; cases hmem
          | [q], _ =>
              rw [hl] at hp hmem
              rw [List.mem_singleton.mp hp, List.mem_singleton.mp hmem]
        refine ih hyt (fun k hk w hw => hpure (k + 1) (Nat.succ_lt_succ hk) w ?_) (hpy ▸ hpz)
        rw [firstParentAt, hy]
        exact hw

/-- A step loses nothing that lies as low as the lower side: it is below where
the step leads, or below a side branch. -/
structure Step (g : SkipGraph Id) (lo : ℤ) (x : Id) (hi : SkipNode Id)
    (next : Id × SkipNode Id) : Prop where
  fetched : g.fetch next.1 = some next.2
  below : g.Reaches x next.1
  covers : ∀ z gz, g.genOf z = some gz → gz ≤ lo → g.Reaches x z →
    g.Reaches next.1 z ∨ ∃ p ∈ hi.parents.drop 1, g.Reaches p z

omit [DecidableEq Id] in
theorem longest_mem {l : List (SkipEdge Id)} {e : SkipEdge Id} (h : longest l = some e) :
    e ∈ l := by
  induction l with
  | nil => cases h
  | cons e' l ih =>
      rw [longest] at h
      split at h
      next => exact Option.some.inj h ▸ List.mem_cons_self
      next e'' hrest =>
        split_ifs at h
        · exact List.mem_cons_of_mem _ (ih (hrest.trans h))
        · exact Option.some.inj h ▸ List.mem_cons_self

theorem descend_some {hi : SkipNode Id} {p : Id} {next : Id × SkipNode Id}
    (h : g.descend hi p = some next) :
    next.1 = p ∧ g.fetch next.1 = some next.2 ∧ next.2.generation < hi.generation := by
  rw [descend] at h
  split at h
  next node hfetch =>
    split_ifs at h with hlt
    obtain rfl := Option.some.inj h
    exact ⟨rfl, hfetch, hlt⟩
  next => cases h

/-- What is below a node and not the node is below one of its parents. -/
theorem reaches_cases {x z y : Id} {hi : SkipNode Id} (hx : g.fetch x = some hi)
    (hhead : hi.parents.head? = some y) (hne : x ≠ z) (hxz : g.Reaches x z) :
    g.Reaches y z ∨ ∃ p ∈ hi.parents.drop 1, g.Reaches p z := by
  rcases hxz.cases_head with rfl | ⟨p, hp, hpz⟩
  · exact absurd rfl hne
  · rw [parentsOf_of_fetch hx] at hp
    match hl : hi.parents with
    | [] => rw [hl] at hp; cases hp
    | q :: rest =>
        rw [hl] at hhead hp
        obtain rfl : q = y := Option.some.inj hhead
        rcases List.mem_cons.mp hp with rfl | hmem
        · exact .inl hpz
        · exact .inr ⟨p, hmem, hpz⟩

theorem stepParent_step {lo : ℤ} {x : Id} {hi : SkipNode Id} {next : Id × SkipNode Id}
    (hx : g.fetch x = some hi) (hlo : lo < hi.generation) (h : g.stepParent hi = some next) :
    g.Step lo x hi next := by
  rw [stepParent, Option.bind_eq_some_iff] at h
  obtain ⟨p, hp, hdesc⟩ := h
  obtain ⟨rfl, hfetch, -⟩ := descend_some hdesc
  have hgen : g.genOf x = some hi.generation := by rw [genOf, hx]; rfl
  refine ⟨hfetch, ?_, fun z gz hz hle hxz => reaches_cases hx hp ?_ hxz⟩
  · refine .single ?_
    rw [parentsOf_of_fetch hx]
    exact List.mem_of_mem_head? (Option.mem_def.mpr hp)
  · rintro rfl
    rw [hgen, Option.some.injEq] at hz
    omega

/-- A pure jump is a step. -/
theorem Honest.jump_step (hg : g.Honest) {lo : ℤ} {x : Id} {hi node : SkipNode Id}
    {e : SkipEdge Id} (hx : g.fetch x = some hi) (hlo : lo < hi.generation) (he : e ∈ hi.skips)
    (hpure : e.pure) (habove : lo ≤ e.generation) (hnode : g.fetch e.target = some node)
    (hdesc : node.generation < hi.generation) : g.Step lo x hi (e.target, node) := by
  have hhonest := hg.skips x hi hx e he
  have hgen : g.genOf x = some hi.generation := by rw [genOf, hx]; rfl
  have hgt : g.genOf e.target = some e.generation := hhonest.generation
  refine ⟨hnode, reaches_firstParentAt hhonest.target, fun z gz hz hle hxz => ?_⟩
  have hne : x ≠ z := by
    rintro rfl
    rw [hgen, Option.some.injEq] at hz
    omega
  match hhop : e.hop with
  | 0 =>
      have htarget := hhonest.target
      rw [hhop, firstParentAt, Option.some.injEq] at htarget
      rw [← htarget, hx, Option.some.injEq] at hnode
      rw [hnode] at hdesc
      exact absurd hdesc (lt_irrefl _)
  | hop + 1 =>
      have htarget := hhonest.target
      rw [hhop, firstParentAt, Option.bind_eq_some_iff] at htarget
      obtain ⟨y, hy, hyt⟩ := htarget
      have hhead : hi.parents.head? = some y := by rw [← parentsOf_of_fetch hx, hy]
      refine (reaches_cases hx hhead hne hxz).imp_left fun hyz => ?_
      refine hg.reaches_span hgt hz (hle.trans habove) hyt (fun k hk w hw => ?_) hyz
      refine hhonest.pure hpure (k + 1) (Nat.succ_pos k) (hhop ▸ Nat.succ_lt_succ hk) w ?_
      rw [firstParentAt, hy]
      exact hw

theorem Honest.climbStep_step (hg : g.Honest) {lo hi : SkipNode Id} {x : Id}
    {next : Id × SkipNode Id} (hx : g.fetch x = some hi) (hlo : lo.generation < hi.generation)
    (h : g.climbStep lo hi = some next) : g.Step lo.generation x hi next := by
  rw [climbStep] at h
  split at h
  next => exact stepParent_step hx hlo h
  next e hjump =>
    have hmem := longest_mem hjump
    rw [List.mem_filter, Bool.and_eq_true, decide_eq_true_eq] at hmem
    obtain ⟨he, hpure, habove⟩ := hmem
    split at h
    next => cases h
    next node hnode =>
      split_ifs at h with hdesc
      · exact Option.some.inj h ▸ hg.jump_step hx hlo he hpure habove hnode hdesc
      · exact stepParent_step hx hlo h

/-- The seeds the climb ends with have the low ancestors the start had. -/
theorem Honest.climb_covers (hg : g.Honest) {lo : SkipNode Id} (steps : ℕ) {x : Id}
    {hi : SkipNode Id} {frontier : List Id} (hx : g.fetch x = some hi) {z : Id} {gz : ℤ}
    (hz : g.genOf z = some gz) (hle : gz ≤ lo.generation) {endId : Id} {frontier' : List Id}
    (hclimb : g.climb lo steps x hi frontier = (endId, frontier')) :
    (∃ s ∈ frontier' ++ [endId], g.Reaches s z) ↔ ∃ s ∈ frontier ++ [x], g.Reaches s z := by
  have hside : ∀ {x hi}, g.fetch x = some hi → ∀ p ∈ hi.parents.drop 1, g.Reaches p z →
      g.Reaches x z := by
    intro x hi hx p hp hpz
    refine .head ?_ hpz
    rw [parentsOf_of_fetch hx]
    exact List.mem_of_mem_drop hp
  induction steps generalizing x hi frontier with
  | zero =>
      obtain ⟨rfl, rfl⟩ := Prod.mk.inj hclimb
      rfl
  | succ steps ih =>
      rw [climb] at hclimb
      split_ifs at hclimb with hlo
      · split at hclimb
        next id node hstep =>
          have hnext := hg.climbStep_step hx hlo hstep
          refine (ih hnext.fetched hclimb).trans ?_
          simp only [List.mem_append, List.mem_singleton]
          constructor
          · rintro ⟨s, (hs | hs) | rfl, hsz⟩
            · exact ⟨s, .inl hs, hsz⟩
            · exact ⟨x, .inr rfl, hside hx s hs hsz⟩
            · exact ⟨x, .inr rfl, hnext.below.trans hsz⟩
          · rintro ⟨s, hs | rfl, hsz⟩
            · exact ⟨s, .inl (.inl hs), hsz⟩
            · rcases hnext.covers z gz hz hle hsz with hnz | ⟨p, hp, hpz⟩
              · exact ⟨id, .inr rfl, hnz⟩
              · exact ⟨p, .inl (.inr hp), hpz⟩
        next =>
          obtain ⟨rfl, rfl⟩ := Prod.mk.inj hclimb
          simp only [List.mem_append, List.mem_singleton]
          constructor
          · rintro ⟨s, (hs | hs) | rfl, hsz⟩
            · exact ⟨s, .inl hs, hsz⟩
            · exact ⟨x, .inr rfl, hside hx s hs hsz⟩
            · exact ⟨s, .inr rfl, hsz⟩
          · rintro ⟨s, hs | rfl, hsz⟩
            · exact ⟨s, .inl (.inl hs), hsz⟩
            · exact ⟨s, .inr rfl, hsz⟩
      · obtain ⟨rfl, rfl⟩ := Prod.mk.inj hclimb
        rfl

/-- Whatever the order of the endpoints, the seeds of phase 2 have in common what
the endpoints have. -/
theorem Honest.climb_meets (hg : g.Honest) {loId hiId : Id} {lo hi : SkipNode Id}
    (hlo : g.fetch loId = some lo) (hhi : g.fetch hiId = some hi) {endId : Id}
    {frontier : List Id} (hclimb : g.climb lo climbMaxSteps hiId hi [] = (endId, frontier))
    (z : Id) (gz : ℤ) :
    g.Meets [loId] (frontier ++ [endId]) excluded z gz ↔ g.Meets [loId] [hiId] excluded z gz := by
  have hgen : g.genOf loId = some lo.generation := by rw [genOf, hlo]; rfl
  simp only [Meets]
  refine and_congr_right fun hz => and_congr_right fun hset => and_congr_left fun _ => ?_
  obtain ⟨s, hs, hsz⟩ := hset
  rw [List.mem_singleton.mp hs] at hsz
  exact hg.climb_covers climbMaxSteps hhi hz (hg.genOf_le hsz hgen hz) hclimb

omit [DecidableEq Id] in
theorem Picked.congr {P Q : Id → ℤ → Prop} (hPQ : ∀ z gz, P z gz ↔ Q z gz)
    {best : Option (ℤ × Id)} (h : Picked P best) : Picked Q best :=
  ⟨fun gz z hz => (hPQ z gz).mp (h.sound gz z hz),
    fun w gw hw => h.highest w gw ((hPQ w gw).mpr hw)⟩

theorem Honest.alignedWalk_picked (hg : g.Honest) (excluded : Finset Id) {loId hiId : Id} {lo hi : SkipNode Id}
    (hlo : g.fetch loId = some lo) (hhi : g.fetch hiId = some hi) :
    ∃ best, g.alignedWalk loId lo hiId hi excluded = best.map Prod.snd ∧
      Picked (g.Meets [loId] [hiId] excluded) best := by
  match hclimb : g.climb lo climbMaxSteps hiId hi [] with
  | (endId, frontier) =>
      obtain ⟨best, hbest, hpicked⟩ :=
        g.mergeBaseWalkSeeded_picked excluded [loId] (frontier ++ [endId])
      refine ⟨best, ?_, hpicked.congr (hg.climb_meets hlo hhi hclimb)⟩
      rw [alignedWalk, hclimb]
      exact hbest

theorem meets_iff {a b z : Id} {gz : ℤ} :
    g.Meets [a] [b] excluded z gz ↔
      g.genOf z = some gz ∧ CommonAncestor g excluded a b z := by
  simp only [Meets, List.mem_singleton, exists_eq_left]
  constructor
  · rintro ⟨hz, ha, hb, hkept⟩
    refine ⟨hz, ?_, ha, hb, hkept⟩
    match hfetch : g.fetch z with
    | none => simp [genOf, hfetch] at hz
    | some n => rfl
  · rintro ⟨hz, -, ha, hb, hkept⟩
    exact ⟨hz, ha, hb, hkept⟩

theorem Honest.mergeBaseSkip_picked (hg : g.Honest) (excluded : Finset Id) (a b : Id) :
    ∃ best, g.mergeBaseSkip a b excluded = best.map Prod.snd ∧
      Picked (g.Meets [a] [b] excluded) best := by
  rw [mergeBaseSkip]
  split
  next na nb ha hb =>
    split_ifs
    · obtain ⟨best, hbest, hpicked⟩ := hg.alignedWalk_picked excluded hb ha
      refine ⟨best, hbest, hpicked.congr fun z gz => ?_⟩
      simp only [Meets]
      tauto
    · exact hg.alignedWalk_picked excluded ha hb
  next hmiss =>
    -- an endpoint that is not stored has no ancestor that is
    refine ⟨none, rfl, ⟨(fun gz z h => by cases h), fun w gw hw => ?_⟩⟩
    have hstored : ∀ x, g.Reaches x w → ∃ n, g.fetch x = some n := by
      intro x hxw
      rcases hxw.cases_head with rfl | ⟨y, hxy, -⟩
      · obtain ⟨-, hcommon⟩ := meets_iff.mp hw
        exact Option.isSome_iff_exists.mp hcommon.stored
      · obtain ⟨n, hn, -⟩ := fetch_of_parent hxy
        exact ⟨n, hn⟩
    obtain ⟨-, hcommon⟩ := meets_iff.mp hw
    obtain ⟨na, hna⟩ := hstored a hcommon.left
    obtain ⟨nb, hnb⟩ := hstored b hcommon.right
    exact absurd hnb (hmiss na nb hna)

/-! ### The answer -/

theorem Honest.best_of_picked (hg : g.Honest) {a b : Id} {best : Option (ℤ × Id)}
    (h : Picked (g.Meets [a] [b] excluded) best) {z : Id} (hz : best.map Prod.snd = some z) :
    BestAncestor g excluded a b z := by
  obtain ⟨⟨gz, _⟩, rfl, rfl⟩ := Option.map_eq_some_iff.mp hz
  obtain ⟨hgz, hcommon⟩ := meets_iff.mp (h.sound gz _ rfl)
  have hhighest : ∀ w gw, CommonAncestor g excluded a b w → g.genOf w = some gw → gw ≤ gz := by
    intro w gw hw hgw
    obtain ⟨gz', z', heq, hle⟩ := h.highest w gw (meets_iff.mpr ⟨hgw, hw⟩)
    rw [Option.some.injEq, Prod.mk.injEq] at heq
    exact heq.1 ▸ hle
  refine ⟨hcommon, fun w gw gz' hw hgw hgz' => ?_, fun w hw hwz => ?_⟩
  · obtain rfl : gz = gz' := Option.some.inj (hgz.symm.trans hgz')
    exact hhighest w gw hw hgw
  · rcases hwz.cases_head with heq | ⟨y, hwy, hyz⟩
    · exact heq
    · obtain ⟨n, hn, -⟩ := fetch_of_parent hwy
      have hgw : g.genOf w = some n.generation := by rw [genOf, hn]; rfl
      have hlt := hg.genOf_lt hwy hyz hgw hgz
      exact absurd (hhighest w n.generation hw hgw) (not_le.mpr hlt)

theorem picked_none {a b : Id} {best : Option (ℤ × Id)}
    (h : Picked (g.Meets [a] [b] excluded) best) :
    best.map Prod.snd = none ↔ ¬ ∃ z, CommonAncestor g excluded a b z := by
  rw [Option.map_eq_none_iff]
  constructor
  · rintro rfl ⟨z, hz⟩
    obtain ⟨n, hn⟩ := Option.isSome_iff_exists.mp hz.stored
    have hgen : g.genOf z = some n.generation := by rw [genOf, hn]; rfl
    obtain ⟨gz, z', hnone, -⟩ := h.highest z n.generation (meets_iff.mpr ⟨hgen, hz⟩)
    cases hnone
  · intro hno
    match best, h with
    | none, _ => rfl
    | some (gz, z), h => exact absurd ⟨z, (meets_iff.mp (h.sound gz z rfl)).2⟩ hno

/-- Two picks among the same candidates are of one generation. -/
theorem picked_genOf {P : Id → ℤ → Prop} (hP : ∀ z gz, P z gz → g.genOf z = some gz)
    {best best' : Option (ℤ × Id)} (h : Picked P best) (h' : Picked P best') :
    (best.map Prod.snd).bind g.genOf = (best'.map Prod.snd).bind g.genOf := by
  have hside : ∀ {best best' : Option (ℤ × Id)}, Picked P best → Picked P best' →
      ∀ gz, (best.map Prod.snd).bind g.genOf = some gz →
        ∃ gz', (best'.map Prod.snd).bind g.genOf = some gz' ∧ gz ≤ gz' := by
    intro best best' h h' gz hgz
    match best, h with
    | none, _ => cases hgz
    | some (gz₀, z), h =>
        have hz := h.sound gz₀ z rfl
        obtain ⟨gz', z', rfl, hle⟩ := h'.highest z gz₀ hz
        have heq : gz₀ = gz := Option.some.inj ((hP z gz₀ hz).symm.trans hgz)
        exact ⟨gz', hP z' gz' (h'.sound gz' z' rfl), heq ▸ hle⟩
  match hg₁ : (best.map Prod.snd).bind g.genOf, hg₂ : (best'.map Prod.snd).bind g.genOf with
  | none, none => rfl
  | some gz, none =>
      obtain ⟨gz', hgz', -⟩ := hside h h' gz hg₁
      rw [hg₂] at hgz'
      cases hgz'
  | none, some gz =>
      obtain ⟨gz', hgz', -⟩ := hside h' h gz hg₂
      rw [hg₁] at hgz'
      cases hgz'
  | some gz, some gz' =>
      obtain ⟨gz₁, hgz₁, hle⟩ := hside h h' gz hg₁
      obtain ⟨gz₂, hgz₂, hle'⟩ := hside h' h gz' hg₂
      obtain rfl : gz' = gz₁ := Option.some.inj (hg₂.symm.trans hgz₁)
      obtain rfl : gz = gz₂ := Option.some.inj (hg₁.symm.trans hgz₂)
      rw [le_antisymm hle hle']

end SkipGraph

/-- With honest skip entries the skip walk and the plain walk name changesets of
one generation; each is a best common ancestor that is not excluded, and there
is an answer exactly when there is one to name. -/
theorem merge_base_exact (g : SkipGraph Id) (hg : g.Honest) (excluded : Finset Id) (a b : Id) :
    (g.mergeBaseSkip a b excluded).bind g.genOf =
        (g.mergeBaseWalkSeeded [a] [b] excluded).bind g.genOf ∧
      (∀ z, g.mergeBaseSkip a b excluded = some z → BestAncestor g excluded a b z) ∧
      (∀ z, g.mergeBaseWalkSeeded [a] [b] excluded = some z → BestAncestor g excluded a b z) ∧
      (g.mergeBaseSkip a b excluded = none ↔ ¬ ∃ z, CommonAncestor g excluded a b z) ∧
      (g.mergeBaseWalkSeeded [a] [b] excluded = none ↔
        ¬ ∃ z, CommonAncestor g excluded a b z) := by
  obtain ⟨skip, hskip, hpicked⟩ := hg.mergeBaseSkip_picked excluded a b
  obtain ⟨plain, hplain, hpicked'⟩ :=
    g.mergeBaseWalkSeeded_picked excluded [a] [b]
  rw [hskip, hplain]
  exact ⟨SkipGraph.picked_genOf (fun z gz hz => hz.1) hpicked hpicked',
    fun z hz => hg.best_of_picked hpicked hz, fun z hz => hg.best_of_picked hpicked' hz,
    SkipGraph.picked_none hpicked, SkipGraph.picked_none hpicked'⟩

theorem SkipGraph.mem_of_fetch {g : SkipGraph Id} {x : Id} {n : SkipNode Id}
    (h : g.fetch x = some n) : (x, n) ∈ g := by
  rw [fetch, Option.map_eq_some_iff] at h
  obtain ⟨row, hrow, rfl⟩ := h
  have hkey : row.1 = x := by simpa using List.find?_some hrow
  exact hkey ▸ List.mem_of_find?_eq_some hrow

end

/-! ### A mainline and a branch off its root -/

/-- The mainline 0, 1, 2, 3 with a jump from its head to its root, and the branch
4. -/
def mainline : SkipGraph ℕ :=
  [(0, ⟨0, [], []⟩), (1, ⟨1, [0], []⟩), (2, ⟨2, [1], []⟩),
    (3, ⟨3, [2], [⟨2, 1, 2, true⟩, ⟨0, 3, 0, true⟩]⟩), (4, ⟨1, [0], []⟩)]

theorem mainline_honest : mainline.Honest where
  ascending := by
    have hrows : ∀ row ∈ mainline, ∀ p ∈ row.2.parents, ∀ m ∈ mainline.fetch p,
        m.generation < row.2.generation := by decide
    exact fun x p n m hn hp hm => hrows (x, n) (SkipGraph.mem_of_fetch hn) p hp m hm
  skips := by
    have hrows : ∀ row ∈ mainline, ∀ e ∈ row.2.skips,
        mainline.firstParentAt e.hop row.1 = some e.target ∧
          (mainline.fetch e.target).map (fun node => node.generation) = some e.generation ∧
          ∀ k < e.hop, 0 < k → ∀ x ∈ mainline.firstParentAt k row.1,
            (mainline.parentsOf x).length ≤ 1 := by decide
    intro x n hn e he
    obtain ⟨htarget, hgen, hpure⟩ := hrows (x, n) (SkipGraph.mem_of_fetch hn) e he
    exact ⟨htarget, hgen, fun _ k hk hlt y hy => hpure k hlt hk y hy⟩

theorem merge_base_exact_mainline :
    BestAncestor mainline ∅ 3 4 0 :=
  (merge_base_exact mainline mainline_honest ∅ 3 4).2.1 0 (by decide +kernel)

end Naatre
