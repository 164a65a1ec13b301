import Naatre.Core.Plain
import Naatre.Lib.Acyclic
import Naatre.Server.ImportCompletes
import Naatre.Server.RefValidity

/-!
The importer's two graph walks: the commits a run collects, and the graft that
moves `main` over them.

The collection is a depth-first post-order. Its stack holds, under the commits
entered and not emitted yet, the parents still to look at; a commit lies above
those it is an ancestor of, so that in an acyclic history a parent met again is
emitted already or above its child.
-/

namespace Naatre

/-! ### The commits collected -/

/-- `p` is a parent of the commit `x`. -/
def GitParent (git : GitRepo) (x p : GitOid) : Prop := ∃ c, git.find x = some c ∧ p ∈ c.parents

/-- A link the walk follows: the child is unmapped. -/
def GitLink (git : GitRepo) (mapped : GitOid → Bool) (x p : GitOid) : Prop :=
  mapped x = false ∧ GitParent git x p

/-- An unmapped ancestor of the head, through unmapped commits. -/
def Unmapped (git : GitRepo) (mapped : GitOid → Bool) (head x : GitOid) : Prop :=
  mapped x = false ∧ Relation.ReflTransGen (GitLink git mapped) head x

/-- Mapped commits have mapped parents. -/
def ParentClosed (git : GitRepo) (mapped : GitOid → Bool) : Prop :=
  ∀ x p, mapped x = true → GitParent git x p → mapped p = true

/-- Each commit stands behind its unmapped parents. -/
def ParentsBehind (mapped : GitOid → Bool) (batch : List GitCommit) : Prop :=
  Lib.EachBehind (fun before c =>
    ∀ p ∈ c.parents, mapped p = true ∨ p ∈ before.map (fun c => c.oid)) batch

/-- The batch: each unmapped ancestor once, behind its unmapped parents. -/
structure Collected (git : GitRepo) (mapped : GitOid → Bool) (head : GitOid)
    (batch : List GitCommit) : Prop where
  once : (batch.map fun c => c.oid).Nodup
  emitted : ∀ x, x ∈ batch.map (fun c => c.oid) ↔ Unmapped git mapped head x
  commits : ∀ c ∈ batch, git.find c.oid = some c
  ordered : ParentsBehind mapped batch

/-- Where the mapped commits are closed under parents, the commits the walk
finds are all unmapped ancestors. -/
theorem ParentClosed.unmapped_iff {git : GitRepo} {mapped : GitOid → Bool}
    (hclosed : ParentClosed git mapped) {head x : GitOid} :
    Unmapped git mapped head x ↔
      mapped x = false ∧ Relation.ReflTransGen (GitParent git) head x := by
  constructor
  · rintro ⟨hx, hpath⟩
    exact ⟨hx, Relation.ReflTransGen.mono (fun _ _ h => h.2) _ _ hpath⟩
  · rintro ⟨hx, hpath⟩
    refine ⟨hx, ?_⟩
    induction hpath with
    | refl => exact .refl
    | @tail a b _ hedge ih =>
        -- a mapped child would have had a mapped parent
        have ha : mapped a = false := by
          cases hmapped : mapped a with
          | false => rfl
          | true => simp [hclosed a b hmapped hedge] at hx
        exact (ih ha).tail ⟨ha, hedge⟩

def GitFrame.oid : GitFrame → GitOid
  | .enter oid => oid
  | .emit c => c.oid

/-- A frame above a commit not emitted yet is an ancestor of it. -/
def FrameAbove (git : GitRepo) (above below : GitFrame) : Prop :=
  ∀ c, below = .emit c → Relation.TransGen (GitParent git) c.oid above.oid

/-- The state of the walk. -/
structure Collecting (git : GitRepo) (mapped : GitOid → Bool) (head : GitOid)
    (stack : List GitFrame) (visited : List GitOid) (out : List GitCommit) : Prop where
  seen : ∀ x, x ∈ visited ↔ x ∈ out.map (fun c => c.oid) ∨ ∃ c, .emit c ∈ stack ∧ c.oid = x
  found : ∀ x ∈ visited, Unmapped git mapped head x
  entered : ∀ x, .enter x ∈ stack → Relation.ReflTransGen (GitLink git mapped) head x
  commits : ∀ c, .emit c ∈ stack ∨ c ∈ out → git.find c.oid = some c
  started : mapped head = true ∨ head ∈ visited ∨ .enter head ∈ stack
  above : stack.Pairwise (FrameAbove git)
  parents : ∀ top c below, stack = top ++ .emit c :: below → ∀ p ∈ c.parents,
    mapped p = true ∨ p ∈ out.map (fun c => c.oid) ∨ ∃ f ∈ top, f.oid = p
  ordered : ParentsBehind mapped out

namespace Collecting

variable {git : GitRepo} {mapped : GitOid → Bool} {head : GitOid} {stack : List GitFrame}
  {visited : List GitOid} {out : List GitCommit}

theorem start (git : GitRepo) (mapped : GitOid → Bool) (head : GitOid) :
    Collecting git mapped head [.enter head] [] [] where
  seen := by simp
  found := by simp
  entered := by
    intro x hx
    obtain rfl : x = head := by simpa using hx
    exact .refl
  commits := by simp
  started := .inr (.inr List.mem_cons_self)
  above := List.pairwise_singleton _ _
  parents := by
    intro top c below h
    cases top <;> simp at h
  ordered := .nil

/-- The commit on top has its parents behind it. -/
theorem emit {c : GitCommit} (h : Collecting git mapped head (.emit c :: stack) visited out) :
    Collecting git mapped head stack visited (out ++ [c]) where
  seen := by
    intro x
    rw [h.seen, List.map_append, List.mem_append, List.map_singleton, List.mem_singleton]
    constructor
    · rintro (hx | ⟨d, hd, rfl⟩)
      · exact .inl (.inl hx)
      · rcases List.mem_cons.mp hd with heq | hd
        · exact .inl (.inr (by rw [GitFrame.emit.inj heq]))
        · exact .inr ⟨d, hd, rfl⟩
    · rintro ((hx | rfl) | ⟨d, hd, rfl⟩)
      · exact .inl hx
      · exact .inr ⟨c, List.mem_cons_self, rfl⟩
      · exact .inr ⟨d, List.mem_cons_of_mem _ hd, rfl⟩
  found := h.found
  entered := fun x hx => h.entered x (List.mem_cons_of_mem _ hx)
  commits := by
    rintro d (hd | hd)
    · exact h.commits d (.inl (List.mem_cons_of_mem _ hd))
    · rcases List.mem_append.mp hd with hd | hd
      · exact h.commits d (.inr hd)
      · rw [List.mem_singleton.mp hd]
        exact h.commits c (.inl List.mem_cons_self)
  started := by
    rcases h.started with hmapped | hseen | hstack
    · exact .inl hmapped
    · exact .inr (.inl hseen)
    · exact .inr (.inr (by simpa using hstack))
  above := h.above.of_cons
  parents := by
    intro top d below hsplit p hp
    rcases h.parents (.emit c :: top) d below (by rw [hsplit, List.cons_append]) p hp with
      hmapped | hout | ⟨f, hf, hoid⟩
    · exact .inl hmapped
    · exact .inr (.inl (by rw [List.map_append]; exact List.mem_append_left _ hout))
    · rcases List.mem_cons.mp hf with rfl | hf
      · refine .inr (.inl ?_)
        rw [List.map_append, ← hoid]
        exact List.mem_append_right _ List.mem_cons_self
      · exact .inr (.inr ⟨f, hf, hoid⟩)
  ordered := by
    refine h.ordered.append fun p hp => ?_
    rcases h.parents [] c stack rfl p hp with hmapped | hmem | ⟨f, hf, -⟩
    · exact .inl hmapped
    · exact .inr hmem
    · exact absurd hf List.not_mem_nil

/-- A commit met again: a child waiting for it stands below it. -/
theorem skip {oid : GitOid} (h : Collecting git mapped head (.enter oid :: stack) visited out)
    (hacyclic : Lib.Acyclic (GitParent git)) (hskip : oid ∈ visited ∨ mapped oid = true) :
    Collecting git mapped head stack visited out where
  seen := fun x => by simpa using h.seen x
  found := h.found
  entered := fun x hx => h.entered x (List.mem_cons_of_mem _ hx)
  commits := fun c hc => h.commits c (hc.imp_left (List.mem_cons_of_mem _))
  started := by
    rcases h.started with hmapped | hseen | hstack
    · exact .inl hmapped
    · exact .inr (.inl hseen)
    · rcases List.mem_cons.mp hstack with heq | hstack
      · cases heq
        exact hskip.symm.imp_right .inl
      · exact .inr (.inr hstack)
  above := h.above.of_cons
  parents := by
    intro top c below hsplit p hp
    rcases h.parents (.enter oid :: top) c below (by rw [hsplit, List.cons_append]) p hp with
      hmapped | hout | ⟨f, hf, hoid⟩
    · exact .inl hmapped
    · exact .inr (.inl hout)
    rcases List.mem_cons.mp hf with rfl | hf
    · rcases hskip with hseen | hmapped
      · rcases (h.seen oid).mp hseen with hout | ⟨d, hd, hdoid⟩
        · exact .inr (.inl (hoid ▸ hout))
        rw [List.mem_cons, hsplit, List.mem_append, List.mem_cons] at hd
        -- pending itself, the parent would be a descendant of its child
        have hparent : GitParent git c.oid p :=
          ⟨c, h.commits c (.inl (by rw [hsplit]; simp)), hp⟩
        have hsame : d.oid = p := hdoid.trans hoid
        have hpairs := h.above.of_cons
        rw [hsplit] at hpairs
        rcases hd with hd | hd | hd | hd
        · cases hd
        · exact .inr (.inr ⟨_, hd, hsame⟩)
        · rw [GitFrame.emit.inj hd] at hsame
          exact absurd (.single (hsame ▸ hparent)) (hacyclic p)
        · have hdown := (List.pairwise_cons.mp (List.pairwise_append.mp hpairs).2.1).1 _ hd d rfl
          exact absurd ((hsame ▸ hdown).tail hparent) (hacyclic p)
      · exact .inl (hoid ▸ hmapped)
    · exact .inr (.inr ⟨f, hf, hoid⟩)
  ordered := h.ordered

/-- A new commit: its parents stand above it. -/
theorem enter {oid : GitOid} {c : GitCommit}
    (h : Collecting git mapped head (.enter oid :: stack) visited out)
    (hnew : ¬(oid ∈ visited ∨ mapped oid = true)) (hfind : git.find oid = some c) :
    Collecting git mapped head ((c.parents.map .enter).reverse ++ .emit c :: stack)
      (oid :: visited) out := by
  have hoid : c.oid = oid := by simpa using List.find?_some hfind
  have hunmapped : mapped oid = false := by simpa using (not_or.mp hnew).2
  have hreached := h.entered oid List.mem_cons_self
  have hpushed : ∀ f ∈ (c.parents.map GitFrame.enter).reverse, ∃ p ∈ c.parents, f = .enter p := by
    intro f hf
    obtain ⟨p, hp, rfl⟩ := List.mem_map.mp (List.mem_reverse.mp hf)
    exact ⟨p, hp, rfl⟩
  have hparent : ∀ p ∈ c.parents, GitParent git oid p := fun p hp => ⟨c, hfind, hp⟩
  have hemit : ∀ d, .emit d ∈ (c.parents.map GitFrame.enter).reverse ++ .emit c :: stack ↔
      d = c ∨ .emit d ∈ stack := by
    intro d
    rw [List.mem_append, List.mem_cons, GitFrame.emit.injEq, or_iff_right]
    intro hd
    obtain ⟨p, -, hp⟩ := hpushed _ hd
    cases hp
  have hbelow : ∀ f ∈ stack, FrameAbove git (.enter oid) f := (List.pairwise_cons.mp h.above).1
  refine
    { seen := fun x => ?_, found := fun x hx => ?_, entered := fun x hx => ?_,
      commits := fun d hd => ?_, started := ?_, above := ?_, parents := ?_,
      ordered := h.ordered }
  · rw [List.mem_cons, h.seen]
    constructor
    · rintro (rfl | hout | ⟨d, hd, rfl⟩)
      · exact .inr ⟨c, (hemit c).mpr (.inl rfl), hoid⟩
      · exact .inl hout
      · exact .inr ⟨d, (hemit d).mpr (.inr (by simpa using hd)), rfl⟩
    · rintro (hout | ⟨d, hd, rfl⟩)
      · exact .inr (.inl hout)
      · rcases (hemit d).mp hd with rfl | hd
        · exact .inl hoid
        · exact .inr (.inr ⟨d, List.mem_cons_of_mem _ hd, rfl⟩)
  · rcases List.mem_cons.mp hx with rfl | hx
    · exact ⟨hunmapped, hreached⟩
    · exact h.found x hx
  · rcases List.mem_append.mp hx with hx | hx
    · obtain ⟨p, hp, heq⟩ := hpushed _ hx
      cases heq
      exact hreached.tail ⟨hunmapped, hparent x hp⟩
    · rcases List.mem_cons.mp hx with hx | hx
      · cases hx
      · exact h.entered x (List.mem_cons_of_mem _ hx)
  · rw [hemit] at hd
    rcases hd with (rfl | hd) | hd
    · rw [hoid, hfind]
    · exact h.commits d (.inl (List.mem_cons_of_mem _ hd))
    · exact h.commits d (.inr hd)
  · rcases h.started with hmapped | hseen | hstack
    · exact .inl hmapped
    · exact .inr (.inl (List.mem_cons_of_mem _ hseen))
    · rcases List.mem_cons.mp hstack with heq | hstack
      · cases heq
        exact .inr (.inl List.mem_cons_self)
      · exact .inr (.inr (List.mem_append_right _ (List.mem_cons_of_mem _ hstack)))
  · refine List.pairwise_append.mpr ⟨?_, List.pairwise_cons.mpr ⟨?_, h.above.of_cons⟩, ?_⟩
    · refine List.pairwise_iff_forall_sublist.mpr fun {f g} hfg d hd => ?_
      obtain ⟨p, -, heq⟩ := hpushed g (hfg.subset (by simp))
      rw [heq] at hd
      cases hd
    · intro f hf d hd
      have hdown := hbelow f hf d hd
      rwa [GitFrame.oid, hoid]
    · intro f hf g hg d hd
      obtain ⟨p, hp, rfl⟩ := hpushed f hf
      rcases List.mem_cons.mp hg with rfl | hg
      · cases hd
        exact .single (hoid ▸ hparent p hp)
      · exact (hbelow g hg d hd).tail (hparent p hp)
  · intro top d below hsplit p hp
    rcases List.append_eq_append_iff.mp hsplit with ⟨mid, htop, htail⟩ | ⟨mid, hpush, htail⟩
    · cases mid with
      | nil =>
          rw [List.append_nil] at htop
          obtain ⟨heq, -⟩ := List.cons.inj htail
          cases heq
          exact .inr (.inr ⟨.enter p, by rw [htop]; simpa using hp, rfl⟩)
      | cons m mid =>
          obtain ⟨rfl, hstack⟩ := List.cons.inj htail
          rcases h.parents (.enter oid :: mid) d below (by rw [hstack]; rfl) p hp with
            hmapped | hout | ⟨f, hf, hfoid⟩
          · exact .inl hmapped
          · exact .inr (.inl hout)
          · refine .inr (.inr ?_)
            rcases List.mem_cons.mp hf with rfl | hf
            · exact ⟨.emit c, by rw [htop]; simp, hoid.trans hfoid⟩
            · exact ⟨f, by rw [htop]; simp [hf], hfoid⟩
    · cases mid with
      | nil =>
          rw [List.append_nil] at hpush
          obtain ⟨heq, -⟩ := List.cons.inj htail
          cases heq
          exact .inr (.inr ⟨.enter p, by rw [← hpush]; simpa using hp, rfl⟩)
      | cons m mid =>
          obtain ⟨rfl, -⟩ := List.cons.inj htail
          obtain ⟨q, -, heq⟩ := hpushed (.emit d) (by rw [hpush]; simp)
          cases heq

/-- The walk at its end. -/
theorem collected (h : Collecting git mapped head [] visited out)
    (honce : (out.map fun c => c.oid).Nodup) : Collected git mapped head out where
  once := honce
  emitted := by
    have hseen : ∀ x, x ∈ visited ↔ x ∈ out.map (fun c => c.oid) := fun x => by simp [h.seen]
    intro x
    refine ⟨fun hx => h.found x ((hseen x).mpr hx), ?_⟩
    rintro ⟨hx, hpath⟩
    induction hpath with
    | refl =>
        rcases h.started with hmapped | hvisited | hstack
        · rw [hx] at hmapped
          cases hmapped
        · exact (hseen head).mp hvisited
        · exact absurd hstack List.not_mem_nil
    | @tail a b _ hlink ih =>
        obtain ⟨ha, c, hfind, hb⟩ := hlink
        obtain ⟨d, hd, hdoid⟩ := List.mem_map.mp (ih ha)
        have hsame := h.commits d (.inr hd)
        rw [hdoid, hfind, Option.some.injEq] at hsame
        obtain ⟨before, after, hout⟩ := List.append_of_mem hd
        rcases h.ordered before d after hout b (hsame ▸ hb) with hmapped | hbefore
        · rw [hx] at hmapped
          cases hmapped
        · rw [hout, List.map_append]
          exact List.mem_append_left _ hbefore
  commits := fun c hc => h.commits c (.inr hc)
  ordered := h.ordered

end Collecting

/-- The walk collects the batch, from any of its states. -/
theorem collectLoop_collects {git : GitRepo} {mapped : GitOid → Bool} {head : GitOid} {fuel : ℕ}
    {stack : List GitFrame} {visited : List GitOid} {out batch : List GitCommit}
    (h : collectLoop git mapped fuel stack visited out = some batch)
    (hacyclic : Lib.Acyclic (GitParent git))
    (hwalk : Collecting git mapped head stack visited out) :
    ∃ visited, Collecting git mapped head [] visited batch := by
  induction fuel, stack, visited, out using collectLoop.induct git mapped with
  | case1 => simp [collectLoop] at h
  | case2 fuel visited out =>
      simp only [collectLoop, Option.some.injEq] at h
      exact ⟨visited, h ▸ hwalk⟩
  | case3 fuel c stack visited out ih =>
      simp only [collectLoop] at h
      exact ih h hwalk.emit
  | case4 fuel oid stack visited out hskip ih =>
      simp only [collectLoop, hskip, if_true] at h
      exact ih h (hwalk.skip hacyclic hskip)
  | case5 fuel oid stack visited out hnew hnone => simp [collectLoop, hnew, hnone] at h
  | case6 fuel oid stack visited out hnew c hfind ih =>
      simp only [collectLoop, hnew, if_false, hfind] at h
      exact ih h (hwalk.enter hnew hfind)

/-! ### The walk ends -/

/-- The frames left, and those the commits not entered yet will push. -/
def collectBudget (git : GitRepo) (stack : List GitFrame) (visited : List GitOid) : ℕ :=
  stack.length +
    ((git.filter (·.oid ∉ visited)).map (fun c => c.parents.length + 1)).sum

theorem collectBudget_enter {git : GitRepo} {oid : GitOid} {c : GitCommit}
    {stack : List GitFrame} {visited : List GitOid} (hnew : oid ∉ visited)
    (hfind : git.find oid = some c) :
    collectBudget git ((c.parents.map .enter).reverse ++ .emit c :: stack) (oid :: visited) <
      collectBudget git (.enter oid :: stack) visited := by
  have hoid : c.oid = oid := by simpa using List.find?_some hfind
  have hmem : c ∈ git.filter (·.oid ∉ visited) :=
    List.mem_filter.mpr ⟨List.mem_of_find?_eq_some hfind, by simpa [hoid] using hnew⟩
  have hsplit : (git.filter (·.oid ∉ oid :: visited)) =
      (git.filter (·.oid ∉ visited)).filter (·.oid ≠ oid) := by
    rw [List.filter_filter]
    refine List.filter_congr fun d _ => ?_
    simp [not_or]
  have hsum : ((git.filter (·.oid ∉ oid :: visited)).map (fun c => c.parents.length + 1)).sum +
      (c.parents.length + 1) ≤
        ((git.filter (·.oid ∉ visited)).map (fun c => c.parents.length + 1)).sum := by
    rw [hsplit]
    obtain ⟨before, after, heq⟩ := List.append_of_mem hmem
    rw [heq, List.filter_append, List.filter_cons_of_neg (by simp [hoid])]
    have hshort : ∀ l : List GitCommit, ((l.filter (·.oid ≠ oid)).map
        (fun c => c.parents.length + 1)).sum ≤ (l.map (fun c => c.parents.length + 1)).sum :=
      fun l => (List.filter_sublist.map _).sum_le_sum fun _ _ => Nat.zero_le _
    simp only [List.map_append, List.map_cons, List.sum_append, List.sum_cons]
    have := hshort before
    have := hshort after
    omega
  simp only [collectBudget, List.length_append, List.length_reverse, List.length_map,
    List.length_cons]
  omega

/-- A walk without an answer met an unmapped commit it could not read. -/
theorem collectLoop_none {git : GitRepo} {mapped : GitOid → Bool} {head : GitOid} {fuel : ℕ}
    {stack : List GitFrame} {visited : List GitOid} {out : List GitCommit}
    (h : collectLoop git mapped fuel stack visited out = none)
    (hfuel : collectBudget git stack visited < fuel)
    (hentered : ∀ x, .enter x ∈ stack → Relation.ReflTransGen (GitLink git mapped) head x) :
    ∃ x, Unmapped git mapped head x ∧ git.find x = none := by
  induction fuel, stack, visited, out using collectLoop.induct git mapped with
  | case1 => omega
  | case2 => simp [collectLoop] at h
  | case3 fuel c stack visited out ih =>
      simp only [collectLoop] at h
      refine ih h ?_ fun x hx => hentered x (List.mem_cons_of_mem _ hx)
      rw [collectBudget, List.length_cons] at hfuel
      rw [collectBudget]
      omega
  | case4 fuel oid stack visited out hskip ih =>
      simp only [collectLoop, hskip, if_true] at h
      refine ih h ?_ fun x hx => hentered x (List.mem_cons_of_mem _ hx)
      rw [collectBudget, List.length_cons] at hfuel
      rw [collectBudget]
      omega
  | case5 fuel oid stack visited out hnew hnone =>
      have hunmapped : mapped oid = false := by simpa using (not_or.mp hnew).2
      exact ⟨oid, ⟨hunmapped, hentered oid List.mem_cons_self⟩, hnone⟩
  | case6 fuel oid stack visited out hnew c hfind ih =>
      simp only [collectLoop, hnew, if_false, hfind] at h
      have hbudget := @collectBudget_enter git oid c stack visited (not_or.mp hnew).1 hfind
      refine ih h (by omega) fun x hx => ?_
      rcases List.mem_append.mp hx with hx | hx
      · obtain ⟨p, hp, heq⟩ := List.mem_map.mp (List.mem_reverse.mp hx)
        cases heq
        have hunmapped : mapped oid = false := by simpa using (not_or.mp hnew).2
        exact (hentered oid List.mem_cons_self).tail ⟨hunmapped, c, hfind, hp⟩
      · rcases List.mem_cons.mp hx with hx | hx
        · cases hx
        · exact hentered x (List.mem_cons_of_mem _ hx)

theorem collectBudget_start (git : GitRepo) (head : GitOid) :
    collectBudget git [.enter head] [] < gitFuel git := by
  have hsum : (git.map (fun c => c.parents.length + 1)).sum =
      (git.map (fun c => c.parents.length)).sum + git.length := by
    induction git with
    | nil => rfl
    | cons c git ih =>
        simp only [List.map_cons, List.sum_cons, List.length_cons, ih]
        omega
  have hall : git.filter (·.oid ∉ ([] : List GitOid)) = git := by simp
  rw [collectBudget, gitFuel, hall, hsum, List.length_singleton]
  omega

/-- What `collect_ancestors` answers: the batch, or nothing where an unmapped
ancestor cannot be read. -/
theorem collectAncestors_collects {git : GitRepo} {mapped : GitOid → Bool} {head : GitOid}
    (hacyclic : Lib.Acyclic (GitParent git)) :
    (∃ batch, collectAncestors git mapped head = some batch ∧ Collected git mapped head batch) ∨
      collectAncestors git mapped head = none ∧
        ∃ x, Unmapped git mapped head x ∧ git.find x = none := by
  cases h : collectAncestors git mapped head with
  | none =>
      refine .inr ⟨rfl, collectLoop_none h (collectBudget_start git head) fun x hx => ?_⟩
      obtain rfl : x = head := by simpa using hx
      exact .refl
  | some batch =>
      obtain ⟨visited, hwalk⟩ := collectLoop_collects h hacyclic (.start git mapped head)
      exact .inl ⟨batch, rfl, hwalk.collected (collectLoop_nodup h (by simp [GitFrame.pending])
        (by simp))⟩

/-! ### The graft -/

section

variable {Id : Type} [Platform Id]

/-- The target of `main`. -/
def mainTarget (db : RepoTables Id) : Option Id := (refGet db "main").bind (·.target)

/-- What a run did to the refs, and what it reports of `main`. -/
inductive MainGrafted (cx : RepoCx Id) :
    Except (ImportError Id) ImportReport → RepoCx Id → Prop
  | left {result : Except (ImportError Id) ImportReport} {cx' : RepoCx Id}
      (hrefs : cx'.db.refs = cx.db.refs)
      (hmain : ∀ report, result = .ok report →
        report.main = .unchanged ∨ report.main = .refused) :
      MainGrafted cx result cx'
  | set {report : ImportReport} {cx' : RepoCx Id} (target : Id)
      (habsent : refGet cx.db "main" = none) (hmain : report.main = .set)
      (htarget : mainTarget cx'.db = some target)
      (hstored : (changesetGet cx'.db target).isSome)
      (hothers : ∀ name, name ≠ "main" → refGet cx'.db name = refGet cx.db name) :
      MainGrafted cx (.ok report) cx'
  | moved {report : ImportReport} {cx' : RepoCx Id} (old new : Id)
      (hold : mainTarget cx.db = some old) (hmain : report.main = .fastForwarded)
      (hnew : mainTarget cx'.db = some new) (hdescends : Ancestor cx'.db old new)
      (hothers : ∀ name, name ≠ "main" → refGet cx'.db name = refGet cx.db name) :
      MainGrafted cx (.ok report) cx'

/-- A run with its answer: the refs as they were, or the graft at its end. -/
theorem runBackend_main (nowNs : ℕ) (cx : RepoCx Id) (git : GitRepo) (opts : ImportOptions)
    (head : GitOid) (stop : ℕ) {result : Except (ImportError Id) ImportReport} {cx' : RepoCx Id}
    (h : runBackend nowNs cx git opts head stop = (result, cx')) :
    (cx'.db.refs = cx.db.refs ∧ ∀ report, result = .ok report → report.main = .unchanged) ∨
      ∃ ps last main db report, Imported nowNs cx ps last ∧
        graftMain last.db (refGet cx.db "main") (mainGitOid cx.db) ps head = .ok (main, db) ∧
        result = .ok report ∧ report.main = main ∧ cx' = { last with db := db } := by
  have hstill : ∀ {n : ℕ} {skipped : List (GitOid × String)} {cascaded : List GitOid}
      {aborted : Bool} (report : ImportReport),
      (Except.ok ⟨n, skipped, cascaded, .unchanged, aborted⟩ :
        Except (ImportError Id) ImportReport) = .ok report → report.main = .unchanged := by
    intro n skipped cascaded aborted report heq
    cases heq
    rfl
  unfold runBackend at h
  split at h
  · cases h; exact .inl ⟨rfl, by simp⟩
  · cases h; exact .inl ⟨rfl, hstill⟩
  next batch hne hbatch =>
  simp only at h
  split at h
  · cases h; exact .inl ⟨rfl, by simp⟩
  · cases h; exact .inl ⟨rfl, hstill⟩
  split at h
  · cases h; exact .inl ⟨rfl, by simp⟩
  next scan hscan =>
  split at h
  · cases h; exact .inl ⟨rfl, hstill⟩
  split at h
  next e stopped himport =>
    obtain ⟨k, mid, himported, hputs⟩ := importCommits_cases.2 _ _ himport
    obtain ⟨cas, cat, rfl⟩ := hputs.frame
    cases h
    exact .inl ⟨himported.tables.1, by simp⟩
  next last himport =>
    have himported := importCommits_cases.1 _ himport
    split_ifs at h with hstop hnone
    · cases h; exact .inl ⟨himported.tables.1, by simp⟩
    · cases h; exact .inl ⟨himported.tables.1, hstill⟩
    · rw [List.take_of_length_le (by omega)] at himported
      split at h
      · cases h; exact .inl ⟨himported.tables.1, by simp⟩
      next main db hgraft =>
        cases h
        exact .inr ⟨_, last, main, db, _, himported, hgraft, rfl, rfl, rfl⟩

theorem runBackend_grafts {nowNs : ℕ} {cx cx' : RepoCx Id} {git : GitRepo} {opts : ImportOptions}
    {head : GitOid} {stop : ℕ} {result : Except (ImportError Id) ImportReport}
    (h : runBackend nowNs cx git opts head stop = (result, cx')) (hwf : TablesWf cx.db) :
    MainGrafted cx result cx' := by
  rcases runBackend_main nowNs cx git opts head stop h with ⟨hrefs, hmain⟩ |
    ⟨ps, last, main, db, report, himported, hgraft, rfl, rfl, rfl⟩
  · exact .left hrefs fun report heq => .inl (hmain report heq)
  have hrefs := himported.tables.1
  have hget : ∀ name, refGet last.db name = refGet cx.db name := fun name => by
    rw [refGet, hrefs, refGet]
  rcases graftMain_reports hgraft with ⟨hmain, rfl⟩ | ⟨hmain, habsent, p, hp, rfl⟩ |
    ⟨hmain, p, hp, current, oldOid, previousTip, hcurrent, hoid, hmap, hdescends, rfl⟩
  · refine .left hrefs fun answer heq => ?_
    cases heq
    exact hmain
  · obtain ⟨row, hrow, -⟩ := himported.rows hp
    refine .set p.csId (by rw [← hget, habsent]) hmain ?_ (Option.isSome_iff_exists.mpr ⟨row, hrow⟩)
      fun name hname => ?_
    · rw [refGet] at habsent
      rw [mainTarget, refGet]
      simp [List.find?_append, habsent]
    · rw [← hget name, refGet, refGet]
      simp [List.find?_append, Ne.symm hname]
  · obtain ⟨mainRow, hmainRow, hold⟩ := himported.mainTip hwf hoid hmap
    refine .moved previousTip p.csId (by rw [mainTarget, hmainRow, Option.bind_some, hold]) hmain ?_
      ((himported.ancestor hp hdescends).keep (.of_eq rfl)) fun name hname => ?_
    · rw [mainTarget, refGet_map rfl (fun row => by split_ifs <;> rfl), hcurrent, Option.map_some,
        if_pos (refGet_some hcurrent).2]
      rfl
    · rw [refGet_map rfl (fun row => by split_ifs <;> rfl), ← hget name]
      cases hrow : refGet last.db name with
      | none => rfl
      | some row =>
          rw [Option.map_some, if_neg]
          rw [(refGet_some hrow).2]
          exact hname

/-- A run grafts `main` where it was absent or onto a descendant of its target;
and what it collects are the unmapped ancestors of the head that it reaches
through unmapped commits, each once and behind its unmapped parents. -/
theorem import_grafts {ok : Server Id → Event Id → Prop} {s : Server Id}
    (hreach : Server.Reach ok s) (r : RepoId) {git : GitRepo}
    (hacyclic : Lib.Acyclic (GitParent git)) (opts : ImportOptions) (head : GitOid) (stop : ℕ) (mapped : GitOid → Bool) :
    MainGrafted (s.cx r) (runBackend s.nowNs (s.cx r) git opts head stop).1
        (runBackend s.nowNs (s.cx r) git opts head stop).2 ∧
      ((∃ batch, collectAncestors git mapped head = some batch ∧
          Collected git mapped head batch) ∨
        collectAncestors git mapped head = none ∧
          ∃ x, Unmapped git mapped head x ∧ git.find x = none) ∧
      (ParentClosed git mapped → ∀ x, Unmapped git mapped head x ↔
        mapped x = false ∧ Relation.ReflTransGen (GitParent git) head x) :=
  ⟨runBackend_grafts rfl (Server.tablesWf_of_reach hreach r), collectAncestors_collects hacyclic,
    fun hclosed _ => hclosed.unmapped_iff⟩

end

/-! ### A history under a mapped commit -/

namespace ImportGraft

def start : Server PlainId := .boot .singleDb [(1, "r")] 100 10

/-- Three commits, each on top of the one before. -/
def chain : GitRepo :=
  [⟨1, [], "ann", "first", 5, .entry "a" (.blob .regular 11 [97, 10]) .empty⟩,
    ⟨2, [1], "ann", "second", 6, .entry "a" (.blob .regular 12 [98, 10]) .empty⟩,
    ⟨3, [2], "ann", "third", 7, .entry "a" (.blob .regular 13 [99, 10]) .empty⟩]

theorem chain_acyclic : Lib.Acyclic (GitParent chain) := by
  refine .of_rank id fun x p ⟨c, hfind, hp⟩ => ?_
  have hoid : c.oid = x := by simpa using List.find?_some hfind
  have hbelow : ∀ c ∈ chain, ∀ p ∈ c.parents, p < c.oid := by
    intro c hc
    simp only [chain, List.mem_cons, List.not_mem_nil, or_false] at hc
    rcases hc with rfl | rfl | rfl <;> simp
  exact hoid ▸ hbelow c (List.mem_of_find?_eq_some hfind) p hp

/-- The first two commits, imported. -/
def imported : List (Event PlainId) := [.importGit 1 chain ⟨false, false⟩ 2 2]

end ImportGraft

open ImportGraft in
/-- The import of the third commit moves `main` onto it. -/
theorem import_grafts_chain : ∃ s, Lib.exec Server.step start imported = some s ∧
    (mainTarget (s.cx 1).db).isSome ∧
    MainGrafted (s.cx 1) (runBackend s.nowNs (s.cx 1) chain ⟨false, false⟩ 3 9).1
      (runBackend s.nowNs (s.cx 1) chain ⟨false, false⟩ 3 9).2 ∧
    ∃ batch, collectAncestors chain (· = 2) 3 = some batch ∧
      Collected chain (· = 2) 3 batch := by
  have hrun : (Lib.exec Server.step start imported).any (fun s =>
      (mainTarget (s.cx 1).db).isSome) = true := by decide +kernel
  obtain ⟨s, hs, hmain⟩ := (Option.any_eq_true _ _).mp hrun
  have hstart : Server.Init start := ⟨.singleDb, [(1, "r")], 100, 10, by decide, rfl⟩
  obtain ⟨hgraft, hcollects, -⟩ := import_grafts (Lib.Reach.exec (.start hstart)
    (fun _ _ _ => trivial) hs) 1 chain_acyclic ⟨false, false⟩ 3 9 (· = 2)
  refine ⟨s, hs, hmain, hgraft, hcollects.resolve_right ?_⟩
  rintro ⟨hnone, -⟩
  have hsome : (collectAncestors chain (· = 2) 3).isSome = true := by decide +kernel
  simp [hnone] at hsome

open ImportGraft in
/-- An unmapped ancestor under a mapped commit is not collected. -/
theorem under_mapped_left : Lib.Acyclic (GitParent chain) ∧
    Relation.ReflTransGen (GitParent chain) 3 1 ∧
    ∃ batch, collectAncestors chain (· = 2) 3 = some batch ∧
      batch.map (fun c => c.oid) = [3] := by
  refine ⟨chain_acyclic, ?_, ?_⟩
  · exact .head ⟨chain[2], rfl, List.mem_cons_self⟩ (.single ⟨chain[1], rfl, List.mem_cons_self⟩)
  · have h : ((collectAncestors chain (· = 2) 3).map fun batch => batch.map fun c => c.oid) =
        some [3] := by decide +kernel
    exact Option.map_eq_some_iff.mp h

end Naatre
