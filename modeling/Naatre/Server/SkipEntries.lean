import Naatre.Core.WireCodec
import Naatre.Lib.Lifting
import Naatre.Server.DeriveTaint

/-!
The commit graph's skip entries (`naatre-server/src/derived.rs`): jumps of 1,
3, 7, … steps along first parents, composed from the entries of the first
parent and of the changeset in the middle. What the deriver reads of the queue
is the done rows of its own kind.
-/

namespace Naatre

open Lib (Reader leBytes)
open Wire (ObjectId Read take32 u8 u32le u64le)

structure SkipEntry where
  target : ObjectId
  hop : UInt64
  generation : Int64
  pure : Bool
  deriving DecidableEq

def SkipEntry.encode (e : SkipEntry) : Bytes :=
  e.target.bytes ++ leBytes 8 e.hop.toNat ++ leBytes 8 e.generation.toUInt64.toNat ++
    [if e.pure then 1 else 0]

/-- `encode_skip_entries`. -/
def encodeSkipEntries (entries : List SkipEntry) : Bytes :=
  leBytes 4 entries.length ++ entries.flatMap SkipEntry.encode

def readSkipEntry : Read SkipEntry := do
  let target ← take32
  let hop ← u64le
  let generation ← u64le
  let bit ← u8
  pure ⟨target, hop, generation.toInt64, bit == 1⟩

/-- `decode_skip_entries`. -/
def decodeSkipEntries (bytes : Bytes) : Option (List SkipEntry) :=
  let read : Read (List SkipEntry) := do
    let n ← u32le
    Reader.replicate readSkipEntry n
  (read.whole .decodeTrailingBytes bytes).toOption

theorem readSkipEntry_encode (e : SkipEntry) (rest : Bytes) :
    readSkipEntry.run (e.encode ++ rest) = .ok (e, rest) := by
  obtain ⟨target, hop, generation, pure⟩ := e
  simp only [SkipEntry.encode, List.append_assoc]
  refine Reader.run_bind_ok.mpr ⟨target, _, Wire.codes_take32.run_write trivial _, ?_⟩
  refine Reader.run_bind_ok.mpr ⟨hop, _, Wire.codes_u64le.run_write trivial _, ?_⟩
  refine Reader.run_bind_ok.mpr
    ⟨generation.toUInt64, _, Wire.codes_u64le.run_write trivial _, ?_⟩
  refine Reader.run_bind_ok.mpr ⟨_, _, Wire.codes_u8.run_write trivial _, ?_⟩
  rw [Int64.toInt64_toUInt64]
  cases pure <;> rfl

theorem decode_encodeSkipEntries {entries : List SkipEntry} (h : entries.length < 2 ^ 32) :
    decodeSkipEntries (encodeSkipEntries entries) = some entries := by
  have hread : (do
      let n ← u32le
      Reader.replicate readSkipEntry n : Read (List SkipEntry)).run
        (encodeSkipEntries entries) = .ok (entries, []) := by
    refine Reader.run_bind_ok.mpr ⟨entries.length, _, Wire.codes_u32le.run_write h _, ?_⟩
    have hone : ∀ e ∈ entries, ∀ rest, readSkipEntry.run (e.encode ++ rest) = .ok (e, rest) :=
      fun e _ rest => readSkipEntry_encode e rest
    have hall := Reader.run_replicate_write hone []
    rwa [List.append_nil] at hall
  simp only [decodeSkipEntries, Reader.whole, hread]
  rfl

/-! ### The deriver -/

/-- `changeset_graph`. -/
def changesetGraph (nodes : List (QueueNode ObjectId)) (repoId : RepoId) (cs : ObjectId) :
    Option (QueueNode ObjectId) :=
  nodes.find? fun n => decide (n.repoId = repoId ∧ n.id = cs)

/-- `changeset_parent_count`. -/
def changesetParentCount (nodes : List (QueueNode ObjectId)) (repoId : RepoId) (cs : ObjectId) :
    ℕ :=
  (queueParents nodes repoId cs).length

/-- `CommitGraphDeriver::skips_of`. -/
def skipsOf (t : DeriveTables ObjectId) (key : DeriveKey ObjectId) : Option (List SkipEntry) :=
  match deriveGet t.rows key with
  | some row => if row.state = .done then row.output.bind decodeSkipEntries else none
  | none => none

/-- The composed entry. -/
def skipEntry (t : DeriveTables ObjectId) (repoId : RepoId) (p1 : ObjectId)
    (mid far : SkipEntry) : SkipEntry :=
  { target := far.target
    hop := far.hop * 2 + 1
    generation := far.generation
    pure := decide (changesetParentCount t.nodes repoId p1 ≤ 1) &&
      decide (changesetParentCount t.nodes repoId mid.target ≤ 1) && mid.pure && far.pure }

/-- The loop over `k`. A turn charges one visit, and one more where it adds an
entry; the last visit of a budget fails. -/
def skipLoop (t : DeriveTables ObjectId) (kind : ℕ) (repoId : RepoId) (p1 : ObjectId)
    (p1Skips : List SkipEntry) : ℕ → ℕ → List SkipEntry → Option (List SkipEntry)
  | 0, _, _ => none
  | 1, _, _ => none
  | left + 2, k, entries =>
      match p1Skips[k - 1]? with
      | none => some entries
      | some mid =>
          match (skipsOf t ⟨kind, repoId, mid.target⟩).bind fun skips => skips[k - 1]? with
          | none => some entries
          | some far =>
              if left = 0 then none
              else skipLoop t kind repoId p1 p1Skips left (k + 1)
                (entries ++ [skipEntry t repoId p1 mid far])

/-- `walk_budget`. -/
def commitGraphBudget : ℕ := 1000

/-- `CommitGraphDeriver::derive`. -/
def commitGraphDerive (t : DeriveTables ObjectId) (key : DeriveKey ObjectId) : DeriveOutcome :=
  match changesetGraph t.nodes key.repoId key.cs with
  | none => .fail "changeset row vanished mid-derivation"
  | some graph =>
      match graph.parents.head? with
      | none => .ok []
      | some p1 =>
          match changesetGraph t.nodes key.repoId p1 with
          | none => .fail "first-parent row vanished mid-derivation"
          | some p1Graph =>
              let first : SkipEntry := ⟨p1, 1, .ofNat p1Graph.generation, true⟩
              match skipsOf t { key with cs := p1 } with
              | none => .ok (encodeSkipEntries [first])
              | some p1Skips =>
                  match skipLoop t key.kind key.repoId p1 p1Skips commitGraphBudget 1 [first] with
                  | none => .walkBudget commitGraphBudget
                  | some entries => .ok (encodeSkipEntries entries)

/-! ### First parents -/

def firstParent (nodes : List (QueueNode ObjectId)) (repoId : RepoId) (cs : ObjectId) :
    Option ObjectId :=
  (queueParents nodes repoId cs).head?

theorem queueParents_eq {nodes : List (QueueNode ObjectId)} {repoId : RepoId} {cs : ObjectId}
    {n : QueueNode ObjectId} (h : changesetGraph nodes repoId cs = some n) :
    queueParents nodes repoId cs = n.parents := by
  rw [changesetGraph] at h
  rw [queueParents, h, Option.map_some, Option.getD_some]

/-- A changeset with a first parent is stored. -/
theorem firstParent_some {nodes : List (QueueNode ObjectId)} {repoId : RepoId}
    {cs p : ObjectId} (h : firstParent nodes repoId cs = some p) :
    ∃ n, changesetGraph nodes repoId cs = some n ∧ n.parents.head? = some p := by
  cases hgraph : changesetGraph nodes repoId cs with
  | none =>
      rw [changesetGraph] at hgraph
      rw [firstParent, queueParents, hgraph] at h
      cases h
  | some n =>
      rw [firstParent, queueParents_eq hgraph] at h
      exact ⟨n, rfl, h⟩

theorem changesetGraph_append {nodes : List (QueueNode ObjectId)} {repoId : RepoId}
    {cs : ObjectId} {n : QueueNode ObjectId} (h : changesetGraph nodes repoId cs = some n)
    (new : List (QueueNode ObjectId)) : changesetGraph (nodes ++ new) repoId cs = some n := by
  rw [changesetGraph] at h
  rw [changesetGraph, List.find?_append, h, Option.some_or]

theorem firstParent_append {nodes : List (QueueNode ObjectId)} {repoId : RepoId}
    {cs p : ObjectId} (h : firstParent nodes repoId cs = some p)
    (new : List (QueueNode ObjectId)) : firstParent (nodes ++ new) repoId cs = some p := by
  obtain ⟨n, hgraph, hparent⟩ := firstParent_some h
  rw [firstParent, queueParents_eq (changesetGraph_append hgraph new), hparent]

/-- An acyclic graph of as many rows and as great generations as an i64 column
counts. -/
structure GraphFits (nodes : List (QueueNode ObjectId)) : Prop where
  acyclic : AcyclicNodes nodes
  rows : nodes.length < 2 ^ 63
  generations : ∀ n ∈ nodes, n.generation < 2 ^ 63

/-- A climb along first parents has fewer steps than there are rows. -/
theorem GraphFits.steps_lt {nodes : List (QueueNode ObjectId)} (h : GraphFits nodes)
    {repoId : RepoId} {cs x : ObjectId} {n : ℕ}
    (hx : Lib.ancestor (firstParent nodes repoId) n cs = some x) : n < 2 ^ 63 := by
  have hacyclic : Lib.Acyclic fun x y => firstParent nodes repoId x = some y :=
    (h.acyclic repoId).mono fun x y hup => List.mem_of_head? hup
  have hle := Lib.ancestor_le_length (l := nodes.map (·.id)) hacyclic ?_ hx
  · rw [List.length_map] at hle
    exact hle.trans_lt h.rows
  · intro x y hup
    obtain ⟨n, hgraph, -⟩ := firstParent_some hup
    have hn := List.find?_some hgraph
    simp only [decide_eq_true_eq] at hn
    exact List.mem_map.mpr ⟨n, List.mem_of_find?_eq_some hgraph, hn.2⟩

theorem GraphFits.of_append {nodes new : List (QueueNode ObjectId)}
    (h : GraphFits (nodes ++ new)) : GraphFits nodes := by
  refine ⟨fun repoId => (h.acyclic repoId).mono fun x y hparent => ?_, ?_, fun n hn => ?_⟩
  · cases hgraph : changesetGraph nodes repoId x with
    | none =>
        rw [changesetGraph] at hgraph
        rw [ParentOf, queueParents, hgraph] at hparent
        exact absurd hparent List.not_mem_nil
    | some m =>
        rw [ParentOf, queueParents_eq hgraph] at hparent
        rw [ParentOf, queueParents_eq (changesetGraph_append hgraph new)]
        exact hparent
  · have hrows := h.rows
    rw [List.length_append] at hrows
    omega
  · exact h.generations n (List.mem_append_left _ hn)

/-! ### What an entry says -/

/-- The hops of entry `k`. -/
def hops (k : ℕ) : ℕ := 2 ^ (k + 1) - 1

theorem hops_succ (k : ℕ) : hops (k + 1) = 2 * hops k + 1 := by
  have hpos : 0 < 2 ^ (k + 1) := Nat.two_pow_pos _
  rw [hops, hops, Nat.pow_succ 2 (k + 1)]
  omega

theorem hops_pos (k : ℕ) : 0 < hops k := by
  have hpow : 2 ^ 1 ≤ 2 ^ (k + 1) := Nat.pow_le_pow_right (by omega) (by omega)
  rw [hops]
  omega

/-- Entry `k` of `cs` names the ancestor its hops away along first parents, with
that ancestor's generation, and is pure where no changeset in between merges. -/
structure SkipRight (nodes : List (QueueNode ObjectId)) (repoId : RepoId) (cs : ObjectId)
    (k : ℕ) (e : SkipEntry) : Prop where
  target : Lib.ancestor (firstParent nodes repoId) (hops k) cs = some e.target
  hop : e.hop.toNat = hops k
  generation : ∃ n, changesetGraph nodes repoId e.target = some n ∧
    e.generation.toInt = n.generation
  pure : e.pure = true ↔ Lib.Between (firstParent nodes repoId)
    (fun x => changesetParentCount nodes repoId x ≤ 1) (hops k) cs

/-- The entries of a done changeset: none at a root, and right ones. -/
def SkipsRight (nodes : List (QueueNode ObjectId)) (key : DeriveKey ObjectId)
    (output : Bytes) : Prop :=
  (∃ n, changesetGraph nodes key.repoId key.cs = some n ∧ n.parents = []) ∧ output = [] ∨
    ∃ entries, entries ≠ [] ∧ decodeSkipEntries output = some entries ∧
      ∀ k e, entries[k]? = some e → SkipRight nodes key.repoId key.cs k e

theorem SkipRight.append {nodes : List (QueueNode ObjectId)} {repoId : RepoId}
    {cs : ObjectId} {k : ℕ} {e : SkipEntry} (h : SkipRight nodes repoId cs k e)
    (new : List (QueueNode ObjectId)) : SkipRight (nodes ++ new) repoId cs k e := by
  have hup : ∀ x y, firstParent nodes repoId x = some y →
      firstParent (nodes ++ new) repoId x = some y := fun x y hx => firstParent_append hx new
  obtain ⟨n, hgraph, hgen⟩ := h.generation
  refine ⟨Lib.ancestor_mono hup h.target, h.hop, ⟨n, changesetGraph_append hgraph new, hgen⟩,
    h.pure.trans ?_⟩
  -- what lies in between is stored
  have hstep : ∀ i < hops k, ∃ x, Lib.ancestor (firstParent nodes repoId) i cs = some x ∧
      Lib.ancestor (firstParent (nodes ++ new) repoId) i cs = some x ∧
      changesetParentCount (nodes ++ new) repoId x = changesetParentCount nodes repoId x := by
    intro i hi
    obtain ⟨x, hx, hrest⟩ := Lib.ancestor_le h.target (Nat.le_of_lt hi)
    obtain ⟨m, hm⟩ : ∃ m, hops k - i = m + 1 := ⟨hops k - i - 1, by omega⟩
    rw [hm] at hrest
    obtain ⟨y, hy, -⟩ := Option.bind_eq_some_iff.mp hrest
    obtain ⟨n, hn, -⟩ := firstParent_some hy
    refine ⟨x, hx, Lib.ancestor_mono hup hx, ?_⟩
    rw [changesetParentCount, changesetParentCount, queueParents_eq hn,
      queueParents_eq (changesetGraph_append hn new)]
  constructor
  · intro hbetween i x hpos hlt hx
    obtain ⟨y, hy, hy', hcount⟩ := hstep i hlt
    obtain rfl : y = x := Option.some.inj (hy'.symm.trans hx)
    rw [hcount]
    exact hbetween i y hpos hlt hy
  · intro hbetween i x hpos hlt hx
    obtain ⟨y, hy, hy', hcount⟩ := hstep i hlt
    obtain rfl : y = x := Option.some.inj (hy.symm.trans hx)
    rw [← hcount]
    exact hbetween i y hpos hlt hy'

theorem SkipsRight.append {nodes : List (QueueNode ObjectId)} {key : DeriveKey ObjectId}
    {output : Bytes} (h : SkipsRight nodes key output) (new : List (QueueNode ObjectId)) :
    SkipsRight (nodes ++ new) key output := by
  rcases h with ⟨⟨n, hgraph, hroot⟩, hout⟩ | ⟨entries, hne, hdecode, hall⟩
  · exact .inl ⟨⟨n, changesetGraph_append hgraph new, hroot⟩, hout⟩
  · exact .inr ⟨entries, hne, hdecode, fun k e he => (hall k e he).append new⟩

/-! ### One derivation -/

/-- The entry over the middle one and the one behind it. -/
theorem SkipRight.compose {t : DeriveTables ObjectId} (hfits : GraphFits t.nodes)
    {repoId : RepoId} {cs p1 : ObjectId} {k : ℕ} {mid far : SkipEntry}
    (hp1 : firstParent t.nodes repoId cs = some p1) (hmid : SkipRight t.nodes repoId p1 k mid)
    (hfar : SkipRight t.nodes repoId mid.target k far) :
    SkipRight t.nodes repoId cs (k + 1) (skipEntry t repoId p1 mid far) := by
  have htarget : Lib.ancestor (firstParent t.nodes repoId) (hops (k + 1)) cs =
      some far.target := by
    have hsteps : hops (k + 1) = 1 + (hops k + hops k) := by
      rw [hops_succ]
      omega
    rw [hsteps, Lib.ancestor_add, Lib.ancestor_one, hp1, Option.bind_some, Lib.ancestor_add,
      hmid.target, Option.bind_some, hfar.target]
  refine ⟨htarget, ?_, hfar.generation, ?_⟩
  · have hlt := hfits.steps_lt htarget
    have hhop := hfar.hop
    rw [hops_succ] at hlt ⊢
    show (far.hop * 2 + 1).toNat = _
    rw [UInt64.toNat_add, UInt64.toNat_mul, hhop]
    show (hops k * 2 % 2 ^ 64 + 1) % 2 ^ 64 = _
    omega
  · rw [hops_succ, Lib.between_double (hops_pos k) hp1 hmid.target, ← hmid.pure, ← hfar.pure]
    simp only [skipEntry, Bool.and_eq_true, decide_eq_true_eq, and_assoc]

theorem skipLoop_right {t : DeriveTables ObjectId} (hfits : GraphFits t.nodes) {kind : ℕ}
    {repoId : RepoId} {cs p1 : ObjectId} (hp1 : firstParent t.nodes repoId cs = some p1)
    {p1Skips : List SkipEntry}
    (hp1Skips : ∀ k e, p1Skips[k]? = some e → SkipRight t.nodes repoId p1 k e)
    (hskips : ∀ x skips, skipsOf t ⟨kind, repoId, x⟩ = some skips →
      ∀ k e, skips[k]? = some e → SkipRight t.nodes repoId x k e)
    {left k : ℕ} {entries result : List SkipEntry}
    (h : skipLoop t kind repoId p1 p1Skips left k entries = some result) (hk : 0 < k)
    (hlen : entries.length = k)
    (hentries : ∀ j e, entries[j]? = some e → SkipRight t.nodes repoId cs j e) :
    result ≠ [] ∧ ∀ j e, result[j]? = some e → SkipRight t.nodes repoId cs j e := by
  have hne : ∀ {l : List SkipEntry}, 0 < l.length → l ≠ [] := List.ne_nil_of_length_pos
  induction left, k, entries using skipLoop.induct t kind repoId p1 p1Skips with
  | case1 k entries => cases h
  | case2 k entries => cases h
  | case3 left k entries hnone =>
      rw [skipLoop, hnone, Option.some.injEq] at h
      exact h ▸ ⟨hne (by omega), hentries⟩
  | case4 left k entries mid hmid hnone =>
      simp only [skipLoop, hmid, hnone, Option.some.injEq] at h
      exact h ▸ ⟨hne (by omega), hentries⟩
  | case5 k entries mid hmid far hfar =>
      simp only [skipLoop, hmid, hfar, if_true] at h
      cases h
  | case6 left k entries mid hmid far hfar hleft ih =>
      simp only [skipLoop, hmid, hfar, if_neg hleft] at h
      refine ih h (by omega) (by rw [List.length_append, hlen]; rfl) fun j e he => ?_
      rw [List.getElem?_append] at he
      split_ifs at he with hj
      · exact hentries j e he
      · rw [List.getElem?_singleton] at he
        split_ifs at he with hlast
        cases he
        obtain ⟨skips, hmidSkips, hin⟩ := Option.bind_eq_some_iff.mp hfar
        have hindex : j = k - 1 + 1 := by omega
        rw [hindex]
        exact .compose hfits hp1 (hp1Skips _ _ hmid) (hskips _ _ hmidSkips _ _ hin)

/-- A derivation over right done rows gives right entries. -/
theorem commitGraphDerive_right {t : DeriveTables ObjectId} (hfits : GraphFits t.nodes)
    {key : DeriveKey ObjectId} {output : Bytes}
    (hrows : ∀ x row, deriveGet t.rows { key with cs := x } = some row → row.state = .done →
      ∃ output, row.output = some output ∧ SkipsRight t.nodes { key with cs := x } output)
    (h : commitGraphDerive t key = .ok output) : SkipsRight t.nodes key output := by
  have hskips : ∀ x skips, skipsOf t { key with cs := x } = some skips →
      ∀ k e, skips[k]? = some e → SkipRight t.nodes key.repoId x k e := by
    intro x skips hx k e he
    unfold skipsOf at hx
    split at hx
    · rename_i row hrow
      split_ifs at hx with hdone
      obtain ⟨out, hout, hright⟩ := hrows x row hrow hdone
      rw [hout, Option.bind_some] at hx
      rcases hright with ⟨-, rfl⟩ | ⟨entries, -, hdecode, hall⟩
      · cases hx
      · rw [hdecode, Option.some.injEq] at hx
        exact hall k e (hx ▸ he)
    · cases hx
  have hcount : ∀ {entries : List SkipEntry}, entries ≠ [] →
      (∀ k e, entries[k]? = some e → SkipRight t.nodes key.repoId key.cs k e) →
        SkipsRight t.nodes key (encodeSkipEntries entries) := by
    intro entries hne hall
    refine .inr ⟨entries, hne, decode_encodeSkipEntries ?_, hall⟩
    -- the last entry's hops are fewer than the rows
    by_contra hlong
    have hlast : 63 < entries.length := by omega
    have hright := hall 63 entries[63] (List.getElem?_eq_getElem hlast)
    have hlt := hfits.steps_lt hright.target
    rw [hops] at hlt
    omega
  unfold commitGraphDerive at h
  split at h
  · cases h
  rename_i graph hgraph
  split at h
  · rename_i hroot
    cases h
    exact .inl ⟨⟨graph, hgraph, List.head?_eq_none_iff.mp hroot⟩, rfl⟩
  rename_i p1 hhead
  have hp1 : firstParent t.nodes key.repoId key.cs = some p1 := by
    rw [firstParent, queueParents_eq hgraph, hhead]
  split at h
  · cases h
  rename_i p1Graph hp1Graph
  have hfirst : ∀ k e, [(⟨p1, 1, .ofNat p1Graph.generation, true⟩ : SkipEntry)][k]? = some e →
      SkipRight t.nodes key.repoId key.cs k e := by
    intro k e he
    rw [List.getElem?_singleton] at he
    split_ifs at he with hk
    cases he
    subst hk
    have hgen := hfits.generations p1Graph (List.mem_of_find?_eq_some hp1Graph)
    refine ⟨?_, rfl, ⟨p1Graph, hp1Graph, Int64.toInt_ofNat_of_lt hgen⟩, ?_⟩
    · show Lib.ancestor _ 1 _ = _
      rw [Lib.ancestor_one, hp1]
    · exact iff_of_true rfl (Lib.between_one _ _ _)
  simp only at h
  split at h
  · cases h
    exact hcount (List.cons_ne_nil _ _) hfirst
  rename_i p1Skips hp1Skips
  split at h
  · cases h
  rename_i entries hloop
  cases h
  obtain ⟨hne, hall⟩ := skipLoop_right hfits hp1 (hskips p1 p1Skips hp1Skips)
    (fun x skips hx => hskips x skips hx) hloop (by omega) rfl hfirst
  exact hcount hne hall

/-! ### All runs -/

namespace DeriveQueue

/-- The kind is the commit graph's: no create derives it at once, and what its
deriver returns is what it computes from the tables it reads. A call may end in
any failure. -/
def OnCommitGraph (kind : ℕ) (q : DeriveQueue ObjectId) : QueueEvent ObjectId → Prop
  | .create _ kinds => ∀ k ∈ kinds, k.1 = kind → k.2 = none
  | .derive i (.ok output) => ∀ w ∈ q.workers[i]?, w.key.kind = kind →
      commitGraphDerive q.tables w.key = .ok output
  | _ => True

instance (kind : ℕ) (q : DeriveQueue ObjectId) : ∀ e, Decidable (q.OnCommitGraph kind e)
  | .create _ _ => inferInstanceAs (Decidable (∀ _ ∈ _, _))
  | .derive _ (.ok _) => inferInstanceAs (Decidable (∀ _ ∈ _, _))
  | .derive _ (.walkBudget _) | .derive _ (.walkDeadline _) | .derive _ (.fail _) => isTrue trivial
  | .tick _ | .backfill _ _ _ | .mark _ _ | .sweep _ | .pick _ _ | .lease _ | .record _ | .busy _
  | .release _ | .drop _ | .crash => isTrue trivial

/-- Done rows of the kind, and outputs in the workers' hands, are right. -/
structure SkipsHold (kind : ℕ) (q : DeriveQueue ObjectId) : Prop where
  row : ∀ key row, key.kind = kind → deriveGet q.tables.rows key = some row → row.state = .done →
    ∃ output, row.output = some output ∧ SkipsRight q.tables.nodes key output
  hand : ∀ w ∈ q.workers, w.key.kind = kind → ∀ expires output taint,
    w.phase = .derived expires (.ok output) taint → SkipsRight q.tables.nodes w.key output

theorem SkipsHold.step {kind : ℕ} {q q' : DeriveQueue ObjectId} {e : QueueEvent ObjectId}
    (hinv : SkipsHold kind q) (hwf : RowsWf q.tables) (hfits : GraphFits q.tables.nodes)
    (hok : q.OnCommitGraph kind e) (h : q.step e = some q') : SkipsHold kind q' := by
  obtain ⟨new, hnodes⟩ := step_nodes_append hwf h
  constructor
  · intro key row hkind hrow hdone
    rw [hnodes]
    rcases step_done hwf h hrow hdone with hold | hnew
    · obtain ⟨output, hout, hright⟩ := hinv.row key row hkind hold hdone
      exact ⟨output, hout, hright.append new⟩
    · cases hnew with
      | record i expires output taint old hworker hold hstate =>
          have hmem := List.mem_of_getElem? hworker
          exact ⟨output, rfl, (hinv.hand _ hmem hkind expires output taint rfl).append new⟩
      | create node kinds output hrepo hcs hin hnone =>
          have hdeferred := hok _ hin hkind
          cases hdeferred
  · intro w hw hkind expires output taint hphase
    rw [hnodes]
    rcases step_result h hw hphase with hold | ⟨i, rfl, hworker⟩
    · exact (hinv.hand w hold hkind expires output taint hphase).append new
    · have hderive := hok _ (Option.mem_def.mpr hworker) hkind
      refine (commitGraphDerive_right hfits (fun x row hrow hdone => ?_) hderive).append new
      exact hinv.row _ row hkind hrow hdone

/-- In every run whose commit-graph derivations are the deriver's, over an
acyclic graph of countable rows: a done row of the kind stores no entry at a
root, and elsewhere entry `k` names the first-parent ancestor `2 ^ (k + 1) - 1`
steps up, with that hop count and that ancestor's generation, pure exactly when
no changeset strictly in between has two parents. -/
theorem skips_of_reach {kind : ℕ} {q : DeriveQueue ObjectId}
    (h : Lib.Reach Init step (OnCommitGraph kind) q) (hfits : GraphFits q.tables.nodes)
    {key : DeriveKey ObjectId} {row : DeriveRow ObjectId} (hkind : key.kind = kind)
    (hrow : deriveGet q.tables.rows key = some row) (hdone : row.state = .done) :
    ∃ output, row.output = some output ∧ SkipsRight q.tables.nodes key output := by
  have hinv : GraphFits q.tables.nodes → SkipsHold kind q := by
    refine Lib.Reach.invariant (I := fun q => GraphFits q.tables.nodes → SkipsHold kind q)
      ?_ ?_ h
    · rintro s ⟨nowNs, leaseNs, rfl⟩ -
      refine ⟨?_, ?_⟩
      · exact fun _ _ _ hget => nomatch hget
      · exact fun _ hin => nomatch hin
    · intro s e s' hs hinv hok he hfits'
      have hwf := (tablesWf_of_reach hs).wf
      obtain ⟨new, hnodes⟩ := step_nodes_append hwf he
      have hfitsS : GraphFits s.tables.nodes := (hnodes ▸ hfits').of_append
      exact (hinv hfitsS).step hwf hfitsS hok he
  exact (hinv hfits).row key row hkind hrow hdone

/-! ### A chain of four -/

/-- The id of 32 equal bytes. -/
def plainId (b : UInt8) : ObjectId := ⟨List.replicate 32 b, rfl⟩

/-- The queue takes the next node through its derivation. -/
def deriveNext (output : Bytes) : List (QueueEvent ObjectId) :=
  [.pick 7 0, .lease 0, .derive 0 (.ok output), .record 0]

/-- A root and three changesets on top of each other, derived oldest first. -/
def chain : List (QueueEvent ObjectId) :=
  [.create ⟨7, plainId 1, 0, []⟩ [(0, none)],
    .create ⟨7, plainId 2, 1, [plainId 1]⟩ [(0, none)],
    .create ⟨7, plainId 3, 2, [plainId 2]⟩ [(0, none)],
    .create ⟨7, plainId 4, 3, [plainId 3]⟩ [(0, none)]] ++
  deriveNext [] ++ deriveNext (encodeSkipEntries [⟨plainId 1, 1, 0, true⟩]) ++
  deriveNext (encodeSkipEntries [⟨plainId 2, 1, 1, true⟩]) ++
  deriveNext (encodeSkipEntries [⟨plainId 3, 1, 2, true⟩, ⟨plainId 1, 3, 0, true⟩])

def emptyQueue : DeriveQueue ObjectId := ⟨0, 10, ⟨[], [], []⟩, []⟩

/-- The row of the last changeset at the end of the chain. -/
def chainEnd : DeriveRow ObjectId :=
  doneRow (blankRow ⟨0, 7, plainId 4⟩)
    (encodeSkipEntries [⟨plainId 3, 1, 2, true⟩, ⟨plainId 1, 3, 0, true⟩]) (false, none)

theorem skips_of_reach_chain : ∃ q, Lib.execIf step (OnCommitGraph 0) emptyQueue chain = some q ∧
    deriveGet q.tables.rows ⟨0, 7, plainId 4⟩ = some chainEnd ∧
    ∃ output, chainEnd.output = some output ∧
      SkipsRight q.tables.nodes ⟨0, 7, plainId 4⟩ output := by
  have hend : (Lib.execIf step (OnCommitGraph 0) emptyQueue chain).map
      (fun q => (q.tables.nodes, deriveGet q.tables.rows ⟨0, 7, plainId 4⟩)) =
      some ([⟨7, plainId 1, 0, []⟩, ⟨7, plainId 2, 1, [plainId 1]⟩,
        ⟨7, plainId 3, 2, [plainId 2]⟩, ⟨7, plainId 4, 3, [plainId 3]⟩], some chainEnd) := by
    decide +kernel
  obtain ⟨q, hq, hread⟩ := Option.map_eq_some_iff.mp hend
  obtain ⟨hnodes, hrow⟩ := Prod.mk.inj hread
  have hreach : Lib.Reach Init step (OnCommitGraph 0) q := .execIf (.start ⟨0, 10, rfl⟩) hq
  have hfits : GraphFits q.tables.nodes := by
    rw [hnodes]
    refine ⟨.of_rank (fun id => (id.bytes.headD 0).toNat) ?_, by simp, ?_⟩
    · decide
    · decide
  exact ⟨q, hq, hrow, skips_of_reach hreach hfits rfl hrow rfl⟩

end DeriveQueue

end Naatre
