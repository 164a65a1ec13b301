import Naatre.Core.Plain
import Naatre.Server.TierSteps
import Naatre.Server.TombstoneGate

/-!
Tombstones at the read tier. A request serves no blob that was tombstoned before
it probed the epoch, and finds the snapshot it counts on, as long as the entry
it reads is of no older walk than the one whose epoch it compared.
-/

namespace Naatre

section

variable {Id : Type} [Platform Id]

/-! ### Walks -/

/-- The walk's blobs avoid the tombstones that stood at its epoch. -/
structure Walked (tombstones : List Id) (snap : MembershipSnapshot Id) : Prop where
  epoch : snap.epoch ≤ tombstones.length
  blobs : ∀ id ∈ snap.blobs, id ∉ tombstones.take snap.epoch

omit [Platform Id] in
theorem take_eq_of_extends {a b : List Id} (h : a <+: b) {k : ℕ} (hk : k ≤ a.length) :
    b.take k = a.take k := by
  obtain ⟨c, rfl⟩ := h
  exact List.take_append_of_le_length hk

omit [Platform Id] in
theorem Walked.mono {a b : List Id} {snap : MembershipSnapshot Id} (h : Walked a snap)
    (hab : a <+: b) : Walked b snap := by
  refine ⟨h.epoch.trans hab.length_le, fun id hid => ?_⟩
  rw [take_eq_of_extends hab h.epoch]
  exact h.blobs id hid

theorem walked_of_membership {s : Server Id} {repo : String} {r : RepoId} {rootTree : Id}
    {snap : MembershipSnapshot Id} (hr : s.repoIdByName repo = some r)
    (hepoch : snap.epoch = (s.tombstones repo).length)
    (hblobs : snap.blobs = cacheMembership (s.cx r) rootTree) : Walked (s.tombstones repo) snap := by
  refine ⟨hepoch.le, fun id hid htombstoned => ?_⟩
  rw [hepoch, List.take_length] at htombstoned
  rw [hblobs, cacheMembership, List.mem_filter, Bool.and_eq_true, Bool.not_eq_true'] at hid
  have hactive : redactionActive (s.dbs r) id = true := by
    rw [redactionActive_iff]
    simpa only [Server.tombstones, hr] using htombstoned
  rw [show redactionActive (s.dbs r) id = false from hid.2.2] at hactive
  cases hactive

/-! ### Requests -/

/-- What a request knows at each of its steps, where `tombstones` are the ones
its repository has now. -/
def TierRequest.Honest (tombstones : List Id) (q : TierRequest Id) : Prop :=
  match q.pc with
  | .insert snap _ => Walked tombstones snap ∧ q.seen <+: tombstones.take snap.epoch
  | .compare recorded => recorded ≤ tombstones.length ∧ q.seen = tombstones.take recorded
  | .refetch | .passthrough => q.seen <+: tombstones
  | .localRead | .originFetch | .store _ | .served _ => q.id ∉ q.seen
  | .panicked => False
  | .lookup | .fetch | .recorded | .probe _ | .erase _ | .refused _ => True

omit [Platform Id] in
theorem TierRequest.Honest.mono {a b : List Id} {q : TierRequest Id} (h : q.Honest a)
    (hab : a <+: b) : q.Honest b := by
  unfold Honest at h ⊢
  split at h
  next snap delegate => exact ⟨h.1.mono hab, by rw [take_eq_of_extends hab h.1.epoch]; exact h.2⟩
  next recorded => exact ⟨h.1.trans hab.length_le, by rw [take_eq_of_extends hab h.1]; exact h.2⟩
  next => exact h.trans hab
  next => exact h.trans hab
  all_goals exact h

/-- The entry a request is about to read stands, and is of no older walk than the
epoch it compared. -/
def TierRequest.entryStands (membership : MembershipMap Id) (q : TierRequest Id) : Bool :=
  match q.pc with
  | .recorded => (membership.lookup q.key).isSome
  | .compare recorded =>
      (membership.lookup q.key).any (fun snap => decide (recorded ≤ snap.epoch))
  | _ => true

/-- One step of a request keeps what it knows, and the map's walks. -/
theorem Advanced.honest {s : Server Id} {tier tier' : Tier Id} {q q' : TierRequest Id}
    (h : Advanced s tier q tier' q') (hstands : q.entryStands tier.membership = true)
    (hwalked : ∀ e ∈ tier.membership, Walked (s.tombstones e.1.1) e.2)
    (hq : q.Honest (s.tombstones q.ticket.repo)) :
    q'.Honest (s.tombstones q'.ticket.repo) ∧
      ∀ e ∈ tier'.membership, Walked (s.tombstones e.1.1) e.2 := by
  unfold TierRequest.Honest at hq
  cases h with
  | lookup pc hpc hto =>
      rcases hto with rfl | rfl <;> exact ⟨trivial, hwalked⟩
  | fetch r snap hpc hr hepoch hblobs =>
      refine ⟨⟨walked_of_membership hr hepoch hblobs, ?_⟩, hwalked⟩
      rw [hepoch, List.take_length]
  | refetch r snap hpc hr hepoch hblobs =>
      rw [hpc] at hq
      refine ⟨⟨walked_of_membership hr hepoch hblobs, ?_⟩, hwalked⟩
      rw [hepoch, List.take_length]
      exact hq
  | insert snap delegate map pc hpc hmap hto =>
      rw [hpc] at hq
      obtain ⟨hsnap, hseen⟩ := hq
      constructor
      · rcases hto with ⟨rfl, hid⟩ | ⟨rfl, -⟩ | rfl
        · exact fun hin => hsnap.blobs q.id hid (hseen.subset hin)
        · exact hseen.trans (List.take_prefix _ _)
        · trivial
      · intro e he
        rcases hmap e he with he | rfl
        · exact hwalked e he
        · exact hsnap
  | recorded snap hpc hsnap => exact ⟨trivial, hwalked⟩
  | probe recorded pc hpc hto =>
      rcases hto with ⟨rfl, hcurrent⟩ | rfl
      · refine ⟨⟨hcurrent.le, ?_⟩, hwalked⟩
        rw [hcurrent, List.take_length]
      · exact ⟨List.prefix_rfl, hwalked⟩
  | compare recorded snap hpc hsnap hid =>
      rw [hpc] at hq
      obtain ⟨-, hseen⟩ := hq
      rw [TierRequest.entryStands, hpc] at hstands
      simp only [hsnap, Option.any_some, decide_eq_true_eq] at hstands
      refine ⟨fun hin => ?_, hwalked⟩
      have hwalk : Walked (s.tombstones q.ticket.repo) snap :=
        hwalked _ (Lib.mem_of_lookup hsnap)
      refine hwalk.blobs q.id hid ?_
      rw [hseen] at hin
      exact (List.take_prefix_take_left hstands).subset hin
  | panicked hpc hgone =>
      rcases hpc with hpc | ⟨recorded, hpc⟩ <;>
        simp [TierRequest.entryStands, hpc, hgone] at hstands
  | hit bytes hpc hid =>
      rw [hpc] at hq
      exact ⟨hq, hwalked⟩
  | miss hpc =>
      rw [hpc] at hq
      exact ⟨hq, hwalked⟩
  | originFetch bytes hpc hid =>
      rw [hpc] at hq
      exact ⟨hq, hwalked⟩
  | store bytes cas hpc =>
      rw [hpc] at hq
      exact ⟨hq, hwalked⟩
  | passthrough bytes hpc hid hraw =>
      rw [hpc] at hq
      obtain ⟨-, r, -, hfree, -⟩ := Server.getRawTicket_ok hraw
      exact ⟨fun hin => hfree (hq.subset hin), hwalked⟩
  | erase answer hpc => exact ⟨trivial, hwalked⟩
  | erased answer cas hpc => exact ⟨trivial, hwalked⟩
  | refused e => exact ⟨trivial, hwalked⟩

/-! ### Runs -/

/-- The tombstones of a repository stay, in their order. -/
theorem Server.step_tombstones {s s' : Server Id} {e : Event Id} (h : s.step e = some s')
    (repo : String) : s.tombstones repo <+: s'.tombstones repo := by
  have hname : s'.repoIdByName repo = s.repoIdByName repo := by
    rw [repoIdByName, (step_config h).2.1, repoIdByName]
  unfold tombstones
  rw [hname]
  cases s.repoIdByName repo with
  | none => exact List.prefix_rfl
  | some r => exact (step_db h r).tombstoned

namespace Net

/-- A step of a request finds the entry it counts on. -/
def entryStands (n : Net Id) : NetEvent Id → Bool
  | .step i _ => (n.requests[i]?).all (fun q => q.entryStands n.tier.membership)
  | _ => true

structure HonestNet (n : Net Id) : Prop where
  walks : ∀ e ∈ n.tier.membership, Walked (n.origin.tombstones e.1.1) e.2
  requests : ∀ q ∈ n.requests, q.Honest (n.origin.tombstones q.ticket.repo)

theorem honestNet_step {n n' : Net Id} {e : NetEvent Id} (h : n.step e = some n')
    (hstands : n.entryStands e = true) (hn : HonestNet n) : HonestNet n' := by
  cases e with
  | origin e =>
      obtain ⟨s, hs, rfl⟩ := Option.map_eq_some_iff.mp h
      exact ⟨fun e he => (hn.walks e he).mono (Server.step_tombstones hs _),
        fun q hq => (hn.requests q hq).mono (Server.step_tombstones hs _)⟩
  | tick ns =>
      cases h
      exact ⟨hn.walks, hn.requests⟩
  | start t id =>
      obtain rfl := Option.some.inj h
      unfold startStep
      split
      · exact hn
      · refine ⟨hn.walks, fun q hq => ?_⟩
        rcases List.mem_append.mp hq with hq | hq
        · exact hn.requests q hq
        · rw [List.mem_singleton.mp hq]
          trivial
  | step i turn =>
      simp only [step, requestStep, Option.bind_eq_bind, Option.bind_eq_some_iff] at h
      obtain ⟨q, hq, ⟨tier, q'⟩, hadvance, h⟩ := h
      obtain rfl := Option.some.inj h
      have hmem : q ∈ n.requests := List.mem_of_getElem? hq
      rw [entryStands, hq] at hstands
      obtain ⟨hq', hwalks⟩ := (advance_cases hadvance).honest hstands hn.walks (hn.requests q hmem)
      refine ⟨hwalks, fun x hx => ?_⟩
      rcases List.mem_or_eq_of_mem_set hx with hx | rfl
      · exact hn.requests x hx
      · exact hq'
  | restart =>
      cases h
      exact ⟨fun _ he => absurd he List.not_mem_nil, fun _ hq => absurd hq List.not_mem_nil⟩

/-- No request serves an id that was tombstoned before it probed the epoch, and
none misses the snapshot it counts on, in every run where an entry that is read
stands and is of no older walk than the one compared. -/
theorem honest_of_reach {n : Net Id} (h : Reach (fun n e => n.entryStands e = true) n) :
    ∀ q ∈ n.requests, q.pc ≠ .panicked ∧ ∀ bytes, q.pc = .served bytes → q.id ∉ q.seen := by
  have hn : HonestNet n := by
    refine Lib.Reach.invariant (I := HonestNet) ?_ (fun n e n' _ hn hok he => ?_) h
    · rintro n ⟨-, hmembership, hrequests⟩
      constructor
      · rw [hmembership]
        exact fun _ he => absurd he List.not_mem_nil
      · rw [hrequests]
        exact fun _ hq => absurd hq List.not_mem_nil
    · exact honestNet_step he hok hn
  intro q hq
  have hhonest := hn.requests q hq
  unfold TierRequest.Honest at hhonest
  constructor
  · intro hpc
    rw [hpc] at hhonest
    exact hhonest
  · intro bytes hpc
    rw [hpc] at hhonest
    exact hhonest

end Net

end

/-! ### An older walk over a newer one -/

namespace Net.OlderWalk

def start : Net PlainId :=
  ⟨Server.boot .singleDb [(1, "r")] 100 10, ⟨100, [], []⟩, []⟩

/-- A create that adds one file, on the origin. -/
def adding (parents : List PlainId) (name : String) (bytes : Bytes) : List (NetEvent PlainId) :=
  [.origin (.createLookup 1
      { repoName := "r"
        principal := "ann"
        scope := none
        parents := parents
        author := "ann"
        message := "add"
        timestampNs := some 7
        changes := [⟨⟨[], name⟩, .add, some (Platform.blobId bytes), some 2, some false⟩] }),
    .origin (.createWrite 0)]

def blob : PlainId := Platform.blobId [98, 10]

/-- An upload and a create of one file with its content. -/
def storing (parents : List PlainId) (name : String) (bytes : Bytes) : List (NetEvent PlainId) :=
  [.origin (.putBytes 1 bytes), .origin (.record 1 bytes)] ++ adding parents name bytes

/-- The blob `blob` in a first changeset. -/
def stored : List (NetEvent PlainId) := storing [] "a" [98, 10]

/-- The last changeset's id and root tree after some events. -/
def last (events : List (NetEvent PlainId)) : PlainId × PlainId :=
  ((Lib.exec step start events).bind fun n =>
    (n.origin.dbs 1).changesets.getLast?.map (fun row => (row.id, row.rootTreeId))).getD ([], [])

def root : PlainId := (last stored).2

/-- A ticket for a root tree, minted at `iat`. -/
def ticket (rootTree : PlainId) (iat : ℕ) : Ticket PlainId :=
  ⟨"ann", "r", rootTree, iat, iat + 600 * nsPerSec⟩

/-- The `i`-th request goes on; the map, where it is walked, is `iter`. -/
def go (i : ℕ) (iter : MembershipMap PlainId) : NetEvent PlainId := .step i ⟨true, true, iter⟩

/-- The map with one entry of that tree. -/
def entry (epoch : ℕ) (blobs : List PlainId) : MembershipMap PlainId :=
  [(("r", root), ⟨epoch, blobs, 100⟩)]

/-- One request walked the tree and waits; another walked it too, put its walk
in and served the blob. -/
def walked : List (NetEvent PlainId) :=
  [.start (ticket root 100) blob, go 0 [], go 0 [],
    .start (ticket root 100) blob, go 1 [], go 1 [], go 1 [], go 1 [], go 1 [], go 1 []]

/-- The blob is tombstoned; a request for some other id puts a newer walk in, a
last one compares its epoch, and then the first walk is put over it. -/
def stale : List (NetEvent PlainId) :=
  stored ++ walked ++
    [.origin (.mark 1 blob .blob),
      .start (ticket root 100) root, go 2 [], go 2 [], go 2 [], go 2 [], go 2 (entry 0 [blob]),
      .start (ticket root 100) blob, go 3 [], go 3 [], go 3 [],
      go 0 (entry 1 []), go 3 [], go 3 []]

/-- Another file above it, with a content of its own. -/
def twoFiles : List (NetEvent PlainId) := stored ++ storing [(last stored).1] "b" [99, 10]

/-- One request warms the blob; the other file is tombstoned, so the next request
for the blob walks the tree again. -/
def fresh : List (NetEvent PlainId) :=
  twoFiles ++ [.start (ticket (last twoFiles).2 100) blob, go 0 [], go 0 [], go 0 [], go 0 [],
    go 0 [], go 0 [], .origin (.mark 1 (Platform.blobId [99, 10]) .blob),
    .start (ticket (last twoFiles).2 100) blob, go 1 [], go 1 [], go 1 [], go 1 [],
    go 1 [(("r", (last twoFiles).2), ⟨0, [blob, Platform.blobId [99, 10]], 100⟩)], go 1 []]

/-- A request found the entry an hour after its walk; another tree's request
puts its own in before the epoch is read. -/
def evicted : List (NetEvent PlainId) :=
  stored ++ adding [(last stored).1] "b" [98, 10] ++ walked ++
    [.tick membershipTtlNs, .origin (.tick membershipTtlNs),
      .start (ticket root (100 + membershipTtlNs)) blob, go 2 [],
      .start (ticket (last (stored ++ adding [(last stored).1] "b" [98, 10])).2
        (100 + membershipTtlNs)) blob,
      go 3 [], go 3 [], go 3 (entry 0 [blob]), go 2 []]

end Net.OlderWalk

namespace Net

open OlderWalk in
/-- A request is served its blob after another one was tombstoned. -/
theorem honest_of_reach_fresh : ∃ n q bytes,
    Lib.execIf step (fun n e => n.entryStands e = true) OlderWalk.start fresh = some n ∧
      n.requests[1]? = some q ∧ q.pc = .served bytes ∧ q.seen ≠ [] ∧ q.id ∉ q.seen := by
  have hrun : (Lib.execIf step (fun n e => n.entryStands e = true) OlderWalk.start fresh).any
      (fun n => (n.requests[1]?).any (fun q =>
        match q.pc with
        | .served _ => decide (q.seen ≠ [])
        | _ => false)) = true := by
    decide +kernel
  obtain ⟨n, hn, hq⟩ := (Option.any_eq_true _ _).mp hrun
  obtain ⟨q, hget, hserved⟩ := (Option.any_eq_true _ _).mp hq
  have hstart : Init OlderWalk.start := ⟨⟨.singleDb, [(1, "r")], 100, 10, by decide, rfl⟩, rfl, rfl⟩
  have hreach : Reach (fun n e => n.entryStands e = true) n := Lib.Reach.execIf (.start hstart) hn
  split at hserved
  next bytes hpc =>
    have hhonest := honest_of_reach hreach q (List.mem_of_getElem? hget)
    exact ⟨n, q, bytes, hn, hget, hpc, of_decide_eq_true hserved, hhonest.2 bytes hpc⟩
  next => cases hserved

open OlderWalk in
/-- A tombstoned blob is served, and a request misses its snapshot. -/
theorem older_walk :
    (∃ n : Net PlainId, Reach (fun _ _ => True) n ∧
      ∃ q ∈ n.requests, ∃ bytes, q.pc = .served bytes ∧ q.id ∈ q.seen) ∧
    ∃ n : Net PlainId, Reach (fun _ _ => True) n ∧ ∃ q ∈ n.requests, q.pc = .panicked := by
  have hstart : Init OlderWalk.start := ⟨⟨.singleDb, [(1, "r")], 100, 10, by decide, rfl⟩, rfl, rfl⟩
  constructor
  · have hrun : (Lib.exec step OlderWalk.start stale).any (fun n => n.requests.any (fun q =>
        match q.pc with
        | .served _ => decide (q.id ∈ q.seen)
        | _ => false)) = true := by
      decide +kernel
    obtain ⟨n, hn, hq⟩ := (Option.any_eq_true _ _).mp hrun
    obtain ⟨q, hmem, hserved⟩ := List.any_eq_true.mp hq
    split at hserved
    next bytes hpc =>
      exact ⟨n, Lib.Reach.exec (.start hstart) (by simp) hn, q, hmem, bytes, hpc,
        of_decide_eq_true hserved⟩
    next => cases hserved
  · have hrun : (Lib.exec step OlderWalk.start evicted).any (fun n => n.requests.any (fun q =>
        match q.pc with
        | .panicked => true
        | _ => false)) = true := by
      decide +kernel
    obtain ⟨n, hn, hq⟩ := (Option.any_eq_true _ _).mp hrun
    obtain ⟨q, hmem, hpanicked⟩ := List.any_eq_true.mp hq
    split at hpanicked
    next hpc => exact ⟨n, Lib.Reach.exec (.start hstart) (by simp) hn, q, hmem, hpc⟩
    next => cases hpanicked

end Net

end Naatre
