import Naatre.Server.CacheTier
import Naatre.Server.ServeSteps

/-!
What one step of a tier's request does: one case for each thing it can do, with
what the origin answered it.
-/

namespace Naatre

section

variable {Id : Type} [Platform Id]

/-! ### The origin's answers -/

omit [Platform Id] in
theorem Turn.call_ok {α : Type} {turn : Turn Id} {answer : Except (ApiError Id) α} {a : α}
    (h : turn.call answer = .ok a) : answer = .ok a := by
  unfold Turn.call at h
  split_ifs at h
  cases answer with
  | error => cases h
  | ok => exact h

namespace Server

theorem repoIdOr404_ok {s : Server Id} {repo : String} {r : RepoId}
    (h : s.repoIdOr404 repo = .ok r) : s.repoIdByName repo = some r := by
  unfold repoIdOr404 at h
  split at h
  next id hid => rw [hid, Except.ok.inj h]
  next => cases h

/-- A membership walk answers for the repository the ticket names. -/
theorem membership_ok {s : Server Id} {t : Ticket Id} {epoch : ℕ} {blobs : List Id}
    (h : s.membership t = .ok (epoch, blobs)) : ∃ r, s.repoIdByName t.repo = some r ∧
      epoch = (s.tombstones t.repo).length ∧ blobs = cacheMembership (s.cx r) t.rootTree := by
  unfold membership at h
  simp only [Lib.bind_eq_ok] at h
  obtain ⟨-, -, r, hr, h⟩ := h
  have hname := repoIdOr404_ok hr
  obtain ⟨rfl, rfl⟩ := Prod.mk.inj (Except.ok.inj h)
  refine ⟨r, hname, ?_, rfl⟩
  simp only [tombstones, hname, RepoTables.tombstoned, List.length_map, tombstoneEpoch]

theorem epoch_ok {s : Server Id} {t : Ticket Id} {current : ℕ} (h : s.epoch t = .ok current) :
    current = (s.tombstones t.repo).length := by
  unfold epoch at h
  simp only [Lib.bind_eq_ok] at h
  obtain ⟨-, -, r, hr, h⟩ := h
  simp only [tombstones, repoIdOr404_ok hr, RepoTables.tombstoned, List.length_map,
    ← Except.ok.inj h, tombstoneEpoch]

/-- A raw fetch passes both gates of the repository the ticket names. -/
theorem getRawTicket_ok {s : Server Id} {t : Ticket Id} {repo : String} {id : Id} {bytes : Bytes}
    (h : s.getRawTicket t repo id = .ok bytes) :
    t.repo = repo ∧ ∃ r, s.repoIdByName repo = some r ∧ id ∉ s.tombstones repo ∧
      id ∈ (s.dbs r).repoBlobs ∧ casGet s.cas id = some bytes := by
  unfold getRawTicket at h
  rw [Lib.bind_eq_ok] at h
  obtain ⟨-, -, h⟩ := h
  split_ifs at h with hrepo
  rw [Lib.bind_eq_ok] at h
  obtain ⟨r, hr, h⟩ := h
  split_ifs at h
  obtain ⟨hfree, hmember, hbytes⟩ := getRaw_ok h
  have hname := repoIdOr404_ok hr
  refine ⟨not_not.mp hrepo, r, hname, fun hid => ?_, hmember, hbytes⟩
  rw [tombstones, hname] at hid
  have hactive := redactionActive_iff.mpr hid
  rw [show redactionActive (s.dbs r) id = false from hfree] at hactive
  cases hactive

end Server

/-! ### The tier's map -/

theorem mem_boundMembership {map : MembershipMap Id} {nowNs cap : ℕ}
    {e : (String × Id) × MembershipSnapshot Id} (h : e ∈ boundMembership map nowNs cap) : e ∈ map := by
  unfold boundMembership at h
  simp only at h
  split_ifs at h
  · exact (List.mem_filter.mp h).1
  · exact (List.mem_filter.mp (List.mem_filter.mp h).1).1

theorem mem_mapInsert {map : MembershipMap Id} {key : String × Id} {snap : MembershipSnapshot Id}
    {e : (String × Id) × MembershipSnapshot Id} (h : e ∈ mapInsert map key snap) :
    e ∈ map ∨ e = (key, snap) := by
  rcases List.mem_append.mp h with h | h
  · exact .inl (List.mem_filter.mp h).1
  · exact .inr (List.mem_singleton.mp h)

/-! ### One step -/

/-- What a step of a request did. -/
inductive Advanced (s : Server Id) (tier : Tier Id) (q : TierRequest Id) :
    Tier Id → TierRequest Id → Prop
  /-- to the first read of the standing snapshot, or to the fetch -/
  | lookup (pc : TierPc Id) (hpc : q.pc = .lookup) (hto : pc = .recorded ∨ pc = .fetch) :
      Advanced s tier q tier { q with pc := pc }
  | fetch (r : RepoId) (snap : MembershipSnapshot Id) (hpc : q.pc = .fetch)
      (hr : s.repoIdByName q.ticket.repo = some r)
      (hepoch : snap.epoch = (s.tombstones q.ticket.repo).length)
      (hblobs : snap.blobs = cacheMembership (s.cx r) q.ticket.rootTree) :
      Advanced s tier q tier
        { q with pc := .insert snap false, seen := s.tombstones q.ticket.repo }
  | refetch (r : RepoId) (snap : MembershipSnapshot Id) (hpc : q.pc = .refetch)
      (hr : s.repoIdByName q.ticket.repo = some r)
      (hepoch : snap.epoch = (s.tombstones q.ticket.repo).length)
      (hblobs : snap.blobs = cacheMembership (s.cx r) q.ticket.rootTree) :
      Advanced s tier q tier { q with pc := .insert snap true }
  | insert (snap : MembershipSnapshot Id) (delegate : Bool) (map : MembershipMap Id) (pc : TierPc Id)
      (hpc : q.pc = .insert snap delegate) (hmap : ∀ e ∈ map, e ∈ tier.membership ∨ e = (q.key, snap))
      (hto : pc = .localRead ∧ q.id ∈ snap.blobs ∨ pc = .passthrough ∧ delegate = true ∨
        pc = .refused (outOfScope q.id)) :
      Advanced s tier q { tier with membership := map } { q with pc := pc }
  | recorded (snap : MembershipSnapshot Id) (hpc : q.pc = .recorded)
      (hsnap : (q.key, snap) ∈ tier.membership) :
      Advanced s tier q tier { q with pc := .probe snap.epoch }
  | probe (recorded : ℕ) (pc : TierPc Id) (hpc : q.pc = .probe recorded)
      (hto : pc = .compare recorded ∧ recorded = (s.tombstones q.ticket.repo).length ∨
        pc = .refetch) :
      Advanced s tier q tier { q with pc := pc, seen := s.tombstones q.ticket.repo }
  | compare (recorded : ℕ) (snap : MembershipSnapshot Id) (hpc : q.pc = .compare recorded)
      (hsnap : tier.membership.lookup q.key = some snap) (hid : q.id ∈ snap.blobs) :
      Advanced s tier q tier { q with pc := .localRead }
  /-- the snapshot a request found before is gone -/
  | panicked (hpc : q.pc = .recorded ∨ ∃ recorded, q.pc = .compare recorded)
      (hgone : tier.membership.lookup q.key = none) :
      Advanced s tier q tier { q with pc := .panicked }
  | hit (bytes : Bytes) (hpc : q.pc = .localRead) (hid : Platform.blobId bytes = q.id) :
      Advanced s tier q tier { q with pc := .served bytes }
  | miss (hpc : q.pc = .localRead) : Advanced s tier q tier { q with pc := .originFetch }
  | originFetch (bytes : Bytes) (hpc : q.pc = .originFetch) (hid : Platform.blobId bytes = q.id) :
      Advanced s tier q tier { q with pc := .store bytes }
  | store (bytes : Bytes) (cas : List (Id × Bytes)) (hpc : q.pc = .store bytes) :
      Advanced s tier q { tier with cas := cas } { q with pc := .served bytes }
  | passthrough (bytes : Bytes) (hpc : q.pc = .passthrough) (hid : Platform.blobId bytes = q.id)
      (hraw : s.getRawTicket q.ticket q.ticket.repo q.id = .ok bytes) :
      Advanced s tier q tier { q with pc := .served bytes }
  | erase (answer : ApiError Id) (hpc : q.pc = .passthrough) :
      Advanced s tier q tier { q with pc := .erase answer }
  | erased (answer : ApiError Id) (cas : List (Id × Bytes)) (hpc : q.pc = .erase answer) :
      Advanced s tier q { tier with cas := cas } { q with pc := .refused answer }
  | refused (e : ApiError Id) : Advanced s tier q tier { q with pc := .refused e }

theorem advance_cases {s : Server Id} {tier tier' : Tier Id} {q q' : TierRequest Id}
    {turn : Turn Id} (h : q.advance s tier turn = some (tier', q')) :
    Advanced s tier q tier' q' := by
  unfold TierRequest.advance at h
  simp only at h
  split at h
  case h_1 hpc =>
    cases h
    exact .lookup _ hpc (by split_ifs <;> simp)
  case h_2 hpc =>
    split at h
    · cases h
      exact .refused _
    next epoch blobs hcall =>
      cases h
      obtain ⟨r, hr, hepoch, hblobs⟩ := Server.membership_ok (Turn.call_ok hcall)
      exact .fetch r _ hpc hr hepoch hblobs
  case h_3 snap delegate hpc =>
    by_cases hiter : turn.iter.isPerm tier.membership = true
    case neg =>
      rw [if_neg hiter] at h
      cases h
    rw [if_pos hiter] at h
    cases h
    refine .insert snap delegate _ _ hpc (fun e he => ?_) ?_
    · rcases mem_mapInsert he with he | he
      · have hperm := List.isPerm_iff.mp hiter
        exact .inl (hperm.subset (mem_boundMembership he))
      · exact .inr he
    · split_ifs with hid hdelegate
      · exact .inl ⟨rfl, hid⟩
      · exact .inr (.inl ⟨rfl, hdelegate⟩)
      · exact .inr (.inr rfl)
  case h_4 hpc =>
    cases h
    split
    next snap hsnap => exact .recorded snap hpc (Lib.mem_of_lookup hsnap)
    next hgone => exact .panicked (.inl hpc) hgone
  case h_5 recorded hpc =>
    split at h
    · cases h
      exact .refused _
    next current hcall =>
      cases h
      have hcurrent := Server.epoch_ok (Turn.call_ok hcall)
      refine .probe recorded _ hpc ?_
      split_ifs with heq
      · exact .inl ⟨rfl, heq ▸ hcurrent⟩
      · exact .inr rfl
  case h_6 recorded hpc =>
    cases h
    split
    next snap hsnap =>
      split_ifs with hid
      · exact .compare recorded snap hpc hsnap hid
      · exact .refused _
    next hgone => exact .panicked (.inr ⟨recorded, hpc⟩) hgone
  case h_7 hpc =>
    split at h
    · cases h
      exact .refused _
    next epoch blobs hcall =>
      cases h
      obtain ⟨r, hr, hepoch, hblobs⟩ := Server.membership_ok (Turn.call_ok hcall)
      exact .refetch r _ hpc hr hepoch hblobs
  case h_8 hpc =>
    cases h
    split
    next bytes hbytes =>
      obtain ⟨hget, -⟩ := Option.filter_eq_some_iff.mp hbytes
      obtain ⟨-, hid⟩ := Option.filter_eq_some_iff.mp hget
      exact .hit bytes hpc (of_decide_eq_true hid)
    next => exact .miss hpc
  case h_9 hpc =>
    cases h
    split
    · exact .refused _
    next bytes hcall =>
      split_ifs with hid
      · exact .originFetch bytes hpc hid
      · exact .refused _
  case h_10 bytes hpc =>
    split at h
    · cases h
      exact .refused _
    next cas hput =>
      cases h
      exact .store bytes cas hpc
  case h_11 hpc =>
    cases h
    split
    · split_ifs
      · exact .erase _ hpc
      · exact .refused _
    next bytes hcall =>
      split_ifs with hid
      · exact .passthrough bytes hpc hid (Turn.call_ok hcall)
      · exact .refused _
  case h_12 answer hpc =>
    cases h
    exact .erased answer _ hpc
  all_goals cases h

end

end Naatre
