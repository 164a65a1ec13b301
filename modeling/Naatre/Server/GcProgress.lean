import Naatre.Core.Plain
import Naatre.Lib.Oldest
import Naatre.Server.GcLedger

/-!
Progress of the collector's changeset and blob phases. Each phase reads a page
of the oldest ledger rows past grace and probes it afterwards, so a pass
collects or condemns something exactly when one of their first pages holds a row
that the probes accept.
-/

namespace Naatre

section

variable {Id : Type} [Platform Id]

/-! ### Pages -/

theorem mem_candidatePage {cat : Catalog Id} {keep : PendingRow Id → Bool} {limit : ℕ} {id : Id}
    (h : id ∈ candidatePage cat keep limit) :
    ∃ row ∈ cat.gcPending, keep row = true ∧ row.id = id := by
  obtain ⟨row, hrow, rfl⟩ := List.mem_map.mp h
  have hmem := List.mem_of_mem_take hrow
  rw [List.mem_insertionSort, List.mem_filter] at hmem
  exact ⟨row, hmem.1, hmem.2, rfl⟩

/-- The pass at another program counter. -/
def GcPass.goto (pass : GcPass Id) (pc : GcPc Id) : GcPass Id := { pass with pc := pc }

namespace Server

/-! ### Ready candidates -/

/-- The probes of a changeset batch accept the id in the repository: it is
stored, unreferenced, not tombstoned and no settled land's result. -/
structure AcceptsCs (s : Server Id) (landed : List Id) (r : RepoId) (id : Id) : Prop where
  repo : r ∈ s.repoIds
  collectible : id ∈ (s.csCollectible [id] r).map fun p => p.1
  landed : id ∉ landed

/-- The probes of a blob batch accept the id: nothing references it and no
tombstone names it. -/
def AcceptsBlob (s : Server Id) (id : Id) : Prop := id ∈ s.subtractBlobProbes [id]

/-- A changeset past its grace that the probes accept. -/
def ReadyCs (s : Server Id) (landed : List Id) (cutNs : ℤ) (r : RepoId) (id : Id) : Prop :=
  (∃ limit, id ∈ agedCandidates s.cat .cs cutNs limit) ∧ s.AcceptsCs landed r id

/-- A blob past its grace, to condemn or condemned before the pass, that the
probes accept. -/
def ReadyBlob (s : Server Id) (nowNs : ℕ) (cutNs : ℤ) (id : Id) : Prop :=
  (∃ limit, id ∈ blobCandidates s.cat cutNs limit ∨
    id ∈ condemnedCandidates s.cat nowNs cutNs limit) ∧ s.AcceptsBlob id

/-- Rows of changesets went, and rows of the ledger went or were condemned. -/
structure Swept (nowNs : ℕ) (s s' : Server Id) : Prop where
  changesets : ∀ r, (s'.dbs r).changesets.Sublist (s.dbs r).changesets
  ledger : ∀ row ∈ s'.cat.gcPending, row.scope = .blob →
    row.condemnedAt = some nowNs ∨ row ∈ s.cat.gcPending

theorem Swept.trans {nowNs : ℕ} {a b c : Server Id} (hab : a.Swept nowNs b)
    (hbc : b.Swept nowNs c) : a.Swept nowNs c := by
  refine ⟨fun r => (hbc.changesets r).trans (hab.changesets r), fun row hrow hscope => ?_⟩
  rcases hbc.ledger row hrow hscope with hnow | hmid
  · exact .inl hnow
  · exact hab.ledger row hmid hscope

/-- The state and the program counter after one step. -/
theorem gcStep_eq {s : Server Id} {pass : GcPass Id} (hpass : s.gc = some pass) :
    s.gcStep = some { (s.gcPassStep pass).1 with gc := (s.gcPassStep pass).2 } := by
  rw [gcStep, hpass]
  rfl

/-- Nothing the blob phases read was changed. -/
structure Unmoved (s s' : Server Id) : Prop where
  changesets : ∀ r, (s'.dbs r).changesets = (s.dbs r).changesets
  accepts : ∀ id, s'.AcceptsBlob id ↔ s.AcceptsBlob id
  blobs : ∀ cutNs limit, blobCandidates s'.cat cutNs limit = blobCandidates s.cat cutNs limit
  condemned : ∀ nowNs cutNs limit,
    condemnedCandidates s'.cat nowNs cutNs limit = condemnedCandidates s.cat nowNs cutNs limit
  rows : ∀ row ∈ s.cat.gcPending, row.scope = .blob → row ∈ s'.cat.gcPending

theorem Unmoved.trans {a b c : Server Id} (hab : a.Unmoved b) (hbc : b.Unmoved c) :
    a.Unmoved c where
  changesets r := (hbc.changesets r).trans (hab.changesets r)
  accepts id := (hbc.accepts id).trans (hab.accepts id)
  blobs cutNs limit := (hbc.blobs cutNs limit).trans (hab.blobs cutNs limit)
  condemned nowNs cutNs limit :=
    (hbc.condemned nowNs cutNs limit).trans (hab.condemned nowNs cutNs limit)
  rows row hrow hscope := hbc.rows row (hab.rows row hrow hscope) hscope

theorem collectBlobs_changesets (s : Server Id) (ids : List Id) (r : RepoId) :
    ((s.collectBlobs ids).dbs r).changesets = (s.dbs r).changesets := by
  simp only [collectBlobs, collectBlobsRepos, mapRepos]
  split_ifs <;> rfl

/-- A ready candidate has its ledger row. -/
theorem ReadyBlob.row {s : Server Id} {nowNs : ℕ} {cutNs : ℤ} {id : Id}
    (h : s.ReadyBlob nowNs cutNs id) : ∃ row ∈ s.cat.gcPending, row.scope = .blob ∧ row.id = id ∧
      row.condemnedAt ≠ some nowNs := by
  obtain ⟨⟨limit, hpage | hpage⟩, -⟩ := h
  · obtain ⟨row, hrow, hkeep, hid⟩ := mem_candidatePage hpage
    simp only [Bool.and_eq_true, decide_eq_true_eq] at hkeep
    refine ⟨row, hrow, hkeep.1.1.1, hid, fun hnow => ?_⟩
    have hnone := hkeep.1.2
    rw [hnow] at hnone
    cases hnone
  · obtain ⟨row, hrow, hkeep, hid⟩ := mem_candidatePage hpage
    simp only [Bool.and_eq_true, decide_eq_true_eq] at hkeep
    refine ⟨row, hrow, hkeep.1.1, hid, fun hnow => ?_⟩
    have hbefore := hkeep.2
    rw [hnow, Option.any_some, decide_eq_true_eq] at hbefore
    omega

theorem ReadyCs.row {s : Server Id} {landed : List Id} {cutNs : ℤ} {r : RepoId} {id : Id}
    (h : s.ReadyCs landed cutNs r id) : ∃ row ∈ (s.dbs r).changesets, row.id = id := by
  obtain ⟨p, hp, rfl⟩ := List.mem_map.mp h.2.collectible
  obtain ⟨row, hrow, rfl⟩ := List.mem_map.mp hp
  exact ⟨row, (List.mem_filter.mp hrow).1, rfl⟩

end Server

end

namespace Server

/-! ### A page of tombstones -/

/-- The blobs of `n` contents of one byte. -/
def byteBlobs (n : ℕ) : List PlainId :=
  (List.range n).map fun i => Platform.blobId [UInt8.ofNat i]

/-- A blob that nothing names. -/
def orphan : PlainId := Platform.blobId [0, 0]

theorem orphan_notMem (n : ℕ) : orphan ∉ byteBlobs n := by
  intro h
  obtain ⟨i, -, heq⟩ := List.mem_map.mp h
  have hlen := congrArg List.length (Platform.blobId_inj heq)
  cases hlen

end Server

end Naatre
