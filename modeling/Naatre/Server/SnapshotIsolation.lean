import Naatre.Core.Plain
import Naatre.Server.TreeSteps

/-!
Who uploaded what a snapshot serves. A snapshot's row belongs to a principal in
a repository, its blob directory to the snapshot id alone; a run keeps the two
apart as long as the owner of a snapshot uploaded every blob of its directory
itself.
-/

namespace Naatre

section

variable {Id : Type} [Platform Id]

/-! ### The blob fetch -/

/-- `load_owned_unexpired`. -/
def loadOwnedUnexpired (cx : RepoCx Id) (nowNs : ℕ) (snap : Id) (principal : String) :
    Except (ApiError Id) (SnapshotRow Id) :=
  match (snapshotGet cx snap).filter (fun row => decide (row.principal = principal)) with
  | none =>
      .error (.new .notFound ("no snapshot " ++ Platform.toHex snap ++
        " in this repo for this principal"))
  | some row =>
      if row.expiresNs ≤ nowNs then
        .error (.new .snapshotExpired
          ("snapshot " ++ Platform.toHex snap ++ " is past its TTL"))
      else .ok row

/-- `get_blob` past its read gate. -/
def snapshotGetBlob (cx : RepoCx Id) (ephemeral : List (SnapDir Id)) (nowNs : ℕ)
    (principal : String) (snap oid : Id) : Except (ApiError Id) Bytes :=
  if redactionActive cx.db oid then
    .error (.new .objectRedacted
      ("blob " ++ Platform.toHex oid ++ " is redacted in " ++ cx.name))
  else do
    let _ ← loadOwnedUnexpired cx nowNs snap principal
    match (snapBlobs ephemeral snap).lookup oid with
    | none =>
        .error (.new .objectNotFound
          ("blob " ++ Platform.toHex oid ++ " is missing from the snapshot"))
    | some bytes => .ok bytes

/-- A blob served lies in the directory of a snapshot of that principal. -/
theorem snapshotGetBlob_ok {cx : RepoCx Id} {ephemeral : List (SnapDir Id)} {nowNs : ℕ}
    {principal : String} {snap oid : Id} {bytes : Bytes}
    (h : snapshotGetBlob cx ephemeral nowNs principal snap oid = .ok bytes) :
    (∃ row ∈ cx.snapshots, row.repoId = cx.id ∧ row.id = snap ∧ row.principal = principal) ∧
      ephemeralHas ephemeral snap oid = true := by
  rw [snapshotGetBlob] at h
  split_ifs at h
  rw [Lib.bind_eq_ok] at h
  obtain ⟨row, hrow, h⟩ := h
  constructor
  · rw [loadOwnedUnexpired] at hrow
    split at hrow
    next => cases hrow
    next row' hget =>
      obtain ⟨hget, hprincipal⟩ := Option.filter_eq_some_iff.mp hget
      have hkey := List.find?_some hget
      rw [Bool.and_eq_true, decide_eq_true_eq, decide_eq_true_eq] at hkey
      exact ⟨row', List.mem_of_find?_eq_some hget, hkey.1, hkey.2, of_decide_eq_true hprincipal⟩
  · split at h
    next => cases h
    next bytes' hlookup =>
      obtain ⟨front, back, hblobs, -⟩ := List.lookup_eq_some_iff.mp hlookup
      rw [ephemeralHas, hblobs]
      simp

/-! ### The directories -/

/-- A put adds its blob to its own snapshot's directory, and nothing else. -/
theorem ephemeralHas_put {ephemeral : List (SnapDir Id)} {snap : Id} {payload : Bytes} {nowNs : ℕ}
    {snap' id : Id} (h : ephemeralHas (ephemeralPut ephemeral snap payload nowNs) snap' id = true) :
    ephemeralHas ephemeral snap' id = true ∨ snap' = snap ∧ id = Platform.blobId payload := by
  rw [ephemeralHas, snapBlobs, List.any_eq_true] at h
  obtain ⟨b, hb, hid⟩ := h
  obtain rfl := of_decide_eq_true hid
  rw [ephemeralPut] at hb
  split_ifs at hb with hdir
  · rw [List.find?_map] at hb
    have hkey : ((fun d : SnapDir Id => decide (d.snap = snap')) ∘ fun d =>
        if d.snap = snap ∧ ¬ d.blobs.any (fun b => decide (b.1 = Platform.blobId payload)) then
          { d with blobs := d.blobs ++ [(Platform.blobId payload, payload)] }
        else d) = fun d => decide (d.snap = snap') := by
      funext d
      simp only [Function.comp_apply]
      split_ifs <;> rfl
    rw [hkey] at hb
    match hfind : ephemeral.find? (fun d => decide (d.snap = snap')) with
    | none =>
        rw [hfind] at hb
        cases hb
    | some d =>
        rw [hfind] at hb
        have hd : d.snap = snap' := by simpa using List.find?_some hfind
        have hold : b ∈ d.blobs → ephemeralHas ephemeral snap' b.1 = true := by
          intro hmem
          rw [ephemeralHas, snapBlobs, hfind, List.any_eq_true]
          exact ⟨b, hmem, by simp⟩
        simp only [Option.map_some, Option.getD_some] at hb
        split_ifs at hb with hnew
        · rcases List.mem_append.mp hb with hb | hb
          · exact .inl (hold hb)
          · rw [List.mem_singleton.mp hb]
            exact .inr ⟨hd.symm.trans hnew.1, rfl⟩
        · exact .inl (hold hb)
  · rw [List.find?_append] at hb
    match hfind : ephemeral.find? (fun d => decide (d.snap = snap')) with
    | some d =>
        rw [hfind] at hb
        left
        rw [ephemeralHas, snapBlobs, hfind, List.any_eq_true]
        exact ⟨b, hb, by simp⟩
    | none =>
        rw [hfind, Option.none_or, List.find?_singleton] at hb
        split_ifs at hb with hsnap
        · obtain rfl : b = _ := List.mem_singleton.mp hb
          exact .inr ⟨(of_decide_eq_true hsnap).symm, rfl⟩
        · cases hb

/-- A directory loses everything or nothing. -/
theorem ephemeralHas_delete {ephemeral : List (SnapDir Id)} {snap snap' id : Id}
    (h : ephemeralHas (ephemeralDelete ephemeral snap) snap' id = true) :
    ephemeralHas ephemeral snap' id = true := by
  rw [ephemeralHas, snapBlobs, ephemeralDelete] at h
  by_cases hsame : snap' = snap
  · have hgone : (ephemeral.filter (fun d => decide (d.snap ≠ snap))).find?
        (fun d => decide (d.snap = snap')) = none := by
      rw [List.find?_eq_none]
      intro d hd
      rw [List.mem_filter, decide_eq_true_eq] at hd
      simpa [hsame] using hd.2
    rw [hgone] at h
    cases h
  · rw [List.find?_filter] at h
    have hkey : (fun d : SnapDir Id => decide (decide (d.snap ≠ snap) = true ∧
        decide (d.snap = snap') = true)) = fun d => decide (d.snap = snap') := by
      funext d
      by_cases hd : d.snap = snap' <;> simp [hd, hsame]
    rw [hkey] at h
    exact h

namespace Server

theorem sgcPassStep_ephemeral (s : Server Id) (pass : SgcPass Id) {snap id : Id}
    (h : ephemeralHas (s.sgcPassStep pass).1.ephemeral snap id = true) :
    ephemeralHas s.ephemeral snap id = true := by
  unfold sgcPassStep at h
  simp only at h
  split at h
  · exact h
  · exact h
  · exact ephemeralHas_delete h
  · exact h
  · split_ifs at h <;> exact h
  · exact h

/-- What a step can add to the directories: the blob of an upload. -/
theorem step_ephemeral {s s' : Server Id} {e : Event Id} (h : s.step e = some s')
    {snap id : Id} (hhas : ephemeralHas s'.ephemeral snap id = true) :
    ephemeralHas s.ephemeral snap id = true ∨
      ∃ r payload, e = .snapshotPut r snap payload ∧ id = Platform.blobId payload := by
  cases step_cases h with
  | snapshotPut r snap' payload =>
      exact (ephemeralHas_put hhas).imp_right fun ⟨hsnap, hid⟩ => ⟨r, payload, hsnap ▸ rfl, hid⟩
  | sgcStep i pass => exact .inl (sgcPassStep_ephemeral s pass hhas)
  | gcStep pass =>
      have hsame := (gcPassStep_frame s pass).ephemeral
      exact .inl (hsame ▸ hhas)
  | _ => exact .inl hhas

/-- The rows of a file after a step: those of before, or the one of a POST. -/
theorem step_snapshots_owned {s s' : Server Id} {e : Event Id} (h : s.step e = some s')
    {f : RepoId} : ∀ row ∈ s'.snapshots f, row ∈ s.snapshots f ∨
      ∃ r req, e = .snapshotPost r req ∧ row.id = req.snapId ∧ row.repoId = r ∧
        row.principal = req.principal := by
  intro row hrow
  have hstep := step_snapshots h f
  generalize s'.snapshots f = snapshots at hrow hstep
  cases hstep with
  | unchanged => exact .inl hrow
  | posted r req p done cx hfile hprepare hwritten =>
      cases hwritten with
      | existing => exact .inl (hfile ▸ hrow)
      | created =>
          rcases List.mem_append.mp hrow with hrow | hrow
          · exact .inl (hfile ▸ hrow)
          · rw [List.mem_singleton.mp hrow]
            exact .inr ⟨r, req, rfl, rfl, rfl, rfl⟩
  | swept i snapshots hsub => exact .inl (hsub.subset hrow)

end Server

/-! ### Runs with their uploads -/

/-- An upload into a snapshot that was accepted. -/
structure Upload (Id : Type) where
  principal : String
  repo : RepoId
  snap : Id
  payload : Bytes
  deriving DecidableEq

/-- The server, and the uploads that still stand in its directories. -/
structure SnapshotRun (Id : Type) [Platform Id] where
  server : Server Id
  uploads : List (Upload Id)

/-- An event and the principal that asks for it. -/
structure SnapshotCall (Id : Type) [Platform Id] where
  principal : String
  event : Event Id

namespace SnapshotRun

/-- The upload an event makes. -/
def uploaded (l : SnapshotRun Id) (call : SnapshotCall Id) : List (Upload Id) :=
  match call.event with
  | .snapshotPut r snap payload =>
      match snapshotPut (l.server.cx r) l.server.ephemeral l.server.nowNs snap payload with
      | .ok _ => [⟨call.principal, r, snap, payload⟩]
      | .error _ => []
  | _ => []

/-- A step of the server; an upload whose blob is gone is forgotten. -/
def step (l : SnapshotRun Id) (call : SnapshotCall Id) : Option (SnapshotRun Id) :=
  (l.server.step call.event).map fun s =>
    ⟨s, (l.uploads ++ l.uploaded call).filter
      (fun u => ephemeralHas s.ephemeral u.snap (Platform.blobId u.payload))⟩

def Start (l : SnapshotRun Id) : Prop := Server.Init l.server ∧ l.uploads = []

/-- This principal uploaded the blob under the snapshot id itself, in this
repository. -/
def HasOwn (l : SnapshotRun Id) (principal : String) (r : RepoId) (snap id : Id) : Prop :=
  ∃ u ∈ l.uploads, u.principal = principal ∧ u.repo = r ∧ u.snap = snap ∧
    Platform.blobId u.payload = id

/-- Every blob in the directory of the snapshot id is one this principal uploaded
itself, in this repository. -/
def OwnBlobs (l : SnapshotRun Id) (principal : String) (r : RepoId) (snap : Id) : Prop :=
  ∀ u ∈ l.uploads, u.snap = snap → l.HasOwn principal r snap (Platform.blobId u.payload)

/-- And no other repository of the file has a row under the id. -/
def Owned (l : SnapshotRun Id) (principal : String) (r : RepoId) (snap : Id) : Prop :=
  l.OwnBlobs principal r snap ∧
    ∀ row ∈ (l.server.cx r).snapshots, row.id = snap → row.repoId = r

/-- A blob goes under the id of somebody else's snapshot only where its owner
uploaded the same one, and a snapshot is posted under an id whose blobs the
principal all uploaded itself. -/
def Unshared (l : SnapshotRun Id) (call : SnapshotCall Id) : Prop :=
  match call.event with
  | .snapshotPut r snap payload => ∀ f, ∀ row ∈ l.server.snapshots f, row.id = snap →
      call.principal = row.principal ∧ r = row.repoId ∨
        l.HasOwn row.principal row.repoId snap (Platform.blobId payload)
  | .snapshotPost r req => l.OwnBlobs req.principal r req.snapId
  | _ => True

/-- The directories hold the standing uploads and nothing else, and the owner of a
row uploaded every blob under its id. -/
structure Inv (l : SnapshotRun Id) : Prop where
  mirrors : ∀ snap id, ephemeralHas l.server.ephemeral snap id = true ↔
    ∃ u ∈ l.uploads, u.snap = snap ∧ Platform.blobId u.payload = id
  owned : ∀ f, ∀ row ∈ l.server.snapshots f, l.OwnBlobs row.principal row.repoId row.id

theorem inv_start {l : SnapshotRun Id} (h : l.Start) : l.Inv := by
  obtain ⟨⟨layout, repos, nowNs, graceNs, -, hboot⟩, huploads⟩ := h
  refine ⟨fun snap id => ?_, fun f row hrow => ?_⟩
  · rw [hboot, huploads]
    simp [Server.boot, ephemeralHas, snapBlobs]
  · rw [hboot] at hrow
    cases hrow

/-- An upload keeps its standing as long as its blob is there. -/
theorem HasOwn.step {l : SnapshotRun Id} {call : SnapshotCall Id} {s : Server Id}
    {principal : String} {r : RepoId} {snap id : Id} (h : l.HasOwn principal r snap id)
    (hhas : ephemeralHas s.ephemeral snap id = true) :
    HasOwn ⟨s, (l.uploads ++ l.uploaded call).filter
      (fun u => ephemeralHas s.ephemeral u.snap (Platform.blobId u.payload))⟩
      principal r snap id := by
  obtain ⟨u, hu, rfl, rfl, rfl, rfl⟩ := h
  exact ⟨u, List.mem_filter.mpr ⟨List.mem_append_left _ hu, hhas⟩, rfl, rfl, rfl, rfl⟩

theorem mem_uploaded {l : SnapshotRun Id} {call : SnapshotCall Id} {u : Upload Id}
    (h : u ∈ l.uploaded call) :
    call.event = .snapshotPut u.repo u.snap u.payload ∧ u.principal = call.principal := by
  rw [uploaded] at h
  split at h
  next r snap payload hevent =>
    split at h
    · obtain rfl := List.mem_singleton.mp h
      exact ⟨hevent, rfl⟩
    · cases h
  next => cases h

theorem inv_step {l l' : SnapshotRun Id} {call : SnapshotCall Id} (hinv : l.Inv)
    (hok : l.Unshared call) (h : l.step call = some l') : l'.Inv := by
  obtain ⟨s, hs, rfl⟩ := Option.map_eq_some_iff.mp h
  refine ⟨fun snap id => ?_, fun f row hrow u hstanding hsnap => ?_⟩
  · simp only [List.mem_filter, List.mem_append]
    constructor
    · intro hhas
      have hstanding : ephemeralHas l.server.ephemeral snap id = true →
          ∃ u, ((u ∈ l.uploads ∨ u ∈ l.uploaded call) ∧
            ephemeralHas s.ephemeral u.snap (Platform.blobId u.payload) = true) ∧
            u.snap = snap ∧ Platform.blobId u.payload = id := by
        intro hold
        obtain ⟨u, hu, rfl, rfl⟩ := (hinv.mirrors snap id).mp hold
        exact ⟨u, ⟨.inl hu, hhas⟩, rfl, rfl⟩
      rcases Server.step_ephemeral hs hhas with hold | ⟨r, payload, hevent, rfl⟩
      · exact hstanding hold
      · match hput : snapshotPut (l.server.cx r) l.server.ephemeral l.server.nowNs snap payload with
        | .ok ephemeral =>
            have hmem : ⟨call.principal, r, snap, payload⟩ ∈ l.uploaded call := by
              simp [uploaded, hevent, hput]
            exact ⟨_, ⟨.inr hmem, hhas⟩, rfl, rfl⟩
        | .error e =>
            have hserve := (Server.step_serve hs).2
            simp only [Server.serve, hevent, hput, Option.some.injEq] at hserve
            exact hstanding (hserve ▸ hhas)
    · rintro ⟨u, ⟨-, hstands⟩, rfl, rfl⟩
      exact hstands
  · obtain ⟨hu, hhas⟩ := List.mem_filter.mp hstanding
    rw [← hsnap]
    rcases Server.step_snapshots_owned hs row hrow with hold | ⟨r, req, hevent, hid, hrepo, hprincipal⟩
    · rcases List.mem_append.mp hu with hu | hu
      · exact (hsnap ▸ hinv.owned f row hold u hu hsnap).step hhas
      · obtain ⟨hevent, hprincipal⟩ := mem_uploaded hu
        simp only [Unshared, hevent] at hok
        rcases hok f row hold hsnap.symm with ⟨howner, hrepo⟩ | hown
        · exact ⟨u, hstanding, hprincipal.trans howner, hrepo, rfl, rfl⟩
        · exact hown.step hhas
    · rcases List.mem_append.mp hu with hu | hu
      · simp only [Unshared, hevent] at hok
        rw [hprincipal, hrepo]
        have hown := hok u hu (hsnap.trans hid)
        rw [← hid, ← hsnap] at hown
        exact hown.step hhas
      · obtain ⟨hevent', -⟩ := mem_uploaded hu
        rw [hevent] at hevent'
        cases hevent'

/-! ### What is a principal's own -/

/-- The directory of a snapshot id as one owner filled it. -/
def ownEphemeral (l : SnapshotRun Id) (principal : String) (r : RepoId) (snap : Id) :
    List (SnapDir Id) :=
  [⟨snap, 0,
    (l.uploads.filter (fun u =>
      decide (u.principal = principal ∧ u.repo = r ∧ u.snap = snap))).map
        (fun u => (Platform.blobId u.payload, u.payload))⟩]

/-- A repository's own rows: no other's snapshots, no shared store. -/
def ownCx (l : SnapshotRun Id) (r : RepoId) : RepoCx Id :=
  { l.server.cx r with
    cas := []
    cat := ⟨[], []⟩
    trees := []
    snapshots := (l.server.cx r).snapshots.filter (fun row => decide (row.repoId = r)) }

variable {l : SnapshotRun Id} {principal : String} {r : RepoId} {snap : Id}

theorem ephemeralHas_own (hinv : l.Inv) (howned : l.Owned principal r snap) (id : Id) :
    ephemeralHas (l.ownEphemeral principal r snap) snap id = ephemeralHas l.server.ephemeral snap id := by
  rw [Bool.eq_iff_iff, hinv.mirrors]
  simp only [ephemeralHas, snapBlobs, ownEphemeral, List.find?_singleton, decide_true, if_true,
    Option.map_some, Option.getD_some, List.any_map, List.any_eq_true, List.mem_filter,
    Function.comp_apply, decide_eq_true_eq]
  constructor
  · rintro ⟨u, ⟨hu, -, -, hsnap⟩, hid⟩
    exact ⟨u, hu, hsnap, hid⟩
  · rintro ⟨u, hu, hsnap, hid⟩
    obtain ⟨own, hown, hprincipal, hrepo, hsnap, hsame⟩ := howned.1 u hu hsnap
    exact ⟨own, ⟨hown, hprincipal, hrepo, hsnap⟩, hsame.trans hid⟩

theorem snapshotGet_own : snapshotGet (l.ownCx r) snap = snapshotGet (l.server.cx r) snap := by
  rw [snapshotGet, ownCx, List.find?_filter, snapshotGet]
  congr 1
  funext row
  by_cases hrow : row.repoId = r <;> simp [hrow]

/-- An unused id is free in the whole file. -/
theorem snapshots_fresh (howned : l.Owned principal r snap)
    (hget : snapshotGet (l.server.cx r) snap = none) :
    (l.server.cx r).snapshots.any (fun row => decide (row.id = snap)) = false := by
  rw [snapshotGet, List.find?_eq_none] at hget
  rw [List.any_eq_false]
  intro row hrow hid
  have hid := of_decide_eq_true hid
  have hrepo := howned.2 row hrow hid
  exact hget row hrow (by simp [hid, hrepo])

/-- The answer of a POST is the one of the owner's own uploads and the
repository's own rows. -/
theorem snapshotPost_own (hinv : l.Inv) {req : SnapshotRequest Id}
    (howned : l.Owned req.principal r req.snapId) :
    (snapshotPost (l.server.cx r) l.server.ephemeral l.server.nowNs req).map Prod.fst =
      (snapshotPost (l.ownCx r) (l.ownEphemeral req.principal r req.snapId) l.server.nowNs
        req).map Prod.fst := by
  have hhas : ∀ id, ephemeralHas (l.ownEphemeral req.principal r req.snapId) req.snapId id =
      ephemeralHas l.server.ephemeral req.snapId id := ephemeralHas_own hinv howned
  rw [snapshotPost, snapshotPost]
  split
  next => rfl
  next p hprepare =>
    rw [snapshotWrite, snapshotWrite, snapshotGet_own]
    split
    next row hrow =>
      cases snapshotExisting l.server.nowNs p.ttlNs req row <;> rfl
    next hget =>
      have hdb : (l.ownCx r).db = (l.server.cx r).db := rfl
      simp only [hdb, hhas]
      split_ifs
      · rfl
      · rfl
      · have hfresh := snapshots_fresh howned hget
        have hfresh' : (l.ownCx r).snapshots.any (fun row => decide (row.id = req.snapId)) =
            false := by
          rw [List.any_eq_false] at hfresh ⊢
          exact fun row hrow => hfresh row (List.mem_of_mem_filter hrow)
        simp only [snapshotInsert, hfresh, hfresh', Bool.false_eq_true, if_false]
        rfl

end SnapshotRun

open SnapshotRun in
/-- In runs that put no blob into a snapshot that its owner did not upload as
well, a snapshot serves a principal only blobs it uploaded there itself, and what
a POST answers is decided by its own uploads and the repository's own rows. -/
theorem snapshot_isolated_of_reach {l : SnapshotRun Id}
    (h : Lib.Reach Start step Unshared l) :
    (∀ r principal snap oid bytes,
      snapshotGetBlob (l.server.cx r) l.server.ephemeral l.server.nowNs principal snap oid =
          .ok bytes →
        ∃ u ∈ l.uploads, u.principal = principal ∧ u.repo = r ∧ u.snap = snap ∧
          Platform.blobId u.payload = oid) ∧
      ∀ r req, l.Owned req.principal r req.snapId →
        (snapshotPost (l.server.cx r) l.server.ephemeral l.server.nowNs req).map Prod.fst =
          (snapshotPost (l.ownCx r) (l.ownEphemeral req.principal r req.snapId) l.server.nowNs
            req).map Prod.fst := by
  have hinv : l.Inv := h.invariant (fun _ hl => inv_start hl) fun _ _ _ _ hinv hok hstep =>
    inv_step hinv hok hstep
  refine ⟨fun r principal snap oid bytes hget => ?_, fun r req howned => snapshotPost_own hinv howned⟩
  obtain ⟨⟨row, hrow, hrepo, hid, hprincipal⟩, hhas⟩ := snapshotGetBlob_ok hget
  obtain ⟨u, hu, hsnap, hblob⟩ := (hinv.mirrors snap oid).mp hhas
  have hown := hinv.owned _ row hrow u hu (hsnap.trans hid.symm)
  rwa [hprincipal, hrepo, hid, hblob] at hown

end

/-! ### One id, two owners -/

namespace SharedId

open SnapshotRun

def start : SnapshotRun PlainId :=
  ⟨Server.boot .dbPerRepo [(1, "one"), (2, "two")] 100 10, []⟩

def snap : PlainId := [5]

def payload : Bytes := [97, 10]

def frame : TreeFrame PlainId :=
  ⟨⟨[⟨"f", .file, Platform.blobId payload, 2, false⟩]⟩, by decide⟩

/-- An upload under the shared id. -/
def put (principal : String) (r : RepoId) : SnapshotCall PlainId :=
  ⟨principal, .snapshotPut r snap payload⟩

/-- Ann's POST in the second repository. -/
def post : SnapshotCall PlainId :=
  ⟨"ann", .snapshotPost 2
    { repoName := "two"
      principal := "ann"
      scope := none
      snapId := snap
      treeId := Platform.treeId frame
      ttlSecs := none
      trees := [frame] }⟩

/-- Ann is served the blob. -/
def serves (l : SnapshotRun PlainId) : Bool :=
  decide (snapshotGetBlob (l.server.cx 2) l.server.ephemeral l.server.nowNs "ann" snap
    (Platform.blobId payload) = .ok payload)

theorem reach_posted {l l' : SnapshotRun PlainId} (hput : start.step (put "ann" 2) = some l)
    (hpost : l.step post = some l') : Lib.Reach Start step Unshared l' := by
  have hstart : Lib.Reach Start step Unshared start :=
    .start ⟨⟨.dbPerRepo, [(1, "one"), (2, "two")], 100, 10, by decide, rfl⟩, rfl⟩
  have hfirst : start.Unshared (put "ann" 2) := fun f row hrow => absurd hrow List.not_mem_nil
  have hsecond : l.OwnBlobs "ann" 2 snap := by
    intro u hu hsnap
    obtain ⟨s, -, rfl⟩ := Option.map_eq_some_iff.mp hput
    have hmem := hu
    simp only [List.mem_filter, List.mem_append] at hmem
    obtain ⟨hevent, hprincipal⟩ := mem_uploaded (hmem.1.resolve_left List.not_mem_nil)
    injection hevent with hrepo
    exact ⟨u, hu, hprincipal, hrepo.symm, hsnap, rfl⟩
  exact (hstart.next hfirst hput).next (show l.Unshared post from hsecond) hpost

end SharedId

open SharedId in
theorem snapshot_isolated_of_reach_served : ∃ l l', start.step (put "ann" 2) = some l ∧
    l.step post = some l' ∧ ∃ u ∈ l'.uploads, u.principal = "ann" ∧ u.repo = 2 ∧ u.snap = snap ∧
      (Platform.blobId u.payload : PlainId) = Platform.blobId payload := by
  have hrun : (start.step (put "ann" 2)).any (fun l => (l.step post).any serves) = true := by
    decide +kernel
  obtain ⟨l, hl, hrun⟩ := (Option.any_eq_true _ _).mp hrun
  obtain ⟨l', hl', hserves⟩ := (Option.any_eq_true _ _).mp hrun
  exact ⟨l, l', hl, hl', (snapshot_isolated_of_reach (reach_posted hl hl')).1 2 "ann" snap
    (Platform.blobId payload) payload (of_decide_eq_true hserves)⟩

open SharedId in
/-- Bob's upload in the first repository lets Ann's snapshot in the second one
through, and serves her a blob she never uploaded. -/
theorem shared_id : ∃ l, Lib.exec SnapshotRun.step start [put "bob" 1, post] = some l ∧
    snapshotGetBlob (l.server.cx 2) l.server.ephemeral l.server.nowNs "ann" snap
      (Platform.blobId payload) = .ok payload ∧
    (∀ u ∈ l.uploads, u.principal = "bob" ∧ u.repo = 1) ∧
    (Lib.exec SnapshotRun.step start [post]).any serves = false := by
  have hrun : (Lib.exec SnapshotRun.step start [put "bob" 1, post]).any (fun l =>
      serves l && l.uploads.all (fun u => decide (u.principal = "bob" ∧ u.repo = 1))) = true := by
    decide +kernel
  obtain ⟨l, hl, hrun⟩ := (Option.any_eq_true _ _).mp hrun
  rw [Bool.and_eq_true, List.all_eq_true] at hrun
  exact ⟨l, hl, of_decide_eq_true hrun.1, fun u hu => of_decide_eq_true (hrun.2 u hu),
    by decide +kernel⟩

end Naatre
