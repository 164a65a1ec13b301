import Naatre.Lib.Run
import Naatre.Server.Fsck
import Naatre.Server.Import

/-!
The system: every committed step of the server, of the offline importer and of
the two collectors, as one step function. A request that is refused leaves the
stores as its closure left them; an import needs the data directory to itself.
-/

namespace Naatre

section

variable (Id : Type) [Platform Id]

/-- One committed step. -/
inductive Event
  | tick (ns : ℕ)
  /-- a create's scope check, parent lookup and validation -/
  | createLookup (r : RepoId) (req : CreateRequest Id)
  /-- the write of the `i`-th create in flight -/
  | createWrite (i : ℕ)
  | land (r : RepoId) (cmd : LandCommand Id)
  | importGit (r : RepoId) (git : GitRepo) (opts : ImportOptions) (head : GitOid) (stop : ℕ)
  | casRef (r : RepoId) (req : RefRequest Id)
  /-- an upload's bytes -/
  | putBytes (r : RepoId) (bytes : Bytes)
  /-- an upload's record step -/
  | record (r : RepoId) (bytes : Bytes)
  | mark (r : RepoId) (id : Id) (kind : RedactionKind)
  | snapshotPut (r : RepoId) (snap : Id) (payload : Bytes)
  | snapshotPost (r : RepoId) (req : SnapshotRequest Id)
  | sgcStart
  | sgcStep (i : ℕ)
  | gcStart
  | gcStep
  /-- the process stops: only what was committed stays -/
  | crash

end

section

variable {Id : Type} [Platform Id]

namespace Server

/-- The step of one create's lookup. -/
def createLookupStep (s : Server Id) (r : RepoId) (req : CreateRequest Id) : Server Id :=
  match createLookup (s.dbs r) req with
  | .error _ => s
  | .ok metas =>
      match createPrepare r s.nowNs req metas with
      | .error _ => s
      | .ok p => { s with creates := s.creates ++ [(r, p)] }

/-- The write of one create in flight. -/
def createWriteStep (s : Server Id) (i : ℕ) : Option (Server Id) :=
  (s.creates[i]?).map fun (r, p) =>
    let s := { s with creates := s.creates.eraseIdx i }
    match persist (s.cx r) p with
    | .error _ => s
    | .ok (_, cx) => s.put r cx

/-- The stores after a land, whatever its answer. -/
def landStep (s : Server Id) (r : RepoId) (cmd : LandCommand Id) : Server Id :=
  s.put r (execute (s.cx r) { cmd with nowNs := s.nowNs }).2

def casRefStep (s : Server Id) (r : RepoId) (req : RefRequest Id) : Server Id :=
  match casRef (s.cx r).name (s.dbs r) req with
  | .error _ => s
  | .ok (_, db) => s.put r { s.cx r with db := db }

def snapshotPostStep (s : Server Id) (r : RepoId) (req : SnapshotRequest Id) : Server Id :=
  match snapshotPost (s.cx r) s.ephemeral s.nowNs req with
  | .error _ => s
  | .ok (_, cx) => s.put r cx

/-- Nothing is in flight. -/
def quiescent (s : Server Id) : Bool :=
  s.creates.isEmpty && s.gc.isNone && s.snapshotGc.isEmpty

/-- A request names a registered repository. -/
def Event.known (s : Server Id) : Event Id → Bool
  | .createLookup r _ | .land r _ | .importGit r _ _ _ _ | .casRef r _ | .putBytes r _
  | .record r _ | .mark r _ _ | .snapshotPut r _ _ | .snapshotPost r _ => decide (r ∈ s.repoIds)
  | _ => true

/-- What an event does; `none` where it cannot occur. -/
def serve (s : Server Id) (e : Event Id) : Option (Server Id) :=
  match e with
  | .tick ns => some { s with nowNs := s.nowNs + ns }
  | .createLookup r req => some (s.createLookupStep r req)
  | .createWrite i => s.createWriteStep i
  | .land r cmd => some (s.landStep r cmd)
  | .importGit r git opts head stop =>
      if s.quiescent then some (s.put r (runBackend s.nowNs (s.cx r) git opts head stop).2)
      else none
  | .casRef r req => some (s.casRefStep r req)
  | .putBytes r bytes =>
      match putBytes (s.cx r) bytes with
      | .error _ => some s
      | .ok cx => some (s.put r cx)
  | .record r bytes =>
      some (s.put r (recordObject (s.cx r) (Platform.blobId bytes) bytes.length s.nowNs).2)
  | .mark r id kind =>
      some (s.put r { s.cx r with db := (redactionMark (s.dbs r) id kind s.nowNs).2 })
  | .snapshotPut r snap payload =>
      match snapshotPut (s.cx r) s.ephemeral s.nowNs snap payload with
      | .error _ => some s
      | .ok ephemeral => some { s with ephemeral := ephemeral }
  | .snapshotPost r req => some (s.snapshotPostStep r req)
  | .sgcStart => some s.sgcStart
  | .sgcStep i => s.sgcStep i
  | .gcStart => if s.gc.isNone then some s.gcStart else none
  | .gcStep => s.gcStep
  | .crash => some { s with creates := [], gc := none, snapshotGc := [] }

/-- One step. -/
def step (s : Server Id) (e : Event Id) : Option (Server Id) :=
  if Event.known s e then s.serve e else none

/-- A freshly initialised store in either layout, over any number of
repositories. -/
def Init (s : Server Id) : Prop :=
  ∃ layout repos nowNs graceNs, (repos.map (fun r => r.1)).Nodup ∧
    s = Server.boot layout repos nowNs graceNs

/-- The states of the runs whose steps all meet `ok`. -/
abbrev Reach (ok : Server Id → Event Id → Prop) : Server Id → Prop :=
  Lib.Reach Init step ok

end Server

end

end Naatre
