import Mathlib.Data.List.Induction
import Mathlib.Logic.Relation
import Naatre.Server.Fsck
import Naatre.Server.GcSteps
import Naatre.Server.TombstoneGate

/-!
The ledger update of a collector's pass: what the chunks of upserts and deletes
leave, as one function of the state the pass starts in.
-/

namespace Naatre

/-! ### Chunks -/

section

variable {Id : Type} [Platform Id]

/-! ### The rows -/

/-- The row of an id stands in the ledger. -/
def ledgered (rows : List (PendingRow Id)) (scope : GcScope) (id : Id) : Bool :=
  rows.any fun row => decide (row.scope = scope) && decide (row.id = id)

/-- The rows an observation appends: one for each id without a row. -/
def freshRows (rows : List (PendingRow Id)) (scope : GcScope) (ids : List Id) (nowNs : ℕ) :
    List (PendingRow Id) :=
  ((membersInsert [] ids).filter fun id => !ledgered rows scope id).map fun id =>
    ⟨scope, id, nowNs, none⟩

namespace Server

/-- The runs of the collector. -/
abbrev GcRun : Server Id → Server Id → Prop :=
  Relation.ReflTransGen fun s s' => s.gcStep = some s'

/-! ### The state a pass collects from -/

/-- Everything there is of a scope. -/
def inventoryOf (s : Server Id) : GcScope → List Id
  | .cs => s.repoIds.flatMap fun r => (s.dbs r).changesets.map fun row => row.id
  | .blob => (s.cat.objects.map (fun row => row.objectId) ++ s.cas.map fun b => b.1).dedup
  | .tree => s.repoIds.flatMap fun r => (s.trees (s.file r)).map fun row => row.id

/-- What the mark of a pass that starts now does not reach. -/
def unreached (s : Server Id) (scope : GcScope) : List Id :=
  (s.inventoryOf scope).filter fun id => !(s.mark s.nowNs).reachable ⟨scope, id, s.nowNs, none⟩

/-- The rows of what is unreached and not in the ledger yet. -/
def freshCandidates (s : Server Id) (scope : GcScope) : List (PendingRow Id) :=
  freshRows s.cat.gcPending scope (s.unreached scope) s.nowNs

/-- The ledger of a pass that starts now: the rows that its mark does not reach,
and the fresh ones. -/
def candidates (s : Server Id) : List (PendingRow Id) :=
  s.cat.gcPending.filter (fun row => !(s.mark s.nowNs).reachable row) ++
    (s.freshCandidates .cs ++ s.freshCandidates .blob ++ s.freshCandidates .tree)

end Server

end

end Naatre
