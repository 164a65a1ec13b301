import Naatre.Core.Conflict
import Naatre.Server.TreeDerive

/-!
Merge primitives for land (`naatre-server/src/merge.rs`): the line-level 3-way
over text and the path-level 3-way over trees, in its refusing and its
recording mode.
-/

namespace Naatre

/-! ### Lines -/

inductive MergeOutcome
  | merged (bytes : Bytes)
  | conflict
  deriving DecidableEq

/-- One edit hunk over the base lines: replaces `[start, stop)` with `lines`. -/
structure Hunk where
  start : ℕ
  stop : ℕ
  lines : List Bytes
  deriving DecidableEq

def Hunk.overlaps (a b : Hunk) : Bool := decide (a.start < b.stop) && decide (b.start < a.stop)

def Hunk.isInsertion (h : Hunk) : Bool := decide (h.start = h.stop)

/-- The non-equal ops of a base→other line diff. -/
def hunksOf (ops : List DiffOp) (newLines : List Bytes) : List Hunk :=
  ops.filterMap fun
    | .equal _ _ _ => none
    | .delete oldIndex oldLen _ => some ⟨oldIndex, oldIndex + oldLen, []⟩
    | .insert oldIndex newIndex newLen =>
        some ⟨oldIndex, oldIndex, (newLines.drop newIndex).take newLen⟩
    | .replace oldIndex oldLen newIndex newLen =>
        some ⟨oldIndex, oldIndex + oldLen, (newLines.drop newIndex).take newLen⟩

/-- Two hunks of the two sides that cannot both apply. -/
def hunksConflict (ho ht : Hunk) : Bool :=
  ho.overlaps ht ||
    (ho.isInsertion && ht.isInsertion && decide (ho.start = ht.start)
      && decide (ho.lines ≠ ht.lines))

/-- The sort key `(start, !is_insertion, from_theirs)`. -/
def hunkBefore (a b : Hunk × Bool) : Bool :=
  let key := fun (h : Hunk × Bool) => (h.1.start, !h.1.isInsertion, h.2)
  let ka := key a
  let kb := key b
  decide (ka.1 < kb.1) || (decide (ka.1 = kb.1) &&
    ((!ka.2.1 && kb.2.1) || (decide (ka.2.1 = kb.2.1) && (!ka.2.2 || kb.2.2))))

/-- Applies the sorted hunks from base line `pos` on. `prev` is the hunk applied
last: an insertion the other side contributed verbatim is skipped. -/
def applyHunks (baseLines : List Bytes) : Option Hunk → ℕ → List (Hunk × Bool) → List Bytes
  | _, pos, [] => baseLines.drop pos
  | prev, pos, (hunk, _) :: rest =>
      if prev.any (fun p => hunk.isInsertion && p.isInsertion && decide (hunk.start = p.start)
          && decide (hunk.lines = p.lines)) then
        applyHunks baseLines prev pos rest
      else
        (baseLines.drop pos).take (hunk.start - pos) ++ hunk.lines
          ++ applyHunks baseLines (some hunk) hunk.stop rest

/-- `merge_lines`. -/
def mergeLines (fromLines : Bytes → Bytes → TextDiff) (base ours theirs : Bytes) :
    MergeOutcome :=
  if ours = base then .merged theirs
  else if theirs = base then .merged ours
  else if ours = theirs then .merged ours
  else if !(isUtf8 base && isUtf8 ours && isUtf8 theirs) then .conflict
  else
    let diffOurs := fromLines base ours
    let diffTheirs := fromLines base theirs
    let oursHunks := hunksOf diffOurs.ops diffOurs.newSlices
    let theirsHunks := hunksOf diffTheirs.ops diffTheirs.newSlices
    if oursHunks.any (fun ho => theirsHunks.any (hunksConflict ho)) then .conflict
    else
      let all := oursHunks.map (·, false) ++ theirsHunks.map (·, true)
      let sorted := all.insertionSort (fun a b => hunkBefore a b = true)
      .merged (applyHunks diffOurs.oldSlices none 0 sorted).flatten

/-! ### Files -/

/-- One file entry of a flattened tree. -/
structure FileMeta (Id : Type) where
  blob : Id
  size : ℕ
  exec : Bool
  deriving DecidableEq

/-- The distinguishing pair `(blob, exec)`. -/
def FileMeta.key {Id : Type} (m : FileMeta Id) : Id × Bool := (m.blob, m.exec)

/-- A flattened tree, `full path → file meta`. -/
abbrev Files (Id : Type) := List (Path × FileMeta Id)

/-- A per-path merge failure. -/
structure PathConflict (Id : Type) where
  path : Path
  reason : String
  baseBlob : Option Id
  baseExec : Bool
  oursBlob : Option Id
  oursExec : Bool
  theirsBlob : Option Id
  theirsExec : Bool
  deriving DecidableEq

inductive OnConflict
  | refuse
  | record
  deriving DecidableEq

inductive MergeError (Id : Type)
  | conflicts (list : List (PathConflict Id))
  | fetch (id : Id)

/-- A successful tree merge. `inputIds` are the blobs whose content flowed into
a merged or marker blob. -/
structure MergedTree (Id : Type) where
  node : MemNode Id
  newBlobs : List (Id × Bytes)
  inputIds : List Id

structure RecordedMerge (Id : Type) where
  tree : MergedTree Id
  conflicts : List (PathConflict Id)
  oversized : List (Path × ℕ)

section Flatten

variable {Id : Type}

mutual

/-- `flatten_into`, below the directory `dirs`. -/
def MemNode.flattenInto (dirs : List String) : MemNode Id → Files Id
  | .empty => []
  | .entry name e rest => e.flattenEntry dirs name ++ rest.flattenInto dirs

def MemEntry.flattenEntry (dirs : List String) (name : String) : MemEntry Id → Files Id
  | .file blob size exec => [(⟨dirs, name⟩, ⟨blob, size, exec⟩)]
  | .dir child => child.flattenInto (dirs ++ [name])

end

def flattenFiles (node : MemNode Id) : Files Id := node.flattenInto []

end Flatten

section Merge

variable {Id : Type} [Platform Id]

/-- The sides that carry content, sorted by `(blob, exec)`. -/
def PathConflict.sides (c : PathConflict Id) : List (Id × Bool) :=
  ((c.oursBlob.map (·, c.oursExec)).toList ++ (c.theirsBlob.map (·, c.theirsExec)).toList)
    |>.insertionSort (fun a b => ¬ sideBefore b a = true)

/-- The representation `content_rep` builds before it is validated. -/
def PathConflict.rep (c : PathConflict Id) : ConflictRep Id where
  path := c.path
  base := c.baseBlob
  baseExec := c.baseBlob.isSome && c.baseExec
  sides := c.sides.map (·.1)
  sidesExec := c.sides.map (·.2)
  deleted := decide (c.sides.length < 2)

/-- `content_rep`: `none` when the conflict is not recordable. -/
def contentRep (c : PathConflict Id) : Option (ConflictRep Id) :=
  match validateConflicts (Platform.nfc Id) [c.rep] with
  | .ok () => some c.rep
  | .error _ => none

/-- `resolve_exec`. -/
def resolveExec (b o t : Option Bool) : Bool :=
  match o, t with
  | some oe, some te => if oe = te then oe else if b = some oe then te else oe
  | some e, none | none, some e => e
  | none, none => false

/-- The accumulators of `merge_trees_mode`. -/
structure MergeState (Id : Type) where
  mergedFiles : Files Id
  newBlobs : List (Id × Bytes)
  inputIds : List Id
  oversized : List (Path × ℕ)
  refused : List (PathConflict Id)
  recorded : List (PathConflict Id)

def MergeState.start : MergeState Id := ⟨[], [], [], [], [], []⟩

/-- A path that takes one side: a deletion leaves it absent. -/
def MergeState.take (st : MergeState Id) (p : Path) (side : Option (FileMeta Id)) :
    MergeState Id :=
  { st with mergedFiles := st.mergedFiles ++ (side.map (p, ·)).toList }

/-- A path that holds new content. -/
def MergeState.write (st : MergeState Id) (p : Path) (bytes : Bytes) (exec : Bool) :
    MergeState Id :=
  let blob := Platform.blobId bytes
  { st with
    newBlobs :=
      if st.newBlobs.any (fun b => decide (b.1 = blob)) then st.newBlobs
      else st.newBlobs ++ [(blob, bytes)]
    mergedFiles := st.mergedFiles ++ [(p, ⟨blob, bytes.length, exec⟩)] }

/-- `take_conflict`; a fetch failure names the failing blob. -/
def takeConflict (fetchBlob : Id → Option Bytes) (on : OnConflict) (c : PathConflict Id)
    (st : MergeState Id) : Except Id (MergeState Id) :=
  match on with
  | .refuse => .ok { st with refused := st.refused ++ [c] }
  | .record =>
      match contentRep c with
      | none => .ok { st with refused := st.refused ++ [c] }
      | some rep => do
          let st : MergeState Id :=
            { st with inputIds := st.inputIds ++ rep.base.toList ++ rep.sides }
          let bytes ← markerBytes rep fetchBlob
          if blobLimit < bytes.length then
            pure { st with oversized := st.oversized ++ [(c.path, bytes.length)] }
          else
            let exec := resolveExec (c.baseBlob.map fun _ => c.baseExec)
              (c.oursBlob.map fun _ => c.oursExec) (c.theirsBlob.map fun _ => c.theirsExec)
            let st := st.write c.path bytes exec
            pure { st with recorded := st.recorded ++ [c] }

/-- The closure `conflict` of the merge loop. -/
def pathConflict (p : Path) (b o t : Option (FileMeta Id)) (reason : String) :
    PathConflict Id where
  path := p
  reason := reason
  baseBlob := b.map (·.blob)
  baseExec := b.any (·.exec)
  oursBlob := o.map (·.blob)
  oursExec := o.any (·.exec)
  theirsBlob := t.map (·.blob)
  theirsExec := t.any (·.exec)

def fetchOr (fetchBlob : Id → Option Bytes) (id : Id) : Except Id Bytes :=
  match fetchBlob id with
  | some bytes => .ok bytes
  | none => .error id

/-- One path of the merge loop. -/
def mergePath (fetchBlob : Id → Option Bytes) (on : OnConflict) (p : Path)
    (b o t : Option (FileMeta Id)) (st : MergeState Id) : Except Id (MergeState Id) :=
  if o = t then .ok (st.take p o)
  else if o = b then .ok (st.take p t)
  else if t = b then .ok (st.take p o)
  else match b, o, t with
    | some bm, some om, some tm => do
        let baseBytes ← fetchOr fetchBlob bm.blob
        let oursBytes ← fetchOr fetchBlob om.blob
        let theirsBytes ← fetchOr fetchBlob tm.blob
        let st : MergeState Id :=
          { st with inputIds := st.inputIds ++ [bm.blob, om.blob, tm.blob] }
        match mergeLines (Platform.fromLines Id) baseBytes oursBytes theirsBytes with
        | .merged bytes =>
            pure (st.write p bytes (resolveExec (some bm.exec) (some om.exec) (some tm.exec)))
        | .conflict =>
            takeConflict fetchBlob on
              (pathConflict p b o t "both modified, line merge conflict") st
    | none, some _, some _ =>
        takeConflict fetchBlob on (pathConflict p b o t "both added, different content") st
    | _, _, _ =>
        takeConflict fetchBlob on
          (pathConflict p b o t "deleted by one side, modified by the other") st

/-- The paths of the three trees, in byte order. -/
def unionPaths (base ours theirs : Files Id) : List Path :=
  Path.sortPaths (base.map (·.1) ++ ours.map (·.1) ++ theirs.map (·.1))

def mergePaths (fetchBlob : Id → Option Bytes) (on : OnConflict) (base ours theirs : Files Id)
    (paths : List Path) : Except Id (MergeState Id) :=
  paths.foldlM (fun st p =>
    mergePath fetchBlob on p (base.lookup p) (ours.lookup p) (theirs.lookup p) st) .start

def addChange (f : Path × FileMeta Id) : FileChange Id :=
  ⟨f.1, .add, some f.2.blob, some f.2.size, some f.2.exec⟩

def ApplyError.path : ApplyError → Path
  | .fileInPath p | .modNotFile p | .delNotFile p | .tooDeep p => p

/-- The conflict a merged map that is no tree surfaces as. -/
def dualityConflict (p : Path) : PathConflict Id :=
  ⟨p, "merged result is not a consistent tree (file/directory duality)",
    none, false, none, false, none, false⟩

/-- `merge_trees_mode`. -/
def mergeTreesMode (fetchBlob : Id → Option Bytes) (on : OnConflict)
    (base ours theirs : MemNode Id) : Except (MergeError Id) (RecordedMerge Id) :=
  let baseFiles := flattenFiles base
  let oursFiles := flattenFiles ours
  let theirsFiles := flattenFiles theirs
  match mergePaths fetchBlob on baseFiles oursFiles theirsFiles
      (unionPaths baseFiles oursFiles theirsFiles) with
  | .error id => .error (.fetch id)
  | .ok st =>
      if st.refused ≠ [] then .error (.conflicts st.refused)
      else match MemNode.empty.apply (st.mergedFiles.map addChange) with
        | .error e => .error (.conflicts [dualityConflict e.path])
        | .ok node => .ok ⟨⟨node, st.newBlobs, st.inputIds⟩, st.recorded, st.oversized⟩

/-- `merge_trees`. -/
def mergeTrees (fetchBlob : Id → Option Bytes) (base ours theirs : MemNode Id) :
    Except (MergeError Id) (MergedTree Id) :=
  (mergeTreesMode fetchBlob .refuse base ours theirs).map (·.tree)

/-- `merge_trees_recording`. -/
def mergeTreesRecording (fetchBlob : Id → Option Bytes) (base ours theirs : MemNode Id) :
    Except (MergeError Id) (RecordedMerge Id) :=
  mergeTreesMode fetchBlob .record base ours theirs

/-- One path of `delta_between`. -/
def deltaAt (p : Path) : Option (FileMeta Id) → Option (FileMeta Id) → Option (FileChange Id)
  | some ae, some ce =>
      if ae.key ≠ ce.key then some ⟨p, .mod, some ce.blob, some ce.size, some ce.exec⟩ else none
  | some _, none => some ⟨p, .del, none, none, none⟩
  | none, some ce => some (addChange (p, ce))
  | none, none => none

/-- `delta_between`: tree(parent') → tree(node'), sorted by path. -/
def deltaBetween (parent child : MemNode Id) : List (FileChange Id) :=
  let a := flattenFiles parent
  let c := flattenFiles child
  (Path.sortPaths (a.map (·.1) ++ c.map (·.1))).filterMap
    (fun p => deltaAt p (a.lookup p) (c.lookup p))

end Merge

end Naatre
