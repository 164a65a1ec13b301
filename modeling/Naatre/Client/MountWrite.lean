import Naatre.Core.Path
import Naatre.Lib.Run
import Naatre.Lib.WriteAt

/-!
The write requests of a writable mount (`naatre-cli/src/verbs/mount.rs`,
`verbs/fuse.rs`; the two front-ends have one `write`) against the POSIX result.

A request reads the file unless its offset is zero, edits the buffer and hands
the whole of it to `vfs.write`; other requests come between the two. The shadow
copy answers for the file once there is one (`vfs.rs`), and a request that
meets an error replaces nothing.
-/

namespace Naatre.Client

namespace Mount

/-- The offset and the data of a write request. -/
abbrev WriteRequest := ℕ × Bytes

/-- A file of a writable mount and the requests on it. -/
structure MountFile where
  /-- the content in the pinned tree -/
  pinned : Bytes
  /-- the shadow copy -/
  staged : Option Bytes
  /-- the requests between their read and their `vfs.write`, with what they read -/
  inFlight : List (WriteRequest × Bytes)
  /-- the requests answered as written, in the order of their `vfs.write` -/
  written : List WriteRequest
  deriving DecidableEq

/-- `vfs.read`. -/
def vfsRead (f : MountFile) : Bytes := f.staged.getD f.pinned

/-- `vfs.write`: the whole content goes to the shadow copy. -/
def vfsWrite (f : MountFile) (bytes : Bytes) : MountFile := { f with staged := some bytes }

/-- The buffer a write request starts from. -/
def load (f : MountFile) (w : WriteRequest) : Bytes := if w.1 = 0 then [] else vfsRead f

/-- The buffer it hands to `vfs.write`. -/
def edit (bytes : Bytes) (w : WriteRequest) : Bytes :=
  let bytes :=
    if bytes.length < w.1 then bytes ++ List.replicate (w.1 - bytes.length) 0 else bytes
  bytes.take w.1 ++ w.2

inductive MountEvent
  /-- a write request arrives and reads -/
  | start (w : WriteRequest)
  /-- the `i`-th request in flight writes -/
  | finish (i : ℕ)
  /-- the `i`-th request in flight answers an error -/
  | refuse (i : ℕ)
  deriving DecidableEq, Repr

def step (f : MountFile) : MountEvent → Option MountFile
  | .start w => some { f with inFlight := f.inFlight ++ [(w, load f w)] }
  | .finish i =>
      (f.inFlight[i]?).map fun (w, bytes) =>
        { vfsWrite f (edit bytes w) with
          inFlight := f.inFlight.eraseIdx i
          written := f.written ++ [w] }
  | .refuse i =>
      (f.inFlight[i]?).map fun _ => { f with inFlight := f.inFlight.eraseIdx i }

/-- A file no request is on. -/
def Idle (f : MountFile) : Prop := f.inFlight = [] ∧ f.written = []

/-- The POSIX result of the requests in the order they were written: every
byte is that of the last write over it, else the old one, and zero behind the
old end. -/
def Posix (old : Bytes) (f : MountFile) : Prop :=
  (vfsRead f).length = f.written.foldl Lib.endAfter old.length ∧
    ∀ i < (vfsRead f).length,
      (vfsRead f)[i]? = some ((Lib.lastByte f.written i).getD ((old[i]?).getD 0))

/-- A write that reaches the end of the file, over the front it read: what the
special case of offset zero and the truncation of the tail ask for. -/
def Whole (f : MountFile) (w : WriteRequest) (bytes : Bytes) : Prop :=
  (∀ i < w.1, (bytes[i]?).getD 0 = ((vfsRead f)[i]?).getD 0) ∧
    (vfsRead f).length ≤ w.1 + w.2.length ∧ (w.2 = [] → w.1 ≤ (vfsRead f).length)

/-- The condition on one event. -/
def EventWhole (f : MountFile) : MountEvent → Prop
  | .finish i => ∀ w bytes, f.inFlight[i]? = some (w, bytes) → Whole f w bytes
  | _ => True

/-! ### One write -/

theorem length_edit (bytes : Bytes) (w : WriteRequest) :
    (edit bytes w).length = w.1 + w.2.length := by
  unfold edit
  rw [List.length_append, List.length_take]
  split
  next h =>
    rw [List.length_append, List.length_replicate]
    omega
  next h => omega

theorem edit_eq (bytes : Bytes) (w : WriteRequest) :
    edit bytes w = bytes.take w.1 ++ List.replicate (w.1 - bytes.length) 0 ++ w.2 := by
  unfold edit
  split
  next h =>
    have hlen : (bytes ++ List.replicate (w.1 - bytes.length) (0 : UInt8)).length ≤ w.1 := by
      rw [List.length_append, List.length_replicate]
      omega
    show (bytes ++ List.replicate (w.1 - bytes.length) 0).take w.1 ++ w.2 = _
    rw [List.take_of_length_le hlen, List.take_of_length_le h.le]
  next h =>
    have hzero : w.1 - bytes.length = 0 := by omega
    show bytes.take w.1 ++ w.2 = _
    rw [hzero, List.replicate_zero, List.append_nil]

/-- One edit gives the POSIX result exactly where it is whole. -/
theorem edit_iff (f : MountFile) (w : WriteRequest) (bytes : Bytes) :
    edit bytes w = Lib.pwrite 0 (vfsRead f) w ↔ Whole f w bytes := by
  constructor
  · intro h
    have hlen := congrArg List.length h
    rw [length_edit, Lib.length_pwrite, Lib.endAfter] at hlen
    refine ⟨fun i hi => ?_, ?_, fun hnil => ?_⟩
    · have hbyte := congrArg (fun l => (l[i]?).getD 0) h
      have hfront : i < Lib.endAfter (vfsRead f).length w := by
        rw [← Lib.length_pwrite 0, ← h, length_edit]
        omega
      have hnone : Lib.byteOf w i = none := if_neg (by omega)
      simp only [edit_eq] at hbyte
      rw [List.getElem?_append_left (by rw [Lib.length_pad]; exact hi), Lib.getElem?_pad 0 bytes hi,
        Lib.getElem?_pwrite, if_pos hfront, hnone] at hbyte
      exact hbyte
    · split at hlen <;> omega
    · have hempty : w.2.isEmpty = true := List.isEmpty_iff.mpr hnil
      rw [if_pos hempty] at hlen
      omega
  · rintro ⟨hfront, hend, hnil⟩
    have hafter : Lib.endAfter (vfsRead f).length w = w.1 + w.2.length := by
      unfold Lib.endAfter
      split
      next hempty =>
        have hw := List.isEmpty_iff.mp hempty
        have hle := hnil hw
        rw [hw] at hend ⊢
        simp only [List.length_nil] at hend ⊢
        omega
      next => omega
    apply List.ext_getElem?
    intro i
    rw [Lib.getElem?_pwrite, hafter, edit_eq]
    rcases Nat.lt_or_ge i w.1 with hi | hi
    · have hnone : Lib.byteOf w i = none := if_neg (by omega)
      rw [List.getElem?_append_left (by rw [Lib.length_pad]; exact hi), Lib.getElem?_pad 0 bytes hi,
        if_pos (by omega), hnone, Option.getD_none, hfront i hi]
    · rw [List.getElem?_append_right (by rw [Lib.length_pad]; exact hi), Lib.length_pad]
      rcases Nat.lt_or_ge i (w.1 + w.2.length) with hin | hout
      · have hlt : i - w.1 < w.2.length := by omega
        rw [if_pos hin, Lib.byteOf, if_pos hi, List.getElem?_eq_getElem hlt, Option.getD_some]
      · rw [if_neg (by omega), List.getElem?_eq_none (by omega)]

/-! ### Runs -/

theorem posix_iff {old : Bytes} {f : MountFile} :
    Posix old f ↔ vfsRead f = f.written.foldl (Lib.pwrite 0) old := by
  constructor
  · rintro ⟨hlen, hbyte⟩
    apply List.ext_getElem?
    intro i
    rw [Lib.getElem?_pwrites]
    by_cases hi : i < (vfsRead f).length
    · rw [hbyte i hi, if_pos (hlen ▸ hi)]
    · rw [List.getElem?_eq_none (Nat.le_of_not_lt hi), if_neg (hlen ▸ hi)]
  · intro h
    have hlen : (vfsRead f).length = f.written.foldl Lib.endAfter old.length := by
      rw [h, Lib.length_pwrites]
    refine ⟨hlen, fun i hi => ?_⟩
    rw [hlen] at hi
    rw [h, Lib.getElem?_pwrites, if_pos hi]

/-- What one event keeps: from a POSIX state, exactly the whole writes lead to
one. -/
theorem step_posix {old : Bytes} {f f' : MountFile} {e : MountEvent} (hf : Posix old f)
    (h : step f e = some f') : Posix old f' ↔ EventWhole f e := by
  rw [posix_iff] at hf ⊢
  cases e with
  | start w =>
      cases h
      exact iff_of_true hf trivial
  | finish i =>
      obtain ⟨⟨w, bytes⟩, hget, rfl⟩ := Option.map_eq_some_iff.mp h
      have hfinish : EventWhole f (.finish i) ↔ Whole f w bytes := by
        constructor
        · exact fun h => h w bytes hget
        · intro h w' bytes' hget'
          rw [hget] at hget'
          cases hget'
          exact h
      rw [hfinish, ← edit_iff, List.foldl_append, ← hf]
      rfl
  | refuse i =>
      obtain ⟨_, _, rfl⟩ := Option.map_eq_some_iff.mp h
      exact iff_of_true hf trivial

/-- Along every run of write requests the file stays what POSIX makes of them
in the order they were written, exactly as long as each of them reaches the end
of the file over the front it read. -/
theorem mount_writes_iff {f₀ f : MountFile} {events : List MountEvent} (hidle : Idle f₀)
    (h : Lib.exec step f₀ events = some f) :
    (∀ n g, Lib.exec step f₀ (events.take n) = some g → Posix (vfsRead f₀) g) ↔
      ∀ n g e, Lib.exec step f₀ (events.take n) = some g → events[n]? = some e →
        EventWhole g e := by
  constructor
  · intro hposix n g e hg he
    obtain ⟨g', hstep, hg'⟩ := Lib.exec_take_succ h hg he
    exact (step_posix (hposix n g hg) hstep).mp (hposix (n + 1) g' hg')
  · intro hwhole n
    induction n with
    | zero =>
        intro g hg
        cases hg
        rw [posix_iff, hidle.2]
        rfl
    | succ n ih =>
        intro g' hg'
        rcases Nat.lt_or_ge n events.length with hn | hn
        · obtain ⟨g, hg⟩ := Lib.exec_take h n
          have he : events[n]? = some events[n] := List.getElem?_eq_getElem hn
          obtain ⟨g'', hstep, hg''⟩ := Lib.exec_take_succ h hg he
          rw [hg''] at hg'
          cases hg'
          exact (step_posix (ih g hg) hstep).mpr (hwhole n g _ hg he)
        · rw [List.take_of_length_le (by omega)] at hg'
          apply ih g'
          rw [List.take_of_length_le hn]
          exact hg'

/-! ### A write in the middle -/

/-- A file of six bytes. -/
def sixBytes : MountFile := ⟨[97, 98, 99, 100, 101, 102], none, [], []⟩

/-- One byte written at its end. -/
def appended : MountFile :=
  ⟨sixBytes.pinned, some [97, 98, 99, 100, 101, 102, 103], [], [(6, [103])]⟩

theorem appended_run :
    Lib.exec step sixBytes [.start (6, [103]), .finish 0] = some appended := by decide

theorem mount_writes_iff_appended :
    (∀ n g, Lib.exec step sixBytes ([.start (6, [103]), .finish 0].take n) = some g →
        Posix (vfsRead sixBytes) g) ↔
      ∀ n g e, Lib.exec step sixBytes ([.start (6, [103]), .finish 0].take n) = some g →
        [MountEvent.start (6, [103]), .finish 0][n]? = some e → EventWhole g e :=
  mount_writes_iff ⟨rfl, rfl⟩ appended_run

/-- Two bytes over the middle of it: the tail goes. -/
theorem middle_write_truncates :
    ∃ f, Lib.exec step sixBytes [.start (2, [88, 89]), .finish 0] = some f ∧
      vfsRead f = [97, 98, 88, 89] ∧ ¬ Posix (vfsRead sixBytes) f := by
  refine ⟨_, rfl, rfl, ?_⟩
  rw [posix_iff]
  decide

end Mount

end Naatre.Client
