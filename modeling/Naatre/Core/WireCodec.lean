import Naatre.Core.Wire
import Naatre.Lib.Loop

/-!
What the strict decoders accept. Each reader of the wire module is followed
along its reads: it accepts the values its bounds leave, each in the one byte
form `encode` writes. From that, the round trips of the changeset and the tree
encoding.
-/

namespace Naatre.Wire

open Lib

/-! ### The cursor -/

theorem codes_objectId {ε : Type} (eof : ε) : Codes (fun _ => True) ObjectId.bytes (do
    let bytes ← Reader.take eof 32
    if h : bytes.length = 32 then pure ⟨bytes, h⟩ else Reader.fail eof) := by
  refine (Codes.take _ 32).bind (fun bytes hlen => ?_) (P := fun bytes i => i.bytes = bytes)
    (w := fun _ _ => []) (fun i => ?_) fun bytes i _ hi => ?_
  · rw [dif_pos hlen]
    refine (Codes.pure _).congr (fun i => ?_) fun _ _ => rfl
    cases i
    simp
  · simp [i.length_bytes]
  · rw [hi, List.append_nil]

theorem codes_take32 : Codes (fun _ => True) ObjectId.bytes take32 := codes_objectId _

theorem codes_u8 : Codes (fun _ => True) (fun b => [b]) u8 := by
  refine (Codes.take _ 1).bind (fun bytes _ => Codes.pure (bytes.headD 0)) (fun b => ?_) ?_
  · exact ⟨fun _ => ⟨[b], rfl, rfl⟩, fun _ => trivial⟩
  · rintro bytes b hlen rfl
    obtain ⟨x, rfl⟩ := List.length_eq_one_iff.mp hlen
    rfl

theorem codes_u32le : Codes (· < 2 ^ 32) (leBytes 4) u32le := Codes.leNat _ 4

theorem codes_u64le : Codes (fun _ => True) (fun n => leBytes 8 n.toNat) u64le :=
  Codes.leUInt64 _

theorem utf8_eq (s : String) : utf8 s = s.toByteArray.data.toList := by
  rw [← String.utf8Encode_toList]
  simp [utf8, List.utf8Encode]

theorem length_utf8 (s : String) : (utf8 s).length = s.utf8ByteSize := by
  rw [utf8_eq]
  rfl

theorem utf8_injective : Function.Injective utf8 := by
  intro s t h
  rw [utf8_eq, utf8_eq] at h
  rw [← String.toByteArray_inj]
  exact ByteArray.ext (Array.toList_inj.mp h)

theorem fromUTF8_eq_some {bytes : Bytes} {s : String} :
    String.fromUTF8? ⟨bytes.toArray⟩ = some s ↔ bytes = utf8 s := by
  rw [utf8_eq, String.fromUTF8?]
  constructor
  · intro h
    split_ifs at h
    cases h
    rfl
  · rintro rfl
    rw [dif_pos s.isValidUTF8]
    rfl

theorem codes_strField : Codes (fun s => s.utf8ByteSize ≤ maxObjectBytes) writeStr strField := by
  refine codes_u64le.bind (fun len _ => Codes.rejectIf fun _ =>
    @Codes.atLeast _ _ (fun s => s.utf8ByteSize = len.toNat) utf8 _ _ _ ?_ fun s hs => by
      rw [length_utf8, hs]) (fun s => ?_) fun len s _ hs => ?_
  · refine (Codes.take _ _).bind (P := fun bytes s => bytes = utf8 s) (w := fun _ _ => [])
      (fun bytes _ => ?_) (fun s => ?_) fun bytes s _ hs => ?_
    · cases hs : String.fromUTF8? ⟨bytes.toArray⟩ with
      | none =>
          refine (Codes.fail _).congr (fun s => ?_) fun _ _ => rfl
          rw [← fromUTF8_eq_some, hs]
          simp
      | some t =>
          refine (Codes.pure t).congr (fun s => ?_) fun _ _ => rfl
          rw [← fromUTF8_eq_some, hs, Option.some_inj, eq_comm]
    · simp [length_utf8]
    · rw [hs, List.append_nil]
  · constructor
    · intro hs
      have hlt : s.utf8ByteSize < 2 ^ 64 := lt_of_le_of_lt hs (by decide)
      refine ⟨.ofNat s.utf8ByteSize, trivial, ?_⟩
      rw [UInt64.toNat_ofNat_of_lt' hlt]
      exact ⟨not_lt.mpr hs, rfl⟩
    · rintro ⟨len, -, hlen, hs⟩
      rw [hs]
      exact not_lt.mp hlen
  · rw [writeStr, hs.2]

theorem codes_tagged {α : Type} {ok : α → Prop} {tag : α → UInt8} {ofTag : UInt8 → Option α}
    (h : ∀ t a, ofTag t = some a ↔ ok a ∧ t = tag a) :
    Codes ok (fun a => [tag a]) (tagged ofTag) := by
  refine codes_u8.bind (P := fun t a => ofTag t = some a) (w := fun _ _ => []) (fun t _ => ?_)
    (fun a => ?_) fun t a _ ha => ?_
  · cases ht : ofTag t with
    | none => exact (Codes.fail _).congr (fun a => by simp) fun _ _ => rfl
    | some b =>
        refine (Codes.pure b).congr (fun a => ?_) fun _ _ => rfl
        rw [Option.some_inj, eq_comm]
  · simp [h]
  · rw [((h t a).mp ha).2]
    rfl

theorem opOfTag_eq_some (t : UInt8) (op : Op) : opOfTag t = some op ↔ True ∧ t = opTag op := by
  unfold opOfTag
  split_ifs with h0 h1 h2
  · subst h0; cases op <;> simp [opTag]
  · subst h1; cases op <;> simp [opTag]
  · subst h2; cases op <;> simp [opTag]
  · cases op <;> simp [opTag, h0, h1, h2]

theorem kindOfTag_eq_some (t : UInt8) (kind : EntryKind) :
    kindOfTag t = some kind ↔ True ∧ t = kindTag kind := by
  unfold kindOfTag
  split_ifs with h0 h1
  · subst h0; cases kind <;> simp [kindTag]
  · subst h1; cases kind <;> simp [kindTag]
  · cases kind <;> simp [kindTag, h0, h1]

theorem boolOfTag_eq_some (t : UInt8) (b : Bool) : boolOfTag t = some b ↔ True ∧ t = bit b := by
  unfold boolOfTag
  split_ifs with h0 h1
  · subst h0; cases b <;> simp [bit]
  · subst h1; cases b <;> simp [bit]
  · cases b <;> simp [bit, h0, h1]

theorem execOfTag_eq_some (kind : EntryKind) (t : UInt8) (b : Bool) :
    execOfTag kind t = some b ↔ (kind = .dir → b = false) ∧ t = bit b := by
  unfold execOfTag
  split_ifs with h0 h1 hdir
  · subst h0; cases b <;> simp [bit]
  · subst h1; cases b <;> simp [bit, hdir]
  · subst h1; cases b <;> simp [bit, hdir]
  · cases b <;> simp [bit, h0, h1]

/-! ### File changes -/

/-- Add and Mod carry all three payload fields, Del none. -/
def FileChange.payloadOk (c : FileChange) : Prop :=
  if c.op = .del then c.blob = none ∧ c.size = none ∧ c.exec = none
  else c.blob.isSome ∧ c.size.isSome ∧ c.exec.isSome

def FileChange.Decodable (c : FileChange) : Prop :=
  c.path.utf8ByteSize ≤ maxObjectBytes ∧ c.payloadOk

def writePayload (blob : Option ObjectId) (size : Option UInt64) (exec : Option Bool) : Bytes :=
  match blob, size, exec with
  | some blob, some size, some exec => blob.bytes ++ leBytes 8 size.toNat ++ [bit exec]
  | _, _, _ => []

def FileChange.written (c : FileChange) : Bytes :=
  writeStr c.path ++ [opTag c.op] ++ writePayload c.blob c.size c.exec

theorem FileChange.encode_eq_ok {c : FileChange} {b : Bytes} :
    c.encode = .ok b ↔ c.payloadOk ∧ b = c.written := by
  obtain ⟨path, op, blob, size, exec⟩ := c
  by_cases hop : op = .del
  · cases blob <;> cases size <;> cases exec <;>
      simp [FileChange.encode, payloadOk, written, writePayload, hop, eq_comm]
  · cases blob <;> cases size <;> cases exec <;>
      simp [FileChange.encode, payloadOk, written, writePayload, hop, eq_comm]

theorem codes_fileChange : Codes FileChange.Decodable FileChange.written FileChange.read := by
  have hpayload : ∀ path op, Codes (fun c : FileChange => c.path = path ∧ c.op = op ∧ c.payloadOk)
      (fun c => writePayload c.blob c.size c.exec)
      (if op = .del then pure ⟨path, op, none, none, none⟩
        else do
          let blob ← take32
          let size ← u64le
          let exec ← tagged boolOfTag
          pure ⟨path, op, some blob, some size, some exec⟩) := by
    intro path op
    by_cases hop : op = .del
    · rw [if_pos hop]
      refine (Codes.pure _).congr (fun c => ?_) fun c hc => by rw [hc]; rfl
      obtain ⟨p, o, blob, size, exec⟩ := c
      simp only [FileChange.mk.injEq, FileChange.payloadOk]
      constructor
      · rintro ⟨rfl, rfl, rfl, rfl, rfl⟩
        simp [hop]
      · rintro ⟨rfl, rfl, hc⟩
        rw [if_pos hop] at hc
        exact ⟨rfl, rfl, hc⟩
    · rw [if_neg hop]
      refine (codes_take32.field (fun c : FileChange => c.blob.getD default)
        (fun blob _ => codes_u64le.field (fun c : FileChange => c.size.getD 0)
          (fun size _ => (codes_tagged boolOfTag_eq_some).field
            (fun c : FileChange => c.exec.getD false)
            (fun exec _ => Codes.pure _) ?_) ?_) ?_).congr (fun c => ?_) fun c hc => ?_
      · rintro exec c rfl
        rfl
      · rintro size c ⟨-, hc⟩
        rw [hc]
        rfl
      · rintro blob c ⟨-, -, hc⟩
        rw [hc]
        rfl
      · obtain ⟨p, o, blob, size, exec⟩ := c
        simp only [FileChange.mk.injEq, FileChange.payloadOk, true_and]
        constructor
        · rintro ⟨rfl, rfl, hblob, hsize, hexec⟩
          rw [if_neg hop, hblob, hsize, hexec]
          exact ⟨rfl, rfl, rfl, rfl, rfl⟩
        · rintro ⟨rfl, rfl, hc⟩
          rw [if_neg hop, Option.isSome_iff_exists, Option.isSome_iff_exists,
            Option.isSome_iff_exists] at hc
          obtain ⟨⟨_, rfl⟩, ⟨_, rfl⟩, _, rfl⟩ := hc
          exact ⟨rfl, rfl, rfl, rfl, rfl⟩
      · obtain ⟨-, -, -, hc⟩ := hc
        rw [hc]
        simp [writePayload]
  refine (codes_strField.field FileChange.path (fun path _ =>
    (codes_tagged opOfTag_eq_some).field FileChange.op (fun op _ => hpayload path op) ?_) ?_).congr
    (fun c => ?_) fun c _ => ?_
  · rintro op c ⟨-, hop, -⟩
    exact hop
  · rintro path c ⟨-, hpath, -⟩
    exact hpath
  · simp [FileChange.Decodable]
  · simp [FileChange.written]

/-! ### Conflict representations -/

theorem codes_readExec (hasExec : Bool) :
    Codes (fun e => hasExec = false → e = false) (fun e => if hasExec then [bit e] else [])
      (readExec hasExec) := by
  cases hasExec with
  | false => exact (Codes.pure false).congr (fun e => by simp) fun _ _ => rfl
  | true => exact (codes_tagged boolOfTag_eq_some).congr (fun e => by simp) fun _ _ => rfl

theorem codes_readSide (hasExec : Bool) :
    Codes (fun s => hasExec = false → s.2 = false) (writeSide hasExec) (readSide hasExec) := by
  refine (codes_take32.field Prod.fst (fun side _ => (codes_readExec hasExec).field Prod.snd
    (fun exec _ => Codes.pure (side, exec)) ?_) ?_).congr (fun s => ?_) fun s _ => ?_
  · rintro exec s rfl
    rfl
  · rintro side s ⟨-, hs⟩
    rw [hs]
  · simp
  · simp [writeSide]

theorem codes_readBase (hasBase hasExec : Bool) :
    Codes (fun b => b.isSome = hasBase ∧ ∀ s ∈ b, hasExec = false → s.2 = false)
      (fun b => match b with | some s => writeSide hasExec s | none => [])
      (readBase hasBase hasExec) := by
  cases hasBase with
  | false =>
      refine (Codes.pure none).congr (fun b => ?_) fun b hb => by rw [hb]
      cases b <;> simp
  | true =>
      refine (codes_readSide hasExec).bind (fun s _ => Codes.pure (some s)) (fun b => ?_) ?_
      · cases b <;> simp
      · rintro s b - rfl
        exact (List.append_nil _).symm

/-- A rep that a frame can hold: its side count fits, and the exec bits are
those of what it has. -/
structure ConflictRep.Decodable (rep : ConflictRep) : Prop where
  path : rep.path.utf8ByteSize ≤ maxObjectBytes
  count : rep.sides.length < 2 ^ 32
  sides : (if rep.deleted then 1 else 2) ≤ rep.sides.length
  parallel : rep.sidesExec.length = rep.sides.length
  baseExec : rep.base = none → rep.baseExec = false

theorem flags_bits (rep : ConflictRep) :
    ¬ 7 < rep.flags ∧ (rep.flags &&& 1 == 1) = rep.base.isSome ∧
      (rep.flags &&& 2 == 2) = rep.deleted ∧ (rep.flags &&& 4 == 4) = rep.hasExec := by
  unfold ConflictRep.flags
  generalize rep.base.isSome = b
  generalize rep.deleted = d
  generalize rep.hasExec = e
  revert b d e
  decide

/-- Three bits are the whole flags byte. -/
theorem eq_of_bits {flags : UInt8} (h : ¬ 7 < flags) :
    bit (flags &&& 1 == 1) ||| (bit (flags &&& 2 == 2) <<< 1) ||| (bit (flags &&& 4 == 4) <<< 2)
      = flags := by
  have hall : ∀ n < 8, bit (UInt8.ofNat n &&& 1 == 1) ||| (bit (UInt8.ofNat n &&& 2 == 2) <<< 1)
      ||| (bit (UInt8.ofNat n &&& 4 == 4) <<< 2) = UInt8.ofNat n := by decide
  have hlt : flags.toNat < 8 := by
    have := UInt8.not_lt.mp h
    rw [UInt8.le_iff_toNat_le] at this
    exact Nat.lt_succ_of_le this
  simpa using hall flags.toNat hlt

theorem zip_map_fst_snd {α β : Type} (l : List (α × β)) :
    (l.map (·.1)).zip (l.map (·.2)) = l := by
  rw [List.zip_map']
  simp

/-- The exec flag a rep is read under is the one it is written with. -/
theorem hasExec_of_read {rep : ConflictRep} {hasExec : Bool}
    (hbase : ∀ s ∈ rep.base.map (·, rep.baseExec), hasExec = false → s.2 = false)
    (hsides : ∀ s ∈ rep.sides.zip rep.sidesExec, hasExec = false → s.2 = false)
    (hany : ¬ (hasExec = true ∧ ¬ ((rep.base.map (·, rep.baseExec)).any (·.2) = true ∨
      (rep.sides.zip rep.sidesExec).any (·.2) = true)))
    (hbaseExec : rep.baseExec = (rep.base.map (·, rep.baseExec)).any (·.2))
    (hsidesExec : rep.sidesExec = (rep.sides.zip rep.sidesExec).map (·.2)) :
    rep.hasExec = hasExec := by
  have heq : rep.hasExec = ((rep.base.map (·, rep.baseExec)).any (·.2) ||
      (rep.sides.zip rep.sidesExec).any (·.2)) := by
    rw [ConflictRep.hasExec, ← hbaseExec]
    conv_lhs => rw [hsidesExec]
    rw [List.any_map]
    rfl
  rw [heq]
  cases hasExec with
  | true =>
      rw [Bool.or_eq_true]
      exact not_not.mp fun h => hany ⟨rfl, h⟩
  | false =>
      rw [Bool.or_eq_false_iff]
      refine ⟨?_, List.any_eq_false.mpr fun s hs => by rw [hsides s hs rfl]; decide⟩
      cases hb : rep.base with
      | none => rfl
      | some base =>
          rw [hb] at hbase
          exact hbase _ rfl rfl

theorem hasExec_false {rep : ConflictRep} (h : rep.hasExec = false) :
    rep.baseExec = false ∧ ∀ e ∈ rep.sidesExec, e = false := by
  rw [ConflictRep.hasExec, Bool.or_eq_false_iff, List.any_eq_false] at h
  exact ⟨h.1, fun e he => by simpa using h.2 e he⟩

theorem hasExec_true {rep : ConflictRep} (h : rep.hasExec = true) :
    rep.baseExec = true ∨ true ∈ rep.sidesExec := by
  rw [ConflictRep.hasExec, Bool.or_eq_true, List.any_eq_true] at h
  rcases h with h | ⟨e, he, htrue⟩
  · exact .inl h
  · exact .inr (by rwa [← show e = true from htrue])

theorem codes_conflictRep :
    Codes ConflictRep.Decodable ConflictRep.encode ConflictRep.read := by
  refine (codes_strField.field ConflictRep.path (fun path _ =>
    codes_u8.field ConflictRep.flags (fun flags _ => Codes.rejectIf fun h7 =>
      (codes_readBase (flags &&& 1 == 1) (flags &&& 4 == 4)).field
        (fun rep : ConflictRep => rep.base.map (·, rep.baseExec)) (fun base hbase =>
        codes_u32le.field (fun rep : ConflictRep => rep.sides.length) (fun count _ =>
          Codes.rejectIf fun hmin =>
            ((codes_readSide (flags &&& 4 == 4)).replicate count).field
              (fun rep : ConflictRep => rep.sides.zip rep.sidesExec) (fun sides hsides =>
              Codes.rejectIf fun hany => Codes.pure _) ?_) ?_) ?_) ?_) ?_).congr
    (fun rep => ?_) fun rep _ => ?_
  · rintro sides rep ⟨-, hrep⟩
    rw [hrep]
    exact zip_map_fst_snd sides
  · rintro count rep ⟨-, ⟨hzip, -⟩, -, hrep⟩
    rw [hrep]
    simpa using hzip
  · rintro base rep ⟨-, -, -, -, hrep⟩
    rw [hrep]
    cases base with
    | none => rfl
    | some s => rfl
  · rintro flags rep ⟨h7, ⟨hbit, hbase⟩, -, -, ⟨-, hsides⟩, hany, hrep⟩
    have hexec := hasExec_of_read hbase hsides hany (congrArg ConflictRep.baseExec hrep)
      (congrArg ConflictRep.sidesExec hrep)
    have hdeleted : rep.deleted = (flags &&& 2 == 2) := congrArg ConflictRep.deleted hrep
    have hbits := eq_of_bits h7
    rw [← hexec, ← hdeleted, ← hbit, Option.isSome_map] at hbits
    exact hbits
  · rintro path rep ⟨-, -, -, -, -, -, -, hrep⟩
    rw [hrep]
  · obtain ⟨h7, hbase, hdeleted, hexec⟩ := flags_bits rep
    rw [hbase, hdeleted, hexec]
    constructor
    · rintro ⟨hpath, -, -, -, hcount, hmin, ⟨hzip, -⟩, -, hrep⟩
      refine ⟨hpath, hcount, not_lt.mp hmin, ?_, fun hnone => ?_⟩
      · rw [congrArg ConflictRep.sidesExec hrep, List.length_map, hzip]
      · rw [congrArg ConflictRep.baseExec hrep, hnone]
        rfl
    · intro hdec
      have hsnd : (rep.sides.zip rep.sidesExec).map (·.2) = rep.sidesExec :=
        List.map_snd_zip (le_of_eq hdec.parallel)
      have hfst : (rep.sides.zip rep.sidesExec).map (·.1) = rep.sides :=
        List.map_fst_zip (le_of_eq hdec.parallel.symm)
      have hbaseExec : (rep.base.map (·, rep.baseExec)).any (·.2) = rep.baseExec := by
        cases hb : rep.base with
        | none => exact (hdec.baseExec hb).symm
        | some base => rfl
      refine ⟨hdec.path, trivial, h7, ⟨Option.isSome_map, fun s hs hfalse => ?_⟩, hdec.count,
        not_lt.mpr hdec.sides, ⟨?_, fun s hs hfalse => ?_⟩, fun hnone => hnone.2 ?_, ?_⟩
      · obtain ⟨base, -, rfl⟩ := Option.mem_map.mp hs
        exact (hasExec_false hfalse).1
      · rw [List.length_zip, hdec.parallel, Nat.min_self]
      · refine (hasExec_false hfalse).2 _ ?_
        rw [← hsnd]
        exact List.mem_map_of_mem hs
      · rw [hbaseExec, List.any_eq_true]
        refine (hasExec_true hnone.1).imp id fun hmem => ?_
        rw [← hsnd] at hmem
        obtain ⟨s, hs, htrue⟩ := List.mem_map.mp hmem
        exact ⟨s, hs, htrue⟩
      · rw [hbaseExec, hsnd, hfst]
        have hmap : (rep.base.map (·, rep.baseExec)).map (·.1) = rep.base := by
          cases rep.base <;> rfl
        rw [hmap]
  · obtain ⟨-, -, -, hexec⟩ := flags_bits rep
    rw [hexec, ConflictRep.encode]
    cases rep.base <;> simp

/-! ### Changesets -/

@[simp] theorem length_writeStr (s : String) : (writeStr s).length = 8 + s.utf8ByteSize := by
  rw [writeStr, List.length_append, length_leBytes, length_utf8]

theorem length_written (c : FileChange) : 9 ≤ c.written.length := by
  simp only [FileChange.written, List.length_append, length_writeStr, List.length_singleton]
  omega

theorem length_writeSide (hasExec : Bool) (s : ObjectId × Bool) :
    (writeSide hasExec s).length = 32 + if hasExec then 1 else 0 := by
  rw [writeSide, List.length_append, s.1.length_bytes]
  cases hasExec <;> rfl

theorem length_flatMap_writeSide (hasExec : Bool) (l : List (ObjectId × Bool)) :
    (l.flatMap (writeSide hasExec)).length = l.length * (32 + if hasExec then 1 else 0) := by
  induction l with
  | nil => simp
  | cons s l ih =>
      rw [List.flatMap_cons, List.length_append, ih, length_writeSide, List.length_cons,
        Nat.succ_mul, Nat.add_comm]

theorem length_conflict_encode {rep : ConflictRep} (h : rep.Decodable) :
    45 ≤ rep.encode.length := by
  have hmin := h.sides
  have hside : 1 ≤ rep.sides.length := by
    refine le_trans ?_ hmin
    split_ifs <;> omega
  have hsides : 32 ≤ ((rep.sides.zip rep.sidesExec).flatMap (writeSide rep.hasExec)).length := by
    rw [length_flatMap_writeSide, List.length_zip, h.parallel, Nat.min_self]
    exact Nat.le_trans (by omega) (Nat.mul_le_mul hside (Nat.le_add_right 32 _))
  simp only [ConflictRep.encode, List.length_append, length_writeStr, length_leBytes,
    List.length_singleton]
  omega

theorem codes_conflicts (isV2 : Bool) :
    Codes (fun l : List ConflictRep => isV2 = decide (l ≠ []) ∧ l.length < 2 ^ 32 ∧
      ∀ rep ∈ l, rep.Decodable) encodeConflicts (readConflicts isV2) := by
  cases isV2 with
  | false =>
      refine (Codes.pure []).congr (fun l => ?_) fun l hl => by rw [hl]; rfl
      constructor
      · rintro rfl
        simp
      · rintro ⟨hl, -⟩
        simpa using hl.symm
  | true =>
      have hcount : Codes (fun n => n < 2 ^ 32 ∧ n ≠ 0) (leBytes 4) (do
          let count ← u32le
          Reader.rejectIf (count = 0) .decodeEmptyConflictSection
          pure count) := by
        refine (codes_u32le.field (fun n => n) (fun n _ => Codes.rejectIf fun _ =>
          Codes.pure n) fun n m hm => hm.2).congr (fun n => by simp) fun n _ => by simp
      refine (hcount.counted 45 .decodeTooLarge codes_conflictRep
        fun rep => length_conflict_encode).congr (fun l => ?_) fun l hl => ?_
      · simp only [ne_eq, List.length_eq_zero_iff, and_assoc]
        constructor
        · rintro ⟨hlen, hne, hall⟩
          exact ⟨by simpa using hne, hlen, hall⟩
        · rintro ⟨hne, hlen, hall⟩
          exact ⟨hlen, by simpa using hne, hall⟩
      · have hne : l ≠ [] := fun h => hl.1.2 (by rw [h]; rfl)
        rw [encodeConflicts, if_neg hne]

theorem codes_parents :
    Codes (fun l : List ObjectId => l.length ≤ maxParents)
      (fun l => [UInt8.ofNat l.length] ++ l.flatMap (·.bytes)) readParents := by
  have hsmall : ∀ n, n ≤ maxParents → (UInt8.ofNat n).toNat = n := by
    intro n hn
    rw [maxParents] at hn
    rw [UInt8.toNat_ofNat']
    omega
  refine codes_u8.bind (fun count _ => Codes.rejectIf fun _ =>
    codes_take32.replicate count.toNat) (fun l => ?_) fun count l _ hl => ?_
  · constructor
    · intro hl
      refine ⟨UInt8.ofNat l.length, trivial, ?_, (hsmall _ hl).symm, fun _ _ => trivial⟩
      rw [hsmall _ hl]
      exact not_lt.mpr hl
    · rintro ⟨count, -, hmax, hlen, -⟩
      rw [hlen]
      exact not_lt.mp hmax
  · rw [hl.2.1, UInt8.ofNat_toNat]

theorem codes_magic :
    Codes (fun _ : Bool => True) (fun isV2 => if isV2 then magicV2 else magicV1) readMagic := by
  have hne : magicV1 ≠ magicV2 := by decide
  refine (Codes.take _ 17).bind (P := fun magic isV2 => magic = if isV2 then magicV2 else magicV1)
    (w := fun _ _ => []) (fun magic _ => ?_) (fun isV2 => ?_) fun magic isV2 _ h => ?_
  · by_cases h1 : magic = magicV1
    · rw [if_pos h1]
      refine (Codes.pure false).congr (fun isV2 => ?_) fun _ _ => rfl
      cases isV2 <;> simp [h1, hne]
    · rw [if_neg h1]
      by_cases h2 : magic = magicV2
      · rw [if_pos h2]
        refine (Codes.pure true).congr (fun isV2 => ?_) fun _ _ => rfl
        cases isV2 <;> simp [h2, hne.symm]
      · rw [if_neg h2]
        refine (Codes.fail _).congr (fun isV2 => ?_) fun _ _ => rfl
        cases isV2 <;> simp [h1, h2]
  · cases isV2 <;> simp <;> decide
  · rw [h, List.append_nil]

/-- A changeset that a frame can hold. -/
structure Changeset.Decodable (cs : Changeset) : Prop where
  parents : cs.parents.length ≤ maxParents
  author : cs.author.utf8ByteSize ≤ maxObjectBytes
  message : cs.message.utf8ByteSize ≤ maxObjectBytes
  changeCount : cs.changes.length < 2 ^ 32
  changes : ∀ c ∈ cs.changes, c.Decodable
  conflictCount : cs.conflicts.length < 2 ^ 32
  conflicts : ∀ rep ∈ cs.conflicts, rep.Decodable

/-- The frame of a changeset, whether or not `encode` gives it out. -/
def Changeset.written (cs : Changeset) : Bytes :=
  cs.encodeHeader ++ cs.changes.flatMap (·.written) ++ encodeConflicts cs.conflicts

theorem codes_changeset : Codes Changeset.Decodable Changeset.written Changeset.read := by
  refine (codes_magic.field (fun cs : Changeset => decide (cs.conflicts ≠ [])) (fun isV2 _ =>
    codes_u64le.field (fun cs : Changeset => cs.repoId) (fun repoId _ =>
    codes_parents.field (fun cs : Changeset => cs.parents) (fun parents _ =>
    codes_strField.field (fun cs : Changeset => cs.author) (fun author _ =>
    codes_strField.field (fun cs : Changeset => cs.message) (fun message _ =>
    codes_u64le.field (fun cs : Changeset => cs.timestampNs) (fun timestampNs _ =>
    (codes_u32le.counted 9 .decodeTooLarge codes_fileChange
      fun c _ => length_written c).field (fun cs : Changeset => cs.changes) (fun changes _ =>
    (codes_conflicts isV2).field (fun cs : Changeset => cs.conflicts) (fun conflicts _ =>
      Codes.pure _) ?_) ?_) ?_) ?_) ?_) ?_) ?_) ?_).congr (fun cs => ?_) fun cs _ => ?_
  · rintro conflicts cs rfl
    rfl
  · rintro changes cs ⟨-, hcs⟩
    rw [hcs]
  · rintro timestampNs cs ⟨-, -, hcs⟩
    rw [hcs]
  · rintro message cs ⟨-, -, -, hcs⟩
    rw [hcs]
  · rintro author cs ⟨-, -, -, -, hcs⟩
    rw [hcs]
  · rintro parents cs ⟨-, -, -, -, -, hcs⟩
    rw [hcs]
  · rintro repoId cs ⟨-, -, -, -, -, -, hcs⟩
    rw [hcs]
  · rintro isV2 cs ⟨-, -, -, -, -, -, ⟨hv2, -⟩, -⟩
    exact hv2.symm
  · constructor
    · rintro ⟨-, -, hparents, hauthor, hmessage, -, ⟨hcount, hchanges⟩, ⟨-, hreps, hconflicts⟩, -⟩
      exact ⟨hparents, hauthor, hmessage, hcount, hchanges, hreps, hconflicts⟩
    · intro h
      exact ⟨trivial, trivial, h.parents, h.author, h.message, trivial,
        ⟨h.changeCount, h.changes⟩, ⟨rfl, h.conflictCount, h.conflicts⟩, rfl⟩
  · rw [Changeset.written, Changeset.encodeHeader]
    by_cases hnil : cs.conflicts = [] <;> simp [hnil]

/-- What `decode` accepts, and as what. -/
theorem Changeset.decode_eq_ok {bytes : Bytes} {cs : Changeset} :
    Changeset.decode bytes = .ok cs ↔ cs.Decodable ∧ bytes = cs.written :=
  codes_changeset.whole _

theorem mapM_encode_eq_ok {changes : List FileChange} {out : List Bytes} :
    changes.mapM (·.encode) = .ok out ↔
      (∀ c ∈ changes, c.payloadOk) ∧ out = changes.map (·.written) := by
  induction changes generalizing out with
  | nil =>
      rw [List.mapM_nil]
      simp [pure, Except.pure, eq_comm]
  | cons c changes ih =>
      rw [List.mapM_cons, List.forall_mem_cons, List.map_cons]
      constructor
      · intro h
        obtain ⟨b, hb, h⟩ := Lib.bind_eq_ok.mp h
        obtain ⟨bs, hbs, h⟩ := Lib.bind_eq_ok.mp h
        cases h
        obtain ⟨hpayload, rfl⟩ := FileChange.encode_eq_ok.mp hb
        obtain ⟨hall, rfl⟩ := ih.mp hbs
        exact ⟨⟨hpayload, hall⟩, rfl⟩
      · rintro ⟨⟨hpayload, hall⟩, rfl⟩
        rw [FileChange.encode_eq_ok.mpr ⟨hpayload, rfl⟩, ih.mpr ⟨hall, rfl⟩]
        rfl

/-- The rules of `changeset::encode` that no reader asks for. -/
structure Changeset.Canonical (nfc : String → String) (cs : Changeset) : Prop where
  sorted : BytesAscend (cs.changes.map (·.path))
  conflicts : validateConflicts nfc (cs.conflicts.map (·.value)) = .ok ()
  size : cs.written.length ≤ maxObjectBytes

/-- What `encode` gives out. -/
theorem Changeset.encode_eq_ok {nfc : String → String} {cs : Changeset} {bytes : Bytes} :
    cs.encode nfc = .ok bytes ↔
      cs.parents.length ≤ maxParents ∧ (∀ c ∈ cs.changes, c.payloadOk) ∧ cs.Canonical nfc ∧
        bytes = cs.written := by
  have hout : ∀ changes, changes = cs.changes.map (·.written) →
      cs.encodeHeader ++ changes.flatten ++ encodeConflicts cs.conflicts = cs.written := by
    rintro _ rfl
    rw [Changeset.written, List.flatMap_def]
  unfold Changeset.encode
  constructor
  · intro h
    split_ifs at h with hparents hsorted
    obtain ⟨u, hconflicts, h⟩ := Lib.bind_eq_ok.mp h
    obtain ⟨changes, hchanges, h⟩ := Lib.bind_eq_ok.mp h
    obtain ⟨hpayload, hmap⟩ := mapM_encode_eq_ok.mp hchanges
    rw [hout changes hmap] at h
    change (if maxObjectBytes < cs.written.length then _ else _) = _ at h
    split_ifs at h with hsize
    cases h
    exact ⟨not_lt.mp hparents, hpayload, ⟨hsorted, hconflicts, not_lt.mp hsize⟩, rfl⟩
  · rintro ⟨hparents, hpayload, hcanonical, rfl⟩
    rw [if_neg (not_lt.mpr hparents), if_neg (not_not.mpr hcanonical.sorted), hcanonical.conflicts,
      mapM_encode_eq_ok.mpr ⟨hpayload, rfl⟩]
    simp only [bind, Except.bind]
    rw [hout _ rfl, if_neg (not_lt.mpr hcanonical.size)]

theorem length_le_flatMap {α β : Type} {f : α → List β} {l : List α} {a : α} (h : a ∈ l) :
    (f a).length ≤ (l.flatMap f).length := by
  rw [List.flatMap_def]
  exact (List.sublist_flatten_of_mem (List.mem_map_of_mem h)).length_le

theorem length_mul_le_flatMap {α β : Type} {f : α → List β} {l : List α} {n : ℕ}
    (h : ∀ a ∈ l, n ≤ (f a).length) : l.length * n ≤ (l.flatMap f).length := by
  induction l with
  | nil => simp
  | cons a l ih =>
      obtain ⟨ha, hl⟩ := List.forall_mem_cons.mp h
      have hrest := ih hl
      rw [List.flatMap_cons, List.length_append, List.length_cons, Nat.succ_mul]
      omega

theorem shapeOk_decodable {rep : ConflictRep} (h : rep.value.shapeOk = true) :
    (if rep.deleted then 1 else 2) ≤ rep.sides.length ∧
      rep.sidesExec.length = rep.sides.length ∧ (rep.base = none → rep.baseExec = false) := by
  simp only [Naatre.ConflictRep.shapeOk, ConflictRep.value, Bool.not_eq_true',
    Bool.or_eq_false_iff] at h
  obtain ⟨⟨⟨⟨hmin, hpar⟩, hbase⟩, -⟩, -⟩ := h
  refine ⟨not_lt.mp (of_decide_eq_false hmin), not_not.mp (of_decide_eq_false hpar), ?_⟩
  intro hnone
  rw [hnone] at hbase
  simpa using hbase

theorem length_le_encodeConflicts {conflicts : List ConflictRep} {rep : ConflictRep}
    (h : rep ∈ conflicts) : rep.encode.length ≤ (encodeConflicts conflicts).length := by
  rw [encodeConflicts, if_neg (List.ne_nil_of_mem h), List.length_append]
  have hlen : rep.encode.length ≤ (conflicts.flatMap (·.encode)).length := length_le_flatMap h
  omega

/-- Whatever `encode` gives out, a reader takes. -/
theorem Changeset.Canonical.decodable {nfc : String → String} {cs : Changeset}
    (h : cs.Canonical nfc) (hparents : cs.parents.length ≤ maxParents)
    (hpayload : ∀ c ∈ cs.changes, c.payloadOk) : cs.Decodable := by
  have hsize := h.size
  obtain ⟨hreps, -, hvalid⟩ := validateConflicts_ok.mp h.conflicts
  have hcount : cs.changes.length * 9 ≤ (cs.changes.flatMap (·.written)).length :=
    length_mul_le_flatMap fun c _ => length_written c
  have hmax : maxObjectBytes < 2 ^ 32 := by decide
  have hentries : maxEntries < 2 ^ 32 := by decide
  simp only [Changeset.written, Changeset.encodeHeader, List.length_append, length_writeStr]
    at hsize
  refine ⟨hparents, by omega, by omega, by omega, fun c hc => ⟨?_, hpayload c hc⟩, ?_, ?_⟩
  · have hlen : c.written.length ≤ (cs.changes.flatMap (·.written)).length :=
      length_le_flatMap hc
    rw [FileChange.written, List.length_append, List.length_append, length_writeStr] at hlen
    omega
  · rw [List.length_map] at hreps
    omega
  · intro rep hrep
    have hlen := length_le_encodeConflicts hrep
    obtain ⟨-, hsides, hshape⟩ := hvalid _ (List.mem_map_of_mem hrep)
    obtain ⟨hmin, hpar, hbase⟩ := shapeOk_decodable hshape
    have hcountSides : rep.sides.length ≤ maxEntries := hsides
    simp only [ConflictRep.encode, List.length_append, length_writeStr] at hlen
    exact ⟨by omega, by omega, hmin, hpar, hbase⟩

/-! ### Trees -/

def TreeEntry.Decodable (e : TreeEntry) : Prop :=
  e.name.utf8ByteSize ≤ maxObjectBytes ∧ (e.kind = .dir → e.exec = false)

theorem TreeEntry.encode_eq {e : TreeEntry} (h : e.kind = .dir → e.exec = false) :
    e.encode = writeStr e.name ++ [kindTag e.kind] ++ e.object.bytes ++ leBytes 8 e.size.toNat
      ++ [bit e.exec] := by
  cases hkind : e.kind with
  | file => rw [TreeEntry.encode, hkind]
  | dir =>
      rw [TreeEntry.encode, hkind, h hkind]
      rfl

theorem length_tree_encode (e : TreeEntry) : e.encode.length = 50 + e.name.utf8ByteSize := by
  simp only [TreeEntry.encode, List.length_append, length_writeStr, length_leBytes,
    e.object.length_bytes, List.length_singleton]
  omega

theorem codes_treeEntry : Codes TreeEntry.Decodable TreeEntry.encode TreeEntry.read := by
  refine (codes_strField.field (fun e : TreeEntry => e.name) (fun name _ =>
    (codes_tagged kindOfTag_eq_some).field (fun e : TreeEntry => e.kind) (fun kind _ =>
    codes_take32.field (fun e : TreeEntry => e.object) (fun object _ =>
    codes_u64le.field (fun e : TreeEntry => e.size) (fun size _ =>
    (codes_tagged (execOfTag_eq_some kind)).field (fun e : TreeEntry => e.exec) (fun exec _ =>
      Codes.pure _) ?_) ?_) ?_) ?_) ?_).congr (fun e => ?_) fun e he => ?_
  · rintro exec e rfl
    rfl
  · rintro size e ⟨-, he⟩
    rw [he]
  · rintro object e ⟨-, -, he⟩
    rw [he]
  · rintro kind e ⟨-, -, -, he⟩
    rw [he]
  · rintro name e ⟨-, -, -, -, he⟩
    rw [he]
  · constructor
    · rintro ⟨hname, -, -, -, hexec, -⟩
      exact ⟨hname, hexec⟩
    · rintro ⟨hname, hexec⟩
      exact ⟨hname, trivial, trivial, trivial, hexec, rfl⟩
  · rw [TreeEntry.encode_eq he.2.2.2.2.1]
    simp

structure Tree.Decodable (t : Tree) : Prop where
  count : t.entries.length < 2 ^ 32
  entries : ∀ e ∈ t.entries, e.Decodable

def Tree.written (t : Tree) : Bytes :=
  treeMagic ++ leBytes 4 t.entries.length ++ t.entries.flatMap (·.encode)

theorem codes_tree : Codes Tree.Decodable Tree.written Tree.read := by
  have hentries := codes_u32le.counted 50 .decodeTooLarge codes_treeEntry fun e _ => by
    rw [length_tree_encode]
    omega
  have hlen : treeMagic.length = 12 := by decide
  refine (Codes.take _ 12).bind (fun magic _ => Codes.rejectIf fun _ =>
    hentries.field (fun t : Tree => t.entries) (fun entries _ => Codes.pure (Tree.mk entries)) ?_)
    (fun t => ?_) ?_
  · rintro entries t rfl
    rfl
  · constructor
    · intro h
      exact ⟨treeMagic, hlen, fun hne => hne rfl, ⟨h.count, h.entries⟩, rfl⟩
    · rintro ⟨magic, -, -, ⟨hcount, hall⟩, -⟩
      exact ⟨hcount, hall⟩
  · rintro magic t - ⟨hmagic, -, -⟩
    rw [not_not.mp hmagic, Tree.written]
    simp

theorem Tree.decode_eq_ok {bytes : Bytes} {t : Tree} :
    Tree.decode bytes = .ok t ↔ t.Decodable ∧ bytes = t.written :=
  codes_tree.whole _

theorem Tree.encode_eq_ok {t : Tree} {bytes : Bytes} :
    t.encode = .ok bytes ↔ BytesAscend (t.entries.map (·.name)) ∧
      t.written.length ≤ maxObjectBytes ∧ bytes = t.written := by
  unfold Tree.encode
  change (if _ then _ else if maxObjectBytes < t.written.length then _
    else Except.ok t.written) = _ ↔ _
  by_cases hsorted : BytesAscend (t.entries.map (·.name))
  · by_cases hsize : maxObjectBytes < t.written.length
    · simp [hsorted, hsize]
    · simp [hsorted, hsize, not_lt.mp hsize, eq_comm]
  · simp [hsorted]

theorem Tree.decodable_of_size {t : Tree} (hsize : t.written.length ≤ maxObjectBytes)
    (hexec : ∀ e ∈ t.entries, e.kind = .dir → e.exec = false) : t.Decodable := by
  have hcount : t.entries.length * 50 ≤ (t.entries.flatMap (·.encode)).length :=
    length_mul_le_flatMap fun e _ => by
      rw [length_tree_encode]
      omega
  have hmax : maxObjectBytes < 2 ^ 32 := by decide
  rw [Tree.written, List.length_append] at hsize
  refine ⟨by omega, fun e he => ⟨?_, hexec e he⟩⟩
  have hlen : e.encode.length ≤ (t.entries.flatMap (·.encode)).length := length_le_flatMap he
  rw [length_tree_encode] at hlen
  omega

theorem validateEntries_ok {nfc : String → String} {entries : List TreeEntry} :
    validateEntries nfc entries = .ok () ↔ ∀ e ∈ entries,
      validateComponent nfc e.name = .ok () ∧ (e.kind = .dir → e.exec = false) := by
  induction entries with
  | nil => simp [validateEntries]
  | cons e entries ih =>
      rw [validateEntries, List.forall_mem_cons, ← ih]
      cases validateComponent nfc e.name with
      | error err => simp
      | ok u =>
          by_cases hdir : e.kind = .dir ∧ e.exec = true
          · simp [hdir]
          · rw [if_neg hdir]
            have hexec : e.kind = .dir → e.exec = false := fun hkind => by
              simpa using fun h => hdir ⟨hkind, h⟩
            exact ⟨fun h => ⟨⟨rfl, hexec⟩, h⟩, fun h => h.2⟩

end Naatre.Wire
