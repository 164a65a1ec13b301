import Naatre.Client.Scan

/-!
The binary stat index `.naatre/index.nai` (`naatre-cli/src/wc/index.rs`).

Here a row has the fields of the source, at their widths; `value` is the same
index as the classification keeps it. The slices of `decode` are reads that fail
with `outOfRange` where the source would panic; lengths are 64-bit.
-/

namespace Naatre.Client.IndexFile

open Lib Wire

/-- `Row`: an indexed file. -/
structure Row where
  path : String
  blob : ObjectId
  size : UInt64
  mtimeNs : Int64
  ctimeNs : Int64
  ino : UInt64
  exec : Bool
  deriving DecidableEq

def Row.value (row : Row) : Client.Row ObjectId :=
  { path := .ofText row.path
    blob := row.blob
    size := row.size.toNat
    mtimeNs := row.mtimeNs.toInt
    ctimeNs := row.ctimeNs.toInt
    ino := row.ino.toNat
    exec := row.exec }

/-! ### The map of rows -/

/-- `BTreeMap::insert`, in a list ascending by key. -/
def insertRow (key : String) (row : Row) : List (String × Row) → List (String × Row)
  | [] => [(key, row)]
  | e :: rows =>
      if key < e.1 then (key, row) :: e :: rows
      else if key = e.1 then (key, row) :: rows
      else e :: insertRow key row rows

theorem mem_insertRow {key : String} {row : Row} {rows : List (String × Row)} {e : String × Row}
    (h : e ∈ insertRow key row rows) : e = (key, row) ∨ e ∈ rows := by
  induction rows with
  | nil => exact .inl (List.mem_singleton.mp h)
  | cons f rows ih =>
      rw [insertRow] at h
      split_ifs at h
      · exact List.mem_cons.mp h
      · exact (List.mem_cons.mp h).imp_right fun h => List.mem_cons_of_mem _ h
      · rcases List.mem_cons.mp h with rfl | h
        · exact .inr List.mem_cons_self
        · exact (ih h).imp_right fun h => List.mem_cons_of_mem _ h

theorem insertRow_ascending {key : String} {row : Row} {rows : List (String × Row)}
    (h : rows.Pairwise fun a b => a.1 < b.1) :
    (insertRow key row rows).Pairwise fun a b => a.1 < b.1 := by
  induction rows with
  | nil => exact List.pairwise_singleton _ _
  | cons e rows ih =>
      obtain ⟨hhead, htail⟩ := List.pairwise_cons.mp h
      rw [insertRow]
      split_ifs with hlt heq
      · refine List.pairwise_cons.mpr ⟨fun f hf => ?_, h⟩
        rcases List.mem_cons.mp hf with rfl | hf
        · exact hlt
        · exact lt_trans hlt (hhead f hf)
      · exact List.pairwise_cons.mpr ⟨fun f hf => heq ▸ hhead f hf, htail⟩
      · refine List.pairwise_cons.mpr ⟨fun f hf => ?_, ih htail⟩
        rcases mem_insertRow hf with rfl | hf
        · exact lt_of_le_of_ne (not_lt.mp hlt) (Ne.symm heq)
        · exact hhead f hf

/-- A key above all others goes to the end. -/
theorem insertRow_last {key : String} {row : Row} {rows : List (String × Row)}
    (h : ∀ e ∈ rows, e.1 < key) : insertRow key row rows = rows ++ [(key, row)] := by
  induction rows with
  | nil => rfl
  | cons e rows ih =>
      obtain ⟨hhead, htail⟩ := List.forall_mem_cons.mp h
      rw [insertRow, if_neg (lt_asymm hhead), if_neg (ne_of_gt hhead), ih htail, List.cons_append]

/-- `Index`: rows keyed by path, ascending by the bytes of the key. -/
structure Index where
  rows : List (String × Row)
  ascending : rows.Pairwise fun a b => a.1 < b.1

theorem Index.ext {a b : Index} (h : a.rows = b.rows) : a = b := by
  cases a
  cases b
  cases h
  rfl

def Index.empty : Index := ⟨[], .nil⟩

def Index.insert (index : Index) (key : String) (row : Row) : Index :=
  ⟨insertRow key row index.rows, insertRow_ascending index.ascending⟩

def Index.value (index : Index) : Client.Index ObjectId where
  rows := index.rows.map fun e => (.ofText e.1, e.2.value)
  ascending := by
    rw [List.pairwise_map]
    refine index.ascending.imp fun {a b} h => ?_
    rw [Path.text_ofText, Path.text_ofText]
    exact h

/-! ### Writing -/

/-- `MAGIC`. -/
def magic : Bytes := utf8 "NAIidx"

/-- `FORMAT_VERSION`. -/
def formatVersion : UInt8 := 1

/-- A length goes out as its low 32 bits. -/
def Row.encode (row : Row) : Bytes :=
  leBytes 4 row.path.utf8ByteSize ++ utf8 row.path ++ row.blob.bytes ++
    leBytes 8 row.size.toNat ++ leBytes 8 row.mtimeNs.toUInt64.toNat ++
    leBytes 8 row.ctimeNs.toUInt64.toNat ++ leBytes 8 row.ino.toNat ++ [bit row.exec]

/-- `Index::encode`. -/
def Index.encode (index : Index) : Bytes :=
  magic ++ [formatVersion] ++ leBytes 4 index.rows.length ++
    (index.rows.map Prod.snd).flatMap Row.encode

/-! ### Reading -/

/-- `IndexError::Corrupt`, or a slice beyond the bytes. -/
inductive ReadFault
  | corrupt (why : String)
  | outOfRange
  deriving DecidableEq

abbrev Read (α : Type) := Reader ReadFault α

def slice (n : ℕ) : Read Bytes := Reader.take .outOfRange n

def blobAt : Read ObjectId := do
  let bytes ← slice 32
  if h : bytes.length = 32 then pure ⟨bytes, h⟩ else Reader.fail .outOfRange

def u64At : Read UInt64 := Reader.leUInt64 .outOfRange

def i64At : Read Int64 := do
  let n ← u64At
  pure n.toInt64

def execAt : Read Bool := do
  let bytes ← slice 1
  let byte := bytes.headD 0
  if byte = 0 then pure false
  else if byte = 1 then pure true
  else Reader.fail (.corrupt ("exec byte " ++ toString byte.toNat ++ " not 0/1"))

/-- What stands behind the path of a record. -/
def Row.readFields (path : String) : Read Row := do
  let blob ← blobAt
  let size ← u64At
  let mtimeNs ← i64At
  let ctimeNs ← i64At
  let ino ← u64At
  let exec ← execAt
  pure ⟨path, blob, size, mtimeNs, ctimeNs, ino, exec⟩

/-- The path of a record, after the row `prev`, and what stands behind it. -/
def Row.readPath (prev : Option Row) (plen : ℕ) : Read Row := do
  let pathBytes ← slice plen
  match String.fromUTF8? ⟨pathBytes.toArray⟩ with
  | none => Reader.fail (.corrupt "path is not UTF-8")
  | some path => do
      Reader.rejectIf ('\x00' ∈ path.toList) (.corrupt "path contains NUL")
      Reader.rejectIf (prev.any fun p => decide (pathBytes ≤ utf8 p.path))
        (.corrupt "records not strictly ascending by path")
      Row.readFields path

/-- One record. -/
def Row.read (prev : Option Row) : Read Row := do
  let left ← Reader.remaining
  Reader.rejectIf (left < 4) (.corrupt "truncated path length")
  let plen ← Reader.leNat .outOfRange 4
  let left ← Reader.remaining
  Reader.rejectIf (left < plen + 32 + 8 + 8 + 8 + 8 + 1) (.corrupt "truncated record")
  Row.readPath prev plen

/-- The header: how many records follow. -/
def readHeader : Read ℕ := do
  let left ← Reader.remaining
  Reader.rejectIf (left < 11) (.corrupt "shorter than the header")
  let found ← slice 6
  Reader.rejectIf (found ≠ magic) (.corrupt "bad magic")
  let version ← slice 1
  Reader.rejectIf (version ≠ [formatVersion])
    (.corrupt ("unknown format version " ++ toString (version.headD 0).toNat))
  Reader.leNat .outOfRange 4

def Index.read : Read (List Row) := do
  let count ← readHeader
  Reader.chain Row.read none count

/-- `Index::decode`. -/
def Index.decode (bytes : Bytes) : Except ReadFault Index :=
  match Index.read.whole (.corrupt "trailing bytes after the last record") bytes with
  | .error e => .error e
  | .ok rows => .ok (rows.foldl (fun index row => index.insert row.path row) .empty)

/-! ### What is accepted -/

theorem codes_i64At : Codes (fun _ => True) (fun n => leBytes 8 n.toUInt64.toNat) i64At := by
  refine (Codes.leUInt64 _).bind (fun n _ => Codes.pure n.toInt64) (fun n => ?_) ?_
  · exact ⟨fun _ => ⟨n.toUInt64, trivial, by simp⟩, fun _ => trivial⟩
  · rintro n _ - rfl
    simp

theorem codes_execAt : Codes (fun _ => True) (fun b => [bit b]) execAt := by
  refine (Codes.take _ 1).bind (P := fun bytes b => bytes = [bit b]) (w := fun _ _ => [])
    (fun bytes hlen => ?_) (fun b => ?_) fun bytes b _ hb => ?_
  · obtain ⟨x, rfl⟩ := List.length_eq_one_iff.mp hlen
    dsimp only [List.headD_cons]
    split_ifs with hzero hone
    · refine (Codes.pure false).congr (fun b => ?_) fun _ _ => rfl
      subst hzero
      cases b <;> simp [bit]
    · refine (Codes.pure true).congr (fun b => ?_) fun _ _ => rfl
      subst hone
      cases b <;> simp [bit]
    · refine (Codes.fail _).congr (fun b => ?_) fun _ _ => rfl
      cases b
      · simpa [bit] using hzero
      · simpa [bit] using hone
  · simp
  · rw [hb, List.append_nil]

/-- The bytes of a record behind its path. -/
def Row.fields (row : Row) : Bytes :=
  row.blob.bytes ++ leBytes 8 row.size.toNat ++ leBytes 8 row.mtimeNs.toUInt64.toNat ++
    leBytes 8 row.ctimeNs.toUInt64.toNat ++ leBytes 8 row.ino.toNat ++ [bit row.exec]

theorem Row.encode_eq (row : Row) :
    row.encode = leBytes 4 row.path.utf8ByteSize ++ (utf8 row.path ++ row.fields) := by
  simp only [Row.encode, Row.fields, List.append_assoc]

theorem length_fields (row : Row) : row.fields.length = 65 := by
  simp [Row.fields, row.blob.length_bytes]

theorem codes_readFields (path : String) :
    Codes (fun row : Row => row.path = path) Row.fields (Row.readFields path) := by
  refine ((codes_objectId _).field (fun row : Row => row.blob) (fun blob _ =>
    (Codes.leUInt64 _).field (fun row : Row => row.size) (fun size _ =>
    codes_i64At.field (fun row : Row => row.mtimeNs) (fun mtimeNs _ =>
    codes_i64At.field (fun row : Row => row.ctimeNs) (fun ctimeNs _ =>
    (Codes.leUInt64 _).field (fun row : Row => row.ino) (fun ino _ =>
    codes_execAt.field (fun row : Row => row.exec) (fun exec _ =>
      Codes.pure (Row.mk path blob size mtimeNs ctimeNs ino exec)) ?_) ?_) ?_) ?_) ?_) ?_).congr
      (fun row => ?_) fun row _ => ?_
  · rintro exec row rfl
    rfl
  · rintro ino row ⟨-, hrow⟩
    rw [hrow]
  · rintro ctimeNs row ⟨-, -, hrow⟩
    rw [hrow]
  · rintro mtimeNs row ⟨-, -, -, hrow⟩
    rw [hrow]
  · rintro size row ⟨-, -, -, -, hrow⟩
    rw [hrow]
  · rintro blob row ⟨-, -, -, -, -, hrow⟩
    rw [hrow]
  · constructor
    · rintro ⟨-, -, -, -, -, -, hrow⟩
      rw [hrow]
    · rintro rfl
      exact ⟨trivial, trivial, trivial, trivial, trivial, trivial, rfl⟩
  · simp [Row.fields]

/-- What a record can hold: a path without NUL whose length goes into 32 bits. -/
def Row.Fits (row : Row) : Prop :=
  '\x00' ∉ row.path.toList ∧ row.path.utf8ByteSize < 2 ^ 32

theorem codes_readPath (prev : Option Row) (plen : ℕ) :
    Codes (fun row => row.path.utf8ByteSize = plen ∧ '\x00' ∉ row.path.toList ∧
      ∀ p ∈ prev, p.path < row.path) (fun row => utf8 row.path ++ row.fields)
      (Row.readPath prev plen) := by
  refine (Codes.take _ plen).bind (P := fun bytes row => bytes = utf8 row.path ∧
    '\x00' ∉ row.path.toList ∧ ∀ p ∈ prev, p.path < row.path) (w := fun _ row => row.fields)
    (fun bytes hlen => ?_) (fun row => ?_) fun bytes row _ hrow => by rw [hrow.1]
  · cases hpath : String.fromUTF8? ⟨bytes.toArray⟩ with
    | none =>
        refine (Codes.fail _).congr (fun row => ?_) fun row hrow => hrow.elim
        rw [← fromUTF8_eq_some, hpath]
        simp
    | some path =>
        refine (Codes.rejectIf fun _ => Codes.rejectIf fun _ => codes_readFields path).congr
          (fun row => ?_) fun _ _ => rfl
        obtain rfl := fromUTF8_eq_some.mp hpath
        have horder : ¬ prev.any (fun p => decide (utf8 path ≤ utf8 p.path)) = true ↔
            ∀ p ∈ prev, p.path < path := by
          cases prev with
          | none => simp
          | some p =>
              rw [Option.any_some, decide_eq_true_iff, List.not_le, utf8_lt_iff]
              exact ⟨fun h q hq => Option.some.inj hq ▸ h, fun h => h p rfl⟩
        rw [horder, utf8_injective.eq_iff]
        constructor
        · rintro ⟨hnul, hprev, rfl⟩
          exact ⟨rfl, hnul, hprev⟩
        · rintro ⟨rfl, hnul, hprev⟩
          exact ⟨hnul, hprev, rfl⟩
  · constructor
    · rintro ⟨hlen, hrow⟩
      exact ⟨utf8 row.path, by rw [length_utf8, hlen], rfl, hrow⟩
    · rintro ⟨bytes, hlen, rfl, hrow⟩
      exact ⟨by rw [← length_utf8, hlen], hrow⟩

theorem codes_row (prev : Option Row) :
    Codes (fun row => (∀ p ∈ prev, p.path < row.path) ∧ row.Fits) Row.encode (Row.read prev) := by
  refine ((Codes.leNat _ 4).bind (fun plen _ => (codes_readPath prev plen).atLeast fun row hrow => ?_)
    (fun row => ?_) fun plen row _ hrow => ?_).atLeast fun row _ => ?_
  · rw [List.length_append, length_utf8, length_fields, hrow.1]
  · constructor
    · rintro ⟨hprev, hnul, hlen⟩
      exact ⟨row.path.utf8ByteSize, hlen, rfl, hnul, hprev⟩
    · rintro ⟨_, hlen, rfl, hnul, hprev⟩
      exact ⟨hprev, hnul, hlen⟩
  · rw [Row.encode_eq, hrow.1]
  · rw [Row.encode_eq, List.length_append, length_leBytes]
    omega

theorem codes_header : Codes (· < 2 ^ 32) (fun count => magic ++ [formatVersion] ++ leBytes 4 count)
    readHeader := by
  have hmagic : magic.length = 6 := by decide
  have hcount : Codes (· < 2 ^ 32) (leBytes 4) (Reader.leNat ReadFault.outOfRange 4) :=
    Codes.leNat _ 4
  refine Codes.atLeast ((Codes.take _ 6).bind (fun found _ => Codes.rejectIf fun _ =>
    show Codes (· < 2 ^ 32) (fun n => formatVersion :: leBytes 4 n) _ from (Codes.take _ 1).bind
      (fun version _ => Codes.rejectIf fun _ => hcount) (fun n => ?_) ?_) (fun n => ?_) ?_)
    fun n _ => ?_
  · exact ⟨fun hn => ⟨[formatVersion], rfl, fun hne => hne rfl, hn⟩, fun ⟨_, _, _, hn⟩ => hn⟩
  · rintro version n - ⟨hversion, -⟩
    rw [not_not.mp hversion, List.singleton_append]
  · exact ⟨fun hn => ⟨magic, hmagic, fun hne => hne rfl, hn⟩, fun ⟨_, _, _, hn⟩ => hn⟩
  · rintro found n - ⟨hfound, -⟩
    rw [not_not.mp hfound, List.append_assoc, List.singleton_append]
  · simp [hmagic]

/-- What decodes to rows: paths ascending, and counts that go into 32 bits. -/
structure RowsFit (rows : List Row) : Prop where
  count : rows.length < 2 ^ 32
  ascending : rows.IsChain fun a b => a.path < b.path
  fits : ∀ row ∈ rows, row.Fits

theorem codes_index : Codes RowsFit
    (fun rows => magic ++ [formatVersion] ++ leBytes 4 rows.length ++ rows.flatMap Row.encode)
    Index.read := by
  refine (codes_header.field List.length (fun count _ => Codes.chain codes_row none count)
    fun count rows hrows => hrows.1).congr (fun rows => ?_) fun rows _ => rfl
  constructor
  · rintro ⟨hcount, -, hchain, hfits⟩
    exact ⟨hcount, hchain, hfits⟩
  · rintro ⟨hcount, hchain, hfits⟩
    exact ⟨hcount, rfl, hchain, hfits⟩

/-! ### The codec -/

/-- Each row is at its own path, and no path holds a NUL. -/
def Index.Keyed (index : Index) : Prop :=
  ∀ e ∈ index.rows, e.1 = e.2.path ∧ '\x00' ∉ e.2.path.toList

/-- The counts go into 32 bits. -/
def Index.Fits (index : Index) : Prop :=
  index.rows.length < 2 ^ 32 ∧ ∀ e ∈ index.rows, e.2.path.utf8ByteSize < 2 ^ 32

/-- The map of ascending rows lists them. -/
theorem foldl_insert {rows : List Row} {index : Index}
    (h : (index.rows.map Prod.fst ++ rows.map Row.path).Pairwise (· < ·)) :
    (rows.foldl (fun index row => index.insert row.path row) index).rows =
      index.rows ++ rows.map fun row => (row.path, row) := by
  induction rows generalizing index with
  | nil => simp
  | cons row rows ih =>
      have hlast : (index.insert row.path row).rows = index.rows ++ [(row.path, row)] := by
        refine insertRow_last fun e he => ?_
        exact (List.pairwise_append.mp h).2.2 e.1 (List.mem_map_of_mem he) row.path
          List.mem_cons_self
      rw [List.foldl_cons, ih, hlast, List.append_assoc]
      · rfl
      · rw [hlast]
        simpa using h

theorem Index.decode_eq_ok {bytes : Bytes} {index : Index} :
    Index.decode bytes = .ok index ↔ index.Keyed ∧ index.Fits ∧ bytes = index.encode := by
  -- the map of the rows that were read
  have hmap : ∀ rows : List Row, RowsFit rows →
      (rows.foldl (fun index row => index.insert row.path row) Index.empty).rows =
        rows.map fun row => (row.path, row) := by
    intro rows hrows
    refine foldl_insert ?_
    rw [Index.empty, List.map_nil, List.nil_append, List.pairwise_map]
    exact List.isChain_iff_pairwise.mp hrows.ascending
  unfold Index.decode
  constructor
  · intro h
    split at h
    next => cases h
    next rows hwhole =>
      obtain ⟨hrows, rfl⟩ := (codes_index.whole _).mp hwhole
      have hindex := hmap rows hrows
      rw [Except.ok.inj h] at hindex
      refine ⟨fun e he => ?_, ⟨?_, fun e he => ?_⟩, ?_⟩
      · rw [hindex] at he
        obtain ⟨row, hrow, rfl⟩ := List.mem_map.mp he
        exact ⟨rfl, (hrows.fits row hrow).1⟩
      · rw [hindex, List.length_map]
        exact hrows.count
      · rw [hindex] at he
        obtain ⟨row, hrow, rfl⟩ := List.mem_map.mp he
        exact (hrows.fits row hrow).2
      · simp [Index.encode, hindex, Function.comp_def]
  · rintro ⟨hkeyed, hfits, rfl⟩
    have hpairs : (index.rows.map Prod.snd).map (fun row => (row.path, row)) = index.rows := by
      rw [List.map_map]
      conv_rhs => rw [← List.map_id index.rows]
      exact List.map_congr_left fun e he => Prod.ext (hkeyed e he).1.symm rfl
    have hrows : RowsFit (index.rows.map Prod.snd) := by
      refine ⟨by simpa using hfits.1, ?_, fun row hrow => ?_⟩
      · rw [List.isChain_iff_pairwise, List.pairwise_map]
        refine index.ascending.imp_of_mem fun {a b} ha hb h => ?_
        rw [(hkeyed a ha).1, (hkeyed b hb).1] at h
        exact h
      · obtain ⟨e, he, rfl⟩ := List.mem_map.mp hrow
        exact ⟨(hkeyed e he).2, hfits.2 e he⟩
    have hwhole : Index.read.whole (.corrupt "trailing bytes after the last record") index.encode =
        .ok (index.rows.map Prod.snd) := by
      rw [codes_index.whole]
      exact ⟨hrows, by rw [Index.encode, List.length_map]⟩
    rw [hwhole]
    refine congrArg Except.ok (Index.ext ?_)
    rw [hmap _ hrows, hpairs]

/-! ### Bounds -/

theorem within_execAt : Reader.Within .outOfRange 1 execAt := by
  refine (Reader.takes_take _ 1).within (m := 0) fun bytes => ?_
  dsimp only
  split_ifs
  · exact Reader.within_pure _
  · exact Reader.within_pure _
  · exact fun _ _ h => by cases h

theorem takes_blobAt : Reader.Takes 32 blobAt := by
  intro bytes hlen
  have htaken : (bytes.take 32).length = 32 := by
    rw [List.length_take]
    omega
  have hrun : (slice 32).run bytes = .ok (bytes.take 32, bytes.drop 32) := by
    show Reader.take _ 32 bytes = _
    rw [Reader.take, if_neg (by omega)]
  refine ⟨⟨bytes.take 32, htaken⟩, bytes.drop 32, ?_, List.length_drop⟩
  rw [blobAt, StateT.run_bind, hrun]
  show (if h : (bytes.take 32).length = 32 then pure ⟨bytes.take 32, h⟩
    else Reader.fail ReadFault.outOfRange : Read ObjectId).run (bytes.drop 32) = _
  rw [dif_pos htaken]
  rfl

theorem within_readFields (path : String) :
    Reader.Within .outOfRange (32 + (8 + (8 + (8 + (8 + 1))))) (Row.readFields path) :=
  takes_blobAt.within fun _ => (Reader.takes_leUInt64 _).within fun _ =>
    ((Reader.takes_leUInt64 _).map UInt64.toInt64).within fun _ =>
    ((Reader.takes_leUInt64 _).map UInt64.toInt64).within fun _ =>
    (Reader.takes_leUInt64 _).within fun _ => within_execAt.bind fun _ => Reader.within_pure _

theorem within_row (prev : Option Row) : Reader.Within .outOfRange 0 (Row.read prev) := by
  have hne : ∀ why, ReadFault.corrupt why ≠ .outOfRange := fun why h => by cases h
  refine Reader.within_remaining (hne _) ((Reader.takes_leNat _ 4).within (m := 0) fun plen => ?_)
  refine Reader.within_remaining (m := plen + (32 + (8 + (8 + (8 + (8 + 1)))))) (hne _) ?_
  refine (Reader.takes_take _ plen).within fun pathBytes => ?_
  cases String.fromUTF8? ⟨pathBytes.toArray⟩ with
  | none => exact fun _ _ h => by cases h
  | some path =>
      exact Reader.within_rejectIf (hne _) fun _ => Reader.within_rejectIf (hne _) fun _ =>
        within_readFields path

/-- No slice is beyond the bytes. -/
theorem Index.decode_within (bytes : Bytes) : Index.decode bytes ≠ .error .outOfRange := by
  have hne : ∀ why, ReadFault.corrupt why ≠ .outOfRange := fun why h => by cases h
  have hheader : Reader.Within .outOfRange 0 readHeader := by
    refine Reader.within_remaining (m := 6 + (1 + 4)) (hne _) ?_
    refine (Reader.takes_take _ 6).within fun found => Reader.within_rejectIf (hne _) fun _ => ?_
    refine (Reader.takes_take _ 1).within fun version => Reader.within_rejectIf (hne _) fun _ => ?_
    intro bytes hlen hrun
    obtain ⟨n, rest, hread, -⟩ := Reader.takes_leNat ReadFault.outOfRange 4 bytes hlen
    rw [hread] at hrun
    cases hrun
  have hread : Reader.Within .outOfRange 0 Index.read :=
    hheader.bind fun count => Reader.within_chain within_row none count
  intro h
  unfold Index.decode at h
  split at h
  next e hwhole =>
    cases h
    exact hread.whole (hne _) bytes hwhole
  next => cases h

/-- An index comes back exactly when its counts go into 32 bits, a file that is
accepted is written back byte for byte, and no file takes a slice beyond its
bytes. -/
theorem index_codec :
    (∀ index : Index, index.Keyed → (Index.decode index.encode = .ok index ↔ index.Fits)) ∧
      (∀ bytes index, Index.decode bytes = .ok index → index.encode = bytes) ∧
      ∀ bytes, Index.decode bytes ≠ .error .outOfRange := by
  refine ⟨fun index hkeyed => ?_, fun bytes index h => ?_, Index.decode_within⟩
  · rw [Index.decode_eq_ok]
    exact ⟨fun h => h.2.1, fun hfits => ⟨hkeyed, hfits, rfl⟩⟩
  · exact (Index.decode_eq_ok.mp h).2.2.symm

/-- An index of one file. -/
def oneFile (path : String) : Index :=
  ⟨[(path, ⟨path, default, 12, 1000, 2000, 42, false⟩)], List.pairwise_singleton _ _⟩

theorem index_codec_one :
    (oneFile "a.txt").Keyed ∧ Index.decode (oneFile "a.txt").encode = .ok (oneFile "a.txt") := by
  have hkeyed : (oneFile "a.txt").Keyed := by
    rintro e he
    cases List.mem_singleton.mp he
    exact ⟨rfl, by decide⟩
  refine ⟨hkeyed, (index_codec.1 _ hkeyed).mpr ⟨by decide, fun e he => ?_⟩⟩
  cases List.mem_singleton.mp he
  decide

/-- A path of four gibibytes: its length goes out as zero. -/
theorem long_path_lost :
    (oneFile (String.ofList (List.replicate (2 ^ 32) 'a'))).Keyed ∧
      Index.decode (oneFile (String.ofList (List.replicate (2 ^ 32) 'a'))).encode ≠
        .ok (oneFile (String.ofList (List.replicate (2 ^ 32) 'a'))) := by
  generalize hn : 2 ^ 32 = n
  constructor
  · intro e he
    cases List.mem_singleton.mp he
    refine ⟨rfl, ?_⟩
    rw [String.toList_ofList]
    intro hnul
    exact absurd (List.eq_of_mem_replicate hnul) (by decide)
  · intro h
    have hsize := (Index.decode_eq_ok.mp h).2.1.2 _ (List.mem_singleton.mpr rfl)
    have hlen : (String.ofList (List.replicate n 'a')).utf8ByteSize = n := by
      have hone : 'a'.utf8Size = 1 := by decide
      rw [← length_utf8, utf8, String.toList_ofList]
      simp [hone]
    rw [hlen] at hsize
    omega

end Naatre.Client.IndexFile
