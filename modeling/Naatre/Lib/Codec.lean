import Mathlib.Data.List.Basic
import Mathlib.Tactic.Ring

/-!
Readers of byte frames. A reader takes a value off the front of a byte list
and fails otherwise. `Codes ok write read` says that it accepts exactly the
written values `ok` holds of, each in the one way `write` has for it. The
property composes along the reader: a decoder written as a sequence of reads
gets its round trip from the round trips of its parts.
-/

namespace Naatre.Lib

/-- Takes a value off the front of a byte list. -/
abbrev Reader (ε α : Type) := StateT (List UInt8) (Except ε) α

variable {ε α β : Type}

namespace Reader

/-- The next `n` bytes. -/
def take (eof : ε) (n : ℕ) : Reader ε (List UInt8) := fun bytes =>
  if bytes.length < n then .error eof else .ok (bytes.take n, bytes.drop n)

/-- How many bytes are left. -/
def remaining : Reader ε ℕ := fun bytes => .ok (bytes.length, bytes)

def fail (e : ε) : Reader ε α := fun _ => .error e

/-- Stops with `e` where `bad` holds. -/
def rejectIf (bad : Prop) [Decidable bad] (e : ε) : Reader ε Unit :=
  if bad then fail e else pure ()

/-- `n` values, one behind the other. -/
def replicate (read : Reader ε α) : ℕ → Reader ε (List α)
  | 0 => pure []
  | n + 1 => do
      let a ← read
      let as ← replicate read n
      pure (a :: as)

/-- `n` values, each read in the light of the one before. -/
def chain (read : Option α → Reader ε α) : Option α → ℕ → Reader ε (List α)
  | _, 0 => pure []
  | prev, n + 1 => do
      let a ← read prev
      let as ← chain read (some a) n
      pure (a :: as)

/-- A value and nothing behind it. -/
def whole (read : Reader ε α) (trailing : ε) (bytes : List UInt8) : Except ε α :=
  match read.run bytes with
  | .error e => .error e
  | .ok (a, rest) => if rest ≠ [] then .error trailing else .ok a

theorem run_bind_ok {read : Reader ε α} {next : α → Reader ε β} {bytes rest : List UInt8}
    {b : β} : (read >>= next).run bytes = .ok (b, rest) ↔
      ∃ a mid, read.run bytes = .ok (a, mid) ∧ (next a).run mid = .ok (b, rest) := by
  rw [StateT.run_bind]
  constructor
  · intro h
    cases hread : read.run bytes with
    | error e => rw [hread] at h; cases h
    | ok p =>
        rw [hread] at h
        exact ⟨p.1, p.2, rfl, h⟩
  · rintro ⟨a, mid, hread, hnext⟩
    rw [hread]
    exact hnext

/-- A run of values that each read back reads back. -/
theorem run_replicate_write {read : Reader ε α} {write : α → List UInt8} {l : List α}
    (h : ∀ a ∈ l, ∀ rest, read.run (write a ++ rest) = .ok (a, rest)) (rest : List UInt8) :
    (replicate read l.length).run (l.flatMap write ++ rest) = .ok (l, rest) := by
  induction l with
  | nil => rfl
  | cons a as ih =>
      rw [List.flatMap_cons, List.append_assoc, List.length_cons, replicate, run_bind_ok]
      refine ⟨a, _, h a List.mem_cons_self _, run_bind_ok.mpr ⟨as, rest, ?_, rfl⟩⟩
      exact ih fun b hb => h b (List.mem_cons_of_mem _ hb)

end Reader

/-- The reader accepts exactly what `write` puts in front of a rest, for the
values `ok` holds of. -/
def Codes (ok : α → Prop) (write : α → List UInt8) (read : Reader ε α) : Prop :=
  ∀ bytes a rest, read.run bytes = .ok (a, rest) ↔ ok a ∧ bytes = write a ++ rest

namespace Codes

variable {ok : α → Prop} {write : α → List UInt8} {read : Reader ε α}

theorem run_write (h : Codes ok write read) {a : α} (ha : ok a) (rest : List UInt8) :
    read.run (write a ++ rest) = .ok (a, rest) :=
  (h _ _ _).mpr ⟨ha, rfl⟩

/-- No two values share their bytes, and none begins another. -/
theorem split (h : Codes ok write read) {a b : α} {r s : List UInt8} (ha : ok a) (hb : ok b)
    (heq : write a ++ r = write b ++ s) : a = b ∧ r = s := by
  have hread := h.run_write ha r
  rw [heq, h.run_write hb s] at hread
  cases hread
  exact ⟨rfl, rfl⟩

theorem congr {ok' : α → Prop} {write' : α → List UInt8} (h : Codes ok write read)
    (hok : ∀ a, ok a ↔ ok' a) (hwrite : ∀ a, ok a → write a = write' a) :
    Codes ok' write' read := by
  intro bytes a rest
  rw [h bytes a rest, ← hok a]
  constructor
  · rintro ⟨ha, rfl⟩
    exact ⟨ha, by rw [hwrite a ha]⟩
  · rintro ⟨ha, rfl⟩
    exact ⟨ha, by rw [hwrite a ha]⟩

theorem pure (a : α) : Codes (ε := ε) (· = a) (fun _ => []) (Pure.pure a) := by
  intro bytes b rest
  constructor
  · intro h
    cases h
    exact ⟨rfl, rfl⟩
  · rintro ⟨rfl, rfl⟩
    rfl

theorem fail (e : ε) : Codes (fun _ : α => False) (fun _ => []) (Reader.fail e) := by
  intro bytes b rest
  constructor
  · intro h
    cases h
  · rintro ⟨⟨⟩, -⟩

/-- One read after another: `P a` are the values that go on from `a`. -/
theorem bind {P : α → β → Prop} {w : α → β → List UInt8} {next : α → Reader ε β}
    {ok' : β → Prop} {write' : β → List UInt8} (h : Codes ok write read)
    (hnext : ∀ a, ok a → Codes (P a) (w a) (next a))
    (hok : ∀ b, ok' b ↔ ∃ a, ok a ∧ P a b)
    (hwrite : ∀ a b, ok a → P a b → write' b = write a ++ w a b) :
    Codes ok' write' (read >>= next) := by
  intro bytes b rest
  rw [Reader.run_bind_ok]
  constructor
  · rintro ⟨a, mid, hread, hrun⟩
    obtain ⟨ha, rfl⟩ := (h bytes a mid).mp hread
    obtain ⟨hb, rfl⟩ := (hnext a ha mid b rest).mp hrun
    rw [hwrite a b ha hb, List.append_assoc]
    exact ⟨(hok b).mpr ⟨a, ha, hb⟩, rfl⟩
  · rintro ⟨hb, rfl⟩
    obtain ⟨a, ha, hb⟩ := (hok b).mp hb
    rw [hwrite a b ha hb, List.append_assoc]
    exact ⟨a, _, h.run_write ha _, (hnext a ha).run_write hb rest⟩

/-- One read after another, where the value read last has the one read first
as its part. -/
theorem field {P : α → β → Prop} {w : α → β → List UInt8} {next : α → Reader ε β}
    (h : Codes ok write read) (first : β → α)
    (hnext : ∀ a, ok a → Codes (P a) (w a) (next a))
    (hfirst : ∀ a b, P a b → first b = a) :
    Codes (fun b => ok (first b) ∧ P (first b) b)
      (fun b => write (first b) ++ w (first b) b) (read >>= next) := by
  refine h.bind hnext (fun b => ⟨fun hb => ⟨_, hb⟩, ?_⟩) fun a b _ hb => by rw [hfirst a b hb]
  rintro ⟨a, ha, hb⟩
  rw [hfirst a b hb]
  exact ⟨ha, hb⟩

/-- A check between two reads. -/
theorem rejectIf {bad : Prop} [Decidable bad] {e : ε} (h : ¬ bad → Codes ok write read) :
    Codes (fun a => ¬ bad ∧ ok a) write (Reader.rejectIf bad e >>= fun _ => read) := by
  intro bytes a rest
  unfold Reader.rejectIf
  by_cases hbad : bad
  · rw [if_pos hbad]
    constructor
    · intro hrun
      cases hrun
    · rintro ⟨⟨hok, -⟩, -⟩
      exact absurd hbad hok
  · rw [if_neg hbad]
    show read.run bytes = _ ↔ _
    rw [h hbad bytes a rest]
    constructor
    · rintro ⟨ha, rfl⟩
      exact ⟨⟨hbad, ha⟩, rfl⟩
    · rintro ⟨⟨-, ha⟩, rfl⟩
      exact ⟨ha, rfl⟩

/-- A check on the bytes that are left: it rejects nothing whose encoding is
at least that long. -/
theorem atLeast {size : ℕ} {e : ε} (h : Codes ok write read)
    (hsize : ∀ a, ok a → size ≤ (write a).length) :
    Codes ok write (do
      let left ← Reader.remaining
      Reader.rejectIf (left < size) e
      read) := by
  intro bytes a rest
  have hrun : (do
      let left ← Reader.remaining
      Reader.rejectIf (left < size) e
      read : Reader ε α).run bytes =
        if bytes.length < size then .error e else read.run bytes := by
    by_cases hleft : bytes.length < size
    · rw [if_pos hleft]
      simp only [StateT.run_bind, Reader.rejectIf]
      show (if bytes.length < size then _ else _ : Reader ε Unit).run bytes >>= _ = _
      rw [if_pos hleft]
      rfl
    · rw [if_neg hleft]
      simp only [StateT.run_bind, Reader.rejectIf]
      show (if bytes.length < size then _ else _ : Reader ε Unit).run bytes >>= _ = _
      rw [if_neg hleft]
      rfl
  rw [hrun, ← h bytes a rest]
  split_ifs with hleft
  · constructor
    · intro hc
      cases hc
    · intro hread
      obtain ⟨ha, rfl⟩ := (h bytes a rest).mp hread
      have hlong := hsize a ha
      rw [List.length_append] at hleft
      omega
  · exact Iff.rfl

theorem take (eof : ε) (n : ℕ) :
    Codes (fun l : List UInt8 => l.length = n) (fun l => l) (Reader.take eof n) := by
  intro bytes l rest
  show Reader.take eof n bytes = _ ↔ _
  unfold Reader.take
  split_ifs with hshort
  · constructor
    · intro h
      cases h
    · rintro ⟨hl, rfl⟩
      dsimp only at hshort hl
      rw [List.length_append] at hshort
      omega
  · constructor
    · intro h
      cases h
      refine ⟨?_, (List.take_append_drop n bytes).symm⟩
      dsimp only
      rw [List.length_take]
      omega
    · rintro ⟨rfl, rfl⟩
      rw [List.take_left, List.drop_left]

/-- A run of values. -/
theorem replicate (h : Codes ok write read) (n : ℕ) :
    Codes (fun l : List α => l.length = n ∧ ∀ a ∈ l, ok a) (fun l => l.flatMap write)
      (Reader.replicate read n) := by
  induction n with
  | zero =>
      refine (Codes.pure []).congr (fun l => ?_) fun l hl => by rw [hl]; rfl
      constructor
      · rintro rfl
        exact ⟨rfl, fun a ha => absurd ha List.not_mem_nil⟩
      · rintro ⟨hl, -⟩
        exact List.length_eq_zero_iff.mp hl
  | succ n ih =>
      intro bytes l rest
      rw [Reader.replicate, Reader.run_bind_ok]
      constructor
      · rintro ⟨a, mid, hread, hrun⟩
        obtain ⟨ha, rfl⟩ := (h bytes a mid).mp hread
        obtain ⟨as, mid', htail, hpure⟩ := Reader.run_bind_ok.mp hrun
        obtain ⟨⟨hlen, hall⟩, rfl⟩ := (ih mid as mid').mp htail
        cases hpure
        dsimp only
        rw [List.flatMap_cons, List.append_assoc]
        exact ⟨⟨by rw [List.length_cons, hlen], List.forall_mem_cons.mpr ⟨ha, hall⟩⟩, rfl⟩
      · rintro ⟨⟨hlen, hall⟩, rfl⟩
        cases l with
        | nil => simp at hlen
        | cons a as =>
            obtain ⟨ha, has⟩ := List.forall_mem_cons.mp hall
            dsimp only
            rw [List.flatMap_cons, List.append_assoc]
            refine ⟨a, _, h.run_write ha _, Reader.run_bind_ok.mpr ⟨as, rest, ?_, rfl⟩⟩
            exact ih.run_write ⟨by simpa using hlen, has⟩ rest

/-- A chain of values, each in its order to the one before. -/
theorem chain {read : Option α → Reader ε α} {order : α → α → Prop}
    (h : ∀ prev, Codes (fun a => (∀ p ∈ prev, order p a) ∧ ok a) write (read prev))
    (prev : Option α) (n : ℕ) :
    Codes (fun l : List α => l.length = n ∧ (prev.toList ++ l).IsChain order ∧ ∀ a ∈ l, ok a)
      (fun l => l.flatMap write) (Reader.chain read prev n) := by
  induction n generalizing prev with
  | zero =>
      refine (Codes.pure []).congr (fun l => ?_) fun l hl => by rw [hl]; rfl
      constructor
      · rintro rfl
        refine ⟨rfl, ?_, fun a ha => absurd ha List.not_mem_nil⟩
        cases prev <;> simp
      · exact fun hl => List.length_eq_zero_iff.mp hl.1
  | succ n ih =>
      intro bytes l rest
      rw [Reader.chain, Reader.run_bind_ok]
      have hstep : ∀ a as, (prev.toList ++ a :: as).IsChain order ↔
          (∀ p ∈ prev, order p a) ∧ ((some a).toList ++ as).IsChain order := by
        intro a as
        cases prev with
        | none => simp
        | some p => simp [List.isChain_cons_cons]
      constructor
      · rintro ⟨a, mid, hread, hrun⟩
        obtain ⟨⟨horder, ha⟩, rfl⟩ := (h prev bytes a mid).mp hread
        obtain ⟨as, mid', htail, hpure⟩ := Reader.run_bind_ok.mp hrun
        obtain ⟨⟨hlen, hchain, hall⟩, rfl⟩ := (ih (some a) mid as mid').mp htail
        cases hpure
        dsimp only
        rw [List.flatMap_cons, List.append_assoc]
        exact ⟨⟨by rw [List.length_cons, hlen], (hstep a as).mpr ⟨horder, hchain⟩,
          List.forall_mem_cons.mpr ⟨ha, hall⟩⟩, rfl⟩
      · rintro ⟨⟨hlen, hchain, hall⟩, rfl⟩
        cases l with
        | nil => simp at hlen
        | cons a as =>
            obtain ⟨horder, hchain⟩ := (hstep a as).mp hchain
            obtain ⟨ha, has⟩ := List.forall_mem_cons.mp hall
            dsimp only
            rw [List.flatMap_cons, List.append_assoc]
            refine ⟨a, _, (h prev).run_write ⟨horder, ha⟩ _,
              Reader.run_bind_ok.mpr ⟨as, rest, ?_, rfl⟩⟩
            exact (ih (some a)).run_write ⟨by simpa using hlen, hchain, has⟩ rest

/-- A frame that is one value and nothing behind it. -/
theorem whole (h : Codes ok write read) (trailing : ε) {bytes : List UInt8} {a : α} :
    read.whole trailing bytes = .ok a ↔ ok a ∧ bytes = write a := by
  unfold Reader.whole
  constructor
  · intro hwhole
    split at hwhole
    · cases hwhole
    next b rest hread =>
      split_ifs at hwhole with hrest
      cases hwhole
      obtain ⟨ha, rfl⟩ := (h bytes a rest).mp hread
      rw [not_not.mp hrest, List.append_nil]
      exact ⟨ha, rfl⟩
  · rintro ⟨ha, rfl⟩
    have hread := h.run_write ha []
    rw [List.append_nil] at hread
    rw [hread]
    rfl

end Codes

/-! ### Numbers -/

/-- The `w` little-endian bytes of `n`; what does not fit is cut off. -/
def leBytes : ℕ → ℕ → List UInt8
  | 0, _ => []
  | w + 1, n => UInt8.ofNat n :: leBytes w (n / 256)

def ofLeBytes : List UInt8 → ℕ
  | [] => 0
  | b :: bs => b.toNat + 256 * ofLeBytes bs

@[simp] theorem length_leBytes (w n : ℕ) : (leBytes w n).length = w := by
  induction w generalizing n with
  | zero => rfl
  | succ w ih => rw [leBytes, List.length_cons, ih]

theorem ofLeBytes_lt (l : List UInt8) : ofLeBytes l < 256 ^ l.length := by
  induction l with
  | nil => exact Nat.one_pos
  | cons b bs ih =>
      have hb : b.toNat < 256 := b.toNat_lt
      rw [ofLeBytes, List.length_cons, Nat.pow_succ]
      omega

theorem ofLeBytes_leBytes {w n : ℕ} (h : n < 256 ^ w) : ofLeBytes (leBytes w n) = n := by
  induction w generalizing n with
  | zero =>
      rw [Nat.pow_zero] at h
      rw [leBytes, ofLeBytes]
      omega
  | succ w ih =>
      have hdiv : n / 256 < 256 ^ w := by
        rw [Nat.pow_succ] at h
        omega
      rw [leBytes, ofLeBytes, ih hdiv, UInt8.toNat_ofNat']
      omega

theorem leBytes_ofLeBytes (l : List UInt8) : leBytes l.length (ofLeBytes l) = l := by
  induction l with
  | nil => rfl
  | cons b bs ih =>
      have hb : b.toNat < 256 := b.toNat_lt
      have hdiv : (b.toNat + 256 * ofLeBytes bs) / 256 = ofLeBytes bs := by omega
      rw [List.length_cons, leBytes, ofLeBytes, hdiv, ih]
      congr 1
      rw [← UInt8.toNat_inj, UInt8.toNat_ofNat']
      omega

/-- An unsigned number of `w` bytes. -/
def Reader.leNat (eof : ε) (w : ℕ) : Reader ε ℕ := do
  let bytes ← Reader.take eof w
  pure (ofLeBytes bytes)

theorem Codes.leNat (eof : ε) (w : ℕ) :
    Codes (· < 256 ^ w) (leBytes w) (Reader.leNat eof w) := by
  refine (Codes.take eof w).bind (fun l _ => Codes.pure (ofLeBytes l)) (fun n => ?_) ?_
  · constructor
    · exact fun h => ⟨leBytes w n, length_leBytes w n, (ofLeBytes_leBytes h).symm⟩
    · rintro ⟨l, rfl, rfl⟩
      exact ofLeBytes_lt l
  · rintro l n rfl rfl
    rw [leBytes_ofLeBytes, List.append_nil]

/-- A `UInt64`. -/
def Reader.leUInt64 (eof : ε) : Reader ε UInt64 := do
  let n ← Reader.leNat eof 8
  pure (.ofNat n)

theorem Codes.leUInt64 (eof : ε) :
    Codes (fun _ => True) (fun n => leBytes 8 n.toNat) (Reader.leUInt64 eof) := by
  refine (Codes.leNat eof 8).bind (fun n _ => Codes.pure (UInt64.ofNat n)) (fun n => ?_) ?_
  · exact ⟨fun _ => ⟨n.toNat, n.toNat_lt, by simp⟩, fun _ => trivial⟩
  · rintro n _ hn rfl
    rw [UInt64.toNat_ofNat_of_lt' hn, List.append_nil]

/-- A number in front of that many values. The check in front of the values
never rejects one that `write` has at least `unit` bytes for. -/
def Reader.counted (count : Reader ε ℕ) (unit : ℕ) (short : ε) (read : Reader ε α) :
    Reader ε (List α) := do
  let n ← count
  let left ← Reader.remaining
  Reader.rejectIf (left < n * unit) short
  Reader.replicate read n

theorem Codes.counted {ok : α → Prop} {write : α → List UInt8} {read : Reader ε α}
    {okCount : ℕ → Prop} {writeCount : ℕ → List UInt8} {count : Reader ε ℕ}
    (hcount : Codes okCount writeCount count) (unit : ℕ) (short : ε) (h : Codes ok write read)
    (hunit : ∀ a, ok a → unit ≤ (write a).length) :
    Codes (fun l => okCount l.length ∧ ∀ a ∈ l, ok a)
      (fun l => writeCount l.length ++ l.flatMap write)
      (Reader.counted count unit short read) := by
  have hlong : ∀ l : List α, (∀ a ∈ l, ok a) → l.length * unit ≤ (l.flatMap write).length := by
    intro l hl
    induction l with
    | nil => simp
    | cons a l ih =>
        obtain ⟨ha, hl⟩ := List.forall_mem_cons.mp hl
        have hrest := ih hl
        have hhead := hunit a ha
        rw [List.flatMap_cons, List.length_append, List.length_cons, Nat.succ_mul]
        omega
  have hvalues : ∀ n, Codes (fun l : List α => l.length = n ∧ ∀ a ∈ l, ok a)
      (fun l => l.flatMap write) (do
        let left ← Reader.remaining
        Reader.rejectIf (left < n * unit) short
        Reader.replicate read n) := by
    intro n
    refine (h.replicate n).atLeast fun l hl => ?_
    rw [← hl.1]
    exact hlong l hl.2
  exact (hcount.field List.length (fun n _ => hvalues n) fun n l hl => hl.1).congr
    (fun l => by simp only [true_and]) fun l _ => rfl

/-! ### Bounds -/

namespace Reader

/-- On so many bytes or more the reader does not fail with `e`. -/
def Within (e : ε) (n : ℕ) (read : Reader ε α) : Prop :=
  ∀ bytes, n ≤ bytes.length → read.run bytes ≠ .error e

/-- On so many bytes or more the reader takes just these. -/
def Takes (n : ℕ) (read : Reader ε α) : Prop :=
  ∀ bytes, n ≤ bytes.length → ∃ a rest, read.run bytes = .ok (a, rest) ∧
    rest.length = bytes.length - n

variable {e e' : ε} {n m : ℕ} {read : Reader ε α} {next : α → Reader ε β}

theorem takes_take (eof : ε) (n : ℕ) : Takes n (take eof n) := by
  intro bytes h
  refine ⟨bytes.take n, bytes.drop n, ?_, List.length_drop⟩
  show take eof n bytes = _
  rw [take, if_neg (by omega)]

theorem within_pure (a : α) : Within e n (pure a : Reader ε α) := fun _ _ h => by cases h

theorem Takes.within (h : Takes n read) (hnext : ∀ a, Within e m (next a)) :
    Within e (n + m) (read >>= next) := by
  intro bytes hlen
  obtain ⟨a, rest, hrun, hrest⟩ := h bytes (by omega)
  rw [StateT.run_bind, hrun]
  exact hnext a rest (by omega)

theorem Takes.map (h : Takes n read) (f : α → β) : Takes n (read >>= fun a => pure (f a)) := by
  intro bytes hlen
  obtain ⟨a, rest, hrun, hrest⟩ := h bytes hlen
  refine ⟨f a, rest, ?_, hrest⟩
  rw [StateT.run_bind, hrun]
  rfl

theorem takes_leNat (eof : ε) (w : ℕ) : Takes w (leNat eof w) := (takes_take eof w).map ofLeBytes

theorem takes_leUInt64 (eof : ε) : Takes 8 (leUInt64 eof) := (takes_leNat eof 8).map UInt64.ofNat

/-- A check of its own error. -/
theorem within_rejectIf {bad : Prop} [Decidable bad] (hne : e' ≠ e)
    (h : ¬ bad → Within e n read) : Within e n (rejectIf bad e' >>= fun _ => read) := by
  intro bytes hlen
  rw [rejectIf]
  split_ifs with hbad
  · intro hrun
    exact hne (Except.error.inj hrun)
  · exact h hbad bytes hlen

/-- A check that enough bytes are left. -/
theorem within_remaining (hne : e' ≠ e) (h : Within e m read) :
    Within e 0 (do
      let left ← remaining
      rejectIf (left < m) e'
      read) := by
  intro bytes _
  have hchecked : Within e bytes.length (rejectIf (bytes.length < m) e' >>= fun _ => read) :=
    within_rejectIf hne fun hleft bytes' hlen => h bytes' (by omega)
  exact hchecked bytes le_rfl

/-- What stays within its bounds on any bytes does so after another such. -/
theorem Within.bind (h : Within e n read) (hnext : ∀ a, Within e 0 (next a)) :
    Within e n (read >>= next) := by
  intro bytes hlen hrun
  rw [StateT.run_bind] at hrun
  cases hread : read.run bytes with
  | error e' =>
      rw [hread] at hrun
      cases hrun
      exact h bytes hlen hread
  | ok p =>
      rw [hread] at hrun
      exact hnext p.1 p.2 (Nat.zero_le _) hrun

theorem within_chain {read : Option α → Reader ε α} (h : ∀ prev, Within e 0 (read prev))
    (prev : Option α) (n : ℕ) : Within e 0 (chain read prev n) := by
  induction n generalizing prev with
  | zero => exact within_pure _
  | succ n ih => exact (h prev).bind fun a => (ih (some a)).bind fun as => within_pure _

theorem Within.whole (h : Within e 0 read) {trailing : ε} (hne : trailing ≠ e)
    (bytes : List UInt8) : read.whole trailing bytes ≠ .error e := by
  intro hwhole
  unfold Reader.whole at hwhole
  split at hwhole
  next e' hrun =>
    cases hwhole
    exact h bytes (Nat.zero_le _) hrun
  next =>
    split_ifs at hwhole
    exact hne (Except.error.inj hwhole)

end Reader

end Naatre.Lib
