import Mathlib.Data.Char
import Mathlib.Data.List.Lex

/-!
UTF-8 texts as byte lists: an ASCII byte of an encoding is a character of its
own, so a text can be cut in front of one. Texts compare as their encodings
do.
-/

namespace Naatre.Lib

/-- The encoding of a list of characters. -/
def encodeChars (cs : List Char) : List UInt8 := cs.flatMap String.utf8EncodeChar

/-- The bytes are the encoding of some text. -/
def Encoded (b : List UInt8) : Prop := ∃ cs, b = encodeChars cs

theorem encodeChars_append (cs ds : List Char) :
    encodeChars (cs ++ ds) = encodeChars cs ++ encodeChars ds := by
  simp [encodeChars]

theorem encoded_iff {b : List UInt8} :
    (ByteArray.mk b.toArray).validateUTF8 = true ↔ Encoded b := by
  rw [ByteArray.validateUTF8_eq_true_iff]
  constructor
  · rintro ⟨cs, hcs⟩
    refine ⟨cs, ?_⟩
    have hdata := congrArg (fun x : ByteArray => x.data.toList) hcs
    simpa [List.utf8Encode, encodeChars] using hdata
  · rintro ⟨cs, rfl⟩
    refine .intro cs ?_
    have hdata : cs.utf8Encode.data.toList = encodeChars cs := by
      simp [List.utf8Encode, encodeChars]
    rw [← hdata]

/-- An ASCII byte encodes its character by itself. -/
theorem encodeChar_ascii {c : Char} {x : UInt8} (hx : x.toNat < 128)
    (h : x ∈ String.utf8EncodeChar c) : String.utf8EncodeChar c = [x] ∧ c.toNat = x.toNat := by
  have hv : c.val.toNat = c.toNat := rfl
  unfold String.utf8EncodeChar at h ⊢
  simp only [hv] at h ⊢
  split_ifs at h ⊢ with h1 h2 h3
  · rw [List.mem_singleton] at h
    refine ⟨by rw [h], ?_⟩
    rw [h, UInt8.toNat_ofNat']
    omega
  -- the bytes of a longer character are all above the ASCII range
  all_goals simp only [List.mem_cons, List.not_mem_nil, or_false] at h
  · rcases h with rfl | rfl <;> (rw [UInt8.toNat_ofNat'] at hx; omega)
  · rcases h with rfl | rfl | rfl <;> (rw [UInt8.toNat_ofNat'] at hx; omega)
  · rcases h with rfl | rfl | rfl | rfl <;> (rw [UInt8.toNat_ofNat'] at hx; omega)

/-- A text is cut in front of an ASCII byte. -/
theorem encoded_split {a b : List UInt8} {x : UInt8} (hx : x.toNat < 128)
    (h : Encoded (a ++ x :: b)) : Encoded a ∧ Encoded (x :: b) := by
  obtain ⟨cs, hcs⟩ := h
  induction cs generalizing a with
  | nil => simp [encodeChars] at hcs
  | cons c cs ih =>
      cases a with
      | nil => exact ⟨⟨[], rfl⟩, c :: cs, hcs⟩
      | cons y a =>
          rw [show c :: cs = [c] ++ cs from rfl, encodeChars_append] at hcs
          have hsingle : encodeChars [c] = String.utf8EncodeChar c := by simp [encodeChars]
          rcases List.append_eq_append_iff.mp hcs with ⟨d, hc, hrest⟩ | ⟨d, hya, hrest⟩
          · -- the byte would lie inside the character
            cases d with
            | nil =>
                rw [List.append_nil] at hc
                exact ⟨⟨[c], hc.symm⟩, cs, by simpa using hrest⟩
            | cons z d =>
                obtain ⟨rfl, -⟩ := List.cons.inj (hrest.trans (List.cons_append ..))
                have hmem : x ∈ String.utf8EncodeChar c := by
                  rw [← hsingle, hc]
                  simp
                have hone := (encodeChar_ascii hx hmem).1
                rw [← hsingle, hc] at hone
                simp at hone
          · obtain ⟨⟨ds, hds⟩, htail⟩ := ih hrest.symm
            exact ⟨⟨[c] ++ ds, by rw [hya, encodeChars_append, hds]⟩, htail⟩

theorem Encoded.append {a b : List UInt8} (ha : Encoded a) (hb : Encoded b) :
    Encoded (a ++ b) := by
  obtain ⟨cs, rfl⟩ := ha
  obtain ⟨ds, rfl⟩ := hb
  exact ⟨cs ++ ds, (encodeChars_append cs ds).symm⟩

/-- An ASCII byte in front of a text is a character of its own. -/
theorem encoded_cons {b : List UInt8} {x : UInt8} (hx : x.toNat < 128) (h : Encoded (x :: b)) :
    Encoded b := by
  obtain ⟨cs, hcs⟩ := h
  cases cs with
  | nil => cases hcs
  | cons c cs =>
      have hcut : encodeChars (c :: cs) = String.utf8EncodeChar c ++ encodeChars cs := by
        simp [encodeChars]
      rw [hcut] at hcs
      have hmem : x ∈ String.utf8EncodeChar c := by
        cases hchar : String.utf8EncodeChar c with
        | nil => exact absurd hchar String.utf8EncodeChar_ne_nil
        | cons y ys =>
            rw [hchar, List.cons_append] at hcs
            rw [(List.cons.inj hcs).1]
            exact List.mem_cons_self
      rw [(encodeChar_ascii hx hmem).1, List.singleton_append] at hcs
      exact ⟨cs, (List.cons.inj hcs).2⟩

/-- What stands before and after a text between two ASCII bytes. -/
theorem encoded_around {a m b : List UInt8} {x y : UInt8} (hx : x.toNat < 128)
    (hy : y.toNat < 128) (hm : Encoded (x :: m ++ [y])) :
    Encoded (a ++ (x :: m ++ [y]) ++ b) ↔ Encoded a ∧ Encoded b := by
  constructor
  · intro h
    refine ⟨(encoded_split hx (by simpa using h)).1, ?_⟩
    exact encoded_cons hy (encoded_split (a := a ++ x :: m) hy (by simpa using h)).2
  · rintro ⟨ha, hb⟩
    exact (ha.append hm).append hb

/-- An ASCII character appears in an encoding only where the text has it. -/
theorem mem_encodeChars_ascii {cs : List Char} {x : UInt8} (hx : x.toNat < 128)
    (h : x ∈ encodeChars cs) : ∃ c ∈ cs, c.toNat = x.toNat := by
  obtain ⟨c, hc, hmem⟩ := List.mem_flatMap.mp h
  exact ⟨c, hc, (encodeChar_ascii hx hmem).2⟩

/-! ### Order -/

/-- A smaller character has the smaller encoding, whatever follows. -/
theorem encodeChar_lt {c d : Char} (h : c < d) (x y : List UInt8) :
    String.utf8EncodeChar c ++ x < String.utf8EncodeChar d ++ y := by
  have hv : c.val.toNat < d.val.toNat := h
  have hd : d.val.toNat < 0x110000 := by
    rcases d.valid with h | ⟨-, h⟩
    · exact Nat.lt_trans h (by decide)
    · exact h
  unfold String.utf8EncodeChar
  simp only
  generalize c.val.toNat = m at *
  generalize d.val.toNat = n at *
  split_ifs <;> simp only [List.cons_append, List.nil_append, List.cons_lt_cons_iff,
    UInt8.lt_iff_toNat_lt, ← UInt8.toNat_inj, UInt8.toNat_ofNat']
  -- two characters of four bytes: the first digit in which they differ decides
  rotate_right
  · have h1 : m / 262144 ≤ n / 262144 := Nat.div_le_div_right hv.le
    rcases Nat.lt_or_eq_of_le h1 with h1 | h1
    · exact .inl (by omega)
    refine .inr ⟨by rw [h1], ?_⟩
    have h2 : m / 4096 ≤ n / 4096 := Nat.div_le_div_right hv.le
    rcases Nat.lt_or_eq_of_le h2 with h2 | h2
    · exact .inl (by omega)
    refine .inr ⟨by rw [h2], ?_⟩
    have h3 : m / 64 ≤ n / 64 := Nat.div_le_div_right hv.le
    rcases Nat.lt_or_eq_of_le h3 with h3 | h3
    · exact .inl (by omega)
    exact .inr ⟨by rw [h3], .inl (by omega)⟩
  all_goals omega

theorem encodeChars_cons (c : Char) (cs : List Char) :
    encodeChars (c :: cs) = String.utf8EncodeChar c ++ encodeChars cs := by
  simp [encodeChars]

theorem encodeChars_lt {a b : List Char} (h : a < b) : encodeChars a < encodeChars b := by
  induction a generalizing b with
  | nil =>
      cases b with
      | nil => exact absurd h (List.not_lt_nil [])
      | cons d b =>
          rw [encodeChars_cons]
          cases hd : String.utf8EncodeChar d with
          | nil => exact absurd hd String.utf8EncodeChar_ne_nil
          | cons x l => exact List.nil_lt_cons x _
  | cons c a ih =>
      cases b with
      | nil => exact absurd h (List.not_lt_nil _)
      | cons d b =>
          rw [encodeChars_cons, encodeChars_cons]
          rcases List.cons_lt_cons_iff.mp h with hlt | ⟨rfl, hlt⟩
          · exact encodeChar_lt hlt _ _
          · exact List.append_left_lt (ih hlt)

/-- The order of texts is the order of their bytes. -/
theorem encodeChars_lt_iff {a b : List Char} : encodeChars a < encodeChars b ↔ a < b := by
  refine ⟨fun h => ?_, encodeChars_lt⟩
  rcases lt_trichotomy a b with hlt | rfl | hgt
  · exact hlt
  · exact absurd h (List.lt_irrefl _)
  · exact absurd h (List.lt_asymm (encodeChars_lt hgt))

/-! ### Lossy decoding -/

/-- The character a byte list starts with, where it starts with an encoding. -/
def decodeFirst (b : List UInt8) : Option Char := ByteArray.utf8DecodeChar? ⟨b.toArray⟩ 0

theorem decodeFirst_some {b : List UInt8} {c : Char} (h : decodeFirst b = some c) :
    ∃ rest, b = String.utf8EncodeChar c ++ rest := by
  obtain ⟨l, hl⟩ := ByteArray.exists_of_utf8DecodeChar?_eq_some h
  refine ⟨l.data.toList, ?_⟩
  have hdata := congrArg (fun x : ByteArray => x.data.toList) hl
  simpa using hdata

/-- What a lead byte asks for: how many bytes, and the range of the first of
them. -/
def leadOf (b : ℕ) : Option (ℕ × ℕ × ℕ) :=
  if b < 0xC2 then none
  else if b < 0xE0 then some (1, 0x80, 0xBF)
  else if b = 0xE0 then some (2, 0xA0, 0xBF)
  else if b = 0xED then some (2, 0x80, 0x9F)
  else if b < 0xF0 then some (2, 0x80, 0xBF)
  else if b = 0xF0 then some (3, 0x90, 0xBF)
  else if b < 0xF4 then some (3, 0x80, 0xBF)
  else if b = 0xF4 then some (3, 0x80, 0x8F)
  else none

/-- How many of the next `n` bytes continue a character. -/
def continuing : ℕ → ℕ → ℕ → List UInt8 → ℕ
  | n + 1, lo, hi, b :: rest =>
      if lo ≤ b.toNat ∧ b.toNat ≤ hi then continuing n 0x80 0xBF rest + 1 else 0
  | _, _, _, _ => 0

/-- The bytes behind a byte that starts no encoding that are replaced with
it. -/
def replacedWith (b : UInt8) (rest : List UInt8) : ℕ :=
  match leadOf b.toNat with
  | none => 0
  | some (n, lo, hi) => continuing n lo hi rest

def decodeLossyFrom : ℕ → List UInt8 → List Char
  | fuel + 1, b :: rest =>
      match decodeFirst (b :: rest) with
      | some c => c :: decodeLossyFrom fuel (rest.drop ((String.utf8EncodeChar c).length - 1))
      | none => '\ufffd' :: decodeLossyFrom fuel (rest.drop (replacedWith b rest))
  | _, _ => []

/-- The text of a byte list, each maximal piece that starts an encoding and
does not finish it replaced by one U+FFFD. -/
def decodeLossy (b : List UInt8) : List Char := decodeLossyFrom b.length b

theorem mem_decodeLossyFrom_ascii {fuel : ℕ} {b : List UInt8} {c : Char} (hc : c.toNat < 128)
    (h : c ∈ decodeLossyFrom fuel b) : ∃ x ∈ b, x.toNat = c.toNat := by
  induction fuel generalizing b with
  | zero => cases b <;> exact absurd h List.not_mem_nil
  | succ fuel ih =>
      cases b with
      | nil => exact absurd h List.not_mem_nil
      | cons x rest =>
          rw [decodeLossyFrom] at h
          cases hfirst : decodeFirst (x :: rest) with
          | some d =>
              simp only [hfirst] at h
              rcases List.mem_cons.mp h with rfl | h
              · obtain ⟨tail, htail⟩ := decodeFirst_some hfirst
                have hself : UInt8.ofNat c.toNat ∈ String.utf8EncodeChar c := by
                  have hv : c.val.toNat = c.toNat := rfl
                  rw [String.utf8EncodeChar]
                  simp only [hv]
                  rw [if_pos (by omega)]
                  exact List.mem_singleton_self _
                refine ⟨UInt8.ofNat c.toNat, ?_, ?_⟩
                · rw [htail]
                  exact List.mem_append_left _ hself
                · rw [UInt8.toNat_ofNat']
                  omega
              · obtain ⟨y, hy, hyc⟩ := ih h
                exact ⟨y, List.mem_cons_of_mem _ (List.mem_of_mem_drop hy), hyc⟩
          | none =>
              simp only [hfirst] at h
              rcases List.mem_cons.mp h with rfl | h
              · exact absurd hc (by decide)
              · obtain ⟨y, hy, hyc⟩ := ih h
                exact ⟨y, List.mem_cons_of_mem _ (List.mem_of_mem_drop hy), hyc⟩

/-- An ASCII character of the text is a byte of its own. -/
theorem mem_decodeLossy_ascii {b : List UInt8} {c : Char} (hc : c.toNat < 128)
    (h : c ∈ decodeLossy b) : ∃ x ∈ b, x.toNat = c.toNat := mem_decodeLossyFrom_ascii hc h

end Naatre.Lib
