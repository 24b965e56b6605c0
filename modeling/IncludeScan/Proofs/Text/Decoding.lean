import IncludeScan.Content
import Mathlib.Tactic.SplitIfs

/-!
# Proofs/Text/Decoding — reading UTF-8 undoes writing it

A character is written as one to four bytes.  The first of them says how many follow, and bounds the
second so that no shorter form, no surrogate and nothing beyond the last plane is read
(`lead_of_three`, `lead_of_four`); the bytes of a character keep within these bounds, so they are
read as that character and nothing of them is left over (`decodeFrom_char`).

Only the first three bytes of a text can be taken for a byte order mark, and what they spell is
`U+FEFF` (`decode_bytesOf`).

`Content.bytes_same_as_text` — bytes and text are one source file.
-/

namespace IncludeScan

namespace Text.Utf8

/-! ## Byte by byte -/

section

variable {b : UInt8} {k : Nat} (hb : b.toNat = k)

include hb

theorem decodeFrom_opens {p : Pending} (h : lead k = .opens p) (bs : List UInt8) :
    decodeFrom none (b :: bs) = decodeFrom (some p) bs := by
  rw [decodeFrom, hb, h]

/-- A byte inside a character that is not its last. -/
theorem decodeFrom_inside {p : Pending} (bs : List UInt8) (hk : p.lower ≤ k ∧ k ≤ p.upper)
    (hneeded : 1 < p.needed) :
    decodeFrom (some p) (b :: bs)
      = decodeFrom (some { needed := p.needed - 1, value := p.value * 0x40 + (k - 0x80) }) bs := by
  rw [decodeFrom, hb, if_pos hk, if_neg (by omega)]

/-- The last byte of a character. -/
theorem decodeFrom_last {p : Pending} (bs : List UInt8) (hk : p.lower ≤ k ∧ k ≤ p.upper)
    (hneeded : p.needed = 1) :
    decodeFrom (some p) (b :: bs) = Char.ofNat (p.value * 0x40 + (k - 0x80))
      :: decodeFrom none bs := by
  rw [decodeFrom, hb, if_pos hk, if_pos (by omega)]

end

theorem lead_of_two {b : Nat} (h : 0xC2 ≤ b) (h' : b < 0xE0) :
    lead b = .opens { needed := 1, value := b - 0xC0 } := by
  rw [lead, if_neg (by omega), if_neg (by omega), if_pos h']

theorem lead_of_three {b : Nat} (h : 0xE0 ≤ b) (h' : b < 0xF0) :
    lead b = .opens
      { needed := 2, value := b - 0xE0, lower := if b = 0xE0 then 0xA0 else 0x80,
        upper := if b = 0xED then 0x9F else 0xBF } := by
  rw [lead, if_neg (by omega), if_neg (by omega), if_neg (by omega)]
  split_ifs with h₁ h₂ h₂
  · omega
  · rw [h₁]
  · rw [h₂]
  · rfl

theorem lead_of_four {b : Nat} (h : 0xF0 ≤ b) (h' : b ≤ 0xF4) :
    lead b = .opens
      { needed := 3, value := b - 0xF0, lower := if b = 0xF0 then 0x90 else 0x80,
        upper := if b = 0xF4 then 0x8F else 0xBF } := by
  rw [lead, if_neg (by omega), if_neg (by omega), if_neg (by omega), if_neg (by omega),
    if_neg (by omega), if_neg (by omega)]
  split_ifs with h₁ h₂ h₂ h₃
  · omega
  · rw [h₁]
  · rw [h₂]
  · rfl
  · omega

/-! ## Character by character -/

variable {v : Nat}

theorem toNat_ofNat {n : Nat} (h : n < 256) : (UInt8.ofNat n).toNat = n := by
  rw [UInt8.toNat_ofNat', Nat.mod_eq_of_lt h]

theorem decodeFrom_two (h : 0x7F < v) (h' : v ≤ 0x7FF) (bs : List UInt8) :
    decodeFrom none (UInt8.ofNat (v / 64 % 32 + 192) :: UInt8.ofNat (v % 64 + 128) :: bs)
      = Char.ofNat v :: decodeFrom none bs := by
  have h₁ : (UInt8.ofNat (v / 64 % 32 + 192)).toNat = v / 64 + 192 := by
    rw [toNat_ofNat (by omega)]
    omega
  have h₂ : (UInt8.ofNat (v % 64 + 128)).toNat = v % 64 + 128 := toNat_ofNat (by omega)
  rw [decodeFrom_opens h₁ (lead_of_two (by omega) (by omega)), decodeFrom_last h₂]
  · refine congrArg (fun value => Char.ofNat value :: decodeFrom none bs) ?_
    dsimp only
    omega
  · dsimp only
    omega
  · rfl

/-- The second byte is bounded from below where two bytes would do, and from above where surrogates
begin. -/
theorem decodeFrom_three (h : 0x7FF < v) (h' : v ≤ 0xFFFF) (hvalid : v < 0xD800 ∨ 0xDFFF < v)
    (bs : List UInt8) :
    decodeFrom none (UInt8.ofNat (v / 4096 % 16 + 224) :: UInt8.ofNat (v / 64 % 64 + 128)
        :: UInt8.ofNat (v % 64 + 128) :: bs)
      = Char.ofNat v :: decodeFrom none bs := by
  have h₁ : (UInt8.ofNat (v / 4096 % 16 + 224)).toNat = v / 4096 + 224 := by
    rw [toNat_ofNat (by omega)]
    omega
  have h₂ : (UInt8.ofNat (v / 64 % 64 + 128)).toNat = v / 64 % 64 + 128 := toNat_ofNat (by omega)
  have h₃ : (UInt8.ofNat (v % 64 + 128)).toNat = v % 64 + 128 := toNat_ofNat (by omega)
  rw [decodeFrom_opens h₁ (lead_of_three (by omega) (by omega)), decodeFrom_inside h₂,
    decodeFrom_last h₃]
  · refine congrArg (fun value => Char.ofNat value :: decodeFrom none bs) ?_
    dsimp only
    omega
  · dsimp only
    omega
  · rfl
  · dsimp only
    split_ifs <;> omega
  · exact Nat.one_lt_two

/-- The second byte is bounded from below where three bytes would do, and from above where the
planes end. -/
theorem decodeFrom_four (h : 0xFFFF < v) (h' : v < 0x110000) (bs : List UInt8) :
    decodeFrom none (UInt8.ofNat (v / 262144 % 8 + 240) :: UInt8.ofNat (v / 4096 % 64 + 128)
        :: UInt8.ofNat (v / 64 % 64 + 128) :: UInt8.ofNat (v % 64 + 128) :: bs)
      = Char.ofNat v :: decodeFrom none bs := by
  have h₁ : (UInt8.ofNat (v / 262144 % 8 + 240)).toNat = v / 262144 + 240 := by
    rw [toNat_ofNat (by omega)]
    omega
  have h₂ : (UInt8.ofNat (v / 4096 % 64 + 128)).toNat = v / 4096 % 64 + 128 :=
    toNat_ofNat (by omega)
  have h₃ : (UInt8.ofNat (v / 64 % 64 + 128)).toNat = v / 64 % 64 + 128 := toNat_ofNat (by omega)
  have h₄ : (UInt8.ofNat (v % 64 + 128)).toNat = v % 64 + 128 := toNat_ofNat (by omega)
  rw [decodeFrom_opens h₁ (lead_of_four (by omega) (by omega)), decodeFrom_inside h₂,
    decodeFrom_inside h₃, decodeFrom_last h₄]
  · refine congrArg (fun value => Char.ofNat value :: decodeFrom none bs) ?_
    dsimp only
    omega
  · dsimp only
    omega
  · rfl
  · dsimp only
    omega
  · exact Nat.one_lt_two
  · dsimp only
    split_ifs <;> omega
  · exact Nat.one_lt_succ_succ 1

/-- **The bytes of a character are read as that character.** -/
theorem decodeFrom_char (c : Char) (bs : List UInt8) :
    decodeFrom none (String.utf8EncodeChar c ++ bs) = c :: decodeFrom none bs := by
  have hvalid : c.val.toNat < 0xD800 ∨ 0xDFFF < c.val.toNat ∧ c.val.toNat < 0x110000 := c.valid
  have hchar : Char.ofNat c.val.toNat = c := c.ofNat_toNat
  rw [String.utf8EncodeChar.eq_1]
  generalize c.val.toNat = v at hvalid hchar
  subst hchar
  split_ifs with h₁ h₂ h₃
  · have hlead : lead (UInt8.ofNat v).toNat = .whole (Char.ofNat v) := by
      rw [toNat_ofNat (by omega), lead, if_pos (by omega)]
    rw [List.singleton_append, decodeFrom, hlead]
  · exact decodeFrom_two (by omega) h₂ bs
  · exact decodeFrom_three (by omega) h₃ (by omega) bs
  · exact decodeFrom_four (by omega) (by omega) bs

/-- **Between characters, the bytes of a text are read as that text.** -/
theorem decodeFrom_chars (cs : List Char) :
    decodeFrom none (cs.flatMap String.utf8EncodeChar) = cs := by
  induction cs with
  | nil => rfl
  | cons c cs ih => rw [List.flatMap_cons, decodeFrom_char, ih]

/-! ## Texts -/

/-- The bytes of a text, in UTF-8. -/
def bytesOf (s : String) : List UInt8 := s.toUTF8.data.toList

theorem bytesOf_eq (s : String) : bytesOf s = s.toList.flatMap String.utf8EncodeChar := by
  obtain ⟨cs, rfl⟩ : ∃ cs, s = String.ofList cs := ⟨s.toList, String.ofList_toList.symm⟩
  rw [bytesOf, String.toUTF8_eq_toByteArray, String.toByteArray_ofList, List.utf8Encode,
    List.data_toByteArray, String.toList_ofList]

/-- The byte order mark, as a character. -/
def markChar : Char := Char.ofNat 0xFEFF

/-- The byte order mark. -/
def mark : List UInt8 := [0xEF, 0xBB, 0xBF]

theorem decodeFrom_mark (bs : List UInt8) :
    decodeFrom none (mark ++ bs) = markChar :: decodeFrom none bs :=
  decodeFrom_char markChar bs

theorem dropMark_eq (bs : List UInt8) : dropMark bs = bs ∨ ∃ rest, bs = mark ++ rest := by
  unfold dropMark
  split
  · exact Or.inr ⟨_, rfl⟩
  · exact Or.inl rfl

/-- **Behind a byte order mark a text is read as it is**… -/
theorem decode_mark_bytesOf (s : String) : decode (mark ++ bytesOf s) = s := by
  have hdrop : dropMark (mark ++ bytesOf s) = bytesOf s := rfl
  rw [decode, hdrop, bytesOf_eq, decodeFrom_chars, String.ofList_toList]

/-- …**and without one, unless it begins with one itself.** -/
theorem decode_bytesOf {s : String} (h : s.toList.head? ≠ some markChar) :
    decode (bytesOf s) = s := by
  have hchars : decodeFrom none (bytesOf s) = s.toList := by rw [bytesOf_eq, decodeFrom_chars]
  rcases dropMark_eq (bytesOf s) with hdrop | ⟨rest, hrest⟩
  · rw [decode, hdrop, hchars, String.ofList_toList]
  · rw [hrest, decodeFrom_mark] at hchars
    rw [← hchars] at h
    exact absurd rfl h

end Text.Utf8

namespace Content

open Text.Utf8

/-- **Text and bytes are one source file.**  If a text does not begin with `U+FEFF`, its bytes in
UTF-8, with a byte order mark in front of them or without, have the tokens of the text and its
outline, or its error. -/
theorem bytes_same_as_text {s : String} (h : s.toList.head? ≠ some (Char.ofNat 0xFEFF))
    (c : Content) (hc : c = .bytes s.toUTF8.data.toList
      ∨ c = .bytes ([0xEF, 0xBB, 0xBF] ++ s.toUTF8.data.toList)) :
    c.tokenize = (text s).tokenize ∧ c.outline = (text s).outline := by
  have hdecoded : c.decoded = s := by
    rcases hc with rfl | rfl
    · exact decode_bytesOf h
    · exact decode_mark_bytesOf s
  exact ⟨congrArg IncludeScan.tokenize hdecoded, congrArg Outline.ofText hdecoded⟩

/-- Characters of two, three and four bytes; the one of three is `U+FEFF`, and it stays. -/
theorem bytes_same_as_text_inner_mark :
    ((bytes [0xC3, 0xA9, 0xEF, 0xBB, 0xBF, 0xF0, 0x9F, 0x98, 0x80]).tokenize
      = (text "é\ufeff😀").tokenize
      ∧ (bytes [0xC3, 0xA9, 0xEF, 0xBB, 0xBF, 0xF0, 0x9F, 0x98, 0x80]).outline
        = (text "é\ufeff😀").outline)
    ∧ (bytes [0xEF, 0xBB, 0xBF, 0xC3, 0xA9, 0xEF, 0xBB, 0xBF, 0xF0, 0x9F, 0x98, 0x80]).tokenize
      = (text "é\ufeff😀").tokenize := by
  have hbytes :
      "é\ufeff😀".toUTF8.data.toList = [0xC3, 0xA9, 0xEF, 0xBB, 0xBF, 0xF0, 0x9F, 0x98, 0x80] :=
    (bytesOf_eq _).trans (by decide)
  have hfirst : "é\ufeff😀".toList.head? ≠ some (Char.ofNat 0xFEFF) := by decide
  exact ⟨bytes_same_as_text hfirst _ (Or.inl (congrArg bytes hbytes.symm)),
    (bytes_same_as_text hfirst _ (Or.inr (congrArg (fun bs => bytes (mark ++ bs)) hbytes.symm))).1⟩

end Content

end IncludeScan
