/-!
# Text/Utf8 — reading bytes as UTF-8, with replacement of what is not

A reader of one byte at a time.  Between characters a byte is a character of its own, opens a longer
one, or is out of place; inside a character the next byte has to lie in a range that depends on the
bytes before it.  When it does not, the bytes so far give one replacement character and the byte is
read again as a first one, so each maximal ill-formed part is replaced once.

One byte order mark in front of the text is dropped.
-/

namespace IncludeScan.Text.Utf8

/-- What stands for an ill-formed part. -/
def replacement : Char := Char.ofNat 0xFFFD

/-- A character of which some bytes are read: `needed` more follow, the next one between `lower` and
`upper`, and `value` holds the bits read so far. -/
structure Pending where
  needed : Nat
  value : Nat
  lower : Nat := 0x80
  upper : Nat := 0xBF

/-- What a byte means between characters. -/
inductive Lead where
  | whole (c : Char)
  | opens (p : Pending)
  | misplaced

/-- The role of a byte that stands first. -/
def lead (b : Nat) : Lead :=
  if b < 0x80 then .whole (Char.ofNat b)
  else if b < 0xC2 then .misplaced
  else if b < 0xE0 then .opens { needed := 1, value := b - 0xC0 }
  else if b = 0xE0 then .opens { needed := 2, value := 0, lower := 0xA0 }
  else if b = 0xED then .opens { needed := 2, value := 0xD, upper := 0x9F }
  else if b < 0xF0 then .opens { needed := 2, value := b - 0xE0 }
  else if b = 0xF0 then .opens { needed := 3, value := 0, lower := 0x90 }
  else if b = 0xF4 then .opens { needed := 3, value := 4, upper := 0x8F }
  else if b < 0xF4 then .opens { needed := 3, value := b - 0xF0 }
  else .misplaced

/-- Reads on from inside a character, or between characters when nothing is pending. -/
def decodeFrom : Option Pending → List UInt8 → List Char
  | none, [] => []
  | some _, [] => [replacement]
  | none, b :: bs =>
    match lead b.toNat with
    | .whole c => c :: decodeFrom none bs
    | .opens p => decodeFrom (some p) bs
    | .misplaced => replacement :: decodeFrom none bs
  | some p, b :: bs =>
    if p.lower ≤ b.toNat ∧ b.toNat ≤ p.upper then
      let value := p.value * 0x40 + (b.toNat - 0x80)
      if p.needed ≤ 1 then Char.ofNat value :: decodeFrom none bs
      else decodeFrom (some { needed := p.needed - 1, value }) bs
    else
      replacement ::
        match lead b.toNat with
        | .whole c => c :: decodeFrom none bs
        | .opens p => decodeFrom (some p) bs
        | .misplaced => replacement :: decodeFrom none bs

/-- The bytes without one byte order mark in front. -/
def dropMark : List UInt8 → List UInt8
  | 0xEF :: 0xBB :: 0xBF :: bs => bs
  | bs => bs

/-- The text that the bytes spell. -/
def decode (bytes : List UInt8) : String :=
  String.ofList (decodeFrom none (dropMark bytes))

end IncludeScan.Text.Utf8
