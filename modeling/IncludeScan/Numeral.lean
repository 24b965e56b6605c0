/-!
# Numeral — integer literals: hexadecimal, binary, octal, decimal, with length suffixes

A numeral is a base marker, digits, and a suffix.  `read?` takes the longest numeral at the front of
a text; `ofText?` accepts a text that is one numeral from end to end; `literal?` gives its value
when that is at most `limit`, the largest number up to which all integers are kept apart.
-/

namespace IncludeScan

/-- The base of a numeral. -/
inductive Base where
  | hexadecimal
  | binary
  | octal
  | decimal
deriving DecidableEq, Repr

namespace Base

/-- How many digits there are. -/
def radix : Base → Nat
  | .hexadecimal => 16
  | .binary => 2
  | .octal => 8
  | .decimal => 10

/-- The digits of a base. -/
def isDigit : Base → Char → Bool
  | .hexadecimal, c => c.isDigit || ('a' ≤ c && c ≤ 'f') || ('A' ≤ c && c ≤ 'F')
  | .binary, c => c == '0' || c == '1'
  | .octal, c => '0' ≤ c && c ≤ '7'
  | .decimal, c => c.isDigit

end Base

/-- An integer literal in its parts. -/
structure Numeral where
  base : Base
  marker : List Char
  digits : List Char
  suffix : List Char
deriving DecidableEq, Repr

namespace Numeral

/-- The value of one digit. -/
def digitValue (c : Char) : Nat :=
  if c.isDigit then c.toNat - '0'.toNat
  else if 'a' ≤ c && c ≤ 'f' then c.toNat - 'a'.toNat + 10
  else c.toNat - 'A'.toNat + 10

/-- The value of digits in a base, the most significant first. -/
def valueOf (base : Base) (digits : List Char) : Nat :=
  digits.foldl (fun n c => n * base.radix + digitValue c) 0

/-- The value of a numeral. -/
def value (n : Numeral) : Nat := valueOf n.base n.digits

/-- The numeral as written. -/
def spelling (n : Numeral) : List Char := n.marker ++ n.digits ++ n.suffix

/-! ## Reading -/

/-- A mark of an unsigned literal at the front. -/
def unsignedMark : List Char → List Char
  | 'u' :: _ => ['u']
  | 'U' :: _ => ['U']
  | _ => []

/-- A mark of a long literal at the front; both letters of a double mark are of one case. -/
def longMark : List Char → List Char
  | 'l' :: 'l' :: _ => ['l', 'l']
  | 'L' :: 'L' :: _ => ['L', 'L']
  | 'l' :: _ => ['l']
  | 'L' :: _ => ['L']
  | _ => []

/-- The longest suffix at the front: an unsigned and a long mark in either order, or one of them. -/
def suffixMark (cs : List Char) : List Char :=
  match unsignedMark cs with
  | [] => longMark cs ++ unsignedMark (cs.drop (longMark cs).length)
  | mark => mark ++ longMark (cs.drop mark.length)

/-- A numeral whose digits run as far as they can. -/
def withDigits (base : Base) (marker rest : List Char) : Numeral where
  base := base
  marker := marker
  digits := rest.takeWhile base.isDigit
  suffix := suffixMark (rest.dropWhile base.isDigit)

/-- The next character is a digit of the base. -/
def startsWithDigit (base : Base) : List Char → Bool
  | [] => false
  | c :: _ => base.isDigit c

/-- The longest numeral at the front of a text.  A base marker counts only if a digit follows; a
zero alone is an octal numeral without digits. -/
def read? : List Char → Option Numeral
  | '0' :: c :: rest =>
    if (c == 'x' || c == 'X') && startsWithDigit .hexadecimal rest then
      some (withDigits .hexadecimal ['0', c] rest)
    else if (c == 'b' || c == 'B') && startsWithDigit .binary rest then
      some (withDigits .binary ['0', c] rest)
    else some (withDigits .octal ['0'] (c :: rest))
  | ['0'] => some (withDigits .octal ['0'] [])
  | c :: rest => if c.isDigit then some (withDigits .decimal [] (c :: rest)) else none
  | [] => none

/-- The numeral that a text is, from end to end. -/
def ofText? (text : List Char) : Option Numeral :=
  match read? text with
  | some n => if n.spelling.length = text.length then some n else none
  | none => none

/-- The largest value that a literal may have, one below `2 ^ 53`. -/
def limit : Nat := 9007199254740991

example : limit = 2 ^ 53 - 1 := by decide

/-- The value, when it is within the limit. -/
def bounded? (n : Numeral) : Option Nat :=
  if n.value ≤ limit then some n.value else none

/-- The value of an integer literal. -/
def literal? (text : String) : Option Nat :=
  (ofText? text.toList).bind bounded?

/-! ## What is read is written -/

theorem unsignedMark_append_drop (cs : List Char) :
    unsignedMark cs ++ cs.drop (unsignedMark cs).length = cs := by
  unfold unsignedMark; split <;> simp

theorem longMark_append_drop (cs : List Char) :
    longMark cs ++ cs.drop (longMark cs).length = cs := by
  unfold longMark; split <;> simp

theorem suffixMark_append_drop (cs : List Char) :
    suffixMark cs ++ cs.drop (suffixMark cs).length = cs := by
  unfold suffixMark
  have hu := unsignedMark_append_drop
  have hl := longMark_append_drop
  split
  · have h₁ := hl cs
    have h₂ := hu (cs.drop (longMark cs).length)
    rw [List.append_assoc, List.length_append, ← List.drop_drop, h₂, h₁]
  · have h₁ := hu cs
    have h₂ := hl (cs.drop (unsignedMark cs).length)
    rw [List.append_assoc, List.length_append, ← List.drop_drop, h₂, h₁]

theorem withDigits_append_drop (base : Base) (marker rest : List Char) :
    ∃ tail, marker ++ rest = (withDigits base marker rest).spelling ++ tail := by
  refine ⟨(rest.dropWhile base.isDigit).drop (suffixMark (rest.dropWhile base.isDigit)).length, ?_⟩
  simp only [withDigits, spelling, List.append_assoc, suffixMark_append_drop,
    List.takeWhile_append_dropWhile]

/-- A numeral is never empty. -/
theorem length_spelling_pos {cs : List Char} {n : Numeral} (h : read? cs = some n) :
    0 < n.spelling.length := by
  unfold read? at h
  split at h
  · split at h
    · cases h; simp [withDigits, spelling]
    · split at h <;> (cases h; simp [withDigits, spelling])
  · cases h; simp [withDigits, spelling]
  · split at h
    · next hd => cases h; simp [withDigits, spelling, Base.isDigit, hd]
    · cases h
  · cases h

end Numeral

end IncludeScan
