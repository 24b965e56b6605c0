/-!
# Text/Space — white space, trimming, and cutting text at separators

Settings, platform names and diagnostic names are trimmed by one class of characters, `isSpace`: the
white space and line ends of Unicode together with the byte order mark.  It is wider than the blanks
between tokens, which are ASCII only.

`pieces` cuts at every separator, so `n` separators always give `n + 1` pieces, some of them empty.
-/

namespace IncludeScan.Text

/-- First and last code point of each run of white space. -/
def spaceRuns : List (Nat × Nat) :=
  [(0x09, 0x0D), (0x20, 0x20), (0xA0, 0xA0), (0x1680, 0x1680), (0x2000, 0x200A),
    (0x2028, 0x2029), (0x202F, 0x202F), (0x205F, 0x205F), (0x3000, 0x3000), (0xFEFF, 0xFEFF)]

/-- White space, a line end, or a byte order mark. -/
def isSpace (c : Char) : Bool :=
  spaceRuns.any fun run => run.1 ≤ c.toNat && c.toNat ≤ run.2

/-- The characters without white space at either end. -/
def trimChars (cs : List Char) : List Char :=
  ((cs.dropWhile isSpace).reverse.dropWhile isSpace).reverse

/-- The text without white space at either end. -/
def trim (s : String) : String :=
  String.ofList (trimChars s.toList)

@[simp] theorem toList_trim (s : String) : (trim s).toList = trimChars s.toList := by
  simp [trim]

/-- The pieces between separators; the separators themselves are dropped. -/
def pieces (isSeparator : Char → Bool) : List Char → List (List Char)
  | [] => [[]]
  | c :: cs =>
    if isSeparator c then [] :: pieces isSeparator cs
    else
      match pieces isSeparator cs with
      | [] => [[c]]
      | piece :: others => (c :: piece) :: others

/-- The pieces of a text between occurrences of one character. -/
def splitAt (separator : Char) (s : String) : List String :=
  (pieces (· == separator) s.toList).map String.ofList

theorem pieces_ne_nil (isSeparator : Char → Bool) (cs : List Char) :
    pieces isSeparator cs ≠ [] := by
  cases cs with
  | nil => simp [pieces]
  | cons c cs => rw [pieces]; split <;> (try split) <;> simp

end IncludeScan.Text
