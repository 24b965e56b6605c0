/-!
# Text/Case — letter case, as far as it can make a name of ASCII letters

Names that are compared without regard to case consist of ASCII letters.  A character matters only
if its other case is such a letter: the ASCII letters themselves, the long s and the dotless i going
up, the kelvin sign going down.  All other characters are kept, as no spelling of them can match.
-/

namespace IncludeScan.Text

/-- Upper case, where it is an ASCII letter. -/
def upperChar (c : Char) : Char :=
  if c = Char.ofNat 0x17F then 'S'
  else if c = Char.ofNat 0x131 then 'I'
  else c.toUpper

/-- Lower case, where it is an ASCII letter. -/
def lowerChar (c : Char) : Char :=
  if c = Char.ofNat 0x212A then 'k' else c.toLower

end IncludeScan.Text
