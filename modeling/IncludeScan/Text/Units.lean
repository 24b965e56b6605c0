/-!
# Text/Units — 16-bit code units: how long a text is, and in which order texts are sorted

Offsets count 16-bit code units, and every sorted list of names is sorted by them.  A character
beyond the first plane is a pair of units from `0xD800` on, so it sorts below `U+FFFF` although its
code point is larger.
-/

namespace IncludeScan.Text

/-- The code units of one character: itself, or a surrogate pair. -/
def charUnits (c : Char) : List Nat :=
  if c.toNat < 0x10000 then [c.toNat]
  else [0xD800 + (c.toNat - 0x10000) / 0x400, 0xDC00 + (c.toNat - 0x10000) % 0x400]

/-- The code units of a text. -/
def units (s : String) : List Nat :=
  s.toList.flatMap charUnits

/-- How many code units the characters take. -/
def unitCount : List Char → Nat
  | [] => 0
  | c :: cs => (charUnits c).length + unitCount cs

@[simp] theorem unitCount_append (as bs : List Char) :
    unitCount (as ++ bs) = unitCount as + unitCount bs := by
  induction as with
  | nil => simp [unitCount]
  | cons c cs ih => simp [unitCount, ih, Nat.add_assoc]

theorem length_units (s : String) : (units s).length = unitCount s.toList := by
  rw [units]
  induction s.toList with
  | nil => rfl
  | cons c cs ih => simp [unitCount, ih]

/-- `a` sorts strictly before `b`, unit by unit. -/
def unitsLT (a b : String) : Bool :=
  decide (units a < units b)

/-- `b` does not sort before `a`. -/
def unitsLE (a b : String) : Bool :=
  !unitsLT b a

/-- The names in ascending order of their code units. -/
def sortNames (names : List String) : List String :=
  names.mergeSort unitsLE

end IncludeScan.Text
