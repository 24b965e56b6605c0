import IncludeScan.Value.Number

/-!
# Value/Decimal — numbers as decimal text

A number is written with the fewest decimal digits that are read as the same number, and of several
such decimals as the nearest one; of two equally near as the one with an even last digit.  Up to
twenty-one places before the point and six zeros behind it are written out; other numbers have an
exponent.
-/

namespace IncludeScan

/-- Digits times a power of ten. -/
structure Decimal where
  digits : Nat
  exponent : Int
deriving DecidableEq, Repr

namespace Decimal

/-- A fraction divided by a power of ten. -/
def scaled (num den : Nat) (exponent : Int) : Nat × Nat :=
  (num * Nat.pow 10 (-exponent).toNat, den * Nat.pow 10 exponent.toNat)

/-- How many digits a positive fraction has before the point; negative when zeros follow it. -/
def places (num den : Nat) : Int :=
  let guess : Int := ((Nat.toDigits 10 num).length : Int) - (Nat.toDigits 10 den).length
  let (n, d) := scaled num den guess
  if n < d then guess else guess + 1

/-- The decimal is read as this number. -/
def readsAs (d : Decimal) (value : Rat) : Bool :=
  Number.ofDecimal false d.digits d.exponent == .finite value

/-- The decimal of `count` digits that is nearest to a positive number and read as it, if there is
one: one of its two neighbours of so many digits. -/
def ofLength? (value : Rat) (count : Nat) : Option Decimal :=
  let num := value.num.natAbs
  let exponent := places num value.den - count
  let (n, d) := scaled num value.den exponent
  let below : Decimal := ⟨n / d, exponent⟩
  let above : Decimal := ⟨n / d + 1, exponent⟩
  let near := if Number.roundDiv n d = n / d then [below, above] else [above, below]
  near.find? fun candidate => candidate.readsAs value

/-- The shortest decimal that is read as a positive number.  Seventeen digits are always enough. -/
def shortest (value : Rat) : Decimal :=
  ((List.range 17).findSome? fun n => ofLength? value (n + 1)).getD ⟨value.num.natAbs, 0⟩

/-- The decimal without zeros at the end of its digits. -/
def stripped (d : Decimal) : List Char × Int :=
  let all := Nat.toDigits 10 d.digits
  let kept := (all.reverse.dropWhile (· == '0')).reverse
  (kept, d.exponent + (all.length - kept.length))

/-- The exponent with its sign. -/
def exponentText (n : Int) : String :=
  "e" ++ (if n < 0 then "-" else "+") ++ toString n.natAbs

/-- Digits and a point with `point` of the digits before it. -/
def layout (digits : List Char) (point : Int) : String :=
  let zeros (n : Int) : List Char := List.replicate n.toNat '0'
  if digits.length ≤ point ∧ point ≤ 21 then String.ofList (digits ++ zeros (point - digits.length))
  else if 0 < point ∧ point ≤ 21 then
    String.ofList (digits.take point.toNat ++ '.' :: digits.drop point.toNat)
  else if -6 < point ∧ point ≤ 0 then String.ofList ('0' :: '.' :: (zeros (-point) ++ digits))
  else
    match digits with
    | [] => "0"
    | [d] => String.ofList [d] ++ exponentText (point - 1)
    | d :: ds => String.ofList (d :: '.' :: ds) ++ exponentText (point - 1)

/-- A positive number as text. -/
def textOf (value : Rat) : String :=
  let (digits, exponent) := (shortest value).stripped
  layout digits (digits.length + exponent)

end Decimal

/-- A number as text. -/
def Number.text : Number → String
  | .finite value =>
    if value.num = 0 then "0"
    else if value.num < 0 then "-" ++ Decimal.textOf (-value)
    else Decimal.textOf value
  | .infinite negative => if negative then "-Infinity" else "Infinity"
  | .undefined => "NaN"

end IncludeScan
