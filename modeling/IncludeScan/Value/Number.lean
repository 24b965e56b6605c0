/-!
# Value/Number — numbers of 53 significant binary digits

A number of a table is the one of these that lies nearest to what is written, and of two equally
near the one with an even last digit.  Exponents are bounded: what is too small becomes zero, and
what is too large is infinite.

The rounding is done on fractions, in exact arithmetic, so a finite number is kept as the fraction
that it is.
-/

namespace IncludeScan

/-- A number, or what stands where there is none. -/
inductive Number where
  | finite (value : Rat)
  | infinite (negative : Bool)
  | undefined
deriving DecidableEq

namespace Number

/-- A fraction divided by a power of two. -/
def scaled (num den : Nat) (exponent : Int) : Nat × Nat :=
  (num * Nat.pow 2 (-exponent).toNat, den * Nat.pow 2 exponent.toNat)

/-- The exponent of the greatest power of two that is not above a positive fraction. -/
def logTwo (num den : Nat) : Int :=
  let guess : Int := (Nat.log2 num : Int) - Nat.log2 den
  let (n, d) := scaled num den guess
  if d ≤ n then guess else guess - 1

/-- The natural number nearest to a fraction; of two the even one. -/
def roundDiv (num den : Nat) : Nat :=
  let low := num / den
  let excess := 2 * (num % den)
  if excess < den then low
  else if den < excess then low + 1
  else if low % 2 = 0 then low else low + 1

/-- The exponent of the last binary digit that a number of this size has. -/
def lastPlace (num den : Nat) : Int := max (-1074) (logTwo num den - 52)

/-- The number nearest to a fraction without its sign; nothing when it is too large. -/
def nearest? (num den : Nat) : Option Rat :=
  if num = 0 then some 0
  else
    let place := lastPlace num den
    let (n, d) := scaled num den place
    let (top, bottom) := scaled (roundDiv n d) 1 (-place)
    if bottom * Nat.pow 2 1024 ≤ top then none else some (mkRat top bottom)

/-- The number nearest to a fraction. -/
def ofFraction (negative : Bool) (num den : Nat) : Number :=
  match nearest? num den with
  | some size => .finite (if negative then -size else size)
  | none => .infinite negative

/-- The number nearest to decimal digits times a power of ten.  Far outside the range of the
exponents the power need not be worked out. -/
def ofDecimal (negative : Bool) (digits : Nat) (exponent : Int) : Number :=
  let places : Int := (Nat.toDigits 10 digits).length + exponent
  if digits = 0 ∨ places < -400 then .finite 0
  else if 400 < places then .infinite negative
  else ofFraction negative (digits * Nat.pow 10 exponent.toNat) (Nat.pow 10 (-exponent).toNat)

/-- The number is neither infinite nor undefined. -/
def isFinite : Number → Bool
  | .finite _ => true
  | _ => false

/-- The integer that a number is. -/
def toInt? : Number → Option Int
  | .finite value => if value.den = 1 then some value.num else none
  | _ => none

end Number

end IncludeScan
