import IncludeScan.Value.Basic

/-!
# Value/Scalar — what an unquoted word of YAML means

A word is null, a truth value, an integer, a float, or a point in time if it is spelled like one,
and otherwise it is text.  Integers are decimal, or have a base behind a zero.  Digits that make a
number too large to be finite are text.
-/

namespace IncludeScan.Yaml

/-- Splits a sign off. -/
def signed : List Char → Bool × List Char
  | '-' :: cs => (true, cs)
  | '+' :: cs => (false, cs)
  | cs => (false, cs)

/-- The value of a digit, if the base has it. -/
def digit? (radix : Nat) (c : Char) : Option Nat :=
  let value :=
    if c.isDigit then c.toNat - '0'.toNat
    else if 'a' ≤ c ∧ c ≤ 'f' then c.toNat - 'a'.toNat + 10
    else if 'A' ≤ c ∧ c ≤ 'F' then c.toNat - 'A'.toNat + 10
    else radix
  if value < radix then some value else none

/-- Digits as a number; there is one at least. -/
def digits? (radix : Nat) (cs : List Char) : Option Nat :=
  if cs.isEmpty then none else cs.foldlM (fun n c => (digit? radix c).map (n * radix + ·)) 0

/-- The size of an integer without its sign. -/
def magnitude? : List Char → Option Nat
  | '0' :: 'b' :: cs => digits? 2 cs
  | '0' :: 'x' :: cs => digits? 16 cs
  | '0' :: 'o' :: cs => digits? 8 cs
  | cs => digits? 10 cs

/-- An integer. -/
def integer? (cs : List Char) : Option Number :=
  let (negative, size) := signed cs
  (magnitude? size).map fun n => Number.ofFraction negative n 1

/-- An exponent behind its mark, or nothing at all. -/
def exponent? : List Char → Option Int
  | [] => some 0
  | c :: cs =>
    if c == 'e' || c == 'E' then
      let (negative, size) := signed cs
      (digits? 10 size).map fun n => if negative then -(n : Int) else n
    else none

/-- A decimal number with a point or an exponent.  Without a digit before the point it has no
sign. -/
def decimal? (cs : List Char) : Option Number :=
  let (negative, size) := signed cs
  let whole := size.takeWhile Char.isDigit
  let behind := size.dropWhile Char.isDigit
  let fraction := match behind with
    | '.' :: rest => rest.takeWhile Char.isDigit
    | _ => []
  let tail := match behind with
    | '.' :: rest => rest.dropWhile Char.isDigit
    | rest => rest
  if whole.isEmpty && (fraction.isEmpty || size.length != cs.length) then none
  else do
    let exponent ← exponent? tail
    let n := (whole ++ fraction).foldl (fun n c => n * 10 + (c.toNat - '0'.toNat)) 0
    return Number.ofDecimal negative n (exponent - fraction.length)

/-- One of the words for what is not a finite number. -/
def boundless? (cs : List Char) : Option Number :=
  let (negative, size) := signed cs
  if [".inf", ".Inf", ".INF"].contains (String.ofList size) then some (.infinite negative)
  else if [".nan", ".NaN", ".NAN"].contains (String.ofList cs) then some .undefined
  else none

/-- The number that a word is. -/
def number? (cs : List Char) : Option Number :=
  (boundless? cs).or (((integer? cs).or (decimal? cs)).filter Number.isFinite)

/-- The value of an unquoted word. -/
def scalar (word : String) : Value :=
  if ["", "~", "null", "Null", "NULL"].contains word then .null
  else if ["true", "True", "TRUE"].contains word then .bool true
  else if ["false", "False", "FALSE"].contains word then .bool false
  else
    match number? word.toList with
    | some n => .number n
    | none =>
      match Instant.read? word.toList with
      | some t => .instant t
      | none => .string word

end IncludeScan.Yaml
