/-!
# Value/Instant — points in time

An instant counts milliseconds from the beginning of 1970.  A date whose month or day is out of
range means the one that lies as far on: the thirtieth of February is a day of March.

`Instant.read?` takes a date, or a date and a time of day with or without a fraction and an offset.
A year below one hundred belongs to the twentieth century.
-/

namespace IncludeScan

/-- A point in time. -/
structure Instant where
  millis : Int
deriving DecidableEq, Repr

namespace Instant

/-! ## The calendar -/

/-- The years and months with March as the first month, so that a leap day is the last of its
year. -/
def fromMarch (year month : Int) : Int × Int :=
  let m := month + 9
  (year + m / 12 - 1, m % 12)

/-- The days from the beginning of 1970 to the first of a month, where January is zero. -/
def daysToMonth (year month : Int) : Int :=
  let (y, m) := fromMarch year (month + 1)
  y * 365 + y / 4 - y / 100 + y / 400 + (153 * m + 2) / 5 - 719468

/-- A date of the calendar; January is zero. -/
structure Date where
  year : Int
  month : Int
  day : Int
deriving DecidableEq, Repr

/-- The date of the day that lies so many days behind the beginning of 1970. -/
def dateOfDay (days : Int) : Date :=
  let z := days + 719468
  let era := z / 146097
  let doe := z % 146097
  let yoe := (doe - doe / 1460 + doe / 36524 - doe / 146096) / 365
  let doy := doe - (365 * yoe + yoe / 4 - yoe / 100)
  let m := (5 * doy + 2) / 153
  let month := if m < 10 then m + 2 else m - 10
  ⟨yoe + era * 400 + (if month < 2 then 1 else 0), month, doy - (153 * m + 2) / 5 + 1⟩

/-- The milliseconds of a day. -/
def dayLength : Int := 86400000

/-- The instant at a date and a time of day in milliseconds. -/
def ofDate (d : Date) (millis : Int) : Instant :=
  let year := if d.year < 100 then d.year + 1900 else d.year
  ⟨(daysToMonth year d.month + d.day - 1) * dayLength + millis⟩

/-! ## Reading -/

/-- Takes a number of at least `least` and at most `most` digits. -/
def number? (least most : Nat) (cs : List Char) : Option (Nat × List Char) :=
  let digits := (cs.takeWhile Char.isDigit).take most
  if digits.length < least then none
  else some (digits.foldl (fun n c => n * 10 + (c.toNat - '0'.toNat)) 0, cs.drop digits.length)

/-- Takes one character. -/
def mark? (c : Char) (cs : List Char) : Option (List Char) :=
  if cs.head? = some c then some (cs.drop 1) else none

/-- Takes year, month and day; `least` is the number of digits that month and day have at least. -/
def date? (least : Nat) (cs : List Char) : Option (Date × List Char) := do
  let (year, cs) ← number? 4 4 cs
  let (month, cs) ← number? least 2 (← mark? '-' cs)
  let (day, cs) ← number? least 2 (← mark? '-' cs)
  return (⟨year, month - 1, day⟩, cs)

/-- A blank between the parts. -/
def isGap (c : Char) : Bool := c == ' ' || c == '\t'

/-- Takes what parts the date from the time of day: a letter or blanks. -/
def afterDate? (cs : List Char) : Option (List Char) :=
  match cs with
  | [] => none
  | c :: rest =>
    if c == 'T' || c == 't' then some rest
    else if isGap c then some (rest.dropWhile isGap)
    else none

/-- Takes the thousandths of a second; further digits are passed over. -/
def fraction (cs : List Char) : Nat × List Char :=
  match cs with
  | '.' :: rest =>
    let digits := rest.takeWhile Char.isDigit
    let thousandths := (digits ++ ['0', '0', '0']).take 3
    (thousandths.foldl (fun n c => n * 10 + (c.toNat - '0'.toNat)) 0, rest.dropWhile Char.isDigit)
  | _ => (0, cs)

/-- Takes the time of day in milliseconds. -/
def time? (cs : List Char) : Option (Int × List Char) := do
  let (hour, cs) ← number? 1 2 cs
  let (minute, cs) ← number? 2 2 (← mark? ':' cs)
  let (second, cs) ← number? 2 2 (← mark? ':' cs)
  let (thousandths, cs) := fraction cs
  return (((hour * 60 + minute) * 60 + second : Nat) * 1000 + thousandths, cs)

/-- Reads hours and minutes of an offset to the end, in milliseconds. -/
def offsetSize? (cs : List Char) : Option Int := do
  let (hours, cs) ← number? 1 2 cs
  match cs with
  | [] => return (hours : Int) * 3600000
  | _ =>
    let (minutes, cs) ← number? 2 2 (← mark? ':' cs)
    if cs.isEmpty then return ((hours : Int) * 60 + minutes) * 60000 else none

/-- Reads the offset from world time to the end; without one there is none. -/
def offset? (cs : List Char) : Option Int :=
  if cs.isEmpty then some 0
  else
    match cs.dropWhile isGap with
    | ['Z'] => some 0
    | '+' :: rest => offsetSize? rest
    | '-' :: rest => (offsetSize? rest).map fun size => -size
    | _ => none

/-- The instant that a text is. -/
def read? (cs : List Char) : Option Instant :=
  match date? 2 cs with
  | some (date, []) => some (ofDate date 0)
  | _ => do
    let (date, cs) ← date? 1 cs
    let (millis, cs) ← time? (← afterDate? cs)
    let offset ← offset? cs
    return ofDate date (millis - offset)

/-! ## Text -/

/-- The names of the days of the week. -/
def dayNames : List String := ["Sun", "Mon", "Tue", "Wed", "Thu", "Fri", "Sat"]

/-- The names of the months. -/
def monthNames : List String :=
  ["Jan", "Feb", "Mar", "Apr", "May", "Jun", "Jul", "Aug", "Sep", "Oct", "Nov", "Dec"]

/-- A number with zeros in front. -/
def padded (width : Nat) (n : Int) : String :=
  let digits := Nat.toDigits 10 n.natAbs
  String.ofList (List.replicate (width - digits.length) '0' ++ digits)

/-- The instant to the second, in world time. -/
def text (t : Instant) : String :=
  let days := t.millis / dayLength
  let seconds := t.millis % dayLength / 1000
  let d := dateOfDay days
  let dayName := dayNames.getD ((days + 4) % 7).toNat ""
  let monthName := monthNames.getD d.month.toNat ""
  dayName ++ " " ++ monthName ++ " " ++ padded 2 d.day ++ " " ++ padded 4 d.year ++ " "
    ++ padded 2 (seconds / 3600) ++ ":" ++ padded 2 (seconds / 60 % 60) ++ ":"
    ++ padded 2 (seconds % 60) ++ " GMT+0000 (Coordinated Universal Time)"

end Instant

end IncludeScan
