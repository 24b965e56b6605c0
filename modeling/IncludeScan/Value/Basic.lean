import IncludeScan.Text.Space
import IncludeScan.Value.Instant
import IncludeScan.Value.Number

/-!
# Value/Basic — untyped data: what settings and tables are before they are read

A value is null, a truth value, a number, a text, a point in time, a list, or a record.  A point in
time counts as a record too, one without entries.

The entries of a record have an order.  A key that is written again keeps its place and takes the
later value; keys that are written like an array index come first, in ascending order.
-/

namespace IncludeScan

/-! ## Order of entries -/

namespace Entries

variable {α : Type}

/-- The number that a key is, if it is written like an array index: decimal, without leading zeros,
and below `2 ^ 32 - 1`. -/
def index? (key : String) : Option Nat :=
  match key.toList with
  | [] => none
  | ['0'] => some 0
  | c :: cs =>
    if c != '0' && (c :: cs).all Char.isDigit then
      let n := (c :: cs).foldl (fun n d => n * 10 + (d.toNat - '0'.toNat)) 0
      if n < 4294967295 then some n else none
    else none

/-- Writes an entry behind the others, or over the one of that key. -/
def write (entries : List (String × α)) (key : String) (value : α) : List (String × α) :=
  match entries with
  | [] => [(key, value)]
  | e :: es => if e.1 == key then (key, value) :: es else e :: write es key value

/-- The entries that are left when each is written in turn. -/
def written (pairs : List (String × α)) : List (String × α) :=
  pairs.foldl (fun entries p => write entries p.1 p.2) []

/-- Writes those entries whose keys are not there yet. -/
def fill (entries others : List (String × α)) : List (String × α) :=
  others.foldl (fun es e => if (es.lookup e.1).isSome then es else write es e.1 e.2) entries

/-- Entries with index-like keys in front, in ascending order. -/
def indexFirst (entries : List (String × α)) : List (String × α) :=
  let indexed := entries.filterMap fun e => (index? e.1).map fun n => (n, e)
  (indexed.mergeSort fun a b => a.1 ≤ b.1).map Prod.snd
    ++ entries.filter fun e => (index? e.1).isNone

/-- The entries of a record from the pairs as they are written. -/
def ofPairs (pairs : List (String × α)) : List (String × α) :=
  indexFirst (written pairs)

end Entries

/-- Untyped data. -/
inductive Value where
  | null
  | bool (b : Bool)
  | number (n : Number)
  | string (s : String)
  | instant (t : Instant)
  | array (items : List Value)
  | object (entries : List (String × Value))
deriving Inhabited

namespace Value

/-- A record from the pairs as they are written. -/
def ofPairs (pairs : List (String × Value)) : Value := .object (Entries.ofPairs pairs)

/-- The entries of a record. -/
def entries? : Value → Option (List (String × Value))
  | .object entries => some entries
  | .instant _ => some []
  | _ => none

/-- The items of a list. -/
def items : Value → List Value
  | .array items => items
  | _ => []

/-- The text that a value is; any other value has none. -/
def text : Value → String
  | .string s => s
  | _ => ""

/-- The integer that a value is. -/
def integer? : Value → Option Int
  | .number n => n.toInt?
  | _ => none

/-- The value is true, and not only taken for it. -/
def isTrue : Value → Bool
  | .bool b => b
  | _ => false

/-- Nothing worth the name: null, false, zero, no number, or the empty text. -/
def isBlank : Value → Bool
  | .null => true
  | .bool b => !b
  | .number (.finite value) => value == 0
  | .number .undefined => true
  | .string s => s == ""
  | _ => false

/-- The value at a key of a record, and null where there is none. -/
def get (v : Value) (key : String) : Value :=
  match v with
  | .object entries => (entries.lookup key).getD .null
  | _ => .null

mutual

/-- Two values are the same; the order of entries does not matter. -/
def same : Value → Value → Bool
  | .null, .null => true
  | .bool a, .bool b => a == b
  | .number a, .number b => a == b
  | .string a, .string b => a == b
  | .instant a, .instant b => a == b
  | .array as, .array bs => sameItems as bs
  | .object as, .object bs => as.length == bs.length && sameEntries as bs
  | _, _ => false

/-- The items of two lists are the same, one by one. -/
def sameItems : List Value → List Value → Bool
  | [], [] => true
  | a :: as, b :: bs => same a b && sameItems as bs
  | _, _ => false

/-- Each entry of the first list has an equal in the second. -/
def sameEntries : List (String × Value) → List (String × Value) → Bool
  | [], _ => true
  | (key, a) :: as, bs =>
    (match bs.lookup key with
      | some b => same a b
      | none => false) && sameEntries as bs

end

end Value

end IncludeScan
