import IncludeScan.Token.Basic
import IncludeScan.Value.Basic

/-!
# Value/Schema — what a value has to be

A schema describes values by their sort and by what is inside them.  Which values it describes is
said by `Schema.Accepts`, without a way to find out; a *checker* finds out, and says what is wrong
otherwise.
-/

namespace IncludeScan

/-- How a text has to be spelled. -/
inductive Spelling where
  /-- Letters, digits, underscores and hyphens. -/
  | name
  /-- An identifier. -/
  | identifier
deriving DecidableEq, Repr

namespace Spelling

/-- The rule as a regular expression. -/
def pattern : Spelling → String
  | .name => "^[A-Za-z0-9_-]+$"
  | .identifier => "^[A-Za-z_][A-Za-z0-9_]*$"

/-- The text is spelled so. -/
def accepts : Spelling → String → Bool
  | .name, s => s != "" && s.toList.all fun c => isIdentPart c || c == '-'
  | .identifier, s => isIdentifier s

end Spelling

/-- What a value has to be. -/
inductive Schema where
  /-- A text that is spelled so. -/
  | text (spelling : Spelling)
  /-- This text and no other value. -/
  | constant (s : String)
  /-- A number that is an integer, however it is written. -/
  | integer
  | boolean
  /-- A list of such items; it may have to hold one, and none twice. -/
  | list (item : Schema) (nonempty distinct : Bool)
  /-- Exactly one of the two. -/
  | oneOf (first second : Schema)
  /-- A record with fields of these names and no others, of which the required ones have to be
  there. -/
  | record (required : List String) (fields : List (String × Schema))
  /-- A record with such an entry at every key. -/
  | mapping (item : Schema)

namespace Schema

mutual

/-- **The values that a schema describes.** -/
def Accepts : Schema → Value → Prop
  | .text spelling, v => ∃ s, v = .string s ∧ spelling.accepts s = true
  | .constant s, v => v = .string s
  | .integer, v => ∃ n i, v = .number n ∧ n.toInt? = some i
  | .boolean, v => ∃ b, v = .bool b
  | .list item nonempty distinct, v =>
    ∃ items, v = .array items ∧ (nonempty = true → items ≠ []) ∧ (∀ w ∈ items, item.Accepts w)
      ∧ (distinct = true → items.Pairwise fun a b => Value.same b a = false)
  | .oneOf first second, v =>
    first.Accepts v ∧ ¬ second.Accepts v ∨ ¬ first.Accepts v ∧ second.Accepts v
  | .record required fields, v =>
    ∃ entries, v.entries? = some entries ∧ (∀ key ∈ required, (entries.lookup key).isSome = true)
      ∧ (∀ e ∈ entries, e.1 ∈ fields.map Prod.fst) ∧ AcceptsFields fields entries
  | .mapping item, v => ∃ entries, v.entries? = some entries ∧ ∀ e ∈ entries, item.Accepts e.2

/-- The entries that are there are what the fields of their names have to be. -/
def AcceptsFields : List (String × Schema) → List (String × Value) → Prop
  | [], _ => True
  | (key, field) :: fields, entries =>
    (∀ w, entries.lookup key = some w → field.Accepts w) ∧ AcceptsFields fields entries

end

end Schema

/-- What is wrong with a value, and where in it. -/
structure Objection where
  place : String
  wording : String
deriving DecidableEq, Repr

/-- The place and what is wrong there in one line. -/
def Objection.message (c : Objection) : String := c.place ++ " " ++ c.wording

end IncludeScan
