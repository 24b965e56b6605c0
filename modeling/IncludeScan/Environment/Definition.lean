import IncludeScan.Environment.Basic
import IncludeScan.Numeral
import IncludeScan.Token.Basic

/-!
# Environment/Definition — macro definitions as they are given on a command line

A definition is a name, or a name and an integer joined by an equals sign, with or without `-D` in
front.  Without a value, or with an empty one, the macro is 1.  The value is a numeral that is not
binary.  A list of definitions is read as a whole: either all are good and the later ones win, or
each bad one is reported.
-/

namespace IncludeScan

/-- A macro and its value. -/
structure Definition where
  name : String
  value : Int
deriving DecidableEq, Repr

/-- What is wrong with a definition. -/
inductive DefinitionError where
  | badName (name : String)
  | badValue (name raw : String)
deriving DecidableEq, Repr

/-- The wording of a definition's error. -/
def DefinitionError.message : DefinitionError → String
  | .badName name => "invalid macro name \"" ++ name ++ "\""
  | .badValue name raw =>
    "macro " ++ name ++ "=" ++ raw ++ ", only integer literal values are allowed"

namespace Definition

/-- The text without the option's name in front. -/
def dropOption : List Char → List Char
  | '-' :: 'D' :: cs => cs
  | cs => cs

/-- The value of a numeral that is not binary. -/
def plainValue? (raw : List Char) : Option Nat :=
  match Numeral.ofText? raw with
  | some n => if n.base = .binary then none else n.bounded?
  | none => none

/-- Reads one definition. -/
def parse (text : String) : Except DefinitionError Definition :=
  let body := dropOption text.toList
  let name := String.ofList (body.takeWhile (· != '='))
  let raw := (body.dropWhile (· != '=')).drop 1
  if !isIdentifier name then .error (.badName name)
  else if raw.isEmpty then .ok ⟨name, 1⟩
  else
    match plainValue? raw with
    | some n => .ok ⟨name, n⟩
    | none => .error (.badValue name (String.ofList raw))

end Definition

/-- The definitions that could not be read, as they were given, each with its error. -/
structure DefinitionFailures where
  failures : List (String × DefinitionError)
deriving DecidableEq, Repr

/-- One line for each bad definition under a heading. -/
def DefinitionFailures.message (e : DefinitionFailures) : String :=
  "Invalid macro definitions:\n" ++ "\n".intercalate
    (e.failures.map fun f => "failed to parse " ++ f.1 ++ ": " ++ f.2.message)

namespace Environment

/-- The definitions that can be read, in order. -/
def readable (texts : List String) : List Definition :=
  texts.filterMap fun text => (Definition.parse text).toOption

/-- The definitions that cannot be read, in order. -/
def unreadable (texts : List String) : List (String × DefinitionError) :=
  texts.filterMap fun text =>
    match Definition.parse text with
    | .ok _ => none
    | .error e => some (text, e)

/-- The environment that a list of definitions makes. -/
def ofDefinitions (texts : List String) : Except DefinitionFailures Environment :=
  if (unreadable texts).isEmpty then
    .ok ((readable texts).foldl (fun env d => env.define d.name d.value) .empty)
  else .error ⟨unreadable texts⟩

end Environment

end IncludeScan
