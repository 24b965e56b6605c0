import IncludeScan.Value.Schema

/-!
# Platform/File — the file that lists platforms and their predefined macros

A platform file names the known operating systems and architectures, other names for them, and rules
that define macros on combinations of them.  It is a value that `PlatformFile.schema` describes;
`PlatformFile.ofValue` takes the fields out of it, without looking at what else a value may be.
-/

namespace IncludeScan

/-- All known names, or some. -/
inductive NameList where
  | every
  | listed (names : List String)
deriving DecidableEq, Repr

/-- Macros that are defined with one value on all pairs of some operating systems and
architectures. -/
structure MacroRule where
  names : List String
  value : Int := 1
  os : NameList
  arch : NameList
  /-- The macros are defined for the operating systems alone, too. -/
  anyArch : Bool := false
  /-- The macros are defined for the architectures alone, too. -/
  anyOs : Bool := false
deriving DecidableEq, Repr

/-- What a platform file says. -/
structure PlatformFile where
  os : List String
  arch : List String
  osAliases : List (String × String) := []
  archAliases : List (String × String) := []
  rules : List MacroRule
deriving DecidableEq, Repr

/-! ## What a platform file has to be -/

namespace Schema

/-- A name. -/
def name : Schema := .text .name

/-- A star for all names, or a list of names. -/
def nameList : Schema := .oneOf (.constant "*") (.list name true false)

/-- Other names, each with the name that it stands for. -/
def aliasMap : Schema := .mapping name

/-- A rule. -/
def macroRule : Schema :=
  .record ["names", "os", "arch"]
    [("names", .list (.text .identifier) true false), ("value", .integer), ("os", nameList),
      ("arch", nameList), ("anyArch", .boolean), ("anyOs", .boolean)]

end Schema

/-- What a platform file has to be. -/
def PlatformFile.schema : Schema :=
  .record ["os", "arch", "macros"]
    [("os", .list .name true true), ("arch", .list .name true true),
      ("aliases", .record [] [("os", .aliasMap), ("arch", .aliasMap)]),
      ("macros", .list .macroRule false false)]

/-! ## What it says -/

/-- The texts of a list. -/
def Value.texts (v : Value) : List String := v.items.map Value.text

/-- The texts of a record, each with its key. -/
def Value.textEntries (v : Value) : List (String × String) :=
  (v.entries?.getD []).map fun e => (e.1, e.2.text)

/-- The names that a value lists. -/
def NameList.ofValue (v : Value) : NameList :=
  if v.text = "*" then .every else .listed v.texts

/-- The rule in a record. -/
def MacroRule.ofValue (v : Value) : MacroRule where
  names := (v.get "names").texts
  value := (v.get "value").integer?.getD 1
  os := .ofValue (v.get "os")
  arch := .ofValue (v.get "arch")
  anyArch := (v.get "anyArch").isTrue
  anyOs := (v.get "anyOs").isTrue

/-- The platform file in a value. -/
def PlatformFile.ofValue (v : Value) : PlatformFile where
  os := (v.get "os").texts
  arch := (v.get "arch").texts
  osAliases := ((v.get "aliases").get "os").textEntries
  archAliases := ((v.get "aliases").get "arch").textEntries
  rules := (v.get "macros").items.map MacroRule.ofValue

end IncludeScan
