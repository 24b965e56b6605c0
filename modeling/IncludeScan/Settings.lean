import IncludeScan.Diagnostic
import IncludeScan.Path.Variant
import IncludeScan.Text.Units
import IncludeScan.Value.Basic

/-!
# Settings — what a scan is asked to do

Settings are read from an untyped value.  Nothing is refused: a field that is missing or of the
wrong sort takes its default.  Texts are trimmed; lists hold each text once and no empty one, and
may be given as one text with commas or white space between the parts.
-/

namespace IncludeScan

/-- The platforms and macros to scan for, how paths are laid out, the diagnostics to leave out, and
whether to write about each file. -/
structure Settings where
  platforms : List String := []
  macros : List String := []
  grouping : Path.Layout := {}
  disable : List DiagnosticCode := []
  debug : Bool := false
deriving DecidableEq, Repr

namespace Settings

/-- A trimmed text; anything else is empty. -/
def readText : Value → String
  | .string s => Text.trim s
  | _ => ""

/-- A comma or white space. -/
def isListSeparator (c : Char) : Bool := c == ',' || Text.isSpace c

/-- The items of a list, or the parts of a text. -/
def readItems : Value → List Value
  | .array items => items
  | .string s => (Text.pieces isListSeparator s.toList).map fun piece =>
    .string (String.ofList piece)
  | _ => []

/-- The texts of a list, trimmed, each once and none of them empty. -/
def readList (v : Value) : List String :=
  (((readItems v).map readText).filter fun s => s != "").eraseDups

/-- The names of diagnostics in a list, or of those that a record sets to false. -/
def readDisabledNames : Value → List String
  | .object entries =>
    entries.filterMap fun (name, v) =>
      match v with
      | .bool false => some name
      | _ => none
  | v => readList v

/-- The diagnostics to leave out, in ascending order; unknown names are passed over. -/
def readDisabled (v : Value) : List DiagnosticCode :=
  let named := (readDisabledNames v).filterMap DiagnosticCode.ofName?
  DiagnosticCode.all.filter fun code => named.contains code

/-- The diagnostics to leave out are given with the name of something that is no code. -/
def readStray (v : Value) : Bool := (readDisabledNames v).any DiagnosticCode.isStray

/-- A search for headers. -/
def readSearch (v : Value) : Path.Search :=
  ⟨readText (v.get "stripIncludePrefix"), readText (v.get "includePrefix")⟩

/-- The records of a list, as searches. -/
def readSearches : Value → List Path.Search
  | .array items =>
    items.filterMap fun v => v.entries?.map fun _ => readSearch v
  | _ => []

/-- The layout of a package. -/
def readLayout (v : Value) : Path.Layout where
  rel := readText (v.get "rel")
  strip := readText (v.get "stripIncludePrefix")
  front := readText (v.get "includePrefix")
  searches := readSearches (v.get "searches")

/-- Reads settings. -/
def read (v : Value) : Settings where
  platforms := readList (v.get "platforms")
  macros := readList (v.get "macros")
  grouping := readLayout (v.get "grouping")
  disable := readDisabled ((v.get "diagnostics").get "disable")
  debug := (v.get "debug").isTrue

end Settings

/-- Settings and whether something that is no code stands among the diagnostics to leave out.  No
diagnostic has it, so that a scan goes by the settings alone. -/
structure ReadSettings extends Settings where
  stray : Bool := false
deriving DecidableEq, Repr

/-- Reads settings with all that stands in them. -/
def ReadSettings.ofValue (v : Value) : ReadSettings where
  toSettings := Settings.read v
  stray := Settings.readStray ((v.get "diagnostics").get "disable")

end IncludeScan
