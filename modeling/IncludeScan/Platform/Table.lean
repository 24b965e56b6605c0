import IncludeScan.Environment.Basic
import IncludeScan.Platform.Basic
import IncludeScan.Platform.File

/-!
# Platform/Table — the predefined macros of each platform

A table is made from a platform file, rule by rule: a later rule that defines the same macro on the
same platform wins.  A rule may only list names that the file knows.

A platform is given as `os/arch`, with one side empty for every value there, and by other names if
the file has them.
-/

namespace IncludeScan

/-- Why there is no table, or no such platform. -/
inductive PlatformError where
  | unknownRuleOs (name : String)
  | unknownRuleArch (name : String)
  | noName
  | unknownOs (name : String) (known others : List String)
  | unknownArch (name : String) (known others : List String)
  | notAPair (text : String)
deriving DecidableEq, Repr

/-- The wording of a platform error. -/
def PlatformError.message : PlatformError → String
  | .unknownRuleOs name => "macro table refers to unknown OS \"" ++ name ++ "\""
  | .unknownRuleArch name => "macro table refers to unknown architecture \"" ++ name ++ "\""
  | .noName => "platform needs an OS, an architecture or both"
  | .unknownOs name known others => "unknown OS " ++ name ++ expected known others
  | .unknownArch name known others => "unknown architecture " ++ name ++ expected known others
  | .notAPair text => "invalid platform \"" ++ text ++ "\", expected <os>/<arch>"
where
  /-- What would have been right. -/
  expected (known others : List String) : String :=
    ", expected one of known values " ++ ", ".intercalate known ++ " or an alias "
      ++ ", ".intercalate others

/-- The known names, the other names for them, and the macros of each platform by its key. -/
structure PlatformTable where
  os : List String
  arch : List String
  osAliases : List (String × String)
  archAliases : List (String × String)
  environments : List (String × Environment)

namespace PlatformTable

/-! ## Building a table -/

/-- The names that a list stands for, or the first that is not known. -/
def expand (known : List String) : NameList → Except String (List String)
  | .every => .ok known
  | .listed names =>
    match names.find? fun name => !known.contains name with
    | some name => .error name
    | none => .ok names

/-- The platforms on which a rule defines its macros, from its expanded lists. -/
def targets (rule : MacroRule) (oses archs : List String) : List Platform :=
  (oses.flatMap fun os => archs.map fun arch => ⟨os, arch⟩)
    ++ (if rule.anyArch then oses.map fun os => ⟨os, ""⟩ else [])
    ++ (if rule.anyOs then archs.map fun arch => ⟨"", arch⟩ else [])

/-- Changes the environment at a key, which is empty at first. -/
def update (environments : List (String × Environment)) (key : String)
    (change : Environment → Environment) : List (String × Environment) :=
  match environments with
  | [] => [(key, change .empty)]
  | (k, env) :: others =>
    if k == key then (k, change env) :: others else (k, env) :: update others key change

/-- Defines the macros of a rule in an environment. -/
def defineAll (rule : MacroRule) (env : Environment) : Environment :=
  rule.names.foldl (fun env name => env.define name rule.value) env

/-- Adds a rule. -/
def addRule (file : PlatformFile) (environments : List (String × Environment)) (rule : MacroRule) :
    Except PlatformError (List (String × Environment)) := do
  let oses ← (expand file.os rule.os).mapError .unknownRuleOs
  let archs ← (expand file.arch rule.arch).mapError .unknownRuleArch
  return (targets rule oses archs).foldl (fun envs p => update envs p.key (defineAll rule))
    environments

/-- The table of a platform file. -/
def ofFile (file : PlatformFile) : Except PlatformError PlatformTable := do
  let environments ← file.rules.foldlM (addRule file) []
  return { os := file.os, arch := file.arch, osAliases := file.osAliases,
           archAliases := file.archAliases, environments }

/-! ## Finding a platform -/

/-- The name that another name stands for. -/
def resolveAlias (aliases : List (String × String)) (name : String) : String :=
  (aliases.lookup name).getD name

/-- The platform of these names. -/
def platform (t : PlatformTable) (os arch : String) : Except PlatformError Platform :=
  let p : Platform := ⟨resolveAlias t.osAliases os, resolveAlias t.archAliases arch⟩
  if p.os = "" ∧ p.arch = "" then .error .noName
  else if p.os ≠ "" ∧ p.os ∉ t.os then .error (.unknownOs p.os t.os (t.osAliases.map Prod.fst))
  else if p.arch ≠ "" ∧ p.arch ∉ t.arch then
    .error (.unknownArch p.arch t.arch (t.archAliases.map Prod.fst))
  else .ok p

/-- Reads a platform, two names with a slash between them. -/
def parsePlatform (t : PlatformTable) (text : String) : Except PlatformError Platform :=
  match Text.splitAt '/' (Text.trim text) with
  | [os, arch] => t.platform (Text.trim os) (Text.trim arch)
  | _ => .error (.notAPair text)

/-- The predefined macros of a platform. -/
def environmentFor (t : PlatformTable) (p : Platform) : Environment :=
  (t.environments.lookup p.key).getD .empty

/-- The platform of a key. -/
def platformOfKey (key : String) : Platform :=
  match Text.splitAt '/' key with
  | os :: arch :: _ => ⟨os, arch⟩
  | [os] => ⟨os, ""⟩
  | [] => ⟨"", ""⟩

/-- The platforms that the rules cover, in ascending order. -/
def platforms (t : PlatformTable) : List Platform :=
  Platform.sort (t.environments.map fun e => platformOfKey e.1)

end PlatformTable

/-! ## Tables from text -/

/-- What tables are read with: a loader of texts, which finds no value in a broken one, and a
checker of values against a schema, which accepts a value or objects. -/
structure TableReader where
  load : String → Option Value
  validate : Schema → Value → Except (List Objection) Unit

/-- **What the checker accepts as a platform file is what the schema describes.** -/
def TableReader.Sound (reader : TableReader) : Prop :=
  ∀ v, reader.validate PlatformFile.schema v = .ok () → PlatformFile.schema.Accepts v

/-- Why a text is not a platform table. -/
inductive TableError where
  /-- There is no value in the text. -/
  | broken
  /-- There is nothing in it. -/
  | blank (label : String)
  | invalid (label : String) (objections : List Objection)
  | rule (cause : PlatformError)

/-- The wording of a table error; what is wrong with broken text is not said. -/
def TableError.message? : TableError → Option String
  | .broken => none
  | .blank label => some (label ++ " appears to be empty or could not be parsed")
  | .invalid label objections =>
    some (label ++ " schema validation failed:\n"
      ++ "\n".intercalate (objections.map Objection.message))
  | .rule cause => some cause.message

/-- What a table is called in messages. -/
def PlatformTable.defaultLabel : String := "platform table"

/-- The table that a text describes. -/
def PlatformTable.parse (reader : TableReader) (text label : String) :
    Except TableError PlatformTable :=
  match reader.load text with
  | none => .error .broken
  | some v =>
    if v.isBlank then .error (.blank label)
    else
      match reader.validate PlatformFile.schema v with
      | .error objections => .error (.invalid label objections)
      | .ok () => (PlatformTable.ofFile (.ofValue v)).mapError .rule

end IncludeScan
