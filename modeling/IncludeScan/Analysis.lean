import IncludeScan.Content
import IncludeScan.Directive.Reach
import IncludeScan.Environment.Definition
import IncludeScan.Grouping.Group
import IncludeScan.Log
import IncludeScan.Platform.Table
import IncludeScan.Settings

/-!
# Analysis — the includes of a directory, target by target

A *target* is a named environment, usually one platform.  The report on a file lists all its
includes, each with the targets that reach it.  A file that cannot be cut into tokens is reported as
such, with no includes.  The files of a directory are then grouped by what they include in quotes.
-/

namespace IncludeScan

/-- A named environment. -/
structure Target where
  name : String
  env : Environment
deriving DecidableEq, Repr

/-- Why there are no targets. -/
inductive TargetError where
  | definitions (failures : DefinitionFailures)
  | platform (cause : PlatformError)

/-- The wording of a target error. -/
def TargetError.message : TargetError → String
  | .definitions failures => failures.message
  | .platform cause => cause.message

/-- One target for each platform, with the given definitions on top of the predefined macros. -/
def Target.resolve (table : PlatformTable) (platforms definitions : List String) :
    Except TargetError (List Target) := do
  let extra ← (Environment.ofDefinitions definitions).mapError .definitions
  platforms.mapM fun text => do
    let p ← (table.parsePlatform text).mapError .platform
    return ⟨p.key, (table.environmentFor p).overlay extra⟩

/-! ## One file -/

/-- An include and the targets that reach it. -/
structure ReachedInclude where
  target : Include
  platforms : List String
  /-- Some target does not reach it. -/
  platformSpecific : Bool
deriving DecidableEq, Repr

/-- What is known about a file. -/
structure FileReport where
  name : String
  kind : FileKind
  hasMain : Bool
  includes : List ReachedInclude
  diagnostics : List Diagnostic
  /-- The file could be cut into tokens. -/
  parsed : Bool

namespace FileReport

/-- All includes of the directives, each with the targets that reach it. -/
def annotate (directives : List Directive) (targets : List Target) : List ReachedInclude :=
  let reached := targets.map fun t => (t.name, Directive.reachable t.env directives)
  (Directive.includes directives).map fun i =>
    let platforms := (reached.filter fun r => r.2.contains i).map Prod.fst
    ⟨i, platforms, platforms.length < targets.length⟩

/-- The code under which a fault is reported. -/
def codeOf : Fault → DiagnosticCode
  | .openComment => .unterminatedComment
  | .looseBackslash => .invalidContinuation

/-- The fault as a diagnostic. -/
def faultDiagnostic (e : ScanError) : Diagnostic :=
  ⟨codeOf e.fault, e.message, e.cursor, some .error⟩

/-- The report on a file that cannot be cut into tokens. -/
def unparsed (name : String) (e : ScanError) : FileReport where
  name := name
  kind := .ofFile name
  hasMain := false
  includes := []
  diagnostics := [faultDiagnostic e]
  parsed := false

/-- The report on a file with this outline. -/
def ofOutline (name : String) (targets : List Target) (o : Outline) : FileReport where
  name := name
  kind := .ofFile name
  hasMain := o.hasMain
  includes := annotate o.directives targets
  diagnostics := o.diagnostics
  parsed := true

/-- The report on a file. -/
def ofContent (name : String) (c : Content) (targets : List Target) : FileReport :=
  match c.outline with
  | .ok o => ofOutline name targets o
  | .error e => unparsed name e

/-- What is written while a file is read: with `verbose` each diagnostic, and in any case a warning
about a file that cannot be cut into tokens. -/
def trace (verbose : Bool) (name : String) (c : Content) : List LogLine :=
  let r := c.tokenize
  match r.ending with
  | .ok _ =>
    if verbose then (Outline.ofTokens r.tokens).diagnostics.map LogLine.ofDiagnostic else []
  | .error e =>
    (if verbose then (Outline.beforeFault r.tokens).map LogLine.ofDiagnostic else [])
      ++ [LogLine.warn (name ++ ": " ++ e.message ++ ", skipping dependency inference")]

/-- A line about a file that was read. -/
def summary (r : FileReport) : LogLine :=
  LogLine.say (r.name ++ ": " ++ toString r.includes.length ++ " includes, "
    ++ toString r.diagnostics.length ++ " diagnostics" ++ if r.hasMain then ", has main" else "")

/-- The report without the diagnostics that are disabled. -/
def withoutDisabled (disabled : List DiagnosticCode) (r : FileReport) : FileReport :=
  { r with diagnostics := Diagnostic.without disabled r.diagnostics }

/-- The paths that the file includes in quotes. -/
def quoted (r : FileReport) : List String :=
  (r.includes.filter fun i => !i.target.system).map fun i => i.target.path

end FileReport

/-! ## A directory -/

/-- A file as it is handed in. -/
structure InputFile where
  name : String
  content : Content
deriving DecidableEq, Repr

/-- What is known about the files of a directory. -/
structure DirectoryReport where
  files : List FileReport
  grouping : Grouping

namespace DirectoryReport

/-- Analyses the files of a directory and groups them. -/
def ofFiles (files : List InputFile) (targets : List Target) (layout : Path.Layout)
    (disabled : List DiagnosticCode) : Except GroupingError DirectoryReport := do
  let reports := files.map fun f =>
    (FileReport.ofContent f.name f.content targets).withoutDisabled disabled
  let grouping ← Grouping.ofFiles layout (reports.map fun r => SourceFile.ofQuoted r.name r.quoted)
  return ⟨reports, grouping⟩

/-- What is written about the files: their own lines, and with `debug` a summary of each. -/
def fileTrace (verbose debug : Bool) (files : List InputFile) (targets : List Target) :
    List LogLine :=
  files.flatMap fun f =>
    FileReport.trace verbose f.name f.content
      ++ if debug then [(FileReport.ofContent f.name f.content targets).summary] else []

/-- All that is written while a directory is analysed. -/
def trace (r : DirectoryReport) (verbose debug : Bool) (files : List InputFile)
    (targets : List Target) : List LogLine :=
  fileTrace verbose debug files targets ++ if verbose then r.grouping.trace else []

/-- The report on the files of a directory as settings ask for it, and what is written meanwhile. -/
def withTrace (verbose : Bool) (s : Settings) (files : List InputFile) (targets : List Target)
    (layout : Path.Layout) : Except GroupingError (DirectoryReport × List LogLine) := do
  let r ← ofFiles files targets layout s.disable
  return (r, r.trace verbose s.debug files targets)

end DirectoryReport

/-- The targets that the settings ask for. -/
def Settings.targets (s : Settings) (table : PlatformTable) : Except TargetError (List Target) :=
  Target.resolve table s.platforms s.macros

end IncludeScan
