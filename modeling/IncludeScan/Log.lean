import IncludeScan.Diagnostic

/-!
# Log — lines written while a scan runs

Every line begins with the name of the tool.  What is written depends on what the caller wants to
see, so the functions that do the work return their lines beside their results.
-/

namespace IncludeScan

/-- A line for the console. -/
inductive LogLine where
  | note (text : String)
  | warning (text : String)
deriving DecidableEq, Repr

namespace LogLine

/-- What every line begins with. -/
def tag : String := "[cc-depscan] "

/-- A line that says something. -/
def say (text : String) : LogLine := .note (tag ++ text)

/-- A line that warns. -/
def warn (text : String) : LogLine := .warning (tag ++ text)

/-- A diagnostic at the time it is found. -/
def ofDiagnostic (d : Diagnostic) : LogLine :=
  say (d.cursor.format ++ " " ++ d.code.id ++ ": " ++ d.message)

end LogLine

end IncludeScan
