import IncludeScan.Cursor
import IncludeScan.Text.Case
import IncludeScan.Text.Space

/-!
# Diagnostic — what is reported about a source file

Each diagnostic has a code.  A code can be named by its number or, unless the file could not be cut
into tokens at all, by a friendly name in lower case with hyphens; both are read without regard to
case and to white space around them, and an underscore counts as a hyphen.  The table of friendly
names has one entry more, `constructor`, which is no code.
-/

namespace IncludeScan

/-- What a diagnostic is about. -/
inductive DiagnosticCode where
  | unterminatedComment
  | invalidContinuation
  | malformedInclude
  | malformedDefine
  | malformedUndef
  | malformedCondition
  | unpairedConditional
  | unterminatedConditional
deriving DecidableEq, Repr

namespace DiagnosticCode

/-- All codes by number. -/
def all : List DiagnosticCode :=
  [.unterminatedComment, .invalidContinuation, .malformedInclude, .malformedDefine, .malformedUndef,
    .malformedCondition, .unpairedConditional, .unterminatedConditional]

/-- The number of a code with its tag. -/
def id : DiagnosticCode → String
  | .unterminatedComment => "CCS001"
  | .invalidContinuation => "CCS002"
  | .malformedInclude => "CCS010"
  | .malformedDefine => "CCS011"
  | .malformedUndef => "CCS012"
  | .malformedCondition => "CCS020"
  | .unpairedConditional => "CCS021"
  | .unterminatedConditional => "CCS022"

/-- The name of a code in capitals. -/
def constantName : DiagnosticCode → String
  | .unterminatedComment => "UNTERMINATED_COMMENT"
  | .invalidContinuation => "INVALID_CONTINUATION"
  | .malformedInclude => "MALFORMED_INCLUDE"
  | .malformedDefine => "MALFORMED_DEFINE"
  | .malformedUndef => "MALFORMED_UNDEF"
  | .malformedCondition => "MALFORMED_CONDITION"
  | .unpairedConditional => "UNPAIRED_CONDITIONAL"
  | .unterminatedConditional => "UNTERMINATED_CONDITIONAL"

/-- The file could not be cut into tokens; such a code has no friendly name. -/
def isLexical : DiagnosticCode → Bool
  | .unterminatedComment | .invalidContinuation => true
  | _ => false

/-- A hyphen in place of an underscore. -/
def hyphened (c : Char) : Char := if c = '_' then '-' else c

/-- Lower case with hyphens. -/
def friendly (cs : List Char) : List Char := cs.map fun c => hyphened (Text.lowerChar c)

/-- The code of that number, in either case. -/
def ofId? (name : List Char) : Option DiagnosticCode :=
  all.find? fun code => code.id.toList == name.map Text.upperChar

/-- The code of that friendly name, in either case and with hyphens or underscores. -/
def ofFriendlyName? (name : List Char) : Option DiagnosticCode :=
  all.find? fun code => !code.isLexical && friendly code.constantName.toList == friendly name

/-- The code that a user names. -/
def ofName? (name : String) : Option DiagnosticCode :=
  let trimmed := Text.trimChars name.toList
  (ofId? trimmed).or (ofFriendlyName? trimmed)

/-- The name of the entry that is no code, in either case. -/
def isStray (name : String) : Bool := friendly (Text.trimChars name.toList) == "constructor".toList

end DiagnosticCode

/-- How bad it is. -/
inductive Severity where
  | error
  | warning
deriving DecidableEq, Repr

namespace Severity

/-- The name of a severity. -/
def name : Severity → String
  | .error => "error"
  | .warning => "warning"

/-- The severity of that name. -/
def ofName? (name : String) : Option Severity :=
  [Severity.error, .warning].find? fun s => s.name == name

end Severity

/-- A report about one place of a source file. -/
structure Diagnostic where
  code : DiagnosticCode
  message : String
  cursor : Cursor
  severity : Option Severity
deriving DecidableEq, Repr

namespace Diagnostic

/-- The diagnostics whose code is not disabled. -/
def without (disabled : List DiagnosticCode) (diagnostics : List Diagnostic) : List Diagnostic :=
  diagnostics.filter fun d => !disabled.contains d.code

end Diagnostic

end IncludeScan
