import IncludeScan.Condition.Parser
import IncludeScan.Diagnostic
import IncludeScan.Directive.Basic

/-!
# Directive/Line — one directive line, read on its own

A line is a directive token and the tokens behind it that are not trivia, up to the line end.  What
the line says does not depend on other lines: an include, a macro definition, the end of one, or a
condition.  A line that cannot be read gives a complaint, at the token that is at fault or, when
something is missing at the end, at the directive token.
-/

namespace IncludeScan

/-- What can be wrong with the directives of a file. -/
inductive Problem where
  | quotesInPath (keyword : Keyword)
  | openAngle (keyword : Keyword)
  | noPath (keyword : Keyword)
  | defineWithoutName
  | openParameters (name : String)
  | noParameterAfterComma (name : String)
  | badParameter (name found : String)
  | badSeparator (name found : String)
  | undefWithoutName
  | conditionWithoutName (keyword : Keyword)
  | badCondition (keyword : Keyword) (cause : ConditionError)
  | unpaired (keyword : Keyword)
  | afterElse (keyword : Keyword)
  | neverClosed (keyword : Keyword)
deriving DecidableEq, Repr

namespace Problem

/-- The code under which a problem is reported. -/
def code : Problem → DiagnosticCode
  | .quotesInPath _ | .openAngle _ | .noPath _ => .malformedInclude
  | .defineWithoutName | .openParameters _ | .noParameterAfterComma _ | .badParameter _ _
  | .badSeparator _ _ => .malformedDefine
  | .undefWithoutName => .malformedUndef
  | .conditionWithoutName _ | .badCondition _ _ => .malformedCondition
  | .unpaired _ | .afterElse _ => .unpairedConditional
  | .neverClosed _ => .unterminatedConditional

/-- The wording of a problem. -/
def message : Problem → String
  | .quotesInPath k => "#" ++ k.spelling ++ ": quotes inside path"
  | .openAngle k => "#" ++ k.spelling ++ ": missing closing '>'"
  | .noPath k => "#" ++ k.spelling ++ " expects \"file\" or <file>"
  | .defineWithoutName => "#define expects a macro name"
  | .openParameters name => "#define " ++ name ++ ": missing ')'"
  | .noParameterAfterComma name => "#define " ++ name ++ ": expected parameter before ')'"
  | .badParameter name found => "#define " ++ name ++ ": invalid parameter '" ++ found ++ "'"
  | .badSeparator name found =>
    "#define " ++ name ++ ": expected ',' or ')' but found '" ++ found ++ "'"
  | .undefWithoutName => "#undef expects a macro name"
  | .conditionWithoutName k => "#" ++ k.spelling ++ " expects a macro name"
  | .badCondition k cause => "#" ++ k.spelling ++ ": " ++ cause.message
  | .unpaired k => "unpaired #" ++ k.spelling
  | .afterElse k => "#" ++ k.spelling ++ " after #else"
  | .neverClosed k => "#" ++ k.spelling ++ " is never closed by #endif"

/-- A block that is never closed is an error, as the structure of the file is lost; the other
problems cost one line. -/
def severity : Problem → Severity
  | .neverClosed _ => .error
  | _ => .warning

end Problem

/-- A problem and the token at which it is reported. -/
structure Complaint where
  problem : Problem
  token : Token
deriving DecidableEq, Repr

/-- The complaint as a diagnostic. -/
def Complaint.toDiagnostic (c : Complaint) : Diagnostic :=
  ⟨c.problem.code, c.problem.message, c.token.cursor, some c.problem.severity⟩

/-- A directive and the tokens of its line that are not trivia. -/
structure Line where
  token : Token
  keyword : Keyword
  args : List Token
deriving DecidableEq, Repr

namespace Line

/-! ## Includes -/

/-- The text between the first and the last character. -/
def unquoted (s : String) : List Char := (s.toList.drop 1).dropLast

/-- The values up to a closing angle bracket. -/
def upToAngle : List Token → Option (List String)
  | [] => none
  | t :: ts => if t.isOp ">" then some [] else (upToAngle ts).map (t.value :: ·)

/-- Reads the header that the line names. -/
def readInclude (l : Line) : Except Complaint Directive :=
  match l.args with
  | [] => .error ⟨.noPath l.keyword, l.token⟩
  | first :: rest =>
    if first.kind = .string then
      if '"' ∈ unquoted first.value then .error ⟨.quotesInPath l.keyword, first⟩
      else .ok (.includeFile ⟨String.ofList (unquoted first.value), false, l.token.cursor.line⟩)
    else if first.isOp "<" then
      match upToAngle rest with
      | some (part :: parts) =>
        .ok (.includeFile ⟨String.join (part :: parts), true, l.token.cursor.line⟩)
      | _ => .error ⟨.openAngle l.keyword, first⟩
    else .error ⟨.noPath l.keyword, first⟩

/-! ## Macro definitions -/

/-- Where a parameter list is read: at its beginning, behind a parameter, or behind a comma. -/
inductive ParameterPlace where
  | beginning
  | behindParameter
  | behindComma
deriving DecidableEq, Repr

/-- A word that can be a parameter. -/
def isParameter (t : Token) : Bool := t.isIdentifier || t.value == "..."

/-- Reads the parameters of macro `name` up to the closing parenthesis; `opening` is the parenthesis
before them. -/
def readParameters (name : String) (opening : Token) :
    ParameterPlace → List Token → Except Complaint (List String × List Token)
  | _, [] => .error ⟨.openParameters name, opening⟩
  | place, t :: ts =>
    if t.isPunct ")" then
      if place = .behindComma then .error ⟨.noParameterAfterComma name, t⟩ else .ok ([], ts)
    else if place = .behindParameter then
      if t.isPunct "," then readParameters name opening .behindComma ts
      else .error ⟨.badSeparator name t.value, t⟩
    else if isParameter t then
      match readParameters name opening .behindParameter ts with
      | .ok (params, rest) => .ok (t.value :: params, rest)
      | .error e => .error e
    else .error ⟨.badParameter name t.value, t⟩

/-- The token is an opening parenthesis that touches the one before it. -/
def touches (name opening : Token) : Bool :=
  opening.isPunct "(" && opening.span.start == name.span.stop

/-- Reads a macro definition.  It has parameters only if the parenthesis touches the name. -/
def readDefine (l : Line) : Except Complaint Directive :=
  match l.args with
  | [] => .error ⟨.defineWithoutName, l.token⟩
  | name :: rest =>
    if !name.isIdentifier then .error ⟨.defineWithoutName, name⟩
    else
      match rest with
      | [] => .ok (.define name.value none [])
      | opening :: rest' =>
        if touches name opening then
          match readParameters name.value opening .beginning rest' with
          | .ok (params, body) => .ok (.define name.value (some params) (body.map Token.value))
          | .error e => .error e
        else .ok (.define name.value none (rest.map Token.value))

/-- Reads the name of a macro that is no longer defined. -/
def readUndef (l : Line) : Except Complaint Directive :=
  match l.args with
  | [] => .error ⟨.undefWithoutName, l.token⟩
  | name :: _ =>
    if name.isIdentifier then .ok (.undefine name.value) else .error ⟨.undefWithoutName, name⟩

/-! ## Conditions -/

/-- Reads the name that is tested for being defined. -/
def readTested (l : Line) : Except Complaint Condition :=
  match l.args with
  | [] => .error ⟨.conditionWithoutName l.keyword, l.token⟩
  | name :: _ =>
    if name.isIdentifier then .ok (.defined name.value)
    else .error ⟨.conditionWithoutName l.keyword, name⟩

/-- Reads the condition of a branch. -/
def readCondition (l : Line) : Except Complaint Condition :=
  match l.keyword with
  | .ifdef | .elifdef => l.readTested
  | .ifndef | .elifndef => l.readTested.map .not
  | _ =>
    match Condition.parse l.args with
    | .ok (c, _) => .ok c
    | .error e => .error ⟨.badCondition l.keyword e, e.token?.getD l.token⟩

end Line

/-! ## The part that a keyword plays -/

/-- What a directive line does to the structure of a file. -/
inductive Role where
  /-- It stands alone. -/
  | single
  /-- It opens a block. -/
  | opens
  /-- It begins a further branch with a condition. -/
  | continues
  /-- It begins the last branch. -/
  | falls
  /-- It closes a block. -/
  | closes
deriving DecidableEq, Repr

/-- The part that a keyword plays. -/
def Keyword.role : Keyword → Role
  | .ifExpr | .ifdef | .ifndef => .opens
  | .elifExpr | .elifdef | .elifndef => .continues
  | .elseBranch => .falls
  | .endif => .closes
  | .includeNext | .includeFile | .define | .undef => .single

/-- Reads a line that stands alone. -/
def Line.readSingle (l : Line) : Except Complaint Directive :=
  match l.keyword with
  | .define => l.readDefine
  | .undef => l.readUndef
  | _ => l.readInclude

end IncludeScan
