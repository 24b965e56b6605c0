import IncludeScan.Directive.Line
import IncludeScan.Token.Scanner

/-!
# Outline — the structure of one source file

The tokens of a file fall into *items*: the directive lines, and the tokens of code between them.
The lines are read one after the other with a stack of the blocks that are open; a line that cannot
be read or does not fit is reported and dropped, and reading goes on.  A block that is still open at
the end costs the whole structure: there is one more diagnostic and no directives.

Whether the file has a `main` function is decided by the code alone, `int main (`, where a directive
line between `main` and the parenthesis breaks the pattern.
-/

namespace IncludeScan

/-- A part of a file that matters. -/
inductive Item where
  /-- A token outside the directive lines. -/
  | code (t : Token)
  | line (l : Line)
  /-- A directive token that does not say which directive it is. -/
  | unnamed
deriving DecidableEq, Repr

namespace Item

/-- The tokens of a line, up to its end. -/
def lineTokens (ts : List Token) : List Token := ts.takeWhile fun t => t.kind != .newline

/-- The tokens behind a line and its end. -/
def behindLine (ts : List Token) : List Token := (ts.dropWhile fun t => t.kind != .newline).drop 1

theorem length_behindLine_le (ts : List Token) : (behindLine ts).length ≤ ts.length := by
  have := List.dropWhile_sublist (fun t : Token => t.kind != .newline) (l := ts)
  have := this.length_le
  simp only [behindLine, List.length_drop]
  omega

/-- The items of a file; the end token is left out of `ts`. -/
def ofTokens (ts : List Token) : List Item :=
  match ts with
  | [] => []
  | t :: ts =>
    if t.kind = .directive then
      match t.keyword with
      | some k =>
        .line ⟨t, k, (lineTokens ts).filter fun u => !u.isTrivia⟩ :: ofTokens (behindLine ts)
      | none => .unnamed :: ofTokens ts
    else if t.isTrivia ∨ t.kind = .newline then ofTokens ts
    else .code t :: ofTokens ts
termination_by ts.length
decreasing_by
  all_goals simp only [List.length_cons]
  · have := length_behindLine_le ts; omega
  all_goals omega

/-- The directive line that an item is. -/
def line? : Item → Option Line
  | .line l => some l
  | _ => none

end Item

/-! ## The main function -/

/-- How much of `int main (` the code has shown. -/
inductive MainWatch where
  | idle
  | afterInt
  | afterMain
  | found
deriving DecidableEq, Repr

namespace MainWatch

/-- The next token of code. -/
def seeToken (w : MainWatch) (t : Token) : MainWatch :=
  match w with
  | .found => .found
  | .afterMain => if t.isPunct "(" then .found else if t.isWord "int" then .afterInt else .idle
  | .afterInt =>
    if t.isWord "int" then .afterInt else if t.isWord "main" then .afterMain else .idle
  | .idle => if t.isWord "int" then .afterInt else .idle

/-- A directive between the tokens of code. -/
def seeDirective : MainWatch → MainWatch
  | .afterMain => .idle
  | w => w

/-- The next item. -/
def see (w : MainWatch) : Item → MainWatch
  | .code t => w.seeToken t
  | .line _ => w.seeDirective
  | .unnamed => w.seeDirective

end MainWatch

/-! ## Reading the lines -/

/-- A block that is open: the line that opened it, its finished branches with the latest first, the
branch being read, and the directives in front of the block with the latest first. -/
structure Frame where
  opening : Line
  finished : List Branch
  kind : BranchKind
  condition : Option Condition
  outer : List Directive

/-- The branches of a block, the one being read included, with the latest first. -/
def Frame.branches (f : Frame) (body : List Directive) : List Branch :=
  ⟨f.kind, f.condition, body.reverse⟩ :: f.finished

/-- The blocks that are open with the innermost first, the directives read in it and the complaints
so far, both with the latest first. -/
structure LineReader where
  frames : List Frame := []
  body : List Directive := []
  complaints : List Complaint := []

namespace LineReader

/-- Reports a line, which is dropped. -/
def report (r : LineReader) (c : Complaint) : LineReader :=
  { r with complaints := c :: r.complaints }

/-- Adds a directive to the body. -/
def add (r : LineReader) (d : Directive) : LineReader :=
  { r with body := d :: r.body }

/-- Opens a block. -/
def openBlock (r : LineReader) (l : Line) (c : Condition) : LineReader :=
  { r with frames := ⟨l, [], .opening, some c, r.body⟩ :: r.frames, body := [] }

/-- Ends the branch being read and begins another. -/
def nextBranch (r : LineReader) (f : Frame) (fs : List Frame) (kind : BranchKind)
    (condition : Option Condition) : LineReader :=
  { r with frames := { f with finished := f.branches r.body, kind, condition } :: fs, body := [] }

/-- Closes a block, which becomes a directive of the body around it. -/
def closeBlock (r : LineReader) (f : Frame) (fs : List Frame) : LineReader :=
  { r with frames := fs, body := .block (f.branches r.body).reverse :: f.outer }

/-- Reads a line that belongs to the innermost open block `f`. -/
def branchStep (r : LineReader) (f : Frame) (fs : List Frame) (l : Line) : LineReader :=
  if l.keyword.role = .closes then r.closeBlock f fs
  else if f.kind = .fallback then r.report ⟨.afterElse l.keyword, l.token⟩
  else if l.keyword.role = .falls then r.nextBranch f fs .fallback none
  else
    match l.readCondition with
    | .ok c => r.nextBranch f fs .alternative (some c)
    | .error e => r.report e

/-- Reads one line. -/
def step (r : LineReader) (l : Line) : LineReader :=
  match l.keyword.role with
  | .single =>
    match l.readSingle with
    | .ok d => r.add d
    | .error e => r.report e
  | .opens =>
    match l.readCondition with
    | .ok c => r.openBlock l c
    | .error e => r.report e
  | .continues | .falls | .closes =>
    match r.frames with
    | [] => r.report ⟨.unpaired l.keyword, l.token⟩
    | f :: fs => r.branchStep f fs l

/-- Reads lines one after the other. -/
def readAll (lines : List Line) : LineReader := lines.foldl step {}

end LineReader

/-- The directives of a file, whether it has a main function, and what was reported about it. -/
structure Outline where
  directives : List Directive
  hasMain : Bool
  diagnostics : List Diagnostic

namespace Outline

/-- The directive lines of a file. -/
def lines (ts : List Token) : List Line := (Item.ofTokens ts).filterMap Item.line?

/-- The file has a main function. -/
def hasMainIn (ts : List Token) : Bool :=
  (Item.ofTokens ts).foldl MainWatch.see .idle == .found

/-- The complaint about a file that ends inside a block. -/
def endComplaint? (r : LineReader) : Option Complaint :=
  r.frames.head?.map fun f => ⟨.neverClosed f.opening.keyword, f.opening.token⟩

/-- The outline of a file from its tokens, the end token left out. -/
def ofTokens (ts : List Token) : Outline :=
  let r := LineReader.readAll (lines ts)
  { directives := if r.frames.isEmpty then r.body.reverse else []
    hasMain := hasMainIn ts
    diagnostics := (r.complaints.reverse ++ (endComplaint? r).toList).map Complaint.toDiagnostic }

/-- The outline of a text, or the reason why it cannot be cut into tokens. -/
def ofText (text : String) : Except ScanError Outline :=
  let r := tokenize text
  r.ending.map fun _ => ofTokens r.tokens

/-- The tokens up to the last line end. -/
def wholeLines (ts : List Token) : List Token :=
  (ts.reverse.dropWhile fun t => t.kind != .newline).reverse

/-- What is reported about the lines that end before a fault. -/
def beforeFault (ts : List Token) : List Diagnostic :=
  (LineReader.readAll (lines (wholeLines ts))).complaints.reverse.map Complaint.toDiagnostic

end Outline

end IncludeScan
