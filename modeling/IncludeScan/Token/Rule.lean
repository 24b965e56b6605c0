import IncludeScan.Numeral
import IncludeScan.Token.Basic

/-!
# Token/Rule — the lexical rules of source text

A rule looks at the front of a text and says which lexeme stands there, if it is of the rule's sort.
`rules` lists them by rank: of two lexemes of one length at one place, the earlier rule's counts.

Two rules find faults instead of tokens: a backslash that no line end follows, and a block comment
that is not closed.  Both reach to the end of the text, so nothing longer can stand at their place.
-/

namespace IncludeScan

/-- Why a text cannot be cut into tokens. -/
inductive Fault where
  /-- A backslash, and no line end anywhere behind it. -/
  | looseBackslash
  /-- A block comment that is never closed. -/
  | openComment
deriving DecidableEq, Repr

namespace Fault

/-- The short name of a fault. -/
def code : Fault → String
  | .looseBackslash => "continuation-invalid"
  | .openComment => "comment-unterminated"

/-- The characters that begin what is at fault. -/
def construct : Fault → String
  | .looseBackslash => "\\"
  | .openComment => "/*"

/-- What is wrong. -/
def description : Fault → String
  | .looseBackslash => "missing newline character after line continuation backslash"
  | .openComment => "unterminated multi-line comment"

end Fault

/-- What stands at the front of a text: a kind, a positive number of characters, the keyword of a
directive, and the fault when there is one. -/
structure Lexeme where
  kind : Kind
  length : Nat
  length_pos : 0 < length
  keyword : Option Keyword := none
  fault : Option Fault := none
deriving DecidableEq

/-- A recogniser of one sort of lexeme at the front of a text. -/
abbrev Rule := List Char → Option Lexeme

namespace Rule

/-- A blank between tokens of one line. -/
def isBlank (c : Char) : Bool :=
  c == '\t' || c == '\x0b' || c == '\x0c' || c == '\r' || c == ' '

/-- A fixed spelling of one or more characters. -/
def fixed (kind : Kind) (spelling : List Char) : Rule := fun cs =>
  if h : 0 < spelling.length ∧ spelling.isPrefixOf cs = true then
    some ⟨kind, spelling.length, h.1, none, none⟩
  else none

theorem run_length_pos (isPart : Char → Bool) (cs : List Char) :
    0 < 1 + (cs.takeWhile isPart).length :=
  Nat.add_pos_left Nat.one_pos _

/-- A run of one or more characters of a class. -/
def run (kind : Kind) (isFirst isPart : Char → Bool) : Rule
  | [] => none
  | c :: cs =>
    if isFirst c then
      some ⟨kind, 1 + (cs.takeWhile isPart).length, run_length_pos isPart cs, none, none⟩
    else none

/-- A hash sign, blanks, and a maximal word that is a keyword. -/
def directive : Rule
  | '#' :: cs =>
    let blanks := cs.takeWhile isBlank
    let word := (cs.dropWhile isBlank).takeWhile isIdentPart
    match Keyword.ofString? (String.ofList word) with
    | some k => some ⟨.directive, 1 + blanks.length + word.length, by omega, some k, none⟩
    | none => none
  | _ => none

/-- A backslash, blanks, and the line end that they continue over. -/
def continuation : Rule
  | '\\' :: cs =>
    match cs.dropWhile isBlank with
    | '\n' :: _ => some ⟨.continuation, 1 + (cs.takeWhile isBlank).length + 1, by omega, none, none⟩
    | _ => none
  | _ => none

/-- A backslash with no line end behind it. -/
def looseBackslash : Rule
  | '\\' :: cs =>
    if '\n' ∈ cs then none
    else some ⟨.continuation, 1 + cs.length, by omega, none, some .looseBackslash⟩
  | _ => none

/-- Two slashes and the rest of the line. -/
def lineComment : Rule
  | '/' :: '/' :: cs =>
    some ⟨.lineComment, 2 + (cs.takeWhile (· != '\n')).length, by omega, none, none⟩
  | _ => none

/-- How many characters there are up to and including the first star and slash. -/
def closing? : List Char → Option Nat
  | '*' :: '/' :: _ => some 2
  | _ :: cs => (closing? cs).map (· + 1)
  | [] => none

/-- Slash and star, up to the first star and slash behind them. -/
def blockComment : Rule
  | '/' :: '*' :: cs =>
    match closing? cs with
    | some n => some ⟨.blockComment, 2 + n, by omega, none, none⟩
    | none => some ⟨.blockComment, 2 + cs.length, by omega, none, some .openComment⟩
  | _ => none

/-- A character that cannot be escaped in a string: a line end of any sort. -/
def isLineEnd (c : Char) : Bool :=
  c == '\n' || c == '\r' || c == Char.ofNat 0x2028 || c == Char.ofNat 0x2029

/-- How many characters there are up to and including the closing quote, on the same line; a
backslash takes the next character with it. -/
def stringEnd? : List Char → Option Nat
  | '"' :: _ => some 1
  | ['\\'] => none
  | '\\' :: c :: cs => if isLineEnd c then none else (stringEnd? cs).map (· + 2)
  | '\n' :: _ => none
  | _ :: cs => (stringEnd? cs).map (· + 1)
  | [] => none

/-- A quoted string. -/
def string : Rule
  | '"' :: cs =>
    match stringEnd? cs with
    | some n => some ⟨.string, 1 + n, by omega, none, none⟩
    | none => none
  | _ => none

/-- An integer literal, as long as it goes. -/
def number : Rule := fun cs =>
  match h : Numeral.read? cs with
  | some n => some ⟨.number, n.spelling.length, Numeral.length_spelling_pos h, none, none⟩
  | none => none

end Rule

/-- The operators, two characters before one. -/
def operatorSpellings : List (List Char) :=
  [['=', '='], ['!', '='], ['<', '='], ['>', '='], ['&', '&'], ['|', '|'], ['<'], ['>'], ['!']]

/-- The punctuation marks. -/
def punctSpellings : List (List Char) :=
  [['('], [')'], ['\x7b'], ['\x7d'], ['['], [']'], [','], [';']]

/-- All rules by rank. -/
def rules : List Rule :=
  [Rule.directive, Rule.fixed .newline ['\n'], Rule.run .whitespace Rule.isBlank Rule.isBlank,
    Rule.continuation, Rule.looseBackslash, Rule.lineComment, Rule.blockComment, Rule.string,
    Rule.number, Rule.run .word isIdentStart isIdentPart]
  ++ operatorSpellings.map (Rule.fixed .op)
  ++ punctSpellings.map (Rule.fixed .punct)

end IncludeScan
