import IncludeScan.Cursor

/-!
# Token/Basic — the words of a source file

A source file is cut into tokens, and nothing is skipped: blanks, comments and continued line ends
are tokens too, called *trivia*, so that the texts of all tokens together are the file again.

A token of kind `directive` holds the hash sign, blanks, and the keyword after them; the keyword is
kept beside the text.
-/

namespace IncludeScan

/-- The words that make a hash sign a directive. -/
inductive Keyword where
  | includeNext
  | includeFile
  | define
  | undef
  | ifdef
  | ifndef
  | ifExpr
  | elifdef
  | elifndef
  | elifExpr
  | elseBranch
  | endif
deriving DecidableEq, Repr

namespace Keyword

/-- All keywords. -/
def all : List Keyword :=
  [.includeNext, .includeFile, .define, .undef, .ifdef, .ifndef, .ifExpr, .elifdef, .elifndef,
    .elifExpr, .elseBranch, .endif]

/-- The keyword as written. -/
def spelling : Keyword → String
  | .includeNext => "include_next"
  | .includeFile => "include"
  | .define => "define"
  | .undef => "undef"
  | .ifdef => "ifdef"
  | .ifndef => "ifndef"
  | .ifExpr => "if"
  | .elifdef => "elifdef"
  | .elifndef => "elifndef"
  | .elifExpr => "elif"
  | .elseBranch => "else"
  | .endif => "endif"

/-- The keyword that a word spells. -/
def ofString? (word : String) : Option Keyword :=
  all.find? fun k => k.spelling == word

theorem ofString?_eq_some_iff {word : String} {k : Keyword} :
    ofString? word = some k ↔ k.spelling = word := by
  constructor
  · intro h
    simpa using List.find?_some h
  · rintro rfl
    cases k <;> decide

end Keyword

/-- What a token is. -/
inductive Kind where
  /-- An identifier, or a run of characters that no other kind claims. -/
  | word
  | number
  | string
  | op
  | punct
  /-- A line end that is not continued; it ends a directive. -/
  | newline
  | whitespace
  | continuation
  | lineComment
  | blockComment
  | directive
  | eof
deriving DecidableEq, Repr, Inhabited

namespace Kind

/-- All kinds. -/
def all : List Kind :=
  [.word, .number, .string, .op, .punct, .newline, .whitespace, .continuation, .lineComment,
    .blockComment, .directive, .eof]

/-- The name of a kind. -/
def name : Kind → String
  | .word => "word"
  | .number => "number"
  | .string => "string"
  | .op => "op"
  | .punct => "punct"
  | .newline => "newline"
  | .whitespace => "whitespace"
  | .continuation => "continuation"
  | .lineComment => "comment-line"
  | .blockComment => "comment-block"
  | .directive => "directive"
  | .eof => "eof"

/-- The kind of that name. -/
def ofName? (name : String) : Option Kind :=
  all.find? fun k => k.name == name

/-- Kinds that carry no meaning for the directives of a file. -/
def isTrivia : Kind → Bool
  | .whitespace | .continuation | .lineComment | .blockComment => true
  | _ => false

end Kind

/-- A range of a text, in 16-bit code units; `stop` lies just behind it. -/
structure Span where
  start : Nat
  stop : Nat
deriving DecidableEq, Repr, Inhabited

/-- A classified piece of source text and its place. -/
structure Token where
  kind : Kind
  value : String
  cursor : Cursor
  span : Span
  keyword : Option Keyword := none
deriving DecidableEq, Repr, Inhabited

namespace Token

/-- The token carries no meaning for the directives of a file. -/
def isTrivia (t : Token) : Bool := t.kind.isTrivia

/-- The token is this punctuation mark. -/
def isPunct (t : Token) (mark : String) : Bool :=
  t.kind == .punct && t.value == mark

/-- The token is this operator. -/
def isOp (t : Token) (sign : String) : Bool :=
  t.kind == .op && t.value == sign

/-- The token is this word. -/
def isWord (t : Token) (word : String) : Bool :=
  t.kind == .word && t.value == word

end Token

/-! ## Identifiers -/

/-- A character that an identifier may begin with. -/
def isIdentStart (c : Char) : Bool := c.isAlpha || c == '_'

/-- A character that an identifier may go on with. -/
def isIdentPart (c : Char) : Bool := c.isAlphanum || c == '_'

/-- The text is one identifier. -/
def isIdentifier (s : String) : Bool :=
  match s.toList with
  | [] => false
  | c :: cs => isIdentStart c && cs.all isIdentPart

/-- The token is a word that is an identifier. -/
def Token.isIdentifier (t : Token) : Bool :=
  t.kind == .word && IncludeScan.isIdentifier t.value

end IncludeScan
