import IncludeScan.Text.Units
import IncludeScan.Token.Rule

/-!
# Token/Scanner — cutting a text into tokens

At each place the scanner takes the lexeme that begins first; of those the longest; of those the one
of the lowest rank.  Text in front of it, or all of the rest when no rule finds anything, is one
word.

Where a rule's next lexeme begins does not change while the scanner moves towards it.  So the
scanner remembers the first occurrence that each rule has found and looks again only when that lies
behind.

The scanner never moves over a fault: asked again, it reports it again.
-/

namespace IncludeScan

/-- A fault and the place where the scanner met it. -/
structure ScanError where
  fault : Fault
  cursor : Cursor
deriving DecidableEq, Repr

/-- The position and what is wrong there. -/
def ScanError.message (e : ScanError) : String :=
  e.cursor.format ++ ": " ++ e.fault.description

/-- A lexeme and the number of characters in front of it. -/
structure Occurrence where
  start : Nat
  lexeme : Lexeme
deriving DecidableEq

namespace Occurrence

/-- `a` begins before `b`, or at the same place and is longer. -/
def precedes (a b : Occurrence) : Bool :=
  a.start < b.start || (a.start == b.start && b.lexeme.length < a.lexeme.length)

/-- The better of the best so far and a later rule's occurrence. -/
def better (best : Option Occurrence) (o : Occurrence) : Option Occurrence :=
  match best with
  | none => some o
  | some b => if o.precedes b then some o else some b

end Occurrence

/-- The first occurrence of a rule in a text that begins at character `start`. -/
def Rule.findFrom (rule : Rule) (start : Nat) : List Char → Option Occurrence
  | [] => none
  | c :: cs =>
    match rule (c :: cs) with
    | some lexeme => some ⟨start, lexeme⟩
    | none => rule.findFrom (start + 1) cs

/-- What the scanner remembers of one rule. -/
inductive Memo where
  /-- Not looked for yet. -/
  | unknown
  /-- Nothing in the rest of the text. -/
  | absent
  /-- The first occurrence when it was looked for. -/
  | found (o : Occurrence)
deriving DecidableEq

namespace Memo

/-- The occurrence remembered. -/
def occurrence? : Memo → Option Occurrence
  | .found o => some o
  | _ => none

/-- The outcome of a search. -/
def ofSearch : Option Occurrence → Memo
  | some o => .found o
  | none => .absent

/-- The memory of a rule, brought up to date: it is looked for again if it has not been looked for
or what was found lies behind `position`. -/
def refresh (position : Nat) (rest : List Char) (rule : Rule) : Memo → Memo
  | .unknown => ofSearch (rule.findFrom position rest)
  | .absent => .absent
  | .found o => if o.start < position then ofSearch (rule.findFrom position rest) else .found o

end Memo

/-- The text still to be cut, where it begins (in characters, in code units, and as a cursor), and
the memory of each rule. -/
structure Scanner where
  rest : List Char
  position : Nat
  offset : Nat
  cursor : Cursor
  memos : List Memo

namespace Scanner

/-- A scanner at the beginning of a text. -/
def ofText (text : List Char) : Scanner :=
  ⟨text, 0, 0, .start, rules.map fun _ => .unknown⟩

/-- The memories of all rules, up to date. -/
def refreshed (s : Scanner) : List Memo :=
  List.zipWith (Memo.refresh s.position s.rest) rules s.memos

/-- The occurrence that comes first among the memories. -/
def earliest (memos : List Memo) : Option Occurrence :=
  (memos.filterMap Memo.occurrence?).foldl Occurrence.better none

/-- The rest of a text, or a part of it that no rule claims, as a word. -/
def unclaimed (length : Nat) (h : 0 < length) : Lexeme :=
  ⟨.word, length, h, none, none⟩

/-- The next lexeme; there is none only at the end of the text. -/
def chosen? (s : Scanner) (memos : List Memo) : Option Lexeme :=
  if h : 0 < s.rest.length then
    match earliest memos with
    | none => some (unclaimed s.rest.length h)
    | some o =>
      if ho : s.position < o.start then some (unclaimed (o.start - s.position) (by omega))
      else some o.lexeme
  else none

/-- The characters of a lexeme as a token. -/
def token (s : Scanner) (m : Lexeme) : Token where
  kind := m.kind
  value := String.ofList (s.rest.take m.length)
  cursor := s.cursor
  span := ⟨s.offset, s.offset + Text.unitCount (s.rest.take m.length)⟩
  keyword := m.keyword

/-- The token at the end of the text. -/
def eofToken (s : Scanner) : Token where
  kind := .eof
  value := ""
  cursor := s.cursor
  span := ⟨s.offset, s.offset⟩

/-- The scanner behind a lexeme. -/
def advance (s : Scanner) (m : Lexeme) (memos : List Memo) : Scanner where
  rest := s.rest.drop m.length
  position := s.position + m.length
  offset := s.offset + Text.unitCount (s.rest.take m.length)
  cursor := s.cursor.advance (s.rest.take m.length)
  memos := memos

/-- The next token and the scanner behind it; at the end of the text the end token, again and again,
and at a fault the error, again and again. -/
def next (s : Scanner) : Except ScanError Token × Scanner :=
  let memos := s.refreshed
  match s.chosen? memos with
  | none => (.ok s.eofToken, s)
  | some m =>
    match m.fault with
    | some f => (.error ⟨f, s.cursor⟩, { s with memos })
    | none => (.ok (s.token m), s.advance m memos)

theorem rest_pos_of_chosen?_eq_some {s : Scanner} {memos : List Memo} {m : Lexeme}
    (h : s.chosen? memos = some m) : 0 < s.rest.length := by
  unfold chosen? at h
  split at h
  · assumption
  · cases h

theorem length_rest_advance_lt {s : Scanner} {memos : List Memo} {m : Lexeme}
    (h : s.chosen? memos = some m) (memos' : List Memo) :
    (s.advance m memos').rest.length < s.rest.length := by
  have h₁ := rest_pos_of_chosen?_eq_some h
  have h₂ := m.length_pos
  simp only [advance, List.length_drop]
  omega

end Scanner

/-- The tokens of a text in order, and how it ends: with the end token or with an error. -/
structure Tokenization where
  tokens : List Token
  ending : Except ScanError Token

namespace Tokenization

/-- A token in front. -/
def cons (t : Token) (r : Tokenization) : Tokenization :=
  { r with tokens := t :: r.tokens }

/-- All tokens with the end token, or the error. -/
def toExcept (r : Tokenization) : Except ScanError (List Token) :=
  r.ending.map fun eof => r.tokens ++ [eof]

end Tokenization

/-- All that a scanner has still to give. -/
def Scanner.run (s : Scanner) : Tokenization :=
  match h : s.chosen? s.refreshed with
  | none => ⟨[], .ok s.eofToken⟩
  | some m =>
    match m.fault with
    | some f => ⟨[], .error ⟨f, s.cursor⟩⟩
    | none =>
      have := Scanner.length_rest_advance_lt h s.refreshed
      (run (s.advance m s.refreshed)).cons (s.token m)
termination_by s.rest.length

/-- The tokens of a text. -/
def tokenize (text : String) : Tokenization :=
  (Scanner.ofText text.toList).run

end IncludeScan
