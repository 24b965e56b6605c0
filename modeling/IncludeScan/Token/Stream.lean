import IncludeScan.Token.Scanner

/-!
# Token/Stream — tokens one at a time, with push-back

A stream pulls tokens out of a source as they are asked for.  Tokens may be pushed back; the last
one pushed comes first.  The end token is final: after it nothing else is given and nothing is
pulled, and pushing it back does nothing.

A source that has run dry gives no token; the stream then makes the end token itself, at the end of
the last token given and at the cursor of the last token pulled.
-/

namespace IncludeScan

/-- Where tokens come from: one pull gives a token, nothing more, or an error. -/
abbrev Pull (σ ε : Type) := σ → Except ε (Option Token) × σ

/-- A source of tokens, the tokens pushed back, the end token once it was given, the end of the last
token given and the cursor of the last token pulled. -/
structure Stream (σ : Type) where
  source : σ
  pushed : List Token := []
  ended : Option Token := none
  lastEnd : Nat := 0
  lastCursor : Cursor := .start

namespace Stream

variable {σ ε : Type}

/-- The end token that the stream makes itself. -/
def endToken (s : Stream σ) : Token where
  kind := .eof
  value := ""
  cursor := s.lastCursor
  span := ⟨s.lastEnd, s.lastEnd⟩

/-- The stream after a token was pulled: an end token ends it. -/
def receive (s : Stream σ) (t : Token) : Stream σ :=
  if t.kind = .eof then { s with ended := some t }
  else { s with lastEnd := t.span.stop, lastCursor := t.cursor }

/-- The next token. -/
def next (pull : Pull σ ε) (s : Stream σ) : Except ε Token × Stream σ :=
  match s.ended, s.pushed with
  | some t, _ => (.ok t, s)
  | none, t :: below => (.ok t, { s with pushed := below, lastEnd := t.span.stop })
  | none, [] =>
    match pull s.source with
    | (.error e, source) => (.error e, { s with source })
    | (.ok t?, source) =>
      let t := t?.getD s.endToken
      (.ok t, { s with source }.receive t)

/-- Gives a token back to the stream. -/
def pushBack (s : Stream σ) (t : Token) : Stream σ :=
  if t.kind = .eof then s else { s with pushed := t :: s.pushed }

/-- The token that would be next, which stays in the stream. -/
def peek (pull : Pull σ ε) (s : Stream σ) : Except ε Token × Stream σ :=
  match s.next pull with
  | (.ok t, after) => (.ok t, after.pushBack t)
  | (.error e, after) => (.error e, after)

end Stream

/-- A scanner as a source; it gives the end token itself. -/
def Scanner.pull : Pull Scanner ScanError := fun s =>
  match s.next with
  | (.ok t, after) => (.ok (some t), after)
  | (.error e, after) => (.error e, after)

/-- The tokens of a text as a stream. -/
def Stream.ofText (text : String) : Stream Scanner :=
  { source := Scanner.ofText text.toList }

/-- Given tokens as a source, some of them missing, with a count of the pulls. -/
structure Supply where
  answers : List (Option Token)
  pulls : Nat := 0

/-- Takes the next given token; behind the last there is none. -/
def Supply.pull {ε : Type} : Pull Supply ε := fun s =>
  match s.answers with
  | [] => (.ok none, { s with pulls := s.pulls + 1 })
  | t? :: others => (.ok t?, { answers := others, pulls := s.pulls + 1 })

end IncludeScan
