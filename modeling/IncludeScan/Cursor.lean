/-!
# Cursor — a position in source text

Lines and columns count from one, columns in characters.  Only a line feed ends a line: a carriage
return is a character like any other.
-/

namespace IncludeScan

/-- A line and a column. -/
structure Cursor where
  line : Nat
  column : Nat
deriving DecidableEq, Repr, Inhabited

namespace Cursor

/-- The position of the first character. -/
def start : Cursor := ⟨1, 1⟩

/-- The position after one character. -/
def step (p : Cursor) (c : Char) : Cursor :=
  if c = '\n' then ⟨p.line + 1, 1⟩ else ⟨p.line, p.column + 1⟩

/-- The position after a text that begins here. -/
def advance (p : Cursor) (text : List Char) : Cursor :=
  text.foldl step p

@[simp] theorem advance_nil (p : Cursor) : p.advance [] = p := rfl

@[simp] theorem advance_cons (p : Cursor) (c : Char) (cs : List Char) :
    p.advance (c :: cs) = (p.step c).advance cs := rfl

@[simp] theorem advance_append (p : Cursor) (as bs : List Char) :
    p.advance (as ++ bs) = (p.advance as).advance bs := by
  simp [advance]

/-- The position written as line and column. -/
def format (p : Cursor) : String :=
  toString p.line ++ ":" ++ toString p.column

end Cursor

end IncludeScan
