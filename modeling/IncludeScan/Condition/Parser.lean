import IncludeScan.Condition.Basic
import IncludeScan.Numeral
import IncludeScan.Token.Basic

/-!
# Condition/Parser — reading a condition from the tokens of a line

An operator binds by its power: `||` weakest, then `&&`, then the comparisons, all of them from the
left.  A negation binds more tightly than any operator.  `parseFrom` reads an operand and then goes
on with operators as long as their power is at least the one it was asked for.

Every reader returns the tokens that it leaves, with a proof that they are fewer, or at least not
more, than it was given; the recursion ends by that.  Tokens behind a complete condition are left
unread.
-/

namespace IncludeScan

/-- What a reader was looking for. -/
inductive Wanted where
  | expression
  | identifier
  | closing
  | separator
deriving DecidableEq, Repr

/-- The wording of what was looked for. -/
def Wanted.describe : Wanted → String
  | .expression => "expression"
  | .identifier => "identifier"
  | .closing => "')'"
  | .separator => "',' or ')'"

/-- Why tokens are not a condition. -/
inductive ConditionError where
  /-- The tokens end too early. -/
  | endOfLine (wanted : Wanted)
  /-- Another token stands there. -/
  | mismatch (wanted : Wanted) (found : Token)
  /-- A numeral that is no literal within the limit. -/
  | badLiteral (found : Token)
  /-- A token that no operand begins with. -/
  | unexpected (found : Token)
deriving DecidableEq, Repr

namespace ConditionError

/-- The wording of an error. -/
def message : ConditionError → String
  | .endOfLine wanted => "expected " ++ wanted.describe ++ ", found end of line"
  | .mismatch wanted t => "expected " ++ wanted.describe ++ " but found '" ++ t.value ++ "'"
  | .badLiteral t => "invalid integer literal '" ++ t.value ++ "'"
  | .unexpected t => "unexpected token '" ++ t.value ++ "'"

/-- The token at fault, unless it is the end of the line. -/
def token? : ConditionError → Option Token
  | .endOfLine _ => none
  | .mismatch _ t | .badLiteral t | .unexpected t => some t

end ConditionError

/-- The operators that join two conditions. -/
inductive Connective where
  | or
  | and
  | compare (op : Comparison)
deriving DecidableEq, Repr

namespace Connective

/-- How tightly an operator binds. -/
def power : Connective → Nat
  | .or => 1
  | .and => 2
  | .compare _ => 3

/-- The power that only operands reach. -/
def operandPower : Nat := 5

/-- Two conditions joined. -/
def join : Connective → Condition → Condition → Condition
  | .or, left, right => .or left right
  | .and, left, right => .and left right
  | .compare op, left, right => .compare left op right

/-- The operator that a token is. -/
def ofToken? (t : Token) : Option Connective :=
  if t.kind ≠ .op then none
  else if t.value = "||" then some .or
  else if t.value = "&&" then some .and
  else (Comparison.ofSign? t.value).map .compare

end Connective

namespace Condition

/-- Fewer tokens. -/
abbrev Shorter (ts : List Token) := { rest : List Token // rest.length < ts.length }

/-- Not more tokens. -/
abbrev Within (ts : List Token) := { rest : List Token // rest.length ≤ ts.length }

/-- All tokens, when none is taken. -/
def Within.all (ts : List Token) : Within ts :=
  ⟨ts, Nat.le_refl _⟩

/-- The tokens behind the first. -/
def Shorter.tail (t : Token) (rest : List Token) : Shorter (t :: rest) :=
  ⟨rest, Nat.lt_succ_self _⟩

/-- Fewer tokens are not more. -/
def Shorter.within {ts : List Token} (r : Shorter ts) : Within ts :=
  ⟨r.1, Nat.le_of_lt r.2⟩

/-- Fewer tokens than some that are fewer. -/
def Shorter.trans {ts : List Token} (r : Shorter ts) (r' : Shorter r.1) : Shorter ts :=
  ⟨r'.1, Nat.lt_trans r'.2 r.2⟩

/-- Not more tokens than some that are fewer. -/
def Shorter.transWithin {ts : List Token} (r : Shorter ts) (r' : Within r.1) : Shorter ts :=
  ⟨r'.1, Nat.lt_of_le_of_lt r'.2 r.2⟩

/-- Fewer tokens than some that are not more. -/
def Within.trans {ts : List Token} (r : Within ts) (r' : Shorter r.1) : Shorter ts :=
  ⟨r'.1, Nat.lt_of_lt_of_le r'.2 r.2⟩

/-- Not more tokens, with one in front. -/
def Within.cons {rest : List Token} (t : Token) (r : Within rest) : Shorter (t :: rest) :=
  ⟨r.1, Nat.lt_succ_of_le r.2⟩

/-- Takes a closing parenthesis. -/
def expectClosing : (ts : List Token) → Except ConditionError (Shorter ts)
  | [] => .error (.endOfLine .closing)
  | t :: rest => if t.isPunct ")" then .ok (.tail t rest) else .error (.mismatch .closing t)

/-- Takes an identifier. -/
def expectIdentifier : (ts : List Token) → Except ConditionError (String × Shorter ts)
  | [] => .error (.endOfLine .identifier)
  | t :: rest =>
    if t.isIdentifier then .ok (t.value, .tail t rest) else .error (.mismatch .identifier t)

/-- What follows `defined`: a name, with or without parentheses. -/
def definedName (ts : List Token) : Except ConditionError (Condition × Within ts) :=
  match ts with
  | [] => .error (.endOfLine .identifier)
  | t :: rest =>
    if t.isPunct "(" then do
      let (name, r) ← expectIdentifier rest
      let r' ← expectClosing r.1
      return (.defined name, (r.trans r').within.cons t |>.within)
    else do
      let (name, r) ← expectIdentifier (t :: rest)
      return (.defined name, r.within)

mutual

/-- Reads a condition whose operators have at least the power `least`. -/
def parseFrom (least : Nat) (ts : List Token) : Except ConditionError (Condition × Shorter ts) :=
  match ts with
  | [] => .error (.endOfLine .expression)
  | t :: rest => do
    let (left, r) ← operand t rest
    have _ := r.2
    let (e, r') ← extend least left r.1
    return (e, (r.cons t).transWithin r')
termination_by (ts.length, 0)

/-- Goes on with operators behind a condition. -/
def extend (least : Nat) (left : Condition) (ts : List Token) :
    Except ConditionError (Condition × Within ts) :=
  match ts with
  | [] => .ok (left, .all [])
  | t :: rest =>
    match Connective.ofToken? t with
    | none => .ok (left, .all (t :: rest))
    | some op =>
      if least ≤ op.power then do
        let (right, r) ← parseFrom (op.power + 1) rest
        have _ := r.2
        let (e, r') ← extend least (op.join left right) r.1
        return (e, ((r.within.cons t).transWithin r').within)
      else .ok (left, .all (t :: rest))
termination_by (ts.length, 1)

/-- An operand that begins with token `t`. -/
def operand (t : Token) (rest : List Token) : Except ConditionError (Condition × Within rest) :=
  if t.isOp "!" then do
    let (e, r) ← parseFrom Connective.operandPower rest
    return (.not e, r.within)
  else if t.isPunct "(" then do
    let (e, r) ← parseFrom 0 rest
    let r' ← expectClosing r.1
    return (e, (r.trans r').within)
  else if t.kind = .number then
    match Numeral.literal? t.value with
    | some n => .ok (.constant n, .all rest)
    | none => .error (.badLiteral t)
  else if !t.isIdentifier then .error (.unexpected t)
  else if t.value = "defined" then definedName rest
  else
    match rest with
    | [] => .ok (.ident t.value, .all [])
    | u :: rest' =>
      if u.isPunct "(" then do
        let (args, r) ← arguments rest'
        return (.apply t.value args, (r.within.cons u).within)
      else .ok (.ident t.value, .all (u :: rest'))
termination_by (rest.length, 1)

/-- The arguments of a call behind its opening parenthesis. -/
def arguments (ts : List Token) : Except ConditionError (List Condition × Shorter ts) :=
  match ts with
  | [] => argumentsFrom []
  | t :: rest => if t.isPunct ")" then .ok ([], .tail t rest) else argumentsFrom (t :: rest)
termination_by (ts.length, 2)

/-- One or more arguments and the closing parenthesis. -/
def argumentsFrom (ts : List Token) : Except ConditionError (List Condition × Shorter ts) := do
  let (e, r) ← parseFrom 0 ts
  match hr : r.1 with
  | [] => .error (.endOfLine .separator)
  | t :: rest =>
    have hlt : rest.length < ts.length := by have := r.2; rw [hr] at this; simp at this; omega
    if t.isPunct ")" then .ok ([e], ⟨rest, hlt⟩)
    else if t.isPunct "," then do
      let (es, r') ← argumentsFrom rest
      return (e :: es, ⟨r'.1, by have := r'.2; omega⟩)
    else .error (.mismatch .separator t)
termination_by (ts.length, 1)

end

/-- Reads a condition; the tokens behind it are returned with it. -/
def parse (ts : List Token) : Except ConditionError (Condition × List Token) :=
  (parseFrom 0 ts).map fun (e, rest) => (e, rest.1)

end Condition

end IncludeScan
