import IncludeScan.Environment.Basic

/-!
# Condition/Basic — the conditions of conditional blocks, their values and their text

Every condition has an integer value in an environment, and it holds when the value is not zero.
Macros are not expanded: a name stands for its value, zero when it is not defined, and a macro
called with arguments is taken to hold.

The text of a condition has no parentheses except those of a negation and of a call.
-/

namespace IncludeScan

/-- The comparisons. -/
inductive Comparison where
  | eq
  | ne
  | lt
  | le
  | gt
  | ge
deriving DecidableEq, Repr

namespace Comparison

/-- All comparisons. -/
def all : List Comparison := [.eq, .ne, .lt, .le, .gt, .ge]

/-- The sign of a comparison. -/
def sign : Comparison → String
  | .eq => "=="
  | .ne => "!="
  | .lt => "<"
  | .le => "<="
  | .gt => ">"
  | .ge => ">="

/-- The comparison of that sign. -/
def ofSign? (sign : String) : Option Comparison :=
  all.find? fun c => c.sign == sign

/-- The comparison that holds exactly when this one does not. -/
def negate : Comparison → Comparison
  | .eq => .ne
  | .ne => .eq
  | .lt => .ge
  | .le => .gt
  | .gt => .le
  | .ge => .lt

/-- The comparison holds between two numbers. -/
def test : Comparison → Int → Int → Bool
  | .eq, a, b => a == b
  | .ne, a, b => a != b
  | .lt, a, b => a < b
  | .le, a, b => a ≤ b
  | .gt, a, b => a > b
  | .ge, a, b => a ≥ b

@[simp] theorem test_negate (c : Comparison) (a b : Int) : c.negate.test a b = !c.test a b := by
  cases c <;> grind [negate, test]

end Comparison

/-- A condition. -/
inductive Condition where
  | defined (name : String)
  | not (operand : Condition)
  | and (left right : Condition)
  | or (left right : Condition)
  | compare (left : Condition) (op : Comparison) (right : Condition)
  /-- A macro called with arguments. -/
  | apply (name : String) (args : List Condition)
  | ident (name : String)
  | constant (value : Int)
deriving Repr, Inhabited

namespace Condition

/-- A truth value as a number. -/
def truth (b : Bool) : Int := if b then 1 else 0

@[simp] theorem truth_eq_zero (b : Bool) : truth b = 0 ↔ b = false := by cases b <;> decide

/-- The value of a condition. -/
def eval (env : Environment) : Condition → Int
  | .defined name => truth (env.isDefined name)
  | .not operand => truth (operand.eval env == 0)
  | .and left right => truth (left.eval env != 0 && right.eval env != 0)
  | .or left right => truth (left.eval env != 0 || right.eval env != 0)
  | .compare left op right => truth (op.test (left.eval env) (right.eval env))
  | .apply _ _ => 1
  | .ident name => env.value name
  | .constant value => value

/-- The condition holds. -/
def holds (env : Environment) (c : Condition) : Bool := c.eval env != 0

mutual

/-- The text of a condition. -/
def format : Condition → String
  | .defined name => "defined(" ++ name ++ ")"
  | .not operand => "!(" ++ operand.format ++ ")"
  | .and left right => left.format ++ " && " ++ right.format
  | .or left right => left.format ++ " || " ++ right.format
  | .compare left op right => left.format ++ " " ++ op.sign ++ " " ++ right.format
  | .apply name args => name ++ "(" ++ ", ".intercalate (formatAll args) ++ ")"
  | .ident name => name
  | .constant value => toString value

/-- The texts of conditions. -/
def formatAll : List Condition → List String
  | [] => []
  | c :: cs => c.format :: formatAll cs

end

end Condition

end IncludeScan
