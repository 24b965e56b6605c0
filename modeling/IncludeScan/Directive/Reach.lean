import IncludeScan.Directive.Basic
import IncludeScan.Numeral

/-!
# Directive/Reach — the includes that an environment reaches

A walk over the directives in order.  Definitions change the environment of what follows them; of a
block the first branch that is taken is walked, and what it defines ends with it.
-/

namespace IncludeScan

/-- The value that a definition gives its macro: 1 for a macro with parameters or without a body,
otherwise the first word of the body if it is a literal, and zero if not. -/
def Directive.definedValue (params : Option (List String)) (body : List String) : Int :=
  match params, body with
  | some _, _ => 1
  | none, [] => 1
  | none, first :: _ =>
    match Numeral.literal? first with
    | some n => n
    | none => 0

/-- A branch with this condition is taken when it is reached. -/
def Branch.isTaken (env : Environment) : Option Condition → Bool
  | none => true
  | some c => c.holds env

mutual

/-- The includes reached in an environment, in order. -/
def Directive.reachable (env : Environment) : List Directive → List Include
  | [] => []
  | .includeFile target :: ds => target :: Directive.reachable env ds
  | .define name params body :: ds =>
    Directive.reachable (env.define name (Directive.definedValue params body)) ds
  | .undefine name :: ds => Directive.reachable (env.erase name) ds
  | .block branches :: ds => Branch.reachable env branches ++ Directive.reachable env ds

/-- The includes reached in the first branch that is taken. -/
def Branch.reachable (env : Environment) : List Branch → List Include
  | [] => []
  | ⟨_, condition, body⟩ :: bs =>
    if Branch.isTaken env condition then Directive.reachable env body else Branch.reachable env bs

end

end IncludeScan
