import IncludeScan.Condition.Basic

/-!
# Directive/Basic — the directives of a source file as a tree

Includes and macro definitions are leaves; a conditional block is a list of branches, each with a
body of its own.  A branch without a condition is always taken when it is reached.

`format` writes a directive as source text, a block on several lines.  `includes` gathers every
include of a list of directives, whatever the conditions around it.
-/

namespace IncludeScan

/-- A header that a source file asks for. -/
structure Include where
  path : String
  /-- Written in angle brackets. -/
  system : Bool
  line : Nat
deriving DecidableEq, Repr, Inhabited

/-- The place of a branch in its block. -/
inductive BranchKind where
  | opening
  | alternative
  | fallback
deriving DecidableEq, Repr

/-- The word that begins a branch. -/
def BranchKind.spelling : BranchKind → String
  | .opening => "if"
  | .alternative => "elif"
  | .fallback => "else"

/-- The kind of branch that a word begins. -/
def BranchKind.ofSpelling? (word : String) : Option BranchKind :=
  [BranchKind.opening, .alternative, .fallback].find? fun k => k.spelling == word

mutual

/-- A directive. -/
inductive Directive where
  | includeFile (target : Include)
  /-- A macro; without a parameter list it is not called like a function. -/
  | define (name : String) (params : Option (List String)) (body : List String)
  | undefine (name : String)
  | block (branches : List Branch)

/-- A branch of a conditional block. -/
structure Branch where
  kind : BranchKind
  condition : Option Condition
  body : List Directive

end

/-- The first line of a branch. -/
def Branch.head (kind : BranchKind) (condition : Option Condition) : String :=
  match condition with
  | some c => "#" ++ kind.spelling ++ " " ++ c.format
  | none => "#" ++ kind.spelling

/-- A macro definition as source text. -/
def Directive.formatDefine (name : String) (params : Option (List String)) (body : List String) :
    String :=
  let head :=
    match params with
    | some ps => name ++ "(" ++ ", ".intercalate ps ++ ")"
    | none => name
  if body.isEmpty then "#define " ++ head else "#define " ++ head ++ " " ++ " ".intercalate body

mutual

/-- A directive as source text, without a line end behind it. -/
def Directive.format : Directive → String
  | .includeFile target =>
    if target.system then "#include <" ++ target.path ++ ">"
    else "#include \"" ++ target.path ++ "\""
  | .define name params body => Directive.formatDefine name params body
  | .undefine name => "#undef " ++ name
  | .block branches => "\n".intercalate (Branch.formatAll branches ++ ["#endif"])

/-- Directives as source text, one text for each. -/
def Directive.formatAll : List Directive → List String
  | [] => []
  | d :: ds => d.format :: Directive.formatAll ds

/-- Branches as source text: the first line and the texts of the body, one branch after the
other. -/
def Branch.formatAll : List Branch → List String
  | [] => []
  | ⟨kind, condition, body⟩ :: bs =>
    Branch.head kind condition :: (Directive.formatAll body ++ Branch.formatAll bs)

end

mutual

/-- Every include of a directive. -/
def Directive.includesOf : Directive → List Include
  | .includeFile target => [target]
  | .define _ _ _ => []
  | .undefine _ => []
  | .block branches => Branch.includes branches

/-- Every include of the directives, in order. -/
def Directive.includes : List Directive → List Include
  | [] => []
  | d :: ds => d.includesOf ++ Directive.includes ds

/-- Every include of the branches, in order. -/
def Branch.includes : List Branch → List Include
  | [] => []
  | ⟨_, _, body⟩ :: bs => Directive.includes body ++ Branch.includes bs

end

/-! ## Induction over directives -/

/-- **Induction over a list of directives, with what is inside its blocks.** -/
@[elab_as_elim]
theorem Directive.forest_induction {motive : List Directive → Prop} (nil : motive [])
    (includeFile : ∀ target ds, motive ds → motive (.includeFile target :: ds))
    (define : ∀ name params body ds, motive ds → motive (.define name params body :: ds))
    (undefine : ∀ name ds, motive ds → motive (.undefine name :: ds))
    (block : ∀ branches ds, (∀ b ∈ branches, motive b.body) → motive ds →
      motive (.block branches :: ds)) : ∀ ds, motive ds
  | [] => nil
  | .includeFile target :: ds =>
    includeFile target ds (forest_induction nil includeFile define undefine block ds)
  | .define name params body :: ds =>
    define name params body ds (forest_induction nil includeFile define undefine block ds)
  | .undefine name :: ds =>
    undefine name ds (forest_induction nil includeFile define undefine block ds)
  | .block branches :: ds =>
    block branches ds
      (fun b hb =>
        have : sizeOf b.body < sizeOf b := by cases b; simp only [Branch.mk.sizeOf_spec]; omega
        have := List.sizeOf_lt_of_mem hb
        forest_induction nil includeFile define undefine block b.body)
      (forest_induction nil includeFile define undefine block ds)
termination_by ds => sizeOf ds
decreasing_by all_goals (simp_wf; try omega)

end IncludeScan
