import IncludeScan.Value.Schema

/-!
# Value/Check — everything that is wrong with a value

A value is checked against a schema to its end, and all that is wrong is reported in a fixed order:
for a record the fields that are missing, then the fields that it should not have, then what is
wrong inside the others; for a list its length, then its items, then repetitions.
-/

namespace IncludeScan

/-- The sorts of value that a schema asks for. -/
inductive Shape where
  | object
  | array
  | string
  | integer
  | boolean
deriving DecidableEq, Repr

/-- The name of a sort of value. -/
def Shape.name : Shape → String
  | .object => "object"
  | .array => "array"
  | .string => "string"
  | .integer => "integer"
  | .boolean => "boolean"

/-- One thing that is wrong. -/
inductive Flaw where
  | wrongShape (wanted : Shape)
  | missingField (key : String)
  | unknownField
  | noItems
  | repeatedItem (first second : Nat)
  | misspelled (wanted : Spelling)
  | notConstant
  | notOne
deriving DecidableEq, Repr

/-- The wording of a flaw. -/
def Flaw.message : Flaw → String
  | .wrongShape wanted => "must be " ++ wanted.name
  | .missingField key => "must have required property '" ++ key ++ "'"
  | .unknownField => "must NOT have additional properties"
  | .noItems => "must NOT have fewer than 1 items"
  | .repeatedItem first second =>
    "must NOT have duplicate items (items ## " ++ toString first ++ " and " ++ toString second
      ++ " are identical)"
  | .misspelled wanted => "must match pattern \"" ++ wanted.pattern ++ "\""
  | .notConstant => "must be equal to constant"
  | .notOne => "must match exactly one schema in oneOf"

/-- A flaw and the keys and indices that lead to it. -/
structure Issue where
  path : List String
  flaw : Flaw
deriving DecidableEq, Repr

namespace Issue

/-- A step of a path, with the two characters escaped that mean something in paths. -/
def escaped (step : String) : String :=
  String.join (step.toList.map fun c =>
    if c = '~' then "~0" else if c = '/' then "~1" else String.ofList [c])

/-- The issue in words. -/
def objection (i : Issue) : Objection where
  place := String.join (i.path.map fun step => "/" ++ escaped step)
  wording := i.flaw.message

end Issue

namespace Schema

/-- The last item that is equal to an earlier one, with the last such earlier one. -/
def repetition? (items : List Value) : Option (Nat × Nat) :=
  (List.range items.length).reverse.findSome? fun i =>
    ((List.range i).reverse.find? fun j =>
      Value.same (items.getD i .null) (items.getD j .null)).map fun j => (j, i)

/-- What is wrong with the length of a list. -/
def lengthIssues (nonempty : Bool) (path : List String) (items : List Value) : List Issue :=
  if nonempty && items.isEmpty then [⟨path, .noItems⟩] else []

/-- What is wrong with the items of a list taken together. -/
def repetitionIssues (distinct : Bool) (path : List String) (items : List Value) : List Issue :=
  match repetition? items with
  | some (j, i) => if distinct then [⟨path, .repeatedItem j i⟩] else []
  | none => []

/-- The fields that are missing in a record, and then those that it should not have. -/
def keyIssues (required known path : List String) (entries : List (String × Value)) : List Issue :=
  (required.filter fun key => (entries.lookup key).isNone).map
      (fun key => ⟨path, .missingField key⟩)
    ++ (entries.filter fun e => !known.contains e.1).map fun _ => ⟨path, .unknownField⟩

/-- Nothing is wrong if one of two checks finds nothing and the other something. -/
def eitherIssues (path : List String) (first second : List Issue) : List Issue :=
  if first.isEmpty != second.isEmpty then [] else first ++ second ++ [⟨path, .notOne⟩]

mutual

/-- All that is wrong with the value at the end of a path. -/
def issues : Schema → List String → Value → List Issue
  | .text spelling, path, .string s =>
    if spelling.accepts s then [] else [⟨path, .misspelled spelling⟩]
  | .text _, path, _ => [⟨path, .wrongShape .string⟩]
  | .constant s, path, .string t => if t = s then [] else [⟨path, .notConstant⟩]
  | .constant _, path, _ => [⟨path, .notConstant⟩]
  | .integer, path, .number n => if n.toInt?.isSome then [] else [⟨path, .wrongShape .integer⟩]
  | .integer, path, _ => [⟨path, .wrongShape .integer⟩]
  | .boolean, _, .bool _ => []
  | .boolean, path, _ => [⟨path, .wrongShape .boolean⟩]
  | .list item nonempty distinct, path, .array items =>
    lengthIssues nonempty path items
      ++ (items.zipIdx.flatMap fun (w, i) => item.issues (path ++ [toString i]) w)
      ++ repetitionIssues distinct path items
  | .list _ _ _, path, _ => [⟨path, .wrongShape .array⟩]
  | .oneOf first second, path, v => eitherIssues path (first.issues path v) (second.issues path v)
  | .record required fields, path, v =>
    match v.entries? with
    | some entries =>
      keyIssues required (fields.map Prod.fst) path entries ++ fieldIssues fields path entries
    | none => [⟨path, .wrongShape .object⟩]
  | .mapping item, path, v =>
    match v.entries? with
    | some entries => entries.flatMap fun e => item.issues (path ++ [e.1]) e.2
    | none => [⟨path, .wrongShape .object⟩]

/-- All that is wrong inside the fields of a record. -/
def fieldIssues : List (String × Schema) → List String → List (String × Value) → List Issue
  | [], _, _ => []
  | (key, field) :: fields, path, entries =>
    (match entries.lookup key with
      | some w => field.issues (path ++ [key]) w
      | none => []) ++ fieldIssues fields path entries

end

/-- Accepts a value, or says all that is wrong with it. -/
def check (s : Schema) (v : Value) : Except (List Objection) Unit :=
  match s.issues [] v with
  | [] => .ok ()
  | found => .error (found.map Issue.objection)

end Schema

end IncludeScan
