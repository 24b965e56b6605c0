import IncludeScan.Condition.Parser
import Mathlib.Data.List.Forall2

/-!
# Proofs/Condition/Reading — the readers of conditions without their length proofs

The readers return the tokens that they leave with a proof that these are fewer.  `reading`,
`extending`, `operandOf`, `callArguments` and `argumentList` are the same readers with the proof
forgotten, each with its equations; later proofs use only these.  `readers_induction` is the
recursion of the five readers as one induction principle.

`alike_readers` — a reader looks at the kind and the value of its tokens and at nothing else.
-/

namespace IncludeScan.Condition

/-- What a reader has read and the tokens that it leaves, or an error. -/
abbrev Outcome (α : Type) := Except ConditionError (α × List Token)

variable {α β : Type}

/-- Reading goes on with the tokens that are left. -/
def Outcome.andThen (x : Outcome α) (f : α → List Token → Outcome β) : Outcome β :=
  match x with
  | .ok (a, rest) => f a rest
  | .error e => .error e

@[simp] theorem Outcome.andThen_ok (a : α) (rest : List Token) (f : α → List Token → Outcome β) :
    Outcome.andThen (.ok (a, rest)) f = f a rest := rfl

@[simp] theorem Outcome.andThen_error (e : ConditionError) (f : α → List Token → Outcome β) :
    Outcome.andThen (.error e) f = .error e := rfl

theorem Outcome.andThen_assoc {γ : Type} (x : Outcome α) (f : α → List Token → Outcome β)
    (g : β → List Token → Outcome γ) :
    (x.andThen f).andThen g = x.andThen fun a rest => (f a rest).andThen g := by
  cases x <;> rfl

theorem Outcome.andThen_congr {x : Outcome α} {f g : α → List Token → Outcome β}
    (h : ∀ a rest, x = .ok (a, rest) → f a rest = g a rest) : x.andThen f = x.andThen g := by
  cases x with
  | error e => rfl
  | ok y => exact h y.1 y.2 rfl

theorem Outcome.of_andThen_eq_ok {x : Outcome α} {f : α → List Token → Outcome β} {b : β}
    {rest : List Token} (h : x.andThen f = .ok (b, rest)) :
    ∃ a r, x = .ok (a, r) ∧ f a r = .ok (b, rest) := by
  cases x with
  | error e => cases h
  | ok y => exact ⟨y.1, y.2, rfl, h⟩

/-- The outcome without the proof about the tokens left. -/
def plain {P : List Token → Prop}
    (x : Except ConditionError (α × { rest : List Token // P rest })) :
    Outcome α :=
  x.map fun y => (y.1, y.2.1)

/-! ## The readers and their equations -/

/-- A condition whose operators have at least the power `least`. -/
def reading (least : Nat) (ts : List Token) : Outcome Condition := plain (parseFrom least ts)

/-- The condition `left` with the operators behind it. -/
def extending (least : Nat) (left : Condition) (ts : List Token) : Outcome Condition :=
  plain (extend least left ts)

/-- An operand that begins with token `t`. -/
def operandOf (t : Token) (rest : List Token) : Outcome Condition := plain (operand t rest)

/-- The arguments of a call behind its opening parenthesis. -/
def callArguments (ts : List Token) : Outcome (List Condition) := plain (arguments ts)

/-- One or more arguments and the closing parenthesis. -/
def argumentList (ts : List Token) : Outcome (List Condition) := plain (argumentsFrom ts)

/-- A closing parenthesis behind what has been read. -/
def closed (a : α) : List Token → Outcome α
  | [] => .error (.endOfLine .closing)
  | t :: rest => if t.isPunct ")" then .ok (a, rest) else .error (.mismatch .closing t)

/-- An identifier. -/
def named : List Token → Outcome String
  | [] => .error (.endOfLine .identifier)
  | t :: rest => if t.isIdentifier then .ok (t.value, rest) else .error (.mismatch .identifier t)

/-- The name behind `defined`, with or without parentheses. -/
def definedOf : List Token → Outcome Condition
  | [] => .error (.endOfLine .identifier)
  | t :: rest =>
    if t.isPunct "(" then (named rest).andThen fun name => closed (.defined name)
    else (named (t :: rest)).andThen fun name r => .ok (.defined name, r)

theorem plain_expectClosing (ts : List Token) (a : α) :
    plain ((expectClosing ts).map fun r => (a, r)) = closed a ts := by
  cases ts with
  | nil => rfl
  | cons t rest =>
    rw [expectClosing, closed]
    split <;> rfl

theorem plain_expectIdentifier (ts : List Token) : plain (expectIdentifier ts) = named ts := by
  cases ts with
  | nil => rfl
  | cons t rest =>
    rw [expectIdentifier, named]
    split <;> rfl

theorem reading_nil (least : Nat) : reading least [] = .error (.endOfLine .expression) := by
  rw [reading, parseFrom]
  rfl

theorem reading_cons (least : Nat) (t : Token) (rest : List Token) :
    reading least (t :: rest) = (operandOf t rest).andThen (extending least) := by
  rw [reading, parseFrom, operandOf]
  cases operand t rest with
  | error e => rfl
  | ok x =>
    obtain ⟨left, r⟩ := x
    simp only [bind, Except.bind, plain, Except.map, Outcome.andThen, extending]
    cases extend least left r.1 <;> rfl

theorem extending_nil (least : Nat) (left : Condition) :
    extending least left [] = .ok (left, []) := by
  rw [extending, extend]
  rfl

theorem extending_cons (least : Nat) (left : Condition) (t : Token) (rest : List Token) :
    extending least left (t :: rest)
      = match Connective.ofToken? t with
        | none => .ok (left, t :: rest)
        | some op =>
          if least ≤ op.power then
            (reading (op.power + 1) rest).andThen fun right =>
              extending least (op.join left right)
          else .ok (left, t :: rest) := by
  rw [extending, extend]
  cases Connective.ofToken? t with
  | none => rfl
  | some op =>
    dsimp only
    split
    · rw [reading]
      cases parseFrom (op.power + 1) rest with
      | error e => rfl
      | ok x =>
        obtain ⟨right, r⟩ := x
        simp only [bind, Except.bind, plain, Except.map, Outcome.andThen, extending]
        cases extend least (op.join left right) r.1 <;> rfl
    · rfl

/-- An operator that binds tightly enough is taken. -/
theorem extending_cons_of_le {least : Nat} {t : Token} {op : Connective}
    (hop : Connective.ofToken? t = some op) (hle : least ≤ op.power) (left : Condition)
    (rest : List Token) :
    extending least left (t :: rest)
      = (reading (op.power + 1) rest).andThen fun right =>
        extending least (op.join left right) := by
  rw [extending_cons, hop]
  exact if_pos hle

/-- A looser operator is left. -/
theorem extending_cons_of_lt {least : Nat} {t : Token} {op : Connective}
    (hop : Connective.ofToken? t = some op) (hlt : op.power < least) (left : Condition)
    (rest : List Token) : extending least left (t :: rest) = .ok (left, t :: rest) := by
  rw [extending_cons, hop]
  exact if_neg (Nat.not_le.2 hlt)

/-- …and so is any other token. -/
theorem extending_of_lt {least : Nat} {ts : List Token}
    (h : ∀ t ∈ ts.head?, ∀ op, Connective.ofToken? t = some op → op.power < least)
    (left : Condition) : extending least left ts = .ok (left, ts) := by
  cases ts with
  | nil => exact extending_nil least left
  | cons t rest =>
    cases hop : Connective.ofToken? t with
    | none => rw [extending_cons, hop]
    | some op => exact extending_cons_of_lt hop (h t rfl op hop) left rest

theorem power_lt_operandPower (op : Connective) : op.power < Connective.operandPower := by
  cases op <;> simp [Connective.power, Connective.operandPower]

/-- Nothing binds as tightly as an operand. -/
theorem extending_operandPower (c : Condition) (rest : List Token) :
    extending Connective.operandPower c rest = .ok (c, rest) :=
  extending_of_lt (fun _ _ op _ => power_lt_operandPower op) c

theorem definedName_eq (ts : List Token) : plain (definedName ts) = definedOf ts := by
  cases ts with
  | nil => rfl
  | cons t rest =>
    rw [definedName, definedOf]
    split
    · rw [← plain_expectIdentifier]
      cases expectIdentifier rest with
      | error e => rfl
      | ok x =>
        obtain ⟨name, r⟩ := x
        simp only [bind, Except.bind, plain, Except.map, Outcome.andThen,
          ← plain_expectClosing]
        cases expectClosing r.1 <;> rfl
    · rw [← plain_expectIdentifier]
      cases expectIdentifier (t :: rest) <;> rfl

theorem operandOf_eq (t : Token) (rest : List Token) :
    operandOf t rest
      = if t.isOp "!" then
          (reading Connective.operandPower rest).andThen fun e r => .ok (.not e, r)
        else if t.isPunct "(" then (reading 0 rest).andThen closed
        else if t.kind = .number then
          match Numeral.literal? t.value with
          | some n => .ok (.constant n, rest)
          | none => .error (.badLiteral t)
        else if !t.isIdentifier then .error (.unexpected t)
        else if t.value = "defined" then definedOf rest
        else
          match rest with
          | [] => .ok (.ident t.value, [])
          | u :: rest' =>
            if u.isPunct "(" then
              (callArguments rest').andThen fun args r => .ok (.apply t.value args, r)
            else .ok (.ident t.value, u :: rest') := by
  rw [operandOf, operand.eq_def]
  split
  · rw [reading]
    cases parseFrom Connective.operandPower rest <;> rfl
  · split
    · rw [reading]
      cases parseFrom 0 rest with
      | error e => rfl
      | ok x =>
        obtain ⟨e, r⟩ := x
        simp only [bind, Except.bind, plain, Except.map, Outcome.andThen, ← plain_expectClosing]
        cases expectClosing r.1 <;> rfl
    · split
      · cases Numeral.literal? t.value <;> rfl
      · split
        · rfl
        · split
          · exact definedName_eq rest
          · cases rest with
            | nil => rfl
            | cons u rest =>
              dsimp only
              split
              · rw [callArguments]
                cases arguments rest <;> rfl
              · rfl

theorem callArguments_nil : callArguments [] = argumentList [] := by
  rw [callArguments, arguments, argumentList]

theorem callArguments_cons (t : Token) (rest : List Token) :
    callArguments (t :: rest) = if t.isPunct ")" then .ok ([], rest)
      else argumentList (t :: rest) := by
  rw [callArguments, arguments]
  split <;> rfl

/-- What follows an argument: the end of the list, or a comma and the other arguments. -/
def moreArguments (e : Condition) : List Token → Outcome (List Condition)
  | [] => .error (.endOfLine .separator)
  | t :: rest =>
    if t.isPunct ")" then .ok ([e], rest)
    else if t.isPunct "," then (argumentList rest).andThen fun es r => .ok (e :: es, r)
    else .error (.mismatch .separator t)

theorem argumentList_eq (ts : List Token) :
    argumentList ts = (reading 0 ts).andThen moreArguments := by
  rw [argumentList, argumentsFrom, reading]
  cases parseFrom 0 ts with
  | error e => rfl
  | ok x =>
    obtain ⟨e, ⟨rest, hlt⟩⟩ := x
    simp only [bind, Except.bind, plain, Except.map, Outcome.andThen]
    cases rest with
    | nil => rfl
    | cons t rest =>
      by_cases hclose : t.isPunct ")" = true
      · simp only [moreArguments, if_pos hclose]
      · by_cases hcomma : t.isPunct "," = true
        · simp only [moreArguments, if_neg hclose, if_pos hcomma, argumentList]
          cases argumentsFrom rest <;> rfl
        · simp only [moreArguments, if_neg hclose, if_neg hcomma]

/-! ## The recursion of the readers -/

/-- What was proved about the tokens left. -/
theorem of_plain_eq_ok {P : List Token → Prop}
    {x : Except ConditionError (α × { rest : List Token // P rest })} {a : α} {rest : List Token}
    (h : plain x = .ok (a, rest)) : P rest := by
  cases x with
  | error e => cases h
  | ok y =>
    obtain ⟨-, rfl⟩ := Prod.mk.inj (Except.ok.inj h)
    exact y.2.2

theorem length_reading_lt {least : Nat} {ts rest : List Token} {e : Condition}
    (h : reading least ts = .ok (e, rest)) : rest.length < ts.length := of_plain_eq_ok h

theorem length_operandOf_le {t : Token} {ts rest : List Token} {e : Condition}
    (h : operandOf t ts = .ok (e, rest)) : rest.length ≤ ts.length := of_plain_eq_ok h

/-- **Induction along the five readers**, one case for each: what it may assume are the properties
of the readers that it calls, on fewer tokens or on the same tokens in this order. -/
theorem readers_induction {A B C D E : List Token → Prop}
    (reading : ∀ ts, (∀ us : List Token, us.length < ts.length → B us ∧ C us) → A ts)
    (extending : ∀ ts, (∀ us : List Token, us.length < ts.length → A us ∧ B us) → B ts)
    (operandOf : ∀ ts, A ts → (∀ us : List Token, us.length < ts.length → D us) → C ts)
    (argumentList : ∀ ts, A ts → (∀ us : List Token, us.length < ts.length → E us) → E ts)
    (callArguments : ∀ ts, E ts → D ts) (ts : List Token) : A ts ∧ B ts ∧ C ts ∧ D ts ∧ E ts := by
  induction h : ts.length using Nat.strongRecOn generalizing ts with
  | ind n ih =>
    have ih' : ∀ us : List Token, us.length < ts.length → A us ∧ B us ∧ C us ∧ D us ∧ E us :=
      fun us hlt => ih us.length (h ▸ hlt) us rfl
    have hA : A ts := reading ts fun us hlt => ⟨(ih' us hlt).2.1, (ih' us hlt).2.2.1⟩
    have hE : E ts := argumentList ts hA fun us hlt => (ih' us hlt).2.2.2.2
    exact ⟨hA, extending ts fun us hlt => ⟨(ih' us hlt).1, (ih' us hlt).2.1⟩,
      operandOf ts hA fun us hlt => (ih' us hlt).2.2.2.1, callArguments ts hE, hE⟩

/-! ## Readers look at kinds and values only -/

/-- **Outcomes that differ in their tokens only**, and there by a relation. -/
inductive Outcome.Alike (R : Token → Token → Prop) : Outcome α → Outcome α → Prop
  | ok (a : α) {ts us : List Token} (h : List.Forall₂ R ts us) : Alike R (.ok (a, ts)) (.ok (a, us))
  | endOfLine (wanted : Wanted) : Alike R (.error (.endOfLine wanted)) (.error (.endOfLine wanted))
  | mismatch (wanted : Wanted) {t u : Token} (h : R t u) :
      Alike R (.error (.mismatch wanted t)) (.error (.mismatch wanted u))
  | badLiteral {t u : Token} (h : R t u) : Alike R (.error (.badLiteral t)) (.error (.badLiteral u))
  | unexpected {t u : Token} (h : R t u) : Alike R (.error (.unexpected t)) (.error (.unexpected u))

theorem Outcome.Alike.andThen {R : Token → Token → Prop} {x y : Outcome α} (h : Alike R x y)
    {f g : α → List Token → Outcome β}
    (hfg : ∀ a ts us, x = .ok (a, ts) → List.Forall₂ R ts us → Alike R (f a ts) (g a us)) :
    Alike R (x.andThen f) (y.andThen g) := by
  cases h with
  | ok a h => exact hfg a _ _ rfl h
  | endOfLine wanted => exact .endOfLine wanted
  | mismatch wanted h => exact .mismatch wanted h
  | badLiteral h => exact .badLiteral h
  | unexpected h => exact .unexpected h

section

variable {R : Token → Token → Prop} (hR : ∀ {t u}, R t u → t.kind = u.kind ∧ t.value = u.value)

include hR

theorem alike_isPunct {t u : Token} (h : R t u) (mark : String) :
    t.isPunct mark = u.isPunct mark := by
  rw [Token.isPunct, Token.isPunct, (hR h).1, (hR h).2]

theorem alike_isOp {t u : Token} (h : R t u) (sign : String) : t.isOp sign = u.isOp sign := by
  rw [Token.isOp, Token.isOp, (hR h).1, (hR h).2]

theorem alike_isIdentifier {t u : Token} (h : R t u) : t.isIdentifier = u.isIdentifier := by
  rw [Token.isIdentifier, Token.isIdentifier, (hR h).1, (hR h).2]

theorem alike_ofToken? {t u : Token} (h : R t u) :
    Connective.ofToken? t = Connective.ofToken? u := by
  rw [Connective.ofToken?, Connective.ofToken?, (hR h).1, (hR h).2]

theorem alike_closed (a : α) {ts us : List Token} (h : List.Forall₂ R ts us) :
    (closed a ts).Alike R (closed a us) := by
  cases h with
  | nil => exact .endOfLine _
  | cons ht h =>
    rw [closed, closed, alike_isPunct hR ht]
    split
    · exact .ok a h
    · exact .mismatch _ ht

theorem alike_named {ts us : List Token} (h : List.Forall₂ R ts us) :
    (named ts).Alike R (named us) := by
  cases h with
  | nil => exact .endOfLine _
  | cons ht h =>
    rw [named, named, alike_isIdentifier hR ht, (hR ht).2]
    split
    · exact .ok _ h
    · exact .mismatch _ ht

theorem alike_definedOf {ts us : List Token} (h : List.Forall₂ R ts us) :
    (definedOf ts).Alike R (definedOf us) := by
  cases h with
  | nil => exact .endOfLine _
  | cons ht h =>
    rw [definedOf, definedOf, alike_isPunct hR ht]
    split
    · exact (alike_named hR h).andThen fun name _ _ _ h => alike_closed hR _ h
    · exact (alike_named hR (.cons ht h)).andThen fun name _ _ _ h => .ok _ h

/-- **A reader looks at the kind and the value of its tokens and at nothing else.** -/
theorem alike_readers : ∀ ts : List Token,
    (∀ least us, List.Forall₂ R ts us → (reading least ts).Alike R (reading least us))
    ∧ (∀ least left us, List.Forall₂ R ts us →
        (extending least left ts).Alike R (extending least left us))
    ∧ (∀ t u us, R t u → List.Forall₂ R ts us → (operandOf t ts).Alike R (operandOf u us))
    ∧ (∀ us, List.Forall₂ R ts us → (callArguments ts).Alike R (callArguments us))
    ∧ (∀ us, List.Forall₂ R ts us → (argumentList ts).Alike R (argumentList us)) := by
  refine readers_induction ?reading ?extending ?operandOf ?argumentList ?callArguments
  case reading =>
    intro ts ih least us h
    cases h with
    | nil => exact reading_nil least ▸ .endOfLine _
    | cons ht h =>
      rw [reading_cons, reading_cons]
      refine ((ih _ (Nat.lt_succ_self _)).2 _ _ _ ht h).andThen fun left r r' hr h => ?_
      exact (ih r (Nat.lt_succ_of_le (length_operandOf_le hr))).1 _ _ _ h
  case extending =>
    intro ts ih least left us h
    cases h with
    | nil => exact extending_nil least left ▸ .ok _ .nil
    | cons ht h =>
      rw [extending_cons, extending_cons, alike_ofToken? hR ht]
      split
      · exact .ok _ (.cons ht h)
      · split
        · refine ((ih _ (Nat.lt_succ_self _)).1 _ _ h).andThen fun right r r' hr h => ?_
          exact (ih r (Nat.lt_succ_of_lt (length_reading_lt hr))).2 _ _ _ h
        · exact .ok _ (.cons ht h)
  case operandOf =>
    intro ts hreading ih t u us htu h
    rw [operandOf_eq, operandOf_eq, alike_isOp hR htu, alike_isPunct hR htu, (hR htu).1, (hR htu).2,
      alike_isIdentifier hR htu]
    split
    · exact (hreading _ _ h).andThen fun e _ _ _ h => .ok _ h
    · split
      · exact (hreading _ _ h).andThen fun e _ _ _ h => alike_closed hR _ h
      · split
        · split
          · exact .ok _ h
          · exact .badLiteral htu
        · split
          · exact .unexpected htu
          · split
            · exact alike_definedOf hR h
            · cases h with
              | nil => exact .ok _ .nil
              | cons ht h =>
                dsimp only
                rw [alike_isPunct hR ht]
                split
                · exact (ih _ (Nat.lt_succ_self _) _ h).andThen fun args _ _ _ h => .ok _ h
                · exact .ok _ (.cons ht h)
  case argumentList =>
    intro ts hreading ih us h
    rw [argumentList_eq, argumentList_eq]
    refine (hreading _ _ h).andThen fun e r r' hr h => ?_
    cases h with
    | nil => exact .endOfLine _
    | cons ht h =>
      rw [moreArguments, moreArguments, alike_isPunct hR ht, alike_isPunct hR ht]
      split
      · exact .ok _ h
      · split
        · refine (ih _ ?_ _ h).andThen fun es _ _ _ h => .ok _ h
          exact Nat.lt_trans (Nat.lt_succ_self _) (length_reading_lt hr)
        · exact .mismatch _ ht
  case callArguments =>
    intro ts hlist us h
    cases h with
    | nil => exact callArguments_nil ▸ hlist _ .nil
    | cons ht h =>
      rw [callArguments_cons, callArguments_cons, alike_isPunct hR ht]
      split
      · exact .ok _ h
      · exact hlist _ (.cons ht h)

theorem alike_parse {ts us : List Token} (h : List.Forall₂ R ts us) :
    Outcome.Alike R (parse ts) (parse us) := (alike_readers hR ts).1 0 us h

end

/-- **An error is at one of the tokens read**, or at their end. -/
theorem token_mem_of_parse_eq_error {ts : List Token} {e : ConditionError} (h : parse ts = .error e)
    {t : Token} (ht : e.token? = some t) : t ∈ ts := by
  have hself : List.Forall₂ (fun t u => t = u ∧ t ∈ ts) ts ts :=
    List.forall₂_same.2 fun t ht => ⟨rfl, ht⟩
  have halike := alike_parse (fun ⟨heq, _⟩ => heq ▸ ⟨rfl, rfl⟩) hself
  rw [h] at halike
  cases halike with
  | endOfLine => cases ht
  | mismatch _ h => exact Option.some.inj ht ▸ h.2
  | badLiteral h => exact Option.some.inj ht ▸ h.2
  | unexpected h => exact Option.some.inj ht ▸ h.2

end IncludeScan.Condition
