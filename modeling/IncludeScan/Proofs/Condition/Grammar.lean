import IncludeScan.Proofs.Condition.Reading

/-!
# Proofs/Condition/Grammar — conditions by levels, and why powers read the same

    disjunction := conjunction ('||' conjunction)*
    conjunction := comparison ('&&' comparison)*
    comparison  := unary (sign unary)*
    unary       := '!' unary | '(' disjunction ')' | number | 'defined' name
                 | 'defined' '(' name ')' | name '(' [disjunction (',' disjunction)*] ')' | name

`Grammar` is the reader that has one function for each level and knows no powers: a level reads an
operand of the next level, and goes on as long as an operator of its own stands there.

`parse_eq_grammar` — the reader by powers gives the same condition or the same error, and leaves the
same tokens.  Going on with all operators of some power is going on with the tighter ones first and
then with the own ones (`extending_eq_further`), since an operand that was read leaves no tighter
operator behind it (`settled_of_reading`).
-/

namespace IncludeScan.Condition

/-! ## The levels -/

/-- The levels of operators, the loosest first. -/
inductive Level where
  | disjunction
  | conjunction
  | comparison
deriving DecidableEq, Repr

/-- The operator of this level that a token is. -/
def Level.operator? (t : Token) : Level → Option Connective
  | .disjunction => if t.isOp "||" then some .or else none
  | .conjunction => if t.isOp "&&" then some .and else none
  | .comparison => if t.kind = .op then (Comparison.ofSign? t.value).map .compare else none

/-- Which of two readers on the same tokens calls the other. -/
@[simp] def Level.rank : Level → Nat
  | .comparison => 1
  | .conjunction => 3
  | .disjunction => 5

namespace Grammar

mutual

/-- Operands of a level, joined from the left by its operators. -/
def chain (level : Level) (ts : List Token) : Except ConditionError (Condition × Shorter ts) := do
  let (left, r) ← part level ts
  have _ := r.2
  let (e, r') ← further level left r.1
  return (e, r.transWithin r')
termination_by (ts.length, level.rank + 1)

/-- One operand of a level. -/
def part (level : Level) (ts : List Token) : Except ConditionError (Condition × Shorter ts) :=
  match level with
  | .disjunction => chain .conjunction ts
  | .conjunction => chain .comparison ts
  | .comparison => unary ts
termination_by (ts.length, level.rank)

/-- Goes on as long as an operator of the level stands there. -/
def further (level : Level) (left : Condition) (ts : List Token) :
    Except ConditionError (Condition × Within ts) :=
  match ts with
  | [] => .ok (left, .all [])
  | t :: rest =>
    match level.operator? t with
    | none => .ok (left, .all (t :: rest))
    | some op => do
      let (right, r) ← part level rest
      have _ := r.2
      let (e, r') ← further level (op.join left right) r.1
      return (e, ((r.within.cons t).transWithin r').within)
termination_by (ts.length, 0)

/-- A negation, a condition in parentheses, a literal, a test for being defined, a call or a
name. -/
def unary (ts : List Token) : Except ConditionError (Condition × Shorter ts) :=
  match ts with
  | [] => .error (.endOfLine .expression)
  | t :: rest =>
    if t.isOp "!" then do
      let (e, r) ← unary rest
      return (.not e, r.within.cons t)
    else if t.isPunct "(" then do
      let (e, r) ← chain .disjunction rest
      let r' ← expectClosing r.1
      return (e, (r.trans r').within.cons t)
    else if t.kind = .number then
      match Numeral.literal? t.value with
      | some n => .ok (.constant n, .tail t rest)
      | none => .error (.badLiteral t)
    else if !t.isIdentifier then .error (.unexpected t)
    else if t.value = "defined" then do
      let (e, r) ← definedName rest
      return (e, r.cons t)
    else
      match rest with
      | [] => .ok (.ident t.value, .tail t [])
      | u :: rest' =>
        if u.isPunct "(" then do
          let (args, r) ← arguments rest'
          return (.apply t.value args, (r.within.cons u).within.cons t)
        else .ok (.ident t.value, .tail t (u :: rest'))
termination_by (ts.length, 0)

/-- The arguments of a call and the closing parenthesis. -/
def arguments (ts : List Token) : Except ConditionError (List Condition × Shorter ts) :=
  match ts with
  | [] => someArguments []
  | t :: rest => if t.isPunct ")" then .ok ([], .tail t rest) else someArguments (t :: rest)
termination_by (ts.length, 8)

/-- One or more arguments and the closing parenthesis. -/
def someArguments (ts : List Token) : Except ConditionError (List Condition × Shorter ts) := do
  let (e, r) ← chain .disjunction ts
  match hr : r.1 with
  | [] => .error (.endOfLine .separator)
  | t :: rest =>
    have hlt : rest.length < ts.length := by have := r.2; rw [hr] at this; simp at this; omega
    if t.isPunct ")" then .ok ([e], ⟨rest, hlt⟩)
    else if t.isPunct "," then do
      let (es, r') ← someArguments rest
      return (e :: es, ⟨r'.1, Nat.lt_trans r'.2 hlt⟩)
    else .error (.mismatch .separator t)
termination_by (ts.length, 7)

end

/-- Reads a condition level by level; the tokens behind it are returned with it. -/
def parse (ts : List Token) : Except ConditionError (Condition × List Token) :=
  (chain .disjunction ts).map fun (e, rest) => (e, rest.1)

/-! ## Their equations, without the length proofs -/

theorem plain_chain (level : Level) (ts : List Token) :
    plain (chain level ts)
      = (plain (part level ts)).andThen fun left rest => plain (further level left rest) := by
  rw [chain]
  cases part level ts with
  | error e => rfl
  | ok x =>
    obtain ⟨left, r⟩ := x
    simp only [bind, Except.bind, plain, Except.map, Outcome.andThen]
    cases further level left r.1 <;> rfl

theorem plain_further_nil (level : Level) (left : Condition) :
    plain (further level left []) = .ok (left, []) := by
  rw [further]
  rfl

theorem plain_further_cons (level : Level) (left : Condition) (t : Token) (rest : List Token) :
    plain (further level left (t :: rest))
      = match level.operator? t with
        | none => .ok (left, t :: rest)
        | some op => (plain (part level rest)).andThen fun right r =>
            plain (further level (op.join left right) r) := by
  rw [further]
  cases level.operator? t with
  | none => rfl
  | some op =>
    dsimp only
    cases part level rest with
    | error e => rfl
    | ok x =>
      obtain ⟨right, r⟩ := x
      simp only [bind, Except.bind, plain, Except.map, Outcome.andThen]
      cases further level (op.join left right) r.1 <;> rfl

theorem plain_unary_nil : plain (unary []) = .error (.endOfLine .expression) := by
  rw [unary]
  rfl

theorem plain_unary_cons (t : Token) (rest : List Token) :
    plain (unary (t :: rest))
      = if t.isOp "!" then (plain (unary rest)).andThen fun e r => .ok (.not e, r)
        else if t.isPunct "(" then (plain (chain .disjunction rest)).andThen closed
        else if t.kind = .number then
          match Numeral.literal? t.value with
          | some n => .ok (.constant n, rest)
          | none => .error (.badLiteral t)
        else if !t.isIdentifier then .error (.unexpected t)
        else if t.value = "defined" then definedOf rest
        else
          match rest with
          | [] => .ok (.ident t.value, [])
          | u :: rest' =>
            if u.isPunct "(" then
              (plain (arguments rest')).andThen fun args r => .ok (.apply t.value args, r)
            else .ok (.ident t.value, u :: rest') := by
  rw [unary.eq_def]
  dsimp only
  split
  · cases unary rest <;> rfl
  · split
    · cases chain .disjunction rest with
      | error e => rfl
      | ok x =>
        obtain ⟨e, r⟩ := x
        simp only [bind, Except.bind, plain, Except.map, Outcome.andThen, ← plain_expectClosing]
        cases expectClosing r.1 <;> rfl
    · split
      · cases Numeral.literal? t.value <;> rfl
      · split
        · rfl
        · split
          · rw [← definedName_eq]
            cases definedName rest <;> rfl
          · cases rest with
            | nil => rfl
            | cons u rest =>
              dsimp only
              split
              · cases arguments rest <;> rfl
              · rfl

theorem plain_arguments_nil : plain (arguments []) = plain (someArguments []) := by
  rw [arguments]

theorem plain_arguments_cons (t : Token) (rest : List Token) :
    plain (arguments (t :: rest))
      = if t.isPunct ")" then .ok ([], rest) else plain (someArguments (t :: rest)) := by
  rw [arguments]
  split <;> rfl

/-- What follows an argument: the end of the list, or a comma and the other arguments. -/
def furtherArguments (e : Condition) : List Token → Outcome (List Condition)
  | [] => .error (.endOfLine .separator)
  | t :: rest =>
    if t.isPunct ")" then .ok ([e], rest)
    else if t.isPunct "," then (plain (someArguments rest)).andThen fun es r => .ok (e :: es, r)
    else .error (.mismatch .separator t)

theorem plain_someArguments (ts : List Token) :
    plain (someArguments ts) = (plain (chain .disjunction ts)).andThen furtherArguments := by
  rw [someArguments]
  cases chain .disjunction ts with
  | error e => rfl
  | ok x =>
    obtain ⟨e, ⟨rest, hlt⟩⟩ := x
    simp only [bind, Except.bind, plain, Except.map, Outcome.andThen]
    cases rest with
    | nil => rfl
    | cons t rest =>
      by_cases hclose : t.isPunct ")" = true
      · simp only [furtherArguments, if_pos hclose]
      · by_cases hcomma : t.isPunct "," = true
        · simp only [furtherArguments, if_neg hclose, if_pos hcomma]
          cases someArguments rest <;> rfl
        · simp only [furtherArguments, if_neg hclose, if_neg hcomma]

end Grammar

/-! ## Powers and levels -/

/-- The power of the operators of a level. -/
def Level.power : Level → Nat
  | .disjunction => 1
  | .conjunction => 2
  | .comparison => 3

/-- **The operators of a level are those of its power.** -/
theorem Level.operator?_eq (level : Level) (t : Token) :
    level.operator? t = (Connective.ofToken? t).filter (·.power = level.power) := by
  have hor : Comparison.ofSign? "||" = none := by decide
  have hand : Comparison.ofSign? "&&" = none := by decide
  rw [Connective.ofToken?]
  by_cases hkind : t.kind = .op
  · rw [if_neg (not_not.2 hkind)]
    by_cases hvalue : t.value = "||"
    · rw [if_pos hvalue]
      cases level <;> simp [operator?, Token.isOp, hkind, hvalue, hor] <;> rfl
    · rw [if_neg hvalue]
      by_cases hvalue' : t.value = "&&"
      · rw [if_pos hvalue']
        cases level <;> simp [operator?, Token.isOp, hkind, hvalue', hand] <;> rfl
      · rw [if_neg hvalue']
        cases hsign : Comparison.ofSign? t.value <;> cases level <;>
          simp [operator?, Token.isOp, hkind, hvalue, hvalue', hsign] <;> rfl
  · rw [if_pos hkind]
    cases level <;> simp [operator?, Token.isOp, hkind]

theorem power_mem (op : Connective) : 1 ≤ op.power ∧ op.power ≤ Level.comparison.power := by
  cases op <;> simp [Connective.power, Level.power]

/-! ## Going on, first with the tighter operators -/

/-- Nothing is left to go on with behind operators that went on. -/
theorem settled_of_extending {least : Nat} {left e : Condition} {ts rest : List Token}
    (h : extending least left ts = .ok (e, rest)) (c : Condition) :
    extending least c rest = .ok (c, rest) := by
  induction hn : ts.length using Nat.strongRecOn generalizing left ts with
  | ind n ih =>
    by_cases hgo : ∃ t us op, ts = t :: us ∧ Connective.ofToken? t = some op ∧ least ≤ op.power
    · obtain ⟨t, us, op, rfl, hop, hle⟩ := hgo
      rw [extending_cons_of_le hop hle] at h
      obtain ⟨right, r, hright, hrest⟩ := Outcome.of_andThen_eq_ok h
      exact ih r.length (hn ▸ Nat.lt_succ_of_lt (length_reading_lt hright)) hrest rfl
    · have hstop : ∀ t ∈ ts.head?, ∀ op, Connective.ofToken? t = some op → op.power < least := by
        intro t ht op hop
        obtain ⟨us, rfl⟩ := List.head?_eq_some_iff.1 ht
        exact Nat.lt_of_not_le fun hle => hgo ⟨t, us, op, rfl, hop, hle⟩
      rw [extending_of_lt hstop] at h
      obtain ⟨-, rfl⟩ := Prod.mk.inj (Except.ok.inj h)
      exact extending_of_lt hstop c

/-- Nothing is left to go on with behind a condition that was read. -/
theorem settled_of_reading {least : Nat} {e : Condition} {ts rest : List Token}
    (h : reading least ts = .ok (e, rest)) (c : Condition) :
    extending least c rest = .ok (c, rest) := by
  cases ts with
  | nil =>
    rw [reading_nil] at h
    cases h
  | cons t ts =>
    rw [reading_cons] at h
    obtain ⟨left, r, -, hrest⟩ := Outcome.of_andThen_eq_ok h
    exact settled_of_extending hrest c

open Grammar

/-- **Going on with the operators of a power is going on with the tighter ones, and then by
level.** -/
theorem extending_eq_further {level : Level} {ts : List Token}
    (hpart : ∀ us : List Token, us.length < ts.length →
      plain (part level us) = reading (level.power + 1) us) (left : Condition) :
    extending level.power left ts
      = (extending (level.power + 1) left ts).andThen fun e rest =>
        plain (further level e rest) := by
  induction hn : ts.length using Nat.strongRecOn generalizing left ts with
  | ind n ih =>
    cases ts with
    | nil => rw [extending_nil, extending_nil, Outcome.andThen_ok, plain_further_nil]
    | cons t rest =>
      cases hop : Connective.ofToken? t with
      | none =>
        rw [extending_cons, extending_cons, hop, Outcome.andThen_ok, plain_further_cons,
          Level.operator?_eq, hop]
        rfl
      | some op =>
        -- the right operand was read, and fewer tokens are left
        have hright {least : Nat} {right : Condition} {r : List Token}
            (h : reading least rest = .ok (right, r)) :
            extending level.power (op.join left right) r
              = (extending (level.power + 1) (op.join left right) r).andThen fun e rest =>
                  plain (further level e rest) := by
          have hlt : r.length < (t :: rest).length := Nat.lt_succ_of_lt (length_reading_lt h)
          exact ih r.length (hn ▸ hlt) (fun us hus => hpart us (Nat.lt_trans hus hlt)) _ rfl
        rcases Nat.lt_trichotomy op.power level.power with hlt | heq | hgt
        · -- neither goes on with a looser operator
          have hoperator : level.operator? t = none := by
            rw [Level.operator?_eq, hop]
            simp [Nat.ne_of_lt hlt]
          rw [extending_cons_of_lt hop hlt, extending_cons_of_lt hop (Nat.lt_succ_of_lt hlt),
            Outcome.andThen_ok, plain_further_cons, hoperator]
        · -- no tighter operator is left behind the right operand of one of the level
          have hoperator : level.operator? t = some op := by
            rw [Level.operator?_eq, hop]
            simp [heq]
          rw [extending_cons_of_le hop (Nat.le_of_eq heq.symm),
            extending_cons_of_lt hop (Nat.lt_succ_of_le (Nat.le_of_eq heq)), Outcome.andThen_ok,
            plain_further_cons, hoperator, heq]
          dsimp only
          rw [hpart rest (Nat.lt_succ_self _)]
          refine Outcome.andThen_congr fun right r h => ?_
          rw [hright h, settled_of_reading h, Outcome.andThen_ok]
        · -- both go on with a tighter one
          rw [extending_cons_of_le hop (Nat.le_of_lt hgt), extending_cons_of_le hop hgt,
            Outcome.andThen_assoc]
          exact Outcome.andThen_congr fun right r h => hright h

/-- **Reading with the operators of a power is reading with the tighter ones, and then by
level.** -/
theorem reading_eq_further {level : Level} {ts : List Token}
    (hpart : ∀ us : List Token, us.length < ts.length →
      plain (part level us) = reading (level.power + 1) us) :
    reading level.power ts
      = (reading (level.power + 1) ts).andThen fun e rest => plain (further level e rest) := by
  cases ts with
  | nil =>
    rw [reading_nil, reading_nil]
    rfl
  | cons t ts =>
    rw [reading_cons, reading_cons, Outcome.andThen_assoc]
    refine Outcome.andThen_congr fun left rest h => extending_eq_further (fun us hus => ?_) left
    exact hpart us (Nat.lt_trans hus (Nat.lt_succ_of_le (length_operandOf_le h)))

/-! ## The two readers agree -/

/-- Powers that the same operators reach go on alike. -/
theorem extending_congr {least least' : Nat}
    (h : ∀ op : Connective, least ≤ op.power ↔ least' ≤ op.power) (left : Condition)
    (ts : List Token) : extending least left ts = extending least' left ts := by
  induction hn : ts.length using Nat.strongRecOn generalizing left ts with
  | ind n ih =>
    cases ts with
    | nil => rw [extending_nil, extending_nil]
    | cons t ts =>
      rw [extending_cons, extending_cons]
      cases Connective.ofToken? t with
      | none => rfl
      | some op =>
        dsimp only
        rw [Outcome.andThen_congr fun right r hright =>
          ih r.length (hn ▸ Nat.lt_succ_of_lt (length_reading_lt hright)) (op.join left right) r
            rfl]
        exact ite_congr (propext (h op)) (fun _ => rfl) fun _ => rfl

theorem reading_congr {least least' : Nat}
    (h : ∀ op : Connective, least ≤ op.power ↔ least' ≤ op.power) (ts : List Token) :
    reading least ts = reading least' ts := by
  cases ts with
  | nil => rw [reading_nil, reading_nil]
  | cons t ts =>
    rw [reading_cons, reading_cons]
    exact Outcome.andThen_congr fun left rest _ => extending_congr h left rest

theorem reading_operandPower (t : Token) (ts : List Token) :
    reading Connective.operandPower (t :: ts) = operandOf t ts := by
  rw [reading_cons]
  cases operandOf t ts with
  | error e => rfl
  | ok x => exact extending_operandPower x.1 x.2

/-- Where operands are read alike, so are the chains of every level. -/
theorem plain_chain_eq_reading {n : Nat}
    (hunary : ∀ us : List Token, us.length < n →
      plain (unary us) = reading Connective.operandPower us)
    (level : Level) : ∀ us : List Token, us.length < n →
      plain (chain level us) = reading level.power us := by
  have hchain (level : Level) (hpart : ∀ us : List Token, us.length < n →
      plain (part level us) = reading (level.power + 1) us) (us : List Token)
      (hus : us.length < n) :
      plain (chain level us) = reading level.power us := by
    rw [plain_chain, hpart us hus, reading_eq_further fun vs hvs => hpart vs (Nat.lt_trans hvs hus)]
  have hcomparison := hchain .comparison fun us hus => by
    -- no operator binds more tightly than a comparison
    have hnone (op : Connective) :
        Connective.operandPower ≤ op.power ↔ Level.comparison.power + 1 ≤ op.power := by
      have := (power_mem op).2
      simp only [Level.power, Connective.operandPower] at *
      omega
    rw [part, hunary us hus, reading_congr hnone]
  have hconjunction := hchain .conjunction fun us hus => by
    rw [part]
    exact hcomparison us hus
  cases level with
  | comparison => exact hcomparison
  | conjunction => exact hconjunction
  | disjunction =>
    refine hchain .disjunction fun us hus => ?_
    rw [part]
    exact hconjunction us hus

/-- A whole condition is a disjunction. -/
theorem reading_zero (ts : List Token) : reading 0 ts = reading Level.disjunction.power ts :=
  reading_congr (fun op => iff_of_true (Nat.zero_le _) (power_mem op).1) ts

/-- **Operands and arguments are read alike**, by induction on a bound of the number of tokens. -/
theorem plain_unary_eq_reading (n : Nat) : ∀ ts : List Token, ts.length < n →
    plain (unary ts) = reading Connective.operandPower ts
    ∧ plain (Grammar.arguments ts) = callArguments ts
    ∧ plain (someArguments ts) = argumentList ts := by
  induction n with
  | zero => exact fun ts hts => absurd hts (Nat.not_lt_zero _)
  | succ n ih =>
    have hunary (ts : List Token) (hts : ts.length < n + 1) :
        plain (unary ts) = reading Connective.operandPower ts := by
      cases ts with
      | nil => rw [plain_unary_nil, reading_nil]
      | cons t rest =>
        have hrest : rest.length < n := Nat.lt_of_succ_lt_succ hts
        have hchain := plain_chain_eq_reading (fun us hus => (ih us hus).1) .disjunction rest hrest
        rw [plain_unary_cons, reading_operandPower, operandOf_eq, (ih rest hrest).1, hchain,
          ← reading_zero]
        cases rest with
        | nil => rfl
        | cons u rest =>
          dsimp only
          rewrite [(ih rest (Nat.lt_of_succ_lt hrest)).2.1]
          rfl
    have hsome (ts : List Token) (hts : ts.length < n + 1) :
        plain (someArguments ts) = argumentList ts := by
      rw [plain_someArguments, argumentList_eq, plain_chain_eq_reading hunary .disjunction ts hts,
        ← reading_zero]
      refine Outcome.andThen_congr fun e rest h => ?_
      cases rest with
      | nil => rfl
      | cons t rest =>
        have hlt : rest.length < n := by
          have := length_reading_lt h
          rw [List.length_cons] at this
          omega
        rw [furtherArguments, moreArguments, (ih rest hlt).2.2]
    refine fun ts hts => ⟨hunary ts hts, ?_, hsome ts hts⟩
    cases ts with
    | nil => rw [plain_arguments_nil, callArguments_nil, hsome [] hts]
    | cons t rest => rw [plain_arguments_cons, callArguments_cons, hsome (t :: rest) hts]

/-- **Reading by powers is reading by levels.** -/
theorem parse_eq_grammar (ts : List Token) : parse ts = Grammar.parse ts := by
  have hunary (us : List Token) (hus : us.length < ts.length + 1) :=
    (plain_unary_eq_reading _ us hus).1
  calc parse ts = reading 0 ts := rfl
    _ = reading Level.disjunction.power ts := reading_zero ts
    _ = plain (chain .disjunction ts) :=
        (plain_chain_eq_reading hunary .disjunction ts (Nat.lt_succ_self _)).symm

end IncludeScan.Condition
