import IncludeScan.Proofs.Condition.Format
import IncludeScan.Proofs.Outline.Printed

/-!
# Proofs/Condition/Regroup — what the text of a condition means

The text of a condition has no parentheses around the operands of its operators, so a looser
operator under a tighter one comes apart when the text is read again.  `regroup` is the condition
that is read: it has the same text (`pieces_regroup`) and needs no parentheses (`grouped_regroup`).

`eval_regroup` — regrouping keeps the value of a condition whose operators lie in layers: no operand
binds more loosely than its operator, and the right operand of a comparison binds more tightly.
`reread_format` — so does printing a condition that was read and reading its text again, and without
the layers reading it again still succeeds.  `reread_format_or_in_and` shows the value lost.
-/

namespace IncludeScan.Condition

open Piece

/-! ## Induction over conditions -/

/-- **Induction over conditions**, with one case for all operators. -/
@[elab_as_elim]
theorem join_induction {P : Condition → Prop} (defined : ∀ name, P (.defined name))
    (not : ∀ operand, P operand → P (.not operand))
    (join : ∀ (op : Connective) left right, P left → P right → P (op.join left right))
    (apply : ∀ name args, (∀ c ∈ args, P c) → P (.apply name args))
    (ident : ∀ name, P (.ident name))
    (constant : ∀ value, P (.constant value)) : ∀ c, P c
  | .defined name => defined name
  | .not operand => not operand (join_induction defined not join apply ident constant operand)
  | .or left right =>
    join .or left right (join_induction defined not join apply ident constant left)
      (join_induction defined not join apply ident constant right)
  | .and left right =>
    join .and left right (join_induction defined not join apply ident constant left)
      (join_induction defined not join apply ident constant right)
  | .compare left op right =>
    join (.compare op) left right (join_induction defined not join apply ident constant left)
      (join_induction defined not join apply ident constant right)
  | .apply name args =>
    apply name args fun c _ => join_induction defined not join apply ident constant c
  | .ident name => ident name
  | .constant value => constant value

/-- **Induction along the operators of a condition**, down to its operands. -/
@[elab_as_elim]
theorem operand_induction {P : Condition → Prop}
    (join : ∀ (op : Connective) left right, P left → P right → P (op.join left right))
    (operand : ∀ c : Condition, c.power = Connective.operandPower → P c) (c : Condition) : P c := by
  induction c using join_induction with
  | join op left right hleft hright => exact join op left right hleft hright
  | _ => exact operand _ rfl

theorem one_le_power (c : Condition) : 1 ≤ c.power := by
  cases c <;> simp [power, Connective.power, Connective.operandPower]

/-! ## Operators moved to where they are read -/

/-- A condition with an operator and an operand behind it: the operator takes as much of the
condition as binds at least as tightly. -/
def graft (op : Connective) (operand : Condition) : Condition → Condition
  | .or left right =>
    if Connective.or.power < op.power then .or left (graft op operand right)
    else op.join (.or left right) operand
  | .and left right =>
    if Connective.and.power < op.power then .and left (graft op operand right)
    else op.join (.and left right) operand
  | c => op.join c operand

/-- A condition with an operator and another condition behind it, operand by operand. -/
def append (op : Connective) (tree : Condition) : Condition → Condition
  | .or left right => append .or (append op tree left) right
  | .and left right => append .and (append op tree left) right
  | .compare left comparison right => append (.compare comparison) (append op tree left) right
  | c => graft op c tree

mutual

/-- **The condition that the text of a condition is.** -/
def regroup : Condition → Condition
  | .not operand => .not (regroup operand)
  | .or left right => append .or (regroup left) (regroup right)
  | .and left right => append .and (regroup left) (regroup right)
  | .compare left comparison right => append (.compare comparison) (regroup left) (regroup right)
  | .apply name args => .apply name (regroupAll args)
  | c => c

/-- Each of the conditions regrouped. -/
def regroupAll : List Condition → List Condition
  | [] => []
  | c :: cs => regroup c :: regroupAll cs

end

theorem regroupAll_eq_map (cs : List Condition) : regroupAll cs = cs.map regroup := by
  induction cs with
  | nil => rfl
  | cons c cs ih => rw [regroupAll, ih, List.map_cons]

theorem graft_join (op op' : Connective) (operand left right : Condition) :
    graft op operand (op'.join left right)
      = if op'.power < op.power then op'.join left (graft op operand right)
        else op.join (op'.join left right) operand := by
  cases op' with
  | or | and => rfl
  | compare comparison =>
    have hle : op.power ≤ (Connective.compare comparison).power := by
      cases op <;> simp [Connective.power]
    exact (if_neg (Nat.not_lt.2 hle)).symm

theorem graft_of_le {op : Connective} {c : Condition} (h : op.power ≤ c.power)
    (operand : Condition) :
    graft op operand c = op.join c operand := by
  cases c using operand_induction with
  | join op' left right =>
    rw [power_join] at h
    rw [graft_join, if_neg (Nat.not_lt.2 h)]
  | operand c hc =>
    cases c with
    | or | and => cases hc
    | _ => rfl

theorem append_join (op op' : Connective) (tree left right : Condition) :
    append op tree (op'.join left right) = append op' (append op tree left) right := by
  cases op' <;> rfl

theorem append_operand {c : Condition} (hc : c.power = Connective.operandPower) (op : Connective)
    (tree : Condition) : append op tree c = graft op c tree := by
  cases c with
  | or | and | compare => cases hc
  | _ => rfl

theorem regroup_join (op : Connective) (left right : Condition) :
    regroup (op.join left right) = append op (regroup left) (regroup right) := by
  cases op <;> rw [Connective.join, regroup]

/-! ## The same text, grouped -/

theorem pieces_graft (connective : Connective) (operand c : Condition) :
    pieces (graft connective operand c) = pieces (connective.join c operand) := by
  induction c using operand_induction with
  | join op' left right _ ih =>
    rw [graft_join]
    split
    · simp only [pieces_join, ih, List.append_assoc, List.cons_append]
    · rfl
  | operand c hc => rw [graft_of_le (hc ▸ (power_lt_operandPower connective).le)]

theorem pieces_append (connective : Connective) (tree c : Condition) :
    pieces (append connective tree c) = pieces (connective.join tree c) := by
  induction c using operand_induction generalizing connective tree with
  | join op' left right ihleft ihright =>
    rw [append_join, ihright, pieces_join, ihleft]
    simp only [pieces_join, List.append_assoc, List.cons_append]
  | operand c hc => rw [append_operand hc, pieces_graft]

theorem piecesAll_eq_map (cs : List Condition) : piecesAll cs = cs.map pieces := by
  induction cs with
  | nil => rfl
  | cons c cs ih => rw [piecesAll, ih, List.map_cons]

/-- **Regrouping keeps the text.** -/
theorem pieces_regroup (c : Condition) : pieces (regroup c) = pieces c := by
  induction c using join_induction with
  | not operand ih => rw [regroup, pieces, pieces, ih]
  | join op left right ihleft ihright =>
    rw [regroup_join, pieces_append, pieces_join, pieces_join, ihleft, ihright]
  | apply name args ih =>
    have hargs : piecesAll (regroupAll args) = piecesAll args := by
      rw [piecesAll_eq_map, piecesAll_eq_map, regroupAll_eq_map, List.map_map]
      exact List.map_congr_left ih
    rw [regroup, pieces, pieces, hargs]
  | _ => rw [regroup] <;> simp

theorem power_graft (op : Connective) (operand c : Condition) :
    (graft op operand c).power = min c.power op.power := by
  cases c using operand_induction with
  | join op' left right =>
    rw [graft_join]
    split
    · rename_i hlt
      rw [power_join, power_join, min_eq_left hlt.le]
    · rename_i hle
      rw [power_join, power_join, min_eq_right (not_lt.1 hle)]
  | operand c hc =>
    have hlt := power_lt_operandPower op
    rw [graft_of_le (hc ▸ hlt.le), power_join, hc, min_eq_right hlt.le]

theorem Grouped.graft {op : Connective} {operand c : Condition} (hc : c.Grouped)
    (hoperand : operand.Grouped) (hpower : operand.power = Connective.operandPower) :
    (graft op operand c).Grouped := by
  induction c using operand_induction with
  | join op' left right _ ih =>
    have hlt := power_lt_operandPower op
    rw [graft_join]
    split
    · rename_i hlt'
      obtain ⟨hleft, hright, hle, hgt⟩ := (grouped_join ..).1 hc
      refine (grouped_join ..).2 ⟨hleft, ih hright, hle, ?_⟩
      rw [power_graft]
      exact lt_min hgt hlt'
    · rename_i hle
      refine (grouped_join ..).2 ⟨hc, hoperand, ?_, by rw [hpower]; exact hlt⟩
      rw [power_join]
      exact not_lt.1 hle
  | operand c hpower' =>
    have hlt := power_lt_operandPower op
    rw [graft_of_le (hpower' ▸ hlt.le)]
    exact (grouped_join ..).2
      ⟨hc, hoperand, by rw [hpower']; exact hlt.le, by rw [hpower]; exact hlt⟩

theorem Grouped.append {op : Connective} {tree c : Condition} (htree : tree.Grouped)
    (hc : c.Grouped) : (append op tree c).Grouped := by
  induction c using operand_induction generalizing op tree with
  | join op' left right ihleft ihright =>
    obtain ⟨hleft, hright, -, -⟩ := (grouped_join ..).1 hc
    rw [append_join]
    exact ihright (ihleft htree hleft) hright
  | operand c hpower =>
    rw [append_operand hpower]
    exact htree.graft hc hpower

/-- **What is regrouped needs no parentheses.** -/
theorem grouped_regroup (c : Condition) : (regroup c).Grouped := by
  induction c using join_induction with
  | not operand ih => rwa [regroup, Grouped]
  | join op left right ihleft ihright =>
    rw [regroup_join]
    exact ihleft.append ihright
  | apply name args ih =>
    rw [regroup, Grouped, groupedAll_iff, regroupAll_eq_map]
    exact List.forall_mem_map.2 ih
  | _ => rw [regroup, Grouped] <;> simp

theorem WellNamed.graft {op : Connective} {operand c : Condition} (hc : c.WellNamed)
    (hoperand : operand.WellNamed) : (graft op operand c).WellNamed := by
  induction hc with
  | join op' hleft hright _ ih =>
    rw [graft_join]
    split
    · exact .join op' hleft ih
    · exact .join op (.join op' hleft hright) hoperand
  | not h => exact .join op (.not h) hoperand
  | apply hname hdefined hargs => exact .join op (.apply hname hdefined hargs) hoperand
  | defined hname => exact .join op (.defined hname) hoperand
  | ident hname hdefined => exact .join op (.ident hname hdefined) hoperand
  | constant hnonneg hlimit => exact .join op (.constant hnonneg hlimit) hoperand

theorem WellNamed.append {op : Connective} {tree c : Condition} (htree : tree.WellNamed)
    (hc : c.WellNamed) : (append op tree c).WellNamed := by
  induction hc generalizing op tree with
  | join op' hleft hright ihleft ihright =>
    rw [append_join]
    exact ihright (ihleft htree)
  | not h => exact htree.graft (.not h)
  | apply hname hdefined hargs => exact htree.graft (.apply hname hdefined hargs)
  | defined hname => exact htree.graft (.defined hname)
  | ident hname hdefined => exact htree.graft (.ident hname hdefined)
  | constant hnonneg hlimit => exact htree.graft (.constant hnonneg hlimit)

theorem WellNamed.regroup {c : Condition} (h : c.WellNamed) : c.regroup.WellNamed := by
  induction h with
  | not _ ih => exact .not ih
  | join op _ _ ihleft ihright =>
    rw [regroup_join]
    exact ihleft.append ihright
  | apply hname hdefined _ ih =>
    rw [Condition.regroup, regroupAll_eq_map]
    exact .apply hname hdefined (List.forall_mem_map.2 ih)
  | defined hname => exact .defined hname
  | ident hname hdefined => exact .ident hname hdefined
  | constant hnonneg hlimit => exact .constant hnonneg hlimit

/-! ## The same value -/

/-- **The operators lie in layers**: no operand binds more loosely than its operator, and the right
operand of a comparison binds more tightly.  The arguments of a call have no value and need no
layers. -/
def Layered : Condition → Prop
  | .not operand => Layered operand
  | .or left right => Layered left ∧ Layered right
  | .and left right =>
    Layered left ∧ Layered right ∧ Connective.and.power ≤ left.power
      ∧ Connective.and.power ≤ right.power
  | .compare left op right =>
    Layered left ∧ Layered right ∧ (Connective.compare op).power ≤ left.power
      ∧ (Connective.compare op).power < right.power
  | _ => True

/-- Between disjunctions, or between conjunctions, parentheses may be moved. -/
theorem eval_join_assoc {op : Connective} (hop : op.power ≤ Connective.and.power)
    (env : Environment) (a b c : Condition) :
    (op.join (op.join a b) c).eval env = (op.join a (op.join b c)).eval env := by
  cases op with
  | or | and =>
    simp only [Connective.join, eval]
    cases a.eval env != 0 <;> cases b.eval env != 0 <;> cases c.eval env != 0 <;> rfl
  | compare comparison => exact absurd hop (by simp [Connective.power])

/-- Comparisons alone share their power. -/
theorem eq_of_power_eq {op op' : Connective} (hop : op.power ≤ Connective.and.power)
    (heq : op.power = op'.power) : op' = op := by
  cases op <;> cases op' <;> simp_all [Connective.power]

theorem eval_join_congr {env : Environment} {left left' right right' : Condition} (op : Connective)
    (hleft : left.eval env = left'.eval env) (hright : right.eval env = right'.eval env) :
    (op.join left right).eval env = (op.join left' right').eval env := by
  cases op <;> simp only [Connective.join, eval, hleft, hright]

theorem Layered.of_join {op : Connective} {left right : Condition}
    (h : (op.join left right).Layered) :
    left.Layered ∧ right.Layered ∧ op.power ≤ left.power
      ∧ (op.power < right.power ∨ op.power = right.power ∧ op.power ≤ Connective.and.power) := by
  cases op with
  | or =>
    refine ⟨h.1, h.2, ?_, ?_⟩
    · exact one_le_power left
    · exact (one_le_power right).lt_or_eq.imp_right fun heq => ⟨heq, by decide⟩
  | and =>
    obtain ⟨hleft, hright, hle, hle'⟩ := h
    exact ⟨hleft, hright, hle, hle'.lt_or_eq.imp_right fun heq => ⟨heq, le_rfl⟩⟩
  | compare comparison =>
    obtain ⟨hleft, hright, hle, hlt⟩ := h
    exact ⟨hleft, hright, hle, .inl hlt⟩

theorem power_append (op : Connective) (tree : Condition) {c : Condition} (hc : c.Grouped) :
    (append op tree c).power = min (min tree.power op.power) c.power := by
  induction c using operand_induction generalizing op tree with
  | join op' left right ihleft ihright =>
    obtain ⟨hleft, hright, hle, hlt⟩ := (grouped_join ..).1 hc
    rw [append_join, ihright _ _ hright, ihleft _ _ hleft, power_join]
    omega
  | operand c hpower =>
    have hlt := power_lt_operandPower op
    rw [append_operand hpower, power_graft, hpower]
    omega

/-- A looser operator in front keeps its left operand. -/
theorem append_join_left {op op' : Connective} {tree left right : Condition}
    (hlt : op.power < op'.power) (hright : right.Grouped) (hlt' : op.power < right.power) :
    append op' (op.join tree left) right = op.join tree (append op' left right) := by
  induction right using operand_induction generalizing op' left with
  | join op'' right₁ right₂ ih₁ ih₂ =>
    obtain ⟨h₁, h₂, hle, hgt⟩ := (grouped_join ..).1 hright
    rw [power_join] at hlt'
    rw [append_join, append_join, ih₁ hlt h₁ (hlt'.trans_le hle), ih₂ hlt' h₂ (hlt'.trans hgt)]
  | operand c hpower => rw [append_operand hpower, append_operand hpower, graft_join, if_pos hlt]

/-- A tighter condition behind an operator is its right operand. -/
theorem append_of_lt {op : Connective} {tree c : Condition} (htree : op.power ≤ tree.power)
    (hc : c.Grouped) (hlt : op.power < c.power) : append op tree c = op.join tree c := by
  induction c using operand_induction generalizing op tree with
  | join op' left right ihleft ihright =>
    obtain ⟨hleft, hright, hle, hgt⟩ := (grouped_join ..).1 hc
    rw [power_join] at hlt
    calc append op tree (op'.join left right)
        = append op' (append op tree left) right := append_join ..
      _ = append op' (op.join tree left) right := by rw [ihleft htree hleft (hlt.trans_le hle)]
      _ = op.join tree (append op' left right) := append_join_left hlt hright (hlt.trans hgt)
      _ = op.join tree (op'.join left right) := by rw [ihright hle hright hgt]
  | operand c hpower => rw [append_operand hpower, graft_of_le htree]

/-- One of the same layer is taken apart, and the value is the same. -/
theorem eval_append_of_eq {op : Connective} (hop : op.power ≤ Connective.and.power)
    {tree c : Condition} (htree : op.power ≤ tree.power) (hc : c.Grouped) (heq : op.power = c.power)
    (env : Environment) : (append op tree c).eval env = (op.join tree c).eval env := by
  induction c using operand_induction generalizing tree with
  | join op' left right ihleft _ =>
    -- the condition leans to the left, so only its left operand may be of the same layer
    obtain ⟨hleft, hright, hle, hgt⟩ := (grouped_join ..).1 hc
    obtain rfl : op' = op := eq_of_power_eq hop (heq.trans (power_join ..))
    have heval : (append op' tree left).eval env = (op'.join tree left).eval env := by
      rcases hle.lt_or_eq with hlt | heq
      · rw [append_of_lt htree hleft hlt]
      · exact ihleft htree hleft heq
    have htree' : op'.power ≤ (append op' tree left).power := by
      rw [power_append _ _ hleft]
      exact le_min (le_min htree le_rfl) hle
    calc (append op' tree (op'.join left right)).eval env
        = (op'.join (append op' tree left) right).eval env := by
          rw [append_join, append_of_lt htree' hright hgt]
      _ = (op'.join (op'.join tree left) right).eval env := eval_join_congr op' heval rfl
      _ = (op'.join tree (op'.join left right)).eval env := eval_join_assoc hop env tree left right
  | operand c hpower => exact absurd (heq.trans hpower) (power_lt_operandPower op).ne

theorem power_regroup {c : Condition} (h : c.Layered) : c.regroup.power = c.power := by
  induction c using join_induction with
  | join op left right ihleft ihright =>
    obtain ⟨hleft, hright, hle, hpower⟩ := h.of_join
    rw [regroup_join, power_append _ _ (grouped_regroup right), ihleft hleft, ihright hright,
      power_join]
    omega
  | _ => rfl

/-- **Regrouping keeps the value of a condition in layers.** -/
theorem eval_regroup {c : Condition} (h : c.Layered) (env : Environment) :
    c.regroup.eval env = c.eval env := by
  induction c using join_induction with
  | not operand ih => rw [regroup, eval, eval, ih h]
  | join op left right ihleft ihright =>
    obtain ⟨hleft, hright, hle, hpower⟩ := h.of_join
    rw [← power_regroup hleft] at hle
    rw [← power_regroup hright] at hpower
    have happend : (append op left.regroup right.regroup).eval env
        = (op.join left.regroup right.regroup).eval env := by
      rcases hpower with hlt | ⟨heq, hop⟩
      · rw [append_of_lt hle (grouped_regroup right) hlt]
      · exact eval_append_of_eq hop hle (grouped_regroup right) heq env
    rw [regroup_join, happend]
    exact eval_join_congr op (ihleft hleft) (ihright hright)
  | _ => rfl

/-! ## What is read can be written -/

section

variable {α β : Type} {P : α → Prop} {Q : β → Prop}

/-- A literal is refused only where the token is a numeral without a value. -/
def RefusesRightly : ConditionError → Prop
  | .badLiteral t => t.kind = .number ∧ Numeral.literal? t.value = none
  | _ => True

/-- What is read has a property, and no literal is refused without a reason. -/
def Outcome.Ensures (P : α → Prop) : Outcome α → Prop
  | .ok (a, _) => P a
  | .error e => RefusesRightly e

theorem Outcome.ensures_ok {a : α} (h : P a) (rest : List Token) :
    Outcome.Ensures P (.ok (a, rest)) := h

theorem Outcome.ensures_error {e : ConditionError} (h : RefusesRightly e) :
    Outcome.Ensures P (.error e : Outcome α) := h

theorem Outcome.Ensures.andThen {x : Outcome α} (hx : x.Ensures P) {f : α → List Token → Outcome β}
    (hf : ∀ a rest, x = .ok (a, rest) → P a → (f a rest).Ensures Q) : (x.andThen f).Ensures Q := by
  cases x with
  | error e => exact ensures_error hx
  | ok y => exact hf y.1 y.2 rfl hx

theorem ensures_closed {a : α} (h : P a) (ts : List Token) :
    (closed a ts).Ensures P := by
  cases ts with
  | nil => exact Outcome.ensures_error trivial
  | cons t ts =>
    rw [closed]
    split
    · exact Outcome.ensures_ok h ts
    · exact Outcome.ensures_error trivial

end

theorem ensures_named (ts : List Token) :
    (named ts).Ensures fun name => isIdentifier name = true := by
  cases ts with
  | nil => exact Outcome.ensures_error trivial
  | cons t ts =>
    rw [named]
    split
    · rename_i h
      refine Outcome.ensures_ok ?_ ts
      exact (Bool.and_eq_true_iff.1 h).2
    · exact Outcome.ensures_error trivial

theorem ensures_definedOf (ts : List Token) : (definedOf ts).Ensures WellNamed := by
  cases ts with
  | nil => exact Outcome.ensures_error trivial
  | cons t ts =>
    rw [definedOf]
    split
    · exact (ensures_named ts).andThen fun name rest _ hname => ensures_closed (.defined hname) rest
    · exact (ensures_named (t :: ts)).andThen fun name rest _ hname =>
        Outcome.ensures_ok (.defined hname) rest

theorem le_limit_of_literal? {text : String} {n : Nat} (h : Numeral.literal? text = some n) :
    n ≤ Numeral.limit := by
  obtain ⟨m, -, hm⟩ := Option.bind_eq_some_iff.1 h
  obtain ⟨hle, hvalue⟩ := Option.ite_none_right_eq_some.1 hm
  exact Option.some.inj hvalue ▸ hle

/-- **Readers give conditions with proper names**, and refuse no literal. -/
theorem ensures_readers : ∀ ts : List Token,
    (∀ least, (reading least ts).Ensures WellNamed)
    ∧ (∀ least left, WellNamed left → (extending least left ts).Ensures WellNamed)
    ∧ (∀ t, (operandOf t ts).Ensures WellNamed)
    ∧ (callArguments ts).Ensures (fun args => ∀ c ∈ args, WellNamed c)
    ∧ (argumentList ts).Ensures (fun args => ∀ c ∈ args, WellNamed c) := by
  refine readers_induction ?reading ?extending ?operandOf ?argumentList ?callArguments
  case reading =>
    intro ts ih least
    cases ts with
    | nil => exact reading_nil least ▸ Outcome.ensures_error trivial
    | cons t ts =>
      rw [reading_cons]
      refine ((ih ts (Nat.lt_succ_self _)).2 t).andThen fun left rest h hleft => ?_
      exact (ih rest (Nat.lt_succ_of_le (length_operandOf_le h))).1 least left hleft
  case extending =>
    intro ts ih least left hleft
    cases ts with
    | nil => exact extending_nil least left ▸ Outcome.ensures_ok hleft _
    | cons t ts =>
      rw [extending_cons]
      split
      · exact Outcome.ensures_ok hleft _
      · rename_i op _
        split
        · refine ((ih ts (Nat.lt_succ_self _)).1 _).andThen fun right rest h hright => ?_
          exact (ih rest (Nat.lt_succ_of_lt (length_reading_lt h))).2 least _
            (.join op hleft hright)
        · exact Outcome.ensures_ok hleft _
  case operandOf =>
    intro ts hreading ih t
    rw [operandOf_eq]
    split
    · exact (hreading _).andThen fun e rest _ he => Outcome.ensures_ok (.not he) rest
    · split
      · exact (hreading 0).andThen fun e rest _ he => ensures_closed he rest
      · split
        · rename_i hkind
          split
          · rename_i n hn
            exact Outcome.ensures_ok (.constant (Int.natCast_nonneg n)
              (Int.ofNat_le.2 (le_limit_of_literal? hn))) ts
          · rename_i hnone
            exact Outcome.ensures_error ⟨hkind, hnone⟩
        · split
          · exact Outcome.ensures_error trivial
          · rename_i hidentifier
            have hname : isIdentifier t.value = true := by
              rw [Bool.not_eq_true, Bool.not_eq_false'] at hidentifier
              exact (Bool.and_eq_true_iff.1 hidentifier).2
            split
            · exact ensures_definedOf ts
            · rename_i hdefined
              cases ts with
              | nil => exact Outcome.ensures_ok (.ident hname hdefined) []
              | cons u ts =>
                dsimp only
                split
                · exact (ih ts (Nat.lt_succ_self _)).andThen fun args rest _ hargs =>
                    Outcome.ensures_ok (.apply hname hdefined hargs) rest
                · exact Outcome.ensures_ok (.ident hname hdefined) _
  case argumentList =>
    intro ts hreading ih
    rw [argumentList_eq]
    refine (hreading 0).andThen fun e rest h he => ?_
    cases rest with
    | nil => exact Outcome.ensures_error trivial
    | cons t rest =>
      rw [moreArguments]
      split
      · exact Outcome.ensures_ok (by simpa using he) rest
      · split
        · refine (ih rest ?_).andThen fun es r _ hes => Outcome.ensures_ok ?_ r
          · exact Nat.lt_trans (Nat.lt_succ_self _) (length_reading_lt h)
          · exact List.forall_mem_cons.2 ⟨he, hes⟩
        · exact Outcome.ensures_error trivial
  case callArguments =>
    intro ts hlist
    cases ts with
    | nil => exact callArguments_nil ▸ hlist
    | cons t ts =>
      rw [callArguments_cons]
      split
      · exact Outcome.ensures_ok (by simp) ts
      · exact hlist

theorem ensures_parse (ts : List Token) : Outcome.Ensures WellNamed (parse ts) :=
  (ensures_readers ts).1 0

theorem wellNamed_of_parse {ts rest : List Token} {c : Condition} (h : parse ts = .ok (c, rest)) :
    c.WellNamed := by
  have hread := ensures_parse ts
  rwa [h] at hread

/-! ## Printed and read again -/

/-- **The text of a condition is read as the condition regrouped**, to its end. -/
theorem parse_format {c : Condition} (h : c.WellNamed) :
    (∃ eof, (tokenize c.format).ending = .ok eof)
      ∧ parse ((tokenize c.format).tokens.filter fun t => !t.isTrivia) = .ok (c.regroup, []) := by
  obtain ⟨htokens, hending⟩ := tokenize_flat (laid_pieces h (by simp [Stops]))
  rw [flat_pieces, String.ofList_toList] at htokens hending
  have hbare : parse (bare (pieces c)) = .ok (c.regroup, []) := by
    rw [← pieces_regroup, parse_pieces h.regroup (grouped_regroup c)]
  refine ⟨hending, ?_⟩
  rw [htokens]
  exact parse_words hbare .start 0

/-- **The text of a condition that was read can be read again, to its end**, and what is read has
the same value wherever the operators lie in layers. -/
theorem reread_format {ts rest : List Token} {c : Condition} (h : parse ts = .ok (c, rest)) :
    (∃ eof, (tokenize c.format).ending = .ok eof)
      ∧ ∃ c', parse ((tokenize c.format).tokens.filter fun t => !t.isTrivia) = .ok (c', [])
        ∧ (c.Layered → ∀ env, c'.eval env = c.eval env) := by
  obtain ⟨hending, hread⟩ := parse_format (wellNamed_of_parse h)
  exact ⟨hending, c.regroup, hread, fun hlayered env => eval_regroup hlayered env⟩

/-- Parentheses around the right one of two conjunctions are not printed, and not missed. -/
theorem reread_format_nested_and :
    let c : Condition := .and (.ident "A") (.and (.ident "B") (.ident "C"))
    parse ((tokenize "A && (B && C)").tokens.filter fun t => !t.isTrivia) = .ok (c, [])
      ∧ c.Layered ∧ c.format = "A && B && C"
      ∧ ∃ c', parse ((tokenize c.format).tokens.filter fun t => !t.isTrivia) = .ok (c', [])
        ∧ ∀ env, c'.eval env = c.eval env := by
  intro c
  have hwords : (tokenize "A && (B && C)").tokens.filter (fun t => !t.isTrivia)
      = words .start 0 [word "A", blank, op ['&', '&'], blank, punct ['('], word "B", blank,
        op ['&', '&'], blank, word "C", punct [')']] := by
    rw [tokenize_eq_steps]
    decide +kernel
  have hread :
      parse ((tokenize "A && (B && C)").tokens.filter fun t => !t.isTrivia) = .ok (c, []) := by
    rw [hwords]
    cbv
  have hlayered : c.Layered := by
    simp [c, Layered, power, Connective.power, Connective.operandPower]
  obtain ⟨-, c', hread', heval⟩ := reread_format hread
  exact ⟨hread, hlayered, by decide, c', hread', heval hlayered⟩

/-- **A disjunction under a conjunction comes apart**: it is printed without its parentheses, and
what is read again holds where the condition does not. -/
theorem reread_format_or_in_and :
    ∃ c c' : Condition,
      parse ((tokenize "(A || B) && C").tokens.filter fun t => !t.isTrivia) = .ok (c, [])
        ∧ parse ((tokenize c.format).tokens.filter fun t => !t.isTrivia) = .ok (c', [])
        ∧ c.eval ⟨[("A", 1)]⟩ = 0 ∧ c'.eval ⟨[("A", 1)]⟩ = 1 := by
  have hwords : (tokenize "(A || B) && C").tokens.filter (fun t => !t.isTrivia)
      = words .start 0 [punct ['('], word "A", blank, op ['|', '|'], blank, word "B", punct [')'],
        blank, op ['&', '&'], blank, word "C"] := by
    rw [tokenize_eq_steps]
    decide +kernel
  have hread : parse ((tokenize "(A || B) && C").tokens.filter fun t => !t.isTrivia)
      = .ok (.and (.or (.ident "A") (.ident "B")) (.ident "C"), []) := by
    rw [hwords]
    cbv
  exact ⟨_, _, hread, (parse_format (wellNamed_of_parse hread)).2, by decide, by decide⟩

end IncludeScan.Condition
