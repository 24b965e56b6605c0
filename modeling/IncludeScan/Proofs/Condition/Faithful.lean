import IncludeScan.Proofs.Condition.Regroup

/-!
# Proofs/Condition/Faithful — which conditions are read back from their own text

The text of a condition is read as the condition regrouped (`parse_format`).  Regrouping moves
nothing in a condition that needs no parentheses (`regroup_eq_self`), and what it makes of any other
needs none; so the conditions that come back as they were are the grouped ones.  `Grouped` compares
how tightly operators bind.  Said with the operators themselves, it rules out nine pairs of an
operator and an operand (`grouped_iff_forall_inside`).

`reread_eq_iff` — the text is always read to its end, what is read has the same text again, and it
is the condition itself if and only if none of the nine pairs stands anywhere in it.
-/

namespace IncludeScan.Condition

/-! ## Operands that lose their parentheses -/

/-- The condition is a disjunction. -/
def isOr : Condition → Bool
  | .or _ _ => true
  | _ => false

/-- The condition is a conjunction. -/
def isAnd : Condition → Bool
  | .and _ _ => true
  | _ => false

/-- The condition is a comparison. -/
def isCompare : Condition → Bool
  | .compare _ _ _ => true
  | _ => false

/-- **The operands of the outermost operator need no parentheses.** -/
def KeepsOperands : Condition → Prop
  | .compare left _ right =>
    (left.isAnd = false ∧ left.isOr = false)
      ∧ right.isAnd = false ∧ right.isOr = false ∧ right.isCompare = false
  | .and left right => left.isOr = false ∧ right.isAnd = false ∧ right.isOr = false
  | .or _ right => right.isOr = false
  | _ => True

/-- The condition is another one, or stands somewhere in it. -/
inductive Inside (d : Condition) : Condition → Prop
  | self : Inside d d
  | not {operand : Condition} (h : Inside d operand) : Inside d (.not operand)
  | left (op : Connective) {left right : Condition} (h : Inside d left) :
      Inside d (op.join left right)
  | right (op : Connective) {left right : Condition} (h : Inside d right) :
      Inside d (op.join left right)
  | argument {name : String} {args : List Condition} {c : Condition} (hc : c ∈ args)
      (h : Inside d c) :
      Inside d (.apply name args)

/-! ## Said by powers -/

theorem isOr_eq_false_iff (c : Condition) : c.isOr = false ↔ Connective.or.power < c.power := by
  cases c <;> simp [isOr, power, Connective.power, Connective.operandPower]

theorem isAnd_isOr_eq_false_iff (c : Condition) :
    c.isAnd = false ∧ c.isOr = false ↔ Connective.and.power < c.power := by
  cases c <;> simp [isAnd, isOr, power, Connective.power, Connective.operandPower]

theorem isAnd_isOr_isCompare_eq_false_iff (c : Condition) (op : Comparison) :
    c.isAnd = false ∧ c.isOr = false ∧ c.isCompare = false
      ↔ (Connective.compare op).power < c.power := by
  cases c <;> simp [isAnd, isOr, isCompare, power, Connective.power, Connective.operandPower]

theorem keepsOperands_join (op : Connective) (left right : Condition) :
    (op.join left right).KeepsOperands ↔ op.power ≤ left.power ∧ op.power < right.power := by
  cases op with
  | or => exact (isOr_eq_false_iff right).trans (and_iff_right (one_le_power left)).symm
  | and => exact and_congr (isOr_eq_false_iff left) (isAnd_isOr_eq_false_iff right)
  | compare op =>
    exact and_congr (isAnd_isOr_eq_false_iff left) (isAnd_isOr_isCompare_eq_false_iff right op)

theorem Grouped.keepsOperands {c : Condition} (h : c.Grouped) : c.KeepsOperands := by
  cases c using operand_induction with
  | join op left right => exact (keepsOperands_join ..).2 ((grouped_join ..).1 h).2.2
  | operand c hc =>
    cases c with
    | or | and | compare => cases hc
    | _ => trivial

/-- What stands in a grouped condition is grouped. -/
theorem Grouped.of_inside {c d : Condition} (h : c.Grouped) (hd : Inside d c) : d.Grouped := by
  induction hd with
  | self => exact h
  | not _ ih => exact ih h
  | left op _ ih => exact ih ((grouped_join ..).1 h).1
  | right op _ ih => exact ih ((grouped_join ..).1 h).2.1
  | argument hc _ ih => exact ih (groupedAll_iff.1 h _ hc)

/-- **Nothing needs parentheses in a condition if the operands of no operator in it do.** -/
theorem grouped_iff_forall_inside {c : Condition} :
    c.Grouped ↔ ∀ d, Inside d c → d.KeepsOperands := by
  refine ⟨fun h d hd => (h.of_inside hd).keepsOperands, fun h => ?_⟩
  induction c using join_induction with
  | not operand ih => exact ih fun d hd => h d hd.not
  | join op left right ihleft ihright =>
    have hself := (keepsOperands_join ..).1 (h _ .self)
    exact (grouped_join ..).2
      ⟨ihleft fun d hd => h d (hd.left op), ihright fun d hd => h d (hd.right op), hself⟩
  | apply name args ih =>
    exact groupedAll_iff.2 fun c hc => ih c hc fun d hd => h d (.argument hc hd)
  | _ => trivial

/-! ## Read back as they were -/

/-- **Regrouping moves nothing where no parentheses are missing.** -/
theorem regroup_eq_self {c : Condition} (h : c.Grouped) : c.regroup = c := by
  induction c using join_induction with
  | not operand ih => rw [regroup, ih h]
  | join op left right ihleft ihright =>
    obtain ⟨hleft, hright, hle, hlt⟩ := (grouped_join ..).1 h
    rw [regroup_join, ihleft hleft, ihright hright, append_of_lt hle hright hlt]
  | apply name args ih =>
    have hargs : args.map regroup = args :=
      (List.map_congr_left fun c hc => ih c hc (groupedAll_iff.1 h c hc)).trans (List.map_id args)
    rw [regroup, regroupAll_eq_map, hargs]
  | _ => rfl

theorem regroup_eq_self_iff {c : Condition} : c.regroup = c ↔ c.Grouped :=
  ⟨fun h => h ▸ grouped_regroup c, regroup_eq_self⟩

theorem format_regroup (c : Condition) : c.regroup.format = c.format := by
  rw [← String.toList_inj, ← flat_pieces, ← flat_pieces, pieces_regroup]

/-- **The text of a condition with proper names is read to its end, and what is read has that text
too.**  It is the condition itself if and only if nowhere in it a comparison has a conjunction or a
disjunction on its left, or any operator on its right, a conjunction has a disjunction on its left,
or one of the two on its right, or a disjunction has a disjunction on its right. -/
theorem reread_eq_iff {c : Condition} (h : c.WellNamed) :
    (∃ eof, (tokenize c.format).ending = .ok eof)
      ∧ ∃ c', parse ((tokenize c.format).tokens.filter fun t => !t.isTrivia) = .ok (c', [])
        ∧ c'.format = c.format
        ∧ (c' = c ↔ ∀ d, Inside d c → d.KeepsOperands) := by
  obtain ⟨hending, hread⟩ := parse_format h
  exact ⟨hending, c.regroup, hread, format_regroup c,
    regroup_eq_self_iff.trans grouped_iff_forall_inside⟩

/-- Two comparisons, the second one to the right of the first: the text is that of the comparisons
from the left, and these are what is read. -/
theorem reread_eq_iff_compared :
    let c : Condition := .compare (.ident "A") .eq (.compare (.defined "defined") .lt (.constant 0))
    c.WellNamed ∧ c.format = "A == defined(defined) < 0"
      ∧ ∃ c', parse ((tokenize c.format).tokens.filter fun t => !t.isTrivia) = .ok (c', [])
        ∧ c'.format = c.format ∧ c' ≠ c := by
  intro c
  have hnamed : c.WellNamed :=
    .join (.compare .eq) (.ident (by decide) (by decide))
      (.join (.compare .lt) (.defined (by decide)) (.constant (by decide) (by decide)))
  obtain ⟨-, c', hread, hformat, hself⟩ := reread_eq_iff hnamed
  refine ⟨hnamed, by decide, c', hread, hformat, fun heq => ?_⟩
  exact absurd (hself.1 heq c .self).2.2.2 (by decide)

end IncludeScan.Condition
