import IncludeScan.Proofs.Token.Classes

/-!
# Proofs/Token/Numerals — the grammar of integer literals, and what they are worth

`Written base digits text` is the grammar: a marker of the base, digits of it, and a suffix from a
short list.  What the reader of numerals takes off a text is always so written (`written_of_read?`),
and a text that is so written is read from end to end (`Written.exists_ofText?`).

The value is worked out digit by digit from the left.  `valueOf_eq_positional` compares it with the
sum of the digits, each by its place among all digits and multiplied by a power of the base.  So a
text has a value if and only if it is a literal whose value by position is within the limit
(`literal?_eq_some_iff`).
-/

namespace IncludeScan.Numeral

/-! ## The grammar -/

/-- The digits by their values. -/
def lowerDigits : List Char :=
  ['0', '1', '2', '3', '4', '5', '6', '7', '8', '9', 'a', 'b', 'c', 'd', 'e', 'f']

/-- The digits by their values, with capital letters. -/
def upperDigits : List Char :=
  ['0', '1', '2', '3', '4', '5', '6', '7', '8', '9', 'A', 'B', 'C', 'D', 'E', 'F']

/-- The place of a character among the digits; sixteen, if it is none. -/
def place (c : Char) : Nat := min (lowerDigits.idxOf c) (upperDigits.idxOf c)

/-- **The value of digits by their positions**: each is multiplied by the power of the base that
belongs to its position, counted from the right. -/
def positional (base : Base) (digits : List Char) : Nat :=
  Nat.ofDigits base.radix (digits.reverse.map place)

/-- The marks of an unsigned literal. -/
def unsignedMarks : List (List Char) := [['u'], ['U']]

/-- The marks of a long literal; no mark mixes capital and small letters. -/
def longMarks : List (List Char) := [['l'], ['L'], ['l', 'l'], ['L', 'L']]

/-- The suffixes: none, one mark, or one of each sort in either order. -/
def suffixes : List (List Char) :=
  [] :: (unsignedMarks ++ longMarks
    ++ unsignedMarks.flatMap (fun mark => longMarks.map (mark ++ ·))
    ++ longMarks.flatMap fun mark => unsignedMarks.map (mark ++ ·))

/-- The markers of a base. -/
def markers : Base → List (List Char)
  | .hexadecimal => [['0', 'x'], ['0', 'X']]
  | .binary => [['0', 'b'], ['0', 'B']]
  | .octal => [['0']]
  | .decimal => [[]]

/-- Digits that can stand behind a marker of the base: at least one behind a marker with a letter,
any number behind a zero, and no zero at the beginning where there is no marker. -/
def Begins : Base → List Char → Prop
  | .hexadecimal, digits => digits ≠ []
  | .binary, digits => digits ≠ []
  | .octal, _ => True
  | .decimal, digits => digits ≠ [] ∧ digits.head? ≠ some '0'

/-- **The text is a literal of the base with these digits.** -/
inductive Written (base : Base) (digits : List Char) : List Char → Prop
  | intro {marker suffix : List Char} (hmarker : marker ∈ markers base)
      (hbegins : Begins base digits)
      (hdigits : ∀ c ∈ digits, place c < base.radix) (hsuffix : suffix ∈ suffixes) :
      Written base digits (marker ++ digits ++ suffix)

theorem Written.place_lt {base : Base} {digits text : List Char} (h : Written base digits text) :
    ∀ c ∈ digits, place c < base.radix := by
  obtain ⟨-, -, hdigits, -⟩ := h
  exact hdigits

/-! ## Digits and their values -/

theorem mem_digits_of_isDigit {base : Base} {c : Char} (h : base.isDigit c = true) :
    c ∈ lowerDigits ++ upperDigits := by
  have hranges : (48 ≤ c.toNat ∧ c.toNat ≤ 57) ∨ (97 ≤ c.toNat ∧ c.toNat ≤ 102)
      ∨ (65 ≤ c.toNat ∧ c.toNat ≤ 70) := by
    cases base <;>
      simp [Base.isDigit, isDigit_iff, Char.le_def, UInt32.le_iff_toNat_le,
        ← Char.toNat_inj] at h <;>
      simp only [Char.toNat] at h ⊢ <;> omega
  rw [← Char.ofNat_toNat c]
  rcases hranges with ⟨hlow, hhigh⟩ | ⟨hlow, hhigh⟩ | ⟨hlow, hhigh⟩ <;>
    interval_cases c.toNat <;> decide

theorem radix_le (base : Base) : base.radix ≤ 16 := by
  cases base <;> decide

theorem mem_digits_of_place_lt {c : Char} (h : place c < 16) : c ∈ lowerDigits ++ upperDigits := by
  by_contra hc
  rw [List.mem_append, not_or] at hc
  rw [place, List.idxOf_eq_length hc.1, List.idxOf_eq_length hc.2] at h
  exact absurd h (by decide)

/-- **The digits of a base are the characters with a place below it.** -/
theorem isDigit_iff_place_lt (base : Base) (c : Char) :
    base.isDigit c = true ↔ place c < base.radix := by
  have htable : ∀ c ∈ lowerDigits ++ upperDigits, base.isDigit c = true ↔ place c < base.radix := by
    cases base <;> decide
  constructor
  · exact fun h => (htable c (mem_digits_of_isDigit h)).1 h
  · exact fun h => (htable c (mem_digits_of_place_lt (h.trans_le (radix_le base)))).2 h

theorem digitValue_eq_place {c : Char} (h : place c < 16) : digitValue c = place c := by
  have htable : ∀ c ∈ lowerDigits ++ upperDigits, digitValue c = place c := by decide
  exact htable c (mem_digits_of_place_lt h)

/-- **Worked out from the left, digits have their value by position.** -/
theorem valueOf_eq_positional {base : Base} {digits : List Char}
    (h : ∀ c ∈ digits, place c < base.radix) : valueOf base digits = positional base digits := by
  induction digits using List.reverseRecOn with
  | nil => rfl
  | append_singleton digits c ih =>
    rw [List.forall_mem_append, List.forall_mem_singleton] at h
    have hvalue :
        valueOf base (digits ++ [c]) = valueOf base digits * base.radix + digitValue c := by
      simp [valueOf]
    have hpositional :
        positional base (digits ++ [c]) = place c + base.radix * positional base digits := by
      simp [positional, Nat.ofDigits_cons]
    rw [hvalue, hpositional, ih h.1, digitValue_eq_place (h.2.trans_le (radix_le base)),
      Nat.mul_comm, Nat.add_comm]

/-! ## What is read is written by the grammar -/

theorem unsignedMark_mem (cs : List Char) : unsignedMark cs ∈ [] :: unsignedMarks := by
  unfold unsignedMark
  split <;> decide

theorem longMark_mem (cs : List Char) : longMark cs ∈ [] :: longMarks := by
  unfold longMark
  split <;> decide

theorem suffixMark_mem (cs : List Char) : suffixMark cs ∈ suffixes := by
  have hlong :
      ∀ mark ∈ [] :: longMarks, ∀ mark' ∈ [] :: unsignedMarks, mark ++ mark' ∈ suffixes := by
    decide
  have hunsigned :
      ∀ mark ∈ [] :: unsignedMarks, ∀ mark' ∈ [] :: longMarks, mark ++ mark' ∈ suffixes := by
    decide
  unfold suffixMark
  split
  · exact hlong _ (longMark_mem _) _ (unsignedMark_mem _)
  · exact hunsigned _ (unsignedMark_mem _) _ (longMark_mem _)

theorem written_withDigits (base : Base) {marker rest : List Char} (hmarker : marker ∈ markers base)
    (hbegins : Begins base (rest.takeWhile base.isDigit)) :
    Written base (withDigits base marker rest).digits (withDigits base marker rest).spelling := by
  refine .intro hmarker hbegins (fun c hc => ?_) (suffixMark_mem _)
  exact (isDigit_iff_place_lt base c).1 (List.mem_takeWhile_imp hc)

theorem takeWhile_ne_nil_of_startsWithDigit {base : Base} {cs : List Char}
    (h : startsWithDigit base cs = true) : cs.takeWhile base.isDigit ≠ [] := by
  cases cs with
  | nil => cases h
  | cons c cs =>
    rw [startsWithDigit] at h
    simp [h]

/-- **A numeral that is read is a literal of its base.** -/
theorem written_of_read? {cs : List Char} {n : Numeral} (h : read? cs = some n) :
    Written n.base n.digits n.spelling := by
  cases cs with
  | nil => cases h
  | cons c cs =>
    by_cases hc : c = '0'
    · subst hc
      cases cs with
      | nil =>
        obtain rfl := Option.some.inj h
        exact written_withDigits .octal List.mem_cons_self trivial
      | cons d cs =>
        rw [read?] at h
        split at h
        · rename_i hmarker
          obtain ⟨hletter, hdigit⟩ := Bool.and_eq_true_iff.1 hmarker
          obtain rfl := Option.some.inj h
          refine written_withDigits .hexadecimal ?_ (takeWhile_ne_nil_of_startsWithDigit hdigit)
          simpa [markers] using hletter
        · split at h
          · rename_i hmarker
            obtain ⟨hletter, hdigit⟩ := Bool.and_eq_true_iff.1 hmarker
            obtain rfl := Option.some.inj h
            refine written_withDigits .binary ?_ (takeWhile_ne_nil_of_startsWithDigit hdigit)
            simpa [markers] using hletter
          · obtain rfl := Option.some.inj h
            exact written_withDigits .octal List.mem_cons_self trivial
    · rw [read?_cons_of_ne_zero hc] at h
      split at h
      · rename_i hdigit
        obtain rfl := Option.some.inj h
        refine written_withDigits .decimal List.mem_cons_self ?_
        have htake : (c :: cs).takeWhile (Base.isDigit .decimal)
            = c :: cs.takeWhile (Base.isDigit .decimal) := List.takeWhile_cons_of_pos hdigit
        rw [htake]
        exact ⟨List.cons_ne_nil _ _, by simpa using hc⟩
      · cases h

/-! ## What is written by the grammar is read -/

theorem suffixMark_of_mem : ∀ suffix ∈ suffixes, suffixMark suffix = suffix := by
  decide

theorem isDigit_of_mem_suffix (base : Base) :
    ∀ suffix ∈ suffixes, ∀ c ∈ suffix, base.isDigit c = false := by
  cases base <;> decide

/-- Digits and a suffix are told apart. -/
theorem withDigits_append {base : Base} {digits suffix : List Char}
    (hdigits : ∀ c ∈ digits, base.isDigit c = true) (hsuffix : suffix ∈ suffixes)
    (marker : List Char) :
    withDigits base marker (digits ++ suffix) = ⟨base, marker, digits, suffix⟩ := by
  have hstop := isDigit_of_mem_suffix base suffix hsuffix
  obtain ⟨htake, hdrop⟩ :
      suffix.takeWhile base.isDigit = [] ∧ suffix.dropWhile base.isDigit = suffix := by
    cases suffix with
    | nil => exact ⟨rfl, rfl⟩
    | cons c cs => simp [hstop c List.mem_cons_self]
  rw [withDigits, List.takeWhile_append_of_pos hdigits, List.dropWhile_append_of_pos hdigits, htake,
    hdrop, List.append_nil, suffixMark_of_mem suffix hsuffix]

/-- Behind a zero no octal digit and no suffix is taken for the letter of a marker. -/
theorem read?_octal {rest : List Char}
    (h : ∀ c ∈ rest.head?, c ∉ ['x', 'X', 'b', 'B']) :
    read? ('0' :: rest) = some (withDigits .octal ['0'] rest) := by
  cases rest with
  | nil => rfl
  | cons c cs =>
    have hc := h c rfl
    simp only [List.mem_cons, List.not_mem_nil, or_false, not_or] at hc
    simp [read?, hc]

/-- **A literal is read from end to end**, with its base and its digits. -/
theorem Written.exists_ofText? {base : Base} {digits text : List Char}
    (h : Written base digits text) :
    ∃ n, ofText? text = some n ∧ n.base = base ∧ n.digits = digits := by
  obtain ⟨hmarker, hbegins, hplaces, hsuffix⟩ := h
  rename_i marker suffix
  have hdigits : ∀ c ∈ digits, base.isDigit c = true := fun c hc =>
    (isDigit_iff_place_lt base c).2 (hplaces c hc)
  have hparts := withDigits_append hdigits hsuffix marker
  refine ⟨⟨base, marker, digits, suffix⟩, ofText?_eq_some_iff.2 ⟨?_, rfl⟩, rfl, rfl⟩
  rw [List.append_assoc, ← hparts]
  cases base with
  | hexadecimal | binary =>
    obtain ⟨c, cs, rfl⟩ := List.exists_cons_of_ne_nil hbegins
    have hc := hdigits c List.mem_cons_self
    simp only [markers, List.mem_cons, List.not_mem_nil, or_false] at hmarker
    rcases hmarker with rfl | rfl <;> simp [read?, startsWithDigit, hc]
  | octal =>
    obtain rfl := List.mem_singleton.1 hmarker
    have hnone : ∀ c ∈ ['x', 'X', 'b', 'B'], Base.octal.isDigit c = false
        ∧ ∀ suffix ∈ suffixes, c ∉ suffix := by decide
    refine @read?_octal (digits ++ suffix) fun c hc hletter => ?_
    rcases List.mem_append.1 (List.mem_of_mem_head? hc) with hmem | hmem
    · exact absurd ((hnone c hletter).1.symm.trans (hdigits c hmem)) (by simp)
    · exact (hnone c hletter).2 suffix hsuffix hmem
  | decimal =>
    obtain rfl := List.mem_singleton.1 hmarker
    obtain ⟨hne, hzero⟩ := hbegins
    obtain ⟨c, cs, rfl⟩ := List.exists_cons_of_ne_nil hne
    have hc : c.isDigit = true := hdigits c List.mem_cons_self
    rw [List.nil_append, List.cons_append, read?_cons_of_ne_zero (by simpa using hzero), if_pos hc]

/-- **A text has a value if it is a literal whose value is within the limit**, and only then. -/
theorem literal?_eq_some_iff {s : String} {n : Nat} :
    literal? s = some n
      ↔ ∃ base digits, Written base digits s.toList ∧ positional base digits = n ∧ n ≤ limit := by
  constructor
  · intro h
    obtain ⟨m, hm, hbounded⟩ := Option.bind_eq_some_iff.1 h
    obtain ⟨hle, hvalue⟩ := Option.ite_none_right_eq_some.1 hbounded
    obtain ⟨hread, hspelling⟩ := ofText?_eq_some_iff.1 hm
    have hwritten := written_of_read? hread
    rw [hspelling] at hwritten
    obtain rfl : m.value = n := Option.some.inj hvalue
    exact ⟨m.base, m.digits, hwritten, (valueOf_eq_positional hwritten.place_lt).symm, hle⟩
  · rintro ⟨base, digits, hwritten, rfl, hle⟩
    obtain ⟨m, hm, rfl, rfl⟩ := hwritten.exists_ofText?
    have hvalue : m.value = positional m.base m.digits := valueOf_eq_positional hwritten.place_lt
    rw [literal?, hm, Option.bind_some, bounded?, hvalue, if_pos hle]

theorem literal?_eq_none_iff {s : String} :
    literal? s = none ↔ ∀ base digits, Written base digits s.toList →
      limit < positional base digits := by
  constructor
  · intro h base digits hwritten
    by_contra hle
    have hsome := literal?_eq_some_iff.2 ⟨base, digits, hwritten, rfl, not_lt.1 hle⟩
    exact absurd (h.symm.trans hsome) (by simp)
  · intro h
    by_contra hsome
    obtain ⟨n, hn⟩ := Option.ne_none_iff_exists'.1 hsome
    obtain ⟨base, digits, hwritten, rfl, hle⟩ := literal?_eq_some_iff.1 hn
    exact absurd (h base digits hwritten) (not_lt.2 hle)

end IncludeScan.Numeral
