import IncludeScan.Proofs.Token.Rules
import Mathlib

/-!
# Proofs/Token/Classes — classes of characters, and the runs that they end

The classes as ranges of code points, so that arithmetic decides between them.  A run of a class
ends at the first character outside it, whatever follows; and so does a numeral, which no character
ends that could be a part of an identifier (`Numeral.read?_append_stop`).
-/

namespace IncludeScan

/-! ## Classes as ranges -/

/-- A statement about each character of a text is decided along the text, not over all
characters. -/
instance (priority := high) decidableForallMemText (p : Char → Prop) [DecidablePred p]
    (cs : List Char) : Decidable (∀ c ∈ cs, p c) := List.decidableBAll p cs

instance (priority := high) decidableForallMemFirst (p : Char → Prop) [DecidablePred p]
    (first : Option Char) : Decidable (∀ c ∈ first, p c) := first.decidableForallMem

theorem isIdentPart_iff {c : Char} :
    isIdentPart c = true ↔ (48 ≤ c.toNat ∧ c.toNat ≤ 57) ∨ (65 ≤ c.toNat ∧ c.toNat ≤ 90)
      ∨ c.toNat = 95 ∨ (97 ≤ c.toNat ∧ c.toNat ≤ 122) := by
  simp only [isIdentPart, Char.isAlphanum, Char.isAlpha, Char.isUpper, Char.isLower, Char.isDigit,
    Bool.or_eq_true, Bool.and_eq_true, decide_eq_true_eq, beq_iff_eq, ← Char.toNat_inj, ge_iff_le,
    UInt32.le_iff_toNat_le, Char.toNat]
  simp
  omega

theorem isIdentStart_iff {c : Char} :
    isIdentStart c = true ↔ (65 ≤ c.toNat ∧ c.toNat ≤ 90) ∨ c.toNat = 95
      ∨ (97 ≤ c.toNat ∧ c.toNat ≤ 122) := by
  simp only [isIdentStart, Char.isAlpha, Char.isUpper, Char.isLower, Bool.or_eq_true,
    Bool.and_eq_true, decide_eq_true_eq, beq_iff_eq, ← Char.toNat_inj, ge_iff_le,
    UInt32.le_iff_toNat_le, Char.toNat]
  simp
  omega

theorem isDigit_iff {c : Char} : c.isDigit = true ↔ 48 ≤ c.toNat ∧ c.toNat ≤ 57 := by
  simp only [Char.isDigit, Bool.and_eq_true, decide_eq_true_eq, ge_iff_le, UInt32.le_iff_toNat_le,
    Char.toNat]
  simp

theorem isIdentPart_of_start {c : Char} (h : isIdentStart c = true) : isIdentPart c = true := by
  rw [isIdentStart_iff] at h
  rw [isIdentPart_iff]
  omega

theorem Base.isIdentPart_of_isDigit {base : Base} {c : Char} (h : base.isDigit c = true) :
    isIdentPart c = true := by
  rw [isIdentPart_iff]
  cases base <;>
    simp [Base.isDigit, isDigit_iff, Char.le_def, UInt32.le_iff_toNat_le, ← Char.toNat_inj] at h <;>
    simp only [Char.toNat] at h ⊢ <;> omega

theorem Rule.isBlank_iff {c : Char} :
    Rule.isBlank c = true ↔ (9 ≤ c.toNat ∧ c.toNat ≤ 13 ∧ c.toNat ≠ 10) ∨ c.toNat = 32 := by
  simp [Rule.isBlank, ← Char.toNat_inj]
  omega

/-! ## The character that a lexeme begins with -/

/-- Without a zero in front a numeral is decimal. -/
theorem Numeral.read?_cons_of_ne_zero {c : Char} (hc : c ≠ '0') (rest : List Char) :
    read? (c :: rest)
      = if c.isDigit then some (withDigits .decimal [] (c :: rest)) else none := by
  unfold read?
  split <;> simp_all

namespace Rule

/-- What the rule finds begins with a character of this class. -/
def BeginsWith (rule : Rule) (first : Char → Bool) : Prop :=
  ∀ c cs, first c = false → rule (c :: cs) = none

theorem beginsWith_fixed (kind : Kind) (a : Char) (spelling : List Char) :
    (fixed kind (a :: spelling)).BeginsWith (· == a) := by
  intro c cs h
  have hne : (a == c) = false := beq_eq_false_iff_ne.2 (beq_eq_false_iff_ne.1 h).symm
  simp [fixed, List.isPrefixOf, hne]

theorem beginsWith_run (kind : Kind) (isFirst isPart : Char → Bool) :
    (run kind isFirst isPart).BeginsWith isFirst := by
  intro c cs h
  simp [run, h]

theorem beginsWith_directive : BeginsWith directive (· == '#') := by
  intro c cs h
  unfold directive
  split <;> simp_all

theorem beginsWith_continuation : BeginsWith continuation (· == '\\') := by
  intro c cs h
  unfold continuation
  split <;> simp_all

theorem beginsWith_looseBackslash : BeginsWith looseBackslash (· == '\\') := by
  intro c cs h
  unfold looseBackslash
  split <;> simp_all

theorem beginsWith_lineComment : BeginsWith lineComment (· == '/') := by
  intro c cs h
  unfold lineComment
  split <;> simp_all

theorem beginsWith_blockComment : BeginsWith blockComment (· == '/') := by
  intro c cs h
  unfold blockComment
  split <;> simp_all

theorem beginsWith_string : BeginsWith string (· == '"') := by
  intro c cs h
  unfold string
  split <;> simp_all

theorem number_eq_none {cs : List Char} (h : Numeral.read? cs = none) : number cs = none := by
  unfold number
  split <;> simp_all

theorem beginsWith_number : BeginsWith number Char.isDigit := by
  intro c cs h
  have hzero : c ≠ '0' := by
    rintro rfl
    exact absurd h (by decide)
  exact number_eq_none (by rw [Numeral.read?_cons_of_ne_zero hzero, h]; rfl)

/-- **The rules that can find something where a character stands.** -/
inductive CanBegin (c : Char) : Rule → Prop
  | directive (h : c = '#') : CanBegin c directive
  | newline (h : c = '\n') : CanBegin c (fixed .newline ['\n'])
  | blanks (h : isBlank c = true) : CanBegin c (run .whitespace isBlank isBlank)
  | continuation (h : c = '\\') : CanBegin c continuation
  | looseBackslash (h : c = '\\') : CanBegin c looseBackslash
  | lineComment (h : c = '/') : CanBegin c lineComment
  | blockComment (h : c = '/') : CanBegin c blockComment
  | string (h : c = '"') : CanBegin c string
  | number (h : c.isDigit = true) : CanBegin c number
  | word (h : isIdentStart c = true) : CanBegin c (run .word isIdentStart isIdentPart)
  | op {spelling : List Char} (h : c :: spelling ∈ operatorSpellings) :
      CanBegin c (fixed .op (c :: spelling))
  | punct {spelling : List Char} (h : c :: spelling ∈ punctSpellings) :
      CanBegin c (fixed .punct (c :: spelling))

theorem BeginsWith.of_match {rule : Rule} {first : Char → Bool} (h : rule.BeginsWith first)
    {c : Char} {cs : List Char} {m : Lexeme} (hm : rule (c :: cs) = some m) : first c = true := by
  cases hc : first c with
  | false => exact absurd ((h c cs hc).symm.trans hm) (by simp)
  | true => rfl

/-- **A rule finds something only at a character that it can begin with.** -/
theorem canBegin_of_mem {rule : Rule} (h : rule ∈ rules) {c : Char} {cs : List Char} {m : Lexeme} :
    rule (c :: cs) = some m → CanBegin c rule := by
  refine forall_mem_rules (motive := fun rule => rule (c :: cs) = some m → CanBegin c rule)
    (fun hm => .directive (by simpa using beginsWith_directive.of_match hm))
    (fun hm => .newline (by simpa using (beginsWith_fixed _ _ _).of_match hm))
    (fun hm => .blanks ((beginsWith_run _ _ _).of_match hm))
    (fun hm => .continuation (by simpa using beginsWith_continuation.of_match hm))
    (fun hm => .looseBackslash (by simpa using beginsWith_looseBackslash.of_match hm))
    (fun hm => .lineComment (by simpa using beginsWith_lineComment.of_match hm))
    (fun hm => .blockComment (by simpa using beginsWith_blockComment.of_match hm))
    (fun hm => .string (by simpa using beginsWith_string.of_match hm))
    (fun hm => .number (beginsWith_number.of_match hm))
    (fun hm => .word ((beginsWith_run _ _ _).of_match hm))
    (fun spelling hs hm => ?_) (fun spelling hs hm => ?_) rule h
  · cases spelling with
    | nil => cases hm
    | cons a spelling =>
      obtain rfl : c = a := by simpa using (beginsWith_fixed _ _ _).of_match hm
      exact .op hs
  · cases spelling with
    | nil => cases hm
    | cons a spelling =>
      obtain rfl : c = a := by simpa using (beginsWith_fixed _ _ _).of_match hm
      exact .punct hs

end Rule

/-! ## Runs in front of a character that ends them -/

theorem takeWhile_append_stop {p : Char → Bool} {stop : Char} (h : p stop = false)
    (cs v : List Char) : (cs ++ stop :: v).takeWhile p = cs.takeWhile p := by
  induction cs with
  | nil => simp [h]
  | cons c cs ih => simp only [List.cons_append, List.takeWhile_cons, ih]

theorem dropWhile_append_stop {p : Char → Bool} {stop : Char} (h : p stop = false)
    (cs v : List Char) : (cs ++ stop :: v).dropWhile p = cs.dropWhile p ++ stop :: v := by
  induction cs with
  | nil => simp [h]
  | cons c cs ih =>
    simp only [List.cons_append, List.dropWhile_cons, ih]
    split <;> rfl

namespace Numeral

theorem length_unsignedMark_le (cs : List Char) : (unsignedMark cs).length ≤ cs.length := by
  have h := congrArg List.length (unsignedMark_append_drop cs)
  rw [List.length_append] at h
  omega

/-- Two characters decide about a long mark. -/
theorem longMark_cons_cons (c d : Char) (cs : List Char) :
    longMark (c :: d :: cs) = longMark [c, d] := by
  by_cases hl : c = 'l'
  · by_cases hd : d = 'l' <;> simp [longMark, hl, hd]
  · by_cases hL : c = 'L'
    · by_cases hd : d = 'L' <;> simp [longMark, hL, hd]
    · simp [longMark, hl, hL]

theorem length_longMark_le (cs : List Char) : (longMark cs).length ≤ cs.length := by
  have h := congrArg List.length (longMark_append_drop cs)
  rw [List.length_append] at h
  omega

section

variable {stop : Char} (hstop : isIdentPart stop = false)

include hstop

theorem stop_ne {c : Char} (hc : isIdentPart c = true) : stop ≠ c := by
  rintro rfl
  exact absurd (hstop.symm.trans hc) (by simp)

theorem isDigit_stop (base : Base) : base.isDigit stop = false := by
  rw [← Bool.not_eq_true]
  intro hdigit
  exact absurd (hstop.symm.trans (Base.isIdentPart_of_isDigit hdigit)) (by simp)

theorem unsignedMark_append_stop (cs v : List Char) :
    unsignedMark (cs ++ stop :: v) = unsignedMark cs := by
  have hu := stop_ne hstop (c := 'u') (by decide)
  have hU := stop_ne hstop (c := 'U') (by decide)
  cases cs with
  | nil => simp [unsignedMark, hu, hU]
  | cons c cs => unfold unsignedMark; split <;> simp_all

theorem longMark_append_stop (cs v : List Char) : longMark (cs ++ stop :: v) = longMark cs := by
  have hl := stop_ne hstop (c := 'l') (by decide)
  have hL := stop_ne hstop (c := 'L') (by decide)
  match cs with
  | [] => simp [longMark, hl, hL]
  | [c] => unfold longMark; split <;> simp_all
  | c :: d :: cs =>
    rw [List.cons_append, List.cons_append, longMark_cons_cons, longMark_cons_cons c d cs]

theorem suffixMark_append_stop (cs v : List Char) :
    suffixMark (cs ++ stop :: v) = suffixMark cs := by
  have hu := length_unsignedMark_le cs
  unfold suffixMark
  rw [unsignedMark_append_stop hstop, longMark_append_stop hstop,
    List.drop_append_of_le_length (length_longMark_le cs), unsignedMark_append_stop hstop]
  split
  · rfl
  · rw [List.drop_append_of_le_length hu, longMark_append_stop hstop]

theorem withDigits_append_stop (base : Base) (marker rest v : List Char) :
    withDigits base marker (rest ++ stop :: v) = withDigits base marker rest := by
  have hdigit := isDigit_stop hstop base
  rw [withDigits, withDigits, takeWhile_append_stop hdigit, dropWhile_append_stop hdigit,
    suffixMark_append_stop hstop]

theorem startsWithDigit_append_stop (base : Base) (rest v : List Char) :
    startsWithDigit base (rest ++ stop :: v) = startsWithDigit base rest := by
  cases rest with
  | nil => exact isDigit_stop hstop base
  | cons c cs => rfl

end

/-- **A numeral ends at the first character that is no part of an identifier.** -/
theorem read?_append_stop {stop : Char} (hstop : isIdentPart stop = false) (cs v : List Char) :
    read? (cs ++ stop :: v) = read? cs := by
  have hzero := stop_ne hstop (c := '0') (by decide)
  cases cs with
  | nil =>
    have hdigit : stop.isDigit = false := isDigit_stop hstop .decimal
    rw [List.nil_append, read?_cons_of_ne_zero hzero, hdigit]
    rfl
  | cons c cs =>
    by_cases hc : c = '0'
    · subst hc
      cases cs with
      | nil =>
        have hx := stop_ne hstop (c := 'x') (by decide)
        have hX := stop_ne hstop (c := 'X') (by decide)
        have hb := stop_ne hstop (c := 'b') (by decide)
        have hB := stop_ne hstop (c := 'B') (by decide)
        simpa [read?, hx, hX, hb, hB] using withDigits_append_stop hstop .octal ['0'] [] v
      | cons d cs =>
        have hoctal := withDigits_append_stop hstop .octal ['0'] (d :: cs) v
        rw [List.cons_append] at hoctal
        simp only [List.cons_append, read?, startsWithDigit_append_stop hstop,
          withDigits_append_stop hstop, hoctal]
    · rw [List.cons_append, read?_cons_of_ne_zero hc, read?_cons_of_ne_zero hc, ← List.cons_append,
        withDigits_append_stop hstop]

/-- All characters of a numeral can be parts of an identifier. -/
theorem isIdentPart_of_mem_spelling {cs : List Char} {n : Numeral} (h : read? cs = some n)
    {c : Char} (hc : c ∈ n.spelling) : isIdentPart c = true := by
  obtain ⟨behind, hbehind⟩ := exists_append h
  rw [← Bool.not_eq_false]
  intro hstop
  obtain ⟨front, tail, hsplit⟩ := List.append_of_mem hc
  rw [hbehind, hsplit, List.append_assoc, List.cons_append, read?_append_stop hstop] at h
  have hlength := length_spelling_le h
  rw [hsplit, List.length_append, List.length_cons] at hlength
  omega

end Numeral

end IncludeScan
