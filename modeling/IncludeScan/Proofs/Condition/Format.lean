import IncludeScan.Proofs.Condition.Reading
import IncludeScan.Proofs.Token.Numerals
import IncludeScan.Proofs.Token.Pieces

/-!
# Proofs/Condition/Format — the text of a condition, cut and read again

The text of a condition with proper names is laid piece by piece (`laid_pieces`).  Read again it is
the same condition, if the operators under each operator bind tightly enough that it needs no
parentheses (`reading_pieces`, `parse_pieces`): the reader gets an operand whole, and goes on behind
it with the operator that the text goes on with.
-/

namespace IncludeScan

/-! ## Decimal numerals -/

namespace Numeral

theorem head?_toDigits_ne {n : Nat} (h : 0 < n) : (Nat.toDigits 10 n).head? ≠ some '0' := by
  induction n using Nat.strong_induction_on with
  | _ n ih =>
    rw [Nat.toDigits_eq_if (by decide)]
    split
    · simpa [Nat.digitChar_eq_zero] using h.ne'
    · have hdiv : 0 < n / 10 := by omega
      have hne := ih (n / 10) (by omega) hdiv
      rw [List.head?_append_of_ne_nil _ Nat.toDigits_ne_nil]
      exact hne

theorem valueOf_decimal {digits : List Char} (h : ∀ c ∈ digits, c.isDigit = true) :
    valueOf .decimal digits = Nat.ofDigitChars 10 digits 0 := by
  rw [valueOf, Nat.ofDigitChars_eq_foldl]
  refine List.foldl_ext _ _ _ fun sofar c hc => ?_
  simp [digitValue, h c hc, Base.radix, Nat.mul_comm]

/-- **The decimal digits of a number are a numeral of that value.** -/
theorem exists_ofText?_toDigits (n : Nat) :
    ∃ m, ofText? (Nat.toDigits 10 n) = some m ∧ m.value = n := by
  rcases Nat.eq_zero_or_pos n with rfl | hpos
  · exact ⟨⟨.octal, ['0'], [], []⟩, rfl, rfl⟩
  · have hdigits : ∀ c ∈ Nat.toDigits 10 n, c.isDigit = true := fun c hc =>
      Nat.isDigit_of_mem_toDigits (by decide) (by decide) hc
    have hplaces : ∀ c ∈ Nat.toDigits 10 n, place c < Base.decimal.radix := fun c hc =>
      (isDigit_iff_place_lt .decimal c).1 (hdigits c hc)
    have hwritten := @Written.intro .decimal (Nat.toDigits 10 n) [] [] List.mem_cons_self
      ⟨Nat.toDigits_ne_nil, head?_toDigits_ne hpos⟩ hplaces List.mem_cons_self
    rw [List.nil_append, List.append_nil] at hwritten
    obtain ⟨m, hm, hbase, hparts⟩ := hwritten.exists_ofText?
    refine ⟨m, hm, ?_⟩
    rw [value, hbase, hparts, valueOf_decimal hdigits, Nat.ofDigitChars_ten_toDigits]

end Numeral

/-! ## Lists with commas -/

namespace Piece

/-- Lists of pieces with a comma and a blank between them. -/
def listed : List (List Piece) → List Piece
  | [] => []
  | [xs] => xs
  | xs :: ys :: rest => xs ++ punct [','] :: blank :: listed (ys :: rest)

theorem flat_listed (xss : List (List Piece)) :
    flat (listed xss) = (", ".intercalate (xss.map fun xs => String.ofList (flat xs))).toList := by
  induction xss with
  | nil => rfl
  | cons xs xss ih =>
    cases xss with
    | nil => simp [listed]
    | cons ys rest =>
      rw [List.map_cons] at ih
      rw [List.map_cons, List.map_cons, String.intercalate_cons_cons, String.toList_append,
        String.toList_append, ← ih, listed]
      simp

/-- What begins a list of pieces begins the lists with commas. -/
theorem stops_listed {p : Char → Bool} {xs : List Piece} (h : ∀ rest, Stops p (flat xs ++ rest))
    (xss : List (List Piece)) (rest : List Char) : Stops p (flat (listed (xs :: xss)) ++ rest) := by
  cases xss with
  | nil => exact h rest
  | cons ys xss =>
    rw [listed, flat_append, List.append_assoc]
    exact h _

/-- Lists that are laid in front of a comma and of the rest are laid with commas between them. -/
theorem laid_listed {Q : List Char → Prop} (hcomma : ∀ tail, Q (',' :: tail))
    {xss : List (List Piece)} (hlaid : ∀ xs ∈ xss, ∀ rest, Q rest → Laid xs rest)
    (hblank : ∀ xs ∈ xss, ∀ rest, Stops Rule.isBlank (flat xs ++ rest)) {rest : List Char}
    (hrest : Q rest) : Laid (listed xss) rest := by
  induction xss with
  | nil => trivial
  | cons xs xss ih =>
    obtain ⟨hxs, hxss⟩ := List.forall_mem_cons.1 hlaid
    obtain ⟨-, hblanks⟩ := List.forall_mem_cons.1 hblank
    cases xss with
    | nil => exact hxs rest hrest
    | cons ys xss =>
      have hys := stops_listed (hblanks ys List.mem_cons_self) xss rest
      rw [listed, laid_append]
      refine ⟨hxs _ ?_, fits_punct (by decide) _, fits_blank hys, ih hxss hblanks⟩
      rw [flat_cons, punct_text, List.append_assoc, List.singleton_append]
      exact hcomma _

end Piece

/-! ## Conditions that can be written -/

/-- The sign of an operator. -/
def Connective.sign : Connective → String
  | .or => "||"
  | .and => "&&"
  | .compare op => op.sign

namespace Condition

/-- How tightly the outermost operator of a condition binds. -/
def power : Condition → Nat
  | .or _ _ => Connective.or.power
  | .and _ _ => Connective.and.power
  | .compare _ op _ => (Connective.compare op).power
  | _ => Connective.operandPower

/-- **The names are identifiers, none of them taken for `defined`, and the constants are
literals.** -/
inductive WellNamed : Condition → Prop
  | defined {name : String} (hname : isIdentifier name = true) : WellNamed (.defined name)
  | not {operand : Condition} (h : WellNamed operand) : WellNamed (.not operand)
  | join (op : Connective) {left right : Condition} (hleft : WellNamed left)
      (hright : WellNamed right) : WellNamed (op.join left right)
  | apply {name : String} {args : List Condition} (hname : isIdentifier name = true)
      (hdefined : name ≠ "defined") (hargs : ∀ c ∈ args, WellNamed c) : WellNamed (.apply name args)
  | ident {name : String} (hname : isIdentifier name = true) (hdefined : name ≠ "defined") :
      WellNamed (.ident name)
  | constant {value : Int} (hnonneg : 0 ≤ value) (hlimit : value ≤ Numeral.limit) :
      WellNamed (.constant value)

mutual

/-- **No parentheses are missing**: the left operand of an operator binds at least as tightly as the
operator, and the right one more tightly. -/
def Grouped : Condition → Prop
  | .not operand => Grouped operand
  | .or left right =>
    Grouped left ∧ Grouped right ∧ Connective.or.power ≤ left.power
      ∧ Connective.or.power < right.power
  | .and left right =>
    Grouped left ∧ Grouped right ∧ Connective.and.power ≤ left.power
      ∧ Connective.and.power < right.power
  | .compare left op right =>
    Grouped left ∧ Grouped right ∧ (Connective.compare op).power ≤ left.power
      ∧ (Connective.compare op).power < right.power
  | .apply _ args => GroupedAll args
  | _ => True

/-- All of the conditions are grouped. -/
def GroupedAll : List Condition → Prop
  | [] => True
  | c :: cs => Grouped c ∧ GroupedAll cs

end

theorem grouped_join (op : Connective) (left right : Condition) :
    (op.join left right).Grouped
      ↔ left.Grouped ∧ right.Grouped ∧ op.power ≤ left.power ∧ op.power < right.power := by
  cases op <;> simp [Connective.join, Grouped]

theorem groupedAll_iff {cs : List Condition} : GroupedAll cs ↔ ∀ c ∈ cs, Grouped c := by
  induction cs with
  | nil => simp [GroupedAll]
  | cons c cs ih => simp [GroupedAll, ih]

theorem power_join (op : Connective) (left right : Condition) :
    (op.join left right).power = op.power := by
  cases op <;> rfl

/-! ## The pieces of the text -/

open Piece

mutual

/-- The pieces of a condition. -/
def pieces : Condition → List Piece
  | .defined name => [word "defined", punct ['('], word name, punct [')']]
  | .not operand => op ['!'] :: punct ['('] :: (pieces operand ++ [punct [')']])
  | .and left right => pieces left ++ blank :: op ['&', '&'] :: blank :: pieces right
  | .or left right => pieces left ++ blank :: op ['|', '|'] :: blank :: pieces right
  | .compare left sign right =>
    pieces left ++ blank :: op sign.sign.toList :: blank :: pieces right
  | .apply name args => word name :: punct ['('] :: (listed (piecesAll args) ++ [punct [')']])
  | .ident name => [word name]
  | .constant value => [number (toString value).toList]

/-- The pieces of each condition. -/
def piecesAll : List Condition → List (List Piece)
  | [] => []
  | c :: cs => pieces c :: piecesAll cs

end

theorem pieces_join (connective : Connective) (left right : Condition) :
    pieces (connective.join left right)
      = pieces left ++ blank :: op connective.sign.toList :: blank :: pieces right := by
  cases connective <;> simp [Connective.join, pieces, Connective.sign]

mutual

theorem flat_pieces : ∀ c : Condition, flat (pieces c) = c.format.toList
  | .defined name => by simp [pieces, format]
  | .not operand => by simp [pieces, format, flat_pieces operand]
  | .and left right => by simp [pieces, format, flat_pieces left, flat_pieces right]
  | .or left right => by simp [pieces, format, flat_pieces left, flat_pieces right]
  | .compare left sign right => by simp [pieces, format, flat_pieces left, flat_pieces right]
  | .apply name args => by
    simp [pieces, format, flat_listed, flat_piecesAll args]
  | .ident name => by simp [pieces, format]
  | .constant value => by simp [pieces, format]

theorem flat_piecesAll : ∀ cs : List Condition,
    (piecesAll cs).map (fun xs => String.ofList (flat xs)) = formatAll cs
  | [] => by rw [piecesAll, formatAll, List.map_nil]
  | c :: cs => by
    rw [piecesAll, formatAll, List.map_cons, flat_pieces c, flat_piecesAll cs, String.ofList_toList]

end

theorem sign_mem (connective : Connective) : connective.sign.toList ∈ operatorSpellings := by
  cases connective with
  | or | and => decide
  | compare comparison => cases comparison <;> decide

theorem numeral_toString {value : Int} (hnonneg : 0 ≤ value) (hlimit : value ≤ Numeral.limit) :
    ∃ n, Numeral.ofText? (toString value).toList = some n ∧ n.bounded? = some value.toNat := by
  obtain ⟨n, hn, hvalue⟩ := Numeral.exists_ofText?_toDigits value.toNat
  refine ⟨n, ?_, ?_⟩
  · rw [Int.toString_eq_repr, Int.repr_eq_if, if_pos hnonneg, Nat.repr_eq_ofList_toDigits,
      String.toList_ofList, hn]
  · rw [Numeral.bounded?, hvalue, if_pos (by omega)]

theorem stops_isBlank_pieces {c : Condition} (h : WellNamed c) (rest : List Char) :
    Stops Rule.isBlank (flat (pieces c) ++ rest) := by
  induction h generalizing rest with
  | defined hname => exact stops_cons.2 (by decide)
  | not h ih => exact stops_cons.2 (by decide)
  | join op hleft hright ih _ =>
    rw [pieces_join, flat_append, List.append_assoc]
    exact ih _
  | apply hname hdefined hargs ih =>
    rw [pieces, flat_cons, List.append_assoc]
    exact stops_isBlank_word hname _
  | ident hname hdefined =>
    rw [pieces, flat_cons, List.append_assoc]
    exact stops_isBlank_word hname _
  | constant hnonneg hlimit =>
    obtain ⟨n, hn, -⟩ := numeral_toString hnonneg hlimit
    rw [pieces, flat_cons, List.append_assoc]
    exact stops_isBlank_numeral hn _

theorem mem_piecesAll {cs : List Condition} {xs : List Piece} :
    xs ∈ piecesAll cs ↔ ∃ c ∈ cs, pieces c = xs := by
  induction cs with
  | nil => simp [piecesAll]
  | cons c cs ih => simp [piecesAll, ih, eq_comm]

/-- **The text of a condition is cut into its pieces.** -/
theorem laid_pieces {c : Condition} (h : WellNamed c) {rest : List Char}
    (hrest : Stops isIdentPart rest) : Laid (pieces c) rest := by
  -- what follows a part of the condition is a parenthesis, a comma or a blank
  have hopening (tail : List Char) : Stops isIdentPart ((punct ['(']).text ++ tail) :=
    stops_cons.2 (by decide)
  have hclosing (tail : List Char) : Stops isIdentPart ((punct [')']).text ++ tail) :=
    stops_cons.2 (by decide)
  have hblank (tail : List Char) : Stops isIdentPart (blank.text ++ tail) :=
    stops_cons.2 (by decide)
  induction h generalizing rest with
  | defined hname =>
    simp only [pieces, laid_cons, laid_nil, flat_cons, flat_nil, List.append_assoc, List.nil_append,
      and_true]
    exact ⟨fits_word (by decide) (hopening _), fits_punct (by decide) _,
      fits_word hname (hclosing _), fits_punct (by decide) _⟩
  | not h ih =>
    simp only [pieces, laid_cons, laid_append, laid_nil, flat_cons, flat_append, flat_nil,
      List.append_assoc, List.nil_append, and_true]
    exact ⟨fits_op (by decide) (stops_cons.2 (by decide)), fits_punct (by decide) _,
      ih (hclosing _), fits_punct (by decide) _⟩
  | join connective hleft hright ihleft ihright =>
    rw [pieces_join, laid_append]
    simp only [laid_cons, flat_cons, List.append_assoc]
    refine ⟨ihleft (hblank _), fits_blank ?_,
      fits_op (sign_mem connective) (stops_cons.2 (by decide)),
      fits_blank (stops_isBlank_pieces hright rest), ihright hrest⟩
    exact stops_isBlank_fixed (List.mem_append_left _ (sign_mem connective)) _
  | apply hname hdefined hargs ih =>
    simp only [pieces, laid_cons, laid_append, laid_nil, flat_cons, flat_append, flat_nil,
      List.append_assoc, List.nil_append, and_true]
    refine ⟨fits_word hname (hopening _), fits_punct (by decide) _, ?_, fits_punct (by decide) _⟩
    refine laid_listed (fun tail => stops_cons.2 (by decide)) (fun xs hxs tail htail => ?_)
      (fun xs hxs tail => ?_) (hclosing _)
    · obtain ⟨c, hc, rfl⟩ := mem_piecesAll.1 hxs
      exact ih c hc htail
    · obtain ⟨c, hc, rfl⟩ := mem_piecesAll.1 hxs
      exact stops_isBlank_pieces (hargs c hc) tail
  | ident hname hdefined => exact ⟨fits_word hname hrest, trivial⟩
  | constant hnonneg hlimit =>
    obtain ⟨n, hn, -⟩ := numeral_toString hnonneg hlimit
    exact ⟨fits_numeral hn hrest, trivial⟩

end Condition

/-! ## The words of the text -/

namespace Piece

/-- The pieces that are not trivia as tokens, all at one place. -/
def bare (xs : List Piece) : List Token :=
  (xs.filter fun x => !x.kind.isTrivia).map (token .start 0)

@[simp] theorem bare_nil : bare [] = [] := rfl

@[simp] theorem bare_append (xs ys : List Piece) : bare (xs ++ ys) = bare xs ++ bare ys := by
  simp [bare]

@[simp] theorem bare_cons_blank (xs : List Piece) : bare (blank :: xs) = bare xs := rfl

@[simp] theorem bare_cons_word (name : String) (xs : List Piece) :
    bare (word name :: xs) = (word name).token .start 0 :: bare xs := rfl

@[simp] theorem bare_cons_number (digits : List Char) (xs : List Piece) :
    bare (number digits :: xs) = (number digits).token .start 0 :: bare xs := rfl

@[simp] theorem bare_cons_op (sign : List Char) (xs : List Piece) :
    bare (op sign :: xs) = (op sign).token .start 0 :: bare xs := rfl

@[simp] theorem bare_cons_punct (mark : List Char) (xs : List Piece) :
    bare (punct mark :: xs) = (punct mark).token .start 0 :: bare xs := rfl

theorem exists_bare_listed (xs : List Piece) (xss : List (List Piece)) :
    ∃ tail, bare (listed (xs :: xss)) = bare xs ++ tail := by
  cases xss with
  | nil => exact ⟨[], (List.append_nil _).symm⟩
  | cons ys xss => exact ⟨_, bare_append xs _⟩

end Piece

/-! ## Reading the words again -/

namespace Condition

open Piece

/-- What stands behind a condition: no parenthesis that would make a call of its last name, and no
operator that binds more tightly than `power`. -/
def Behind (power : Nat) (rest : List Token) : Prop :=
  ∀ t ∈ rest.head?, t.isPunct "(" = false
    ∧ ∀ connective, Connective.ofToken? t = some connective → connective.power ≤ power

theorem behind_nil (power : Nat) : Behind power [] := by simp [Behind]

theorem Behind.mono {power power' : Nat} {rest : List Token} (h : Behind power rest)
    (hle : power ≤ power') : Behind power' rest := fun t ht =>
  ⟨(h t ht).1, fun connective hop => ((h t ht).2 connective hop).trans hle⟩

theorem behind_punct {mark : List Char} (h : (String.ofList mark == "(") = false) (power : Nat)
    (rest : List Token) : Behind power ((punct mark).token .start 0 :: rest) := by
  intro t ht
  obtain rfl := Option.some.inj ht
  exact ⟨h, fun connective hop => by cases hop⟩

/-- An operator that binds less tightly is left. -/
theorem extending_of_behind {power least : Nat} {rest : List Token} (h : Behind power rest)
    (hlt : power < least) (c : Condition) : extending least c rest = .ok (c, rest) :=
  extending_of_lt (fun t ht op hop => ((h t ht).2 op hop).trans_lt hlt) c

theorem ofToken?_sign (connective : Connective) :
    Connective.ofToken? ((op connective.sign.toList).token .start 0) = some connective := by
  cases connective with
  | or | and => decide
  | compare comparison => cases comparison <;> decide

theorem behind_sign (connective : Connective) (rest : List Token) :
    Behind connective.power ((op connective.sign.toList).token .start 0 :: rest) := by
  intro t ht
  obtain rfl := Option.some.inj ht
  refine ⟨rfl, fun connective' hop => ?_⟩
  rw [ofToken?_sign] at hop
  exact (congrArg Connective.power (Option.some.inj hop)).ge

/-- A condition begins with a name, a number or a negation. -/
theorem exists_first {c : Condition} (h : WellNamed c) :
    ∃ t ts, bare (pieces c) = t :: ts ∧ t.kind ≠ .punct := by
  induction h with
  | join connective _ _ ih _ =>
    obtain ⟨t, ts, hts, ht⟩ := ih
    exact ⟨t, _, by rw [pieces_join, bare_append, hts]; rfl, ht⟩
  | _ => exact ⟨_, _, by rw [pieces]; rfl, by simp⟩

theorem extending_punct (mark : List Char) (least : Nat) (c : Condition) (rest : List Token) :
    extending least c ((punct mark).token .start 0 :: rest)
      = .ok (c, (punct mark).token .start 0 :: rest) := by
  rw [extending_cons]
  rfl

/-- Arguments that are read back one by one are read back as a list. -/
theorem argumentList_listed {c : Condition} {cs : List Condition}
    (h : ∀ d ∈ c :: cs, ∀ rest, Behind d.power rest →
      reading 0 (bare (pieces d) ++ rest) = extending 0 d rest) (rest : List Token) :
    argumentList (bare (listed (piecesAll (c :: cs))) ++ (punct [')']).token .start 0 :: rest)
      = .ok (c :: cs, rest) := by
  induction cs generalizing c with
  | nil =>
    rw [argumentList_eq, piecesAll, piecesAll, listed,
      h c List.mem_cons_self _ (behind_punct rfl _ _), extending_punct]
    rfl
  | cons d ds ih =>
    obtain ⟨hc, hds⟩ := List.forall_mem_cons.1 h
    have hlist : bare (listed (piecesAll (c :: d :: ds)))
        = bare (pieces c) ++ (punct [',']).token .start 0
          :: bare (listed (piecesAll (d :: ds))) := by
      rw [piecesAll, piecesAll, listed, bare_append, bare_cons_punct, bare_cons_blank]
    rw [argumentList_eq, hlist, List.append_assoc, List.cons_append, hc _ (behind_punct rfl _ _),
      extending_punct, Outcome.andThen_ok, moreArguments, ih hds]
    rfl

/-- …and so are the arguments of a call, none included. -/
theorem callArguments_listed {args : List Condition} (hargs : ∀ c ∈ args, WellNamed c)
    (h : ∀ c ∈ args, ∀ rest, Behind c.power rest →
      reading 0 (bare (pieces c) ++ rest) = extending 0 c rest) (rest : List Token) :
    callArguments (bare (listed (piecesAll args)) ++ (punct [')']).token .start 0 :: rest)
      = .ok (args, rest) := by
  cases args with
  | nil =>
    rw [piecesAll, listed, bare_nil, List.nil_append, callArguments_cons]
    rfl
  | cons c cs =>
    have hlist := argumentList_listed h rest
    obtain ⟨t, ts, hts, ht⟩ := exists_first (hargs c List.mem_cons_self)
    obtain ⟨tail, htail⟩ := exists_bare_listed (pieces c) (piecesAll cs)
    have hclosing : t.isPunct ")" = false := by simp [Token.isPunct, ht]
    rw [piecesAll, htail, hts, List.cons_append, List.cons_append] at hlist ⊢
    rw [callArguments_cons, hclosing]
    exact hlist

theorem reading_of_operandOf {t : Token} {ts rest : List Token} {c : Condition}
    (h : operandOf t ts = .ok (c, rest)) (least : Nat) :
    reading least (t :: ts) = extending least c rest := by
  rw [reading_cons, h, Outcome.andThen_ok]

/-- A name that is not taken for `defined` is an operand, and a call if a parenthesis follows. -/
theorem operandOf_word {name : String} (hname : isIdentifier name = true)
    (hdefined : name ≠ "defined") (ts : List Token) :
    operandOf ((word name).token .start 0) ts
      = match ts with
        | [] => .ok (.ident name, [])
        | u :: rest =>
          if u.isPunct "(" then
            (callArguments rest).andThen fun args r => .ok (.apply name args, r)
          else .ok (.ident name, u :: rest) := by
  have hidentifier := isIdentifier_token_word hname .start 0
  rw [operandOf_eq]
  cases ts <;> simp [hidentifier, Token.isOp, Token.isPunct, hdefined]

/-- A condition in parentheses behind a negation. -/
theorem operandOf_not {c : Condition} {ts rest : List Token}
    (h : reading 0 ts = .ok (c, (punct [')']).token .start 0 :: rest)) :
    operandOf ((op ['!']).token .start 0) ((punct ['(']).token .start 0 :: ts)
      = .ok (.not c, rest) := by
  have hinner : operandOf ((punct ['(']).token .start 0) ts = .ok (c, rest) := by
    rw [operandOf_eq, if_neg (by decide), if_pos (by decide), h]
    rfl
  rw [operandOf_eq, if_pos (by decide), reading_of_operandOf hinner, extending_operandPower]
  rfl

theorem operandOf_defined {name : String} (hname : isIdentifier name = true) (rest : List Token) :
    operandOf ((word "defined").token .start 0)
        ((punct ['(']).token .start 0 :: (word name).token .start 0 :: (punct [')']).token .start 0
          :: rest)
      = .ok (.defined name, rest) := by
  have hidentifier := isIdentifier_token_word hname .start 0
  have hdefined : ((word "defined").token .start 0).isIdentifier = true := by decide
  rw [operandOf_eq]
  simp [hdefined, hidentifier, Token.isOp, Token.isPunct, definedOf, named, closed]

theorem operandOf_number {value : Int} (hnonneg : 0 ≤ value) (hlimit : value ≤ Numeral.limit)
    (rest : List Token) :
    operandOf ((number (toString value).toList).token .start 0) rest
      = .ok (.constant value, rest) := by
  obtain ⟨n, hn, hbounded⟩ := numeral_toString hnonneg hlimit
  have hliteral : Numeral.literal? (toString value) = some value.toNat := by
    rw [Numeral.literal?, hn]
    exact hbounded
  have hkind : ((number (toString value).toList).token .start 0).kind = .number := rfl
  rw [operandOf_eq, if_neg (by simp [Token.isOp]), if_neg (by simp [Token.isPunct]), if_pos hkind,
    value_token, number_text, String.ofList_toList, hliteral]
  simp [Int.toNat_of_nonneg hnonneg]

/-- **The words of a condition are read as that condition**, and reading goes on with what is
behind. -/
theorem reading_pieces {c : Condition} (h : WellNamed c) (hgrouped : Grouped c) {least : Nat}
    (hleast : least ≤ c.power) {rest : List Token} (hrest : Behind c.power rest) :
    reading least (bare (pieces c) ++ rest) = extending least c rest := by
  induction h generalizing least rest with
  | defined hname => exact reading_of_operandOf (operandOf_defined hname rest) least
  | not h ih =>
    have hoperand := ih hgrouped (Nat.zero_le _) (@behind_punct [')'] rfl _ rest)
    rw [extending_punct] at hoperand
    have hread := reading_of_operandOf (operandOf_not hoperand) least
    rwa [pieces, bare_cons_op, bare_cons_punct, bare_append, bare_cons_punct, bare_nil,
      List.cons_append, List.cons_append, List.append_assoc, List.singleton_append]
  | @join connective left right hleft hright ihleft ihright =>
    obtain ⟨hl, hr, hpl, hpr⟩ := (grouped_join ..).1 hgrouped
    rw [power_join] at hleast hrest
    have hright' :
        reading (connective.power + 1) (bare (pieces right) ++ rest) = .ok (right, rest) := by
      rw [ihright hr hpr (hrest.mono hpr.le)]
      exact extending_of_behind hrest (Nat.lt_succ_self _) right
    have hbehind := (behind_sign connective (bare (pieces right) ++ rest)).mono hpl
    rw [pieces_join, bare_append, List.append_assoc, bare_cons_blank, bare_cons_op, bare_cons_blank,
      List.cons_append, ihleft hl (hleast.trans hpl) hbehind, extending_cons, ofToken?_sign]
    dsimp only
    rw [if_pos hleast, hright', Outcome.andThen_ok]
  | @apply name args hname hdefined hargs ih =>
    have hcall :
        callArguments (bare (listed (piecesAll args)) ++ (punct [')']).token .start 0 :: rest)
        = .ok (args, rest) :=
      callArguments_listed hargs (fun c hc rest hrest =>
        ih c hc (groupedAll_iff.1 hgrouped c hc) (Nat.zero_le _) hrest) rest
    have hoperand : operandOf ((word name).token .start 0) ((punct ['(']).token .start 0
        :: (bare (listed (piecesAll args)) ++ (punct [')']).token .start 0 :: rest))
        = .ok (.apply name args, rest) := by
      rw [operandOf_word hname hdefined]
      dsimp only
      rw [if_pos (by decide), hcall]
      rfl
    rw [pieces, bare_cons_word, bare_cons_punct, bare_append, bare_cons_punct, bare_nil,
      List.cons_append, List.cons_append, List.append_assoc, List.singleton_append]
    exact reading_of_operandOf hoperand least
  | @ident name hname hdefined =>
    refine reading_of_operandOf ((operandOf_word hname hdefined rest).trans ?_) least
    cases rest with
    | nil => rfl
    | cons u rest =>
      obtain ⟨hparen, -⟩ := hrest u rfl
      simp only [hparen]
      rfl
  | constant hnonneg hlimit =>
    exact reading_of_operandOf (operandOf_number hnonneg hlimit rest) least

/-- **A condition that needs no parentheses is read from its own words.** -/
theorem parse_pieces {c : Condition} (h : WellNamed c) (hgrouped : Grouped c) :
    parse (bare (pieces c)) = .ok (c, []) := by
  have hread := reading_pieces h hgrouped (Nat.zero_le _) (behind_nil _)
  rw [List.append_nil, extending_nil] at hread
  exact hread

end Condition

end IncludeScan
