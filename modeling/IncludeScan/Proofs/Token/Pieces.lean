import IncludeScan.Proofs.Token.LineEnds
import Mathlib.Data.List.TakeWhile
import Mathlib.Data.Nat.Find
import Mathlib.Tactic.Simps.Basic

/-!
# Proofs/Token/Pieces — text that is written piece by piece

A *piece* is a token without a place: a kind, its characters and its keyword.  Pieces that are
*laid* in front of a text are cut apart exactly where they meet (`tokenize_flat`): each of them is
the longest lexeme where it begins, or is claimed by no rule up to the piece behind it.

Which characters may stand behind a piece is said by one lemma for each sort (`fits_word`,
`fits_number`, …), and mostly about the next character alone.
-/

namespace IncludeScan

/-- A token without a place. -/
structure Piece where
  kind : Kind
  text : List Char
  keyword : Option Keyword := none
deriving DecidableEq

namespace Piece

/-- The text of pieces. -/
def flat (xs : List Piece) : List Char := xs.flatMap text

@[simp] theorem flat_nil : flat [] = [] := rfl

@[simp] theorem flat_cons (x : Piece) (xs : List Piece) : flat (x :: xs) = x.text ++ flat xs := rfl

@[simp] theorem flat_append (xs ys : List Piece) : flat (xs ++ ys) = flat xs ++ flat ys :=
  List.flatMap_append

/-- The piece as a token at a place. -/
def token (p : Cursor) (offset : Nat) (x : Piece) : Token :=
  ⟨x.kind, String.ofList x.text, p, ⟨offset, offset + Text.unitCount x.text⟩, x.keyword⟩

@[simp] theorem kind_token (x : Piece) (p : Cursor) (offset : Nat) :
    (x.token p offset).kind = x.kind := rfl

@[simp] theorem value_token (x : Piece) (p : Cursor) (offset : Nat) :
    (x.token p offset).value = String.ofList x.text := rfl

/-- Pieces as tokens, one behind the other from a place on. -/
def place (p : Cursor) (offset : Nat) : List Piece → List Token
  | [] => []
  | x :: xs => x.token p offset :: place (p.advance x.text) (offset + Text.unitCount x.text) xs

theorem place_append (p : Cursor) (offset : Nat) (xs ys : List Piece) :
    place p offset (xs ++ ys)
      = place p offset xs ++ place (p.advance (flat xs))
        (offset + Text.unitCount (flat xs)) ys := by
  induction xs generalizing p offset with
  | nil => rfl
  | cons x xs ih =>
    simp only [List.cons_append, place, ih, flat_cons, Cursor.advance_append, Text.unitCount_append,
      Nat.add_assoc]

/-- **The piece is cut off a text that goes on with `rest`.** -/
inductive Fits (x : Piece) (rest : List Char) : Prop
  | lexeme {m : Lexeme} (hm : Longest (x.text ++ rest) 0 m) (hkind : m.kind = x.kind)
      (hlength : m.length = x.text.length) (hkeyword : m.keyword = x.keyword)
      (hfault : m.fault = none)
  | unclaimed (hu : Unclaimed (x.text ++ rest) 0 x.text.length) (hkind : x.kind = .word)
      (hkeyword : x.keyword = none)

/-- Pieces that are cut apart where they meet, in front of a text. -/
def Laid : List Piece → List Char → Prop
  | [], _ => True
  | x :: xs, rest => x.Fits (flat xs ++ rest) ∧ Laid xs rest

@[simp] theorem laid_nil (rest : List Char) : Laid [] rest := trivial

@[simp] theorem laid_cons {x : Piece} {xs : List Piece} {rest : List Char} :
    Laid (x :: xs) rest ↔ x.Fits (flat xs ++ rest) ∧ Laid xs rest := Iff.rfl

@[simp] theorem laid_append {xs ys : List Piece} {rest : List Char} :
    Laid (xs ++ ys) rest ↔ Laid xs (flat ys ++ rest) ∧ Laid ys rest := by
  induction xs with
  | nil => simp
  | cons x xs ih => simp [ih, and_assoc]

theorem Fits.text_ne_nil {x : Piece} {rest : List Char} (h : x.Fits rest) : x.text ≠ [] := by
  intro hnil
  cases h with
  | lexeme _ _ hlength => exact absurd (hlength ▸ Lexeme.length_pos _) (by simp [hnil])
  | unclaimed hu => exact absurd hu.lt (by simp [hnil])

theorem tokenAt_front (front : List Char) (x : Piece) (rest : List Char) :
    tokenAt (front ++ (x.text ++ rest)) x.kind x.keyword front.length (front.length + x.text.length)
      = x.token (cursorAt (front ++ (x.text ++ rest)) front.length) (Text.unitCount front) := by
  have htake :
      (front ++ (x.text ++ rest)).take (front.length + x.text.length) = front ++ x.text := by
    rw [take_behind, List.take_left]
  simp only [tokenAt, token, List.drop_left, List.take_left, Nat.add_sub_cancel_left, htake,
    Text.unitCount_append]

theorem cursorAt_front (front tail : List Char) :
    cursorAt (front ++ tail) front.length = Cursor.start.advance front := by
  rw [cursorAt, List.take_left]

/-- Behind any text in front of them, laid pieces are cut apart. -/
theorem cut_laid {xs : List Piece} (h : Laid xs []) (front : List Char) :
    ∃ eof, Cut (front ++ flat xs) front.length
      ⟨place (Cursor.start.advance front) (Text.unitCount front) xs, .ok eof⟩ := by
  induction xs generalizing front with
  | nil =>
    have hended := @Cut.ended (front ++ flat [])
    rw [flat_nil, List.append_nil] at hended ⊢
    exact ⟨_, hended⟩
  | cons x xs ih =>
    obtain ⟨hfits, hxs⟩ := laid_cons.1 h
    rw [List.append_nil] at hfits
    obtain ⟨eof, hcut⟩ := ih hxs (front ++ x.text)
    rw [List.append_assoc, List.length_append] at hcut
    have hp : front.length < (front ++ (x.text ++ flat xs)).length := by
      have := List.length_pos_iff.2 hfits.text_ne_nil
      simp only [List.length_append]
      omega
    have htoken := tokenAt_front front x (flat xs)
    rw [cursorAt_front] at htoken
    refine ⟨eof, ?_⟩
    rw [flat_cons, place, ← htoken, ← Cursor.advance_append, ← Text.unitCount_append]
    cases hfits with
    | lexeme hm hkind hlength hkeyword hfault =>
      have hm' := (@longest_behind front _ 0 _).2 hm
      rw [← hlength] at hcut
      rw [← hkind, ← hkeyword, ← hlength]
      exact .lexeme hp hm' hfault hcut
    | unclaimed hu hkind hkeyword =>
      rw [hkind, hkeyword]
      exact .word hu.behind hcut

/-- **Laid pieces are cut apart where they meet.** -/
theorem tokenize_flat {xs : List Piece} (h : Laid xs []) :
    (tokenize (String.ofList (flat xs))).tokens = place .start 0 xs
      ∧ ∃ eof, (tokenize (String.ofList (flat xs))).ending = .ok eof := by
  obtain ⟨eof, hcut⟩ := cut_laid h []
  have htokenize := cut_tokenize (String.ofList (flat xs))
  rw [String.toList_ofList] at htokenize
  rw [htokenize.unique hcut]
  exact ⟨rfl, eof, rfl⟩

/-! ## What may stand behind a piece -/

/-- The text does not go on with a character of the class. -/
def Stops (p : Char → Bool) (rest : List Char) : Prop := ∀ c ∈ rest.head?, p c = false

theorem stops_cons {p : Char → Bool} {c : Char} {cs : List Char} :
    Stops p (c :: cs) ↔ p c = false := by
  simp [Stops]

/-- A piece that begins with another character stops a run. -/
theorem stops_piece (x : Piece) {p : Char → Bool} {c : Char} {cs : List Char}
    (hx : x.text = c :: cs) (hc : p c = false) (rest : List Char) : Stops p (x.text ++ rest) := by
  rw [hx]
  exact stops_cons.2 hc

theorem takeWhile_append_of_stops {p : Char → Bool} {rest : List Char} (h : Stops p rest)
    (cs : List Char) : (cs ++ rest).takeWhile p = cs.takeWhile p := by
  cases rest with
  | nil => rw [List.append_nil]
  | cons c rest => exact takeWhile_append_stop (stops_cons.1 h) cs rest

theorem read?_append_of_stops {rest : List Char} (h : Stops isIdentPart rest) (cs : List Char) :
    Numeral.read? (cs ++ rest) = Numeral.read? cs := by
  cases rest with
  | nil => rw [List.append_nil]
  | cons c rest => exact Numeral.read?_append_stop (stops_cons.1 h) cs rest

/-- A lexeme that a rule finds is the longest if what any rule finds there is shorter or the
same. -/
theorem longest_of_sole {text : List Char} {rule : Rule} (hrule : rule ∈ rules) {m : Lexeme}
    (hm : rule text = some m)
    (hsole : ∀ rule' ∈ rules, ∀ m', rule' text = some m' → m'.length < m.length ∨ m' = m) :
    Longest text 0 m := by
  classical
  have hrank : ∃ rank, Matches text 0 rank m := by
    obtain ⟨rank, hrank⟩ := List.mem_iff_getElem?.1 hrule
    exact ⟨rank, rule, hrank, hm⟩
  refine ⟨Nat.find hrank, Nat.find_spec hrank, fun rank' m' hm' => ?_⟩
  obtain ⟨rule', hrank', hfound⟩ := hm'
  rcases hsole rule' (List.mem_of_getElem? hrank') m' hfound with hlt | rfl
  · exact Or.inl hlt
  · exact Or.inr ⟨rfl, Nat.find_min' hrank ⟨rule', hrank', hfound⟩⟩

/-- The characters at which several rules can find something. -/
def shared : List Char := '\\' :: '/' :: operatorSpellings.filterMap List.head?

/-- The rule that can find something at a character, where there is only one. -/
def soleRule (c : Char) : Rule :=
  if isIdentStart c then Rule.run .word isIdentStart isIdentPart
  else if c.isDigit then Rule.number
  else if Rule.isBlank c then Rule.run .whitespace Rule.isBlank Rule.isBlank
  else if c = '#' then Rule.directive
  else if c = '\n' then Rule.fixed .newline ['\n']
  else if c = '"' then Rule.string
  else Rule.fixed .punct [c]

theorem eq_soleRule {c : Char} (hc : c ∉ shared) {rule : Rule} (h : Rule.CanBegin c rule) :
    rule = soleRule c := by
  cases h with
  | word hword => simp [soleRule, hword]
  | number hdigit =>
    have hword : isIdentStart c = false := by
      rw [isDigit_iff] at hdigit
      rw [← Bool.not_eq_true, isIdentStart_iff]
      omega
    simp [soleRule, hword, hdigit]
  | blanks hblank =>
    have hword : isIdentStart c = false := by
      rw [Rule.isBlank_iff] at hblank
      rw [← Bool.not_eq_true, isIdentStart_iff]
      omega
    have hdigit : c.isDigit = false := by
      rw [Rule.isBlank_iff] at hblank
      rw [← Bool.not_eq_true, isDigit_iff]
      omega
    simp [soleRule, hword, hdigit, hblank]
  | @op spelling hop =>
    have hfirst : c ∈ operatorSpellings.filterMap List.head? := List.mem_filterMap.2 ⟨_, hop, rfl⟩
    exact absurd (List.mem_cons_of_mem _ (List.mem_cons_of_mem _ hfirst)) hc
  | @punct spelling hpunct =>
    have hone : ∀ mark ∈ punctSpellings, mark.length = 1 := by decide
    obtain rfl := List.length_eq_zero_iff.1 (Nat.succ.inj (hone _ hpunct))
    have hnone : ∀ mark ∈ punctSpellings, ∀ d ∈ mark, isIdentStart d = false ∧ d.isDigit = false
        ∧ Rule.isBlank d = false ∧ d ≠ '#' ∧ d ≠ '\n' ∧ d ≠ '"' := by decide
    obtain ⟨hword, hdigit, hblank, hhash, hline, hquote⟩ := hnone _ hpunct c List.mem_cons_self
    simp [soleRule, hword, hdigit, hblank, hhash, hline, hquote]
  | continuation hslash | looseBackslash hslash | lineComment hslash | blockComment hslash =>
    subst hslash
    exact absurd hc (by decide)
  | directive hfirst | newline hfirst | string hfirst =>
    subst hfirst
    rfl

/-- A piece that a rule finds fits, where no other rule can find anything. -/
theorem fits_of_rule (rule : Rule) (hrule : rule ∈ rules) {x : Piece} {c : Char}
    {cs rest : List Char} (hx : x.text = c :: cs) (hc : c ∉ shared) {m : Lexeme}
    (hm : rule (c :: (cs ++ rest)) = some m) (hkind : m.kind = x.kind)
    (hlength : m.length = x.text.length) (hkeyword : m.keyword = x.keyword)
    (hfault : m.fault = none) :
    x.Fits rest := by
  have hsole {rule' : Rule} {m' : Lexeme} (hrule' : rule' ∈ rules)
      (hm' : rule' (c :: (cs ++ rest)) = some m') : rule' = soleRule c :=
    eq_soleRule hc (Rule.canBegin_of_mem hrule' hm')
  have htext : x.text ++ rest = c :: (cs ++ rest) := by rw [hx, List.cons_append]
  refine .lexeme (longest_of_sole hrule (htext ▸ hm) fun rule' hrule' m' hm' => Or.inr ?_) hkind
    hlength hkeyword hfault
  rw [htext] at hm'
  obtain rfl := (hsole hrule' hm').trans (hsole hrule hm).symm
  exact Option.some.inj (hm'.symm.trans hm)

/-! ## The sorts of pieces -/

/-- A word. -/
@[simps] def word (name : String) : Piece := ⟨.word, name.toList, none⟩

/-- A numeral. -/
@[simps] def number (digits : List Char) : Piece := ⟨.number, digits, none⟩

/-- An operator. -/
@[simps] def op (sign : List Char) : Piece := ⟨.op, sign, none⟩

/-- A punctuation mark. -/
@[simps] def punct (mark : List Char) : Piece := ⟨.punct, mark, none⟩

/-- One blank. -/
@[simps] def blank : Piece := ⟨.whitespace, [' '], none⟩

/-- A line end. -/
@[simps] def lineEnd : Piece := ⟨.newline, ['\n'], none⟩

/-- A directive. -/
@[simps] def directive (k : Keyword) : Piece := ⟨.directive, '#' :: k.spelling.toList, some k⟩

/-- A path in quotes. -/
@[simps] def quoted (path : List Char) : Piece := ⟨.string, '"' :: (path ++ ['"']), none⟩

theorem isIdentifier_token_word {name : String} (h : isIdentifier name = true) (p : Cursor)
    (offset : Nat) : ((word name).token p offset).isIdentifier = true := by
  simp [Token.isIdentifier, h]

theorem exists_identifier {name : String} (h : isIdentifier name = true) :
    ∃ c cs, name.toList = c :: cs ∧ isIdentStart c = true ∧ ∀ d ∈ cs, isIdentPart d = true := by
  unfold isIdentifier at h
  split at h
  · cases h
  · rename_i c cs hname
    simp only [Bool.and_eq_true, List.all_eq_true] at h
    exact ⟨c, cs, hname, h.1, h.2⟩

theorem isIdentStart_notMem_shared {c : Char} (h : isIdentStart c = true) : c ∉ shared := by
  intro hc
  have hnone : ∀ d ∈ shared, isIdentStart d = false := by decide
  exact absurd (h.symm.trans (hnone c hc)) (by simp)

theorem isDigit_notMem_shared {c : Char} (h : c.isDigit = true) : c ∉ shared := by
  intro hc
  have hnone : ∀ d ∈ shared, d.isDigit = false := by decide
  exact absurd (h.symm.trans (hnone c hc)) (by simp)

/-- An identifier ends where no further character can belong to it. -/
theorem fits_word {name : String} (h : isIdentifier name = true) {rest : List Char}
    (hrest : Stops isIdentPart rest) : (word name).Fits rest := by
  obtain ⟨c, cs, hname, hc, hcs⟩ := exists_identifier h
  have htake : (cs ++ rest).takeWhile isIdentPart = cs := by
    rw [takeWhile_append_of_stops hrest, List.takeWhile_eq_self_iff.2 hcs]
  refine fits_of_rule (Rule.run .word isIdentStart isIdentPart) (by simp [rules]) hname
    (isIdentStart_notMem_shared hc) (if_pos hc) rfl ?_ rfl rfl
  simp only [htake, word, hname, List.length_cons]
  omega

theorem exists_number {cs : List Char} {n : Numeral} (h : Numeral.read? cs = some n) :
    ∃ m, Rule.number cs = some m ∧ m.kind = .number ∧ m.length = n.spelling.length
      ∧ m.keyword = none ∧ m.fault = none := by
  unfold Rule.number
  split
  · rename_i n' hn'
    obtain rfl := Option.some.inj (hn'.symm.trans h)
    exact ⟨_, rfl, rfl, rfl, rfl, rfl⟩
  · rename_i hnone
    exact absurd (hnone.symm.trans h) (by simp)

/-- A numeral that is read in front of a text. -/
theorem fits_number {n : Numeral} {rest : List Char}
    (h : Numeral.read? (n.spelling ++ rest) = some n) : (number n.spelling).Fits rest := by
  cases hn : n.spelling with
  | nil => exact absurd (Numeral.length_spelling_pos h) (by simp [hn])
  | cons c cs =>
    rw [hn, List.cons_append] at h
    obtain ⟨m, hm, hmk, hml, hmw, hmf⟩ := exists_number h
    have hdigit := Rule.beginsWith_number.of_match hm
    exact fits_of_rule Rule.number (by simp [rules]) rfl (isDigit_notMem_shared hdigit) hm hmk
      (hml.trans (by rw [hn]; rfl)) hmw hmf

/-- A text that is one numeral ends where no further character can belong to it. -/
theorem fits_numeral {digits : List Char} {n : Numeral} (h : Numeral.ofText? digits = some n)
    {rest : List Char} (hrest : Stops isIdentPart rest) : (number digits).Fits rest := by
  obtain ⟨hread, rfl⟩ := Numeral.ofText?_eq_some_iff.1 h
  exact fits_number (by rw [read?_append_of_stops hrest, hread])

theorem exists_digit {digits : List Char} {n : Numeral} (h : Numeral.ofText? digits = some n) :
    ∃ c cs, digits = c :: cs ∧ c.isDigit = true := by
  obtain ⟨hread, -⟩ := Numeral.ofText?_eq_some_iff.1 h
  obtain ⟨m, hm, -⟩ := exists_number hread
  cases digits with
  | nil => cases hread
  | cons c cs => exact ⟨c, cs, rfl, Rule.beginsWith_number.of_match hm⟩

theorem isBlank_eq_false {c : Char} (h : isIdentPart c = true) : Rule.isBlank c = false := by
  rw [isIdentPart_iff] at h
  rw [← Bool.not_eq_true, Rule.isBlank_iff]
  omega

theorem stops_isBlank_word {name : String} (h : isIdentifier name = true) (rest : List Char) :
    Stops Rule.isBlank ((word name).text ++ rest) := by
  obtain ⟨c, cs, hname, hc, -⟩ := exists_identifier h
  exact stops_piece (word name) hname (isBlank_eq_false (isIdentPart_of_start hc)) rest

theorem stops_isBlank_numeral {digits : List Char} {n : Numeral}
    (h : Numeral.ofText? digits = some n) (rest : List Char) :
    Stops Rule.isBlank ((number digits).text ++ rest) := by
  obtain ⟨c, cs, rfl, hc⟩ := exists_digit h
  exact stops_piece (number (c :: cs)) rfl
    (isBlank_eq_false (@Base.isIdentPart_of_isDigit .decimal c hc)) rest

theorem fits_blank {rest : List Char} (hrest : Stops Rule.isBlank rest) : blank.Fits rest := by
  have htake : ([] ++ rest).takeWhile Rule.isBlank = [] := takeWhile_append_of_stops hrest []
  refine fits_of_rule (Rule.run .whitespace Rule.isBlank Rule.isBlank) (by simp [rules]) rfl
    (by decide)
    rfl rfl ?_ rfl rfl
  simp only [htake]
  rfl

theorem fits_lineEnd (rest : List Char) : lineEnd.Fits rest :=
  fits_of_rule (Rule.fixed .newline ['\n']) (by simp [rules]) rfl (by decide) rfl rfl rfl rfl rfl

theorem isIdentPart_of_mem_spelling (k : Keyword) :
    ∀ c ∈ k.spelling.toList, isIdentPart c = true := by
  cases k <;> decide

/-- A keyword that ends a word is found as a directive behind a hash and blanks. -/
theorem directive_append (k : Keyword) {blanks rest : List Char}
    (hblanks : ∀ c ∈ blanks, Rule.isBlank c = true) (hrest : Stops isIdentPart rest) :
    Rule.directive ('#' :: (blanks ++ (k.spelling.toList ++ rest)))
      = some ⟨.directive, 1 + blanks.length + k.spelling.toList.length,
        by omega, some k, none⟩ := by
  have hstop : Stops Rule.isBlank (k.spelling.toList ++ rest) := by
    cases k <;> exact stops_cons.2 rfl
  have hblank : (blanks ++ (k.spelling.toList ++ rest)).takeWhile Rule.isBlank = blanks := by
    rw [takeWhile_append_of_stops hstop, List.takeWhile_eq_self_iff.2 hblanks]
  have hbehind : (blanks ++ (k.spelling.toList ++ rest)).dropWhile Rule.isBlank
      = k.spelling.toList ++ rest := by
    rw [List.dropWhile_append_of_pos hblanks]
    cases k <;> rfl
  have htake : (k.spelling.toList ++ rest).takeWhile isIdentPart = k.spelling.toList := by
    rw [takeWhile_append_of_stops hrest,
      List.takeWhile_eq_self_iff.2 (isIdentPart_of_mem_spelling k)]
  have hkeyword : Keyword.ofString? (String.ofList k.spelling.toList) = some k := by
    rw [String.ofList_toList]
    exact Keyword.ofString?_eq_some_iff.2 rfl
  simp only [Rule.directive, hblank, hbehind, htake, hkeyword]

/-- A directive ends where its keyword does. -/
theorem fits_directive (k : Keyword) {rest : List Char} (hrest : Stops isIdentPart rest) :
    (directive k).Fits rest := by
  have hm := directive_append k (List.forall_mem_nil _) hrest
  refine fits_of_rule Rule.directive (by simp [rules]) rfl (by decide) hm rfl ?_ rfl rfl
  simp only [directive, List.length_nil, List.length_cons]
  omega

theorem fixed_append (kind : Kind) {c : Char} {cs rest : List Char} :
    Rule.fixed kind (c :: cs) (c :: (cs ++ rest))
      = some ⟨kind, (c :: cs).length, by simp, none, none⟩ := by
  have hfront : (c :: cs).isPrefixOf (c :: (cs ++ rest)) = true := by
    rw [List.isPrefixOf_iff_prefix]
    exact List.prefix_append (c :: cs) rest
  simp [Rule.fixed, hfront]

/-- A punctuation mark is cut off any text. -/
theorem fits_punct {mark : List Char} (h : mark ∈ punctSpellings) (rest : List Char) :
    (punct mark).Fits rest := by
  have hmarks : ∀ mark ∈ punctSpellings, mark ≠ [] ∧ ∀ c ∈ mark, c ∉ shared := by decide
  obtain ⟨hne, hshared⟩ := hmarks mark h
  obtain ⟨c, cs, rfl⟩ := List.exists_cons_of_ne_nil hne
  exact fits_of_rule (Rule.fixed .punct (c :: cs))
    (List.mem_append_right _ (List.mem_map_of_mem h)) rfl (hshared c List.mem_cons_self)
    (fixed_append .punct) rfl rfl rfl rfl

/-- An operator that goes on another one goes on with an equals sign. -/
theorem operator_extends : ∀ sign ∈ operatorSpellings, ∀ other ∈ operatorSpellings,
    other.head? = sign.head? → other.length ≤ sign.length ∨ other = sign ++ ['='] := by
  decide

/-- At a character that an operator begins with, only operators are found. -/
theorem eq_fixed_of_canBegin {c : Char} {cs : List Char} (h : c :: cs ∈ operatorSpellings)
    {rule : Rule} (hrule : Rule.CanBegin c rule) :
    ∃ ds, c :: ds ∈ operatorSpellings ∧ rule = Rule.fixed .op (c :: ds) := by
  have hfirst : ∀ sign ∈ operatorSpellings, ∀ c ∈ sign.head?, isIdentStart c = false
      ∧ c.isDigit = false ∧ Rule.isBlank c = false ∧ c ∉ ['#', '\n', '\\', '/', '"']
      ∧ ∀ mark ∈ punctSpellings, mark.head? ≠ some c := by decide
  obtain ⟨hword, hdigit, hblank, hspecial, hpunct⟩ := hfirst _ h c rfl
  cases hrule with
  | op hop => exact ⟨_, hop, rfl⟩
  | punct hp => exact absurd rfl (hpunct _ hp)
  | word hc => exact absurd (hc.symm.trans hword) (by simp)
  | number hc => exact absurd (hc.symm.trans hdigit) (by simp)
  | blanks hc => exact absurd (hc.symm.trans hblank) (by simp)
  | _ hc => exact absurd (by rw [hc]; decide) hspecial

/-- An operator is cut off a text that does not go on with an equals sign. -/
theorem fits_op {sign : List Char} (h : sign ∈ operatorSpellings) {rest : List Char}
    (hrest : Stops (· == '=') rest) : (op sign).Fits rest := by
  have hne : ∀ sign ∈ operatorSpellings, sign ≠ [] := by decide
  obtain ⟨c, cs, rfl⟩ := List.exists_cons_of_ne_nil (hne sign h)
  refine .lexeme (longest_of_sole (List.mem_append_left _ (List.mem_append_right _
    (List.mem_map_of_mem h))) (fixed_append .op) fun rule hrule m hm => ?_) rfl rfl rfl rfl
  obtain ⟨ds, hds, rfl⟩ := eq_fixed_of_canBegin h (Rule.canBegin_of_mem hrule hm)
  unfold Rule.fixed at hm
  split at hm
  · rename_i hfound
    obtain rfl := Option.some.inj hm
    rcases operator_extends _ h _ hds rfl with hle | hlonger
    · rcases Nat.lt_or_eq_of_le hle with hlt | heq
      · exact Or.inl hlt
      · exact Or.inr (by simp [heq])
    · -- the longer operator would take an equals sign of the rest
      have hfront := List.isPrefixOf_iff_prefix.1 hfound.2
      rw [hlonger] at hfront
      obtain ⟨tail, rfl⟩ := (List.prefix_append_right_inj (c :: cs)).1 hfront
      exact absurd (stops_cons.1 hrest) (by simp)
  · cases hm

theorem stops_isBlank_fixed {spelling : List Char}
    (h : spelling ∈ operatorSpellings ++ punctSpellings) (rest : List Char) :
    Stops Rule.isBlank (spelling ++ rest) := by
  have hfirst :
      ∀ s ∈ operatorSpellings ++ punctSpellings, s ≠ [] ∧ ∀ c ∈ s, Rule.isBlank c = false := by
    decide
  obtain ⟨hne, hblank⟩ := hfirst spelling h
  obtain ⟨c, cs, rfl⟩ := List.exists_cons_of_ne_nil hne
  exact stops_cons.2 (hblank c List.mem_cons_self)

/-- What stands between the quotes of a string; a backslash takes the character behind it along. -/
inductive StringBody : List Char → Prop
  | nil : StringBody []
  | plain {c : Char} {cs : List Char} (hquote : c ≠ '"') (hslash : c ≠ '\\') (hline : c ≠ '\n')
      (rest : StringBody cs) : StringBody (c :: cs)
  | escaped {c : Char} {cs : List Char} (hc : Rule.isLineEnd c = false) (rest : StringBody cs) :
      StringBody ('\\' :: c :: cs)

theorem stringBody_of_forall {body : List Char} (h : ∀ c ∈ body, c ≠ '"' ∧ c ≠ '\\' ∧ c ≠ '\n') :
    StringBody body := by
  induction body with
  | nil => exact .nil
  | cons c body ih =>
    obtain ⟨⟨hquote, hslash, hline⟩, hbody⟩ := List.forall_mem_cons.1 h
    exact .plain hquote hslash hline (ih hbody)

theorem StringBody.stringEnd?_append {body : List Char} (h : StringBody body) (rest : List Char) :
    Rule.stringEnd? (body ++ '"' :: rest) = some (body.length + 1) := by
  induction h with
  | nil => rfl
  | plain hquote hslash hline _ ih =>
    rw [List.cons_append, Rule.stringEnd?_cons hquote hslash hline, ih]
    rfl
  | escaped hc _ ih =>
    rw [List.cons_append, List.cons_append, Rule.stringEnd?, if_neg (by simp [hc]), ih]
    rfl

/-- A string is cut off any text. -/
theorem StringBody.fits {body : List Char} (h : StringBody body) (rest : List Char) :
    (quoted body).Fits rest := by
  have hm : Rule.string ('"' :: (body ++ ['"'] ++ rest))
      = some ⟨.string, 1 + (body.length + 1), by omega, none, none⟩ := by
    rw [List.append_assoc]
    simp only [Rule.string, List.singleton_append, h.stringEnd?_append rest]
  refine fits_of_rule Rule.string (by simp [rules]) rfl (by decide) hm rfl ?_ rfl rfl
  simp only [quoted, List.length_cons, List.length_append, List.length_nil]
  omega

/-- A path in quotes is cut off any text. -/
theorem fits_quoted {path : List Char} (h : ∀ c ∈ path, c ≠ '"' ∧ c ≠ '\\' ∧ c ≠ '\n')
    (rest : List Char) : (quoted path).Fits rest :=
  (stringBody_of_forall h).fits rest

/-! ## Paths -/

/-- The characters of paths that no rule begins with, unless a slash begins a comment. -/
def fillers : List Char := ['.', '+', '-', '/']

/-- The text begins no comment. -/
def noComment : List Char → Bool
  | '/' :: '/' :: _ => false
  | '/' :: '*' :: _ => false
  | _ => true

theorem eq_none_of_mem_fillers {c : Char} (hc : c ∈ fillers) {cs : List Char}
    (hcomment : noComment (c :: cs) = true) {rule : Rule} (hrule : rule ∈ rules) :
    rule (c :: cs) = none := by
  have hnone : ∀ d ∈ fillers, isIdentStart d = false ∧ d.isDigit = false ∧ Rule.isBlank d = false
      ∧ d ∉ ['#', '\n', '\\', '"'] ∧ ∀ spelling ∈ operatorSpellings ++ punctSpellings,
        spelling.head? ≠ some d := by decide
  obtain ⟨hword, hdigit, hblank, hspecial, hspelling⟩ := hnone c hc
  cases hm : rule (c :: cs) with
  | none => rfl
  | some m =>
    cases Rule.canBegin_of_mem hrule hm with
    | op hop => exact absurd rfl (hspelling _ (List.mem_append_left _ hop))
    | punct hp => exact absurd rfl (hspelling _ (List.mem_append_right _ hp))
    | word h => exact absurd (h.symm.trans hword) (by simp)
    | number h => exact absurd (h.symm.trans hdigit) (by simp)
    | blanks h => exact absurd (h.symm.trans hblank) (by simp)
    | lineComment =>
      unfold Rule.lineComment at hm
      split at hm
      · simp_all [noComment]
      · cases hm
    | blockComment =>
      unfold Rule.blockComment at hm
      split at hm
      · simp_all [noComment]
      · cases hm
    | _ h => exact absurd (by rw [h]; decide) hspecial

/-- Characters that no rule claims, up to a place where one finds something, are a word. -/
theorem fits_fillers {cs rest : List Char} (hne : cs ≠ []) (hcs : ∀ c ∈ cs, c ∈ fillers)
    (hcomment : ∀ i < cs.length, noComment ((cs ++ rest).drop i) = true) {rule : Rule}
    (hrule : rule ∈ rules) {m : Lexeme} (hrest : rule rest = some m) :
    (Piece.mk .word cs none).Fits rest := by
  refine .unclaimed ⟨List.length_pos_iff.2 hne, by simp, fun i _ hi rank m hm => ?_, Or.inr ?_⟩ rfl
    rfl
  · obtain ⟨rule', hrank, hfound⟩ := hm
    have hdrop : (cs ++ rest).drop i = cs[i] :: (cs.drop (i + 1) ++ rest) := by
      rw [List.drop_append_of_le_length hi.le, List.drop_eq_getElem_cons hi, List.cons_append]
    have hnone := eq_none_of_mem_fillers (hcs _ (List.getElem_mem hi)) (hdrop ▸ hcomment i hi)
      (List.mem_of_getElem? hrank)
    rw [hdrop, hnone] at hfound
    cases hfound
  · obtain ⟨rank, hrank⟩ := List.mem_iff_getElem?.1 hrule
    exact ⟨rank, m, rule, hrank, by rw [List.drop_left]; exact hrest⟩

/-- A character of a path in angle brackets. -/
def isPathChar (c : Char) : Bool := isIdentPart c || c ∈ fillers

theorem noComment_path {path : List Char} (hpath : ∀ c ∈ path, isPathChar c = true)
    (hslash : ¬ ['/', '/'] <:+: path) (tail : List Char) {i : Nat} (hi : i < path.length) :
    noComment ((path ++ '>' :: tail).drop i) = true := by
  rw [List.drop_append_of_le_length hi.le, List.drop_eq_getElem_cons hi]
  cases hds : path.drop (i + 1) with
  | nil => simp [noComment]
  | cons d ds =>
    have hd : d ∈ path := List.mem_of_mem_drop (hds ▸ List.mem_cons_self)
    have hstar : d ≠ '*' := by
      rintro rfl
      exact absurd (hpath _ hd) (by decide)
    have hpair : [path[i], d] <:+: path := by
      refine ⟨path.take i, ds, ?_⟩
      rw [List.append_assoc, List.cons_append, List.singleton_append, ← hds,
        ← List.drop_eq_getElem_cons hi, List.take_append_drop]
    have hboth : path[i] = '/' → d ≠ '/' := by
      rintro hfirst rfl
      rw [hfirst] at hpair
      exact hslash hpair
    unfold noComment
    split <;> simp_all

theorem stops_dropWhile {p : Char → Bool} {rest : List Char} (h : Stops p rest) (cs : List Char) :
    Stops p (cs.dropWhile p ++ rest) := by
  cases hcs : cs.dropWhile p with
  | nil => exact h
  | cons c ds =>
    have hc := List.head?_dropWhile_not p cs
    rw [hcs] at hc
    exact stops_cons.2 (by simpa using hc)

theorem exists_read?_of_isDigit {c : Char} (h : c.isDigit = true) (cs : List Char) :
    ∃ n, Numeral.read? (c :: cs) = some n := by
  by_cases hc : c = '0'
  · subst hc
    cases cs with
    | nil => exact ⟨_, rfl⟩
    | cons d cs =>
      rw [Numeral.read?]
      split
      · exact ⟨_, rfl⟩
      · split <;> exact ⟨_, rfl⟩
  · exact ⟨_, (Numeral.read?_cons_of_ne_zero hc cs).trans (if_pos h)⟩

/-- Behind the characters of a path that no rule begins with, a rule finds something. -/
theorem exists_rule_behind_fillers {path : List Char} (hpath : ∀ c ∈ path, isPathChar c = true)
    (tail : List Char) :
    ∃ rule ∈ rules, ∃ m, rule (path.dropWhile (· ∈ fillers) ++ '>' :: tail) = some m := by
  cases hrest : path.dropWhile (· ∈ fillers) with
  | nil => exact ⟨Rule.fixed .op ['>'], by simp [rules, operatorSpellings], _, fixed_append .op⟩
  | cons c cs =>
    have hc : c ∉ fillers := by
      have hnot := List.head?_dropWhile_not (· ∈ fillers) path
      rw [hrest] at hnot
      simpa using hnot
    have hpart : isIdentPart c = true := by
      have hmem : c ∈ path := (List.dropWhile_sublist _).subset (hrest ▸ List.mem_cons_self)
      simpa [isPathChar, hc] using hpath c hmem
    by_cases hdigit : c.isDigit = true
    · obtain ⟨n, hn⟩ := exists_read?_of_isDigit hdigit (cs ++ '>' :: tail)
      obtain ⟨m, hm, -⟩ := exists_number hn
      exact ⟨Rule.number, by simp [rules], m, hm⟩
    · have hword : isIdentStart c = true := by
        rw [isIdentPart_iff] at hpart
        rw [isDigit_iff] at hdigit
        rw [isIdentStart_iff]
        omega
      exact ⟨Rule.run .word isIdentStart isIdentPart, by simp [rules], _, if_pos hword⟩

/-- The first piece of a path. -/
theorem exists_piece_path {c : Char} {cs : List Char} (hpath : ∀ d ∈ c :: cs, isPathChar d = true)
    (hslash : ¬ ['/', '/'] <:+: c :: cs) :
    ∃ (x : Piece) (ds : List Char), x.text ++ ds = c :: cs ∧ (∀ tail, x.Fits (ds ++ '>' :: tail))
      ∧ (x.kind = .word ∨ x.kind = .number) := by
  have hangle (tail : List Char) : Stops isIdentPart ('>' :: tail) := stops_cons.2 (by decide)
  by_cases hword : isIdentStart c = true
  · refine ⟨word (String.ofList (c :: cs.takeWhile isIdentPart)), cs.dropWhile isIdentPart, ?_,
      fun tail => ?_, Or.inl rfl⟩
    · simp [word]
    · refine fits_word ?_ (stops_dropWhile (hangle tail) cs)
      simp [isIdentifier, hword]
  · by_cases hdigit : c.isDigit = true
    · obtain ⟨n, hn⟩ := exists_read?_of_isDigit hdigit cs
      obtain ⟨ds, hds⟩ := Numeral.exists_append hn
      refine ⟨number n.spelling, ds, hds.symm, fun tail => fits_number ?_, Or.inr rfl⟩
      rw [← List.append_assoc, ← hds, read?_append_of_stops (hangle tail), hn]
    · have hc : c ∈ fillers := by
        have hpart : isIdentPart c = false := by
          rw [← Bool.not_eq_true, isIdentPart_iff]
          rw [isIdentStart_iff] at hword
          rw [isDigit_iff] at hdigit
          omega
        simpa [isPathChar, hpart] using hpath c List.mem_cons_self
      refine ⟨⟨.word, (c :: cs).takeWhile (· ∈ fillers), none⟩, (c :: cs).dropWhile (· ∈ fillers),
        List.takeWhile_append_dropWhile, fun tail => ?_, Or.inl rfl⟩
      obtain ⟨rule, hrule, m, hm⟩ := exists_rule_behind_fillers hpath tail
      refine fits_fillers ?_ ?_ ?_ hrule hm
      · simp [hc]
      · exact fun d hd => by simpa using List.mem_takeWhile_imp hd
      · intro i hi
        rw [← List.append_assoc, List.takeWhile_append_dropWhile]
        exact noComment_path hpath hslash tail (hi.trans_le (List.takeWhile_sublist _).length_le)

/-- **A path in angle brackets is cut into words and numbers.** -/
theorem exists_pieces_path {path : List Char} (hpath : ∀ c ∈ path, isPathChar c = true)
    (hslash : ¬ ['/', '/'] <:+: path) :
    ∃ xs, flat xs = path ∧ (∀ tail, Laid xs ('>' :: tail))
      ∧ ∀ x ∈ xs, x.kind = .word ∨ x.kind = .number := by
  induction hn : path.length using Nat.strong_induction_on generalizing path with
  | _ n ih =>
    cases path with
    | nil => exact ⟨[], rfl, fun tail => laid_nil _, by simp⟩
    | cons c cs =>
      obtain ⟨x, ds, hds, hfits, hkind⟩ := exists_piece_path hpath hslash
      have hlt : ds.length < n := by
        have hx := List.length_pos_iff.2 (hfits []).text_ne_nil
        rw [← hn, ← hds, List.length_append]
        omega
      obtain ⟨xs, rfl, hlaid, hkinds⟩ := ih ds.length hlt
        (fun d hd => hpath d (hds ▸ List.mem_append_right _ hd))
        (fun hpair => hslash (hpair.trans (hds ▸ (List.suffix_append x.text ds).isInfix))) rfl
      exact ⟨x :: xs, hds, fun tail => ⟨hfits tail, hlaid tail⟩,
        List.forall_mem_cons.2 ⟨hkind, hkinds⟩⟩

end Piece

end IncludeScan
