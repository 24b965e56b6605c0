import IncludeScan.Proofs.Outline.Lines
import IncludeScan.Proofs.Token.Run

/-!
# Proofs/Directive/Parameters — the parameter list of a macro

The reader of a parameter list goes from token to token and keeps in mind where it is.  What it
accepts can be said without it: parameters with commas between them, or nothing, and then a closing
parenthesis (`Line.ParameterList`).  Whatever stands behind an opening parenthesis begins with as
many such parameters as possible (`exists_longest_separated`), and what comes next decides: it
closes the list, or it is one of four mistakes (`Line.Misread`).

`Line.readDefine_grammar` — what a definition is, with parameters and without.
-/

namespace IncludeScan.Line

/-! ## The grammar -/

/-- **Parameters with commas between them**, and their names. -/
inductive Separated : List Token → List String → Prop
  | one {t : Token} (ht : t.isIdentifier = true ∨ t.value = "...") : Separated [t] [t.value]
  | more {t comma : Token} {ts : List Token} {names : List String}
      (ht : t.isIdentifier = true ∨ t.value = "...") (hcomma : comma.isPunct "," = true)
      (hts : Separated ts names) : Separated (t :: comma :: ts) (t.value :: names)

/-- **A parameter list**: no parameters, or some with commas between them. -/
def ParameterList (ts : List Token) (names : List String) : Prop :=
  (ts = [] ∧ names = []) ∨ Separated ts names

/-- A parameter has to come next: behind the opening parenthesis, or behind a comma. -/
def Awaits (ts : List Token) : Prop :=
  ts = [] ∨ ∃ front names comma, ts = front ++ [comma] ∧ Separated front names
    ∧ comma.isPunct "," = true

/-- **What is wrong behind an opening parenthesis**: the line ends too early, or a token is out of
place, and the first such token is named. -/
inductive Misread (name : String) (opening : Token) : List Token → Complaint → Prop
  | unclosed {ts : List Token} (h : Awaits ts ∨ ∃ names, Separated ts names) :
      Misread name opening ts ⟨.openParameters name, opening⟩
  | closedBehindComma {front rest : List Token} {names : List String} {comma closing : Token}
      (hfront : Separated front names) (hcomma : comma.isPunct "," = true)
      (hclosing : closing.isPunct ")" = true) :
      Misread name opening (front ++ comma :: closing :: rest)
        ⟨.noParameterAfterComma name, closing⟩
  | badParameter {front rest : List Token} {t : Token} (hfront : Awaits front)
      (ht : ¬ (t.isIdentifier = true ∨ t.value = "...")) (hopen : t.isPunct ")" = false) :
      Misread name opening (front ++ t :: rest) ⟨.badParameter name t.value, t⟩
  | badSeparator {front rest : List Token} {names : List String} {t : Token}
      (hfront : Separated front names)
      (ht : t.isPunct "," = false) (hopen : t.isPunct ")" = false) :
      Misread name opening (front ++ t :: rest) ⟨.badSeparator name t.value, t⟩

theorem isParameter_iff {t : Token} :
    isParameter t = true ↔ t.isIdentifier = true ∨ t.value = "..." := by
  rw [isParameter, Bool.or_eq_true, beq_iff_eq]

/-- No punctuation mark is a parameter. -/
theorem isPunct_eq_false {t : Token} (h : t.isIdentifier = true ∨ t.value = "...") {mark : String}
    (hmark : mark ≠ "...") : t.isPunct mark = false := by
  rw [Token.isPunct, Bool.and_eq_false_iff]
  rcases h with h | h
  · have hkind : t.kind = .word := by simpa using (Bool.and_eq_true_iff.1 h).1
    exact Or.inl (by rw [hkind]; rfl)
  · exact Or.inr (by rw [h, beq_eq_false_iff_ne]; exact hmark.symm)

theorem isPunct_comma_closing {t : Token} (h : t.isPunct "," = true) : t.isPunct ")" = false := by
  simp only [Token.isPunct, Bool.and_eq_true, beq_iff_eq] at h
  simp [Token.isPunct, h.2]

/-- **Nothing in a parameter list closes it.** -/
theorem ParameterList.isPunct_closing {ts : List Token} {names : List String}
    (h : ParameterList ts names) :
    ∀ t ∈ ts, t.isPunct ")" = false := by
  rcases h with ⟨rfl, -⟩ | h
  · exact fun t ht => absurd ht List.not_mem_nil
  · induction h with
    | one ht => simpa using isPunct_eq_false ht (by decide)
    | more ht hcomma _ ih =>
      exact List.forall_mem_cons.2 ⟨isPunct_eq_false ht (by decide),
        List.forall_mem_cons.2 ⟨isPunct_comma_closing hcomma, ih⟩⟩

/-! ## Reading what the grammar has -/

section

variable {name : String} {opening : Token}

theorem readParameters_parameter {t : Token} (ht : t.isIdentifier = true ∨ t.value = "...")
    {place : ParameterPlace} (hplace : place ≠ .behindParameter) (ts : List Token) :
    readParameters name opening place (t :: ts)
      = (readParameters name opening .behindParameter ts).map fun r => (t.value :: r.1, r.2) := by
  rw [readParameters, if_neg (by simp [isPunct_eq_false ht]), if_neg hplace,
    if_pos (isParameter_iff.2 ht)]
  cases readParameters name opening .behindParameter ts <;> rfl

theorem readParameters_comma {comma : Token} (hcomma : comma.isPunct "," = true) (ts : List Token) :
    readParameters name opening .behindParameter (comma :: ts)
      = readParameters name opening .behindComma ts := by
  rw [readParameters, if_neg (by simp [isPunct_comma_closing hcomma]), if_pos rfl, if_pos hcomma]

/-- **Separated parameters are read one by one**, and then the reader is behind a parameter. -/
theorem Separated.read {ts : List Token} {names : List String} (h : Separated ts names)
    {place : ParameterPlace} (hplace : place ≠ .behindParameter) (rest : List Token) :
    readParameters name opening place (ts ++ rest)
      = (readParameters name opening .behindParameter rest).map fun r => (names ++ r.1, r.2) := by
  induction h generalizing place with
  | one ht => exact readParameters_parameter ht hplace rest
  | more ht hcomma _ ih =>
    rw [List.cons_append, List.cons_append, readParameters_parameter ht hplace,
      readParameters_comma hcomma, ih (by decide)]
    cases readParameters name opening .behindParameter rest <;> rfl

/-- **A parameter list is read up to the parenthesis that closes it.** -/
theorem ParameterList.read {ts : List Token} {names : List String} (h : ParameterList ts names)
    {closing : Token} (hclosing : closing.isPunct ")" = true) (body : List Token) :
    readParameters name opening .beginning (ts ++ closing :: body) = .ok (names, body) := by
  rcases h with ⟨rfl, rfl⟩ | h
  · rw [List.nil_append, readParameters, if_pos hclosing, if_neg (by decide)]
  · rw [h.read (by decide), readParameters, if_pos hclosing, if_neg (by decide)]
    simp [Except.map]

/-- What is wrong where a parameter has to come next is wrong with the whole list. -/
theorem Awaits.read {front rest : List Token} (h : Awaits front) {c : Complaint}
    (hrest : ∀ place ≠ .behindParameter, readParameters name opening place rest = .error c) :
    readParameters name opening .beginning (front ++ rest) = .error c := by
  rcases h with rfl | ⟨front, names, comma, rfl, hfront, hcomma⟩
  · exact hrest _ (by decide)
  · rw [List.append_assoc, hfront.read (by decide), List.singleton_append,
      readParameters_comma hcomma, hrest _ (by decide)]
    rfl

/-- **Each mistake is reported as what it is.** -/
theorem Misread.read {ts : List Token} {c : Complaint} (h : Misread name opening ts c) :
    readParameters name opening .beginning ts = .error c := by
  cases h with
  | unclosed h =>
    rw [← List.append_nil ts]
    rcases h with h | ⟨names, h⟩
    · exact h.read fun place _ => by rw [readParameters]
    · rw [h.read (by decide), readParameters]
      rfl
  | closedBehindComma hfront hcomma hclosing =>
    rw [hfront.read (by decide), readParameters_comma hcomma, readParameters, if_pos hclosing,
      if_pos rfl]
    rfl
  | badParameter hfront ht hopen =>
    refine hfront.read fun place hplace => ?_
    rw [readParameters, if_neg (by simp [hopen]), if_neg hplace, if_neg (isParameter_iff.not.2 ht)]
  | badSeparator hfront ht hopen =>
    rw [hfront.read (by decide), readParameters, if_neg (by simp [hopen]), if_pos rfl,
      if_neg (by simp [ht])]
    rfl

/-! ## All that can be there -/

/-- **As many parameters as possible**: behind them there is no comma with a further parameter. -/
theorem exists_longest_separated :
    ∀ {t : Token} (ts : List Token), t.isIdentifier = true ∨ t.value = "..." →
    ∃ front names rest, t :: ts = front ++ rest ∧ Separated front names
      ∧ ∀ comma u rest', rest = comma :: u :: rest' → comma.isPunct "," = true →
        ¬ (u.isIdentifier = true ∨ u.value = "...")
  | t, [], ht => ⟨[t], _, [], rfl, .one ht, fun _ _ _ hrest => absurd hrest (by simp)⟩
  | t, [c], ht => ⟨[t], _, [c], rfl, .one ht, fun _ _ _ hrest => absurd hrest (by simp)⟩
  | t, comma :: u :: ts, ht => by
    by_cases hmore : comma.isPunct "," = true ∧ (u.isIdentifier = true ∨ u.value = "...")
    · obtain ⟨front, names, rest, hsplit, hfront, hrest⟩ := exists_longest_separated ts hmore.2
      exact ⟨t :: comma :: front, _, rest, by simp [hsplit], .more ht hmore.1 hfront, hrest⟩
    · refine ⟨[t], _, comma :: u :: ts, rfl, .one ht,
        fun comma' u' rest' hrest hcomma hu => hmore ?_⟩
      obtain ⟨hcomma', hbehind⟩ := List.cons.inj hrest
      obtain ⟨hu', -⟩ := List.cons.inj hbehind
      exact ⟨hcomma' ▸ hcomma, hu' ▸ hu⟩

/-- **Behind an opening parenthesis there is a parameter list that is closed, or a mistake.** -/
theorem exists_parameterList_or_misread (name : String) (opening : Token) (ts : List Token) :
    (∃ list names closing body, ts = list ++ closing :: body ∧ ParameterList list names
      ∧ closing.isPunct ")" = true) ∨ ∃ c, Misread name opening ts c := by
  cases ts with
  | nil => exact Or.inr ⟨_, .unclosed (Or.inl (Or.inl rfl))⟩
  | cons t ts =>
    by_cases ht : t.isIdentifier = true ∨ t.value = "..."
    · obtain ⟨front, names, rest, hsplit, hfront, hrest⟩ := exists_longest_separated ts ht
      rw [hsplit]
      -- what stands behind the longest run of parameters decides
      cases rest with
      | nil => exact Or.inr ⟨_, .unclosed (Or.inr ⟨names, by rwa [List.append_nil]⟩)⟩
      | cons comma rest =>
        cases hclosing : comma.isPunct ")" with
        | true => exact Or.inl ⟨front, names, comma, rest, rfl, Or.inr hfront, hclosing⟩
        | false =>
          cases hcomma : comma.isPunct "," with
          | false => exact Or.inr ⟨_, .badSeparator hfront hcomma hclosing⟩
          | true =>
            have hawaits : Awaits (front ++ [comma]) :=
              Or.inr ⟨front, names, comma, rfl, hfront, hcomma⟩
            cases rest with
            | nil => exact Or.inr ⟨_, .unclosed (Or.inl hawaits)⟩
            | cons u rest =>
              cases hu : u.isPunct ")" with
              | true => exact Or.inr ⟨_, .closedBehindComma hfront hcomma hu⟩
              | false =>
                rw [List.append_cons]
                exact Or.inr ⟨_, .badParameter hawaits (hrest comma u rest rfl hcomma) hu⟩
    · have hawaits : Awaits [] := Or.inl rfl
      cases hclosing : t.isPunct ")" with
      | true => exact Or.inl ⟨[], [], t, ts, rfl, Or.inl ⟨rfl, rfl⟩, hclosing⟩
      | false => exact Or.inr ⟨_, .badParameter hawaits ht hclosing⟩

end

/-! ## Definitions -/

/-- The name of a macro is touched by an opening parenthesis. -/
theorem touches_iff {name opening : Token} :
    touches name opening = true ↔ opening.isPunct "(" = true
      ∧ opening.span.start = name.span.stop := by
  rw [touches, Bool.and_eq_true, beq_iff_eq]

section

variable {l : Line} {name opening : Token} {after : List Token}
    (hargs : l.args = name :: opening :: after)
  (hname : name.isIdentifier = true)

include hargs hname

theorem readDefine_of_touches (htouches : touches name opening = true) :
    l.readDefine = (readParameters name.value opening .beginning after).map
      fun r => .define name.value (some r.1) (r.2.map Token.value) := by
  rw [readDefine, hargs]
  simp only [hname, htouches, Bool.not_true, Bool.false_eq_true, if_false, if_true]
  cases readParameters name.value opening .beginning after <;> rfl

theorem readDefine_of_parameterList (htouches : touches name opening = true)
    {list body : List Token} {closing : Token} (hafter : after = list ++ closing :: body)
    {params : List String}
    (hparams : ParameterList list params) (hclosing : closing.isPunct ")" = true) :
    l.readDefine = .ok (.define name.value (some params) (body.map Token.value)) := by
  rw [readDefine_of_touches hargs hname htouches, hafter, hparams.read hclosing]
  rfl

theorem readDefine_of_misread (htouches : touches name opening = true) {c : Complaint}
    (hc : Misread name.value opening after c) : l.readDefine = .error c := by
  rw [readDefine_of_touches hargs hname htouches, hc.read]
  rfl

theorem readDefine_of_apart (hapart : ¬ touches name opening = true) :
    l.readDefine = .ok (.define name.value none ((opening :: after).map Token.value)) := by
  rw [readDefine, hargs]
  simp only [hname, Bool.not_true, Bool.false_eq_true, if_false]
  exact if_neg hapart

end

/-- **What a definition is.**  Where a parenthesis touches the name of the macro, the definition is
read exactly if a parameter list, a closing parenthesis and whatever else follow; the closing
parenthesis is the first of the line, and the body is all that stands behind it.  Each other line is
one of the four mistakes, and is reported as that.  Where none touches the name, the body is all
that stands behind the name. -/
theorem readDefine_grammar {l : Line} {name : Token} {rest : List Token}
    (hargs : l.args = name :: rest) (hname : name.isIdentifier = true) :
    (∀ opening after, rest = opening :: after → opening.isPunct "(" = true →
      opening.span.start = name.span.stop →
      ((∃ d, l.readDefine = .ok d) ↔ ∃ list params closing body, after = list ++ closing :: body
        ∧ ParameterList list params ∧ closing.isPunct ")" = true)
      ∧ (∀ list params closing body, after = list ++ closing :: body → ParameterList list params →
        closing.isPunct ")" = true →
        l.readDefine = .ok (.define name.value (some params) (body.map Token.value))
          ∧ ∀ t ∈ list, t.isPunct ")" = false)
      ∧ ∀ c, l.readDefine = .error c ↔ Misread name.value opening after c)
    ∧ ((∀ opening after, rest = opening :: after → opening.isPunct "(" = true →
        opening.span.start ≠ name.span.stop) →
      l.readDefine = .ok (.define name.value none (rest.map Token.value))) := by
  constructor
  · rintro opening after rfl hopening hspan
    have htouches := touches_iff.2 ⟨hopening, hspan⟩
    have hcases := exists_parameterList_or_misread name.value opening after
    refine ⟨⟨?_, ?_⟩, ?_, fun c => ⟨fun hc => ?_, readDefine_of_misread hargs hname htouches⟩⟩
    · rintro ⟨d, hd⟩
      refine hcases.resolve_right ?_
      rintro ⟨c, hc⟩
      cases hd.symm.trans (readDefine_of_misread hargs hname htouches hc)
    · rintro ⟨list, params, closing, body, hafter, hparams, hclosing⟩
      exact ⟨_, readDefine_of_parameterList hargs hname htouches hafter hparams hclosing⟩
    · intro list params closing body hafter hparams hclosing
      exact ⟨readDefine_of_parameterList hargs hname htouches hafter hparams hclosing,
        hparams.isPunct_closing⟩
    · rcases hcases with ⟨list, params, closing, body, hafter, hparams, hclosing⟩ | ⟨c', hc'⟩
      · cases hc.symm.trans (readDefine_of_parameterList hargs hname htouches hafter hparams
          hclosing)
      · have hsame := hc.symm.trans (readDefine_of_misread hargs hname htouches hc')
        exact Except.error.inj hsame ▸ hc'
  · intro hapart
    cases rest with
    | nil => simp [readDefine, hargs, hname]
    | cons opening after =>
      refine readDefine_of_apart hargs hname fun htouches => ?_
      exact hapart opening after rfl (touches_iff.1 htouches).1 (touches_iff.1 htouches).2

/-- The line `#define F(a, ...) (a)`. -/
def variadic : Line where
  token := ⟨.directive, "#define", ⟨1, 1⟩, ⟨0, 7⟩, some .define⟩
  keyword := .define
  args := [⟨.word, "F", ⟨1, 9⟩, ⟨8, 9⟩, none⟩, ⟨.punct, "(", ⟨1, 10⟩, ⟨9, 10⟩, none⟩,
    ⟨.word, "a", ⟨1, 11⟩, ⟨10, 11⟩, none⟩, ⟨.punct, ",", ⟨1, 12⟩, ⟨11, 12⟩, none⟩,
    ⟨.word, "...", ⟨1, 14⟩, ⟨13, 16⟩, none⟩, ⟨.punct, ")", ⟨1, 17⟩, ⟨16, 17⟩, none⟩,
    ⟨.punct, "(", ⟨1, 19⟩, ⟨18, 19⟩, none⟩, ⟨.word, "a", ⟨1, 20⟩, ⟨19, 20⟩, none⟩,
    ⟨.punct, ")", ⟨1, 21⟩, ⟨20, 21⟩, none⟩]

/-- Two parameters, and parentheses in the body. -/
theorem readDefine_grammar_variadic :
    Outline.lines (tokenize "#define F(a, ...) (a)").tokens = [variadic]
      ∧ variadic.readDefine = .ok (.define "F" (some ["a", "..."]) ["(", "a", ")"]) := by
  constructor
  · rw [Outline.lines_eq_directiveLines, tokenize_eq_steps]
    decide +kernel
  · have hargs : variadic.args = _ :: _ := rfl
    obtain ⟨-, hread, -⟩ := (readDefine_grammar hargs (by decide)).1 _ _ rfl (by decide) rfl
    have hlist : ParameterList (variadic.args.drop 2 |>.take 3) ["a", "..."] :=
      Or.inr (.more (Or.inl (by decide)) (by decide) (.one (Or.inr rfl)))
    exact (hread _ _ _ _ rfl hlist (by decide)).1

end IncludeScan.Line
