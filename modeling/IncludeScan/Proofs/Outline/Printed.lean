import IncludeScan.Proofs.Condition.Format
import IncludeScan.Proofs.Directive.Parameters
import IncludeScan.Proofs.Outline.Events
import IncludeScan.Proofs.Outline.Places
import IncludeScan.Proofs.Outline.Rows

/-!
# Proofs/Outline/Printed — one event, printed on a line and read again

An event of a tree is printed as one line.  The line is a row of pieces (`Event.Printed`): its text
is cut into them whatever follows, and read at any place the row is the event again.  Every event
that can be written at all is printed in this way (`Event.Writable.exists_printed`).

Two things tell the pieces of a line apart.  A blank stands between the words of a macro's body, and
the parenthesis of its parameters touches the name; and the slashes of a path in angle brackets are
kept from beginning a comment.
-/

namespace IncludeScan

open Piece

/-! ## What can be written -/

/-- A word that stands by itself in the body of a macro. -/
def IsBodyWord (w : String) : Prop :=
  isIdentifier w = true ∨ (Numeral.ofText? w.toList).isSome = true ∨ w.toList ∈ operatorSpellings
    ∨ w.toList ∈ punctSpellings

instance : DecidablePred IsBodyWord := fun _ => inferInstanceAs (Decidable (_ ∨ _ ∨ _ ∨ _))

/-- The names are proper and no parentheses are missing. -/
def Condition.Canonical (c : Condition) : Prop := c.WellNamed ∧ c.Grouped

/-- **A directive on one line that can be written.** -/
inductive Directive.Writable : Directive → Prop
  | quoted {path : String} {line : Nat} (hpath : ∀ c ∈ path.toList, c ≠ '"' ∧ c ≠ '\\' ∧ c ≠ '\n') :
      Writable (.includeFile ⟨path, false, line⟩)
  | system {path : String} {line : Nat} (hne : path ≠ "")
      (hpath : ∀ c ∈ path.toList, isPathChar c = true) (hslash : ¬ ['/', '/'] <:+: path.toList) :
      Writable (.includeFile ⟨path, true, line⟩)
  | define {name : String} {params : Option (List String)} {body : List String}
      (hname : isIdentifier name = true)
      (hparams : ∀ ps ∈ params, ∀ p ∈ ps, isIdentifier p = true ∨ p = "...")
      (hbody : ∀ w ∈ body, IsBodyWord w) : Writable (.define name params body)
  | undefine {name : String} (hname : isIdentifier name = true) : Writable (.undefine name)

namespace Event

/-- An event that can be written. -/
inductive Writable : Event → Prop
  | leaf {d : Directive} (hd : d.Writable) : Writable (.leaf d)
  | opening {c : Condition} (hc : c.Canonical) : Writable (.branch .opening (some c))
  | alternative {c : Condition} (hc : c.Canonical) : Writable (.branch .alternative (some c))
  | fallback : Writable (.branch .fallback none)
  | endBlock : Writable .endBlock

/-- The line that an event is printed as. -/
def text : Event → String
  | .leaf d => d.format
  | .branch kind condition => Branch.head kind condition
  | .endBlock => "#endif"

/-- The event on another line. -/
def onLine (n : Nat) : Event → Event
  | .leaf d => .leaf (d.renumber fun _ => n)
  | e => e

/-- **The event is printed as a row**, whose text is cut into its pieces whatever follows, and which
is read as the event of the line that it is on. -/
structure Printed (e : Event) (k : Keyword) (xs : List Piece) : Prop where
  text : flat (directive k :: xs) = e.text.toList
  kinds : ∀ x ∈ xs, x.kind.spansLines = false
  laid : ∀ rest, Laid (row k xs) rest
  read : ∀ p offset, (rowLine p offset k xs).event = .ok (e.onLine p.line)

end Event

/-! ## Words at a place -/

namespace Piece

theorem forall₂_words_bare (p : Cursor) (offset : Nat) (xs : List Piece) :
    List.Forall₂ Token.SameWord (words p offset xs) (bare xs) := by
  induction xs generalizing p offset with
  | nil => exact .nil
  | cons x xs ih =>
    by_cases hx : x.kind.isTrivia = true
    · have hwords : words p offset (x :: xs)
          = words (p.advance x.text) (offset + Text.unitCount x.text) xs := by
        rw [words, place, List.filter_cons_of_neg (by simp [token, Token.isTrivia, hx])]
        rfl
      rw [hwords, bare, List.filter_cons_of_neg (by simp [hx])]
      exact ih _ _
    · rw [Bool.not_eq_true] at hx
      rw [words_cons hx, bare, List.filter_cons_of_pos (by simp [hx]), List.map_cons]
      exact .cons ⟨rfl, rfl⟩ (ih _ _)

end Piece

theorem Line.event_of_readSingle {l : Line} (hrole : l.keyword.role = .single) {d : Directive}
    (h : l.readSingle = .ok d) : l.event = .ok (.leaf d) := by
  rw [Line.event, hrole, h]
  rfl

/-! ## Includes -/

namespace Event

theorem printed_quoted {path : String} (hpath : ∀ c ∈ path.toList, c ≠ '"' ∧ c ≠ '\\' ∧ c ≠ '\n')
    (line : Nat) :
    Printed (.leaf (.includeFile ⟨path, false, line⟩)) .includeFile
      [blank, quoted path.toList] where
  text := by simp [Event.text, Directive.format, Keyword.spelling]
  kinds := by simp [Kind.spansLines]
  laid rest := by
    refine laid_row (stops_cons.2 (by decide)) ?_
    simp only [laid_cons, laid_nil, flat_cons, flat_nil, List.append_assoc, List.nil_append,
      and_true]
    exact ⟨fits_blank (stops_cons.2 (by decide)), fits_quoted hpath _⟩
  read p offset := by
    have hquote : '"' ∉ path.toList := fun h => (hpath _ h).1 rfl
    have hunquoted :
        Line.unquoted (String.ofList ('"' :: (path.toList ++ ['"']))) = path.toList := by
      simp only [Line.unquoted, String.toList_ofList, List.drop_succ_cons, List.drop_zero,
        List.dropLast_concat]
    refine Line.event_of_readSingle rfl ?_
    simp only [rowLine, Line.readSingle, Line.readInclude, words_cons_blank, words_cons,
      quoted_kind, Kind.isTrivia, kind_token, value_token, quoted_text, hunquoted, if_neg hquote,
      if_pos, String.ofList_toList]
    rfl

/-- The words of a path in angle brackets are joined to the path. -/
theorem upToAngle_words {xs : List Piece} (h : ∀ x ∈ xs, x.kind = .word ∨ x.kind = .number) :
    Line.upToAngle (bare (xs ++ [op ['>']])) = some (xs.map fun x => String.ofList x.text) := by
  induction xs with
  | nil => rfl
  | cons x xs ih =>
    obtain ⟨hx, hxs⟩ := List.forall_mem_cons.1 h
    have htrivia : x.kind.isTrivia = false := by rcases hx with hx | hx <;> rw [hx] <;> rfl
    have hangle : (x.token .start 0).isOp ">" = false := by
      rcases hx with hx | hx <;> simp [Token.isOp, hx]
    rw [List.cons_append, bare, List.filter_cons_of_pos (by simp [htrivia]), List.map_cons,
      Line.upToAngle, hangle]
    exact congrArg (Option.map _) (ih hxs)

theorem join_texts (xs : List Piece) :
    String.join (xs.map fun x => String.ofList x.text) = String.ofList (flat xs) := by
  induction xs with
  | nil => rfl
  | cons x xs ih => simp [ih]

theorem exists_printed_system {path : String} (hne : path ≠ "")
    (hpath : ∀ c ∈ path.toList, isPathChar c = true) (hslash : ¬ ['/', '/'] <:+: path.toList)
    (line : Nat) :
    ∃ xs, Printed (.leaf (.includeFile ⟨path, true, line⟩)) .includeFile xs := by
  obtain ⟨ys, hflat, hlaid, hkinds⟩ := exists_pieces_path hpath hslash
  refine ⟨blank :: op ['<'] :: (ys ++ [op ['>']]), ?_, ?_, fun rest => ?_, fun p offset => ?_⟩
  · simp [Event.text, Directive.format, Keyword.spelling, hflat]
  · have hys : ∀ x ∈ ys, x.kind.spansLines = false := by
      intro x hx
      rcases hkinds x hx with hx | hx <;> rw [hx] <;> rfl
    simpa [Kind.spansLines, or_imp, forall_and] using hys
  · obtain ⟨c, cs, hcs⟩ := List.exists_cons_of_ne_nil (fun h => hne (String.toList_eq_nil_iff.1 h))
    -- an equals sign would go on the bracket
    have hequals : ∀ tail, Stops (· == '=') (flat ys ++ tail) := by
      intro tail
      rw [hflat, hcs]
      refine stops_cons.2 (beq_eq_false_iff_ne.2 ?_)
      rintro rfl
      exact absurd (hpath '=' (hcs ▸ List.mem_cons_self)) (by decide)
    refine laid_row (stops_cons.2 (by decide)) ?_
    simp only [laid_cons, laid_append, laid_nil, flat_cons, flat_append, flat_nil,
      List.append_assoc, List.nil_append, and_true]
    exact ⟨fits_blank (stops_cons.2 (by decide)), fits_op (by decide) (hequals _), hlaid _,
      fits_op (by decide) (stops_cons.2 (by decide))⟩
  · have hangle : ∀ p offset, Line.upToAngle (words p offset (ys ++ [op ['>']]))
        = some (ys.map fun x => String.ofList x.text) := fun p offset =>
      (Line.Alike.upToAngle_eq (forall₂_words_bare p offset _)).trans (upToAngle_words hkinds)
    have hjoin := join_texts ys
    rw [hflat, String.ofList_toList] at hjoin
    have hopening : ∀ p offset, ((op ['<']).token p offset).isOp "<" = true := fun _ _ => rfl
    refine Line.event_of_readSingle rfl ?_
    cases ys with
    | nil => exact absurd hjoin.symm hne
    | cons y ys =>
      rw [List.map_cons] at hjoin
      simp only [rowLine, Line.readSingle, Line.readInclude, words_cons_blank, words_cons, op_kind,
        Kind.isTrivia, hangle, List.map_cons, hopening, if_pos, hjoin]
      rfl

end Event

/-! ## Macro definitions -/

/-- A word of a macro's body. -/
def Piece.entry (w : String) : Piece :=
  if isIdentifier w then word w
  else if (Numeral.ofText? w.toList).isSome then number w.toList
  else if w.toList ∈ operatorSpellings then op w.toList
  else punct w.toList

namespace Piece

theorem entry_cases (w : String) :
    (isIdentifier w = true ∧ entry w = word w)
      ∨ ((Numeral.ofText? w.toList).isSome = true ∧ entry w = number w.toList)
      ∨ (w.toList ∈ operatorSpellings ∧ entry w = op w.toList)
      ∨ (¬ (isIdentifier w = true ∨ (Numeral.ofText? w.toList).isSome = true
          ∨ w.toList ∈ operatorSpellings) ∧ entry w = punct w.toList) := by
  unfold entry
  split_ifs <;> simp_all

@[simp] theorem text_entry (w : String) : (entry w).text = w.toList := by
  rcases entry_cases w with ⟨-, h⟩ | ⟨-, h⟩ | ⟨-, h⟩ | ⟨-, h⟩ <;> rw [h] <;> rfl

theorem isTrivia_entry (w : String) : (entry w).kind.isTrivia = false := by
  rcases entry_cases w with ⟨-, h⟩ | ⟨-, h⟩ | ⟨-, h⟩ | ⟨-, h⟩ <;> rw [h] <;> rfl

theorem spansLines_entry (w : String) : (entry w).kind.spansLines = false := by
  rcases entry_cases w with ⟨-, h⟩ | ⟨-, h⟩ | ⟨-, h⟩ | ⟨-, h⟩ <;> rw [h] <;> rfl

/-- A word of a body stands in front of a blank or the line end. -/
theorem fits_entry {w : String} (h : IsBodyWord w) {rest : List Char}
    (hpart : Stops isIdentPart rest) (hequals : Stops (· == '=') rest) : (entry w).Fits rest := by
  rcases entry_cases w with ⟨hw, he⟩ | ⟨hw, he⟩ | ⟨hw, he⟩ | ⟨hw, he⟩
  · exact he ▸ fits_word hw hpart
  · obtain ⟨n, hn⟩ := Option.isSome_iff_exists.1 hw
    exact he ▸ fits_numeral hn hpart
  · exact he ▸ fits_op hw hequals
  · refine he ▸ fits_punct ?_ rest
    simp only [IsBodyWord] at h
    tauto

theorem stops_isBlank_entry {w : String} (h : IsBodyWord w) (rest : List Char) :
    Stops Rule.isBlank (w.toList ++ rest) := by
  rcases h with hw | hw | hw | hw
  · exact stops_isBlank_word hw rest
  · obtain ⟨n, hn⟩ := Option.isSome_iff_exists.1 hw
    exact stops_isBlank_numeral hn rest
  · exact stops_isBlank_fixed (List.mem_append_left _ hw) rest
  · exact stops_isBlank_fixed (List.mem_append_right _ hw) rest

/-- The words of a macro's body, each behind a blank. -/
def entries (body : List String) : List Piece := body.flatMap fun w => [blank, entry w]

theorem entries_cons (w : String) (body : List String) :
    entries (w :: body) = blank :: entry w :: entries body := rfl

theorem flat_entries (body : List String) :
    flat (entries body) = (String.join (body.map (" " ++ ·))).toList := by
  induction body with
  | nil => rfl
  | cons w body ih => simp [entries_cons, ih]

theorem stops_entries {p : Char → Bool} (hblank : p ' ' = false) (hline : p '\n' = false)
    (body : List String) (rest : List Char) : Stops p (flat (entries body) ++ '\n' :: rest) := by
  cases body with
  | nil => exact stops_cons.2 hline
  | cons w body => exact stops_cons.2 hblank

theorem laid_entries {body : List String} (h : ∀ w ∈ body, IsBodyWord w) (rest : List Char) :
    Laid (entries body) ('\n' :: rest) := by
  induction body with
  | nil => trivial
  | cons w body ih =>
    obtain ⟨hw, hbody⟩ := List.forall_mem_cons.1 h
    rw [entries_cons]
    simp only [laid_cons, flat_cons, text_entry, List.append_assoc]
    exact ⟨fits_blank (stops_isBlank_entry hw _),
      fits_entry hw (stops_entries (by decide) (by decide) body rest)
        (stops_entries (by decide) (by decide) body rest), ih hbody⟩

theorem map_value_words_entries (p : Cursor) (offset : Nat) (body : List String) :
    (words p offset (entries body)).map Token.value = body := by
  induction body generalizing p offset with
  | nil => rfl
  | cons w body ih =>
    rw [entries_cons, words_cons_blank, words_cons (isTrivia_entry w), List.map_cons, ih,
      value_token, text_entry, String.ofList_toList]

/-- The parameters of a macro, in parentheses and with commas. -/
def parameters : Option (List String) → List Piece
  | none => []
  | some ps => punct ['('] :: (listed (ps.map fun p => [word p]) ++ [punct [')']])

/-- A parameter stands in front of a comma or a closing parenthesis. -/
theorem fits_parameter {p : String} (h : isIdentifier p = true ∨ p = "...") {mark : Char}
    (hmark : mark = ',' ∨ mark = ')') (tail : List Char) : (word p).Fits (mark :: tail) := by
  rcases h with h | rfl
  · exact fits_word h (stops_cons.2 (by rcases hmark with rfl | rfl <;> decide))
  · have hpunct : Rule.fixed .punct [mark] ∈ rules :=
      List.mem_append_right _ (List.mem_map_of_mem (by rcases hmark with rfl | rfl <;> decide))
    refine fits_fillers (by decide) (by decide) (fun i hi => ?_) hpunct (fixed_append .punct)
    match i, hi with
    | 0, _ | 1, _ | 2, _ => rfl

theorem laid_parameters {ps : List String} (h : ∀ p ∈ ps, isIdentifier p = true ∨ p = "...")
    (tail : List Char) : Laid (listed (ps.map fun p => [word p])) (')' :: tail) := by
  refine @laid_listed (fun rest => ∃ mark tail, (mark = ',' ∨ mark = ')') ∧ rest = mark :: tail)
    (fun tail => ⟨',', tail, Or.inl rfl, rfl⟩) _ (fun xs hxs rest hrest => ?_)
    (fun xs hxs rest => ?_) _
    ⟨')', tail, Or.inr rfl, rfl⟩
  · obtain ⟨p, hp, rfl⟩ := List.mem_map.1 hxs
    obtain ⟨mark, tail, hmark, rfl⟩ := hrest
    exact ⟨fits_parameter (h p hp) hmark tail, trivial⟩
  · obtain ⟨p, hp, rfl⟩ := List.mem_map.1 hxs
    rw [flat_cons, flat_nil, List.append_nil]
    rcases h p hp with hp | rfl
    · exact stops_isBlank_word hp rest
    · exact stops_cons.2 (by decide)

theorem mem_listed {xss : List (List Piece)} {x : Piece} (h : x ∈ listed xss) :
    (∃ xs ∈ xss, x ∈ xs) ∨ x = punct [','] ∨ x = blank := by
  induction xss with
  | nil => cases h
  | cons xs xss ih =>
    cases xss with
    | nil => exact Or.inl ⟨xs, List.mem_cons_self, h⟩
    | cons ys xss =>
      simp only [listed, List.mem_append, List.mem_cons] at h
      rcases h with h | h | h | h
      · exact Or.inl ⟨xs, List.mem_cons_self, h⟩
      · exact Or.inr (Or.inl h)
      · exact Or.inr (Or.inr h)
      · rcases ih h with ⟨zs, hzs, h⟩ | h
        · exact Or.inl ⟨zs, List.mem_cons_of_mem _ hzs, h⟩
        · exact Or.inr h

end Piece

/-- Parameters are printed as the grammar has them, with commas between them. -/
theorem Line.separated_listed {p : String} {ps : List String}
    (h : ∀ q ∈ p :: ps, isIdentifier q = true ∨ q = "...") :
    Separated (bare (listed ((p :: ps).map fun q => [word q]))) (p :: ps) := by
  have hvalue (q : String) : ((word q).token .start 0).value = q := String.ofList_toList
  have hparameter {q : String} (hq : isIdentifier q = true ∨ q = "...") :
      ((word q).token .start 0).isIdentifier = true ∨ ((word q).token .start 0).value = "..." :=
    hq.imp (isIdentifier_token_word · .start 0) (hvalue q).trans
  induction ps generalizing p with
  | nil =>
    have hone := Separated.one (hparameter (h p List.mem_cons_self))
    rwa [hvalue] at hone
  | cons q ps ih =>
    obtain ⟨hp, hps⟩ := List.forall_mem_cons.1 h
    have hcomma : ((punct [',']).token .start 0).isPunct "," = true := rfl
    have hmore := Separated.more (hparameter hp) hcomma (ih hps)
    rwa [hvalue] at hmore

theorem Line.parameterList_listed {ps : List String}
    (h : ∀ p ∈ ps, isIdentifier p = true ∨ p = "...") :
    ParameterList (bare (listed (ps.map fun p => [word p]))) ps := by
  cases ps with
  | nil => exact Or.inl ⟨rfl, rfl⟩
  | cons p ps => exact Or.inr (separated_listed h)

namespace Event

theorem blank_intercalate (w : String) (body : List String) :
    " " ++ " ".intercalate (w :: body) = String.join ((w :: body).map (" " ++ ·)) := by
  induction body generalizing w with
  | nil => simp
  | cons v body ih =>
    rw [String.intercalate_cons_cons, List.map_cons, String.join_cons, ← ih, String.append_assoc,
      String.append_assoc]

theorem flat_define (name : String) (params : Option (List String)) (body : List String) :
    flat (directive .define :: blank :: word name :: (parameters params ++ entries body))
      = (Directive.formatDefine name params body).toList := by
  have hparams (ps : List String) :
      flat (listed (ps.map fun p => [word p])) = (", ".intercalate ps).toList := by
    simp [flat_listed, Function.comp_def]
  have hbody : (if body.isEmpty then "" else " " ++ " ".intercalate body)
      = String.join (body.map (" " ++ ·)) := by
    cases body with
    | nil => rfl
    | cons w body => exact blank_intercalate w body
  simp only [flat_cons, flat_append, flat_entries, ← hbody, Directive.formatDefine]
  cases params <;> cases body <;> simp [parameters, hparams, Keyword.spelling]

theorem spansLines_parameters (params : Option (List String)) :
    ∀ x ∈ parameters params, x.kind.spansLines = false := by
  intro x hx
  cases params with
  | none => cases hx
  | some ps =>
    simp only [parameters, List.mem_cons, List.mem_append, List.not_mem_nil, or_false] at hx
    rcases hx with rfl | hx | rfl
    · rfl
    · rcases mem_listed hx with ⟨xs, hxs, hx⟩ | rfl | rfl
      · obtain ⟨p, -, rfl⟩ := List.mem_map.1 hxs
        obtain rfl := List.mem_singleton.1 hx
        rfl
      · rfl
      · rfl
    · rfl

theorem spansLines_entries (body : List String) :
    ∀ x ∈ entries body, x.kind.spansLines = false := by
  intro x hx
  obtain ⟨w, -, hx⟩ := List.mem_flatMap.1 hx
  rcases List.mem_pair.1 hx with rfl | rfl
  · rfl
  · exact spansLines_entry w

/-- A blank behind the name keeps a parenthesis of the body from beginning parameters. -/
theorem touches_entry (name w : String) (p q : Cursor) (offset : Nat) :
    Line.touches ((word name).token p offset)
      ((entry w).token q (offset + Text.unitCount name.toList + 1)) = false := by
  simp [Line.touches, token]

theorem touches_parameters (name : String) (p q : Cursor) (offset : Nat) :
    Line.touches ((word name).token p offset)
      ((punct ['(']).token q (offset + Text.unitCount name.toList)) = true := by
  simp [Line.touches, token, Token.isPunct]

theorem readParameters_words (name : String) (opening : Token) {ps : List String}
    (h : ∀ p ∈ ps, isIdentifier p = true ∨ p = "...") (body : List String) (p : Cursor)
    (offset : Nat) :
    ∃ rest, Line.readParameters name opening .beginning
        (words p offset (listed (ps.map fun p => [word p]) ++ punct [')'] :: entries body))
      = .ok (ps, rest) ∧ rest.map Token.value = body := by
  have hread : Line.readParameters name opening .beginning (bare (listed (ps.map fun p => [word p]))
      ++ (punct [')']).token .start 0 :: bare (entries body)) = .ok (ps, bare (entries body)) :=
    (Line.parameterList_listed h).read rfl _
  have hbody := (Line.Alike.map_value_eq (forall₂_words_bare p offset (entries body))).symm.trans
    (map_value_words_entries p offset body)
  have hseen := Line.Alike.readParameters name opening opening (forall₂_words_bare p offset
    (listed (ps.map fun p => [word p]) ++ punct [')'] :: entries body)) .beginning
  rw [bare_append, bare_cons_punct, hread] at hseen
  obtain ⟨⟨ps', rest⟩, hok, heq⟩ := exists_of_seen_eq_ok hseen
  obtain ⟨rfl, hrest⟩ := Prod.mk.inj heq
  exact ⟨rest, hok, hrest.trans hbody⟩

theorem printed_define {name : String} {params : Option (List String)} {body : List String}
    (hname : isIdentifier name = true)
    (hparams : ∀ ps ∈ params, ∀ p ∈ ps, isIdentifier p = true ∨ p = "...")
    (hbody : ∀ w ∈ body, IsBodyWord w) :
    Printed (.leaf (.define name params body)) .define
      (blank :: word name :: (parameters params ++ entries body)) where
  text := flat_define name params body
  kinds := by
    simp only [List.forall_mem_cons, List.forall_mem_append]
    exact ⟨rfl, rfl, spansLines_parameters params, spansLines_entries body⟩
  laid rest := by
    have hentries := laid_entries hbody rest
    refine laid_row (stops_cons.2 (by decide)) ?_
    rw [laid_cons, laid_cons]
    refine ⟨?_, ?_, ?_⟩
    · rw [flat_cons, List.append_assoc]
      exact fits_blank (stops_isBlank_word hname _)
    · refine fits_word hname ?_
      cases params with
      | none => exact stops_entries (by decide) (by decide) body rest
      | some ps => exact stops_cons.2 (by decide)
    · cases params with
      | none => exact hentries
      | some ps =>
        simp only [parameters, laid_cons, laid_append, flat_cons, List.append_assoc,
          List.cons_append, List.nil_append]
        exact ⟨fits_punct (by decide) _, laid_parameters (hparams ps rfl) _,
          fits_punct (by decide) _, hentries⟩
  read p offset := by
    have hword := isIdentifier_token_word hname
    refine Line.event_of_readSingle rfl ?_
    rw [Line.readSingle, rowLine, Line.readDefine, words_cons_blank, words_cons rfl]
    cases params with
    | none =>
      cases body with
      | nil => simp [parameters, entries, hword, Directive.renumber]
      | cons w body =>
        simp only [parameters, List.nil_append, entries_cons, words_cons_blank]
        rw [words_cons (isTrivia_entry w)]
        simp [hword, touches_entry, map_value_words_entries, Directive.renumber]
    | some ps =>
      simp only [parameters, List.cons_append, List.append_assoc, List.nil_append]
      rw [words_cons rfl]
      simp only [hword, Bool.not_true, word_text, touches_parameters, value_token,
        String.ofList_toList]
      obtain ⟨rest, hread, hrest⟩ := readParameters_words name _ (hparams ps rfl) body _ _
      rw [hread]
      simp [hrest, Directive.renumber]

theorem printed_undefine {name : String} (hname : isIdentifier name = true) :
    Printed (.leaf (.undefine name)) .undef [blank, word name] where
  text := by simp [Event.text, Directive.format, Keyword.spelling]
  kinds := by simp [Kind.spansLines]
  laid rest := by
    refine laid_row (stops_cons.2 (by decide)) ?_
    simp only [laid_cons, laid_nil, flat_cons, flat_nil, List.append_assoc, List.nil_append,
      and_true]
    exact ⟨fits_blank (stops_isBlank_word hname _), fits_word hname (stops_cons.2 (by decide))⟩
  read p offset := by
    have hword := isIdentifier_token_word hname
    refine Line.event_of_readSingle rfl ?_
    simp [Line.readSingle, rowLine, Line.readUndef, words_cons_blank, words_cons, Kind.isTrivia,
      hword, Directive.renumber]

end Event

/-! ## Branches -/

namespace Condition

mutual

theorem spansLines_pieces : ∀ c : Condition, ∀ x ∈ pieces c, x.kind.spansLines = false
  | .defined name => by simp [pieces, Kind.spansLines]
  | .not operand => by
    simpa [pieces, Kind.spansLines, or_imp, forall_and] using spansLines_pieces operand
  | .and left right => by
    simpa [pieces, Kind.spansLines, or_imp, forall_and]
      using And.intro (spansLines_pieces left) (spansLines_pieces right)
  | .or left right => by
    simpa [pieces, Kind.spansLines, or_imp, forall_and]
      using And.intro (spansLines_pieces left) (spansLines_pieces right)
  | .compare left op right => by
    simpa [pieces, Kind.spansLines, or_imp, forall_and]
      using And.intro (spansLines_pieces left) (spansLines_pieces right)
  | .apply name args => by
    have hargs : ∀ x ∈ listed (piecesAll args), x.kind.spansLines = false := by
      intro x hx
      rcases mem_listed hx with ⟨xs, hxs, hx⟩ | rfl | rfl
      · exact spansLines_piecesAll args xs hxs x hx
      · rfl
      · rfl
    simpa [pieces, Kind.spansLines, or_imp, forall_and] using hargs
  | .ident name => by simp [pieces, Kind.spansLines]
  | .constant value => by simp [pieces, Kind.spansLines]

theorem spansLines_piecesAll : ∀ cs : List Condition, ∀ xs ∈ piecesAll cs, ∀ x ∈ xs,
    x.kind.spansLines = false
  | [] => by simp [piecesAll]
  | c :: cs => by
    simpa [piecesAll] using And.intro (spansLines_pieces c) (spansLines_piecesAll cs)

end

end Condition

/-- The keyword that a branch is printed with. -/
def BranchKind.keyword : BranchKind → Keyword
  | .opening => .ifExpr
  | .alternative => .elifExpr
  | .fallback => .elseBranch

theorem BranchKind.spelling_keyword (kind : BranchKind) :
    kind.keyword.spelling = kind.spelling := by
  cases kind <;> rfl

/-- Words are read the same at any place. -/
theorem Condition.parse_words {xs : List Piece} {c : Condition} (h : parse (bare xs) = .ok (c, []))
    (p : Cursor) (offset : Nat) : parse (words p offset xs) = .ok (c, []) := by
  have halike := alike_parse (fun h => h) (forall₂_words_bare p offset xs)
  rw [h] at halike
  generalize parse (words p offset xs) = x at halike ⊢
  cases halike with
  | ok _ hrest => rw [List.forall₂_nil_right_iff.1 hrest]

theorem Condition.Canonical.parse_words {c : Condition} (h : c.Canonical) (p : Cursor)
    (offset : Nat) :
    ∃ rest, parse (words p offset (pieces c)) = .ok (c, rest) :=
  ⟨[], Condition.parse_words (parse_pieces h.1 h.2) p offset⟩

namespace Event

theorem printed_branch {kind : BranchKind} (hkind : kind ≠ .fallback) {c : Condition}
    (hc : c.Canonical) :
    Printed (.branch kind (some c)) kind.keyword (blank :: Condition.pieces c) where
  text := by
    simp [Event.text, Branch.head, Condition.flat_pieces, BranchKind.spelling_keyword]
  kinds := by
    rw [List.forall_mem_cons]
    exact ⟨rfl, Condition.spansLines_pieces c⟩
  laid rest := by
    refine laid_row (stops_cons.2 (by decide)) ⟨fits_blank ?_, ?_⟩
    · exact Condition.stops_isBlank_pieces hc.1 _
    · exact Condition.laid_pieces hc.1 (stops_cons.2 (by decide))
  read p offset := by
    obtain ⟨rest, hparse⟩ := hc.parse_words
      ((p.advance (directive kind.keyword).text).advance [' '])
      (offset + Text.unitCount (directive kind.keyword).text + 1)
    have hread :
        (rowLine p offset kind.keyword (blank :: Condition.pieces c)).readCondition = .ok c := by
      cases kind with
      | fallback => exact absurd rfl hkind
      | opening | alternative =>
        simp only [Line.readCondition, rowLine, BranchKind.keyword, words_cons_blank] at hparse ⊢
        rw [hparse]
    cases kind with
    | fallback => exact absurd rfl hkind
    | opening | alternative => exact congrArg (Except.map _) hread

theorem printed_fallback : Printed (.branch .fallback none) .elseBranch [] where
  text := by decide
  kinds := by simp
  laid rest := laid_row (stops_cons.2 (by decide)) trivial
  read p offset := rfl

theorem printed_endBlock : Printed .endBlock .endif [] where
  text := by decide
  kinds := by simp
  laid rest := laid_row (stops_cons.2 (by decide)) trivial
  read p offset := rfl

/-- **Every event that can be written is printed as a row.** -/
theorem Writable.exists_printed {e : Event} (h : e.Writable) : ∃ k xs, Printed e k xs := by
  cases h with
  | leaf hd =>
    cases hd with
    | quoted hpath => exact ⟨_, _, printed_quoted hpath _⟩
    | system hne hpath hslash => exact ⟨_, exists_printed_system hne hpath hslash _⟩
    | define hname hparams hbody => exact ⟨_, _, printed_define hname hparams hbody⟩
    | undefine hname => exact ⟨_, _, printed_undefine hname⟩
  | opening hc => exact ⟨_, _, printed_branch (by decide) hc⟩
  | alternative hc => exact ⟨_, _, printed_branch (by decide) hc⟩
  | fallback => exact ⟨_, _, printed_fallback⟩
  | endBlock => exact ⟨_, _, printed_endBlock⟩

theorem Printed.flat_row {e : Event} {k : Keyword} {xs : List Piece} (h : Printed e k xs) :
    flat (row k xs) = e.text.toList ++ ['\n'] := by
  rw [← h.text, row, ← List.cons_append, flat_append]
  rfl

end Event

end IncludeScan
