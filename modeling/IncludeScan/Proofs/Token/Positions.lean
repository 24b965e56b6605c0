import IncludeScan.Proofs.Token.Lossless
import IncludeScan.Proofs.Token.Seams
import Mathlib.Data.List.DropRight

/-!
# Proofs/Token/Positions — the place of a token, counted from the beginning of the text

The scanner carries a cursor from token to token.  Nothing of its way is left in it: the cursor is
the position behind the text in front of the token, and that can be counted from scratch
(`Cursor.start_advance`).  Lines are newlines, columns are characters, and only spans count code
units; yet no token begins or ends between the two units of one character, for the unit on one side
of the place is that of an ASCII character (`Text.Seam.not_insidePair`).

`tokenize_positions` — all of this about the tokens of a text, its end token and its error.
-/

namespace IncludeScan

/-! ## Lines and columns from scratch -/

/-- The characters behind the last newline. -/
def Text.lastLine (front : List Char) : List Char := front.rtakeWhile (· != '\n')

/-- **The position behind a text**: one line for each newline in it, and one column for each
character behind the last of them. -/
def Cursor.behind (front : List Char) : Cursor :=
  ⟨1 + front.count '\n', 1 + (Text.lastLine front).length⟩

/-- **Moving over a text leads to the position behind it.** -/
theorem Cursor.start_advance (front : List Char) : start.advance front = behind front := by
  induction front using List.reverseRecOn with
  | nil => rfl
  | append_singleton cs c ih =>
    rw [advance_append, ih, advance_cons, advance_nil, step, behind, behind]
    by_cases hc : c = '\n'
    · have hlast : Text.lastLine (cs ++ [c]) = [] := List.rtakeWhile_concat_neg _ _ _ (by simp [hc])
      rw [if_pos hc, hlast, hc, List.count_append]
      rfl
    · have hlast : Text.lastLine (cs ++ [c]) = Text.lastLine cs ++ [c] :=
        List.rtakeWhile_concat_pos _ _ _ (by simp [hc])
      rw [if_neg hc, hlast, List.count_append, List.count_singleton, List.length_append]
      simp [hc, Nat.add_assoc]

theorem cursorAt_eq_behind (text : List Char) (p : Nat) :
    cursorAt text p = Cursor.behind (text.take p) :=
  Cursor.start_advance _

/-! ## Surrogate pairs -/

namespace Text

/-- A code unit that begins a surrogate pair. -/
def IsHighSurrogate (u : Nat) : Prop := 0xD800 ≤ u ∧ u < 0xDC00

/-- A code unit that ends a surrogate pair. -/
def IsLowSurrogate (u : Nat) : Prop := 0xDC00 ≤ u ∧ u < 0xE000

/-- **The offset lies inside a surrogate pair**: one unit of the pair is in front of it, the other
behind. -/
def InsidePair (us : List Nat) (offset : Nat) : Prop :=
  ∃ front high low back, us = front ++ high :: low :: back ∧ offset = front.length + 1
    ∧ IsHighSurrogate high ∧ IsLowSurrogate low

example : InsidePair (units "😀") 1 :=
  ⟨[], 0xD83D, 0xDE00, [], by decide, rfl, ⟨by decide, by decide⟩, by decide, by decide⟩

theorem charUnits_of_lt {c : Char} (h : c.toNat < 0x80) : charUnits c = [c.toNat] :=
  if_pos (by omega)

/-- **No seam lies inside a surrogate pair**: a unit beside it is too small for one. -/
theorem Seam.not_insidePair {text : String} {p : Nat} (h : Seam text.toList p) :
    ¬ InsidePair (units text) (unitCount (text.toList.take p)) := by
  rintro ⟨front, high, low, back, hunits, hoffset, hhigh, hlow⟩
  have hlength : ((text.toList.take p).flatMap charUnits).length = (front ++ [high]).length := by
    rw [List.length_append, List.length_singleton, ← hoffset,
      ← String.toList_ofList (l := text.toList.take p), ← length_units]
    simp [units]
  have hsplit : (text.toList.take p).flatMap charUnits ++ (text.toList.drop p).flatMap charUnits
      = (front ++ [high]) ++ low :: back := by
    rw [← List.flatMap_append, List.take_append_drop, List.append_assoc]
    exact hunits
  obtain ⟨hbefore, hbehind⟩ := List.append_inj hsplit hlength
  unfold IsHighSurrogate at hhigh
  unfold IsLowSurrogate at hlow
  rcases h with hlast | hfirst
  · -- the last unit in front of the place is `high`
    rcases List.eq_nil_or_concat' (text.toList.take p) with hnil | ⟨cs, c, hconcat⟩
    · simp [hnil] at hbefore
    · have hc : c.toNat < 0x80 := hlast c (by simp [hconcat])
      rw [hconcat, List.flatMap_append, List.flatMap_singleton, charUnits_of_lt hc] at hbefore
      obtain ⟨-, hunit⟩ := List.append_inj' hbefore rfl
      obtain rfl : c.toNat = high := by simpa using hunit
      omega
  · -- the first unit behind it is `low`
    cases hdrop : text.toList.drop p with
    | nil => simp [hdrop] at hbehind
    | cons c cs =>
      have hc : c.toNat < 0x80 := hfirst c (by simp [hdrop])
      rw [hdrop, List.flatMap_cons, charUnits_of_lt hc] at hbehind
      obtain ⟨rfl, -⟩ := List.cons.inj hbehind
      omega

end Text

/-! ## Where the tokens stand -/

/-- The text of tokens that lie end to end. -/
def Token.textOf (ts : List Token) : String := String.join (ts.map Token.value)

theorem Token.textOf_append (ts us : List Token) : textOf (ts ++ us) = textOf ts ++ textOf us := by
  rw [← String.toList_inj, textOf, String.toList_join, List.map_append, List.flatMap_append,
    String.toList_append, textOf, textOf, String.toList_join, String.toList_join]

/-- **The token stands behind a text**: its line and column are those behind the text, and its span
is counted in the code units of the text and of its own value. -/
structure Token.StandsBehind (front : String) (t : Token) : Prop where
  cursor : t.cursor = Cursor.behind front.toList
  start : t.span.start = (Text.units front).length
  stop : t.span.stop = (Text.units (front ++ t.value)).length

theorem tokenAt_standsBehind (text : List Char) (kind : Kind) (keyword : Option Keyword) {p q : Nat}
    (hpq : p ≤ q) : (tokenAt text kind keyword p q).StandsBehind (String.ofList (text.take p)) where
  cursor := by rw [String.toList_ofList, ← cursorAt_eq_behind]; rfl
  start := by rw [Text.length_units, String.toList_ofList]; rfl
  stop := by
    rw [Text.length_units, String.toList_append]
    simp only [tokenAt, String.toList_ofList]
    rw [← List.take_add, Nat.add_sub_cancel' hpq]

/-- **The tokens of a text fall apart at every place between them**: the first lie end to end up to
the place, the text is cut from there on, and there is a seam if there was one at first. -/
theorem Cut.exists_behind {text : List Char} {p : Nat} {r : Tokenization} (h : Cut text p r)
    (hseam : Text.Seam text p) {before after : List Token} (hr : r.tokens = before ++ after) :
    ∃ q, Tiled text p before q ∧ Cut text q ⟨after, r.ending⟩ ∧ Text.Seam text q := by
  induction h generalizing before with
  | ended =>
    obtain ⟨rfl, rfl⟩ := List.nil_eq_append_iff.1 hr
    exact ⟨_, .nil _, .ended, hseam⟩
  | fault hp hm hf =>
    obtain ⟨rfl, rfl⟩ := List.nil_eq_append_iff.1 hr
    exact ⟨_, .nil _, .fault hp hm hf, hseam⟩
  | @lexeme p m r hp hm hf rest ih =>
    rcases List.cons_eq_append_iff.1 hr with ⟨rfl, rfl⟩ | ⟨before, rfl, hbefore⟩
    · exact ⟨p, .nil _, .lexeme hp hm hf rest, hseam⟩
    · obtain ⟨q, htiled, hcut⟩ := ih (hm.seam_add hp) hbefore
      have hlt : p < p + m.length := Nat.lt_add_of_pos_right m.length_pos
      exact ⟨q, .cons hlt (hm.length_le hp) hm.kind_ne_eof htiled, hcut⟩
  | @word p q r hq rest ih =>
    rcases List.cons_eq_append_iff.1 hr with ⟨rfl, rfl⟩ | ⟨before, rfl, hbefore⟩
    · exact ⟨p, .nil _, .word hq rest, hseam⟩
    · obtain ⟨stop, htiled, hcut⟩ := ih hq.seam hbefore
      exact ⟨stop, .cons hq.lt hq.le (by decide) htiled, hcut⟩

/-- The place behind the first tokens of a text. -/
theorem exists_place_behind {text : String} {before after : List Token}
    (h : (tokenize text).tokens = before ++ after) :
    ∃ q, Token.textOf before = String.ofList (text.toList.take q)
      ∧ Cut text.toList q ⟨after, (tokenize text).ending⟩ ∧ Text.Seam text.toList q := by
  obtain ⟨q, htiled, hcut⟩ := (cut_tokenize text).exists_behind (Text.seam_zero _) h
  exact ⟨q, htiled.join_values, hcut⟩

/-- A token stands behind the text of those before it, and neither end of it parts a surrogate
pair. -/
theorem token_position {text : String} {before after : List Token} {t : Token}
    (h : (tokenize text).tokens = before ++ t :: after) :
    (∃ rest, text = Token.textOf before ++ t.value ++ rest)
      ∧ t.StandsBehind (Token.textOf before)
      ∧ ¬ Text.InsidePair (Text.units text) t.span.start
      ∧ ¬ Text.InsidePair (Text.units text) t.span.stop := by
  obtain ⟨p, hfront, hcut, hstart⟩ := exists_place_behind h
  have hfirst : t :: after = [t] ++ after := rfl
  obtain ⟨q, htiled, -, hstop⟩ := hcut.exists_behind hstart hfirst
  cases htiled with
  | cons hpq _ _ rest =>
    cases rest
    refine ⟨⟨String.ofList (text.toList.drop q), ?_⟩, hfront ▸ tokenAt_standsBehind _ _ _ hpq.le,
      hstart.not_insidePair, hstop.not_insidePair⟩
    rw [hfront, ← String.toList_inj, String.toList_append, String.toList_append]
    simp only [tokenAt, String.toList_ofList]
    rw [← List.take_add, Nat.add_sub_cancel' hpq.le, List.take_append_drop]

/-- **Every place is counted from the beginning of the text.**  A token stands behind the text of
the tokens before it: its line is one more than the newlines there, its column one more than the
characters behind the last of them, and its span is counted in code units; neither end of the span
parts a surrogate pair.  The end token stands behind the whole text, and an error has the position
behind all tokens. -/
theorem tokenize_positions (text : String) :
    (∀ before t after, (tokenize text).tokens = before ++ t :: after →
      (∃ rest, text = Token.textOf before ++ t.value ++ rest)
      ∧ t.StandsBehind (Token.textOf before)
      ∧ ¬ Text.InsidePair (Text.units text) t.span.start
      ∧ ¬ Text.InsidePair (Text.units text) t.span.stop)
    ∧ match (tokenize text).ending with
      | .ok eof => eof.kind = .eof ∧ eof.value = "" ∧ eof.StandsBehind text
      | .error e =>
        (∃ rest, text = Token.textOf (tokenize text).tokens ++ rest)
        ∧ e.cursor = Cursor.behind (Token.textOf (tokenize text).tokens).toList
        ∧ ¬ Text.InsidePair (Text.units text)
          (Text.units (Token.textOf (tokenize text).tokens)).length := by
  refine ⟨fun before t after h => token_position h, ?_⟩
  obtain ⟨p, hfront, hcut, hseam⟩ :=
    exists_place_behind (List.append_nil (tokenize text).tokens).symm
  generalize (tokenize text).ending = ending at hcut
  cases hcut with
  | ended =>
    have hbehind := tokenAt_standsBehind text.toList .eof none (Nat.le_refl text.toList.length)
    rw [List.take_length, String.ofList_toList] at hbehind
    exact ⟨rfl, by simp [tokenAt], hbehind⟩
  | fault hp hm hf =>
    rw [hfront]
    refine ⟨⟨String.ofList (text.toList.drop p), ?_⟩, ?_, ?_⟩
    · rw [← String.toList_inj, String.toList_append, String.toList_ofList, String.toList_ofList,
        List.take_append_drop]
    · rw [String.toList_ofList, ← cursorAt_eq_behind]
    · rw [Text.length_units, String.toList_ofList]
      exact hseam.not_insidePair

/-- Behind a comment over two lines and three characters of two units each. -/
theorem tokenize_positions_astral :
    ∃ before t, (tokenize "/*😀\n😀*/ 😀x").tokens = before ++ [t]
      ∧ t.StandsBehind "/*😀\n😀*/ 😀" ∧ t.cursor = ⟨2, 6⟩ ∧ t.span = ⟨12, 13⟩
      ∧ ¬ Text.InsidePair (Text.units "/*😀\n😀*/ 😀x") 12 := by
  have htokens : (tokenize "/*😀\n😀*/ 😀x").tokens
      = [⟨.blockComment, "/*😀\n😀*/", ⟨1, 1⟩, ⟨0, 9⟩, none⟩,
        ⟨.whitespace, " ", ⟨2, 4⟩, ⟨9, 10⟩, none⟩, ⟨.word, "😀", ⟨2, 5⟩, ⟨10, 12⟩, none⟩]
        ++ [⟨.word, "x", ⟨2, 6⟩, ⟨12, 13⟩, none⟩] := by
    rw [tokenize_eq_steps]
    decide +kernel
  obtain ⟨-, hbehind, hpair, -⟩ := (tokenize_positions _).1 _ _ _ htokens
  exact ⟨_, _, htokens, hbehind, rfl, rfl, hpair⟩

end IncludeScan
