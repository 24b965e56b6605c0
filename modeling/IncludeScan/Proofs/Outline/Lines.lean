import IncludeScan.Outline
import Mathlib.Data.List.Infix

/-!
# Proofs/Outline/Lines — the directive lines of a file, row by row

A *row* is what stands between two newline tokens.  The first directive of a row begins a directive
line, and the rest of the row belongs to it; so each row has at most one line, and the lines of a
file are those of its rows (`lines_eq_directiveLines`).

What comes before the end of a line and what comes behind it are read apart
(`Item.ofTokens_append`).
-/

namespace IncludeScan

/-- The directive that a token names. -/
def Token.directive? (t : Token) : Option Keyword :=
  if t.kind = .directive then t.keyword else none

theorem Token.directive?_eq_some_iff {t : Token} {k : Keyword} :
    t.directive? = some k ↔ t.kind = .directive ∧ t.keyword = some k := by
  rw [directive?, Option.ite_none_right_eq_some]

/-- The tokens of a line. -/
def Line.tokens (l : Line) : List Token := l.token :: l.args

namespace Outline

/-- What stands between the newline tokens. -/
def rows (ts : List Token) : List (List Token) := ts.splitOnP fun t => t.kind == .newline

/-- The directive line of a row: the first directive, and what follows it in the row and is not
trivia. -/
def rowLine? : List Token → Option Line
  | [] => none
  | t :: ts =>
    match t.directive? with
    | some k => some ⟨t, k, ts.filter fun u => !u.isTrivia⟩
    | none => rowLine? ts

/-- **The directive lines, row by row.** -/
def directiveLines (ts : List Token) : List Line := (rows ts).filterMap rowLine?

theorem rows_cons_newline {t : Token} (h : t.kind = .newline) (ts : List Token) :
    rows (t :: ts) = [] :: rows ts := by
  rw [rows, List.splitOnP_cons_eq_if_modifyHead, if_pos (by simpa using h)]
  rfl

theorem rows_cons {t : Token} (h : t.kind ≠ .newline) (ts : List Token) :
    rows (t :: ts) = (rows ts).modifyHead (List.cons t) := by
  rw [rows, List.splitOnP_cons_eq_if_modifyHead, if_neg (by simpa using h)]
  rfl

/-- The first row is the rest of the line, and the others are the rows behind it. -/
theorem exists_rows (ts : List Token) :
    ∃ others, rows ts = Item.lineTokens ts :: others
      ∧ (others = rows (Item.behindLine ts) ∨ others = [] ∧ Item.behindLine ts = []) := by
  induction ts with
  | nil => exact ⟨[], rfl, Or.inr ⟨rfl, rfl⟩⟩
  | cons t ts ih =>
    by_cases h : t.kind = .newline
    · refine ⟨rows ts, ?_, Or.inl ?_⟩
      · rw [rows_cons_newline h]
        simp [Item.lineTokens, h]
      · simp [Item.behindLine, h]
    · obtain ⟨others, hrows, hothers⟩ := ih
      refine ⟨others, ?_, ?_⟩
      · rw [rows_cons h, hrows]
        simp [Item.lineTokens, h]
      · simpa [Item.behindLine, h] using hothers

/-- A token in front that names no directive changes no line. -/
theorem directiveLines_cons {t : Token} (h : t.directive? = none) (ts : List Token) :
    directiveLines (t :: ts) = directiveLines ts := by
  unfold directiveLines
  by_cases hnl : t.kind = .newline
  · rw [rows_cons_newline hnl]
    rfl
  · have hrow : ∀ row, rowLine? (t :: row) = rowLine? row := fun row => by rw [rowLine?, h]
    obtain ⟨others, hrows, -⟩ := exists_rows ts
    rw [rows_cons hnl, hrows, List.modifyHead_cons, List.filterMap_cons, List.filterMap_cons, hrow]

/-- A directive in front begins a line, which takes the rest of its row. -/
theorem directiveLines_cons_directive {t : Token} {k : Keyword} (h : t.directive? = some k)
    (ts : List Token) :
    directiveLines (t :: ts) = ⟨t, k, (Item.lineTokens ts).filter fun u => !u.isTrivia⟩
      :: directiveLines (Item.behindLine ts) := by
  have hnl : t.kind ≠ .newline := fun hnl => by simp [Token.directive?, hnl] at h
  obtain ⟨others, hrows, hothers⟩ := exists_rows ts
  rw [directiveLines, rows_cons hnl, hrows, List.modifyHead_cons, List.filterMap_cons, rowLine?, h]
  rcases hothers with rfl | ⟨rfl, hbehind⟩
  · rfl
  · rw [hbehind]
    rfl

/-- **The lines that are read are those of the rows.** -/
theorem lines_eq_directiveLines (ts : List Token) : lines ts = directiveLines ts := by
  unfold lines
  fun_induction Item.ofTokens ts with
  | case1 => rfl
  | case2 t ts hdir k hk ih =>
    have hname := Token.directive?_eq_some_iff.2 ⟨hdir, hk⟩
    rw [directiveLines_cons_directive hname, ← ih]
    rfl
  | case3 t ts hdir hk ih =>
    have hname : t.directive? = none := by rw [Token.directive?, if_pos hdir, hk]
    rw [directiveLines_cons hname, ← ih]
    rfl
  | case4 t ts hdir h ih =>
    rw [directiveLines_cons (if_neg hdir), ← ih]
  | case5 t ts hdir h ih =>
    rw [directiveLines_cons (if_neg hdir), ← ih]
    rfl

/-- A line says the directive of the token that it begins with. -/
theorem directive?_token_of_mem_lines {ts : List Token} {l : Line} (h : l ∈ lines ts) :
    l.token.directive? = some l.keyword := by
  unfold lines at h
  fun_induction Item.ofTokens ts with
  | case1 => cases h
  | case2 t ts hdir k hk ih =>
    rcases List.mem_cons.1 h with rfl | h
    · exact Token.directive?_eq_some_iff.2 ⟨hdir, hk⟩
    · exact ih h
  | case3 t ts hdir hk ih => exact ih h
  | case4 t ts hdir hskip ih => exact ih h
  | case5 t ts hdir hskip ih => exact ih h

end Outline

/-! ## The tokens of the lines are tokens of the file -/

namespace Item

theorem lineTokens_append_behindLine_sublist (ts : List Token) :
    (lineTokens ts ++ behindLine ts).Sublist ts := by
  have hsplit :=
    List.takeWhile_append_dropWhile (p := fun t : Token => t.kind != .newline) (l := ts)
  conv_rhs => rw [← hsplit]
  exact (List.Sublist.refl _).append (List.drop_sublist 1 _)

end Item

namespace Outline

/-- **No token belongs to two lines, and none is moved.** -/
theorem flatMap_tokens_lines_sublist (ts : List Token) :
    ((lines ts).flatMap Line.tokens).Sublist ts := by
  unfold lines
  fun_induction Item.ofTokens ts with
  | case1 => exact List.Sublist.refl _
  | case2 t ts hdir k hk ih =>
    refine List.Sublist.cons_cons t
      (List.Sublist.trans ?_ (Item.lineTokens_append_behindLine_sublist ts))
    exact List.filter_sublist.append ih
  | case3 t ts hdir hk ih => exact ih.cons t
  | case4 t ts hdir h ih => exact ih.cons t
  | case5 t ts hdir h ih => exact ih.cons t

end Outline

/-! ## Before and behind a line end -/

/-- The tokens end with the end of a line, or there are none. -/
def EndsLine (ts : List Token) : Prop := ∀ t ∈ ts.getLast?, t.kind = .newline

theorem EndsLine.of_append {ts us : List Token} (h : EndsLine (ts ++ us)) : EndsLine us := by
  intro t ht
  refine h t ?_
  rw [List.getLast?_append]
  simp [Option.mem_def.1 ht]

theorem EndsLine.of_cons {t : Token} {ts : List Token} (h : EndsLine (t :: ts)) : EndsLine ts :=
  @EndsLine.of_append [t] ts h

/-- Behind a token that ends no line there is one that does. -/
theorem EndsLine.exists_newline {t : Token} {ts : List Token} (h : EndsLine (t :: ts))
    (ht : t.kind ≠ .newline) : ∃ u ∈ ts, u.kind = .newline := by
  cases hlast : ts.getLast? with
  | none =>
    obtain rfl := List.getLast?_eq_none_iff.1 hlast
    exact absurd (h t rfl) ht
  | some u => exact ⟨u, List.mem_of_getLast? hlast, h.of_cons u hlast⟩

namespace Item

theorem lineTokens_append {ts : List Token} (h : ∃ t ∈ ts, t.kind = .newline) (us : List Token) :
    lineTokens (ts ++ us) = lineTokens ts := by
  induction ts with
  | nil => simp at h
  | cons t ts ih =>
    by_cases ht : t.kind = .newline
    · simp [lineTokens, ht]
    · have hts : ∃ t ∈ ts, t.kind = .newline := by simpa [ht] using h
      simpa [lineTokens, ht] using ih hts

theorem behindLine_append {ts : List Token} (h : ∃ t ∈ ts, t.kind = .newline) (us : List Token) :
    behindLine (ts ++ us) = behindLine ts ++ us := by
  induction ts with
  | nil => simp at h
  | cons t ts ih =>
    by_cases ht : t.kind = .newline
    · simp [behindLine, ht]
    · have hts : ∃ t ∈ ts, t.kind = .newline := by simpa [ht] using h
      simpa [behindLine, ht] using ih hts

theorem endsLine_behindLine {ts : List Token} (h : EndsLine ts) : EndsLine (behindLine ts) := by
  have hsuffix : Item.behindLine ts <:+ ts :=
    (List.drop_suffix 1 _).trans (List.dropWhile_suffix _)
  obtain ⟨front, hfront⟩ := hsuffix
  exact EndsLine.of_append (hfront.symm ▸ h)

/-- **Items on both sides of a line end are read apart.** -/
theorem ofTokens_append {ts : List Token} (h : EndsLine ts) (us : List Token) :
    ofTokens (ts ++ us) = ofTokens ts ++ ofTokens us := by
  fun_induction ofTokens ts with
  | case1 => rfl
  | case2 t ts hdir k hk ih =>
    have hnl := h.exists_newline (by simp [hdir])
    rw [List.cons_append, ofTokens, if_pos hdir, hk]
    simp only [lineTokens_append hnl, behindLine_append hnl]
    rw [ih (endsLine_behindLine h.of_cons), List.cons_append]
  | case3 t ts hdir hk ih =>
    rw [List.cons_append, ofTokens, if_pos hdir, hk]
    simp only [ih h.of_cons, List.cons_append]
  | case4 t ts hdir hskip ih =>
    rw [List.cons_append, ofTokens, if_neg hdir, if_pos hskip, ih h.of_cons]
  | case5 t ts hdir hskip ih =>
    rw [List.cons_append, ofTokens, if_neg hdir, if_neg hskip, ih h.of_cons, List.cons_append]

end Item

theorem Outline.lines_append {ts : List Token} (h : EndsLine ts) (us : List Token) :
    lines (ts ++ us) = lines ts ++ lines us := by
  rw [lines, Item.ofTokens_append h, List.filterMap_append]
  rfl

/-! ## Tokens at other places -/

/-- The line with its tokens changed. -/
def Line.map (f : Token → Token) (l : Line) : Line := ⟨f l.token, l.keyword, l.args.map f⟩

/-- The item with its tokens changed. -/
def Item.map (f : Token → Token) : Item → Item
  | .code t => .code (f t)
  | .line l => .line (l.map f)
  | .unnamed => .unnamed

namespace Item

variable {f : Token → Token} (hkind : ∀ t, (f t).kind = t.kind)

include hkind

theorem lineTokens_map (ts : List Token) : lineTokens (ts.map f) = (lineTokens ts).map f := by
  have hf : (fun t : Token => t.kind != .newline) ∘ f = fun t => t.kind != .newline :=
    funext fun t => by simp [hkind]
  rw [lineTokens, List.takeWhile_map, hf, lineTokens]

theorem behindLine_map (ts : List Token) : behindLine (ts.map f) = (behindLine ts).map f := by
  have hf : (fun t : Token => t.kind != .newline) ∘ f = fun t => t.kind != .newline :=
    funext fun t => by simp [hkind]
  rw [behindLine, List.dropWhile_map, hf, ← List.map_drop, behindLine]

/-- **Items depend on the kinds and the keywords of the tokens only.** -/
theorem ofTokens_map (hkeyword : ∀ t, (f t).keyword = t.keyword) (ts : List Token) :
    ofTokens (ts.map f) = (ofTokens ts).map (Item.map f) := by
  have htrivia : ∀ t, (f t).isTrivia = t.isTrivia := fun t => by
    rw [Token.isTrivia, hkind, Token.isTrivia]
  fun_induction ofTokens ts with
  | case1 => simp [ofTokens]
  | case2 t ts hdir k hk ih =>
    have hargs : (List.map f (lineTokens ts)).filter (fun u => !u.isTrivia)
        = ((lineTokens ts).filter fun u => !u.isTrivia).map f := by
      rw [List.filter_map]
      exact congrArg _ (List.filter_congr fun u _ => by simp [htrivia])
    rw [List.map_cons, ofTokens, if_pos ((hkind t).trans hdir), hkeyword, hk]
    simp only [lineTokens_map hkind, behindLine_map hkind, ih, hargs, List.map_cons, Item.map,
      Line.map]
  | case3 t ts hdir hk ih =>
    rw [List.map_cons, ofTokens, if_pos ((hkind t).trans hdir), hkeyword, hk]
    simp only [ih, List.map_cons, Item.map]
  | case4 t ts hdir hskip ih =>
    rw [List.map_cons, ofTokens, hkind, htrivia, if_neg hdir, if_pos hskip, ih]
  | case5 t ts hdir hskip ih =>
    rw [List.map_cons, ofTokens, hkind, htrivia, if_neg hdir, if_neg hskip, ih]
    rfl

end Item

theorem Outline.lines_map {f : Token → Token} (hkind : ∀ t, (f t).kind = t.kind)
    (hkeyword : ∀ t, (f t).keyword = t.keyword) (ts : List Token) :
    lines (ts.map f) = (lines ts).map (Line.map f) := by
  rw [lines, lines, Item.ofTokens_map hkind hkeyword, List.filterMap_map, List.map_filterMap]
  refine List.filterMap_congr fun item _ => ?_
  cases item <;> rfl

namespace LineReader

/-- Reads a line that belongs to an open block, if there is one. -/
def innerStep (r : LineReader) (l : Line) : LineReader :=
  match r.frames with
  | [] => r.report ⟨.unpaired l.keyword, l.token⟩
  | f :: fs => r.branchStep f fs l

theorem step_eq (r : LineReader) (l : Line) :
    r.step l
      = match l.keyword.role with
        | .single =>
          match l.readSingle with
          | .ok d => r.add d
          | .error e => r.report e
        | .opens =>
          match l.readCondition with
          | .ok c => r.openBlock l c
          | .error e => r.report e
        | .continues | .falls | .closes => r.innerStep l := rfl

theorem innerStep_of_frames {r : LineReader} {f : Frame} {fs : List Frame} (h : r.frames = f :: fs)
    (l : Line) : r.innerStep l = r.branchStep f fs l := by
  rw [innerStep, h]

end LineReader

theorem map_eq_error_iff {ε α β : Type} {f : α → β} {x : Except ε α} {e : ε} :
    x.map f = .error e ↔ x = .error e := by
  rcases x with e' | a
  · exact ⟨fun h => congrArg _ (Except.error.inj h), fun h => congrArg _ (Except.error.inj h)⟩
  · exact ⟨nofun, nofun⟩

theorem exists_of_map_eq_ok {ε α β : Type} {f : α → β} {x : Except ε α} {b : β}
    (h : x.map f = .ok b) : ∃ a, x = .ok a ∧ f a = b := by
  cases x with
  | error e => cases h
  | ok a => exact ⟨a, rfl, Except.ok.inj h⟩

/-- A text has an outline if and only if it can be cut. -/
theorem Outline.ofText_eq_ok_iff {text : String} {o : Outline} :
    ofText text = .ok o
      ↔ (∃ eof, (tokenize text).ending = .ok eof) ∧ o = ofTokens (tokenize text).tokens := by
  rw [ofText]
  cases (tokenize text).ending <;> simp [Except.map, eq_comm]

end IncludeScan
