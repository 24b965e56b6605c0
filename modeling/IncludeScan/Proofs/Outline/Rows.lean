import IncludeScan.Proofs.Outline.Lines
import IncludeScan.Proofs.Token.Newlines

/-!
# Proofs/Outline/Rows — a directive line that is written piece by piece

A *row* is a directive, pieces that keep to its line, and a line end.  Wherever it stands it is one
item, the directive line of its keyword with the pieces that are not blank (`Item.ofTokens_row`),
and it takes one line of the text (`Piece.count_newline_row`).
-/

namespace IncludeScan

open Piece

/-- A directive and the pieces behind it, up to and with the line end. -/
def Piece.row (k : Keyword) (xs : List Piece) : List Piece := directive k :: (xs ++ [lineEnd])

/-- The words of pieces at a place: the tokens that are not trivia. -/
def Piece.words (p : Cursor) (offset : Nat) (xs : List Piece) : List Token :=
  (place p offset xs).filter fun t => !t.isTrivia

namespace Piece

theorem words_cons_blank (p : Cursor) (offset : Nat) (xs : List Piece) :
    words p offset (blank :: xs) = words (p.advance [' ']) (offset + 1) xs := rfl

theorem words_cons {x : Piece} (h : x.kind.isTrivia = false) (p : Cursor) (offset : Nat)
    (xs : List Piece) :
    words p offset (x :: xs)
      = x.token p offset :: words (p.advance x.text) (offset + Text.unitCount x.text) xs := by
  rw [words, place, List.filter_cons_of_pos (by simp [token, Token.isTrivia, h])]
  rfl

@[simp] theorem words_nil (p : Cursor) (offset : Nat) : words p offset [] = [] := rfl

/-- The directive line of a row. -/
def rowLine (p : Cursor) (offset : Nat) (k : Keyword) (xs : List Piece) : Line :=
  ⟨(directive k).token p offset, k,
    words (p.advance (directive k).text) (offset + Text.unitCount (directive k).text) xs⟩

theorem kind_mem_place {p : Cursor} {offset : Nat} {xs : List Piece} {t : Token}
    (h : t ∈ place p offset xs) : ∃ x ∈ xs, t.kind = x.kind := by
  induction xs generalizing p offset with
  | nil => cases h
  | cons x xs ih =>
    rcases List.mem_cons.1 h with rfl | h
    · exact ⟨x, List.mem_cons_self, rfl⟩
    · obtain ⟨y, hy, hkind⟩ := ih h
      exact ⟨y, List.mem_cons_of_mem _ hy, hkind⟩

theorem endsLine_row (p : Cursor) (offset : Nat) (k : Keyword) (xs : List Piece) :
    EndsLine (place p offset (row k xs)) := by
  intro t ht
  rw [row, ← List.cons_append, place_append] at ht
  simp only [place, List.getLast?_concat, Option.mem_def, Option.some.injEq] at ht
  subst ht
  rfl

/-- A row is laid if its pieces are, and the first of them ends the keyword. -/
theorem laid_row {k : Keyword} {xs : List Piece} {rest : List Char}
    (hfirst : Stops isIdentPart (flat xs ++ '\n' :: rest)) (hxs : Laid xs ('\n' :: rest)) :
    Laid (row k xs) rest := by
  simp only [row, laid_cons, laid_append, laid_nil, flat_append, flat_cons, flat_nil,
    List.append_assoc, List.append_nil, lineEnd_text, List.singleton_append, and_true]
  exact ⟨fits_directive k hfirst, hxs, fits_lineEnd rest⟩

theorem count_newline_row {k : Keyword} {xs : List Piece} {rest : List Char}
    (hlaid : Laid (row k xs) rest) (hkinds : ∀ x ∈ xs, x.kind.spansLines = false) :
    (flat (row k xs)).count '\n' = 1 := by
  obtain ⟨hdirective, hbehind⟩ := laid_cons.1 hlaid
  obtain ⟨hxs, -⟩ := laid_append.1 hbehind
  have hkeyword := List.count_eq_zero.2 (hdirective.newline_notMem rfl)
  have hpieces := List.count_eq_zero.2 (newline_notMem_flat hxs hkinds)
  rw [row, flat_cons, flat_append, List.count_append, List.count_append, hkeyword, hpieces]
  rfl

end Piece

/-- **A row is one item, its directive line.** -/
theorem Item.ofTokens_row {xs : List Piece} (h : ∀ x ∈ xs, x.kind.spansLines = false) (k : Keyword)
    (p : Cursor) (offset : Nat) :
    ofTokens (place p offset (row k xs)) = [.line (rowLine p offset k xs)] := by
  have hxs : ∀ p offset, ∀ t ∈ place p offset xs, (t.kind != .newline) = true := by
    intro p offset t ht
    obtain ⟨x, hx, hkind⟩ := kind_mem_place ht
    rw [hkind, bne_iff_ne]
    intro hline
    exact absurd (h x hx) (by rw [hline]; decide)
  have hline : ∀ p offset, lineTokens (place p offset (xs ++ [lineEnd])) = place p offset xs := by
    intro p offset
    rw [place_append, lineTokens, List.takeWhile_append_of_pos (hxs p offset)]
    simp [place, token, lineEnd]
  have hbehind : ∀ p offset, behindLine (place p offset (xs ++ [lineEnd])) = [] := by
    intro p offset
    rw [place_append, behindLine, List.dropWhile_append_of_pos (hxs p offset)]
    simp [place, token, lineEnd]
  have hkind : ((directive k).token p offset).kind = .directive := rfl
  have hkeyword : ((directive k).token p offset).keyword = some k := rfl
  rw [row, place, ofTokens, if_pos hkind, hkeyword]
  simp only [hline, hbehind]
  rw [ofTokens]
  rfl

end IncludeScan
