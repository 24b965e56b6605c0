import IncludeScan.Proofs.Outline.MainFunction
import IncludeScan.Proofs.Outline.Places

/-!
# Proofs/Outline/Trivia — comments, blanks and continued line ends are not seen

The items of a file are those of its tokens that are not trivia (`Item.ofTokens_visible`), and apart
from places they show in what these tokens say (`Item.map_unplaced_eq`).  A place matters only where
a macro is defined: does the token behind its name touch it?  Where two files agree in that too,
their lines are alike (`Line.alike_of_unplaced`), and lines that are alike are read alike.

`ofTokens_ignores_trivia` — two files that say the same have the same outline.
-/

namespace IncludeScan

/-- What a token says, wherever it stands. -/
def Token.meaning (t : Token) : Kind × String × Option Keyword := (t.kind, t.value, t.keyword)

/-- The token at the beginning of a text. -/
def Token.unplaced (t : Token) : Token := { t with cursor := .start, span := ⟨0, 0⟩ }

/-! ## Items of visible tokens -/

namespace Item

/-- The tokens that are not trivia. -/
def visible (ts : List Token) : List Token := ts.filter fun t => !t.isTrivia

theorem visible_cons_trivia {t : Token} (h : t.isTrivia = true) (ts : List Token) :
    visible (t :: ts) = visible ts :=
  List.filter_cons_of_neg (by simp [h])

theorem visible_cons {t : Token} (h : t.isTrivia = false) (ts : List Token) :
    visible (t :: ts) = t :: visible ts :=
  List.filter_cons_of_pos (by simp [h])

theorem visible_visible (ts : List Token) : visible (visible ts) = visible ts := by
  simp [visible]

/-- Trivia ends no line. -/
theorem lineTokens_visible (ts : List Token) :
    lineTokens (visible ts) = visible (lineTokens ts) := by
  induction ts with
  | nil => rfl
  | cons t ts ih =>
    by_cases hnl : t.kind = .newline
    · rw [visible_cons (congrArg Kind.isTrivia hnl)]
      simp [lineTokens, hnl, visible]
    · have hline : lineTokens (t :: ts) = t :: lineTokens ts := by simp [lineTokens, hnl]
      cases htrivia : t.isTrivia with
      | true => rw [visible_cons_trivia htrivia, hline, visible_cons_trivia htrivia, ih]
      | false =>
        rw [visible_cons htrivia, hline, visible_cons htrivia, ← ih]
        simp [lineTokens, hnl]

theorem behindLine_visible (ts : List Token) :
    behindLine (visible ts) = visible (behindLine ts) := by
  induction ts with
  | nil => rfl
  | cons t ts ih =>
    by_cases hnl : t.kind = .newline
    · rw [visible_cons (congrArg Kind.isTrivia hnl)]
      simp [behindLine, hnl]
    · have hbehind : ∀ us, behindLine (t :: us) = behindLine us := fun us => by
        simp [behindLine, hnl]
      rw [hbehind, ← ih]
      cases htrivia : t.isTrivia with
      | true => rw [visible_cons_trivia htrivia]
      | false => rw [visible_cons htrivia, hbehind]

/-- **The items are those of the visible tokens.** -/
theorem ofTokens_visible (ts : List Token) : ofTokens (visible ts) = ofTokens ts := by
  fun_induction ofTokens ts with
  | case1 => simp [visible, ofTokens]
  | case2 t ts hdir k hk ih =>
    rw [visible_cons (congrArg Kind.isTrivia hdir), ofTokens, if_pos hdir, hk]
    simp only [lineTokens_visible, behindLine_visible, ih]
    exact congrArg (fun args => Item.line ⟨t, k, args⟩ :: _) (visible_visible (lineTokens ts))
  | case3 t ts hdir hk ih =>
    rw [visible_cons (congrArg Kind.isTrivia hdir), ofTokens, if_pos hdir, hk]
    simp only [ih]
  | case4 t ts hdir hskip ih =>
    cases htrivia : t.isTrivia with
    | true => rw [visible_cons_trivia htrivia, ih]
    | false => rw [visible_cons htrivia, ofTokens, if_neg hdir, if_pos hskip, ih]
  | case5 t ts hdir hskip ih =>
    have htrivia : t.isTrivia = false := by simpa using (not_or.1 hskip).1
    rw [visible_cons htrivia, ofTokens, if_neg hdir, if_neg hskip, ih]

end Item

/-! ## Files that say the same -/

section

variable {ts us : List Token}
    (h : (Item.visible ts).map Token.meaning = (Item.visible us).map Token.meaning)

include h

theorem map_unplaced_visible_eq :
    (Item.visible ts).map Token.unplaced = (Item.visible us).map Token.unplaced := by
  have hunplaced : Token.unplaced
      = (fun x : Kind × String × Option Keyword => ⟨x.1, x.2.1, .start, ⟨0, 0⟩, x.2.2⟩) ∘
        Token.meaning := rfl
  rw [hunplaced, ← List.map_map, h, List.map_map]

/-- **The items are the same**, apart from places. -/
theorem Item.map_unplaced_eq :
    (ofTokens ts).map (Item.map Token.unplaced) = (ofTokens us).map (Item.map Token.unplaced) := by
  have hmap := @ofTokens_map Token.unplaced (fun _ => rfl) (fun _ => rfl)
  rw [← ofTokens_visible ts, ← ofTokens_visible us, ← hmap, ← hmap, map_unplaced_visible_eq h]

theorem Outline.map_unplaced_lines_eq :
    (lines ts).map (Line.map Token.unplaced) = (lines us).map (Line.map Token.unplaced) := by
  have hvisible : ∀ ts, lines (Item.visible ts) = lines ts := fun ts => by
    rw [lines, Item.ofTokens_visible, lines]
  have hmap := @lines_map Token.unplaced (fun _ => rfl) (fun _ => rfl)
  rw [← hvisible ts, ← hvisible us, ← hmap, ← hmap, map_unplaced_visible_eq h]

/-- The watch for a main function sees no places. -/
theorem Outline.hasMainIn_eq : hasMainIn ts = hasMainIn us := by
  have hshape : ∀ items : List Item,
      items.map Item.shape = (items.map (Item.map Token.unplaced)).map Item.shape := by
    intro items
    rw [List.map_map]
    refine List.map_congr_left fun x _ => ?_
    cases x <;> rfl
  have hsame : (Item.ofTokens ts).map Item.shape = (Item.ofTokens us).map Item.shape := by
    rw [hshape, Item.map_unplaced_eq h, ← hshape]
  rw [hasMainIn, hasMainIn, MainWatch.foldl_see_congr hsame]

end

/-- The token behind the first word of the line touches it. -/
def Line.nameTouches (l : Line) : Bool :=
  match l.args with
  | name :: next :: _ => next.span.start == name.span.stop
  | _ => false

theorem Token.sameWord_of_unplaced {t u : Token} (h : t.unplaced = u.unplaced) : SameWord t u := by
  obtain ⟨hkind, hvalue, -⟩ := Token.mk.inj h
  exact ⟨hkind, hvalue⟩

/-- **Lines that are the same apart from places are alike**, if a macro that they define touches
what is behind it in both or in neither. -/
theorem Line.alike_of_unplaced {f : Nat → Nat} (hf : ∀ i j, f i = f j) {l m : Line}
    (h : l.map Token.unplaced = m.map Token.unplaced)
    (htouches : l.keyword = .define → l.nameTouches = m.nameTouches) : Line.Alike f f l m := by
  obtain ⟨token, keyword, ts⟩ := l
  obtain ⟨token', keyword', us⟩ := m
  obtain ⟨-, hkeyword, hargs⟩ := Line.mk.inj h
  rw [← List.forall₂_eq_eq_eq, List.forall₂_map_left_iff, List.forall₂_map_right_iff] at hargs
  replace hargs := hargs.imp fun _ _ => Token.sameWord_of_unplaced
  refine ⟨hkeyword, hf _ _, hargs, fun hdefine => ?_⟩
  replace htouches := htouches hdefine
  cases hargs with
  | nil => rfl
  | cons _ hrest =>
    cases hrest with
    | nil => rfl
    | @cons next next' _ _ hnext _ =>
      exact congrArg₂ (· && ·) (hnext.isPunct "(") htouches

/-! ## Outlines -/

/-- What a diagnostic says, without its place. -/
def Diagnostic.wording (d : Diagnostic) : DiagnosticCode × String × Option Severity :=
  (d.code, d.message, d.severity)

namespace LineReader.Alike

variable {f g : Nat → Nat} {r s : LineReader}

theorem isEmpty_frames (h : Alike f g r s) : r.frames.isEmpty = s.frames.isEmpty := by
  rw [Bool.eq_iff_iff, List.isEmpty_iff_length_eq_zero, List.isEmpty_iff_length_eq_zero,
    h.frames.length_eq]

/-- Both files end inside a block, or none does, and the same is said about it. -/
theorem endComplaint? (h : Alike f g r s) :
    (Outline.endComplaint? r).map Complaint.wording
      = (Outline.endComplaint? s).map Complaint.wording := by
  obtain ⟨frames, body, complaints⟩ := r
  obtain ⟨frames', body', complaints'⟩ := s
  obtain ⟨hframes, -, -⟩ := h
  cases hframes with
  | nil => rfl
  | cons hab =>
    simp only [Outline.endComplaint?, List.head?_cons, Option.map_some, hab.keyword]
    rfl

/-- All that is reported is the same. -/
theorem all_complaints (h : Alike f g r s) :
    (r.complaints.reverse ++ (Outline.endComplaint? r).toList).map Complaint.wording
      = (s.complaints.reverse ++ (Outline.endComplaint? s).toList).map Complaint.wording := by
  rw [List.map_append, List.map_append, List.map_reverse, List.map_reverse, h.complaints,
    ← Option.toList_map, ← Option.toList_map, h.endComplaint?]

end LineReader.Alike

namespace Outline

variable {ts us : List Token}

/-- **Files whose lines are alike have the same outline**, up to the numbers of lines and to
places. -/
theorem alike_ofTokens {f g : Nat → Nat} (h : List.Forall₂ (Line.Alike f g) (lines ts) (lines us)) :
    Directive.renumberAll f (ofTokens ts).directives
      = Directive.renumberAll g (ofTokens us).directives
      ∧ (ofTokens ts).diagnostics.map Diagnostic.wording
        = (ofTokens us).diagnostics.map Diagnostic.wording := by
  have hempty : LineReader.Alike f g {} {} := ⟨.nil, rfl, rfl⟩
  have halike :
      LineReader.Alike f g (LineReader.readAll (lines ts)) (LineReader.readAll (lines us)) :=
    hempty.foldl h
  have hwording : Diagnostic.wording ∘ Complaint.toDiagnostic
      = (fun w => (w.1, w.2.1, some w.2.2)) ∘ Complaint.wording := rfl
  constructor
  · simp only [ofTokens, halike.isEmpty_frames]
    split
    · rw [Directive.renumberAll_reverse, Directive.renumberAll_reverse, halike.body]
    · rfl
  · have hcomplaints := halike.all_complaints
    rw [ofTokens, ofTokens, List.map_map, List.map_map, hwording, ← List.map_map, hcomplaints,
      List.map_map]

/-- **What is not seen.**  Take two files whose tokens other than blanks, comments and continued
line ends agree one by one in kind, text and keyword, and in which the name that a `#define` line
begins with touches the token behind it in both or in neither.  Then they have the same directives
up to the lines of includes, both or none has a main function, and the same is reported about them
up to places. -/
theorem ofTokens_ignores_trivia
    (h : (Item.visible ts).map Token.meaning = (Item.visible us).map Token.meaning)
    (htouches : ∀ x ∈ (directiveLines ts).zip (directiveLines us),
      x.1.keyword = .define → x.1.nameTouches = x.2.nameTouches) :
    Directive.renumberAll (fun _ => 0) (ofTokens ts).directives
        = Directive.renumberAll (fun _ => 0) (ofTokens us).directives
      ∧ (ofTokens ts).hasMain = (ofTokens us).hasMain
      ∧ (ofTokens ts).diagnostics.map Diagnostic.wording
        = (ofTokens us).diagnostics.map Diagnostic.wording := by
  rw [← lines_eq_directiveLines, ← lines_eq_directiveLines] at htouches
  have hlines := map_unplaced_lines_eq h
  rw [← List.forall₂_eq_eq_eq, List.forall₂_map_left_iff, List.forall₂_map_right_iff,
    List.forall₂_iff_zip] at hlines
  have halike : List.Forall₂ (Line.Alike (fun _ => 0) fun _ => 0) (lines ts) (lines us) :=
    List.forall₂_iff_zip.2 ⟨hlines.1, fun hlm =>
      Line.alike_of_unplaced (fun _ _ => rfl) (hlines.2 hlm) (htouches _ hlm)⟩
  obtain ⟨hdirectives, hdiagnostics⟩ := alike_ofTokens halike
  exact ⟨hdirectives, hasMainIn_eq h, hdiagnostics⟩

/-- Comments and a continued line end in the one, and none in the other; a macro that does not touch
its parenthesis, and a line that cannot be read. -/
theorem ofTokens_ignores_trivia_comments :
    ∃ ts us,
      (tokenize "#define A/**/(x) \\\n y\n#undef // b\n/*\n*/#include <c>\nint main /**/(").tokens
        = ts
      ∧ (tokenize "#define A (x) y\n#undef\n#include <c>\nint main(").tokens = us
      ∧ Directive.renumberAll (fun _ => 0) (ofTokens ts).directives
        = Directive.renumberAll (fun _ => 0) (ofTokens us).directives
      ∧ (ofTokens ts).hasMain = (ofTokens us).hasMain
      ∧ (ofTokens ts).diagnostics.map Diagnostic.wording
        = (ofTokens us).diagnostics.map Diagnostic.wording
      ∧ (ofTokens us).diagnostics.map Diagnostic.code = [.malformedUndef] := by
  have hsame : (Item.visible (tokenize
        "#define A/**/(x) \\\n y\n#undef // b\n/*\n*/#include <c>\nint main /**/(").tokens).map
        Token.meaning
      = (Item.visible (tokenize "#define A (x) y\n#undef\n#include <c>\nint main(").tokens).map
        Token.meaning := by
    rw [tokenize_eq_steps, tokenize_eq_steps]
    decide +kernel
  obtain ⟨hdirectives, hmain, hdiagnostics⟩ := ofTokens_ignores_trivia hsame (by
    rw [tokenize_eq_steps, tokenize_eq_steps]
    decide +kernel)
  refine ⟨_, _, rfl, rfl, hdirectives, hmain, hdiagnostics, ?_⟩
  rw [ofTokens, lines_eq_directiveLines, tokenize_eq_steps]
  decide +kernel

end Outline

end IncludeScan
