import IncludeScan.Proofs.Outline.IncludeLines
import IncludeScan.Proofs.Token.Classes
import IncludeScan.Proofs.Token.LineEnds

/-!
# Proofs/Outline/SourceOrder — the includes of a tree in the order of the text

A directive token begins with a hash (`Rule.eq_hash_of_kind_directive`), so the line of an include
has a place in the text (`Outline.exists_hash`).  The number of that line counts the line ends in
front of the hash, those inside comments and behind backslashes too, and a later line has a later
place (`lt_of_line_cursorAt_lt`).

`includes_in_source_order` — the includes of a tree, at whatever depth, are written one behind the
other, on lines that ascend.
-/

namespace IncludeScan

/-! ## The place of a directive -/

/-- **A directive begins with a hash**: no other rule finds one. -/
theorem Rule.eq_hash_of_kind_directive {rule : Rule} (h : rule ∈ rules) {c : Char} {cs : List Char}
    {m : Lexeme} (hm : rule (c :: cs) = some m) (hkind : m.kind = .directive) : c = '#' := by
  obtain rfl := eq_directive_of_kind_directive h hm hkind
  obtain ⟨_, _, hcs, -⟩ := exists_of_directive hm
  exact (List.cons.inj hcs).1

theorem Longest.getElem?_of_kind_directive {text : List Char} {p : Nat} {m : Lexeme}
    (h : Longest text p m) (hp : p < text.length) (hkind : m.kind = .directive) :
    text[p]? = some '#' := by
  obtain ⟨rank, ⟨rule, hrule, hfound⟩, -⟩ := h
  rw [List.drop_eq_getElem_cons hp] at hfound
  rw [List.getElem?_eq_getElem hp,
    Rule.eq_hash_of_kind_directive (List.mem_of_getElem? hrule) hfound hkind]

/-- **A hash stands at the cursor of each directive token.** -/
theorem Cut.exists_hash {text : List Char} {p : Nat} {r : Tokenization} (h : Cut text p r) :
    ∀ t ∈ r.tokens, t.kind = .directive → ∃ q, text[q]? = some '#'
      ∧ t.cursor = cursorAt text q := by
  refine h.forall_mem_tokens (fun p m hp hm hkind => ?_) fun p q _ hkind => ?_
  · exact ⟨p, hm.getElem?_of_kind_directive hp hkind, rfl⟩
  · exact absurd hkind (by decide : Kind.word ≠ .directive)

namespace Outline

theorem kind_token_of_mem_lines {ts : List Token} {l : Line} (h : l ∈ lines ts) :
    l.token.kind = .directive :=
  (Token.directive?_eq_some_iff.1 (directive?_token_of_mem_lines h)).1

theorem exists_hash {text : String} {l : Line} (h : l ∈ lines (tokenize text).tokens) :
    ∃ p, text.toList[p]? = some '#' ∧ l.token.cursor = cursorAt text.toList p :=
  (cut_tokenize text).exists_hash l.token (token_mem_of_mem_lines h) (kind_token_of_mem_lines h)

end Outline

/-! ## Lines and places -/

/-- The line of a place counts the line ends in front of it. -/
theorem line_cursorAt (text : List Char) (p : Nat) :
    (cursorAt text p).line = (text.take p).count '\n' + 1 := by
  rw [cursorAt, Cursor.line_advance, Nat.add_comm]
  rfl

/-- What stands on a later line stands behind. -/
theorem lt_of_line_cursorAt_lt {text : List Char} {p q : Nat}
    (h : (cursorAt text p).line < (cursorAt text q).line) : p < q := by
  by_contra hle
  have hcount : (text.take q).count '\n' ≤ (text.take p).count '\n' :=
    (List.take_sublist_take_left (Nat.le_of_not_lt hle)).count_le '\n'
  rw [line_cursorAt, line_cursorAt] at h
  omega

/-! ## Where the includes are written -/

/-- **An include is written at a place of the text**: a hash stands there, on the line that the
include has, and the directive line that begins with it says the include. -/
structure Include.WrittenAt (text : String) (i : Include) (p : Nat) : Prop where
  hash : text.toList[p]? = some '#'
  line : i.line = (text.toList.take p).count '\n' + 1
  said : ∃ l ∈ Outline.directiveLines (tokenize text).tokens,
    l.token.cursor = cursorAt text.toList p ∧ l.event = .ok (.leaf (.includeFile i))

namespace Outline

theorem writtenAt {text : String} {l : Line} (hl : l ∈ lines (tokenize text).tokens) {p : Nat}
    (hp : text.toList[p]? = some '#' ∧ l.token.cursor = cursorAt text.toList p) {i : Include}
    (hi : l.event = .ok (.leaf (.includeFile i))) : i.WrittenAt text p where
  hash := hp.1
  line := by rw [l.line_of_event hi, hp.2, line_cursorAt]
  said := ⟨l, lines_eq_directiveLines _ ▸ hl, hp.2, hi⟩

/-- **The includes of a tree are written one behind the other.** -/
theorem exists_places (text : String) :
    ∃ places : List Nat, places.Pairwise (· < ·)
      ∧ List.Forall₂ (Include.WrittenAt text)
        (Directive.includes (ofTokens (tokenize text).tokens).directives) places := by
  obtain ⟨ms, hsub, hsaid⟩ := exists_sublist_includes (tokenize text).tokens
  choose! place hplace using fun l (hl : l ∈ lines (tokenize text).tokens) => exists_hash hl
  refine ⟨ms.map place, ?_, ?_⟩
  · rw [List.pairwise_map]
    have hbelow := (pairwise_lines (cut_tokenize text).pairwise_above).sublist hsub
    refine hbelow.imp_of_mem fun {l m} hl hm hlt => ?_
    rw [(hplace l (hsub.subset hl)).2, (hplace m (hsub.subset hm)).2] at hlt
    exact lt_of_line_cursorAt_lt hlt
  · rw [List.forall₂_map_right_iff]
    -- each include with its line, now known to be a line of the text
    have hlines := (List.forall₂_and_left ms _).2 ⟨fun m hm => hsub.subset hm, hsaid.flip⟩
    exact hlines.flip.imp fun i m hm => writtenAt hm.1 (hplace m hm.1) hm.2

/-- **Tree order is source order.**  The includes of a text, read from all branches of its tree,
stand on lines that ascend, so no two share one.  They are written at ascending places of the text:
a hash stands at each, the include has the number of its line, and the line that begins with it says
the include. -/
theorem includes_in_source_order {text : String} {eof : Token}
    (h : (tokenize text).ending = .ok eof) :
    ∃ o, ofText text = .ok o
      ∧ ((Directive.includes o.directives).map Include.line).Pairwise (· < ·)
      ∧ ∃ places : List Nat, places.Pairwise (· < ·)
        ∧ List.Forall₂ (Include.WrittenAt text) (Directive.includes o.directives) places := by
  have hok : ofText text = .ok (ofTokens (tokenize text).tokens) :=
    ofText_eq_ok_iff.2 ⟨⟨eof, h⟩, rfl⟩
  exact ⟨_, hok, pairwise_line_includes_ofText hok, exists_places text⟩

theorem includes_in_source_order_continued :
    ∃ o, ofText "/* a\n*/ #include \"b\"\n#ifdef A\n#include \\\n<c>\n#else\n#include <d>\n#endif\n"
      = .ok o
      ∧ (Directive.includes o.directives).map Include.line = [2, 4, 7]
      ∧ ∃ places : List Nat, places.Pairwise (· < ·)
        ∧ List.Forall₂ (Include.WrittenAt
          "/* a\n*/ #include \"b\"\n#ifdef A\n#include \\\n<c>\n#else\n#include <d>\n#endif\n")
          (Directive.includes o.directives) places := by
  have hok : (tokenize
      "/* a\n*/ #include \"b\"\n#ifdef A\n#include \\\n<c>\n#else\n#include <d>\n#endif\n").ending
      = .ok ⟨.eof, "", ⟨9, 1⟩, ⟨71, 71⟩, none⟩ := by
    rw [tokenize_eq_steps]
    decide +kernel
  obtain ⟨o, ho, -, hplaces⟩ := includes_in_source_order hok
  obtain ⟨-, rfl⟩ := ofText_eq_ok_iff.1 ho
  refine ⟨_, ho, ?_, hplaces⟩
  rw [ofTokens, lines_eq_directiveLines, tokenize_eq_steps]
  decide +kernel

end Outline

end IncludeScan
