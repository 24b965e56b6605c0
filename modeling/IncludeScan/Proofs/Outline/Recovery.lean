import IncludeScan.Proofs.Outline.IncludeLines
import IncludeScan.Proofs.Outline.Reactions

/-!
# Proofs/Outline/Recovery — a line that is reported is as good as absent

A line that cannot be read or does not fit is dropped, and what was open stays open.  So the tokens
of such a line can be left out, from the directive up to the end of the line: the directives are the
same, and of the diagnostics only its own is missing (`Outline.ofTokens_withoutLine`).

Two things meet here.  Leaving out the tokens of a line takes that line out of the lines of the file
and touches no other (`Outline.splits_of_mem_lines`); and a reader that has made one complaint more
goes on in the same way as one that has not (`LineReader.exists_foldl_step_report`).
-/

namespace IncludeScan

/-! ## A line left out -/

namespace Item

theorem eq_lineTokens_append {ts : List Token} (h : behindLine ts ≠ []) :
    ∃ t, t.kind = .newline ∧ ts = lineTokens ts ++ t :: behindLine ts := by
  induction ts with
  | nil => exact absurd rfl h
  | cons u ts ih =>
    by_cases hu : u.kind = .newline
    · exact ⟨u, hu, by simp [lineTokens, behindLine, hu]⟩
    · have hbehind : behindLine (u :: ts) = behindLine ts := by simp [behindLine, hu]
      obtain ⟨t, ht, heq⟩ := ih (hbehind ▸ h)
      refine ⟨t, ht, ?_⟩
      rw [hbehind, lineTokens, List.takeWhile_cons_of_pos (by simpa using hu), List.cons_append]
      exact congrArg _ heq

end Item

namespace Outline

/-- **The tokens without those of a line**, from its directive up to its end. -/
def withoutLine (l : Line) (ts : List Token) : List Token :=
  ts.takeWhile (· != l.token)
    ++ (ts.dropWhile (· != l.token)).dropWhile fun t => t.kind != .newline

theorem withoutLine_append {l : Line} {ts : List Token} (h : l.token ∉ ts) (us : List Token) :
    withoutLine l (ts ++ us) = ts ++ withoutLine l us := by
  have hts : ∀ t ∈ ts, (t != l.token) = true := fun t ht => bne_iff_ne.2 fun heq => h (heq ▸ ht)
  rw [withoutLine, List.takeWhile_append_of_pos hts, List.dropWhile_append_of_pos hts,
    List.append_assoc, withoutLine]

theorem withoutLine_cons {l : Line} {t : Token} (h : t ≠ l.token) (ts : List Token) :
    withoutLine l (t :: ts) = t :: withoutLine l ts :=
  @withoutLine_append l [t] (by simpa using h.symm) ts

theorem withoutLine_cons_self {l : Line} (h : l.token.kind ≠ .newline) (ts : List Token) :
    withoutLine l (l.token :: ts) = ts.dropWhile fun t => t.kind != .newline := by
  simp [withoutLine, h]

theorem lines_cons {t : Token} (h : t.directive? = none) (ts : List Token) :
    lines (t :: ts) = lines ts := by
  rw [lines_eq_directiveLines, directiveLines_cons h, lines_eq_directiveLines]

theorem lines_cons_directive {t : Token} {k : Keyword} (h : t.directive? = some k)
    (ts : List Token) :
    lines (t :: ts) = ⟨t, k, (Item.lineTokens ts).filter fun u => !u.isTrivia⟩
      :: lines (Item.behindLine ts) := by
  rw [lines_eq_directiveLines, directiveLines_cons_directive h, lines_eq_directiveLines]

/-- **What holds of the tokens that begin with a line holds of all tokens that have it**, if it
passes over a token that begins no line, and over a line and its end. -/
theorem mem_lines_induction {l : Line} {motive : List Token → Prop}
    (here : ∀ ts, l.token.directive? = some l.keyword →
      l.args = (Item.lineTokens ts).filter (fun u => !u.isTrivia) → motive (l.token :: ts))
    (past : ∀ t ts, t.directive? = none → l ∈ lines ts → motive ts → motive (t :: ts))
    (behind : ∀ front u ts, u.kind = .newline → l ∈ lines ts → motive ts →
      motive (front ++ u :: ts))
    {ts : List Token} (h : l ∈ lines ts) : motive ts := by
  induction ts using Item.ofTokens.induct with
  | case1 => simp [lines, Item.ofTokens] at h
  | case2 t ts hdir k hk ih =>
    have hname := Token.directive?_eq_some_iff.2 ⟨hdir, hk⟩
    rw [lines_cons_directive hname] at h
    rcases List.mem_cons.1 h with rfl | h
    · exact here ts hname rfl
    · obtain ⟨u, hu, hts⟩ :=
        Item.eq_lineTokens_append (List.ne_nil_of_mem (token_mem_of_mem_lines h))
      have hbehind := behind (t :: Item.lineTokens ts) u (Item.behindLine ts) hu h (ih h)
      rwa [List.cons_append, ← hts] at hbehind
  | case3 t ts hdir hk ih =>
    have hname : t.directive? = none := by rw [Token.directive?, if_pos hdir, hk]
    rw [lines_cons hname] at h
    exact past t ts hname h (ih h)
  | case4 t ts hdir _ ih =>
    rw [lines_cons (if_neg hdir)] at h
    exact past t ts (if_neg hdir) h (ih h)
  | case5 t ts hdir _ ih =>
    rw [lines_cons (if_neg hdir)] at h
    exact past t ts (if_neg hdir) h (ih h)

/-- The end of a line is no line. -/
theorem lines_dropWhile (ts : List Token) :
    lines (ts.dropWhile fun t => t.kind != .newline) = lines (Item.behindLine ts) := by
  induction ts with
  | nil => rfl
  | cons t ts ih =>
    by_cases ht : t.kind = .newline
    · have hdrop : (t :: ts).dropWhile (fun t => t.kind != .newline) = t :: ts := by simp [ht]
      rw [Item.behindLine, hdrop, lines_cons (by simp [Token.directive?, ht])]
      rfl
    · simpa [Item.behindLine, ht] using ih

/-- The tokens fall apart at the line: there are lines before and behind it, and without its tokens
there are just those. -/
def Splits (l : Line) (ts : List Token) : Prop :=
  ∃ before after, lines ts = before ++ l :: after ∧ lines (withoutLine l ts) = before ++ after

theorem Splits.cons {l : Line} {t : Token} {ts : List Token} (h : Splits l ts)
    (ht : t.directive? = none) (hne : t ≠ l.token) : Splits l (t :: ts) := by
  rwa [Splits, withoutLine_cons hne, lines_cons ht, lines_cons ht]

theorem Splits.append {l : Line} {ts us : List Token} (h : Splits l us) (hts : EndsLine ts)
    (hne : l.token ∉ ts) : Splits l (ts ++ us) := by
  obtain ⟨before, after, hlines, hwithout⟩ := h
  refine ⟨lines ts ++ before, after, ?_, ?_⟩
  · rw [lines_append hts, hlines, List.append_assoc]
  · rw [withoutLine_append hne, lines_append hts, hwithout, List.append_assoc]

/-- **Leaving out the tokens of a line takes that line out, and touches no other.** -/
theorem splits_of_mem_lines {ts : List Token} (hnodup : ts.Nodup) {l : Line} (hl : l ∈ lines ts) :
    Splits l ts := by
  refine mem_lines_induction (motive := fun ts => ts.Nodup → Splits l ts)
    (fun ts hname hargs _ => ?_)
    (fun t ts ht hl ih hnodup => ?_) (fun front u ts hu hl ih hnodup => ?_) hl hnodup
  · have hkind : l.token.kind ≠ .newline := by
      rw [(Token.directive?_eq_some_iff.1 hname).1]
      decide
    refine ⟨[], lines (Item.behindLine ts), ?_, ?_⟩
    · rw [lines_cons_directive hname, ← hargs]
      rfl
    · rw [withoutLine_cons_self hkind, lines_dropWhile]
      rfl
  · obtain ⟨hnotMem, hts⟩ := List.nodup_cons.1 hnodup
    exact (ih hts).cons ht fun heq => hnotMem (heq ▸ token_mem_of_mem_lines hl)
  · -- the line stands behind the end of another
    rw [← List.singleton_append, ← List.append_assoc] at hnodup ⊢
    obtain ⟨-, hts, hdisjoint⟩ := List.nodup_append.1 hnodup
    refine (ih hts).append ?_ fun hfront => hdisjoint _ hfront _ (token_mem_of_mem_lines hl) rfl
    intro v hv
    rw [List.getLast?_concat, Option.mem_some_iff] at hv
    exact hv ▸ hu

end Outline

/-! ## A complaint more or less -/

namespace LineReader

/-- **A line that is reported has no effect but the complaint**: what follows is read alike, on top
of the complaints that there are. -/
theorem exists_foldl_step_report (r : LineReader) (c : Complaint) (ls : List Line) :
    ∃ s : LineReader, ls.foldl step r = s.onto r.complaints
      ∧ ls.foldl step (r.report c) = s.onto (c :: r.complaints) := by
  let silent : LineReader := { r with complaints := [] }
  exact ⟨ls.foldl step silent, foldl_step_onto r.complaints ls silent,
    foldl_step_onto (c :: r.complaints) ls silent⟩

/-- A complaint that is about none of the lines was made before them. -/
theorem mem_complaints_of_foldl {ls : List Line} {r : LineReader} {c : Complaint}
    (hc : c ∈ (ls.foldl step r).complaints) (hls : ∀ l ∈ ls, l.carries c.toDiagnostic ≠ true) :
    c ∈ r.complaints := by
  obtain ⟨_, cs, hsorted, -, hcomplaints⟩ := exists_sorted ls r
  rw [hcomplaints, List.mem_append, List.mem_reverse] at hc
  refine hc.resolve_left fun hmem => ?_
  obtain ⟨l, hl, hcarries⟩ := hsorted.exists_carries (List.mem_map_of_mem hmem)
  exact hls l hl hcarries

/-- **The line that a complaint is about is reported when it is read.** -/
theorem step_eq_report_of_carries {before after : List Line} {l : Line}
    (hapart : Apart (before ++ l :: after)) {c : Complaint}
    (hc : c ∈ (readAll (before ++ l :: after)).complaints) (hl : l.carries c.toDiagnostic = true) :
    (readAll before).step l = (readAll before).report c := by
  have hbefore : c ∉ (readAll before).complaints := by
    intro hmem
    have hnil : c ∈ ({} : LineReader).complaints := mem_complaints_of_foldl hmem
      fun m hm => hapart.not_carries_of_append hm List.mem_cons_self hl
    exact absurd hnil List.not_mem_nil
  have hafter : c ∈ ((readAll before).step l).complaints := by
    rw [readAll_append, List.foldl_cons] at hc
    rw [List.append_cons] at hapart
    exact mem_complaints_of_foldl hc
      fun m hm hcarries => hapart.not_carries_of_append (by simp) hm hcarries hl
  rcases (readAll before).step_cases l with ⟨c', -, hstep⟩ | ⟨-, -, hsame, -⟩
  · rw [hstep] at hafter
    rw [hstep, (List.mem_cons.1 hafter).resolve_right hbefore]
  · exact absurd (hsame ▸ hafter) hbefore

end LineReader

namespace Outline

/-- A diagnostic is a complaint about a line, but for that of a block left open. -/
theorem exists_complaint_of_mem {ts : List Token} {d : Diagnostic}
    (hd : d ∈ (ofTokens ts).diagnostics) (hcode : d.code ≠ .unterminatedConditional) :
    ∃ c ∈ (LineReader.readAll (lines ts)).complaints, c.toDiagnostic = d := by
  obtain ⟨c, hc, rfl⟩ := List.mem_map.1 hd
  refine ⟨c, ?_, rfl⟩
  rcases List.mem_append.1 hc with hc | hc
  · exact List.mem_reverse.1 hc
  · exact absurd (code_of_mem_endComplaint? (Option.mem_toList.1 hc)) hcode

/-- **Recovery is local.**  In a text that can be cut, a directive line with a diagnostic, other
than the one of a block left open, can be taken out: the rest of the tokens have the same
directives, and the same diagnostics in the same order but for this one. -/
theorem ofTokens_withoutLine {text : String} {eof : Token} (h : (tokenize text).ending = .ok eof) :
    ∃ o, ofText text = .ok o
      ∧ ∀ l ∈ directiveLines (tokenize text).tokens, ∀ d ∈ o.diagnostics, l.carries d = true →
        d.code ≠ .unterminatedConditional →
          (ofTokens (withoutLine l (tokenize text).tokens)).directives = o.directives
          ∧ ∃ before after, o.diagnostics = before ++ d :: after
            ∧ (ofTokens (withoutLine l (tokenize text).tokens)).diagnostics = before ++ after := by
  refine ⟨ofTokens (tokenize text).tokens,
    by rw [ofText, h]; rfl, fun l hl d hd hcarries hcode => ?_⟩
  have hapart := apart_directiveLines text
  rw [← lines_eq_directiveLines] at hl hapart
  have hnodup : (tokenize text).tokens.Nodup :=
    List.Pairwise.of_map Token.cursor (fun _ _ hne heq => hne (congrArg _ heq))
      (nodup_cursor_tokens text)
  obtain ⟨before, after, hlines, hwithout⟩ := splits_of_mem_lines hnodup hl
  obtain ⟨c, hc, rfl⟩ := exists_complaint_of_mem hd hcode
  have hreport := LineReader.step_eq_report_of_carries (hlines ▸ hapart) (hlines ▸ hc) hcarries
  obtain ⟨s, hs, hs'⟩ := LineReader.exists_foldl_step_report (LineReader.readAll before) c after
  have hall : LineReader.readAll (before ++ l :: after)
      = s.onto (c :: (LineReader.readAll before).complaints) := by
    rw [LineReader.readAll_append, List.foldl_cons, hreport, hs']
  have hrest :
      LineReader.readAll (before ++ after) = s.onto (LineReader.readAll before).complaints := by
    rw [LineReader.readAll_append, hs]
  simp only [ofTokens, hlines, hwithout, hall, hrest]
  refine ⟨rfl, (LineReader.readAll before).complaints.reverse.map Complaint.toDiagnostic,
    (s.complaints.reverse ++ (endComplaint? s).toList).map Complaint.toDiagnostic, ?_, ?_⟩
  · simp [LineReader.onto, endComplaint?]
  · simp [LineReader.onto, endComplaint?]

/-- A branch that cannot be read is taken out of a block, and an end too many behind it is still
reported. -/
theorem ofTokens_withoutLine_elifdef :
    let ts := (tokenize "#ifdef A\n#elifdef\n#include <b>\n#endif\n#endif\n").tokens
    let l : Line := ⟨⟨.directive, "#elifdef", ⟨2, 1⟩, ⟨9, 17⟩, some .elifdef⟩, .elifdef, []⟩
    l ∈ directiveLines ts
    ∧ (ofTokens ts).diagnostics.map Diagnostic.cursor = [⟨2, 1⟩, ⟨5, 1⟩]
    ∧ (ofTokens (withoutLine l ts)).diagnostics.map Diagnostic.cursor = [⟨5, 1⟩]
    ∧ (ofTokens (withoutLine l ts)).directives = (ofTokens ts).directives := by
  intro ts l
  have hok : (tokenize "#ifdef A\n#elifdef\n#include <b>\n#endif\n#endif\n").ending
      = .ok ⟨.eof, "", ⟨6, 1⟩, ⟨45, 45⟩, none⟩ := by
    rw [tokenize_eq_steps]
    decide +kernel
  have hl : l ∈ directiveLines ts := by
    simp only [ts]
    rw [tokenize_eq_steps]
    decide +kernel
  have hdiagnostics : (ofTokens ts).diagnostics
      = [⟨.malformedCondition, "#elifdef expects a macro name", ⟨2, 1⟩, some .warning⟩,
        ⟨.unpairedConditional, "unpaired #endif", ⟨5, 1⟩, some .warning⟩] := by
    simp only [ts]
    rw [ofTokens, lines_eq_directiveLines, tokenize_eq_steps]
    decide +kernel
  obtain ⟨o, ho, hspec⟩ := ofTokens_withoutLine hok
  obtain rfl : ofTokens ts = o := by
    rw [ofText, hok] at ho
    exact Except.ok.inj ho
  obtain ⟨hdirectives, before, after, heq, hwithout⟩ :=
    hspec l hl _ (hdiagnostics ▸ List.mem_cons_self) (by decide +kernel) (by decide)
  rw [hdiagnostics] at heq
  rcases List.cons_eq_append_iff.1 heq with ⟨rfl, hafter⟩ | ⟨bs, -, hbs⟩
  · obtain ⟨-, rfl⟩ := List.cons.inj hafter
    exact ⟨hl, by rw [hdiagnostics]; rfl, by rw [hwithout]; rfl, hdirectives⟩
  · rcases bs with _ | ⟨b, bs⟩ <;> simp at hbs

end Outline

end IncludeScan
