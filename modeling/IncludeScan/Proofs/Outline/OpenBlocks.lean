import IncludeScan.Proofs.Outline.Reactions

/-!
# Proofs/Outline/OpenBlocks — a counter tells whether a block is left open

Count the directive lines of a file: one up for a line that opens a block and whose condition can be
read, one down for a line that closes one, if there is any.  The counter is the number of blocks
that the reader has open at that place, whatever is reported on the way, and the lines that it has
not counted down again are those that opened them (`LineReader.map_opening_readAll`).

So a block left open is reported exactly if the counter ends above zero, and at the last line that
is not counted down, the innermost (`Outline.diagnostics_of_openCount`).  All other complaints are
made at lines of their own, in the order of the text.
-/

namespace IncludeScan

/-! ## Counting blocks -/

/-- The line opens a block: it has a condition that can be read. -/
def Line.opensBlock (l : Line) : Bool := l.keyword.role == .opens && l.readCondition.isOk

/-- The number of open blocks behind a line. -/
def Line.countOpen (n : Nat) (l : Line) : Nat :=
  if l.opensBlock then n + 1
  else if l.keyword.role = .closes ∧ 0 < n then n - 1
  else n

/-- The lines that opened the open blocks behind a line, the innermost first. -/
def Line.nest (opened : List Line) (l : Line) : List Line :=
  if l.opensBlock then l :: opened else if l.keyword.role = .closes then opened.tail else opened

/-- **The number of blocks that lines leave open.** -/
def openCount (ls : List Line) : Nat := ls.foldl Line.countOpen 0

/-- **The lines that opened them**, the innermost first. -/
def nesting (ls : List Line) : List Line := ls.foldl Line.nest []

/-- The line opens a block, and it is not closed again by the lines behind. -/
structure StaysOpen (before : List Line) (l : Line) (after : List Line) : Prop where
  opens : l.opensBlock = true
  above : ∀ part, part <+: after → openCount before < openCount (before ++ l :: part)

/-- The line opens a block that is not closed again, and no line behind it does. -/
structure Innermost (before : List Line) (l : Line) (after : List Line) : Prop
    extends StaysOpen before l after where
  last :
    ∀ between m rest, after = between ++ m :: rest → ¬ StaysOpen (before ++ l :: between) m rest

theorem openCount_concat (ls : List Line) (l : Line) :
    openCount (ls ++ [l]) = l.countOpen (openCount ls) := by
  rw [openCount, List.foldl_append]
  rfl

theorem nesting_concat (ls : List Line) (l : Line) : nesting (ls ++ [l]) = l.nest (nesting ls) := by
  rw [nesting, List.foldl_append]
  rfl

theorem Line.length_nest (opened : List Line) (l : Line) :
    (l.nest opened).length = l.countOpen opened.length := by
  rw [nest, countOpen]
  split
  · rfl
  · rcases opened with _ | ⟨m, opened⟩
    · simp
    · split <;> simp_all

theorem length_nesting (ls : List Line) : (nesting ls).length = openCount ls := by
  induction ls using List.reverseRecOn with
  | nil => rfl
  | append_singleton ls l ih => rw [nesting_concat, openCount_concat, Line.length_nest, ih]

/-- **Where a block was opened that is still open**: the blocks around it were open there, and it
was open at every place since. -/
theorem exists_of_suffix_nesting {ls : List Line} {l : Line} {opened : List Line}
    (h : (l :: opened) <:+ nesting ls) :
    ∃ before after, ls = before ++ l :: after ∧ l.opensBlock = true ∧ nesting before = opened
      ∧ ∀ part, part <+: after → (l :: opened) <:+ nesting (before ++ l :: part) := by
  -- the last line is `l`, or the block was open in front of it already
  induction ls using List.reverseRecOn with
  | nil => exact absurd (List.suffix_nil.1 h) (List.cons_ne_nil _ _)
  | append_singleton ls m ih =>
    have hbehind : (l :: opened) <:+ nesting ls →
        ∃ before after, ls ++ [m] = before ++ l :: after ∧ l.opensBlock = true
          ∧ nesting before = opened
          ∧ ∀ part, part <+: after → (l :: opened) <:+ nesting (before ++ l :: part) := by
      intro hls
      obtain ⟨before, after, rfl, hopens, hbefore, hparts⟩ := ih hls
      refine ⟨before, after ++ [m], by simp, hopens, hbefore, fun part hpart => ?_⟩
      rcases List.prefix_concat_iff.1 hpart with rfl | hpart
      · simpa using h
      · exact hparts part hpart
    have hnest := h
    rw [nesting_concat, Line.nest] at hnest
    split at hnest
    · rename_i hopens
      rcases List.suffix_cons_iff.1 hnest with heq | hls
      · obtain ⟨rfl, rfl⟩ := List.cons.inj heq
        refine ⟨ls, [], rfl, hopens, rfl, fun part hpart => ?_⟩
        rw [List.prefix_nil.1 hpart]
        exact h
      · exact hbehind hls
    · split at hnest
      · exact hbehind (hnest.trans (List.tail_suffix _))
      · exact hbehind hnest

/-- **The first of the nested lines is the innermost.** -/
theorem exists_innermost {ls : List Line} {l : Line} {opened : List Line}
    (h : nesting ls = l :: opened) :
    ∃ before after, ls = before ++ l :: after ∧ Innermost before l after := by
  have hsuffix : (l :: opened) <:+ nesting ls := h ▸ List.suffix_refl _
  obtain ⟨before, after, rfl, hopens, hbefore, hparts⟩ := exists_of_suffix_nesting hsuffix
  have habove : ∀ part, part <+: after → openCount before < openCount (before ++ l :: part) := by
    intro part hpart
    have hle := (hparts part hpart).length_le
    rw [List.length_cons, ← hbefore, length_nesting, length_nesting] at hle
    exact hle
  refine ⟨before, after, rfl, ⟨hopens, habove⟩, ?_⟩
  -- the counter ends one above its value in front of the line, and behind `m` it would be two above
  rintro between m rest rfl hm
  have hend : openCount (before ++ l :: (between ++ m :: rest)) = openCount before + 1 := by
    rw [← length_nesting, h, ← length_nesting before, hbefore, List.length_cons]
  have hbetween := habove between (List.prefix_append _ _)
  have hrest := hm.above rest (List.prefix_refl _)
  rw [List.append_assoc, List.cons_append, hend] at hrest
  omega

/-! ## The blocks that the reader has open -/

namespace LineReader

/-- What the reactions do to the open blocks. -/
theorem map_opening_react (r : LineReader) (l : Line) (a : Reaction) :
    (r.react l a).frames.map Frame.opening
      = match a with
        | .openBlock _ => l :: r.frames.map Frame.opening
        | .closeBlock => (r.frames.map Frame.opening).tail
        | _ => r.frames.map Frame.opening := by
  obtain ⟨frames, body, complaints⟩ := r
  rcases a with _ | _ | _ | _ | _
  · rfl
  · rfl
  · rfl
  all_goals rcases frames with _ | ⟨f, fs⟩ <;> rfl

/-- **What a line does to the open blocks.** -/
theorem map_opening_step (r : LineReader) (l : Line) :
    (r.step l).frames.map Frame.opening = l.nest (r.frames.map Frame.opening) := by
  rw [step_eq_react, map_opening_react, Line.nest, Line.opensBlock, Line.reaction]
  rcases hrole : l.keyword.role with _ | _ | _ | _ | _
  · rcases hread : l.readSingle with e | d <;> simp [Line.reactionAs, Reaction.ofRead, hread]
  · rcases hread : l.readCondition with e | c <;>
      simp [Line.reactionAs, Reaction.ofRead, hread, Except.isOk, Except.toBool]
  · rcases r.kind? with _ | _ | _ | _ <;> rcases hread : l.readCondition with e | c <;>
      simp [Line.reactionAs, Reaction.ofRead, hread]
  · rcases r.kind? with _ | _ | _ | _ <;> simp [Line.reactionAs]
  · rcases hframes : r.frames with _ | ⟨f, fs⟩ <;> simp [Line.reactionAs, kind?, hframes]

theorem map_opening_foldl (ls : List Line) (r : LineReader) :
    (ls.foldl step r).frames.map Frame.opening
      = ls.foldl Line.nest (r.frames.map Frame.opening) := by
  induction ls generalizing r with
  | nil => rfl
  | cons l ls ih => rw [List.foldl_cons, List.foldl_cons, ih, map_opening_step]

/-- **The reader has those blocks open that the lines leave open.** -/
theorem map_opening_readAll (ls : List Line) : (readAll ls).frames.map Frame.opening = nesting ls :=
  map_opening_foldl ls {}

end LineReader

/-! ## Complaints in the order of the text -/

namespace Sorted

variable {ls : List Line} {es : List Event} {cs : List Complaint}

theorem map_token_sublist (h : Sorted ls es cs) :
    (cs.map Complaint.token).Sublist (ls.flatMap Line.tokens) := by
  induction h with
  | nil => exact List.Sublist.refl _
  | event _ _ ih => exact ih.trans (List.sublist_append_right _ _)
  | complaint hc _ ih => exact (List.singleton_sublist.2 hc).append ih

/-- **Complaints ascend as the tokens of the lines do.** -/
theorem pairwise_cursor (h : Sorted ls es cs)
    (htokens : (ls.flatMap Line.tokens).Pairwise fun t u => t.cursor.Before u.cursor) :
    (cs.map Complaint.toDiagnostic).Pairwise fun d e => d.cursor.Before e.cursor := by
  have hcs := List.pairwise_map.1 (htokens.sublist h.map_token_sublist)
  exact List.pairwise_map.2 hcs

/-- **Every complaint has a line of its own**, and they are in the order of the lines. -/
theorem exists_reported (h : Sorted ls es cs) :
    ∃ reported : List Line, reported.Sublist ls
      ∧ List.Forall₂ (fun l d => l.carries d = true) reported (cs.map Complaint.toDiagnostic) := by
  induction h with
  | nil => exact ⟨[], List.Sublist.refl _, .nil⟩
  | @event l _ _ _ _ _ _ ih =>
    obtain ⟨reported, hsublist, hcarries⟩ := ih
    exact ⟨reported, hsublist.cons l, hcarries⟩
  | @complaint l _ _ _ _ hc _ ih =>
    obtain ⟨reported, hsublist, hcarries⟩ := ih
    exact ⟨l :: reported, hsublist.cons_cons l,
      .cons (Line.carries_iff.2 (List.mem_map_of_mem hc)) hcarries⟩

end Sorted

namespace Outline

theorem endComplaint?_readAll (ls : List Line) :
    endComplaint? (LineReader.readAll ls)
      = (nesting ls).head?.map fun l => ⟨.neverClosed l.keyword, l.token⟩ := by
  rw [← LineReader.map_opening_readAll, List.head?_map, Option.map_map]
  rfl

/-- The diagnostics but for that of a block left open are the complaints about the lines. -/
theorem filter_code_diagnostics (ts : List Token) :
    (ofTokens ts).diagnostics.filter (fun d => d.code != .unterminatedConditional)
      = (LineReader.readAll (lines ts)).complaints.reverse.map Complaint.toDiagnostic := by
  have hcode : ∀ c ∈ (LineReader.readAll (lines ts)).complaints,
      c.problem.code ≠ .unterminatedConditional :=
    LineReader.code_ne_of_mem_complaints (r := {}) (by simp)
  have hlines : ∀ d ∈ (LineReader.readAll (lines ts)).complaints.reverse.map Complaint.toDiagnostic,
      (d.code != .unterminatedConditional) = true := by
    intro d hd
    obtain ⟨c, hc, rfl⟩ := List.mem_map.1 hd
    exact bne_iff_ne.2 (hcode c (List.mem_reverse.1 hc))
  have hend :
      ∀ d ∈ (endComplaint? (LineReader.readAll (lines ts))).toList.map Complaint.toDiagnostic,
      ¬ (d.code != .unterminatedConditional) = true := by
    intro d hd
    obtain ⟨c, hc, rfl⟩ := List.mem_map.1 hd
    exact fun hne => bne_iff_ne.1 hne (code_of_mem_endComplaint? (Option.mem_toList.1 hc))
  rw [ofTokens, List.map_append, List.filter_append, List.filter_eq_self.2 hlines,
    List.filter_eq_nil_iff.2 hend, List.append_nil]

/-- The diagnostic of a block left open is the last. -/
theorem diagnostics_eq_append (ts : List Token) :
    (ofTokens ts).diagnostics
      = (ofTokens ts).diagnostics.filter (fun d => d.code != .unterminatedConditional)
        ++ ((nesting (lines ts)).head?.map fun l =>
          Complaint.toDiagnostic ⟨.neverClosed l.keyword, l.token⟩).toList := by
  rw [filter_code_diagnostics, ofTokens, List.map_append, endComplaint?_readAll]
  rcases (nesting (lines ts)).head? with _ | l <;> rfl

/-- **A block left open costs the directives and is reported at its first line.** -/
theorem exists_unterminated {ts : List Token} (h : 0 < openCount (lines ts)) :
    (ofTokens ts).directives = [] ∧ ∃ before l after d,
      lines ts = before ++ l :: after ∧ Innermost before l after
      ∧ d.code = .unterminatedConditional ∧ d.cursor = l.token.cursor
      ∧ (ofTokens ts).diagnostics
        = (ofTokens ts).diagnostics.filter (fun d => d.code != .unterminatedConditional)
          ++ [d] := by
  rcases hnesting : nesting (lines ts) with _ | ⟨l, opened⟩
  · rw [← length_nesting, hnesting] at h
    exact absurd h (Nat.lt_irrefl 0)
  · have hframes : (LineReader.readAll (lines ts)).frames.isEmpty = false := by
      rw [← List.isEmpty_map, LineReader.map_opening_readAll, hnesting]
      rfl
    obtain ⟨before, after, hlines, hinnermost⟩ := exists_innermost hnesting
    refine ⟨by simp [ofTokens, hframes], before, l, after,
      Complaint.toDiagnostic ⟨.neverClosed l.keyword, l.token⟩, hlines, hinnermost, rfl, rfl, ?_⟩
    conv_lhs => rw [diagnostics_eq_append, hnesting]
    rfl

/-- Nothing is reported of blocks left open if there are none. -/
theorem code_ne_of_openCount {ts : List Token} (h : openCount (lines ts) = 0) {d : Diagnostic}
    (hd : d ∈ (ofTokens ts).diagnostics) : d.code ≠ .unterminatedConditional := by
  have hnesting : nesting (lines ts) = [] := List.eq_nil_of_length_eq_zero (length_nesting _ ▸ h)
  rw [diagnostics_eq_append, hnesting, List.head?_nil, Option.map_none, Option.toList_none,
    List.append_nil] at hd
  exact bne_iff_ne.1 (List.mem_filter.1 hd).2

/-- The other diagnostics ascend, each within a line of its own. -/
theorem filter_code_diagnostics_ascend (text : String) :
    let others := (ofTokens (tokenize text).tokens).diagnostics.filter
      fun d => d.code != .unterminatedConditional
    others.Pairwise (fun d e => d.cursor.Before e.cursor)
    ∧ ∃ reported : List Line, reported.Sublist (lines (tokenize text).tokens)
      ∧ List.Forall₂ (fun l d => l.carries d = true) reported others := by
  have htokens : ((lines (tokenize text).tokens).flatMap Line.tokens).Pairwise
      fun t u => t.cursor.Before u.cursor :=
    (cut_tokenize text).followFrom.pairwise.sublist (flatMap_tokens_lines_sublist _)
  obtain ⟨_, cs, hsorted, -, hcomplaints⟩ :=
    LineReader.exists_sorted (lines (tokenize text).tokens) {}
  rw [filter_code_diagnostics, LineReader.readAll, hcomplaints, List.append_nil,
    List.reverse_reverse]
  exact ⟨hsorted.pairwise_cursor htokens, hsorted.exists_reported⟩

/-- **A block left open is reported last, and once.**  In a text that can be cut it is reported
exactly if the counter of open blocks ends above zero, and then there are no directives, and the
diagnostic is at the line that opened the innermost block of those.  The others ascend, each within
a line of its own. -/
theorem diagnostics_of_openCount {text : String} {eof : Token}
    (h : (tokenize text).ending = .ok eof) :
    ∃ o, ofText text = .ok o
      ∧ ((∃ d ∈ o.diagnostics, d.code = .unterminatedConditional)
        ↔ 0 < openCount (directiveLines (tokenize text).tokens))
      ∧ (0 < openCount (directiveLines (tokenize text).tokens) →
        o.directives = [] ∧ ∃ before l after d,
          directiveLines (tokenize text).tokens = before ++ l :: after ∧ Innermost before l after
          ∧ d.code = .unterminatedConditional ∧ d.cursor = l.token.cursor
          ∧ o.diagnostics = o.diagnostics.filter (fun d => d.code != .unterminatedConditional)
            ++ [d])
      ∧ (o.diagnostics.filter fun d => d.code != .unterminatedConditional).Pairwise
          (fun d e => d.cursor.Before e.cursor)
      ∧ ∃ reported : List Line, reported.Sublist (directiveLines (tokenize text).tokens)
        ∧ List.Forall₂ (fun l d => l.carries d = true) reported
          (o.diagnostics.filter fun d => d.code != .unterminatedConditional) := by
  refine ⟨ofTokens (tokenize text).tokens, by rw [ofText, h]; rfl, ?_⟩
  rw [← lines_eq_directiveLines]
  refine ⟨⟨?_, fun hpos => ?_⟩, exists_unterminated, filter_code_diagnostics_ascend text⟩
  · rintro ⟨d, hd, hcode⟩
    exact Nat.pos_of_ne_zero fun hzero => code_ne_of_openCount hzero hd hcode
  · obtain ⟨-, _, _, _, d, -, -, hcode, -, hall⟩ := exists_unterminated hpos
    refine ⟨d, ?_, hcode⟩
    rw [hall]
    exact List.mem_append_right _ List.mem_cons_self

/-- The block of the first line is left open, behind a condition that cannot be read and a block
that is closed; what is reported about it comes last. -/
theorem diagnostics_of_openCount_first_line :
    let text := "#ifdef A\n#ifdef\n#ifdef B\n#endif\n#undef\n"
    openCount (directiveLines (tokenize text).tokens) = 1
    ∧ ∃ o, ofText text = .ok o ∧ o.directives = []
      ∧ o.diagnostics.map Diagnostic.cursor = [⟨2, 1⟩, ⟨5, 1⟩, ⟨1, 1⟩]
      ∧ ∃ before l after, directiveLines (tokenize text).tokens = before ++ l :: after
        ∧ Innermost before l after ∧ l.token.cursor = ⟨1, 1⟩ := by
  intro text
  have hok : (tokenize text).ending = .ok ⟨.eof, "", ⟨6, 1⟩, ⟨39, 39⟩, none⟩ := by
    rw [tokenize_eq_steps]
    decide +kernel
  have hcount : openCount (directiveLines (tokenize text).tokens) = 1 := by
    rw [tokenize_eq_steps]
    decide +kernel
  have hcursors : (ofTokens (tokenize text).tokens).diagnostics.map Diagnostic.cursor
      = [⟨2, 1⟩, ⟨5, 1⟩, ⟨1, 1⟩] := by
    rw [ofTokens, lines_eq_directiveLines, tokenize_eq_steps]
    decide +kernel
  obtain ⟨o, ho, -, hopen, -⟩ := diagnostics_of_openCount hok
  obtain rfl : ofTokens (tokenize text).tokens = o := by
    rw [ofText, hok] at ho
    exact Except.ok.inj ho
  obtain ⟨hdirectives, before, l, after, d, hlines, hinnermost, -, hcursor, hall⟩ :=
    hopen (hcount ▸ Nat.one_pos)
  refine ⟨hcount, _, ho, hdirectives, hcursors, before, l, after, hlines, hinnermost, ?_⟩
  have hlast := congrArg List.getLast? hcursors
  rw [hall, List.map_append, List.map_singleton, List.getLast?_concat, hcursor] at hlast
  exact Option.some.inj hlast

end Outline

end IncludeScan
