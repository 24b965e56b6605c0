import IncludeScan.Environment.Definition
import IncludeScan.Proofs.Directive.TestedNames
import IncludeScan.Proofs.Outline.Places
import IncludeScan.Proofs.Outline.Rows

/-!
# Proofs/Outline/Prologue — definitions on the command line are definitions in front of the text

A definition of the command line as a line of source text is `Definition.line`; the lines of a list
of definitions are its `prologue`.  Reading a text in an environment with the definitions on top
reaches the same includes as reading the prologue and the text in the environment itself, and their
lines are as many further down as there are definitions (`reachable_prologue`).

One line in front of a text is one definition in front of its tree (`exists_ofText_line`): the rest
is read as on its own (`LineReader.foldl_step_above`), and a block that is not closed costs both
trees.
-/

namespace IncludeScan

/-! ## Environments that define the same -/

namespace Environment

/-- The environments define the same macros. -/
def Same (env env' : Environment) : Prop := ∀ name, env.find? name = env'.find? name

theorem Same.agreeOn {env env' : Environment} (h : Same env env') (names : List String) :
    AgreeOn names env env' :=
  agreeOn_iff.2 fun name _ => h name

end Environment

/-- **What is reached depends on what is defined only.** -/
theorem Directive.reachable_congr (ds : List Directive) :
    ∀ env env' : Environment, env.Same env' → reachable env ds = reachable env' ds :=
  fun env env' h =>
    reachable_eq_of_agreeOn ds (fun _ hc => testedNames_subset hc) env env'
      (h.agreeOn (testedNames ds))

namespace Environment

/-- The environment with definitions made one after the other. -/
def defineAll (env : Environment) (ds : List Definition) : Environment :=
  ds.foldl (fun env d => env.define d.name d.value) env

/-- Definitions made in an environment are those made in an empty one, laid on top. -/
theorem same_defineAll {ds : List Definition} (h : ∀ d ∈ ds, d.name ≠ reserved)
    (env : Environment) :
    Same (env.defineAll ds) (env.overlay (empty.defineAll ds)) := by
  suffices hall : ∀ (both extra : Environment),
      (∀ name, both.find? name = (extra.find? name).or (env.find? name)) →
      ∀ name, (both.defineAll ds).find? name
        = ((extra.defineAll ds).find? name).or (env.find? name) by
    intro name
    rw [find?_overlay]
    exact hall env empty (by simp) name
  induction ds with
  | nil => exact fun both extra hboth => hboth
  | cons d ds ih =>
    obtain ⟨hd, hds⟩ := List.forall_mem_cons.1 h
    intro both extra hboth
    refine ih hds _ _ fun name => ?_
    rw [find?_define _ hd, find?_define _ hd, hboth name]
    split <;> rfl

end Environment

/-! ## Directives in front of all others -/

/-- The open blocks, with directives in front of the outermost. -/
def Frame.above (base : List Directive) : List Frame → List Frame
  | [] => []
  | [f] => [{ f with outer := f.outer ++ base }]
  | f :: g :: fs => f :: Frame.above base (g :: fs)

namespace LineReader

/-- What has been read, with directives in front of all of it. -/
def above (base : List Directive) (r : LineReader) : LineReader :=
  match r.frames with
  | [] => { r with body := r.body ++ base }
  | f :: fs => { r with frames := Frame.above base (f :: fs) }

theorem branchStep_above (base : List Directive) (r : LineReader) {f : Frame} {fs : List Frame}
    (hframes : r.frames = f :: fs) (l : Line) :
    ∃ g gs, (r.above base).frames = g :: gs
      ∧ (r.above base).branchStep g gs l = (r.branchStep f fs l).above base := by
  obtain ⟨frames, body, complaints⟩ := r
  obtain rfl : frames = f :: fs := hframes
  cases fs with
  | nil =>
    refine ⟨{ f with outer := f.outer ++ base }, [], rfl, ?_⟩
    unfold branchStep
    split
    · rfl
    · split
      · rfl
      · split
        · rfl
        · split <;> rfl
  | cons g gs =>
    refine ⟨f, Frame.above base (g :: gs), rfl, ?_⟩
    unfold branchStep
    split
    · cases gs <;> rfl
    · split
      · rfl
      · split
        · rfl
        · split <;> rfl

theorem report_above (base : List Directive) (r : LineReader) (c : Complaint) :
    (r.above base).report c = (r.report c).above base := by
  obtain ⟨frames, body, complaints⟩ := r
  cases frames <;> rfl

theorem innerStep_above (base : List Directive) (r : LineReader) (l : Line) :
    (r.above base).innerStep l = (r.innerStep l).above base := by
  cases hframes : r.frames with
  | nil =>
    have hnil : (r.above base).frames = [] := by simp only [above, hframes]
    rw [innerStep, innerStep, hnil, hframes]
    exact report_above base r _
  | cons f fs =>
    obtain ⟨g, gs, habove, hstep⟩ := branchStep_above base r hframes l
    rw [innerStep_of_frames habove, innerStep_of_frames hframes, hstep]

/-- **A line does not look at what stands in front of all else.** -/
theorem step_above (base : List Directive) (r : LineReader) (l : Line) :
    (r.above base).step l = (r.step l).above base := by
  rw [step_eq, step_eq]
  split
  · cases l.readSingle with
    | error e => exact report_above base r e
    | ok d =>
      obtain ⟨frames, body, complaints⟩ := r
      cases frames <;> rfl
  · cases l.readCondition with
    | error e => exact report_above base r e
    | ok c =>
      obtain ⟨frames, body, complaints⟩ := r
      cases frames <;> rfl
  all_goals exact innerStep_above base r l

theorem foldl_step_above (base : List Directive) (ls : List Line) (r : LineReader) :
    ls.foldl step (r.above base) = (ls.foldl step r).above base := by
  induction ls generalizing r with
  | nil => rfl
  | cons l ls ih => rw [List.foldl_cons, List.foldl_cons, step_above, ih]

theorem frames_above_eq_nil {base : List Directive} {r : LineReader} :
    (r.above base).frames = [] ↔ r.frames = [] := by
  obtain ⟨frames, body, complaints⟩ := r
  match frames with
  | [] => exact Iff.rfl
  | [f] => simp [above, Frame.above]
  | f :: g :: fs => simp [above, Frame.above]

end LineReader

/-! ## A definition as a line -/

namespace Definition

/-- The name in a definition, as written. -/
def nameText (text : String) : List Char := (dropOption text.toList).takeWhile (· != '=')

/-- The value in a definition, as written; nothing when there is none. -/
def valueText (text : String) : List Char := ((dropOption text.toList).dropWhile (· != '=')).drop 1

/-- **A definition of the command line as a line of source text.** -/
def line (text : String) : String :=
  "#define " ++ String.ofList (nameText text) ++ " " ++ String.ofList (valueText text) ++ "\n"

/-- The lines of a list of definitions. -/
def prologue (texts : List String) : String := String.join (texts.map line)

/-- The words of the value. -/
def valuePieces (text : String) : List Piece :=
  if valueText text = [] then [] else [Piece.number (valueText text)]

/-- The pieces of the line behind its directive. -/
def linePieces (text : String) : List Piece :=
  Piece.blank :: Piece.word (String.ofList (nameText text)) :: Piece.blank :: valuePieces text

theorem flat_linePieces (text : String) :
    Piece.flat (Piece.row .define (linePieces text)) = (line text).toList := by
  have hvalue : Piece.flat (valuePieces text) = valueText text := by
    unfold valuePieces
    split
    · rename_i h
      rw [h]
      rfl
    · exact List.append_nil _
  simp [Piece.row, linePieces, line, hvalue, Piece.directive, Piece.blank, Piece.word,
    Piece.lineEnd, Keyword.spelling]

/-- What a definition that can be read consists of. -/
theorem parse_eq_ok {text : String} {d : Definition} (h : parse text = .ok d) :
    d.name = String.ofList (nameText text) ∧ isIdentifier d.name = true
      ∧ ((valueText text = [] ∧ d.value = 1)
        ∨ ∃ n : Numeral, Numeral.ofText? (valueText text) = some n ∧ n.bounded? = some n.value
          ∧ d.value = n.value) := by
  unfold parse at h
  simp only at h
  split at h
  · cases h
  · rename_i hname
    have hname : isIdentifier (String.ofList (nameText text)) = true := by
      simpa [nameText] using hname
    split at h
    · rename_i hraw
      obtain rfl := Except.ok.inj h
      exact ⟨rfl, hname, Or.inl ⟨List.isEmpty_iff.1 hraw, rfl⟩⟩
    · split at h
      · rename_i v hv
        obtain rfl := Except.ok.inj h
        refine ⟨rfl, hname, Or.inr ?_⟩
        unfold plainValue? at hv
        split at hv
        · rename_i n hn
          split at hv
          · cases hv
          · have hbounded := hv
            unfold Numeral.bounded? at hv
            split at hv
            · obtain rfl := Option.some.inj hv
              exact ⟨n, hn, hbounded, rfl⟩
            · cases hv
        · cases hv
      · cases h

/-- The words of the value as a macro body. -/
def body (text : String) : List String :=
  if valueText text = [] then [] else [String.ofList (valueText text)]

theorem definedValue_body {text : String} {d : Definition} (h : parse text = .ok d) :
    Directive.definedValue none (body text) = d.value := by
  obtain ⟨-, -, ⟨hvalue, hone⟩ | ⟨n, hn, hbounded, heq⟩⟩ := parse_eq_ok h
  · rw [body, if_pos hvalue, hone]
    rfl
  · have hne : valueText text ≠ [] := by
      rintro hnil
      rw [hnil] at hn
      cases hn
    have hliteral : Numeral.literal? (String.ofList (valueText text)) = some n.value := by
      rw [Numeral.literal?, String.toList_ofList, hn]
      exact hbounded
    rw [body, if_neg hne, heq, Directive.definedValue, hliteral]

theorem laid_valuePieces {text : String} {d : Definition} (h : parse text = .ok d)
    {rest : List Char} (hpart : Piece.Stops isIdentPart rest)
    (hblank : Piece.Stops Rule.isBlank rest) :
    Piece.Laid (valuePieces text) rest
      ∧ Piece.Stops Rule.isBlank (Piece.flat (valuePieces text) ++ rest) := by
  obtain ⟨-, -, ⟨hnil, -⟩ | ⟨n, hn, -⟩⟩ := parse_eq_ok h
  · rw [valuePieces, if_pos hnil]
    exact ⟨trivial, hblank⟩
  · have hne : valueText text ≠ [] := by
      rintro hnil
      rw [hnil] at hn
      cases hn
    rw [valuePieces, if_neg hne, Piece.flat_cons, Piece.flat_nil, List.append_nil]
    exact ⟨⟨Piece.fits_numeral hn hpart, trivial⟩, Piece.stops_isBlank_numeral hn rest⟩

theorem laid_line {text : String} {d : Definition} (h : parse text = .ok d) :
    Piece.Laid (Piece.row .define (linePieces text)) [] := by
  obtain ⟨hname, hidentifier, -⟩ := parse_eq_ok h
  obtain ⟨hvalue, hstops⟩ := @laid_valuePieces text d h ['\n']
    (Piece.stops_cons.2 (by decide)) (Piece.stops_cons.2 (by decide))
  rw [hname] at hidentifier
  refine Piece.laid_row (Piece.stops_cons.2 (by decide)) ?_
  simp only [linePieces, Piece.laid_cons, Piece.flat_cons, List.append_assoc]
  exact ⟨Piece.fits_blank (Piece.stops_isBlank_word hidentifier _),
    Piece.fits_word hidentifier (Piece.stops_cons.2 (by decide)), Piece.fits_blank hstops, hvalue⟩

/-- The macro that the line defines. -/
def directive (text : String) : Directive :=
  .define (String.ofList (nameText text)) none (body text)

/-- The line is read as the definition. -/
theorem readSingle_line {text : String} {d : Definition} (h : parse text = .ok d) (p : Cursor)
    (offset : Nat) :
    (Piece.rowLine p offset .define (linePieces text)).readSingle = .ok (directive text) := by
  obtain ⟨hname, hidentifier, -⟩ := parse_eq_ok h
  rw [hname] at hidentifier
  have hword := Piece.isIdentifier_token_word hidentifier
  rw [Line.readSingle, Piece.rowLine, Line.readDefine, linePieces, Piece.words_cons_blank,
    Piece.words_cons rfl, Piece.words_cons_blank]
  by_cases hvalue : valueText text = []
  · simp [valuePieces, hvalue, hword, directive, body]
  · rw [valuePieces, if_neg hvalue, Piece.words_cons rfl, Piece.words_nil]
    simp [hword, directive, body, hvalue, Line.touches, Token.isPunct]

theorem spansLines_linePieces (text : String) :
    ∀ x ∈ linePieces text, x.kind.spansLines = false := by
  unfold linePieces valuePieces
  split <;> simp [Kind.spansLines]

theorem lines_line (text : String) :
    Outline.lines (Piece.place .start 0 (Piece.row .define (linePieces text)))
      = [Piece.rowLine .start 0 .define (linePieces text)] := by
  rw [Outline.lines, Item.ofTokens_row (spansLines_linePieces text)]
  rfl

theorem count_line {text : String} {d : Definition} (h : parse text = .ok d) :
    (line text).toList.count '\n' = 1 := by
  rw [← flat_linePieces]
  exact Piece.count_newline_row (laid_line h) (spansLines_linePieces text)

end Definition

/-- A line is read alike further down. -/
theorem Line.alike_moved (lines units : Nat) (l : Line) :
    Line.Alike (· + lines) id l (l.map (Token.moved lines units)) where
  keyword := rfl
  line := rfl
  args := List.forall₂_map_right_iff.2 (List.forall₂_same.2 fun _ _ => ⟨rfl, rfl⟩)
  touching _ := by
    obtain ⟨token, keyword, args⟩ := l
    match args with
    | [] | [_] => rfl
    | name :: opening :: rest =>
      have hspan : (opening.span.start + units == name.span.stop + units)
          = (opening.span.start == name.span.stop) := by
        rw [Bool.eq_iff_iff, beq_iff_eq, beq_iff_eq, Nat.add_right_cancel_iff]
      exact congrArg (opening.isPunct "(" && ·) hspan.symm

mutual

theorem Directive.renumber_id : ∀ d : Directive, d.renumber id = d
  | .includeFile _ => rfl
  | .define _ _ _ => rfl
  | .undefine _ => rfl
  | .block branches => by rw [Directive.renumber, Branch.renumberAll_id branches]

theorem Directive.renumberAll_id : ∀ ds : List Directive, Directive.renumberAll id ds = ds
  | [] => by rw [Directive.renumberAll]
  | d :: ds => by rw [Directive.renumberAll, d.renumber_id, Directive.renumberAll_id ds]

theorem Branch.renumberAll_id : ∀ bs : List Branch, Branch.renumberAll id bs = bs
  | [] => by rw [Branch.renumberAll]
  | ⟨kind, condition, body⟩ :: bs => by
    rw [Branch.renumberAll, Directive.renumberAll_id body, Branch.renumberAll_id bs]

end

namespace Outline

/-- The lines of a text further down are read as on their own. -/
theorem alike_readAll_moved (count units : Nat) (ts : List Token) :
    LineReader.Alike (· + count) id (LineReader.readAll (lines ts))
      (LineReader.readAll (lines (ts.map (Token.moved count units)))) := by
  have hlines : lines (ts.map (Token.moved count units))
      = (lines ts).map (Line.map (Token.moved count units)) :=
    @lines_map (Token.moved count units) (fun _ => rfl) (fun _ => rfl) ts
  rw [hlines]
  have hempty : LineReader.Alike (· + count) id {} {} := ⟨.nil, rfl, rfl⟩
  exact hempty.foldl
    (List.forall₂_map_right_iff.2 (List.forall₂_same.2 fun l _ => l.alike_moved count units))

/-- **A line that stands alone, and a text behind it**: one directive is in front of the tree of the
text, unless that is lost. -/
theorem directives_line_append {ts : List Token} {l : Line} {d : Directive} (hts : lines ts = [l])
    (hend : EndsLine ts) (hrole : l.keyword.role = .single) (hread : l.readSingle = .ok d)
    (us : List Token) (count units : Nat) :
    (ofTokens (ts ++ us.map (Token.moved count units))).directives
      = if (LineReader.readAll (lines us)).frames.isEmpty
        then d :: Directive.renumberAll (· + count) (ofTokens us).directives else [] := by
  have halike := alike_readAll_moved count units us
  have hstep : LineReader.step {} l = LineReader.above [d] {} := by
    rw [LineReader.step, hrole, hread]
    rfl
  have hall : LineReader.readAll (lines (ts ++ us.map (Token.moved count units)))
      = (LineReader.readAll (lines (us.map (Token.moved count units)))).above [d] := by
    rw [lines_append hend, hts, LineReader.readAll, List.singleton_append, List.foldl_cons, hstep,
      LineReader.foldl_step_above]
    rfl
  simp only [ofTokens, hall]
  generalize LineReader.readAll (lines us) = r at halike ⊢
  generalize LineReader.readAll (lines (us.map (Token.moved count units))) = s at halike ⊢
  obtain ⟨hframes, hbody, -⟩ := halike
  cases hr : r.frames with
  | nil =>
    rw [hr] at hframes
    have hs := List.forall₂_nil_left_iff.1 hframes
    rw [Directive.renumberAll_id] at hbody
    simp [LineReader.above, hs, Directive.renumberAll_reverse, hbody]
  | cons f fs =>
    have hs : s.frames ≠ [] := by
      rintro hs
      rw [hr, hs] at hframes
      cases hframes
    simp [LineReader.frames_above_eq_nil, hs]

end Outline

namespace Definition

/-- **One definition in front of a text is one definition in front of its tree.** -/
theorem exists_ofText_line {definition : String} {d : Definition} (h : parse definition = .ok d)
    {text : String} {o : Outline} (ho : Outline.ofText text = .ok o) :
    ∃ o', Outline.ofText (line definition ++ text) = .ok o' ∧ ∀ env,
      Directive.reachable env o'.directives
        = (Directive.reachable (env.define d.name d.value) o.directives).map
            (Include.renumber (· + 1)) := by
  obtain ⟨⟨eof, hending⟩, rfl⟩ := Outline.ofText_eq_ok_iff.1 ho
  obtain ⟨hline, eof', hended⟩ := Piece.tokenize_flat (laid_line h)
  rw [flat_linePieces, String.ofList_toList] at hline hended
  have hlast : (line definition).toList.getLast? = some '\n' := by
    rw [line, String.toList_append, List.getLast?_append]
    rfl
  have happend := tokenize_append_eq hlast hended text
  rw [count_line h, hline] at happend
  refine ⟨_, Outline.ofText_eq_ok_iff.2
    ⟨⟨eof.moved 1 (Text.unitCount (line definition).toList), ?_⟩, rfl⟩, fun env => ?_⟩
  · rw [happend, Tokenization.moved, hending]
  · rw [happend, Tokenization.moved, Outline.directives_line_append (lines_line definition)
      (Piece.endsLine_row _ _ _ _) rfl (readSingle_line h _ _)]
    split
    · rw [directive, Directive.reachable, definedValue_body h, ← (parse_eq_ok h).1,
        Directive.reachable_renumber]
    · rename_i hframes
      simp [Outline.ofTokens, hframes, Directive.reachable]

/-- **Definitions in front of a text are definitions of the environment**, made in their order. -/
theorem exists_ofText_prologue {definitions : List String} {ds : List Definition}
    (h : List.Forall₂ (fun text d => parse text = .ok d) definitions ds) {text : String}
    {o : Outline}
    (ho : Outline.ofText text = .ok o) :
    ∃ o', Outline.ofText (prologue definitions ++ text) = .ok o' ∧ ∀ env : Environment,
      Directive.reachable env o'.directives
        = (Directive.reachable (env.defineAll ds) o.directives).map
            (Include.renumber (· + definitions.length)) := by
  induction h with
  | nil =>
    refine ⟨o, by simpa [prologue] using ho, fun env => ?_⟩
    exact (List.map_id' _).symm
  | @cons definition d definitions ds hd _ ih =>
    obtain ⟨o₁, ho₁, hreach₁⟩ := ih
    obtain ⟨o', ho', hreach⟩ := exists_ofText_line hd ho₁
    refine ⟨o', ?_, fun env => ?_⟩
    · rw [← ho', ← String.append_assoc]
      simp [prologue]
    · rw [hreach env, hreach₁, List.map_map]
      refine List.map_congr_left fun i _ => ?_
      simp [Include.renumber, Nat.add_assoc]

/-- Definitions that are accepted can all be read, and they make the environment in their order. -/
theorem ofDefinitions_eq_ok {definitions : List String} {extra : Environment}
    (h : Environment.ofDefinitions definitions = .ok extra) :
    List.Forall₂ (fun text d => parse text = .ok d) definitions (Environment.readable definitions)
      ∧ extra = Environment.empty.defineAll (Environment.readable definitions) := by
  unfold Environment.ofDefinitions at h
  split at h
  · rename_i hall
    refine ⟨?_, (Except.ok.inj h).symm⟩
    have hnone := List.isEmpty_iff.1 hall
    clear h hall
    induction definitions with
    | nil => exact .nil
    | cons text definitions ih =>
      unfold Environment.readable
      unfold Environment.unreadable at hnone
      cases hparse : parse text with
      | error e => simp [hparse] at hnone
      | ok d =>
        rw [List.filterMap_cons_none (by rw [hparse])] at hnone
        rw [List.filterMap_cons_some (by rw [hparse]; rfl)]
        exact .cons hparse (ih hnone)
  · cases h

/-- **Definitions on the command line and definitions in front of the text agree.**  Whatever the
environment, the text with the definitions as its first lines reaches the same includes as the text
with the definitions on top of the environment, each as many lines further down as there are
definitions. -/
theorem reachable_prologue {definitions : List String} {extra : Environment}
    (hextra : Environment.ofDefinitions definitions = .ok extra)
    (hnames : ∀ d ∈ Environment.readable definitions, d.name ≠ Environment.reserved)
    {text : String} {eof : Token} (h : (tokenize text).ending = .ok eof) (env : Environment) :
    ∃ o o', Outline.ofText text = .ok o ∧ Outline.ofText (prologue definitions ++ text) = .ok o'
      ∧ Directive.reachable env o'.directives
        = (Directive.reachable (env.overlay extra) o.directives).map
            (Include.renumber (· + definitions.length)) := by
  obtain ⟨hreadable, rfl⟩ := ofDefinitions_eq_ok hextra
  have ho := Outline.ofText_eq_ok_iff.2 ⟨⟨eof, h⟩, rfl⟩
  obtain ⟨o', ho', hreach⟩ := exists_ofText_prologue hreadable ho
  refine ⟨_, o', ho, ho', ?_⟩
  rw [hreach, Directive.reachable_congr _ _ _ (Environment.same_defineAll hnames env)]

/-- A hexadecimal value, and a name without one. -/
theorem reachable_prologue_hexadecimal :
    Environment.ofDefinitions ["-DA=0x10", "B"] = .ok ⟨[("B", 1), ("A", 16)]⟩
      ∧ ∃ o', Outline.ofText (prologue ["-DA=0x10", "B"]
        ++ "#if A == 16\n#include \"a.h\"\n#endif\n")
          = .ok o'
        ∧ Directive.reachable .empty o'.directives = [⟨"a.h", false, 4⟩] := by
  have hextra : Environment.ofDefinitions ["-DA=0x10", "B"] = .ok ⟨[("B", 1), ("A", 16)]⟩ := by
    decide
  have hnames : ∀ d ∈ Environment.readable ["-DA=0x10", "B"], d.name ≠ Environment.reserved := by
    decide
  have hok : (tokenize "#if A == 16\n#include \"a.h\"\n#endif\n").ending
      = .ok ⟨.eof, "", ⟨4, 1⟩, ⟨34, 34⟩, none⟩ := by
    rw [tokenize_eq_steps]
    decide +kernel
  have hreach : Directive.reachable (Environment.empty.overlay ⟨[("B", 1), ("A", 16)]⟩)
      (Outline.ofTokens (tokenize "#if A == 16\n#include \"a.h\"\n#endif\n").tokens).directives
        = [⟨"a.h", false, 2⟩] := by
    rw [Outline.ofTokens, Outline.lines_eq_directiveLines, tokenize_eq_steps]
    cbv
  obtain ⟨o, o', ho, ho', heq⟩ := reachable_prologue hextra hnames hok .empty
  obtain ⟨-, rfl⟩ := Outline.ofText_eq_ok_iff.1 ho
  exact ⟨hextra, o', ho', by rw [heq, hreach]; rfl⟩

end Definition

end IncludeScan
