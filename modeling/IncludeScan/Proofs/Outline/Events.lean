import IncludeScan.Proofs.Condition.Reading
import IncludeScan.Proofs.Outline.Lines
import IncludeScan.Proofs.Token.Run

/-!
# Proofs/Outline/Events — the tree of directives says what the lines say

A walk over a tree of directives gives a list of **events**: each include and each definition, the
head of each branch, and the end of each block.  A directive line gives an event of its own, read
without regard to other lines, or a complaint.

What the reader of lines has built at any time is the events of the lines that it took, in their
order: a line either adds its event or is reported once and dropped (`LineReader.step_cases`).  So
the tree of a file whose blocks are all closed has the events of the lines without a diagnostic
(`events_directives`).
-/

namespace IncludeScan

/-! ## Events -/

/-- What a walk over directives meets. -/
inductive Event where
  /-- An include, a definition or the end of one. -/
  | leaf (d : Directive)
  /-- The first line of a branch. -/
  | branch (kind : BranchKind) (condition : Option Condition)
  /-- The end of a block. -/
  | endBlock

mutual

/-- The events of a directive. -/
def Directive.eventsOf : Directive → List Event
  | .includeFile target => [.leaf (.includeFile target)]
  | .define name params body => [.leaf (.define name params body)]
  | .undefine name => [.leaf (.undefine name)]
  | .block branches => Branch.events branches ++ [.endBlock]

/-- The events of directives, in order. -/
def Directive.events : List Directive → List Event
  | [] => []
  | d :: ds => d.eventsOf ++ Directive.events ds

/-- The events of branches, each with its head in front. -/
def Branch.events : List Branch → List Event
  | [] => []
  | ⟨kind, condition, body⟩ :: bs =>
    .branch kind condition :: (Directive.events body ++ Branch.events bs)

end

/-- **The event that a line is, read on its own.** -/
def Line.event (l : Line) : Except Complaint Event :=
  match l.keyword.role with
  | .single => l.readSingle.map .leaf
  | .opens => l.readCondition.map fun c => .branch .opening (some c)
  | .continues => l.readCondition.map fun c => .branch .alternative (some c)
  | .falls => .ok (.branch .fallback none)
  | .closes => .ok .endBlock

theorem Directive.events_append (ds es : List Directive) :
    events (ds ++ es) = events ds ++ events es := by
  induction ds with
  | nil => simp [events]
  | cons d ds ih => simp [events, ih]

theorem Branch.events_append (bs cs : List Branch) :
    events (bs ++ cs) = events bs ++ events cs := by
  induction bs with
  | nil => simp [events]
  | cons b bs ih =>
    obtain ⟨kind, condition, body⟩ := b
    simp [events, ih]

theorem Directive.events_concat (ds : List Directive) (d : Directive) :
    events (ds ++ [d]) = events ds ++ d.eventsOf := by
  rw [events_append, events, events, List.append_nil]

theorem Branch.events_concat (bs : List Branch) (kind : BranchKind) (condition : Option Condition)
    (body : List Directive) :
    events (bs ++ [⟨kind, condition, body⟩])
      = events bs ++ .branch kind condition :: Directive.events body := by
  rw [events_append, events, events, List.append_nil]

/-! ## A complaint is about a token of its line -/

namespace Line

theorem token_mem_of_readInclude {l : Line} {c : Complaint} (h : l.readInclude = .error c) :
    c.token ∈ l.tokens := by
  unfold readInclude at h
  split at h
  · obtain rfl := Except.error.inj h
    exact List.mem_cons_self
  · rename_i first rest hargs
    have hfirst : first ∈ l.tokens := by simp [tokens, hargs]
    split at h
    · split at h
      · obtain rfl := Except.error.inj h
        exact hfirst
      · cases h
    · split at h
      · split at h
        · cases h
        · obtain rfl := Except.error.inj h
          exact hfirst
      · obtain rfl := Except.error.inj h
        exact hfirst

theorem token_mem_of_readParameters {name : String} {opening : Token} {place : ParameterPlace}
    {ts : List Token} {c : Complaint} (h : readParameters name opening place ts = .error c) :
    c.token ∈ opening :: ts := by
  have hskip :
      ∀ (t : Token) (ts : List Token), c.token ∈ opening :: ts → c.token ∈ opening :: t :: ts :=
    fun t ts hmem => ((List.sublist_cons_self t ts).cons_cons opening).subset hmem
  fun_induction readParameters name opening place ts with
  | case1 =>
    obtain rfl := Except.error.inj h
    exact List.mem_cons_self
  | case2 t ts =>
    obtain rfl := Except.error.inj h
    exact List.mem_cons_of_mem _ List.mem_cons_self
  | case3 => cases h
  | case4 t ts _ _ ih => exact hskip t ts (ih h)
  | case5 t ts =>
    obtain rfl := Except.error.inj h
    exact List.mem_cons_of_mem _ List.mem_cons_self
  | case6 => cases h
  | case7 _ t ts _ _ _ e he ih => exact hskip t ts (ih (he.trans h))
  | case8 _ t ts =>
    obtain rfl := Except.error.inj h
    exact List.mem_cons_of_mem _ List.mem_cons_self

theorem token_mem_of_readDefine {l : Line} {c : Complaint} (h : l.readDefine = .error c) :
    c.token ∈ l.tokens := by
  unfold readDefine at h
  split at h
  · obtain rfl := Except.error.inj h
    exact List.mem_cons_self
  · rename_i name rest hargs
    have hname : name ∈ l.tokens := by simp [tokens, hargs]
    split at h
    · obtain rfl := Except.error.inj h
      exact hname
    · split at h
      · cases h
      · rename_i opening rest'
        split at h
        · split at h
          · cases h
          · rename_i e he
            obtain rfl := Except.error.inj h
            have hmem := token_mem_of_readParameters he
            simp only [tokens, hargs, List.mem_cons] at hmem ⊢
            exact Or.inr (Or.inr hmem)
        · cases h

theorem token_mem_of_readUndef {l : Line} {c : Complaint} (h : l.readUndef = .error c) :
    c.token ∈ l.tokens := by
  unfold readUndef at h
  split at h
  · obtain rfl := Except.error.inj h
    exact List.mem_cons_self
  · rename_i name rest hargs
    split at h
    · cases h
    · obtain rfl := Except.error.inj h
      simp [tokens, hargs]

theorem token_mem_of_readSingle {l : Line} {c : Complaint} (h : l.readSingle = .error c) :
    c.token ∈ l.tokens := by
  unfold readSingle at h
  split at h
  · exact token_mem_of_readDefine h
  · exact token_mem_of_readUndef h
  · exact token_mem_of_readInclude h

theorem token_mem_of_readTested {l : Line} {c : Complaint} (h : l.readTested = .error c) :
    c.token ∈ l.tokens := by
  unfold readTested at h
  split at h
  · obtain rfl := Except.error.inj h
    exact List.mem_cons_self
  · rename_i name rest hargs
    split at h
    · cases h
    · obtain rfl := Except.error.inj h
      simp [tokens, hargs]

theorem token_mem_of_parse {l : Line} {e : ConditionError}
    (h : Condition.parse l.args = .error e) : e.token?.getD l.token ∈ l.tokens := by
  cases ht : e.token? with
  | none => exact List.mem_cons_self
  | some t => exact List.mem_cons_of_mem _ (Condition.token_mem_of_parse_eq_error h ht)

theorem token_mem_of_readCondition {l : Line} {c : Complaint} (h : l.readCondition = .error c) :
    c.token ∈ l.tokens := by
  unfold readCondition at h
  split at h
  · exact token_mem_of_readTested h
  · exact token_mem_of_readTested h
  · exact token_mem_of_readTested (map_eq_error_iff.1 h)
  · exact token_mem_of_readTested (map_eq_error_iff.1 h)
  · split at h
    · cases h
    · rename_i e he
      obtain rfl := Except.error.inj h
      exact token_mem_of_parse he

end Line

/-! ## The reader of lines -/

/-- The events in front of the branch being read, its own head included. -/
def Frame.events (f : Frame) : List Event :=
  Directive.events f.outer.reverse ++ Branch.events f.finished.reverse
    ++ [.branch f.kind f.condition]

namespace LineReader

/-- **The events of what has been read**, of open blocks as far as they go. -/
def events (r : LineReader) : List Event :=
  r.frames.reverse.flatMap Frame.events ++ Directive.events r.body.reverse

theorem events_report (r : LineReader) (c : Complaint) : (r.report c).events = r.events := rfl

theorem events_add (r : LineReader) {d : Directive} (h : d.eventsOf = [.leaf d]) :
    (r.add d).events = r.events ++ [.leaf d] := by
  simp only [events, add, List.reverse_cons, Directive.events_concat, h, List.append_assoc]

theorem events_openBlock (r : LineReader) (l : Line) (c : Condition) :
    (r.openBlock l c).events = r.events ++ [.branch .opening (some c)] := by
  simp [events, openBlock, Frame.events, Directive.events, Branch.events]

theorem events_nextBranch {r : LineReader} {f : Frame} {fs : List Frame} (h : r.frames = f :: fs)
    (kind : BranchKind) (condition : Option Condition) :
    (r.nextBranch f fs kind condition).events = r.events ++ [.branch kind condition] := by
  simp [events, nextBranch, Frame.events, Frame.branches, Directive.events, Branch.events_concat, h]

theorem events_closeBlock {r : LineReader} {f : Frame} {fs : List Frame} (h : r.frames = f :: fs) :
    (r.closeBlock f fs).events = r.events ++ [.endBlock] := by
  simp [events, closeBlock, Frame.events, Frame.branches, Directive.events_concat,
    Directive.eventsOf, Branch.events_concat, h]

end LineReader

/-- What a line that stands alone says is one event. -/
theorem Line.eventsOf_readSingle {l : Line} {d : Directive} (h : l.readSingle = .ok d) :
    d.eventsOf = [.leaf d] := by
  cases d with
  | block branches =>
    unfold readSingle at h
    split at h
    · unfold readDefine at h
      repeat' split at h
      all_goals cases h
    · unfold readUndef at h
      repeat' split at h
      all_goals cases h
    · unfold readInclude at h
      repeat' split at h
      all_goals cases h
  | _ => rfl

namespace LineReader

/-- The line was dropped and reported, at one of its tokens. -/
def Reported (r : LineReader) (l : Line) (r' : LineReader) : Prop :=
  ∃ c : Complaint, c.token ∈ l.tokens ∧ r' = r.report c

/-- The line was taken: its event is the next. -/
def Took (r : LineReader) (l : Line) (r' : LineReader) : Prop :=
  ∃ e, l.event = .ok e ∧ r'.complaints = r.complaints ∧ r'.events = r.events ++ [e]

theorem branchStep_cases {r : LineReader} {f : Frame} {fs : List Frame}
    (hframes : r.frames = f :: fs) {l : Line}
    (hrole : l.keyword.role = .continues ∨ l.keyword.role = .falls
      ∨ l.keyword.role = .closes) :
    r.Reported l (r.branchStep f fs l) ∨ r.Took l (r.branchStep f fs l) := by
  unfold branchStep
  split
  case isTrue hcloses =>
    exact Or.inr ⟨.endBlock, by rw [Line.event, hcloses], rfl, events_closeBlock hframes⟩
  case isFalse hcloses =>
    split
    · exact Or.inl ⟨_, List.mem_cons_self, rfl⟩
    · split
      case isTrue hfalls =>
        exact Or.inr ⟨.branch .fallback none, by rw [Line.event, hfalls], rfl,
          events_nextBranch hframes _ _⟩
      case isFalse hfalls =>
        have hcontinues : l.keyword.role = .continues := by tauto
        cases hread : l.readCondition with
        | error e => exact Or.inl ⟨e, Line.token_mem_of_readCondition hread, rfl⟩
        | ok c =>
          exact Or.inr ⟨.branch .alternative (some c),
            by rw [Line.event, hcontinues, hread]; rfl, rfl, events_nextBranch hframes _ _⟩

theorem innerStep_cases (r : LineReader) {l : Line} (hrole : l.keyword.role = .continues
    ∨ l.keyword.role = .falls ∨ l.keyword.role = .closes) :
    r.Reported l (r.innerStep l) ∨ r.Took l (r.innerStep l) := by
  cases hframes : r.frames with
  | nil =>
    exact Or.inl ⟨⟨.unpaired l.keyword, l.token⟩, List.mem_cons_self, by rw [innerStep, hframes]⟩
  | cons f fs => exact innerStep_of_frames hframes l ▸ branchStep_cases hframes hrole

/-- **What one line does to the reader**: it is reported once and dropped, or its event is the
next. -/
theorem step_cases (r : LineReader) (l : Line) :
    r.Reported l (r.step l) ∨ r.Took l (r.step l) := by
  rw [step_eq]
  split
  · rename_i hrole
    cases hread : l.readSingle with
    | error e => exact Or.inl ⟨e, Line.token_mem_of_readSingle hread, rfl⟩
    | ok d =>
      exact Or.inr ⟨.leaf d, by rw [Line.event, hrole, hread]; rfl, rfl,
        events_add r (Line.eventsOf_readSingle hread)⟩
  · rename_i hrole
    cases hread : l.readCondition with
    | error e => exact Or.inl ⟨e, Line.token_mem_of_readCondition hread, rfl⟩
    | ok c =>
      exact Or.inr ⟨.branch .opening (some c), by rw [Line.event, hrole, hread]; rfl, rfl,
        events_openBlock r l c⟩
  · exact r.innerStep_cases (Or.inl ‹_›)
  · exact r.innerStep_cases (Or.inr (Or.inl ‹_›))
  · exact r.innerStep_cases (Or.inr (Or.inr ‹_›))

end LineReader

/-! ## A run of the reader -/

/-- **Lines sorted into events and complaints**: each line gives its event, or one complaint at a
token of it. -/
inductive Sorted : List Line → List Event → List Complaint → Prop
  | nil : Sorted [] [] []
  | event {l : Line} {ls : List Line} {e : Event} {es : List Event} {cs : List Complaint}
      (h : l.event = .ok e) (rest : Sorted ls es cs) : Sorted (l :: ls) (e :: es) cs
  | complaint {l : Line} {ls : List Line} {es : List Event} {c : Complaint} {cs : List Complaint}
      (h : c.token ∈ l.tokens) (rest : Sorted ls es cs) : Sorted (l :: ls) es (c :: cs)

/-- **Reading lines sorts them.** -/
theorem LineReader.exists_sorted (ls : List Line) (r : LineReader) :
    ∃ es cs, Sorted ls es cs ∧ (ls.foldl step r).events = r.events ++ es
      ∧ (ls.foldl step r).complaints = cs.reverse ++ r.complaints := by
  induction ls generalizing r with
  | nil => exact ⟨[], [], .nil, (List.append_nil _).symm, rfl⟩
  | cons l ls ih =>
    obtain ⟨es, cs, hsorted, hevents, hcomplaints⟩ := ih (r.step l)
    rw [List.foldl_cons, hevents, hcomplaints]
    rcases r.step_cases l with ⟨c, hc, hstep⟩ | ⟨e, he, hsame, hnext⟩
    · refine ⟨es, c :: cs, .complaint hc hsorted, ?_, ?_⟩
      · rw [hstep, events_report]
      · rw [hstep, List.reverse_cons, List.append_assoc]
        rfl
    · refine ⟨e :: es, cs, .event he hsorted, ?_, ?_⟩
      · rw [hnext, List.append_assoc]
        rfl
      · rw [hsame]

/-! ## Lines and diagnostics -/

namespace Line

/-- The diagnostic is about this line: it is at one of its tokens. -/
def carries (l : Line) (d : Diagnostic) : Bool := l.tokens.any fun t => t.cursor == d.cursor

/-- The diagnostics about this line. -/
def diagnosticsIn (ds : List Diagnostic) (l : Line) : List Diagnostic := ds.filter l.carries

theorem carries_iff {l : Line} {d : Diagnostic} :
    l.carries d = true ↔ d.cursor ∈ l.tokens.map Token.cursor := by
  simp [carries]

end Line

/-- No two tokens of the lines stand at one place. -/
def Apart (ls : List Line) : Prop := ((ls.flatMap Line.tokens).map Token.cursor).Nodup

theorem Apart.tail {l : Line} {ls : List Line} (h : Apart (l :: ls)) : Apart ls := by
  rw [Apart, List.flatMap_cons, List.map_append, List.nodup_append] at h
  exact h.2.1

/-- A diagnostic is not about lines on both sides of a place. -/
theorem Apart.not_carries_of_append {ls ms : List Line} (h : Apart (ls ++ ms)) {d : Diagnostic}
    {l m : Line} (hl : l ∈ ls) (hm : m ∈ ms) (hd : m.carries d = true) : l.carries d ≠ true := by
  rw [Apart, List.flatMap_append, List.map_append, List.nodup_append] at h
  obtain ⟨t, ht, heq⟩ := List.mem_map.1 (Line.carries_iff.1 hd)
  intro hl'
  obtain ⟨u, hu, hequ⟩ := List.mem_map.1 (Line.carries_iff.1 hl')
  exact h.2.2 _ (List.mem_map_of_mem (List.mem_flatMap_of_mem hl hu)) _
    (List.mem_map_of_mem (List.mem_flatMap_of_mem hm ht)) (hequ.trans heq.symm)

/-- A diagnostic about a line is not about the line in front of it. -/
theorem Apart.not_carries {l : Line} {ls : List Line} (h : Apart (l :: ls)) {d : Diagnostic}
    {l' : Line} (hl' : l' ∈ ls) (hd : l'.carries d = true) : l.carries d = false :=
  Bool.eq_false_iff.2 (@not_carries_of_append [l] ls h _ _ _ List.mem_cons_self hl' hd)

namespace Sorted

variable {ls : List Line} {es : List Event} {cs : List Complaint}

/-- Every complaint is about one of the lines. -/
theorem exists_carries (h : Sorted ls es cs) {d : Diagnostic}
    (hd : d ∈ cs.map Complaint.toDiagnostic) : ∃ l ∈ ls, l.carries d = true := by
  induction h with
  | nil => cases hd
  | event _ _ ih =>
    obtain ⟨l, hl, hd⟩ := ih hd
    exact ⟨l, List.mem_cons_of_mem _ hl, hd⟩
  | complaint hc _ ih =>
    rcases List.mem_cons.1 hd with rfl | hd
    · exact ⟨_, List.mem_cons_self, Line.carries_iff.2 (List.mem_map_of_mem hc)⟩
    · obtain ⟨l, hl, hd⟩ := ih hd
      exact ⟨l, List.mem_cons_of_mem _ hl, hd⟩

/-- No complaint about later lines is about the line in front of them. -/
theorem diagnosticsIn_head {l : Line} (h : Sorted ls es cs) (hapart : Apart (l :: ls)) :
    l.diagnosticsIn (cs.map Complaint.toDiagnostic) = [] := by
  refine List.filter_eq_nil_iff.2 fun d hd => ?_
  obtain ⟨l', hl', hd⟩ := h.exists_carries hd
  simp [hapart.not_carries hl' hd]

/-- A complaint about a line is one more about that line. -/
theorem diagnosticsIn_cons {l : Line} {c : Complaint} (hc : c.token ∈ l.tokens)
    (ds : List Diagnostic) :
    l.diagnosticsIn (c.toDiagnostic :: ds) = c.toDiagnostic :: l.diagnosticsIn ds :=
  List.filter_cons_of_pos (Line.carries_iff.2 (List.mem_map_of_mem hc))

/-- A complaint about a line is about none of the later lines. -/
theorem diagnosticsIn_cons_of_mem {l l' : Line} {c : Complaint} (hc : c.token ∈ l.tokens)
    (hapart : Apart (l :: ls)) (hl' : l' ∈ ls) (ds : List Diagnostic) :
    l'.diagnosticsIn (c.toDiagnostic :: ds) = l'.diagnosticsIn ds := by
  have hl : l.carries c.toDiagnostic = true := Line.carries_iff.2 (List.mem_map_of_mem hc)
  refine List.filter_cons_of_neg fun hd => ?_
  exact absurd (hl.symm.trans (hapart.not_carries hl' hd)) (by simp)

/-- **The events are those of the lines without a diagnostic.** -/
theorem map_event_filter (h : Sorted ls es cs) (hapart : Apart ls) :
    (ls.filter fun l => (l.diagnosticsIn (cs.map Complaint.toDiagnostic)).isEmpty).map Line.event
      = es.map .ok := by
  induction h with
  | nil => rfl
  | event he hrest ih =>
    rw [List.filter_cons_of_pos (by rw [hrest.diagnosticsIn_head hapart]; rfl), List.map_cons,
      List.map_cons, he, ih hapart.tail]
  | complaint hc hrest ih =>
    rw [List.map_cons, List.filter_cons_of_neg (by rw [diagnosticsIn_cons hc]; simp),
      ← ih hapart.tail]
    refine congrArg _ (List.filter_congr fun l hl => ?_)
    rw [diagnosticsIn_cons_of_mem hc hapart hl]

/-- **No line has two diagnostics.** -/
theorem length_diagnosticsIn_le (h : Sorted ls es cs) (hapart : Apart ls) :
    ∀ l ∈ ls, (l.diagnosticsIn (cs.map Complaint.toDiagnostic)).length ≤ 1 := by
  induction h with
  | nil => simp
  | event he hrest ih =>
    refine List.forall_mem_cons.2 ⟨?_, ih hapart.tail⟩
    rw [hrest.diagnosticsIn_head hapart]
    exact Nat.zero_le _
  | complaint hc hrest ih =>
    refine List.forall_mem_cons.2 ⟨?_, fun l hl => ?_⟩
    · rw [List.map_cons, diagnosticsIn_cons hc, hrest.diagnosticsIn_head hapart]
      exact Nat.le_refl _
    · rw [List.map_cons, diagnosticsIn_cons_of_mem hc hapart hl]
      exact ih hapart.tail l hl

/-- **The diagnostics are those of the lines**, in the order of the lines. -/
theorem flatMap_diagnosticsIn (h : Sorted ls es cs) (hapart : Apart ls) :
    ls.flatMap (Line.diagnosticsIn (cs.map Complaint.toDiagnostic))
      = cs.map Complaint.toDiagnostic := by
  induction h with
  | nil => rfl
  | event he hrest ih =>
    rw [List.flatMap_cons, hrest.diagnosticsIn_head hapart, ih hapart.tail, List.nil_append]
  | complaint hc hrest ih =>
    rw [List.map_cons, List.flatMap_cons, diagnosticsIn_cons hc, hrest.diagnosticsIn_head hapart,
      List.flatMap_congr fun l hl => diagnosticsIn_cons_of_mem hc hapart hl _, ih hapart.tail]
    rfl

end Sorted

/-! ## The outline of a file -/

namespace Outline

/-- No block is open at the end unless that is reported. -/
theorem frames_eq_nil {ts : List Token}
    (h : ∀ d ∈ (ofTokens ts).diagnostics, d.code ≠ .unterminatedConditional) :
    (LineReader.readAll (lines ts)).frames = [] := by
  cases hframes : (LineReader.readAll (lines ts)).frames with
  | nil => rfl
  | cons f fs =>
    refine absurd rfl (h (Complaint.toDiagnostic ⟨.neverClosed f.opening.keyword, f.opening.token⟩)
      ?_)
    simp [ofTokens, endComplaint?, hframes]

/-- The diagnostics of a file whose blocks are closed are the complaints of its lines. -/
theorem diagnostics_eq {ts : List Token} (h : (LineReader.readAll (lines ts)).frames = []) :
    (ofTokens ts).diagnostics
      = (LineReader.readAll (lines ts)).complaints.reverse.map Complaint.toDiagnostic := by
  simp [ofTokens, endComplaint?, h]

/-- The tree of a file whose blocks are closed is all that was read. -/
theorem events_directives_eq {ts : List Token} (h : (LineReader.readAll (lines ts)).frames = []) :
    Directive.events (ofTokens ts).directives = (LineReader.readAll (lines ts)).events := by
  simp [ofTokens, LineReader.events, h]

theorem apart_directiveLines (text : String) : Apart (directiveLines (tokenize text).tokens) := by
  rw [← lines_eq_directiveLines]
  exact (nodup_cursor_tokens text).sublist ((flatMap_tokens_lines_sublist _).map _)

/-- **The tree says what the lines say.**  In a text that can be cut, and all of whose blocks are
closed, a walk over the tree gives the events of the directive lines without a diagnostic, each read
on its own, in the order of the text; every other line has exactly one diagnostic, and the
diagnostics are those of the lines, in the same order. -/
theorem events_directives {text : String} {eof : Token} (h : (tokenize text).ending = .ok eof) :
    ∃ o, ofText text = .ok o
      ∧ ((∀ d ∈ o.diagnostics, d.code ≠ .unterminatedConditional) →
        ((directiveLines (tokenize text).tokens).filter fun l =>
            (l.diagnosticsIn o.diagnostics).isEmpty).map Line.event
          = (Directive.events o.directives).map .ok
        ∧ (∀ l ∈ directiveLines (tokenize text).tokens, l.diagnosticsIn o.diagnostics ≠ [] →
            (l.diagnosticsIn o.diagnostics).length = 1)
        ∧ (directiveLines (tokenize text).tokens).flatMap (Line.diagnosticsIn o.diagnostics)
          = o.diagnostics) := by
  refine ⟨ofTokens (tokenize text).tokens, by rw [ofText, h]; rfl, fun hclosed => ?_⟩
  have hframes := frames_eq_nil hclosed
  have hapart := apart_directiveLines text
  obtain ⟨es, cs, hsorted, hevents, hcomplaints⟩ :=
    LineReader.exists_sorted (lines (tokenize text).tokens) {}
  rw [lines_eq_directiveLines] at hsorted
  have hes : Directive.events (ofTokens (tokenize text).tokens).directives = es := by
    rw [events_directives_eq hframes]
    exact hevents
  have hcs : (ofTokens (tokenize text).tokens).diagnostics = cs.map Complaint.toDiagnostic := by
    rw [diagnostics_eq hframes, LineReader.readAll, hcomplaints, List.append_nil,
      List.reverse_reverse]
  rw [hes, hcs]
  refine ⟨hsorted.map_event_filter hapart, fun l hl hne => ?_, hsorted.flatMap_diagnosticsIn hapart⟩
  have hle := hsorted.length_diagnosticsIn_le hapart l hl
  have hpos := List.length_pos_iff.2 hne
  omega

/-- A branch that cannot be read and an end too many: the two lines have one diagnostic each, and
the other three are the tree. -/
theorem events_directives_recovered :
    ∃ o, ofText "#ifdef A\n#elifdef\n#undef B\n#endif\n#endif\n" = .ok o
      ∧ o.diagnostics.map Diagnostic.code = [.malformedCondition, .unpairedConditional]
      ∧ (Directive.events o.directives).length = 3
      ∧ ((directiveLines (tokenize "#ifdef A\n#elifdef\n#undef B\n#endif\n#endif\n").tokens).filter
          fun l => (l.diagnosticsIn o.diagnostics).isEmpty).map Line.event
        = (Directive.events o.directives).map .ok := by
  have hok : (tokenize "#ifdef A\n#elifdef\n#undef B\n#endif\n#endif\n").ending
      = .ok ⟨.eof, "", ⟨6, 1⟩, ⟨41, 41⟩, none⟩ := by
    rw [tokenize_eq_steps]
    decide +kernel
  obtain ⟨o, ho, hspec⟩ := events_directives hok
  obtain rfl : ofTokens (tokenize "#ifdef A\n#elifdef\n#undef B\n#endif\n#endif\n").tokens = o := by
    rw [ofText, hok] at ho
    exact Except.ok.inj ho
  have hcodes : (ofTokens
      (tokenize "#ifdef A\n#elifdef\n#undef B\n#endif\n#endif\n").tokens).diagnostics.map
        Diagnostic.code = [.malformedCondition, .unpairedConditional] := by
    rw [ofTokens, lines_eq_directiveLines, tokenize_eq_steps]
    decide +kernel
  refine ⟨_, ho, hcodes, ?_, (hspec fun d hd hcode => ?_).1⟩
  · rw [ofTokens, lines_eq_directiveLines, tokenize_eq_steps]
    decide +kernel
  · have hmem := List.mem_map_of_mem (f := Diagnostic.code) hd
    simp [hcodes, hcode] at hmem

end Outline

end IncludeScan
