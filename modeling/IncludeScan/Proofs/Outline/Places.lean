import IncludeScan.Directive.Reach
import IncludeScan.Outline
import IncludeScan.Proofs.Condition.Reading
import IncludeScan.Proofs.Outline.Lines

/-!
# Proofs/Outline/Places — what a file says does not depend on where its tokens stand

Two lines are *alike* when they have the same keyword and the same words, and a macro that they
define touches its parenthesis in both or in neither.  They are read alike: what they say is the
same, up to the numbers of their lines, and so is what is wrong with them (`Line.Alike.readSingle`,
`Line.Alike.readCondition`).  So are two files whose lines are alike, line by line
(`LineReader.Alike.foldl`).

How the numbers of the lines correspond is left open: `f` of the one is `g` of the other.
-/

namespace IncludeScan

/-! ## Other numbers for the lines -/

mutual

/-- The directive with other line numbers. -/
def Directive.renumber (f : Nat → Nat) : Directive → Directive
  | .includeFile target => .includeFile { target with line := f target.line }
  | .define name params body => .define name params body
  | .undefine name => .undefine name
  | .block branches => .block (Branch.renumberAll f branches)

/-- The directives with other line numbers. -/
def Directive.renumberAll (f : Nat → Nat) : List Directive → List Directive
  | [] => []
  | d :: ds => d.renumber f :: Directive.renumberAll f ds

/-- The branches with other line numbers. -/
def Branch.renumberAll (f : Nat → Nat) : List Branch → List Branch
  | [] => []
  | ⟨kind, condition, body⟩ :: bs =>
    ⟨kind, condition, Directive.renumberAll f body⟩ :: Branch.renumberAll f bs

end

theorem Directive.renumberAll_append (f : Nat → Nat) (ds es : List Directive) :
    renumberAll f (ds ++ es) = renumberAll f ds ++ renumberAll f es := by
  induction ds with
  | nil => simp [renumberAll]
  | cons d ds ih => simp [renumberAll, ih]

theorem Branch.renumberAll_append (f : Nat → Nat) (bs cs : List Branch) :
    renumberAll f (bs ++ cs) = renumberAll f bs ++ renumberAll f cs := by
  induction bs with
  | nil => simp [renumberAll]
  | cons b bs ih =>
    obtain ⟨kind, condition, body⟩ := b
    simp [renumberAll, ih]

theorem Directive.renumberAll_reverse (f : Nat → Nat) (ds : List Directive) :
    renumberAll f ds.reverse = (renumberAll f ds).reverse := by
  induction ds with
  | nil => simp [renumberAll]
  | cons d ds ih => simp [renumberAll, renumberAll_append, ih]

theorem Branch.renumberAll_reverse (f : Nat → Nat) (bs : List Branch) :
    renumberAll f bs.reverse = (renumberAll f bs).reverse := by
  induction bs with
  | nil => simp [renumberAll]
  | cons b bs ih =>
    obtain ⟨kind, condition, body⟩ := b
    simp [renumberAll, renumberAll_append, ih]

/-- The include with another line number. -/
def Include.renumber (f : Nat → Nat) (i : Include) : Include := { i with line := f i.line }

theorem Branch.reachable_renumber {f : Nat → Nat} (env : Environment) {bs : List Branch}
    (ih : ∀ b ∈ bs, ∀ env, Directive.reachable env (Directive.renumberAll f b.body)
      = (Directive.reachable env b.body).map (Include.renumber f)) :
    reachable env (renumberAll f bs) = (reachable env bs).map (Include.renumber f) := by
  induction bs with
  | nil => simp [renumberAll, reachable]
  | cons b bs ihbs =>
    obtain ⟨hb, hbs⟩ := List.forall_mem_cons.1 ih
    obtain ⟨kind, condition, body⟩ := b
    rw [renumberAll, reachable, reachable]
    split
    · exact hb env
    · exact ihbs hbs

/-- **The includes that are reached do not depend on the numbers of their lines.** -/
theorem Directive.reachable_renumber (f : Nat → Nat) (ds : List Directive) :
    ∀ env, reachable env (renumberAll f ds) = (reachable env ds).map (Include.renumber f) := by
  induction ds using Directive.forest_induction with
  | nil => simp [renumberAll, reachable]
  | includeFile target ds ih => simp [renumberAll, renumber, reachable, ih, Include.renumber]
  | define name params body ds ih => simp [renumberAll, renumber, reachable, ih]
  | undefine name ds ih => simp [renumberAll, renumber, reachable, ih]
  | block branches ds ihbody ih =>
    intro env
    simp only [renumberAll, renumber, reachable, ih, Branch.reachable_renumber env ihbody,
      List.map_append]

/-! ## Lines that are alike -/

/-- The tokens are the same but for their places. -/
def Token.SameWord (t u : Token) : Prop := t.kind = u.kind ∧ t.value = u.value

namespace Token.SameWord

variable {t u : Token} (h : SameWord t u)

include h

theorem isOp (sign : String) : t.isOp sign = u.isOp sign := Condition.alike_isOp (fun h => h) h sign

theorem isPunct (mark : String) : t.isPunct mark = u.isPunct mark :=
  Condition.alike_isPunct (fun h => h) h mark

theorem isIdentifier : t.isIdentifier = u.isIdentifier :=
  Condition.alike_isIdentifier (fun h => h) h

theorem isParameter : Line.isParameter t = Line.isParameter u := by
  rw [Line.isParameter, Line.isParameter, h.isIdentifier, h.2]

end Token.SameWord

namespace Line

/-- The second word of the line is a parenthesis that touches the first. -/
def touching (l : Line) : Bool :=
  match l.args with
  | name :: opening :: _ => touches name opening
  | _ => false

/-- **The lines say the same**; `f` and `g` tell which line numbers correspond. -/
structure Alike (f g : Nat → Nat) (l m : Line) : Prop where
  keyword : l.keyword = m.keyword
  line : f l.token.cursor.line = g m.token.cursor.line
  args : List.Forall₂ Token.SameWord l.args m.args
  touching : l.keyword = .define → l.touching = m.touching

end Line

/-- What is reported about a problem, without its place. -/
def Complaint.wording (c : Complaint) : DiagnosticCode × String × Severity :=
  (c.problem.code, c.problem.message, c.problem.severity)

/-- What is read, without places: directives up to their line numbers, and errors by their
wording. -/
def seen {α β : Type} (view : α → β) (x : Except Complaint α) :
    Except (DiagnosticCode × String × Severity) β :=
  match x with
  | .ok a => .ok (view a)
  | .error c => .error c.wording

theorem exists_of_seen_eq_ok {α β : Type} {view : α → β} {x : Except Complaint α} {b : β}
    (h : seen view x = .ok b) : ∃ a, x = .ok a ∧ view a = b := by
  cases x with
  | error c => cases h
  | ok a => exact ⟨a, rfl, Except.ok.inj h⟩

theorem seen_map_eq {α : Type} {x y : Except Complaint α} (h : seen id x = seen id y) (k : α → α) :
    seen id (x.map k) = seen id (y.map k) := by
  cases x <;> cases y <;> simp_all [seen, Except.map]

namespace Line.Alike

variable {f g : Nat → Nat} {l m : Line}

theorem upToAngle_eq {ts us : List Token} (h : List.Forall₂ Token.SameWord ts us) :
    upToAngle ts = upToAngle us := by
  induction h with
  | nil => rfl
  | cons ht _ ih => rw [upToAngle, upToAngle, ht.isOp, ht.2, ih]

theorem readInclude (h : Alike f g l m) :
    seen (Directive.renumber f) l.readInclude = seen (Directive.renumber g) m.readInclude := by
  obtain ⟨token, keyword, ts⟩ := l
  obtain ⟨token', keyword', us⟩ := m
  obtain ⟨rfl, hline, hargs, -⟩ := h
  cases hargs with
  | nil => rfl
  | @cons t u ts us ht hts =>
    simp only [Line.readInclude, ht.isOp, ht.1, ht.2, upToAngle_eq hts]
    by_cases hstring : u.kind = .string
    · by_cases hquote : '"' ∈ unquoted u.value
      · simp [hstring, hquote, seen, Complaint.wording]
      · simpa [hstring, hquote, seen, Directive.renumber] using hline
    · rw [if_neg hstring, if_neg hstring]
      by_cases hangle : u.isOp "<" = true
      · rw [if_pos hangle, if_pos hangle]
        split
        · simpa [seen, Directive.renumber] using hline
        · rfl
      · rw [if_neg hangle, if_neg hangle]
        rfl

theorem map_value_eq {ts us : List Token} (h : List.Forall₂ Token.SameWord ts us) :
    ts.map Token.value = us.map Token.value := by
  induction h with
  | nil => rfl
  | cons ht _ ih => rw [List.map_cons, List.map_cons, ht.2, ih]

theorem readParameters (name : String) (opening opening' : Token) {ts us : List Token}
    (h : List.Forall₂ Token.SameWord ts us) :
    ∀ place, seen (fun x => (x.1, x.2.map Token.value)) (Line.readParameters name opening place ts)
      = seen (fun x => (x.1, x.2.map Token.value))
        (Line.readParameters name opening' place us) := by
  induction h with
  | nil => exact fun place => rfl
  | @cons t u ts us ht hts ih =>
    intro place
    simp only [Line.readParameters, ht.isPunct, ht.isParameter]
    by_cases hclose : u.isPunct ")" = true
    · rw [if_pos hclose, if_pos hclose]
      split
      · rfl
      · exact congrArg (fun values => Except.ok ([], values)) (map_value_eq hts)
    · rw [if_neg hclose, if_neg hclose]
      by_cases hplace : place = .behindParameter
      · rw [if_pos hplace, if_pos hplace]
        by_cases hcomma : u.isPunct "," = true
        · rw [if_pos hcomma, if_pos hcomma]
          exact ih .behindComma
        · rw [if_neg hcomma, if_neg hcomma, ht.2]
          rfl
      · rw [if_neg hplace, if_neg hplace]
        by_cases hparameter : Line.isParameter u = true
        · rw [if_pos hparameter, if_pos hparameter, ht.2]
          have hrest := ih .behindParameter
          revert hrest
          cases Line.readParameters name opening .behindParameter ts <;>
            cases Line.readParameters name opening' .behindParameter us <;> simp +contextual [seen]
        · rw [if_neg hparameter, if_neg hparameter, ht.2]
          rfl

theorem readDefine (h : Alike f g l m) (hdefine : l.keyword = .define) :
    seen (Directive.renumber f) l.readDefine = seen (Directive.renumber g) m.readDefine := by
  have htouching := h.touching hdefine
  obtain ⟨token, keyword, ts⟩ := l
  obtain ⟨token', keyword', us⟩ := m
  obtain ⟨-, hline, hargs, -⟩ := h
  cases hargs with
  | nil => rfl
  | @cons t u ts us ht hts =>
    simp only [Line.readDefine, ht.isIdentifier, ht.2]
    by_cases hname : u.isIdentifier = true
    · simp only [hname, Bool.not_true]
      cases hts with
      | nil => rfl
      | @cons t' u' ts us ht' hts =>
        have htouch : touches t t' = touches u u' := htouching
        simp only [htouch, List.map_cons, ht'.2, map_value_eq hts]
        by_cases htouches : touches u u' = true
        · have hparams := readParameters u.value t' u' hts .beginning
          revert hparams
          cases Line.readParameters u.value t' .beginning ts <;>
            cases Line.readParameters u.value u' .beginning us <;>
            simp +contextual [seen, htouches, Directive.renumber]
        · simp [htouches, seen, Directive.renumber]
    · simp only [hname]
      rfl

theorem readUndef (h : Alike f g l m) :
    seen (Directive.renumber f) l.readUndef = seen (Directive.renumber g) m.readUndef := by
  obtain ⟨token, keyword, ts⟩ := l
  obtain ⟨token', keyword', us⟩ := m
  obtain ⟨-, -, hargs, -⟩ := h
  cases hargs with
  | nil => rfl
  | @cons t u ts us ht hts =>
    simp only [Line.readUndef, ht.isIdentifier, ht.2]
    split <;> rfl

theorem readTested (h : Alike f g l m) : seen id l.readTested = seen id m.readTested := by
  obtain ⟨token, keyword, ts⟩ := l
  obtain ⟨token', keyword', us⟩ := m
  obtain ⟨rfl, -, hargs, -⟩ := h
  cases hargs with
  | nil => rfl
  | @cons t u ts us ht hts =>
    simp only [Line.readTested, ht.isIdentifier, ht.2]
    split <;> rfl

theorem readSingle (h : Alike f g l m) :
    seen (Directive.renumber f) l.readSingle = seen (Directive.renumber g) m.readSingle := by
  rw [Line.readSingle, Line.readSingle, h.keyword]
  split
  · exact h.readDefine (h.keyword.trans ‹m.keyword = .define›)
  · exact h.readUndef
  · exact h.readInclude

theorem parse {ts us : List Token} (h : List.Forall₂ Token.SameWord ts us) :
    (∃ c rest rest', Condition.parse ts = .ok (c, rest) ∧ Condition.parse us = .ok (c, rest'))
      ∨ ∃ e e', Condition.parse ts = .error e ∧ Condition.parse us = .error e'
        ∧ e.message = e'.message := by
  have halike := Condition.alike_parse (fun h => h) h
  generalize Condition.parse ts = x at halike ⊢
  generalize Condition.parse us = y at halike ⊢
  cases halike with
  | ok c => exact Or.inl ⟨c, _, _, rfl, rfl⟩
  | endOfLine wanted => exact Or.inr ⟨.endOfLine wanted, .endOfLine wanted, rfl, rfl, rfl⟩
  | @mismatch wanted t u ht =>
    refine Or.inr ⟨.mismatch wanted t, .mismatch wanted u, rfl, rfl, ?_⟩
    exact congrArg (fun v => "expected " ++ wanted.describe ++ " but found '" ++ v ++ "'") ht.2
  | @badLiteral t u ht =>
    refine Or.inr ⟨.badLiteral t, .badLiteral u, rfl, rfl, ?_⟩
    exact congrArg (fun v => "invalid integer literal '" ++ v ++ "'") ht.2
  | @unexpected t u ht =>
    refine Or.inr ⟨.unexpected t, .unexpected u, rfl, rfl, ?_⟩
    exact congrArg (fun v => "unexpected token '" ++ v ++ "'") ht.2

theorem readCondition (h : Alike f g l m) : seen id l.readCondition = seen id m.readCondition := by
  have htested := h.readTested
  rw [Line.readCondition, Line.readCondition, h.keyword]
  split
  · exact htested
  · exact htested
  · exact seen_map_eq htested .not
  · exact seen_map_eq htested .not
  · rcases parse h.args with ⟨c, rest, rest', hl, hm⟩ | ⟨e, e', hl, hm, hmessage⟩
    · rw [hl, hm]
    · rw [hl, hm]
      simp [seen, Complaint.wording, Problem.code, Problem.message, Problem.severity, hmessage]

end Line.Alike

/-! ## Files whose lines are alike -/

/-- The open blocks say the same. -/
structure Frame.Alike (f g : Nat → Nat) (a b : Frame) : Prop where
  keyword : a.opening.keyword = b.opening.keyword
  finished : Branch.renumberAll f a.finished = Branch.renumberAll g b.finished
  kind : a.kind = b.kind
  condition : a.condition = b.condition
  outer : Directive.renumberAll f a.outer = Directive.renumberAll g b.outer

/-- What has been read is the same. -/
structure LineReader.Alike (f g : Nat → Nat) (r s : LineReader) : Prop where
  frames : List.Forall₂ (Frame.Alike f g) r.frames s.frames
  body : Directive.renumberAll f r.body = Directive.renumberAll g s.body
  complaints : r.complaints.map Complaint.wording = s.complaints.map Complaint.wording

theorem Frame.Alike.branches {f g : Nat → Nat} {a b : Frame} (h : Frame.Alike f g a b)
    {body body' : List Directive}
    (hbody : Directive.renumberAll f body = Directive.renumberAll g body') :
    Branch.renumberAll f (a.branches body) = Branch.renumberAll g (b.branches body') := by
  simp only [Frame.branches, Branch.renumberAll, Directive.renumberAll_reverse, hbody, h.finished,
    h.kind, h.condition]

namespace LineReader.Alike

variable {f g : Nat → Nat} {r s : LineReader}

theorem report (h : Alike f g r s) {c c' : Complaint} (hc : c.wording = c'.wording) :
    Alike f g (r.report c) (s.report c') :=
  ⟨h.frames, h.body, by simp only [LineReader.report, List.map_cons, hc, h.complaints]⟩

theorem add (h : Alike f g r s) {d d' : Directive} (hd : d.renumber f = d'.renumber g) :
    Alike f g (r.add d) (s.add d') :=
  ⟨h.frames, by simp only [LineReader.add, Directive.renumberAll, hd, h.body], h.complaints⟩

theorem openBlock (h : Alike f g r s) {l m : Line} (hl : l.keyword = m.keyword) (c : Condition) :
    Alike f g (r.openBlock l c) (s.openBlock m c) :=
  ⟨.cons ⟨hl, rfl, rfl, rfl, h.body⟩ h.frames, rfl, h.complaints⟩

theorem nextBranch (h : Alike f g r s) {a b : Frame} (hab : Frame.Alike f g a b)
    {as bs : List Frame} (hframes : List.Forall₂ (Frame.Alike f g) as bs) (kind : BranchKind)
    (condition : Option Condition) :
    Alike f g (r.nextBranch a as kind condition) (s.nextBranch b bs kind condition) :=
  ⟨.cons ⟨hab.keyword, hab.branches h.body, rfl, rfl, hab.outer⟩ hframes, rfl, h.complaints⟩

theorem closeBlock (h : Alike f g r s) {a b : Frame} (hab : Frame.Alike f g a b)
    {as bs : List Frame} (hframes : List.Forall₂ (Frame.Alike f g) as bs) :
    Alike f g (r.closeBlock a as) (s.closeBlock b bs) :=
  ⟨hframes, by simp only [LineReader.closeBlock, Directive.renumberAll, Directive.renumber,
    Branch.renumberAll_reverse, hab.branches h.body, hab.outer], h.complaints⟩

theorem branchStep (h : Alike f g r s) {a b : Frame} (hab : Frame.Alike f g a b)
    {as bs : List Frame} (hframes : List.Forall₂ (Frame.Alike f g) as bs) {l m : Line}
    (hl : Line.Alike f g l m) :
    Alike f g (r.branchStep a as l) (s.branchStep b bs m) := by
  have hcondition := hl.readCondition
  rw [LineReader.branchStep, LineReader.branchStep, hl.keyword, hab.kind]
  split
  · exact h.closeBlock hab hframes
  · split
    · exact h.report rfl
    · split
      · exact h.nextBranch hab hframes _ _
      · revert hcondition
        cases l.readCondition <;> cases m.readCondition <;> intro hcondition
        · exact h.report (Except.error.inj hcondition)
        · cases hcondition
        · cases hcondition
        · obtain rfl := Except.ok.inj hcondition
          exact h.nextBranch hab hframes _ _

theorem innerStep (h : Alike f g r s) {l m : Line} (hl : Line.Alike f g l m) :
    Alike f g (r.innerStep l) (s.innerStep m) := by
  have hframes := h.frames
  unfold LineReader.innerStep
  revert hframes
  cases r.frames <;> cases s.frames <;> rintro (_ | ⟨hab, hframes⟩)
  · exact h.report (by rw [hl.keyword]; rfl)
  · exact h.branchStep hab hframes hl

/-- **A line that is alike keeps what has been read alike.** -/
theorem step (h : Alike f g r s) {l m : Line} (hl : Line.Alike f g l m) :
    Alike f g (r.step l) (s.step m) := by
  rw [LineReader.step_eq, LineReader.step_eq, hl.keyword]
  split
  · have hsingle := hl.readSingle
    revert hsingle
    cases l.readSingle <;> cases m.readSingle <;> intro hsingle
    · exact h.report (Except.error.inj hsingle)
    · cases hsingle
    · cases hsingle
    · exact h.add (Except.ok.inj hsingle)
  · have hcondition := hl.readCondition
    revert hcondition
    cases l.readCondition <;> cases m.readCondition <;> intro hcondition
    · exact h.report (Except.error.inj hcondition)
    · cases hcondition
    · cases hcondition
    · obtain rfl := Except.ok.inj hcondition
      exact h.openBlock hl.keyword _
  all_goals exact h.innerStep hl

theorem foldl (h : Alike f g r s) {ls ms : List Line} (hls : List.Forall₂ (Line.Alike f g) ls ms) :
    Alike f g (ls.foldl LineReader.step r) (ms.foldl LineReader.step s) := by
  induction hls generalizing r s with
  | nil => exact h
  | cons hl _ ih => exact ih (h.step hl)

end LineReader.Alike

end IncludeScan
