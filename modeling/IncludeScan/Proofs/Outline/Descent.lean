import IncludeScan.Proofs.Outline.Lines
import IncludeScan.Proofs.Token.Lossless

/-!
# Proofs/Outline/Descent — an outline read block by block, off a stream

The outline of a file is read from its tokens by a reader with a stack of open blocks.  The
**descent** is the other way to read it: it draws its tokens from a stream, one at a time, and calls
itself for the body of every branch.  It fails where the stream fails, wherever that strikes, and it
may fail for reasons of its own; and it has no result at all when its calls go deeper than they may.

The stack is what the calls of the descent have still to do (`Descent.resume`).  One line takes the
descent from one stack to the next just as it takes the reader (`Descent.take_resume`), and no more
than three calls deeper.  So the descent over a text ends, with the outline or with the error of the
tokens, and with nothing else (`Descent.read_ofText`).
-/

namespace IncludeScan

/-! ## A stream from which nothing was pushed back -/

namespace Stream

variable {σ ε : Type} {pull : Pull σ ε} {s s' : Stream σ} {ts : List Token}
    {ending : Except ε Token}

theorem pushed_next (h : s.pushed = []) {x : Except ε Token} (hnext : s.next pull = (x, s')) :
    s'.pushed = [] := by
  unfold next at hnext
  rw [h] at hnext
  split at hnext
  · obtain ⟨-, rfl⟩ := Prod.mk.inj hnext
    exact h
  · rename_i hpushed
    cases hpushed
  · split at hnext <;> obtain ⟨-, rfl⟩ := Prod.mk.inj hnext
    · rfl
    · rw [receive]
      split <;> rfl

/-- The end token is given again and again. -/
theorem next_again (h : s.pushed = []) {t : Token} (ht : t.kind = .eof)
    (hnext : s.next pull = (.ok t, s')) : s'.next pull = (.ok t, s') := by
  unfold next at hnext
  rw [h] at hnext
  split at hnext
  · rename_i hended
    obtain ⟨heq, rfl⟩ := Prod.mk.inj hnext
    obtain rfl := Except.ok.inj heq
    rw [next, hended]
  · rename_i hpushed
    cases hpushed
  · split at hnext
    · cases (Prod.mk.inj hnext).1
    · obtain ⟨heq, rfl⟩ := Prod.mk.inj hnext
      obtain rfl := Except.ok.inj heq
      rw [next, receive, if_pos ht]

/-- **What is still to come from a stream** to which nothing was pushed back. -/
structure Supplies (pull : Pull σ ε) (s : Stream σ) (ts : List Token) (ending : Except ε Token) :
    Prop where
  pushed : s.pushed = []
  gives : s.Gives pull ts ending

theorem supplies_ofText (text : String) :
    (ofText text).Supplies Scanner.pull (tokenize text).tokens (tokenize text).ending :=
  ⟨rfl, gives_ofText.2 ⟨rfl, rfl⟩⟩

namespace Supplies

theorem exists_next_cons {t : Token} (h : s.Supplies pull (t :: ts) ending) :
    t.kind ≠ .eof ∧ ∃ s', s.next pull = (.ok t, s') ∧ s'.Supplies pull ts ending := by
  obtain ⟨hpushed, _ | _ | ⟨hnext, ht, hrest⟩⟩ := h
  exact ⟨ht, _, hnext, pushed_next hpushed hnext, hrest⟩

theorem exists_next_nil {t : Token} (h : s.Supplies pull [] (.ok t)) :
    t.kind = .eof ∧ ∃ s', s.next pull = (.ok t, s') ∧ s'.Supplies pull [] (.ok t) := by
  obtain ⟨hpushed, ⟨hnext, ht⟩ | _ | _⟩ := h
  exact ⟨ht, _, hnext, pushed_next hpushed hnext, .ended (next_again hpushed ht hnext) ht⟩

theorem exists_next_error {e : ε} (h : s.Supplies pull [] (.error e)) :
    ∃ s', s.next pull = (.error e, s') := by
  obtain ⟨hpushed, _ | hnext | _⟩ := h
  exact ⟨_, hnext⟩

end Supplies

end Stream

/-! ## The descent -/

/-- What can end a descent before the end of the file. -/
inductive ReadFailure where
  /-- The text cannot be cut any further. -/
  | scan (e : ScanError)
  /-- A line that stands alone cannot be read. -/
  | line (c : Complaint)
  /-- A line of this keyword does not stand alone. -/
  | unexpected (k : Keyword)

/-- The tokens to come, how much of a main function was seen, the complaints so far with the latest
first, and whether a block was left open at the end of the file. -/
structure Descent where
  stream : Stream Scanner
  watch : MainWatch := .idle
  complaints : List Complaint := []
  unterminated : Bool := false

/-- A part of a descent: it may fail, and it has no result when its calls go too deep. -/
abbrev Reading := StateT Descent (ExceptT ReadFailure Option)

namespace Descent

/-- Draws a token. -/
def next : Reading Token := fun d =>
  match d.stream.next Scanner.pull with
  | (.ok t, stream) => some (.ok (t, { d with stream }))
  | (.error e, _) => some (.error (.scan e))

def report (c : Complaint) : Reading Unit :=
  modify fun d => { d with complaints := c :: d.complaints }

def see (item : Item) : Reading Unit :=
  modify fun d => { d with watch := d.watch.see item }

def tooDeep {α : Type} : Reading α := fun _ => none

/-- Reads what is left of a line, and its end, with so many calls; the tokens that were read before
are given, the latest first. -/
def arguments : Nat → List Token → Reading (List Token)
  | 0, _ => tooDeep
  | n + 1, read => do
    let t ← next
    if t.kind = .eof ∨ t.kind = .newline then return read.reverse
    else arguments n (if t.isTrivia then read else t :: read)

/-- Reads a line that stands alone. -/
def single (l : Line) : Except ReadFailure Directive :=
  match l.keyword with
  | .includeFile | .includeNext => l.readInclude.mapError .line
  | .define => l.readDefine.mapError .line
  | .undef => l.readUndef.mapError .line
  | k => .error (.unexpected k)

/-- Reads a condition, or reports the line. -/
def condition (l : Line) : Reading (Option Condition) :=
  match l.readCondition with
  | .ok c => return some c
  | .error c => do
    report c
    return none

mutual

/-- Reads directives, the latest first, up to the end of the file or, inside a block, up to a line
that belongs to the block. -/
def body : Nat → Nat → List Directive → Reading (List Directive × Option Line)
  | 0, _, _ => tooDeep
  | n + 1, depth, ds => do
    let t ← next
    if t.kind = .eof then return (ds, none)
    else if t.kind = .directive then
      match t.keyword with
      | some k =>
        let l : Line := ⟨t, k, ← arguments n []⟩
        see (.line l)
        take n depth ds l
      | none =>
        see .unnamed
        body n depth ds
    else
      if t.isTrivia ∨ t.kind = .newline then body n depth ds
      else
        see (.code t)
        body n depth ds

/-- Goes on behind a line. -/
def take : Nat → Nat → List Directive → Line → Reading (List Directive × Option Line)
  | 0, _, _, _ => tooDeep
  | n + 1, depth, ds, l =>
    match l.keyword.role with
    | .single =>
      match single l with
      | .ok d => body n depth (d :: ds)
      | .error (.line c) => do
        report c
        body n depth ds
      | .error e => throw e
    | .opens => do
      match ← condition l with
      | some c => body n depth ((← branches n depth ⟨l, [], .opening, some c, ds⟩ []) :: ds)
      | none => body n depth ds
    | .continues | .falls | .closes =>
      if 0 < depth then return (ds, some l)
      else do
        report ⟨.unpaired l.keyword, l.token⟩
        body n depth ds

/-- Reads the branches of a block from the branch `f` on, of which `ds` was read before. -/
def branches : Nat → Nat → Frame → List Directive → Reading Directive
  | 0, _, _, _ => tooDeep
  | n + 1, depth, f, ds => do
    let (inner, ending) ← body n (depth + 1) []
    leave n depth f (inner ++ ds) ending

/-- Goes on where the body of a branch ends. -/
def leave : Nat → Nat → Frame → List Directive → Option Line → Reading Directive
  | 0, _, _, _, _ => tooDeep
  | _ + 1, _, f, ds, none => do
    if !(← get).unterminated then report ⟨.neverClosed f.opening.keyword, f.opening.token⟩
    modify fun d => { d with unterminated := true }
    return .block (f.branches ds).reverse
  | n + 1, depth, f, ds, some l =>
    if l.keyword.role = .closes then return .block (f.branches ds).reverse
    else if f.kind = .fallback then do
      report ⟨.afterElse l.keyword, l.token⟩
      branches n depth f ds
    else if l.keyword.role = .falls then
      branches n depth { f with finished := f.branches ds, kind := .fallback, condition := none } []
    else do
      match ← condition l with
      | some c =>
        branches n depth
          { f with finished := f.branches ds, kind := .alternative, condition := some c } []
      | none => branches n depth f ds

end

/-- The outline, once all is read. -/
def conclude (ds : List Directive) : Reading Outline := fun d =>
  some (.ok (⟨if d.unterminated then [] else ds.reverse, d.watch == .found,
    d.complaints.reverse.map Complaint.toDiagnostic⟩, d))

/-- How a reading ends from a state. -/
def outcome {α : Type} (x : Reading α) (d : Descent) : Option (Except ReadFailure (α × Descent)) :=
  (x.run d).run

/-- The outline that a reading ends with from a state. -/
def conclusion (x : Reading Outline) (d : Descent) : Option (Except ReadFailure Outline) :=
  (outcome x d).map (Except.map Prod.fst)

/-- The outline that a descent over a stream reads, with so many calls one inside the other. -/
def read (n : Nat) (stream : Stream Scanner) : Option (Except ReadFailure Outline) :=
  conclusion (body n 0 [] >>= fun r => conclude r.1) { stream }

section

variable {α β : Type} {x : Reading α} {d d' : Descent}

theorem outcome_bind_ok {a : α} (h : outcome x d = some (.ok (a, d'))) (f : α → Reading β) :
    outcome (x >>= f) d = outcome (f a) d' := by
  change Option.bind (outcome x d) _ = _
  rw [h]
  rfl

theorem outcome_bind_error {e : ReadFailure} (h : outcome x d = some (.error e))
    (f : α → Reading β) :
    outcome (x >>= f) d = some (.error e) := by
  change Option.bind (outcome x d) _ = _
  rw [h]
  rfl

theorem conclusion_bind_ok {a : α} (h : outcome x d = some (.ok (a, d')))
    (f : α → Reading Outline) :
    conclusion (x >>= f) d = conclusion (f a) d' := by
  rw [conclusion, outcome_bind_ok h, conclusion]

theorem conclusion_bind_error {e : ReadFailure} (h : outcome x d = some (.error e))
    (f : α → Reading Outline) : conclusion (x >>= f) d = some (.error e) := by
  rw [conclusion, outcome_bind_error h]
  rfl

theorem conclusion_report (c : Complaint) (f : Unit → Reading Outline) (d : Descent) :
    conclusion (report c >>= f) d = conclusion (f ()) { d with complaints := c :: d.complaints } :=
      rfl

theorem conclusion_see (item : Item) (f : Unit → Reading Outline) (d : Descent) :
    conclusion (see item >>= f) d = conclusion (f ()) { d with watch := d.watch.see item } := rfl

end

/-! ## Drawing tokens -/

section

variable {d : Descent} {ts : List Token} {ending : Except ScanError Token}

theorem outcome_next {t : Token} {stream : Stream Scanner}
    (h : d.stream.next Scanner.pull = (.ok t, stream)) :
    outcome next d = some (.ok (t, { d with stream })) := by
  change next d = _
  rw [next, h]

theorem outcome_next_error {e : ScanError} {stream : Stream Scanner}
    (h : d.stream.next Scanner.pull = (.error e, stream)) :
    outcome next d = some (.error (.scan e)) := by
  change next d = _
  rw [next, h]

/-- **The rest of a line is read up to its end**, unless the stream fails before. -/
theorem outcome_arguments (h : d.stream.Supplies Scanner.pull ts ending) {n : Nat}
    (hn : ts.length < n) (read : List Token) :
    (∃ stream, stream.Supplies Scanner.pull (Item.behindLine ts) ending
      ∧ outcome (arguments n read) d
        = some (.ok (read.reverse ++ (Item.lineTokens ts).filter fun u => !u.isTrivia,
          { d with stream })))
    ∨ ∃ e, ending = .error e ∧ outcome (arguments n read) d = some (.error (.scan e)) := by
  induction ts generalizing d n read with
  | nil =>
    obtain ⟨n, rfl⟩ := Nat.exists_eq_add_one.2 hn
    rw [arguments]
    rcases ending with e | t
    · obtain ⟨s, hs⟩ := h.exists_next_error
      exact Or.inr ⟨e, rfl, outcome_bind_error (outcome_next_error hs) _⟩
    · obtain ⟨ht, s, hs, hagain⟩ := h.exists_next_nil
      refine Or.inl ⟨s, hagain, ?_⟩
      rw [outcome_bind_ok (outcome_next hs), if_pos (Or.inl ht)]
      simp [Item.lineTokens, outcome]
  | cons t ts ih =>
    obtain ⟨n, rfl⟩ := Nat.exists_eq_add_one.2 (Nat.zero_lt_of_lt hn)
    obtain ⟨ht, s, hs, hrest⟩ := h.exists_next_cons
    rw [arguments, outcome_bind_ok (outcome_next hs)]
    by_cases hline : t.kind = .newline
    · refine Or.inl ⟨s, by simpa [Item.behindLine, hline] using hrest, ?_⟩
      rw [if_pos (Or.inr hline)]
      simp [Item.lineTokens, outcome, hline]
    · rw [if_neg (not_or.2 ⟨ht, hline⟩)]
      refine Or.imp ?_ id (@ih { d with stream := s } hrest n (Nat.lt_of_succ_lt_succ hn)
        (if t.isTrivia then read else t :: read))
      rintro ⟨s', hs', houtcome⟩
      refine ⟨s', by simpa [Item.behindLine, hline] using hs', houtcome.trans ?_⟩
      by_cases htrivia : t.isTrivia <;> simp [Item.lineTokens, hline, htrivia]

end

/-! ## What the calls have still to do -/

/-- One call for the branches of a block: the branch being read, those of its directives that were
read before the present call for its body, and how deep calls may go where the branch ends and
behind the block. -/
structure Level where
  frame : Frame
  read : List Directive
  inside : Nat
  behind : Nat

/-- The calls may go so deep in all that is left to do. -/
def Deep (b : Nat) (levels : List Level) : Prop :=
  ∀ level ∈ levels, b ≤ level.inside ∧ b ≤ level.behind

theorem deep_nil (b : Nat) : Deep b [] := fun _ h => absurd h List.not_mem_nil

theorem deep_cons {b : Nat} {level : Level} {above : List Level} :
    Deep b (level :: above) ↔ (b ≤ level.inside ∧ b ≤ level.behind) ∧ Deep b above :=
  List.forall_mem_cons

theorem Deep.mono {b c : Nat} (hle : b ≤ c) {levels : List Level} (h : Deep c levels) :
    Deep b levels :=
  fun level hlevel => ⟨hle.trans (h level hlevel).1, hle.trans (h level hlevel).2⟩

/-- **What is left to do when the innermost call for a body is through.** -/
def resume : List Level → List Directive × Option Line → Reading Outline
  | [], r => conclude r.1
  | level :: above, r =>
    leave level.inside above.length level.frame (r.1 ++ level.read) r.2 >>= fun d =>
      body level.behind above.length (d :: level.frame.outer) >>= resume above

/-- The directives of the branch being read. -/
def readIn : List Level → List Directive
  | [] => []
  | level :: _ => level.read

/-- The stack of open blocks. -/
def frames : List Level → List Frame
  | [] => []
  | level :: above =>
    { level.frame with outer := level.frame.outer ++ readIn above } :: frames above

/-- The reader of lines that has come as far as these calls. -/
def reader (levels : List Level) (ds : List Directive) (cs : List Complaint) : LineReader :=
  ⟨frames levels, ds ++ readIn levels, cs⟩

theorem conclusion_condition (l : Line) (k : Option Condition → Reading Outline) (d : Descent) :
    conclusion (condition l >>= k) d
      = match l.readCondition with
        | .ok c => conclusion (k (some c)) d
        | .error e => conclusion (k none) { d with complaints := e :: d.complaints } := by
  rw [condition]
  rcases l.readCondition with e | c <;> rfl

/-- A line that stands alone is never unexpected. -/
theorem single_eq {l : Line} (h : l.keyword.role = .single) :
    single l = l.readSingle.mapError .line := by
  obtain ⟨t, k, args⟩ := l
  cases k with
  | includeNext | includeFile | define | undef => rfl
  | _ => cases h

section

variable {stream : Stream Scanner} {watch : MainWatch} {b : Nat}
  {X : LineReader → Option (Except ReadFailure Outline)}
  (h : ∀ n levels ds cs, b ≤ n → Deep b levels →
    conclusion (body n (List.length levels) ds >>= resume levels) ⟨stream, watch, cs, false⟩
      = X (reader levels ds cs))

include h

theorem branches_resume {n behind : Nat} (hn : b < n) (hbehind : b ≤ behind) (f : Frame)
    (ds : List Directive) {above : List Level} (habove : Deep b above) (cs : List Complaint) :
    conclusion (branches n above.length f ds >>= fun d =>
        body behind above.length (d :: f.outer) >>= resume above) ⟨stream, watch, cs, false⟩
      = X (reader (⟨f, ds, n - 1, behind⟩ :: above) [] cs) := by
  obtain ⟨n, rfl⟩ := Nat.exists_eq_add_one.2 (Nat.zero_lt_of_lt hn)
  have hle : b ≤ n := Nat.le_of_lt_succ hn
  rw [branches, bind_assoc, ← h n _ _ _ hle (deep_cons.2 ⟨⟨hle, hbehind⟩, habove⟩)]
  rfl

/-- A line that belongs to a block takes the calls to what the stack becomes. -/
theorem leave_resume {level : Level} {above : List Level} (hdeep : Deep (b + 2) (level :: above))
    (ds : List Directive) (cs : List Complaint) (l : Line) :
    conclusion (resume (level :: above) (ds, some l)) ⟨stream, watch, cs, false⟩
      = X ((reader (level :: above) ds cs).innerStep l) := by
  obtain ⟨⟨hinside, hbehind⟩, habove⟩ := deep_cons.1 hdeep
  replace hbehind : b ≤ level.behind := by omega
  replace habove : Deep b above := habove.mono (by omega)
  obtain ⟨n, hn⟩ := Nat.exists_eq_add_one.2 (Nat.zero_lt_of_lt hinside)
  replace hinside : b < n := by omega
  rw [resume, hn, leave, LineReader.innerStep_of_frames rfl, LineReader.branchStep]
  by_cases hcloses : l.keyword.role = .closes
  · rw [if_pos hcloses, if_pos hcloses, pure_bind, h _ _ _ _ hbehind habove]
    rfl
  rw [if_neg hcloses, if_neg hcloses]
  by_cases hkind : level.frame.kind = .fallback
  · rw [if_pos hkind, if_pos hkind, bind_assoc, conclusion_report,
      branches_resume h hinside hbehind _ _ habove]
    rfl
  rw [if_neg hkind, if_neg hkind]
  by_cases hfalls : l.keyword.role = .falls
  · rw [if_pos hfalls, if_pos hfalls]
    exact branches_resume h hinside hbehind _ _ habove _
  rw [if_neg hfalls, if_neg hfalls, bind_assoc, conclusion_condition]
  rcases l.readCondition with e | c
  · exact branches_resume h hinside hbehind _ _ habove _
  · exact branches_resume h hinside hbehind _ _ habove _

/-- **One line takes the calls to what the stack becomes.** -/
theorem take_resume {n : Nat} (hn : b + 1 < n) {levels : List Level} (hdeep : Deep (b + 2) levels)
    (ds : List Directive) (cs : List Complaint) (l : Line) :
    conclusion (take n levels.length ds l >>= resume levels) ⟨stream, watch, cs, false⟩
      = X ((reader levels ds cs).step l) := by
  obtain ⟨n, rfl⟩ := Nat.exists_eq_add_one.2 (Nat.zero_lt_of_lt hn)
  have hlt : b < n := Nat.lt_of_succ_lt_succ hn
  have hlevels : Deep b levels := hdeep.mono (by omega)
  have hinner : conclusion ((if 0 < levels.length then pure (ds, some l)
        else report ⟨.unpaired l.keyword, l.token⟩ >>= fun _ => body n levels.length ds)
          >>= resume levels)
      ⟨stream, watch, cs, false⟩ = X ((reader levels ds cs).innerStep l) := by
    rcases levels with - | ⟨level, above⟩
    · exact h n [] ds _ hlt.le hlevels
    · exact leave_resume h hdeep ds cs l
  rw [take, LineReader.step_eq]
  rcases hrole : l.keyword.role with _ | _ | _ | _ | _
  · rw [single_eq hrole]
    rcases l.readSingle with e | d
    · exact h n levels ds _ hlt.le hlevels
    · exact h n levels (d :: ds) cs hlt.le hlevels
  · rw [bind_assoc, conclusion_condition]
    rcases l.readCondition with e | c
    · exact h n levels ds _ hlt.le hlevels
    · dsimp only
      rw [bind_assoc]
      exact branches_resume h hlt hlt.le ⟨l, [], .opening, some c, ds⟩ [] hlevels cs
  · exact hinner
  · exact hinner
  · exact hinner

end

/-! ## The end of the file -/

theorem conclusion_body_eof {stream : Stream Scanner} {eof : Token}
    (h : stream.Supplies Scanner.pull [] (.ok eof)) {n : Nat} (hn : 0 < n) (depth : Nat)
    (ds : List Directive) (k : List Directive × Option Line → Reading Outline) (watch : MainWatch)
    (cs : List Complaint) (unterminated : Bool) :
    ∃ stream', stream'.Supplies Scanner.pull [] (.ok eof)
      ∧ conclusion (body n depth ds >>= k) ⟨stream, watch, cs, unterminated⟩
        = conclusion (k (ds, none)) ⟨stream', watch, cs, unterminated⟩ := by
  obtain ⟨n, rfl⟩ := Nat.exists_eq_add_one.2 hn
  obtain ⟨ht, s, hs, hagain⟩ := h.exists_next_nil
  refine ⟨s, hagain, ?_⟩
  rw [body, bind_assoc, conclusion_bind_ok (outcome_next hs), if_pos ht, pure_bind]

/-- A block that was left open is reported once, and costs all directives. -/
theorem conclusion_resume_unterminated {eof : Token} {levels : List Level} (hdeep : Deep 1 levels)
    {stream : Stream Scanner} (h : stream.Supplies Scanner.pull [] (.ok eof)) (ds : List Directive)
    (watch : MainWatch)
    (cs : List Complaint) :
    conclusion (resume levels (ds, none)) ⟨stream, watch, cs, true⟩
      = some (.ok ⟨[], watch == .found, cs.reverse.map Complaint.toDiagnostic⟩) := by
  induction levels generalizing stream ds with
  | nil => rfl
  | cons level above ih =>
    obtain ⟨⟨hinside, hbehind⟩, habove⟩ := deep_cons.1 hdeep
    obtain ⟨n, hn⟩ := Nat.exists_eq_add_one.2 hinside
    obtain ⟨stream', h', hbody⟩ := conclusion_body_eof h hbehind above.length
      (.block (level.frame.branches (ds ++ level.read)).reverse :: level.frame.outer) (resume above)
      watch cs true
    rw [← ih habove h', ← hbody, resume, hn, leave]
    rfl

/-- The outline of what a reader has read when the file is through. -/
def outlineOf (r : LineReader) (watch : MainWatch) : Outline where
  directives := if r.frames.isEmpty then r.body.reverse else []
  hasMain := watch == .found
  diagnostics :=
    (r.complaints.reverse ++ (Outline.endComplaint? r).toList).map Complaint.toDiagnostic

/-- **At the end of the file the calls conclude what the stack says.** -/
theorem conclusion_resume_ended {eof : Token} {levels : List Level} (hdeep : Deep 1 levels)
    {stream : Stream Scanner} (h : stream.Supplies Scanner.pull [] (.ok eof)) (ds : List Directive)
    (watch : MainWatch)
    (cs : List Complaint) :
    conclusion (resume levels (ds, none)) ⟨stream, watch, cs, false⟩
      = some (.ok (outlineOf (reader levels ds cs) watch)) := by
  rcases levels with - | ⟨level, above⟩
  · change some (Except.ok (Outline.mk ds.reverse _ _)) = _
    simp [outlineOf, reader, frames, readIn, Outline.endComplaint?]
  · obtain ⟨⟨hinside, hbehind⟩, habove⟩ := deep_cons.1 hdeep
    obtain ⟨n, hn⟩ := Nat.exists_eq_add_one.2 hinside
    obtain ⟨stream', h', hbody⟩ := conclusion_body_eof h hbehind above.length
      (.block (level.frame.branches (ds ++ level.read)).reverse :: level.frame.outer) (resume above)
      watch (⟨.neverClosed level.frame.opening.keyword, level.frame.opening.token⟩ :: cs) true
    rw [conclusion_resume_unterminated habove h'] at hbody
    rw [resume, hn, leave]
    refine hbody.trans ?_
    simp [outlineOf, reader, frames, Outline.endComplaint?]

/-! ## A whole file -/

/-- The outline that a reader and a watch come to with more items. -/
def outlineFrom (r : LineReader) (watch : MainWatch) (items : List Item) : Outline :=
  outlineOf ((items.filterMap Item.line?).foldl LineReader.step r) (items.foldl MainWatch.see watch)

/-- **The descent from any place in a file**: it ends with the outline that the stack comes to, or
with the error of the stream.  Each token takes the calls three deeper at most. -/
theorem conclusion_body_resume {stream : Stream Scanner} {ts : List Token}
    {ending : Except ScanError Token} (h : stream.Supplies Scanner.pull ts ending) {n : Nat}
    (hn : 3 * ts.length < n) {levels : List Level} (hdeep : Deep (3 * ts.length + 1) levels)
    (ds : List Directive) (watch : MainWatch) (cs : List Complaint) :
    conclusion (body n levels.length ds >>= resume levels) ⟨stream, watch, cs, false⟩
      = some ((ending.mapError .scan).map fun _ =>
        outlineFrom (reader levels ds cs) watch (Item.ofTokens ts)) := by
  fun_induction Item.ofTokens ts generalizing stream n levels ds watch cs with
  | case1 =>
    rcases ending with e | eof
    · obtain ⟨n, rfl⟩ := Nat.exists_eq_add_one.2 hn
      obtain ⟨s, hs⟩ := h.exists_next_error
      rw [body, bind_assoc, conclusion_bind_error (outcome_next_error hs)]
      rfl
    · obtain ⟨stream', h', hbody⟩ :=
        conclusion_body_eof h hn levels.length ds (resume levels) watch cs false
      rw [hbody, conclusion_resume_ended hdeep h']
      rfl
  | case2 t ts hdir k hk ih =>
    obtain ⟨n, rfl⟩ := Nat.exists_eq_add_one.2 (Nat.zero_lt_of_lt hn)
    obtain ⟨ht, s, hs, hrest⟩ := h.exists_next_cons
    have hle := Item.length_behindLine_le ts
    rw [List.length_cons] at hn hdeep
    rw [body, bind_assoc, conclusion_bind_ok (outcome_next hs), if_neg ht, if_pos hdir, hk]
    dsimp only
    rw [bind_assoc]
    rcases outcome_arguments (d := ⟨s, watch, cs, false⟩) hrest (show ts.length < n by omega)
        [] with
      ⟨s', hs', hargs⟩ | ⟨e, rfl, hargs⟩
    · rw [conclusion_bind_ok hargs, bind_assoc, conclusion_see]
      refine take_resume (b := 3 * (Item.behindLine ts).length + 1) (n := n)
        (X := fun r => some ((ending.mapError .scan).map fun _ =>
          outlineFrom r _ (Item.ofTokens (Item.behindLine ts)))) (fun m levels ds cs hm hdeep => ?_)
        (by omega) (hdeep.mono (by omega)) ds cs _
      exact ih hs' hm hdeep ds _ cs
    · rw [conclusion_bind_error hargs]
      rfl
  | case3 t ts hdir hk ih =>
    obtain ⟨n, rfl⟩ := Nat.exists_eq_add_one.2 (Nat.zero_lt_of_lt hn)
    obtain ⟨ht, s, hs, hrest⟩ := h.exists_next_cons
    rw [List.length_cons] at hn hdeep
    rw [body, bind_assoc, conclusion_bind_ok (outcome_next hs), if_neg ht, if_pos hdir, hk]
    dsimp only
    rw [bind_assoc, conclusion_see, ih hrest (by omega) (hdeep.mono (by omega))]
    rfl
  | case4 t ts hdir hskip ih =>
    obtain ⟨n, rfl⟩ := Nat.exists_eq_add_one.2 (Nat.zero_lt_of_lt hn)
    obtain ⟨ht, s, hs, hrest⟩ := h.exists_next_cons
    rw [List.length_cons] at hn hdeep
    rw [body, bind_assoc, conclusion_bind_ok (outcome_next hs), if_neg ht, if_neg hdir,
      if_pos hskip, ih hrest (by omega) (hdeep.mono (by omega))]
  | case5 t ts hdir hskip ih =>
    obtain ⟨n, rfl⟩ := Nat.exists_eq_add_one.2 (Nat.zero_lt_of_lt hn)
    obtain ⟨ht, s, hs, hrest⟩ := h.exists_next_cons
    rw [List.length_cons] at hn hdeep
    rw [body, bind_assoc, conclusion_bind_ok (outcome_next hs), if_neg ht, if_neg hdir,
      if_neg hskip, bind_assoc, conclusion_see, ih hrest (by omega) (hdeep.mono (by omega))]
    rfl

/-- **The descent over a text reads the outline**, or fails as the text does; three calls for each
token are enough. -/
theorem read_ofText {text : String} {n : Nat} (hn : 3 * (tokenize text).tokens.length < n) :
    read n (Stream.ofText text) = some ((Outline.ofText text).mapError .scan) := by
  have h :=
    @conclusion_body_resume _ _ _ (Stream.supplies_ofText text) n hn [] (deep_nil _) [] .idle []
  rw [read]
  refine Eq.trans h ?_
  rw [Outline.ofText]
  rcases (tokenize text).ending with e | eof <;> rfl

end Descent

end IncludeScan
