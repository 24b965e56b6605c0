import IncludeScan.Proofs.Token.Lossless
import Mathlib.Data.List.Basic

/-!
# Proofs/Token/Pushback — a stream over a text is a stack on top of a list

A stream hides where it stands: in the tokens pushed back, in the end token once it was given, in
the place of the scanner and in what that remembers.  A **tape** has none of this.  It is the list
of all tokens of the text with a stack on top and a flag for the end, and a peek leaves both alone.

`answers_tape` — to every sequence of calls a stream over a text answers as the tape does, errors
included, and its scanner is not asked again once it has given the end token.
-/

namespace IncludeScan

/-! ## Calls and their answers -/

/-- What can be asked of a stream. -/
inductive Call where
  | next
  | peek
  | pushBack (t : Token)
deriving DecidableEq, Repr

/-- What serves calls: it answers with a token or an error, or with nothing to a token given
back. -/
abbrev Server (S ε : Type) := S → Call → Option (Except ε Token) × S

namespace Server

variable {S S' ε : Type}

/-- A server from its three operations. -/
def ofOperations (next peek : S → Except ε Token × S) (pushBack : S → Token → S) : Server S ε
  | s, .next => (next s).map some id
  | s, .peek => (peek s).map some id
  | s, .pushBack t => (none, pushBack s t)

/-- The answers to calls, one after the other. -/
def answers (serve : Server S ε) : S → List Call → List (Option (Except ε Token))
  | _, [] => []
  | s, c :: calls => (serve s c).1 :: answers serve (serve s c).2 calls

/-- What calls leave behind. -/
def after (serve : Server S ε) : S → List Call → S
  | s, [] => s
  | s, c :: calls => after serve (serve s c).2 calls

/-- **What every call preserves holds after all calls.** -/
theorem after_induction {serve : Server S ε} {P : S → Prop}
    (step : ∀ s, P s → ∀ c, P (serve s c).2) :
    ∀ (calls : List Call) (s : S), P s → P (serve.after s calls)
  | [], _, h => h
  | c :: calls, s, h => after_induction step calls _ (step s h c)

/-- Related states answer every call alike, and stay related. -/
def Simulates (serve : Server S ε) (serve' : Server S' ε) (R : S → S' → Prop) : Prop :=
  ∀ s s', R s s' → ∀ c, (serve s c).1 = (serve' s' c).1 ∧ R (serve s c).2 (serve' s' c).2

/-- **Servers that simulate each other answer every sequence of calls alike.** -/
theorem Simulates.answers_eq {serve : Server S ε} {serve' : Server S' ε} {R : S → S' → Prop}
    (h : Simulates serve serve' R) :
    ∀ (calls : List Call) {s : S} {s' : S'}, R s s' →
      serve.answers s calls = serve'.answers s' calls
  | [], _, _, _ => rfl
  | c :: calls, s, s', hs => by
      obtain ⟨hanswer, hafter⟩ := h s s' hs c
      rw [answers, answers, hanswer, h.answers_eq calls hafter]

/-- One operation at a time. -/
theorem simulates_ofOperations {next peek : S → Except ε Token × S} {pushBack : S → Token → S}
    {next' peek' : S' → Except ε Token × S'} {pushBack' : S' → Token → S'} {R : S → S' → Prop}
    (hnext : ∀ s s', R s s' → (next s).1 = (next' s').1 ∧ R (next s).2 (next' s').2)
    (hpeek : ∀ s s', R s s' → (peek s).1 = (peek' s').1 ∧ R (peek s).2 (peek' s').2)
    (hpushBack : ∀ s s', R s s' → ∀ t, R (pushBack s t) (pushBack' s' t)) :
    Simulates (ofOperations next peek pushBack) (ofOperations next' peek' pushBack') R := by
  intro s s' h c
  cases c with
  | next => exact ⟨congrArg some (hnext s s' h).1, (hnext s s' h).2⟩
  | peek => exact ⟨congrArg some (hpeek s s' h).1, (hpeek s s' h).2⟩
  | pushBack t => exact ⟨rfl, hpushBack s s' h t⟩

end Server

/-- A stream as a server. -/
def Stream.serve {σ ε : Type} (pull : Pull σ ε) : Server (Stream σ) ε :=
  .ofOperations (Stream.next pull) (Stream.peek pull) Stream.pushBack

/-- To peek is to take a token and to give it back, so two streams need only agree on these. -/
theorem Stream.simulates_serve {σ σ' ε : Type} {pull : Pull σ ε} {pull' : Pull σ' ε}
    {R : Stream σ → Stream σ' → Prop}
    (hnext : ∀ s s', R s s' →
      (s.next pull).1 = (s'.next pull').1 ∧ R (s.next pull).2 (s'.next pull').2)
    (hpushBack : ∀ s s', R s s' → ∀ t, R (s.pushBack t) (s'.pushBack t)) :
    Server.Simulates (serve pull) (serve pull') R := by
  refine Server.simulates_ofOperations hnext ?_ hpushBack
  intro s s' h
  have hsame := hnext s s' h
  rw [peek, peek]
  generalize s.next pull = r at hsame
  generalize s'.next pull' = r' at hsame
  obtain ⟨x, after⟩ := r
  obtain ⟨x', after'⟩ := r'
  obtain ⟨rfl, hafter⟩ : x = x' ∧ R after after' := hsame
  cases x with
  | error e => exact ⟨rfl, hafter⟩
  | ok t => exact ⟨rfl, hpushBack _ _ hafter t⟩

/-! ## The tape -/

/-- **A stack on top of a list of tokens**, the end token or the error behind the list, and whether
the end token was given. -/
structure Tape (ε : Type) where
  stack : List Token := []
  listed : List Token
  ending : Except ε Token
  ended : Bool := false

namespace Tape

variable {ε : Type}

/-- Takes the token on top, or else the next of the list.  The end token is given again and again,
and so is the error, which changes nothing. -/
def next (m : Tape ε) : Except ε Token × Tape ε :=
  if m.ended then (m.ending, m)
  else
    match m.stack, m.listed, m.ending with
    | t :: stack, _, _ => (.ok t, { m with stack })
    | [], t :: listed, _ => (.ok t, { m with listed })
    | [], [], .ok eof => (.ok eof, { m with ended := true })
    | [], [], .error e => (.error e, m)

/-- The answer of `next`; stack and list stay as they are. -/
def peek (m : Tape ε) : Except ε Token × Tape ε :=
  match m.next.1 with
  | .ok t => (.ok t, if t.kind = .eof then { m with ended := true } else m)
  | .error e => (.error e, m)

/-- Puts a token on top, unless it is an end token. -/
def pushBack (m : Tape ε) (t : Token) : Tape ε :=
  if t.kind = .eof then m else { m with stack := t :: m.stack }

/-- A tape as a server. -/
def serve : Server (Tape ε) ε := .ofOperations next peek pushBack

/-- The tokens of a text, with nothing on top. -/
def ofText (text : String) : Tape ScanError where
  listed := (tokenize text).tokens
  ending := (tokenize text).ending

variable {m : Tape ε}

theorem next_of_ended (h : m.ended = true) : m.next = (m.ending, m) := if_pos h

/-- The next token is the first of the stack with the list under it. -/
theorem exists_next_cons (h : m.ended = false) {t : Token} {ts : List Token}
    (hts : m.stack ++ m.listed = t :: ts) :
    ∃ m', m.next = (.ok t, m') ∧ m'.ended = false ∧ m'.stack ++ m'.listed = ts
      ∧ m'.ending = m.ending := by
  obtain ⟨stack, listed, ending, ended⟩ := m
  obtain rfl : ended = false := h
  cases stack with
  | nil =>
    obtain rfl : listed = t :: ts := hts
    exact ⟨_, rfl, rfl, rfl, rfl⟩
  | cons u stack =>
    obtain ⟨rfl, rfl⟩ := List.cons.inj hts
    exact ⟨_, rfl, rfl, rfl, rfl⟩

/-- Behind the last token stands the end token… -/
theorem next_nil_ok (h : m.ended = false) (hts : m.stack ++ m.listed = []) {eof : Token}
    (hending : m.ending = .ok eof) : m.next = (.ok eof, { m with ended := true }) := by
  obtain ⟨hstack, hlisted⟩ := List.append_eq_nil_iff.1 hts
  simp [next, h, hstack, hlisted, hending]

/-- …or the error. -/
theorem next_nil_error (h : m.ended = false) (hts : m.stack ++ m.listed = []) {e : ε}
    (hending : m.ending = .error e) : m.next = (.error e, m) := by
  obtain ⟨hstack, hlisted⟩ := List.append_eq_nil_iff.1 hts
  simp [next, h, hstack, hlisted, hending]

section

variable {m' : Tape ε} {t : Token}

theorem peek_of_eof (h : m.next = (.ok t, m')) (ht : t.kind = .eof) :
    m.peek = (.ok t, { m with ended := true }) := by
  simp only [peek, h, ht, if_true]

theorem peek_of_ne (h : m.next = (.ok t, m')) (ht : t.kind ≠ .eof) : m.peek = (.ok t, m) := by
  simp only [peek, h, ht, if_false]

theorem peek_of_error {e : ε} (h : m.next = (.error e, m')) : m.peek = (.error e, m) := by
  simp only [peek, h]

end

end Tape

/-! ## A scanner that is asked again -/

theorem Rule.le_start_findFrom (rule : Rule) {cs : List Char} {start : Nat} {o : Occurrence}
    (h : rule.findFrom start cs = some o) : start ≤ o.start := by
  induction cs generalizing start with
  | nil => cases h
  | cons c cs ih =>
    rw [findFrom] at h
    split at h
    · obtain rfl := Option.some.inj h
      exact le_refl _
    · exact (Nat.le_succ start).trans (ih h)

/-- Looking twice from one place finds what looking once does. -/
theorem Memo.refresh_refresh (position : Nat) (rest : List Char) (rule : Rule) (memo : Memo) :
    (memo.refresh position rest rule).refresh position rest rule
      = memo.refresh position rest rule := by
  have hsearch : (ofSearch (rule.findFrom position rest)).refresh position rest rule
      = ofSearch (rule.findFrom position rest) := by
    cases hfind : rule.findFrom position rest with
    | none => rfl
    | some o => exact if_neg (rule.le_start_findFrom hfind).not_gt
  cases memo with
  | unknown => exact hsearch
  | absent => rfl
  | found o =>
    rw [refresh]
    split_ifs with hlt
    · exact hsearch
    · exact if_neg hlt

namespace Scanner

/-- Memories that are up to date stay so. -/
theorem refreshed_refreshed (s : Scanner) :
    refreshed { s with memos := s.refreshed } = s.refreshed := by
  unfold refreshed
  dsimp only
  generalize rules = rs
  induction rs generalizing s with
  | nil => rfl
  | cons rule rs ih =>
    cases hmemos : s.memos with
    | nil => rfl
    | cons memo memos =>
      have htail := ih { s with memos }
      simp only [List.zipWith_cons_cons, Memo.refresh_refresh, htail]

section

variable {s : Scanner} {m : Lexeme}

theorem run_of_none (h : s.chosen? s.refreshed = none) : s.run = ⟨[], .ok s.eofToken⟩ := by
  rw [run]
  split
  · rfl
  · rename_i hm
    cases h.symm.trans hm

theorem run_of_fault (h : s.chosen? s.refreshed = some m) {f : Fault} (hf : m.fault = some f) :
    s.run = ⟨[], .error ⟨f, s.cursor⟩⟩ := by
  rw [run]
  split
  · rename_i hnone
    cases h.symm.trans hnone
  · rename_i hm
    obtain rfl := Option.some.inj (h.symm.trans hm)
    simp only [hf]

theorem run_of_lexeme (h : s.chosen? s.refreshed = some m) (hf : m.fault = none) :
    s.run = (s.advance m s.refreshed).run.cons (s.token m) := by
  rw [run]
  split
  · rename_i hnone
    cases h.symm.trans hnone
  · rename_i hm
    obtain rfl := Option.some.inj (h.symm.trans hm)
    simp only [hf]

end

/-- **What a scanner does when it is asked**: at the end of its run it gives the end token and
stays; at an error it has the same error and the same run afterwards; else it gives the first token
of its run. -/
theorem next_cases (s : Scanner) :
    (∃ eof, eof.kind = .eof ∧ s.run = ⟨[], .ok eof⟩ ∧ s.next = (.ok eof, s))
    ∨ (∃ e s', s.run = ⟨[], .error e⟩ ∧ s'.run = ⟨[], .error e⟩ ∧ s.next = (.error e, s')
      ∧ s'.next = (.error e, s'))
    ∨ ∃ t s', s.run = s'.run.cons t ∧ s.next = (.ok t, s') := by
  cases hchosen : s.chosen? s.refreshed with
  | none => exact Or.inl ⟨s.eofToken, rfl, run_of_none hchosen, by simp only [next, hchosen]⟩
  | some m =>
    cases hfault : m.fault with
    | none =>
      exact Or.inr (Or.inr ⟨_, _, run_of_lexeme hchosen hfault,
        by simp only [next, hchosen, hfault]⟩)
    | some f =>
      -- only the memories change, and asked again they do not change any more
      obtain ⟨s', hs'⟩ : ∃ s' : Scanner, s' = { s with memos := s.refreshed } := ⟨_, rfl⟩
      have hmemos : s'.refreshed = s'.memos := by
        rw [hs']
        exact refreshed_refreshed s
      have hcursor : s.cursor = s'.cursor := by rw [hs']
      have hagain : s'.chosen? s'.memos = some m := by
        rw [hs']
        exact hchosen
      refine Or.inr (Or.inl ⟨⟨f, s.cursor⟩, s', run_of_fault hchosen hfault, ?_, ?_, ?_⟩)
      · rw [hcursor]
        exact run_of_fault (hmemos ▸ hagain) hfault
      · simp only [next, hchosen, hfault, hs']
      · rw [hcursor]
        simp only [next, hmemos, hagain, hfault]

end Scanner

/-! ## The stream and the tape -/

namespace Stream

section

variable {σ ε : Type} {pull : Pull σ ε} {s : Stream σ} {t : Token}

theorem next_of_ended (h : s.ended = some t) : s.next pull = (.ok t, s) := by
  rw [next, h]

theorem next_of_pushed {below : List Token} (h : s.ended = none) (hpushed : s.pushed = t :: below) :
    s.next pull = (.ok t, { s with pushed := below, lastEnd := t.span.stop }) := by
  rw [next, h, hpushed]

theorem pushBack_of_eof (ht : t.kind = .eof) : s.pushBack t = s := if_pos ht

theorem pushBack_of_ne (ht : t.kind ≠ .eof) : s.pushBack t = { s with pushed := t :: s.pushed } :=
  if_neg ht

theorem peek_of_ok {s' : Stream σ} (h : s.next pull = (.ok t, s')) :
    s.peek pull = (.ok t, s'.pushBack t) := by
  rw [peek, h]

theorem peek_of_error {e : ε} {s' : Stream σ} (h : s.next pull = (.error e, s')) :
    s.peek pull = (.error e, s') := by
  rw [peek, h]

end

variable {s : Stream Scanner} {m : Tape ScanError}

/-- The next token is the first of those pushed back with the run of the scanner behind them. -/
theorem exists_next_cons (h : s.ended = none) {t : Token} {ts : List Token} (ht : t.kind ≠ .eof)
    (hts : s.pushed ++ s.source.run.tokens = t :: ts) :
    ∃ s', s.next Scanner.pull = (.ok t, s') ∧ s'.ended = none
      ∧ s'.pushed ++ s'.source.run.tokens = ts
      ∧ s'.source.run.ending = s.source.run.ending := by
  cases hpushed : s.pushed with
  | cons u below =>
    rw [hpushed] at hts
    obtain ⟨rfl, hbelow⟩ := List.cons.inj hts
    exact ⟨_, next_of_pushed h hpushed, h, hbelow, rfl⟩
  | nil =>
    rw [hpushed, List.nil_append] at hts
    rcases s.source.next_cases with ⟨eof, -, hrun, -⟩ | ⟨e, source, hrun, -⟩
      | ⟨u, source, hrun, hnext⟩
    · rw [hrun] at hts
      cases hts
    · rw [hrun] at hts
      cases hts
    · rw [hrun] at hts ⊢
      obtain ⟨rfl, rfl⟩ := List.cons.inj hts
      refine ⟨{ s with source }.receive u, ?_, ?_⟩
      · rw [next_pull hpushed h, hnext]
      · rw [receive, if_neg ht]
        exact ⟨h, by rw [hpushed, List.nil_append], rfl⟩

/-- **A tape shows what a stream has still to give**: nothing but the end token, or the tokens
pushed back and those that the scanner will find, wherever the tape has them. -/
inductive ShownBy : Stream Scanner → Tape ScanError → Prop
  | ended {s : Stream Scanner} {m : Tape ScanError} {eof : Token} (hs : s.ended = some eof)
      (hm : m.ended = true) (hending : m.ending = .ok eof) (heof : eof.kind = .eof) : ShownBy s m
  | running {s : Stream Scanner} {m : Tape ScanError} (hs : s.ended = none) (hm : m.ended = false)
      (hts : s.pushed ++ s.source.run.tokens = m.stack ++ m.listed)
      (hending : s.source.run.ending = m.ending)
      (hkind : ∀ t ∈ m.stack ++ m.listed, t.kind ≠ .eof) :
      ShownBy s m

theorem ShownBy.pushBack (h : ShownBy s m) (t : Token) : ShownBy (s.pushBack t) (m.pushBack t) := by
  by_cases ht : t.kind = .eof
  · rw [pushBack_of_eof ht, Tape.pushBack, if_pos ht]
    exact h
  · rw [pushBack_of_ne ht, Tape.pushBack, if_neg ht]
    cases h with
    | ended hs hm hending heof => exact .ended hs hm hending heof
    | running hs hm hts hending hkind =>
      exact .running hs hm (congrArg (t :: ·) hts) hending (List.forall_mem_cons.2 ⟨ht, hkind⟩)

/-- **The stream and its tape take the same step**: to the end token, to an error that leaves the
tape alone, or to a token; and if that token is given back, the tape shows the stream as it was
before. -/
theorem ShownBy.next_cases (h : ShownBy s m) :
    (∃ eof s', eof.kind = .eof ∧ s.next Scanner.pull = (.ok eof, s')
      ∧ m.next = (.ok eof, { m with ended := true }) ∧ ShownBy s' { m with ended := true })
    ∨ (∃ e s', s.next Scanner.pull = (.error e, s') ∧ m.next = (.error e, m) ∧ ShownBy s' m)
    ∨ ∃ t s' m', t.kind ≠ .eof ∧ s.next Scanner.pull = (.ok t, s') ∧ m.next = (.ok t, m')
      ∧ ShownBy s' m' ∧ ShownBy (s'.pushBack t) m := by
  cases h with
  | @ended eof hs hm hending heof =>
    have hm' : { m with ended := true } = m := by rw [← hm]
    refine Or.inl ⟨eof, s, heof, next_of_ended hs, ?_, ?_⟩ <;> rw [hm']
    · rw [Tape.next_of_ended hm, hending]
    · exact .ended hs hm hending heof
  | running hs hm hts hending hkind =>
    cases hall : m.stack ++ m.listed with
    | cons t ts =>
      rw [hall] at hkind hts
      obtain ⟨ht, hrest⟩ := List.forall_mem_cons.1 hkind
      obtain ⟨s', hnext, hs', hts', hending'⟩ := exists_next_cons hs ht hts
      obtain ⟨m', hnextm, hm', htsm, hendingm⟩ := Tape.exists_next_cons hm hall
      refine Or.inr (Or.inr ⟨t, s', m', ht, hnext, hnextm, ?_, ?_⟩)
      · exact .running hs' hm' (hts'.trans htsm.symm) (by rw [hending', hending, hendingm])
          (htsm ▸ hrest)
      · rw [pushBack_of_ne ht]
        refine .running hs' hm ?_ (hending'.trans hending) (hall ▸ hkind)
        rw [hall, List.cons_append, hts']
    | nil =>
      rw [hall] at hts
      obtain ⟨hpushed, htokens⟩ := List.append_eq_nil_iff.1 hts
      have hnext := next_pull hpushed hs
      rcases s.source.next_cases with ⟨eof, heof, hrun, hsource⟩
        | ⟨e, source, hrun, hagain, hsource, -⟩
        | ⟨u, source, hrun, -⟩
      · rw [hrun] at hending
        rw [hsource] at hnext
        refine Or.inl ⟨eof, _, heof, hnext, Tape.next_nil_ok hm hall hending.symm, ?_⟩
        rw [receive, if_pos heof]
        exact .ended rfl rfl hending.symm heof
      · rw [hrun] at hending
        rw [hsource] at hnext
        refine Or.inr (Or.inl ⟨e, _, hnext, Tape.next_nil_error hm hall hending.symm, ?_⟩)
        refine .running hs hm ?_ (by rw [hagain, ← hending]) hkind
        rw [hagain, hpushed, hall]
        rfl
      · rw [hrun] at htokens
        cases htokens

/-- **A tape answers for the stream that it shows.** -/
theorem simulates_tape : Server.Simulates (serve Scanner.pull) Tape.serve ShownBy := by
  refine Server.simulates_ofOperations ?_ ?_ fun s m h t => h.pushBack t
  · intro s m h
    rcases h.next_cases with ⟨eof, s', -, hs, hm, h'⟩ | ⟨e, s', hs, hm, h'⟩
      | ⟨t, s', m', -, hs, hm, h', -⟩
      <;> rw [hs, hm] <;> exact ⟨rfl, h'⟩
  · intro s m h
    rcases h.next_cases with ⟨eof, s', heof, hs, hm, h'⟩ | ⟨e, s', hs, hm, h'⟩
      | ⟨t, s', m', ht, hs, hm, -, h'⟩
    · rw [peek_of_ok hs, Tape.peek_of_eof hm heof, pushBack_of_eof heof]
      exact ⟨rfl, h'⟩
    · rw [peek_of_error hs, Tape.peek_of_error hm]
      exact ⟨rfl, h'⟩
    · rw [peek_of_ok hs, Tape.peek_of_ne hm ht]
      exact ⟨rfl, h'⟩

theorem shownBy_ofText (text : String) : ShownBy (ofText text) (Tape.ofText text) := by
  obtain ⟨stop, htiled, -⟩ := (cut_tokenize text).exists_tiled
  exact .running rfl rfl rfl rfl fun t ht => (htiled.forall_mem t ht).2.1

end Stream

/-! ## How often the source is asked -/

section

variable {σ ε : Type}

/-- The source with a record of its answers, the latest last. -/
def Pull.recorded (pull : Pull σ ε) : Pull (σ × List (Except ε (Option Token))) ε := fun s =>
  ((pull s.1).1, (pull s.1).2, s.2 ++ [(pull s.1).1])

/-- An answer of a source that ends a stream: the end token, or no token at all. -/
def EndsStream : Except ε (Option Token) → Prop
  | .ok t? => ∀ t ∈ t?, t.kind = .eof
  | .error _ => False

namespace Stream

/-- The stream over the source alone. -/
def unrecorded {α : Type} (s : Stream (σ × α)) : Stream σ :=
  ⟨s.source.1, s.pushed, s.ended, s.lastEnd, s.lastCursor⟩

variable {pull : Pull σ ε} {s : Stream (σ × List (Except ε (Option Token)))}

theorem unrecorded_receive (t : Token) : (s.receive t).unrecorded = s.unrecorded.receive t := by
  unfold receive
  split <;> rfl

theorem unrecorded_pushBack (t : Token) : (s.pushBack t).unrecorded = s.unrecorded.pushBack t := by
  unfold pushBack
  split <;> rfl

theorem next_unrecorded (pull : Pull σ ε) (s : Stream (σ × List (Except ε (Option Token)))) :
    s.unrecorded.next pull = (s.next pull.recorded).map id unrecorded := by
  obtain ⟨⟨source, record⟩, pushed, ended, lastEnd, lastCursor⟩ := s
  rcases ended with _ | t
  · rcases pushed with _ | ⟨t, below⟩
    · simp only [next, unrecorded, Pull.recorded]
      rcases pull source with ⟨e | t?, source'⟩
      · rfl
      · simp only [Prod.map, id_eq, unrecorded_receive]
        rfl
    · rfl
  · rfl

/-- **A record changes no answer.** -/
theorem simulates_unrecorded (pull : Pull σ ε) :
    Server.Simulates (serve pull.recorded) (serve pull) fun s s' => s.unrecorded = s' := by
  refine simulates_serve ?_ ?_
  · rintro s _ rfl
    rw [next_unrecorded]
    exact ⟨rfl, rfl⟩
  · rintro s _ rfl t
    exact unrecorded_pushBack t

/-- **The record stops at an answer that ends the stream**, and holds none while the stream goes
on. -/
structure StopsAtEnd (s : Stream (σ × List (Except ε (Option Token)))) : Prop where
  open_end : s.ended = none → ∀ a ∈ s.source.2, ¬ EndsStream a
  last : ∀ before a later, s.source.2 = before ++ a :: later → EndsStream a → later = []

theorem StopsAtEnd.pushBack (h : s.StopsAtEnd) (t : Token) : (s.pushBack t).StopsAtEnd := by
  unfold Stream.pushBack
  split
  · exact h
  · exact ⟨h.open_end, h.last⟩

/-- One more answer goes on record while there is no end. -/
theorem last_of_concat {record : List (Except ε (Option Token))} (h : ∀ a ∈ record, ¬ EndsStream a)
    (answer : Except ε (Option Token)) :
    ∀ before a later, record ++ [answer] = before ++ a :: later → EndsStream a → later = [] := by
  intro before a later heq ha
  rcases List.eq_nil_or_concat' later with rfl | ⟨later, last, rfl⟩
  · rfl
  · rw [← List.cons_append, ← List.append_assoc] at heq
    obtain ⟨hrecord, -⟩ := List.append_inj' heq rfl
    exact absurd ha (h a (by simp [hrecord]))

theorem StopsAtEnd.next (h : s.StopsAtEnd) : (s.next pull.recorded).2.StopsAtEnd := by
  obtain ⟨⟨source, record⟩, pushed, ended, lastEnd, lastCursor⟩ := s
  rcases ended with _ | t
  · rcases pushed with _ | ⟨t, below⟩
    · have hnone := h.open_end rfl
      simp only [Stream.next, Pull.recorded]
      rcases pull source with ⟨e | t?, source'⟩
      · refine ⟨fun _ => ?_, last_of_concat hnone _⟩
        exact List.forall_mem_append.2 ⟨hnone, by simp [EndsStream]⟩
      · dsimp only
        unfold receive
        split
        · exact ⟨fun hopen => absurd hopen (Option.some_ne_none _), last_of_concat hnone _⟩
        · rename_i hkind
          refine ⟨fun _ => List.forall_mem_append.2 ⟨hnone, ?_⟩, last_of_concat hnone _⟩
          rw [List.forall_mem_singleton]
          rcases t? with _ | t
          · exact absurd rfl hkind
          · exact fun hends => hkind (hends t rfl)
    · exact ⟨h.open_end, h.last⟩
  · exact h

theorem StopsAtEnd.peek (h : s.StopsAtEnd) : (s.peek pull.recorded).2.StopsAtEnd := by
  rcases hnext : s.next pull.recorded with ⟨e | t, after⟩
  · rw [peek_of_error hnext, ← hnext]
    exact h.next
  · have hafter : after.StopsAtEnd := by
      rw [show after = (s.next pull.recorded).2 by rw [hnext]]
      exact h.next
    rw [peek_of_ok hnext]
    exact hafter.pushBack t

/-- **Whatever the calls, a source is not asked again once its answer has ended the stream.** -/
theorem stopsAtEnd_after (pull : Pull σ ε) (source : σ) (calls : List Call) :
    ((serve pull.recorded).after { source := (source, []) } calls).StopsAtEnd := by
  refine Server.after_induction (P := StopsAtEnd) ?_ calls _ ⟨fun _ => by simp, by simp⟩
  intro s h c
  cases c with
  | next => exact h.next
  | peek => exact h.peek
  | pushBack t => exact h.pushBack t

end Stream

end

/-- **A stream over a text is a stack on top of its tokens.**  The tokens of the text are no end
tokens, and behind them stands an end token or an error.  To every sequence of calls the stream
answers as the tape of the text does; with a record of what its scanner has answered it still does
so, and in the record nothing stands behind an end token. -/
theorem answers_tape (text : String) (calls : List Call) :
    ((∀ t ∈ (Tape.ofText text).listed, t.kind ≠ .eof)
      ∧ ∀ eof, (Tape.ofText text).ending = .ok eof → eof.kind = .eof)
    ∧ (Stream.serve Scanner.pull).answers (Stream.ofText text) calls
      = Tape.serve.answers (Tape.ofText text) calls
    ∧ (Stream.serve Scanner.pull.recorded).answers { source := (Scanner.ofText text.toList, []) }
      calls
      = Tape.serve.answers (Tape.ofText text) calls
    ∧ ∀ before eof later,
      ((Stream.serve Scanner.pull.recorded).after { source := (Scanner.ofText text.toList, []) }
        calls).source.2 = before ++ .ok (some eof) :: later → eof.kind = .eof → later = [] := by
  obtain ⟨stop, htiled, hstop⟩ := (cut_tokenize text).exists_tiled
  have htape := Stream.simulates_tape.answers_eq calls (Stream.shownBy_ofText text)
  refine ⟨⟨fun t ht => (htiled.forall_mem t ht).2.1, fun eof heof => ?_⟩, htape, ?_, ?_⟩
  · change (tokenize text).ending = .ok eof at heof
    rw [heof] at hstop
    cases hstop
    rfl
  · rw [← htape]
    exact (Stream.simulates_unrecorded Scanner.pull).answers_eq calls rfl
  · intro before eof later hrecord heof
    refine (Stream.stopsAtEnd_after Scanner.pull _ calls).last before _ later hrecord fun t ht => ?_
    obtain rfl := Option.mem_some.1 ht
    exact heof

end IncludeScan
