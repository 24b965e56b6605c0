import IncludeScan.Proofs.Token.Pushback

/-!
# Proofs/Token/Peek — when a peek goes unnoticed

To peek is to take a token and to give it back.  The stream is not quite as before: it may have
pulled a token early, or hold another end of the last token.  No later call can tell
(`Stream.Ahead`).

The end of the tokens is the exception.  A peek that meets it ends the stream for good, and a token
given back after that is never seen again.

`answers_insert_peek` — one more peek changes the answer to another call exactly if it meets the end
and a token is given back, behind which the stream is asked.
-/

namespace IncludeScan

/-! ## One more call -/

/-- The call asks for a token. -/
def Call.asks : Call → Bool
  | .pushBack _ => false
  | _ => true

/-- The tokens that are given back before a token is asked for. -/
def Call.givenFirst : List Call → List Token
  | .pushBack t :: calls => t :: givenFirst calls
  | _ => []

/-- **A token is given back, and only then is a token asked for.** -/
def Call.Buries (calls : List Call) : Prop :=
  (∃ t ∈ givenFirst calls, t.kind ≠ .eof) ∧ ∃ c ∈ calls, c.asks = true
deriving Decidable

theorem Call.exists_of_asks {c : Call} (h : c.asks = false) : ∃ t, c = .pushBack t := by
  cases c with
  | pushBack t => exact ⟨t, rfl⟩
  | next => cases h
  | peek => cases h

namespace Server

variable {S ε : Type} {serve : Server S ε}

/-- One more call between others changes the answers to none of them. -/
def Unnoticed (serve : Server S ε) (s : S) (before : List Call) (c : Call) (after : List Call) :
    Prop :=
  (serve.answers s (before ++ c :: after)).eraseIdx before.length
    = serve.answers s (before ++ after)

theorem answers_append (s : S) (calls more : List Call) :
    serve.answers s (calls ++ more) = serve.answers s calls
      ++ serve.answers (serve.after s calls) more := by
  induction calls generalizing s with
  | nil => rfl
  | cons c calls ih => rw [List.cons_append, answers, ih, answers, after, List.cons_append]

theorem length_answers (s : S) (calls : List Call) :
    (serve.answers s calls).length = calls.length := by
  induction calls generalizing s with
  | nil => rfl
  | cons c calls ih => rw [answers, List.length_cons, ih, List.length_cons]

/-- What comes before the call does not matter but for the state that it leaves. -/
theorem unnoticed_iff {s : S} {before after : List Call} {c : Call} :
    serve.Unnoticed s before c after
      ↔ serve.answers (serve (serve.after s before) c).2 after
        = serve.answers (serve.after s before) after := by
  rw [Unnoticed, answers_append, answers_append, List.eraseIdx_append_of_length_le
    (length_answers s before).le, length_answers, Nat.sub_self, answers, List.eraseIdx_cons_zero]
  exact List.append_cancel_left_eq _ _ _ |>.to_iff

end Server

/-! ## Sources that fail -/

variable {σ ε : Type}

/-- The source after a number of pulls. -/
def Pull.after (pull : Pull σ ε) : Nat → σ → σ
  | 0, source => source
  | n + 1, source => pull.after n (pull source).2

/-- **From here on the source fails with this error**, every time that it is asked. -/
def Pull.FailsWith (pull : Pull σ ε) (e : ε) (source : σ) : Prop :=
  ∀ n, (pull (pull.after n source)).1 = .error e

theorem Pull.failsWith_iff {pull : Pull σ ε} {e : ε} {source : σ} :
    pull.FailsWith e source ↔ (pull source).1 = .error e ∧ pull.FailsWith e (pull source).2 := by
  constructor
  · exact fun h => ⟨h 0, fun n => h (n + 1)⟩
  · rintro ⟨hnow, hlater⟩ n
    cases n with
    | zero => exact hnow
    | succ n => exact hlater n

/-- A source that an error leaves as it is fails with it for ever. -/
theorem Pull.failsWith_of_eq {pull : Pull σ ε} {e : ε} {source : σ}
    (h : pull source = (.error e, source)) : pull.FailsWith e source := by
  intro n
  induction n with
  | zero => exact congrArg Prod.fst h
  | succ n ih => rwa [after, h]

/-- **A scanner that fails goes on failing.** -/
theorem Scanner.failsWith_pull {s : Scanner} {e : ScanError} (h : (pull s).1 = .error e) :
    Pull.FailsWith pull e s := by
  rcases s.next_cases with ⟨eof, -, -, hnext⟩ | ⟨e', s', -, -, hnext, hagain⟩ | ⟨t, s', -, hnext⟩
  · simp only [pull, hnext] at h
    cases h
  · have hfirst : pull s = (.error e', s') := by simp only [pull, hnext]
    have hsecond : pull s' = (.error e', s') := by simp only [pull, hagain]
    obtain rfl : e' = e := Except.error.inj (hfirst ▸ h)
    refine Pull.failsWith_iff.2 ⟨h, ?_⟩
    rw [hfirst]
    exact Pull.failsWith_of_eq hsecond
  · simp only [pull, hnext] at h
    cases h

/-! ## A stream that looks ahead -/

namespace Stream

variable {pull : Pull σ ε} {s s' : Stream σ}

/-- What holds of every stream that calls have led to: end tokens are not pushed back, and nothing
else ends it. -/
structure Sane (s : Stream σ) : Prop where
  pushed : ∀ t ∈ s.pushed, t.kind ≠ .eof
  ended : ∀ t ∈ s.ended, t.kind = .eof

theorem Sane.pushBack (h : s.Sane) (t : Token) : (s.pushBack t).Sane := by
  by_cases ht : t.kind = .eof
  · rwa [pushBack_of_eof ht]
  · rw [pushBack_of_ne ht]
    exact ⟨List.forall_mem_cons.2 ⟨ht, h.pushed⟩, h.ended⟩

theorem Sane.receive (h : s.Sane) (t : Token) : (s.receive t).Sane := by
  by_cases ht : t.kind = .eof
  · rw [Stream.receive, if_pos ht]
    exact ⟨h.pushed, fun u hu => Option.mem_some.1 hu ▸ ht⟩
  · rw [Stream.receive, if_neg ht]
    exact ⟨h.pushed, h.ended⟩

theorem Sane.next (h : s.Sane) : (s.next pull).2.Sane := by
  rw [Stream.next]
  split
  · exact h
  · rename_i hpushed
    exact ⟨fun u hu => h.pushed u (hpushed ▸ List.mem_cons_of_mem _ hu), h.ended⟩
  · split
    · exact ⟨h.pushed, h.ended⟩
    · rename_i source _
      exact Sane.receive (s := { s with source }) ⟨h.pushed, h.ended⟩ _

theorem sane_after (pull : Pull σ ε) (source : σ) (calls : List Call) :
    ((serve pull).after { source } calls).Sane := by
  refine Server.after_induction (P := Sane) ?_ calls _ ⟨by simp, by simp⟩
  intro s h c
  cases c with
  | next => exact h.next
  | pushBack t => exact h.pushBack t
  | peek =>
    have hnext : (s.next pull).2.Sane := h.next
    change (s.peek pull).2.Sane
    rw [peek]
    generalize s.next pull = r at hnext
    obtain ⟨e | t, after⟩ := r
    · exact hnext
    · exact hnext.pushBack t

/-- **The second stream has looked ahead of the first**: it may hold another end of the last token
while tokens are pushed back, may have pulled a token and put it under the others, and may have met
an error that comes again every time. -/
inductive Ahead (pull : Pull σ ε) : Stream σ → Stream σ → Prop
  | same (s : Stream σ) : Ahead pull s s
  | lastEnd {s : Stream σ} (hpushed : s.pushed ≠ []) (n : Nat) :
      Ahead pull s { s with lastEnd := n }
  | pulled {s : Stream σ} {t : Token} {source : σ} (hended : s.ended = none)
      (hpull : pull s.source = (.ok (some t), source)) (ht : t.kind ≠ .eof) (n : Nat) :
      Ahead pull s ⟨source, s.pushed ++ [t], none, n, t.cursor⟩
  | failed {s : Stream σ} {e : ε} {source : σ} (hended : s.ended = none)
      (hfails : pull.FailsWith e s.source) (hfails' : pull.FailsWith e source) :
      Ahead pull s { s with source }

theorem Ahead.pushBack (h : Ahead pull s s') (t : Token) :
    Ahead pull (s.pushBack t) (s'.pushBack t) := by
  by_cases ht : t.kind = .eof
  · rwa [pushBack_of_eof ht, pushBack_of_eof ht]
  · rw [pushBack_of_ne ht, pushBack_of_ne ht]
    cases h with
    | same => exact .same _
    | lastEnd _ n =>
      exact .lastEnd (s := { s with pushed := t :: s.pushed }) (List.cons_ne_nil _ _) n
    | pulled hended hpull hu n =>
      exact .pulled (s := { s with pushed := t :: s.pushed }) hended hpull hu n
    | failed hended hfails hfails' =>
      exact .failed (s := { s with pushed := t :: s.pushed }) hended hfails hfails'

section

variable {source : σ} (hended : s.ended = none) (hpushed : s.pushed = [])

include hended hpushed

theorem next_of_pull_error {e : ε} (hpull : pull s.source = (.error e, source)) :
    s.next pull = (.error e, { s with source }) := by
  rw [next, hended, hpushed]
  simp only [hpull]

theorem next_of_failsWith {e : ε} (hfails : pull.FailsWith e s.source) :
    s.next pull = (.error e, { s with source := (pull s.source).2 }) :=
  next_of_pull_error hended hpushed (Prod.ext (hfails 0) rfl)

theorem next_of_pull_ok {t? : Option Token} (hpull : pull s.source = (.ok t?, source)) :
    s.next pull = (.ok (t?.getD s.endToken), { s with source }.receive (t?.getD s.endToken)) := by
  rw [next, hended, hpushed]
  simp only [hpull]

end

/-- **The next token is the same, and the second stream stays ahead or is level again.** -/
theorem Ahead.next (h : Ahead pull s s') :
    (s.next pull).1 = (s'.next pull).1 ∧ Ahead pull (s.next pull).2 (s'.next pull).2 := by
  obtain ⟨source, pushed, ended, lastEnd, cursor⟩ := s
  cases h with
  | same => exact ⟨rfl, .same _⟩
  | lastEnd hpushed n =>
    cases ended with
    | some t => exact ⟨rfl, .lastEnd hpushed n⟩
    | none =>
      obtain ⟨t, below, rfl⟩ := List.exists_cons_of_ne_nil hpushed
      exact ⟨rfl, .same _⟩
  | @pulled t ahead hended hpull ht n =>
    obtain rfl : ended = none := hended
    cases pushed with
    | nil =>
      rw [next_of_pull_ok rfl rfl hpull, Option.getD_some, receive, if_neg ht]
      exact ⟨rfl, .same _⟩
    | cons u below =>
      exact ⟨rfl, .pulled (s := ⟨source, below, none, u.span.stop, cursor⟩) rfl hpull ht
        u.span.stop⟩
  | @failed e ahead hended hfails hfails' =>
    obtain rfl : ended = none := hended
    cases pushed with
    | nil =>
      rw [next_of_failsWith rfl rfl hfails, next_of_failsWith rfl rfl hfails']
      exact ⟨rfl, .failed rfl (Pull.failsWith_iff.1 hfails).2 (Pull.failsWith_iff.1 hfails').2⟩
    | cons u below => exact ⟨rfl, .failed rfl hfails hfails'⟩

/-- **No call tells a stream from one that has looked ahead.** -/
theorem Ahead.answers_eq (h : Ahead pull s s') (calls : List Call) :
    (serve pull).answers s calls = (serve pull).answers s' calls :=
  (simulates_serve (fun _ _ h => h.next) fun _ _ h => h.pushBack).answers_eq calls h

/-! ## A stream that meets its end -/

/-- **The stream meets its end**: nothing is pushed back, and the token that would be next is the
first end token. -/
def MeetsEnd (pull : Pull σ ε) (s : Stream σ) : Prop :=
  s.ended = none ∧ s.pushed = [] ∧ ∃ t ∈ (s.next pull).1.toOption, t.kind = .eof

/-- **An error that a peek meets here comes again**, every time that the source is asked. -/
def FailsAgain (pull : Pull σ ε) (s : Stream σ) : Prop :=
  ∀ e, (s.peek pull).1 = .error e → pull.FailsWith e s.source

/-- A peek fails only where the source does. -/
theorem pull_of_peek_error {e : ε} (h : (s.peek pull).1 = .error e) :
    (pull s.source).1 = .error e := by
  obtain ⟨source, pushed, ended, lastEnd, cursor⟩ := s
  cases ended with
  | some t =>
    rw [peek_of_ok (next_of_ended rfl)] at h
    cases h
  | none =>
    cases pushed with
    | cons t below =>
      rw [peek_of_ok (next_of_pushed rfl rfl)] at h
      cases h
    | nil =>
      rcases hpull : pull source with ⟨e' | t?, source'⟩
      · rw [peek_of_error (next_of_pull_error rfl rfl hpull)] at h
        obtain rfl := Except.error.inj h
        rfl
      · rw [peek_of_ok (next_of_pull_ok rfl rfl hpull)] at h
        cases h

/-- **A peek looks ahead**, unless it meets the end. -/
theorem ahead_peek (h : s.Sane) (hfails : FailsAgain pull s) (hend : ¬ MeetsEnd pull s) :
    Ahead pull s (s.peek pull).2 := by
  obtain ⟨source, pushed, ended, lastEnd, cursor⟩ := s
  cases ended with
  | some t =>
    rw [peek_of_ok (next_of_ended rfl), pushBack_of_eof (h.ended t rfl)]
    exact .same _
  | none =>
    cases pushed with
    | cons t below =>
      rw [peek_of_ok (next_of_pushed rfl rfl), pushBack_of_ne (h.pushed t List.mem_cons_self)]
      exact .lastEnd (List.cons_ne_nil t below) _
    | nil =>
      rcases hpull : pull source with ⟨e | t?, source'⟩
      · have hpeek := peek_of_error
          (next_of_pull_error (s := ⟨source, [], none, lastEnd, cursor⟩) rfl rfl hpull)
        have hsource : pull.FailsWith e source := hfails e (congrArg Prod.fst hpeek)
        have hsource' := (Pull.failsWith_iff.1 hsource).2
        rw [hpull] at hsource'
        rw [hpeek]
        exact .failed rfl hsource hsource'
      · have hnext := next_of_pull_ok (s := ⟨source, [], none, lastEnd, cursor⟩) rfl rfl hpull
        cases t? with
        | none =>
          -- the stream makes an end token itself
          exact absurd ⟨rfl, rfl, _, by rw [hnext]; exact Option.mem_some_self _, rfl⟩ hend
        | some t =>
          have ht : t.kind ≠ .eof := fun heof =>
            hend ⟨rfl, rfl, t, by rw [hnext]; exact Option.mem_some_self t, heof⟩
          rw [peek_of_ok hnext, Option.getD_some, receive, if_neg ht, pushBack_of_ne ht]
          exact .pulled rfl hpull ht _

theorem answers_ask {t : Token} {after : Stream σ} (h : s.next pull = (.ok t, after)) {c : Call}
    (hc : c.asks = true) : ((serve pull) s c).1 = some (.ok t) := by
  cases c with
  | next => exact congrArg (fun r => some r.1) h
  | peek => exact congrArg (fun r => some r.1) (peek_of_ok h)
  | pushBack t => cases hc

/-- A stream that has ended and one with a token pushed back answer alike only if nothing is
asked. -/
theorem answers_eq_iff_of_pushed {eof : Token} (heof : eof.kind = .eof) (hs' : s'.ended = some eof)
    (hended : s.ended = none) (hpushed : ∃ u ∈ s.pushed.head?, u.kind ≠ .eof) (calls : List Call) :
    (serve pull).answers s' calls = (serve pull).answers s calls ↔ ∀ c ∈ calls, c.asks = false := by
  induction calls generalizing s s' with
  | nil => simp [Server.answers]
  | cons c calls ih =>
    cases hc : c.asks with
    | true =>
      obtain ⟨u, hu, hkind⟩ := hpushed
      obtain ⟨below, hpushed⟩ := List.head?_eq_some_iff.1 hu
      rw [Server.answers, Server.answers, answers_ask (next_of_ended hs') hc,
        answers_ask (next_of_pushed hended hpushed) hc]
      constructor
      · intro heq
        obtain rfl : eof = u := by simpa using (List.cons.inj heq).1
        exact absurd heof hkind
      · intro hasks
        cases hc.symm.trans (hasks c List.mem_cons_self)
    | false =>
      obtain ⟨t, rfl⟩ := Call.exists_of_asks hc
      rw [Server.answers, Server.answers, List.forall_mem_cons, List.cons.injEq]
      refine and_congr (iff_of_true rfl hc) (ih ?_ ?_ ?_)
      · exact (by unfold pushBack; split <;> exact hs' : (s'.pushBack t).ended = some eof)
      · exact (by unfold pushBack; split <;> exact hended : (s.pushBack t).ended = none)
      · change ∃ u ∈ (s.pushBack t).pushed.head?, u.kind ≠ .eof
        by_cases ht : t.kind = .eof
        · rwa [pushBack_of_eof ht]
        · rw [pushBack_of_ne ht]
          exact ⟨t, rfl, ht⟩

theorem MeetsEnd.exists_next (h : MeetsEnd pull s) :
    ∃ eof after, eof.kind = .eof ∧ s.next pull = (.ok eof, after) ∧ after.ended = some eof := by
  obtain ⟨hended, hpushed, eof, hmem, heof⟩ := h
  rcases hpull : pull s.source with ⟨e | t?, source⟩
  · rw [next_of_pull_error hended hpushed hpull] at hmem
    cases hmem
  · have hnext := next_of_pull_ok hended hpushed hpull
    rw [hnext] at hmem
    obtain rfl := Option.mem_some.1 hmem
    refine ⟨_, _, heof, hnext, ?_⟩
    rw [receive, if_pos heof]

/-- Asked for a token, a stream that meets its end gives the end token and has it from then on. -/
theorem serve_ask {eof : Token} {after : Stream σ} (heof : eof.kind = .eof)
    (hnext : s.next pull = (.ok eof, after)) {c : Call} (hc : c.asks = true) :
    serve pull s c = (some (.ok eof), after) := by
  cases c with
  | next => exact congrArg (Prod.map some id) hnext
  | peek =>
    have hpeek : s.peek pull = (.ok eof, after) := by rw [peek_of_ok hnext, pushBack_of_eof heof]
    exact congrArg (Prod.map some id) hpeek
  | pushBack t => cases hc

/-- **A peek that meets the end is noticed only if it buries a token.** -/
theorem MeetsEnd.answers_eq_iff (h : MeetsEnd pull s) (calls : List Call) :
    (serve pull).answers (s.peek pull).2 calls = (serve pull).answers s calls
      ↔ ¬ Call.Buries calls := by
  obtain ⟨eof, after, heof, hnext, hafter⟩ := h.exists_next
  rw [peek_of_ok hnext, pushBack_of_eof heof]
  induction calls with
  | nil => simp [Server.answers, Call.Buries, Call.givenFirst]
  | cons c calls ih =>
    cases hc : c.asks with
    | true =>
      have hnone : Call.givenFirst (c :: calls) = [] := by
        cases c with
        | pushBack t => cases hc
        | next => rfl
        | peek => rfl
      rw [Server.answers, Server.answers, serve_ask heof hnext hc,
        serve_ask heof (next_of_ended hafter) hc]
      exact iff_of_true rfl fun hburies => by simp [Call.Buries, hnone] at hburies
    | false =>
      obtain ⟨t, rfl⟩ := Call.exists_of_asks hc
      rw [Server.answers, Server.answers, List.cons.injEq]
      refine (and_iff_right rfl).trans ?_
      change (serve pull).answers (after.pushBack t) calls
        = (serve pull).answers (s.pushBack t) calls ↔ _
      by_cases ht : t.kind = .eof
      · rw [pushBack_of_eof ht, pushBack_of_eof ht, ih]
        simp [Call.Buries, Call.givenFirst, Call.asks, ht]
      · have hended : (s.pushBack t).ended = none := by
          rw [pushBack_of_ne ht]
          exact h.1
        have hafter : (after.pushBack t).ended = some eof := by
          rw [pushBack_of_ne ht]
          exact hafter
        rw [answers_eq_iff_of_pushed heof hafter hended ⟨t, by rw [pushBack_of_ne ht]; rfl, ht⟩]
        simp [Call.Buries, Call.givenFirst, Call.asks, ht]

/-- **What a peek between other calls changes**: nothing, unless it meets the end and buries a
token. -/
theorem unnoticed_peek_iff {source : σ} {before : List Call} (after : List Call)
    (h : FailsAgain pull ((serve pull).after { source } before)) :
    (serve pull).Unnoticed { source } before .peek after
      ↔ ¬ (MeetsEnd pull ((serve pull).after { source } before) ∧ Call.Buries after) := by
  rw [Server.unnoticed_iff]
  by_cases hend : MeetsEnd pull ((serve pull).after { source } before)
  · rw [and_iff_right hend]
    exact hend.answers_eq_iff after
  · have hahead := ahead_peek (sane_after pull source before) h hend
    exact iff_of_true (hahead.answers_eq after).symm fun hboth => hend hboth.1

end Stream

/-- A source that fails as often as this, and then has nothing more. -/
def Pull.failing (times : Nat) : Pull Nat Unit := fun asked =>
  (if asked < times then .error () else .ok none, asked + 1)

/-- A source that fails for ever, and counts how often it was asked. -/
def Pull.failingForEver : Pull Nat Unit := fun asked => (.error (), asked + 1)

end IncludeScan
