import IncludeScan.Proofs.Token.Pieces
import IncludeScan.Proofs.Token.Positions

/-!
# Proofs/Token/FaultPlaces — where a text cannot be cut any further

Whether a backslash or the opening of a comment is a fault shows in the text behind it alone
(`Rule.Faulty`); but it matters only where a token could begin.  At such a place nothing else
competes with it (`exists_longest_fault_iff`), so the scanner stops at the first fault that it
reaches.  What stands inside a string, a line comment or a closed comment is passed over
(`Enclosed.fits`).

`tokenize_fails` — when a text fails, how and where.
-/

namespace IncludeScan

/-! ## Rules that find faults -/

namespace Rule

/-- Nothing closes a comment if and only if there is no star and slash. -/
theorem closing?_eq_none_iff {cs : List Char} : closing? cs = none ↔ ¬ ['*', '/'] <:+: cs := by
  fun_induction closing? cs with
  | case1 cs => simpa using (List.prefix_append ['*', '/'] cs).isInfix
  | case2 c cs hne ih =>
    have hfront : ¬ ['*', '/'] <+: c :: cs := by
      rintro ⟨tail, htail⟩
      obtain ⟨rfl, rfl⟩ := List.cons.inj htail
      exact hne tail rfl rfl
    rw [Option.map_eq_none_iff, ih, List.infix_cons_iff, not_or]
    exact ⟨fun h => ⟨hfront, h⟩, And.right⟩
  | case3 => simp

/-- **A text that begins with a fault**: a backslash with no newline behind it, or a comment that is
not closed. -/
inductive Faulty : List Char → Fault → Prop
  | looseBackslash {tail : List Char} (h : '\n' ∉ tail) : Faulty ('\\' :: tail) .looseBackslash
  | openComment {tail : List Char} (h : ¬ ['*', '/'] <:+: tail) :
      Faulty ('/' :: '*' :: tail) .openComment

theorem faulty_looseBackslash_iff {cs : List Char} :
    Faulty cs .looseBackslash ↔ ∃ tail, cs = '\\' :: tail ∧ '\n' ∉ tail := by
  constructor
  · intro h
    cases h with
    | looseBackslash hline => exact ⟨_, rfl, hline⟩
  · rintro ⟨tail, rfl, hline⟩
    exact .looseBackslash hline

theorem faulty_openComment_iff {cs : List Char} :
    Faulty cs .openComment ↔ ∃ tail, cs = '/' :: '*' :: tail ∧ ¬ ['*', '/'] <:+: tail := by
  constructor
  · intro h
    cases h with
    | openComment hopen => exact ⟨_, rfl, hopen⟩
  · rintro ⟨tail, rfl, hopen⟩
    exact .openComment hopen

/-- **Only these texts are found faulty.** -/
theorem faulty_of_mem {rule : Rule} (hrule : rule ∈ rules) {cs : List Char} {m : Lexeme}
    {f : Fault} :
    rule cs = some m → m.fault = some f → Faulty cs f := by
  have hplain {rule : Rule} {kind : Kind} (h : rule.Plain kind) :
      rule cs = some m → m.fault = some f → Faulty cs f :=
    fun hm hf => absurd ((h cs m hm).2.symm.trans hf) (by simp)
  refine forall_mem_rules (motive := fun rule => rule cs = some m → m.fault = some f → Faulty cs f)
    (hplain plain_directive) (hplain (plain_fixed _ _)) (hplain (plain_run _ _ _))
    (hplain plain_continuation) (fun hm hf => ?_) (hplain plain_lineComment) (fun hm hf => ?_)
    (hplain plain_string) (hplain plain_number) (hplain (plain_run _ _ _))
    (fun _ _ => hplain (plain_fixed _ _)) (fun _ _ => hplain (plain_fixed _ _)) rule hrule
  · unfold looseBackslash at hm
    split at hm
    · split at hm
      · cases hm
      · rename_i hline
        obtain rfl := Option.some.inj hm
        obtain rfl := Option.some.inj hf
        exact .looseBackslash hline
    · cases hm
  · unfold blockComment at hm
    split at hm
    · split at hm
      · obtain rfl := Option.some.inj hm
        cases hf
      · rename_i hopen
        obtain rfl := Option.some.inj hm
        obtain rfl := Option.some.inj hf
        exact .openComment (closing?_eq_none_iff.1 hopen)
    · cases hm

/-- At a backslash only the two rules of backslashes find anything. -/
theorem eq_of_canBegin_backslash {rule : Rule} (h : CanBegin '\\' rule) :
    rule = continuation ∨ rule = looseBackslash := by
  cases h with
  | continuation => exact Or.inl rfl
  | looseBackslash => exact Or.inr rfl
  | directive hc | newline hc | blanks hc | lineComment hc | blockComment hc | string hc | number hc
  | word hc => exact absurd hc (by decide)
  | op hc => simp [operatorSpellings] at hc
  | punct hc => simp [punctSpellings] at hc

/-- At a slash only comments are found. -/
theorem eq_of_canBegin_slash {rule : Rule} (h : CanBegin '/' rule) :
    rule = lineComment ∨ rule = blockComment := by
  cases h with
  | lineComment => exact Or.inl rfl
  | blockComment => exact Or.inr rfl
  | directive hc | newline hc | blanks hc | continuation hc | looseBackslash hc | string hc
  | number hc | word hc => exact absurd hc (by decide)
  | op hc => simp [operatorSpellings] at hc
  | punct hc => simp [punctSpellings] at hc

/-- A continued line end is a line end. -/
theorem newline_mem_of_continuation {tail : List Char} {m : Lexeme}
    (h : continuation ('\\' :: tail) = some m) : '\n' ∈ tail := by
  simp only [continuation] at h
  split at h
  · rename_i rest hrest
    exact (List.dropWhile_sublist isBlank).subset (hrest ▸ List.mem_cons_self)
  · cases h

/-- **A fault has no competitor.** -/
theorem Faulty.exists_longest {cs : List Char} {f : Fault} (h : Faulty cs f) :
    ∃ m, Longest cs 0 m ∧ m.fault = some f := by
  cases h with
  | @looseBackslash tail hline =>
    have hm : Rule.looseBackslash ('\\' :: tail)
        = some ⟨.continuation, 1 + tail.length, by omega, none, some .looseBackslash⟩ :=
          if_neg hline
    refine ⟨_, Piece.longest_of_sole (by simp [rules]) hm fun rule' hrule' m' hm' => Or.inr ?_, rfl⟩
    rcases eq_of_canBegin_backslash (canBegin_of_mem hrule' hm') with rfl | rfl
    · exact absurd (newline_mem_of_continuation hm') hline
    · exact Option.some.inj (hm'.symm.trans hm)
  | @openComment tail hopen =>
    obtain ⟨m, hm, hf⟩ := blockComment_of_open (closing?_eq_none_iff.2 hopen)
    refine ⟨m, Piece.longest_of_sole (by simp [rules]) hm fun rule' hrule' m' hm' => Or.inr ?_, hf⟩
    rcases eq_of_canBegin_slash (canBegin_of_mem hrule' hm') with rfl | rfl
    · cases hm'
    · exact Option.some.inj (hm'.symm.trans hm)

end Rule

/-- What is longest at a place shows in the text from there on. -/
theorem longest_drop {text : List Char} {p : Nat} {m : Lexeme} :
    Longest (text.drop p) 0 m ↔ Longest text p m := by
  simp only [Longest, Matches, List.drop_zero]

/-- **A faulty lexeme is the longest at a place exactly if the text from there on is faulty.** -/
theorem exists_longest_fault_iff {text : List Char} {p : Nat} {f : Fault} :
    (∃ m, Longest text p m ∧ m.fault = some f) ↔ Rule.Faulty (text.drop p) f := by
  constructor
  · rintro ⟨m, ⟨rank, ⟨rule, hrule, hm⟩, -⟩, hf⟩
    exact Rule.faulty_of_mem (List.mem_of_getElem? hrule) hm hf
  · intro h
    obtain ⟨m, hm, hf⟩ := h.exists_longest
    exact ⟨m, longest_drop.1 hm, hf⟩

/-! ## Text that is passed over -/

/-- **Text in which nothing is looked at**, where `rest` stands behind it: a string, a line comment
with all of its line, or a comment up to the star and slash that close it. -/
inductive Enclosed (rest : List Char) : Kind → List Char → Prop
  | string {body : List Char} (h : Piece.StringBody body) :
      Enclosed rest .string ('"' :: (body ++ ['"']))
  | lineComment {body : List Char} (h : '\n' ∉ body) (hrest : rest = [] ∨ rest.head? = some '\n') :
      Enclosed rest .lineComment ('/' :: '/' :: body)
  | blockComment {body : List Char} (h : ¬ ['*', '/'] <:+: body) :
      Enclosed rest .blockComment ('/' :: '*' :: (body ++ ['*', '/']))

theorem Rule.closing?_append_closed {body : List Char} (h : ¬ ['*', '/'] <:+: body)
    (rest : List Char) :
    closing? (body ++ '*' :: '/' :: rest) = some (body.length + 2) := by
  induction body with
  | nil => rfl
  | cons c body ih =>
    obtain ⟨hfront, hbody⟩ := not_or.1 (List.infix_cons_iff.not.1 h)
    rw [List.cons_append, closing?, ih hbody]
    · rfl
    · rintro tail rfl htail
      cases body with
      | nil => cases htail
      | cons d body =>
        obtain ⟨rfl, -⟩ := List.cons.inj htail
        exact hfront (List.prefix_append ['*', '/'] body)

/-- **A string, a line comment and a closed comment are one token each.** -/
theorem Enclosed.fits {rest : List Char} {kind : Kind} {s : List Char} (h : Enclosed rest kind s) :
    (Piece.mk kind s none).Fits rest := by
  cases h with
  | string hbody => exact hbody.fits rest
  | @lineComment body hbody hrest =>
    have hstops : Piece.Stops (· != '\n') rest := by
      rcases hrest with rfl | hrest
      · exact fun c hc => absurd hc (by simp)
      · exact fun c hc => by rw [hrest] at hc; exact Option.some.inj hc ▸ rfl
    have htake : (body ++ rest).takeWhile (· != '\n') = body := by
      rw [Piece.takeWhile_append_of_stops hstops, List.takeWhile_eq_self_iff]
      exact fun c hc => bne_iff_ne.2 fun hline => hbody (hline ▸ hc)
    have hm : Rule.lineComment ('/' :: '/' :: (body ++ rest))
        = some ⟨.lineComment, 2 + body.length, by omega, none, none⟩ := by
      simp only [Rule.lineComment, htake]
    have hlength : 2 + body.length = ('/' :: '/' :: body).length := Nat.add_comm 2 _
    refine .lexeme (Piece.longest_of_sole (by simp [rules]) hm fun rule' hrule' m' hm' => Or.inr ?_)
      rfl
      hlength rfl rfl
    rcases Rule.eq_of_canBegin_slash (Rule.canBegin_of_mem hrule' hm') with rfl | rfl
    · exact Option.some.inj (hm'.symm.trans hm)
    · cases hm'
  | @blockComment body hbody =>
    have hm : Rule.blockComment ('/' :: '*' :: (body ++ ['*', '/'] ++ rest))
        = some ⟨.blockComment, 2 + (body.length + 2), by omega, none, none⟩ := by
      rw [List.append_assoc]
      simp only [Rule.blockComment, List.cons_append, List.nil_append,
        Rule.closing?_append_closed hbody rest]
    have hlength : 2 + (body.length + 2) = ('/' :: '*' :: (body ++ ['*', '/'])).length := by
      simp only [List.length_cons, List.length_append, List.length_nil]
      omega
    refine .lexeme (Piece.longest_of_sole (by simp [rules]) hm fun rule' hrule' m' hm' => Or.inr ?_)
      rfl
      hlength rfl rfl
    rcases Rule.eq_of_canBegin_slash (Rule.canBegin_of_mem hrule' hm') with rfl | rfl
    · cases hm'
    · exact Option.some.inj (hm'.symm.trans hm)

/-! ## The places that are reached -/

/-- **The scanner reaches a place**: a token begins there, or the last one ends there. -/
def Reached (text : String) (p : Nat) : Prop :=
  ∃ before after, (tokenize text).tokens = before ++ after ∧ (Token.textOf before).length = p

theorem Cut.le_length {text : List Char} {p : Nat} {r : Tokenization} (h : Cut text p r) :
    p ≤ text.length := by
  cases h with
  | ended => exact le_refl _
  | fault hp => exact hp.le
  | lexeme hp => exact hp.le
  | word hq => exact hq.lt.le.trans hq.le

/-- From a place that is reached on, the text is cut into the tokens behind it. -/
theorem cut_of_length {text : String} {before after : List Token}
    (h : (tokenize text).tokens = before ++ after) :
    Cut text.toList (Token.textOf before).length ⟨after, (tokenize text).ending⟩ := by
  obtain ⟨q, hfront, hcut, -⟩ := exists_place_behind h
  have hlength : (Token.textOf before).length = q := by
    rw [hfront, String.length_ofList, List.length_take, Nat.min_eq_left hcut.le_length]
  rwa [hlength]

/-- **A fault ends the cut.** -/
theorem Rule.Faulty.cut {text : List Char} {p : Nat} {f : Fault} (h : Faulty (text.drop p) f) :
    Cut text p ⟨[], .error ⟨f, cursorAt text p⟩⟩ := by
  obtain ⟨m, hm, hf⟩ := exists_longest_fault_iff.2 h
  have hp : p < text.length := by
    by_contra hle
    rw [List.drop_eq_nil_of_le (by omega)] at h
    cases h
  exact .fault hp hm hf

/-- Behind the end of the text nothing is found. -/
theorem Longest.lt_length {text : List Char} {p : Nat} {m : Lexeme} (h : Longest text p m) :
    p < text.length := by
  obtain ⟨rank, ⟨rule, hrule, hm⟩, -⟩ := h
  have hle := Rule.bounded_of_mem (List.mem_of_getElem? hrule) _ _ hm
  have hpos := m.length_pos
  rw [List.length_drop] at hle
  omega

/-- A lexeme without a fault that is the longest at the place of a cut is its next token. -/
theorem Cut.exists_of_longest {text : List Char} {p : Nat} {r : Tokenization} (h : Cut text p r)
    {m : Lexeme} (hm : Longest text p m) (hfault : m.fault = none) :
    ∃ r' : Tokenization, r = r'.cons (tokenAt text m.kind m.keyword p (p + m.length)) := by
  cases h with
  | ended => exact absurd hm.lt_length (lt_irrefl _)
  | fault _ hm' hf =>
    obtain rfl := hm.unique hm'
    exact absurd (hfault.symm.trans hf) (by simp)
  | @lexeme _ _ r' _ hm' =>
    obtain rfl := hm.unique hm'
    exact ⟨r', rfl⟩
  | word hq => exact absurd hm hq.not_longest

/-- What is enclosed at the place of a cut is its next token. -/
theorem Cut.exists_of_enclosed {text : List Char} {p : Nat} {r : Tokenization} (h : Cut text p r)
    {kind : Kind} {s rest : List Char} (htext : text.drop p = s ++ rest)
    (hs : Enclosed rest kind s) :
    ∃ r' : Tokenization, r = r'.cons (tokenAt text kind none p (p + s.length)) := by
  cases hs.fits with
  | unclaimed _ hkind => cases hs <;> cases hkind
  | lexeme hm hkind hlength hkeyword hfault =>
    have hnext := h.exists_of_longest (longest_drop.1 (htext ▸ hm)) hfault
    rwa [hkind, hkeyword, hlength] at hnext

theorem value_tokenAt {text s rest : List Char} {p : Nat} (h : text.drop p = s ++ rest)
    (kind : Kind) (keyword : Option Keyword) :
    (tokenAt text kind keyword p (p + s.length)).value = String.ofList s := by
  rw [tokenAt, h, Nat.add_sub_cancel_left, List.take_left]

namespace Reached

variable {text : String} {p : Nat}

/-- All of the tokens lead to a place that is reached. -/
theorem all (text : String) : Reached text (Token.textOf (tokenize text).tokens).length :=
  ⟨_, [], (List.append_nil _).symm, rfl⟩

/-- **The error is at the last place that is reached**, and there the text is faulty. -/
theorem exists_of_error {e : ScanError} (h : (tokenize text).ending = .error e) :
    Rule.Faulty (text.toList.drop (Token.textOf (tokenize text).tokens).length) e.fault
      ∧ e.cursor = cursorAt text.toList (Token.textOf (tokenize text).tokens).length := by
  have hcut := cut_of_length (List.append_nil (tokenize text).tokens).symm
  rw [h] at hcut
  generalize (Token.textOf (tokenize text).tokens).length = p at hcut
  cases hcut with
  | fault _ hm hf => exact ⟨exists_longest_fault_iff.1 ⟨_, hm, hf⟩, rfl⟩

theorem le_length (h : Reached text p) : p ≤ (Token.textOf (tokenize text).tokens).length := by
  obtain ⟨before, after, htokens, rfl⟩ := h
  rw [htokens, Token.textOf_append, String.length_append]
  exact Nat.le_add_right _ _

/-- No error stands before the last place that is reached. -/
theorem cursor_ne {e : ScanError} (h : (tokenize text).ending = .error e)
    (hp : p < (Token.textOf (tokenize text).tokens).length) :
    e.cursor ≠ cursorAt text.toList p := by
  intro hcursor
  have hle : (Token.textOf (tokenize text).tokens).length ≤ text.toList.length :=
    (cut_of_length (List.append_nil _).symm).le_length
  have heq := cursorAt_injective hle (hp.le.trans hle) ((exists_of_error h).2.symm.trans hcursor)
  omega

/-- **A fault that is reached is the error of the text.** -/
theorem ending_eq (h : Reached text p) {f : Fault} (hf : Rule.Faulty (text.toList.drop p) f) :
    (tokenize text).ending = .error ⟨f, cursorAt text.toList p⟩ := by
  obtain ⟨before, after, htokens, rfl⟩ := h
  have hcut := (cut_of_length htokens).unique hf.cut
  exact congrArg Tokenization.ending hcut

/-- **What is enclosed at a place that is reached is a token**, and behind it the scanner goes
on. -/
theorem enclosed (h : Reached text p) {kind : Kind} {s rest : List Char}
    (htext : text.toList.drop p = s ++ rest) (hs : Enclosed rest kind s) :
    (∃ t ∈ (tokenize text).tokens, t.kind = kind ∧ t.value = String.ofList s
      ∧ t.cursor = cursorAt text.toList p)
    ∧ Reached text (p + s.length) := by
  obtain ⟨before, after, htokens, hp⟩ := h
  have hcut := cut_of_length htokens
  rw [hp] at hcut
  obtain ⟨r, hr⟩ := hcut.exists_of_enclosed htext hs
  obtain rfl := congrArg Tokenization.tokens hr
  have hvalue := value_tokenAt htext kind none
  refine ⟨⟨_, htokens ▸ List.mem_append_right _ List.mem_cons_self, rfl, hvalue, rfl⟩,
    before ++ [tokenAt text.toList kind none p (p + s.length)], r.tokens, ?_, ?_⟩
  · rw [htokens, List.append_assoc]
    rfl
  · rw [Token.textOf_append, String.length_append, hp, Token.textOf, List.map_singleton, hvalue]
    simp [String.join]

end Reached

theorem Tokenization.toExcept_eq_error {r : Tokenization} {e : ScanError} :
    r.toExcept = .error e ↔ r.ending = .error e := by
  rw [toExcept]
  cases r.ending <;> simp [Except.map]

/-- A text that ends with a newline has one behind every backslash. -/
theorem Rule.not_faulty_looseBackslash {text : List Char} (h : text.getLast? = some '\n')
    (p : Nat) :
    ¬ Faulty (text.drop p) .looseBackslash := by
  rw [faulty_looseBackslash_iff]
  rintro ⟨tail, htail, hline⟩
  have hp : ¬ text.length ≤ p := by
    intro hle
    rw [List.drop_eq_nil_of_le hle] at htail
    cases htail
  have hlast : ('\\' :: tail).getLast? = some '\n' := by
    rw [← htail, List.getLast?_drop, if_neg hp, h]
  exact hline ((List.mem_cons.1 (List.mem_of_getLast? hlast)).resolve_left (by decide))

/-- An error has the name of a fault exactly if a place is reached where the text has that fault. -/
theorem Reached.exists_of_code {text : String} {f : Fault} :
    (∃ e, (tokenize text).ending = .error e ∧ e.fault.code = f.code) ↔
      ∃ p, Reached text p ∧ Rule.Faulty (text.toList.drop p) f := by
  constructor
  · rintro ⟨e, he, hcode⟩
    obtain rfl := Fault.code_injective hcode
    exact ⟨_, Reached.all text, (Reached.exists_of_error he).1⟩
  · rintro ⟨p, hp, hf⟩
    exact ⟨_, hp.ending_eq hf, rfl⟩

/-- **When a text fails.**  It fails with an error exactly if a place is reached where a backslash
has no newline behind it or a comment is not closed, and the error is that of the first such place.
A text that ends with a newline has no loose backslash, and nothing in a string, in a line comment
or in a closed comment is ever an error. -/
theorem tokenize_fails (text : String) :
    (∀ e, (tokenize text).toExcept = .error e ↔
      ∃ p, Reached text p ∧ Rule.Faulty (text.toList.drop p) e.fault
        ∧ e.cursor = cursorAt text.toList p
        ∧ ∀ q < p, Reached text q → ∀ f, ¬ Rule.Faulty (text.toList.drop q) f)
    ∧ ((∃ e, (tokenize text).toExcept = .error e ∧ e.fault.code = "continuation-invalid") ↔
        ∃ p tail, Reached text p ∧ text.toList.drop p = '\\' :: tail ∧ '\n' ∉ tail)
    ∧ ((∃ e, (tokenize text).toExcept = .error e ∧ e.fault.code = "comment-unterminated") ↔
        ∃ p tail, Reached text p ∧ text.toList.drop p = '/' :: '*' :: tail ∧ ¬ ['*', '/'] <:+: tail)
    ∧ (text.toList.getLast? = some '\n' →
        ∀ e, (tokenize text).toExcept = .error e → e.fault.code ≠ "continuation-invalid")
    ∧ ∀ p kind s rest, Reached text p → text.toList.drop p = s ++ rest → Enclosed rest kind s →
        (∃ t ∈ (tokenize text).tokens, t.kind = kind ∧ t.value = String.ofList s
          ∧ t.cursor = cursorAt text.toList p)
        ∧ Reached text (p + s.length)
        ∧ ∀ e, (tokenize text).toExcept = .error e →
            ∀ i, p ≤ i → i < p + s.length → e.cursor ≠ cursorAt text.toList i := by
  simp only [Tokenization.toExcept_eq_error]
  refine ⟨fun e => ⟨fun he => ?_, ?_⟩, ?_, ?_, fun hlast e he hcode => ?_,
    fun p kind s rest hp htext hs => ?_⟩
  · obtain ⟨hf, hcursor⟩ := Reached.exists_of_error he
    refine ⟨_, Reached.all text, hf, hcursor, fun q hlt hq f hfq => Reached.cursor_ne he hlt ?_⟩
    rw [Except.error.inj (he.symm.trans (hq.ending_eq hfq))]
  · rintro ⟨p, hp, hf, hcursor, -⟩
    rw [hp.ending_eq hf, ← hcursor]
  · refine (Reached.exists_of_code (f := .looseBackslash)).trans ?_
    simp only [Rule.faulty_looseBackslash_iff, exists_and_left]
  · refine (Reached.exists_of_code (f := .openComment)).trans ?_
    simp only [Rule.faulty_openComment_iff, exists_and_left]
  · obtain ⟨p, -, hf⟩ := (Reached.exists_of_code (f := .looseBackslash)).1 ⟨e, he, hcode⟩
    exact Rule.not_faulty_looseBackslash hlast p hf
  · obtain ⟨htoken, hbehind⟩ := hp.enclosed htext hs
    refine ⟨htoken, hbehind, fun e he i _ hi => Reached.cursor_ne he ?_⟩
    exact hi.trans_le hbehind.le_length

/-- A string that holds a backslash and the opening of a comment, and a loose backslash behind
it. -/
theorem tokenize_fails_behind_string :
    (∃ e, (tokenize "\n\"\\/*\"\\a").toExcept = .error e ∧ e.fault.code = "continuation-invalid"
      ∧ e.cursor ≠ ⟨2, 2⟩)
    ∧ Reached "\n\"\\/*\"\\a" 6 := by
  have htokens : (tokenize "\n\"\\/*\"\\a").tokens
      = [⟨.newline, "\n", ⟨1, 1⟩, ⟨0, 1⟩, none⟩]
        ++ [⟨.string, "\"\\/*\"", ⟨2, 1⟩, ⟨1, 6⟩, none⟩] := by
    rw [tokenize_eq_steps]
    decide +kernel
  have hstring : Enclosed ['\\', 'a'] .string ['"', '\\', '/', '*', '"'] :=
    .string (.escaped (by decide) (.plain (by decide) (by decide) (by decide) .nil))
  obtain ⟨-, hbackslash, -, -, henclosed⟩ := tokenize_fails "\n\"\\/*\"\\a"
  obtain ⟨-, hbehind, hinside⟩ :=
    henclosed 1 .string _ _ ⟨_, _, htokens, by decide⟩ (by decide +kernel) hstring
  obtain ⟨e, he, hcode⟩ := hbackslash.2 ⟨6, ['a'], hbehind, by decide +kernel, by decide⟩
  exact ⟨⟨e, he, hcode, hinside e he 2 (by decide) (by decide)⟩, hbehind⟩

end IncludeScan
