import IncludeScan.Proofs.Condition.Regroup
import IncludeScan.Proofs.Token.Lossless

/-!
# Proofs/Condition/Literals — literals as tokens and as constants of conditions

The rule for numerals and the reader of values share one grammar.  So the literals are the texts
that are cut into a single number token (`exists_written_iff_tokenize`), every number token of a
text is a literal (`written_of_mem_tokens`), and the only thing that can be wrong with one in a
condition is its size.

`literal_grammar` — a text has a value if and only if it is a literal and its value is below
`2 ^ 53`; the literals are the texts that are one number token; and a condition is refused for a
literal only if that is too large.
-/

namespace IncludeScan.Numeral

/-! ## Literals as tokens -/

theorem exists_read?_of_number {cs : List Char} {m : Lexeme} (h : Rule.number cs = some m) :
    ∃ n, read? cs = some n ∧ n.spelling.length = m.length := by
  unfold Rule.number at h
  split at h
  · rename_i n hn
    obtain rfl := Option.some.inj h
    exact ⟨n, hn, rfl⟩
  · cases h

/-- **A number token is a literal.** -/
theorem written_of_mem_tokens {text : String} {t : Token} (ht : t ∈ (tokenize text).tokens)
    (hkind : t.kind = .number) : ∃ base digits, Written base digits t.value.toList := by
  refine (cut_tokenize text).forall_mem_tokens
    (motive := fun t => t.kind = .number → ∃ base digits, Written base digits t.value.toList)
    (fun p m _ hm hkind => ?_) (fun p q _ hkind => absurd hkind (by simp [tokenAt])) t ht hkind
  obtain ⟨rank, ⟨rule, hrule, hfound⟩, -⟩ := hm
  obtain rfl := Rule.eq_number_of_kind_number (List.mem_of_getElem? hrule) hfound hkind
  obtain ⟨n, hn, hlength⟩ := exists_read?_of_number hfound
  obtain ⟨tail, htail⟩ := exists_append hn
  refine ⟨n.base, n.digits, ?_⟩
  rw [tokenAt, String.toList_ofList, Nat.add_sub_cancel_left, ← hlength, htail, List.take_left]
  exact written_of_read? hn

/-- **The literals are the texts that are one number token.** -/
theorem exists_written_iff_tokenize {s : String} :
    (∃ base digits, Written base digits s.toList)
      ↔ ∃ t eof, tokenize s = ⟨[t], .ok eof⟩ ∧ t.kind = .number := by
  constructor
  · rintro ⟨base, digits, hwritten⟩
    obtain ⟨n, hn, -⟩ := hwritten.exists_ofText?
    have hlaid : Piece.Laid [Piece.number s.toList] [] :=
      ⟨Piece.fits_numeral hn (by simp [Piece.Stops]), trivial⟩
    obtain ⟨htokens, eof, hending⟩ := Piece.tokenize_flat hlaid
    rw [Piece.flat_cons, Piece.flat_nil, List.append_nil, Piece.number_text, String.ofList_toList]
      at htokens hending
    exact ⟨_, eof, congrArg₂ Tokenization.mk htokens hending, rfl⟩
  · rintro ⟨t, eof, htokenize, hkind⟩
    obtain ⟨stop, htiled, hstop⟩ := (cut_tokenize s).exists_tiled
    have hwritten := @written_of_mem_tokens s t (by simp [htokenize]) hkind
    have hjoin := htiled.join_values
    rw [htokenize] at hstop hjoin
    cases hstop with
    | ended =>
      have hvalue : t.value = s := by simpa using hjoin
      rwa [hvalue] at hwritten

/-! ## Literals in conditions -/

theorem head?_append_eq_some {front : String} {c : Char} (h : front.toList.head? = some c)
    (back : String) :
    (front ++ back).toList.head? = some c := by
  rw [String.toList_append, List.head?_append, h, Option.some_or]

/-- No other error is worded like that of a literal. -/
theorem eq_badLiteral_of_message {e : ConditionError} {rest : String}
    (h : e.message = "invalid integer literal" ++ rest) : ∃ t, e = .badLiteral t := by
  -- the other wordings begin with another letter
  have hfirst : e.message.toList.head? = some 'i' := h ▸ head?_append_eq_some (by decide) rest
  have hother {c : Char} (hc : e.message.toList.head? = some c) : c = 'i' :=
    Option.some.inj (hc.symm.trans hfirst)
  have hexpected : "expected ".toList.head? = some 'e' := by decide
  cases e with
  | badLiteral t => exact ⟨t, rfl⟩
  | endOfLine wanted =>
    exact absurd (hother (head?_append_eq_some (head?_append_eq_some hexpected _) _)) (by decide)
  | mismatch wanted t =>
    have hmessage :=
      head?_append_eq_some (head?_append_eq_some hexpected wanted.describe) " but found '"
    exact absurd (hother (head?_append_eq_some (head?_append_eq_some hmessage _) _)) (by decide)
  | unexpected t =>
    have hunexpected : "unexpected token '".toList.head? = some 'u' := by decide
    exact absurd (hother (head?_append_eq_some (head?_append_eq_some hunexpected _) _)) (by decide)

/-- **A literal that is refused in a condition is too large**, if the tokens are those of a text. -/
theorem exists_limit_lt_of_parse {ts : List Token} {t : Token}
    (hts : ∀ t ∈ ts, ∃ text, t ∈ (tokenize text).tokens)
    (h : Condition.parse ts = .error (.badLiteral t)) :
    t ∈ ts ∧ ∃ base digits, Written base digits t.value.toList
      ∧ limit < positional base digits := by
  have hmem : t ∈ ts := Condition.token_mem_of_parse_eq_error h rfl
  have hrefused := Condition.ensures_parse ts
  rw [h] at hrefused
  obtain ⟨hkind, hnone⟩ := hrefused
  obtain ⟨text, htext⟩ := hts t hmem
  obtain ⟨base, digits, hwritten⟩ := written_of_mem_tokens htext hkind
  exact ⟨hmem, base, digits, hwritten, literal?_eq_none_iff.1 hnone base digits hwritten⟩

/-- **Which texts are integer literals.**  A text has a value if and only if it is a literal and its
value by position is that one and below `2 ^ 53`; so it has none if it is no literal or too large.
It is a literal if and only if it is cut into a single number token.  And where the condition in
tokens of texts is refused for a literal, the token of the error is a literal that is too large. -/
theorem literal_grammar :
    (∀ s n, literal? s = some n
      ↔ ∃ base digits, Written base digits s.toList ∧ positional base digits = n ∧ n ≤ 2 ^ 53 - 1)
    ∧ (∀ s, literal? s = none
      ↔ ∀ base digits, Written base digits s.toList → 2 ^ 53 - 1 < positional base digits)
    ∧ (∀ s : String, (∃ base digits, Written base digits s.toList)
      ↔ ∃ t eof, tokenize s = ⟨[t], .ok eof⟩ ∧ t.kind = .number)
    ∧ ∀ ts e rest, (∀ t ∈ ts, ∃ text, t ∈ (tokenize text).tokens) → Condition.parse ts = .error e →
      e.message = "invalid integer literal" ++ rest →
      ∃ t ∈ ts, e.token? = some t
        ∧ ∃ base digits, Written base digits t.value.toList
          ∧ 2 ^ 53 - 1 < positional base digits := by
  have hlimit : limit = 2 ^ 53 - 1 := by decide
  rw [← hlimit]
  refine ⟨fun s n => literal?_eq_some_iff, fun s => literal?_eq_none_iff,
    fun s => exists_written_iff_tokenize, fun ts e rest hts h hmessage => ?_⟩
  obtain ⟨t, rfl⟩ := eq_badLiteral_of_message hmessage
  obtain ⟨hmem, hlarge⟩ := exists_limit_lt_of_parse hts h
  exact ⟨t, hmem, rfl, hlarge⟩

/-- The first number that is too large, in a condition. -/
theorem literal_grammar_beyond :
    let ts := (tokenize "1 < 0x20000000000000uLL").tokens.filter fun t => !t.isTrivia
    (∀ t ∈ ts, ∃ text, t ∈ (tokenize text).tokens)
      ∧ ∃ e, Condition.parse ts = .error e
        ∧ e.message = "invalid integer literal" ++ " '0x20000000000000uLL'"
        ∧ ∃ t ∈ ts, e.token? = some t
          ∧ ∃ base digits, Written base digits t.value.toList
            ∧ 2 ^ 53 - 1 < positional base digits := by
  intro ts
  have hts : ∀ t ∈ ts, ∃ text, t ∈ (tokenize text).tokens := fun t ht =>
    ⟨_, (List.mem_filter.1 ht).1⟩
  have hwords : ts = [⟨.number, "1", ⟨1, 1⟩, ⟨0, 1⟩, none⟩, ⟨.op, "<", ⟨1, 3⟩, ⟨2, 3⟩, none⟩,
      ⟨.number, "0x20000000000000uLL", ⟨1, 5⟩, ⟨4, 23⟩, none⟩] := by
    simp only [ts, tokenize_eq_steps]
    decide +kernel
  have hread : Condition.parse ts
      = .error (.badLiteral ⟨.number, "0x20000000000000uLL", ⟨1, 5⟩, ⟨4, 23⟩, none⟩) := by
    rw [hwords]
    cbv
  have hmessage :
      (ConditionError.badLiteral ⟨.number, "0x20000000000000uLL", ⟨1, 5⟩, ⟨4, 23⟩, none⟩).message
      = "invalid integer literal" ++ " '0x20000000000000uLL'" := by decide
  exact ⟨hts, _, hread, hmessage, literal_grammar.2.2.2 ts _ _ hts hread hmessage⟩

end IncludeScan.Numeral
