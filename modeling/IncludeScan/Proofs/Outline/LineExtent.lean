import IncludeScan.Proofs.Outline.DirectiveTokens
import IncludeScan.Proofs.Outline.Recovery
import IncludeScan.Proofs.Token.Newlines

/-!
# Proofs/Outline/LineExtent — where the newlines of a text are, and how far a directive line reaches

What a token can do with a newline is said by its kind (`Newlined`): be it, continue the line over
it, close it into a comment, or not have it at all.  Every rule keeps to this
(`Rule.newlines_of_mem`), and so does text that no rule claims (`Cut.exists_newlined`).

Each place of a text lies in one token (`exists_holds`, `Holds.unique`).  So a newline ends a line
exactly if it is neither continued nor in a comment (`endsLineAt_iff`), which shows in the text and
the places that are reached, and a directive line reaches up to the first one that does
(`Outline.exists_reaches`).

`tokenize_newlines` — both about the tokens of a text.
-/

namespace IncludeScan

/-! ## What a token does with newlines -/

/-- **The text of a token of some kind, as to its newlines**: one by itself, a backslash and blanks
in front of one, a comment up to the star and slash that close it, or no newline. -/
inductive Newlined : Kind → List Char → Prop
  | single : Newlined .newline ['\n']
  | continued {blanks : List Char} (h : ∀ c ∈ blanks, c ∈ ['\t', '\x0b', '\x0c', '\r', ' ']) :
      Newlined .continuation ('\\' :: (blanks ++ ['\n']))
  | commented {body : List Char} (h : ¬ ['*', '/'] <:+: body) :
      Newlined .blockComment ('/' :: '*' :: (body ++ ['*', '/']))
  | absent {kind : Kind} {s : List Char} (hkind : kind.spansLines = false) (h : '\n' ∉ s) :
      Newlined kind s

namespace Rule

/-- A backslash, blanks and a newline are found as a continuation. -/
theorem continuation_append {blanks : List Char} (h : ∀ c ∈ blanks, isBlank c = true)
    (rest : List Char) :
    ∃ m, continuation ('\\' :: (blanks ++ '\n' :: rest)) = some m ∧ m.kind = .continuation
      ∧ m.length = blanks.length + 2 ∧ m.keyword = none ∧ m.fault = none := by
  have htake : (blanks ++ '\n' :: rest).takeWhile isBlank = blanks := by
    rw [List.takeWhile_append_of_pos h, List.takeWhile_cons_of_neg (by decide), List.append_nil]
  have hdrop : (blanks ++ '\n' :: rest).dropWhile isBlank = '\n' :: rest := by
    rw [List.dropWhile_append_of_pos h, List.dropWhile_cons_of_neg (by decide)]
  refine ⟨⟨.continuation, 1 + blanks.length + 1, by omega, none, none⟩, ?_, rfl,
    by dsimp only; omega, rfl, rfl⟩
  simp only [continuation, htake, hdrop]

/-- Whatever the rule finds without a fault is a text of its kind. -/
def Newlines (rule : Rule) : Prop :=
  ∀ cs m, rule cs = some m → m.fault = none → Newlined m.kind (cs.take m.length)

theorem OneLine.newlines {rule : Rule} (h : rule.OneLine) {kind : Kind} (hplain : rule.Plain kind)
    (hkind : kind.spansLines = false) : rule.Newlines := by
  intro cs m hm _
  have hspans : m.kind.spansLines = false := (hplain cs m hm).1 ▸ hkind
  exact .absent hspans (h cs m hm hspans)

theorem newlines_continuation : Newlines continuation := by
  intro cs m hm _
  obtain ⟨blanks, rest, rfl, hblanks, hkind, hlength⟩ := exists_of_continuation hm
  have htake :
      ('\\' :: (blanks ++ '\n' :: rest)).take (blanks.length + 2) = '\\' :: (blanks ++ ['\n']) := by
    rw [List.take_succ_cons, List.take_length_add_append]
    rfl
  rw [hkind, hlength, htake]
  exact .continued fun c hc => isBlank_iff_mem.1 (hblanks c hc)

theorem newlines_blockComment : Newlines blockComment := by
  intro cs m hm hf
  unfold blockComment at hm
  split at hm
  · split at hm
    · rename_i n hn
      obtain rfl := Option.some.inj hm
      obtain ⟨body, rest, rfl, hbody, rfl⟩ := exists_of_closing? hn
      have htake : ('/' :: '*' :: (body ++ '*' :: '/' :: rest)).take (2 + (body.length + 2))
          = '/' :: '*' :: (body ++ ['*', '/']) := by
        rw [Nat.add_comm 2, List.take_succ_cons, List.take_succ_cons, List.take_length_add_append]
        rfl
      dsimp only
      rw [htake]
      exact .commented hbody
    · obtain rfl := Option.some.inj hm
      cases hf
  · cases hm

/-- **Every rule finds texts of its kind**, faults apart. -/
theorem newlines_of_mem {rule : Rule} (h : rule ∈ rules) : rule.Newlines := by
  refine forall_mem_rules (oneLine_directive.newlines plain_directive rfl) (fun cs m hm _ => ?_)
    ((oneLine_run _ (by decide) (by decide)).newlines (plain_run _ _ _) rfl) newlines_continuation
    (fun cs m hm hf => ?_) (oneLine_lineComment.newlines plain_lineComment rfl)
    newlines_blockComment
    (oneLine_string.newlines plain_string rfl) (oneLine_number.newlines plain_number rfl)
    ((oneLine_run _ (by decide) (by decide)).newlines (plain_run _ _ _) rfl)
    (fun spelling hs => OneLine.newlines (oneLine_of_mem ?_) (plain_fixed _ _) rfl)
    (fun spelling hs => OneLine.newlines (oneLine_of_mem ?_) (plain_fixed _ _) rfl) rule h
  · have hkind := (plain_fixed _ _ cs m hm).1
    rw [take_eq_of_kind_newline (by simp [rules]) hm hkind, hkind]
    exact .single
  · -- a loose backslash is a fault
    unfold looseBackslash at hm
    split at hm
    · split at hm
      · cases hm
      · obtain rfl := Option.some.inj hm
        cases hf
    · cases hm
  · exact List.mem_append_left _ (List.mem_append_right _ (List.mem_map_of_mem hs))
  · exact List.mem_append_right _ (List.mem_map_of_mem hs)

end Rule

/-- **A continued newline is one token**, whatever stands behind it. -/
theorem Newlined.fits_continued {blanks : List Char}
    (h : ∀ c ∈ blanks, c ∈ ['\t', '\x0b', '\x0c', '\r', ' ']) (rest : List Char) :
    (Piece.mk .continuation ('\\' :: (blanks ++ ['\n'])) none).Fits rest := by
  obtain ⟨m, hm, hkind, hlength, hkeyword, hfault⟩ :=
    Rule.continuation_append (fun c hc => Rule.isBlank_iff_mem.2 (h c hc)) rest
  have htext : '\\' :: (blanks ++ ['\n']) ++ rest = '\\' :: (blanks ++ '\n' :: rest) := by simp
  refine .lexeme (m := m) ?_ hkind (by simp [hlength]) hkeyword hfault
  dsimp only
  rw [htext]
  refine Piece.longest_of_sole (by simp [rules]) hm fun rule' hrule' m' hm' => Or.inr ?_
  rcases Rule.eq_of_canBegin_backslash (Rule.canBegin_of_mem hrule' hm') with rfl | rfl
  · exact Option.some.inj (hm'.symm.trans hm)
  · simp [Rule.looseBackslash] at hm'

/-! ## The token that holds a place -/

/-- The next token of a cut is what stands there, a text of its kind. -/
theorem Cut.exists_newlined {text : List Char} {p : Nat} {r : Tokenization} (h : Cut text p r)
    {t : Token} {ts : List Token} (htokens : r.tokens = t :: ts) :
    ∃ rest, text.drop p = t.value.toList ++ rest ∧ Newlined t.kind t.value.toList := by
  cases h with
  | ended => cases htokens
  | fault => cases htokens
  | @lexeme _ m _ hp hm hf =>
    obtain ⟨rfl, -⟩ := List.cons.inj htokens
    obtain ⟨rank, ⟨rule, hrule, hfound⟩, -⟩ := hm
    have hnewlined := Rule.newlines_of_mem (List.mem_of_getElem? hrule) _ _ hfound hf
    simp only [tokenAt, String.toList_ofList, Nat.add_sub_cancel_left]
    exact ⟨_, (List.take_append_drop _ _).symm, hnewlined⟩
  | @word _ q _ hq =>
    obtain ⟨rfl, -⟩ := List.cons.inj htokens
    simp only [tokenAt, String.toList_ofList]
    refine ⟨_, (List.take_append_drop _ _).symm, .absent rfl fun hline => ?_⟩
    -- where a newline stands, a rule claims it
    obtain ⟨i, hi, hget⟩ := List.mem_iff_getElem.1 hline
    rw [List.getElem_take, List.getElem_drop] at hget
    rw [List.length_take] at hi
    obtain ⟨m, hm⟩ := exists_matches_newline (List.getElem?_eq_some_iff.2 ⟨_, hget⟩)
    exact hq.free (p + i) (Nat.le_add_right p i) (by omega) 1 m hm

namespace BeginsAt

variable {text : String} {p : Nat} {t : Token}

theorem exists_newlined (h : BeginsAt text p t) :
    ∃ rest, text.toList.drop p = t.value.toList ++ rest ∧ Newlined t.kind t.value.toList := by
  obtain ⟨before, after, htokens, rfl⟩ := h
  exact (cut_of_length htokens).exists_newlined rfl

theorem of_mem (h : t ∈ (tokenize text).tokens) : ∃ p, BeginsAt text p t := by
  obtain ⟨before, after, htokens⟩ := List.append_of_mem h
  exact ⟨_, before, after, htokens, rfl⟩

theorem reached (h : BeginsAt text p t) : Reached text p := by
  obtain ⟨before, after, htokens, rfl⟩ := h
  exact ⟨before, t :: after, htokens, rfl⟩

theorem value_length_pos (h : BeginsAt text p t) : 0 < t.value.length := by
  obtain ⟨before, after, htokens, -⟩ := h
  obtain ⟨stop, htiled, -⟩ := (cut_tokenize text).exists_tiled
  have hne := (htiled.forall_mem t (htokens ▸ List.mem_append_right _ List.mem_cons_self)).1
  rw [← String.length_toList]
  exact List.length_pos_iff.2 fun hnil => hne (String.toList_eq_nil_iff.1 hnil)

/-- The characters of a token are those of the text. -/
theorem getElem?_eq (h : BeginsAt text p t) {i : Nat} (hi : i < t.value.length) :
    text.toList[p + i]? = t.value.toList[i]? := by
  obtain ⟨rest, hrest, -⟩ := h.exists_newlined
  rw [← List.getElem?_drop, hrest, List.getElem?_append_left (by rwa [String.length_toList])]

end BeginsAt

/-- **The token that begins at `p` holds the place `q`.** -/
structure Holds (text : String) (q p : Nat) (t : Token) : Prop where
  begins : BeginsAt text p t
  le : p ≤ q
  lt : q < p + t.value.length

theorem Token.length_textOf_cons (t : Token) (ts : List Token) :
    (textOf (t :: ts)).length = t.value.length + (textOf ts).length := by
  have hcons : t :: ts = [t] ++ ts := rfl
  rw [hcons, textOf_append, String.length_append]
  simp [textOf, String.join]

/-- A place of a text of tokens lies in one of them. -/
theorem Token.exists_part (ts : List Token) {q : Nat} (h : q < (textOf ts).length) :
    ∃ before t after, ts = before ++ t :: after ∧ (textOf before).length ≤ q
      ∧ q < (textOf before).length + t.value.length := by
  induction ts generalizing q with
  | nil => exact absurd h (Nat.not_lt_zero q)
  | cons t ts ih =>
    rw [length_textOf_cons] at h
    by_cases hq : q < t.value.length
    · exact ⟨[], t, ts, rfl, Nat.zero_le q, by simpa [textOf, String.join] using hq⟩
    · obtain ⟨before, u, after, rfl, hle, hlt⟩ := @ih (q - t.value.length) (by omega)
      refine ⟨t :: before, u, after, rfl, ?_, ?_⟩ <;> rw [length_textOf_cons] <;> omega

/-- The tokens of a text that can be cut are all of it. -/
theorem textOf_tokens {text : String} {eof : Token} (h : (tokenize text).ending = .ok eof) :
    Token.textOf (tokenize text).tokens = text := by
  obtain ⟨stop, htiled, hstop⟩ := (cut_tokenize text).exists_tiled
  rw [h] at hstop
  cases hstop with
  | ended => rw [Token.textOf, htiled.join_values, List.take_length, String.ofList_toList]

/-- **Every place lies in a token**… -/
theorem exists_holds {text : String} {eof : Token} (h : (tokenize text).ending = .ok eof) {q : Nat}
    (hq : q < text.length) : ∃ p t, Holds text q p t := by
  rw [← textOf_tokens h] at hq
  obtain ⟨before, t, after, htokens, hle, hlt⟩ := Token.exists_part _ hq
  exact ⟨_, t, ⟨before, after, htokens, rfl⟩, hle, hlt⟩

/-- …**and in no other.** -/
theorem Holds.unique {text : String} {q p p' : Nat} {t t' : Token} (h : Holds text q p t)
    (h' : Holds text q p' t') : p = p' ∧ t = t' := by
  obtain ⟨⟨before, after, htokens, rfl⟩, hle, hlt⟩ := h
  obtain ⟨⟨before', after', htokens', rfl⟩, hle', hlt'⟩ := h'
  -- of two different tokens one ends before the other begins
  have hapart : ∀ (as : List Token) (u : Token) (bs : List Token),
      (Token.textOf as).length + u.value.length ≤ (Token.textOf (as ++ u :: bs)).length := by
    intro as u bs
    rw [Token.textOf_append, String.length_append, Token.length_textOf_cons]
    omega
  rcases List.append_eq_append_iff.1 (htokens.symm.trans htokens') with
    ⟨mid, rfl, hmid⟩ | ⟨mid, rfl, hmid⟩
  · cases mid with
    | nil =>
      obtain ⟨rfl, -⟩ := List.cons.inj hmid
      rw [List.append_nil]
      exact ⟨rfl, rfl⟩
    | cons u mid =>
      obtain ⟨rfl, -⟩ := List.cons.inj hmid
      have := hapart before t mid
      omega
  · cases mid with
    | nil =>
      obtain ⟨rfl, -⟩ := List.cons.inj hmid
      rw [List.append_nil]
      exact ⟨rfl, rfl⟩
    | cons u mid =>
      obtain ⟨rfl, -⟩ := List.cons.inj hmid
      have := hapart before' t' mid
      omega

theorem BeginsAt.holds {text : String} {p : Nat} {t : Token} (h : BeginsAt text p t) :
    Holds text p p t :=
  ⟨h, le_refl p, Nat.lt_add_of_pos_right h.value_length_pos⟩

/-! ## Where lines end -/

/-- **The place is in a text of that kind**, one that begins at a place that is reached. -/
def LiesIn (text : String) (kind : Kind) (q : Nat) : Prop :=
  ∃ p s rest, Reached text p ∧ text.toList.drop p = s ++ rest ∧ Newlined kind s ∧ p ≤ q
    ∧ q < p + s.length

/-- **A line ends at the place**: a newline stands there, and it is neither continued nor in a
comment. -/
structure EndsLineAt (text : String) (q : Nat) : Prop where
  newline : text.toList[q]? = some '\n'
  not_continued : ¬ LiesIn text .continuation q
  not_commented : ¬ LiesIn text .blockComment q

/-- A text that is one token there is the token that begins there. -/
theorem Reached.exists_beginsAt {text : String} {p : Nat} (h : Reached text p) {kind : Kind}
    {s rest : List Char} (htext : text.toList.drop p = s ++ rest)
    (hfits : (Piece.mk kind s none).Fits rest)
    (hkind : kind ≠ .word) :
    ∃ t, BeginsAt text p t ∧ t.kind = kind ∧ t.value = String.ofList s := by
  obtain ⟨before, after, htokens, rfl⟩ := h
  cases hfits with
  | unclaimed _ hword => exact absurd hword hkind
  | lexeme hm hkind' hlength _ hfault =>
    rw [← htext, longest_drop] at hm
    obtain ⟨r, hr⟩ := (cut_of_length htokens).exists_of_longest hm hfault
    obtain rfl := congrArg Tokenization.tokens hr
    exact ⟨_, ⟨before, r.tokens, htokens, rfl⟩, hkind', by rw [hlength, value_tokenAt htext]⟩

/-- **What is continued or in a comment is in such a token.** -/
theorem LiesIn.exists_holds {text : String} {kind : Kind} {q : Nat} (h : LiesIn text kind q)
    (hkind : kind = .continuation ∨ kind = .blockComment) :
    ∃ p t, Holds text q p t ∧ t.kind = kind := by
  obtain ⟨p, s, rest, hreached, htext, hs, hle, hlt⟩ := h
  have hfits : (Piece.mk kind s none).Fits rest := by
    cases hs with
    | single => simp at hkind
    | continued hblanks => exact Newlined.fits_continued hblanks rest
    | commented hbody => exact (Enclosed.blockComment hbody).fits
    | absent hspans =>
      rcases hkind with rfl | rfl
      · cases hspans
      · cases hspans
  obtain ⟨t, ht, hkind', hvalue⟩ :=
    hreached.exists_beginsAt htext hfits (by rcases hkind with rfl | rfl <;> decide)
  exact ⟨p, t, ⟨ht, hle, by rwa [hvalue, String.length_ofList]⟩, hkind'⟩

/-- The text of a token lies at a place that is reached. -/
theorem Holds.liesIn {text : String} {q p : Nat} {t : Token} (h : Holds text q p t) :
    LiesIn text t.kind q := by
  obtain ⟨rest, hrest, hnewlined⟩ := h.begins.exists_newlined
  exact ⟨p, _, rest, h.begins.reached, hrest, hnewlined, h.le,
    by rw [String.length_toList]; exact h.lt⟩

/-- The character of the text at a place is that of the token that holds it. -/
theorem Holds.getElem?_eq {text : String} {q p : Nat} {t : Token} (h : Holds text q p t) :
    t.value.toList[q - p]? = text.toList[q]? := by
  have hle := h.le
  have hlt := h.lt
  rw [← h.begins.getElem?_eq (by omega), Nat.add_sub_cancel' hle]

/-- **A newline in a token**: it is the token, the end of a continuation, or in a comment. -/
theorem Holds.newline_cases {text : String} {q p : Nat} {t : Token} (h : Holds text q p t)
    (hq : text.toList[q]? = some '\n') :
    (t.kind = .newline ∧ t.value = "\n" ∧ p = q)
    ∨ (t.kind = .continuation ∧ q + 1 = p + t.value.length
      ∧ ∃ blanks, (∀ c ∈ blanks, c ∈ ['\t', '\x0b', '\x0c', '\r', ' '])
        ∧ t.value = String.ofList ('\\' :: (blanks ++ ['\n'])))
    ∨ t.kind = .blockComment := by
  have hget := h.getElem?_eq.trans hq
  have hle := h.le
  have hlt := h.lt
  obtain ⟨rest, -, hnewlined⟩ := h.begins.exists_newlined
  rw [← String.length_toList] at hlt ⊢
  rw [← @String.ofList_toList t.value, String.toList_ofList]
  generalize t.kind = kind at hnewlined
  generalize t.value.toList = s at hnewlined hget hlt
  cases hnewlined with
  | single =>
    rw [List.length_singleton] at hlt
    exact Or.inl ⟨rfl, rfl, by omega⟩
  | @continued blanks hblanks =>
    refine Or.inr (Or.inl ⟨rfl, ?_, blanks, hblanks, rfl⟩)
    -- neither the backslash nor a blank is a newline
    by_contra hne
    have hfront : '\\' :: (blanks ++ ['\n']) = ('\\' :: blanks) ++ ['\n'] := rfl
    have hlength : q - p < ('\\' :: blanks).length := by
      rw [hfront, List.length_append, List.length_singleton] at hlt hne
      omega
    rw [hfront, List.getElem?_append_left hlength] at hget
    have hnone : ∀ c ∈ ['\t', '\x0b', '\x0c', '\r', ' '], c ≠ '\n' := by decide
    rcases List.mem_cons.1 (List.mem_of_getElem? hget) with hline | hline
    · exact absurd hline (by decide)
    · exact hnone _ (hblanks _ hline) rfl
  | commented => exact Or.inr (Or.inr rfl)
  | absent _ hnone => exact absurd (List.mem_of_getElem? hget) hnone

/-- **A line ends just where a newline token begins.** -/
theorem endsLineAt_iff {text : String} {eof : Token} (h : (tokenize text).ending = .ok eof)
    {q : Nat} :
    EndsLineAt text q ↔ ∃ t, BeginsAt text q t ∧ t.kind = .newline := by
  constructor
  · rintro ⟨hline, hcontinued, hcommented⟩
    have hq : q < text.length := by
      rw [← String.length_toList]
      exact (List.getElem?_eq_some_iff.1 hline).1
    obtain ⟨p, t, hholds⟩ := exists_holds h hq
    rcases hholds.newline_cases hline with ⟨hkind, -, rfl⟩ | ⟨hkind, -⟩ | hkind
    · exact ⟨t, hholds.begins, hkind⟩
    · exact absurd (hkind ▸ hholds.liesIn) hcontinued
    · exact absurd (hkind ▸ hholds.liesIn) hcommented
  · rintro ⟨t, ht, hkind⟩
    have hother {kind : Kind} (hlies : kind = .continuation ∨ kind = .blockComment) :
        ¬ LiesIn text kind q := by
      intro hin
      obtain ⟨p, u, hu, rfl⟩ := hin.exists_holds hlies
      obtain ⟨-, rfl⟩ := ht.holds.unique hu
      rw [hkind] at hlies
      rcases hlies with hlies | hlies <;> cases hlies
    refine ⟨?_, hother (Or.inl rfl), hother (Or.inr rfl)⟩
    obtain ⟨rest, hrest, hnewlined⟩ := ht.exists_newlined
    rw [hkind] at hnewlined
    generalize t.value.toList = s at hnewlined hrest
    cases hnewlined with
    | single => simpa using congrArg List.head? hrest
    | absent hspans => cases hspans

/-! ## How far a line reaches -/

namespace Outline

/-- A line begins with its directive and goes on up to the next newline token. -/
theorem exists_split_of_mem_lines {ts : List Token} {l : Line} (h : l ∈ lines ts) :
    ∃ before after, ts = before ++ l.token :: after
      ∧ l.args = (Item.lineTokens after).filter fun u => !u.isTrivia := by
  refine mem_lines_induction (motive := fun ts => ∃ before after, ts = before ++ l.token :: after
      ∧ l.args = (Item.lineTokens after).filter fun u => !u.isTrivia)
    (fun ts _ hargs => ⟨[], ts, rfl, hargs⟩) (fun t ts _ _ ih => ?_) (fun front u ts _ _ ih => ?_) h
  · obtain ⟨before, after, rfl, hargs⟩ := ih
    exact ⟨t :: before, after, rfl, hargs⟩
  · obtain ⟨before, after, rfl, hargs⟩ := ih
    exact ⟨front ++ u :: before, after, by simp, hargs⟩

/-- **The line reaches from `p` to `e`**: its tokens begin and end there, no line ends before, and
one ends at `e` unless the text does. -/
structure Reaches (text : String) (l : Line) (p e : Nat) : Prop where
  tokens : ∃ before body after, (tokenize text).tokens = before ++ (l.token :: body) ++ after
    ∧ (Token.textOf before).length = p ∧ (Token.textOf (before ++ l.token :: body)).length = e
    ∧ l.args = body.filter fun u => !u.isTrivia
  first : ∀ q, p ≤ q → q < e → ¬ EndsLineAt text q
  ends : EndsLineAt text e ∨ e = text.length

/-- **A directive line reaches up to the first place where a line ends.** -/
theorem exists_reaches {text : String} {eof : Token} (h : (tokenize text).ending = .ok eof)
    {l : Line} (hl : l ∈ lines (tokenize text).tokens) : ∃ p e, Reaches text l p e := by
  obtain ⟨before, after, htokens, hargs⟩ := exists_split_of_mem_lines hl
  have hkind : l.token.kind = .directive :=
    (Token.directive?_eq_some_iff.1 (directive?_token_of_mem_lines hl)).1
  have hline : ∀ t ∈ l.token :: Item.lineTokens after, t.kind ≠ .newline := by
    refine List.forall_mem_cons.2 ⟨by rw [hkind]; decide, fun t ht => ?_⟩
    simpa using List.mem_takeWhile_imp ht
  have hsplit : (tokenize text).tokens = before ++ (l.token :: Item.lineTokens after)
      ++ after.dropWhile fun t => t.kind != .newline := by
    rw [htokens, List.append_assoc, List.cons_append, Item.lineTokens,
      List.takeWhile_append_dropWhile]
  refine ⟨_, _, ⟨before, _, _, hsplit, rfl, rfl, hargs⟩, fun q hp he hends => ?_, ?_⟩
  · -- the place lies in a token of the line, which is no newline
    obtain ⟨t, ht, hnewline⟩ := (endsLineAt_iff h).1 hends
    rw [Token.textOf_append, String.length_append] at he
    obtain ⟨front, u, back, hpart, hle, hlt⟩ :=
      Token.exists_part (l.token :: Item.lineTokens after)
        (q := q - (Token.textOf before).length) (by omega)
    have hu : Holds text q ((Token.textOf before).length + (Token.textOf front).length) u := by
      refine ⟨⟨before ++ front, back ++ after.dropWhile fun t => t.kind != .newline, ?_, ?_⟩,
        by omega, by omega⟩
      · rw [hsplit, hpart]
        simp
      · rw [Token.textOf_append, String.length_append]
    obtain ⟨-, rfl⟩ := ht.holds.unique hu
    exact hline t (hpart ▸ List.mem_append_right _ List.mem_cons_self) hnewline
  · cases hrest : after.dropWhile fun t => t.kind != .newline with
    | nil =>
      rw [hrest, List.append_nil] at hsplit
      rw [← hsplit, textOf_tokens h]
      exact Or.inr rfl
    | cons t rest =>
      rw [hrest] at hsplit
      have hnewline : t.kind = .newline := by
        have hhead := List.head?_dropWhile_not (fun t : Token => t.kind != .newline) after
        rw [hrest] at hhead
        simpa using hhead
      exact Or.inl ((endsLineAt_iff h).2 ⟨t, ⟨_, rest, hsplit, rfl⟩, hnewline⟩)

end Outline

/-- **The newlines of a text.**  Each lies in one token, as the whole of it, as the end of a
backslash and blanks, or in a comment, and no token of another kind has a newline.  So a directive
line reaches up to the first newline that is neither continued nor in a comment, or to the end of
the text. -/
theorem tokenize_newlines {text : String} {eof : Token} (h : (tokenize text).ending = .ok eof) :
    (∀ q, text.toList[q]? = some '\n' →
      ∃ p t, (∀ p' t', Holds text q p' t' ↔ p' = p ∧ t' = t)
        ∧ ((t.kind = .newline ∧ t.value = "\n" ∧ p = q)
          ∨ (t.kind = .continuation ∧ q + 1 = p + t.value.length
            ∧ ∃ blanks, (∀ c ∈ blanks, c ∈ ['\t', '\x0b', '\x0c', '\r', ' '])
              ∧ t.value = String.ofList ('\\' :: (blanks ++ ['\n'])))
          ∨ t.kind = .blockComment))
    ∧ (∀ t ∈ (tokenize text).tokens, '\n' ∈ t.value.toList →
        t.kind = .newline ∨ t.kind = .continuation ∨ t.kind = .blockComment)
    ∧ ∀ l ∈ Outline.lines (tokenize text).tokens, ∃ p e, Outline.Reaches text l p e := by
  refine ⟨fun q hq => ?_, fun t ht hline => ?_, fun l hl => Outline.exists_reaches h hl⟩
  · have hlt : q < text.length := by
      rw [← String.length_toList]
      exact (List.getElem?_eq_some_iff.1 hq).1
    obtain ⟨p, t, hholds⟩ := exists_holds h hlt
    refine ⟨p, t, fun p' t' => ⟨fun h' => h'.unique hholds, ?_⟩, hholds.newline_cases hq⟩
    rintro ⟨rfl, rfl⟩
    exact hholds
  · obtain ⟨p, hp⟩ := BeginsAt.of_mem ht
    obtain ⟨-, -, hnewlined⟩ := hp.exists_newlined
    generalize t.kind = kind at hnewlined
    generalize t.value.toList = s at hnewlined hline
    cases hnewlined with
    | single => exact Or.inl rfl
    | continued => exact Or.inr (Or.inl rfl)
    | commented => exact Or.inr (Or.inr rfl)
    | absent _ hnone => exact absurd hline hnone

/-- A line that goes on over a backslash and a comment, and ends behind a line comment with a
backslash. -/
theorem tokenize_newlines_if_line :
    (∃ t, BeginsAt "#if \\ \n/*\n*/A//\\\nB" 4 t ∧ t.kind = .continuation
      ∧ ∀ p' t', Holds "#if \\ \n/*\n*/A//\\\nB" 6 p' t' ↔ p' = 4 ∧ t' = t)
    ∧ ∃ l ∈ Outline.lines (tokenize "#if \\ \n/*\n*/A//\\\nB").tokens, l.args.map Token.value
      = ["A"]
      ∧ ∃ p e, Outline.Reaches "#if \\ \n/*\n*/A//\\\nB" l p e := by
  have htokens : (tokenize "#if \\ \n/*\n*/A//\\\nB").tokens
      = [⟨.directive, "#if", ⟨1, 1⟩, ⟨0, 3⟩, some .ifExpr⟩,
        ⟨.whitespace, " ", ⟨1, 4⟩, ⟨3, 4⟩, none⟩]
        ++ ⟨.continuation, "\\ \n", ⟨1, 5⟩, ⟨4, 7⟩, none⟩
          :: [⟨.blockComment, "/*\n*/", ⟨2, 1⟩, ⟨7, 12⟩, none⟩,
            ⟨.word, "A", ⟨3, 3⟩, ⟨12, 13⟩, none⟩, ⟨.lineComment, "//\\", ⟨3, 4⟩, ⟨13, 16⟩, none⟩,
            ⟨.newline, "\n", ⟨3, 7⟩, ⟨16, 17⟩, none⟩, ⟨.word, "B", ⟨4, 1⟩, ⟨17, 18⟩, none⟩] := by
    rw [tokenize_eq_steps]
    decide +kernel
  have hok :
      (tokenize "#if \\ \n/*\n*/A//\\\nB").ending = .ok ⟨.eof, "", ⟨4, 2⟩, ⟨18, 18⟩, none⟩ := by
    rw [tokenize_eq_steps]
    decide +kernel
  obtain ⟨hplaces, -, hlines⟩ := tokenize_newlines hok
  obtain ⟨p, t, hholds, -⟩ := hplaces 6 (by decide)
  have hcontinued :
      BeginsAt "#if \\ \n/*\n*/A//\\\nB" 4 ⟨.continuation, "\\ \n", ⟨1, 5⟩, ⟨4, 7⟩, none⟩ :=
    ⟨_, _, htokens, by decide⟩
  obtain ⟨rfl, rfl⟩ := (hholds 4 _).1 ⟨hcontinued, by decide, by decide⟩
  have hmem : ⟨⟨.directive, "#if", ⟨1, 1⟩, ⟨0, 3⟩, some .ifExpr⟩, .ifExpr,
      [⟨.word, "A", ⟨3, 3⟩, ⟨12, 13⟩, none⟩]⟩ ∈ Outline.lines
      (tokenize "#if \\ \n/*\n*/A//\\\nB").tokens := by
    rw [Outline.lines_eq_directiveLines, htokens]
    decide +kernel
  exact ⟨⟨_, hcontinued, rfl, hholds⟩, _, hmem, rfl, hlines _ hmem⟩

end IncludeScan
