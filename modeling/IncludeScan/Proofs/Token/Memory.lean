import IncludeScan.Proofs.Token.Cut
import Mathlib.Data.List.Induction

/-!
# Proofs/Token/Memory — the scanner cuts a text as if it had no memory

The scanner remembers an occurrence of each rule and looks again only when that lies behind.  This
changes nothing because a memory stays true while the scanner moves on (`Memo.Sound.mono`): an
occurrence in front of it is still the first, and what was nowhere to be found still is not.

`tokenize_eq_iff_cut` — the tokens of a text, and its end or its error, are those of `Cut`.
-/

namespace IncludeScan

/-! ## What a rule finds from a place on -/

/-- **The first occurrence of a rule at `p` or behind it.** -/
def First (text : List Char) (p : Nat) (rule : Rule) : Option Occurrence → Prop
  | none => ∀ i, p ≤ i → i < text.length → rule (text.drop i) = none
  | some o => p ≤ o.start ∧ o.start < text.length ∧ rule (text.drop o.start) = some o.lexeme
    ∧ ∀ i, p ≤ i → i < o.start → rule (text.drop i) = none

/-- Looking from the next place on, if the rule finds nothing here. -/
theorem First.of_succ {text : List Char} {p : Nat} {rule : Rule} (hp : rule (text.drop p) = none) :
    ∀ {o? : Option Occurrence}, First text (p + 1) rule o? → First text p rule o?
  | none, h => fun i hi hlt => by
      rcases eq_or_lt_of_le hi with rfl | hi
      · exact hp
      · exact h i hi hlt
  | some o, ⟨hstart, hlt, hm, hfree⟩ => by
      refine ⟨by omega, hlt, hm, fun i hi hio => ?_⟩
      rcases eq_or_lt_of_le hi with rfl | hi
      · exact hp
      · exact hfree i hi hio

/-- **The search of a rule finds its first occurrence.** -/
theorem first_findFrom {text : List Char} (rule : Rule) :
    ∀ (cs : List Char) (p : Nat), text.drop p = cs → First text p rule (rule.findFrom p cs)
  | [], p, h => fun i hi hlt => by
      have := List.drop_eq_nil_iff.1 h
      omega
  | c :: cs, p, h => by
      have hlt : p < text.length := by
        by_contra hge
        rw [List.drop_eq_nil_of_le (by omega)] at h
        cases h
      have htail : text.drop (p + 1) = cs := by
        rw [← List.tail_drop, h]
        rfl
      rw [Rule.findFrom]
      cases hrule : rule (c :: cs) with
      | none => exact (first_findFrom rule cs (p + 1) htail).of_succ (h ▸ hrule)
      | some m => exact ⟨le_refl p, hlt, by rw [h, hrule], fun i hi hip => absurd hip hi.not_gt⟩

/-- A lexeme at `p` is the first occurrence from there on. -/
theorem First.eq_of_match {text : List Char} {p : Nat} {rule : Rule} {o? : Option Occurrence}
    (h : First text p rule o?) (hp : p < text.length) {m : Lexeme}
    (hm : rule (text.drop p) = some m) :
    o? = some ⟨p, m⟩ := by
  cases o? with
  | none => exact absurd ((h p (le_refl p) hp).symm.trans hm) (by simp)
  | some o =>
    obtain ⟨hstart, -, hrule, hfree⟩ := h
    obtain ⟨start, lexeme⟩ := o
    obtain rfl : p = start := by
      by_contra hne
      exact absurd ((hfree p (le_refl p) (lt_of_le_of_ne hstart hne)).symm.trans hm) (by simp)
    obtain rfl : lexeme = m := Option.some.inj (hrule.symm.trans hm)
    rfl

/-! ## The memory of a rule -/

/-- **A memory is true at `p`**: what it holds is the first occurrence there, if that is not
behind. -/
def Memo.Sound (text : List Char) (p : Nat) (rule : Rule) : Memo → Prop
  | .unknown => True
  | .absent => First text p rule none
  | .found o => o.start < p ∨ First text p rule (some o)

/-- **A memory stays true** while the scanner moves on. -/
theorem Memo.Sound.mono {text : List Char} {p q : Nat} {rule : Rule} (hle : p ≤ q) :
    ∀ {memo : Memo}, memo.Sound text p rule → memo.Sound text q rule
  | .unknown, _ => trivial
  | .absent, h => fun i hi => h i (hle.trans hi)
  | .found o, h => by
      rcases lt_or_ge o.start q with hlt | hge
      · exact Or.inl hlt
      · rcases h with hlt | ⟨-, hlt, hm, hfree⟩
        · exact Or.inl (hlt.trans_le hle)
        · exact Or.inr ⟨hge, hlt, hm, fun i hi => hfree i (hle.trans hi)⟩

theorem Memo.occurrence?_ofSearch (o? : Option Occurrence) :
    (Memo.ofSearch o?).occurrence? = o? := by
  cases o? <;> rfl

/-- **A memory that was brought up to date holds the first occurrence.** -/
theorem Memo.first_refresh {text : List Char} {p : Nat} {rule : Rule} {memo : Memo}
    (h : memo.Sound text p rule) :
    First text p rule (memo.refresh p (text.drop p) rule).occurrence? := by
  have hsearch := first_findFrom rule (text.drop p) p rfl
  cases memo with
  | unknown => rwa [refresh, occurrence?_ofSearch]
  | absent => exact h
  | found o =>
    rw [refresh]
    split_ifs with hlt
    · rwa [occurrence?_ofSearch]
    · exact h.resolve_left hlt

theorem Memo.sound_of_first {text : List Char} {p : Nat} {rule : Rule} :
    ∀ {memo : Memo}, First text p rule memo.occurrence? → memo.Sound text p rule
  | .unknown, _ => trivial
  | .absent, h => h
  | .found _, h => Or.inr h

/-! ## The occurrence that comes first -/

/-- **The best of the occurrences remembered**: it comes before those of lower rank, and those of
higher rank do not come before it. -/
structure Best (memos : List Memo) (rank : Nat) (o : Occurrence) : Prop where
  here : memos[rank]? = some (.found o)
  before : ∀ (i : Nat) o', i < rank → memos[i]? = some (.found o') → o.precedes o' = true
  after : ∀ (i : Nat) o', memos[i]? = some (.found o') → o'.precedes o = false

theorem Occurrence.precedes_iff {a b : Occurrence} :
    a.precedes b = true
      ↔ a.start < b.start ∨ (a.start = b.start ∧ b.lexeme.length < a.lexeme.length) := by
  simp [precedes]

theorem Occurrence.precedes_eq_false_iff {a b : Occurrence} :
    a.precedes b = false
      ↔ b.start < a.start ∨ (a.start = b.start ∧ a.lexeme.length ≤ b.lexeme.length) := by
  rw [← Bool.not_eq_true, precedes_iff]
  omega

theorem Scanner.earliest_concat (memos : List Memo) (memo : Memo) :
    earliest (memos ++ [memo]) = match memo.occurrence? with
      | none => earliest memos
      | some o => Occurrence.better (earliest memos) o := by
  cases h : memo.occurrence? <;> simp [earliest, h]

theorem getElem?_concat_eq_some {α : Type} {l : List α} {a b : α} {i : Nat} :
    (l ++ [a])[i]? = some b ↔ l[i]? = some b ∨ (i = l.length ∧ a = b) := by
  rcases lt_trichotomy i l.length with hi | rfl | hi
  · rw [List.getElem?_append_left hi]
    exact ⟨Or.inl, fun h => h.resolve_right fun ⟨he, _⟩ => absurd he (by omega)⟩
  · simp
  · rw [List.getElem?_eq_none (by simp; omega), List.getElem?_eq_none (by omega)]
    simp
    omega

theorem Memo.occurrence?_eq_some {memo : Memo} {o : Occurrence} :
    memo.occurrence? = some o ↔ memo = .found o := by
  cases memo <;> simp [occurrence?]

/-- There is no earliest occurrence only if none is remembered. -/
theorem Scanner.earliest_eq_none {memos : List Memo} (h : earliest memos = none) (i : Nat)
    (o : Occurrence) : memos[i]? ≠ some (.found o) := by
  induction memos using List.reverseRecOn with
  | nil => simp
  | append_singleton memos memo ih =>
    rw [earliest_concat] at h
    cases hmemo : memo.occurrence? with
    | none =>
      rw [hmemo] at h
      intro hi
      rcases getElem?_concat_eq_some.1 hi with hi | ⟨-, rfl⟩
      · exact ih h hi
      · cases hmemo
    | some x =>
      rw [hmemo] at h
      unfold Occurrence.better at h
      dsimp only at h
      split at h
      · cases h
      · split at h <;> cases h

/-- One more memory changes nothing, unless its occurrence comes before the best. -/
theorem Best.concat {memos : List Memo} {rank : Nat} {o : Occurrence} (h : Best memos rank o)
    {memo : Memo} (hmemo : ∀ o', memo = .found o' → o'.precedes o = false) :
    Best (memos ++ [memo]) rank o where
  here := getElem?_concat_eq_some.2 (Or.inl h.here)
  before i o' hi hio := by
    have hrank := (List.getElem?_eq_some_iff.1 h.here).1
    rcases getElem?_concat_eq_some.1 hio with hio | ⟨rfl, -⟩
    · exact h.before i o' hi hio
    · omega
  after i o' hio := by
    rcases getElem?_concat_eq_some.1 hio with hio | ⟨-, rfl⟩
    · exact h.after i o' hio
    · exact hmemo o' rfl

/-- One more memory whose occurrence comes before all others is the best. -/
theorem Best.last {memos : List Memo} {x : Occurrence}
    (h : ∀ (i : Nat) o', memos[i]? = some (.found o') → x.precedes o' = true) :
    Best (memos ++ [.found x]) memos.length x where
  here := getElem?_concat_eq_some.2 (Or.inr ⟨rfl, rfl⟩)
  before i o' hi hio := by
    rcases getElem?_concat_eq_some.1 hio with hio | ⟨rfl, -⟩
    · exact h i o' hio
    · omega
  after i o' hio := by
    rw [Occurrence.precedes_eq_false_iff]
    rcases getElem?_concat_eq_some.1 hio with hio | ⟨-, heq⟩
    · have := Occurrence.precedes_iff.1 (h i o' hio)
      omega
    · obtain rfl := Memo.found.inj heq
      exact Or.inr ⟨rfl, le_refl _⟩

/-- **The earliest occurrence is the best one.** -/
theorem Scanner.exists_best {memos : List Memo} {o : Occurrence} (h : earliest memos = some o) :
    ∃ rank, Best memos rank o := by
  induction memos using List.reverseRecOn generalizing o with
  | nil => cases h
  | append_singleton memos memo ih =>
    rw [earliest_concat] at h
    cases hmemo : memo.occurrence? with
    | none =>
      rw [hmemo] at h
      obtain ⟨rank, hbest⟩ := ih h
      refine ⟨rank, hbest.concat fun o' ho' => ?_⟩
      rw [ho'] at hmemo
      cases hmemo
    | some x =>
      rw [hmemo] at h
      obtain rfl := Memo.occurrence?_eq_some.1 hmemo
      cases hb : earliest memos with
      | none =>
        rw [hb] at h
        obtain rfl : x = o := Option.some.inj h
        exact ⟨_, .last fun i o' hi => absurd hi (earliest_eq_none hb i o')⟩
      | some b =>
        simp only [hb, Occurrence.better] at h
        obtain ⟨rank, hbest⟩ := ih hb
        split_ifs at h with hx
        · obtain rfl : x = o := Option.some.inj h
          refine ⟨_, .last fun i o' hi => ?_⟩
          have h₁ := Occurrence.precedes_eq_false_iff.1 (hbest.after i o' hi)
          have h₂ := Occurrence.precedes_iff.1 hx
          rw [Occurrence.precedes_iff]
          omega
        · obtain rfl : b = o := Option.some.inj h
          refine ⟨rank, hbest.concat fun o' ho' => ?_⟩
          rw [← Memo.found.inj ho']
          exact Bool.not_eq_true _ ▸ hx

/-! ## The scanner -/

namespace Scanner

variable {text : List Char} {s : Scanner}

/-- The memories of the rules, rank by rank, are related to the rules in this way. -/
structure InStep (P : Rule → Memo → Prop) (memos : List Memo) : Prop where
  length_eq : memos.length = rules.length
  get :
    ∀ {rank : Nat} {rule memo}, rules[rank]? = some rule → memos[rank]? = some memo → P rule memo

theorem InStep.exists_memo {P : Rule → Memo → Prop} {memos : List Memo} (h : InStep P memos)
    {rank : Nat} {rule : Rule} (hrule : rules[rank]? = some rule) :
    ∃ memo, memos[rank]? = some memo ∧ P rule memo := by
  have hlt : rank < memos.length := h.length_eq ▸ (List.getElem?_eq_some_iff.1 hrule).1
  exact ⟨memos[rank], List.getElem?_eq_getElem hlt, h.get hrule (List.getElem?_eq_getElem hlt)⟩

theorem InStep.exists_rule {P : Rule → Memo → Prop} {memos : List Memo} (h : InStep P memos)
    {rank : Nat} {memo : Memo} (hmemo : memos[rank]? = some memo) :
    ∃ rule, rules[rank]? = some rule ∧ P rule memo := by
  have hlt : rank < rules.length := h.length_eq ▸ (List.getElem?_eq_some_iff.1 hmemo).1
  exact ⟨rules[rank], List.getElem?_eq_getElem hlt, h.get (List.getElem?_eq_getElem hlt) hmemo⟩

/-- **A scanner stands at its place of the text**, and its memories are true there. -/
structure Synced (text : List Char) (s : Scanner) : Prop where
  le : s.position ≤ text.length
  rest : s.rest = text.drop s.position
  offset : s.offset = Text.unitCount (text.take s.position)
  cursor : s.cursor = cursorAt text s.position
  memos : InStep (Memo.Sound text s.position) s.memos

theorem synced_ofText (text : List Char) : Synced text (ofText text) where
  le := Nat.zero_le _
  rest := rfl
  offset := rfl
  cursor := rfl
  memos := by
    refine ⟨List.length_map _, fun {rank rule memo} _ hmemo => ?_⟩
    rw [ofText, List.getElem?_map, Option.map_eq_some_iff] at hmemo
    obtain ⟨-, -, rfl⟩ := hmemo
    trivial

theorem Synced.refreshed (h : Synced text s) :
    InStep (fun rule memo => First text s.position rule memo.occurrence?) s.refreshed where
  length_eq := by rw [Scanner.refreshed, List.length_zipWith, h.memos.length_eq, min_self]
  get {rank rule memo} hrule hmemo := by
    obtain ⟨rule', old, hrule', hold, rfl⟩ := List.getElem?_zipWith_eq_some.1 hmemo
    obtain rfl := Option.some.inj (hrule.symm.trans hrule')
    rw [h.rest]
    exact Memo.first_refresh (h.memos.get hrule hold)

/-- Where a rule finds something, its memory holds an occurrence that is no further on. -/
theorem Synced.exists_found (h : Synced text s) {i rank : Nat} {m : Lexeme} (hi : s.position ≤ i)
    (hm : Matches text i rank m) (hlt : i < text.length) :
    ∃ o, s.refreshed[rank]? = some (.found o) ∧ o.start ≤ i := by
  obtain ⟨rule, hrule, hm⟩ := hm
  obtain ⟨memo, hmemo, hfirst⟩ := h.refreshed.exists_memo hrule
  cases ho : memo.occurrence? with
  | none =>
    rw [ho] at hfirst
    exact absurd ((hfirst i hi hlt).symm.trans hm) (by simp)
  | some o =>
    rw [ho] at hfirst
    refine ⟨o, Memo.occurrence?_eq_some.1 ho ▸ hmemo, ?_⟩
    by_contra hstart
    exact absurd ((hfirst.2.2.2 i hi (not_le.1 hstart)).symm.trans hm) (by simp)

theorem Synced.first_of_found (h : Synced text s) {rank : Nat} {o : Occurrence}
    (ho : s.refreshed[rank]? = some (.found o)) :
    ∃ rule, rules[rank]? = some rule ∧ First text s.position rule (some o) :=
  h.refreshed.exists_rule ho

/-- **An earliest occurrence at the scanner's place is the longest lexeme there.** -/
theorem Synced.longest (h : Synced text s) {o : Occurrence} (ho : earliest s.refreshed = some o)
    (hstart : o.start = s.position) : Longest text s.position o.lexeme := by
  obtain ⟨rank, hbest⟩ := exists_best ho
  obtain ⟨rule, hrule, -, hlt, hm, -⟩ := h.first_of_found hbest.here
  rw [hstart] at hlt hm
  refine ⟨rank, ⟨rule, hrule, hm⟩, fun rank' m' ⟨rule', hrule', hm'⟩ => ?_⟩
  obtain ⟨memo, hmemo, hfirst⟩ := h.refreshed.exists_memo hrule'
  have hfound := Memo.occurrence?_eq_some.1 (hfirst.eq_of_match hlt hm')
  rw [hfound] at hmemo
  have hafter := Occurrence.precedes_eq_false_iff.1 (hbest.after rank' _ hmemo)
  have hle : m'.length ≤ o.lexeme.length := by
    dsimp only at hafter
    omega
  rcases lt_or_ge rank' rank with hrank | hrank
  · have hbefore := Occurrence.precedes_iff.1 (hbest.before rank' _ hrank hmemo)
    dsimp only at hbefore
    omega
  · omega

/-- **Up to an earliest occurrence further on, nothing is claimed.** -/
theorem Synced.unclaimed_of_lt (h : Synced text s) {o : Occurrence}
    (ho : earliest s.refreshed = some o) (hstart : s.position < o.start) :
    Unclaimed text s.position o.start := by
  obtain ⟨rank, hbest⟩ := exists_best ho
  obtain ⟨rule, hrule, -, hlt, hm, -⟩ := h.first_of_found hbest.here
  refine ⟨hstart, hlt.le, fun i hi hio rank' m' hm' => ?_, Or.inr ⟨rank, o.lexeme, rule, hrule, hm⟩⟩
  obtain ⟨o', ho', hstart'⟩ := h.exists_found hi hm' (hio.trans hlt)
  have hafter := Occurrence.precedes_eq_false_iff.1 (hbest.after rank' o' ho')
  omega

/-- **Without an occurrence nothing is claimed up to the end.** -/
theorem Synced.unclaimed_of_none (h : Synced text s) (ho : earliest s.refreshed = none)
    (hlt : s.position < text.length) : Unclaimed text s.position text.length := by
  refine ⟨hlt, le_refl _, fun i hi hlt rank m hm => ?_, Or.inl rfl⟩
  obtain ⟨o, hfound, -⟩ := h.exists_found hi hm hlt
  exact earliest_eq_none ho rank o hfound

theorem Synced.length_rest (h : Synced text s) : s.rest.length = text.length - s.position := by
  rw [h.rest, List.length_drop]

/-- **What the scanner chooses**: nothing at the end; else the longest lexeme at its place, or a
word that takes an unclaimed part. -/
theorem Synced.chosen? (h : Synced text s) :
    (s.position = text.length ∧ s.chosen? s.refreshed = none)
    ∨ (s.position < text.length ∧ ∃ m, s.chosen? s.refreshed = some m ∧ Longest text s.position m)
    ∨ ∃ q, ∃ hq : Unclaimed text s.position q,
      s.chosen? s.refreshed = some (unclaimed (q - s.position) (Nat.sub_pos_of_lt hq.lt)) := by
  have hlen := h.length_rest
  have hle := h.le
  unfold Scanner.chosen?
  split_ifs with hpos
  · have hlt : s.position < text.length := by omega
    cases ho : earliest s.refreshed with
    | none =>
      refine Or.inr (Or.inr ⟨text.length, h.unclaimed_of_none ho hlt, ?_⟩)
      simp only [hlen]
    | some o =>
      dsimp only
      split_ifs with hstart
      · exact Or.inr (Or.inr ⟨o.start, h.unclaimed_of_lt ho hstart, rfl⟩)
      · obtain ⟨rank, hbest⟩ := exists_best ho
        obtain ⟨-, -, hge, -⟩ := h.first_of_found hbest.here
        exact Or.inr (Or.inl ⟨hlt, o.lexeme, rfl, h.longest ho (le_antisymm (not_lt.1 hstart) hge)⟩)
  · exact Or.inl ⟨by omega, rfl⟩

/-! ## A run of the scanner -/

/-- The characters of a lexeme, and what the text is up to their end. -/
theorem Synced.take_add (h : Synced text s) (n : Nat) :
    text.take (s.position + n) = text.take s.position ++ s.rest.take n := by
  rw [h.rest, List.take_add]

/-- **Moving over a lexeme within the text keeps the scanner at its place.** -/
theorem Synced.advance (h : Synced text s) {m : Lexeme}
    (hle : s.position + m.length ≤ text.length) :
    Synced text (s.advance m s.refreshed) where
  le := hle
  rest := by
    change s.rest.drop m.length = text.drop (s.position + m.length)
    rw [h.rest, List.drop_drop]
  offset := by
    change s.offset + Text.unitCount (s.rest.take m.length)
      = Text.unitCount (text.take (s.position + m.length))
    rw [h.take_add, Text.unitCount_append, h.offset]
  cursor := by
    change s.cursor.advance (s.rest.take m.length) = cursorAt text (s.position + m.length)
    rw [cursorAt, h.take_add, Cursor.advance_append, h.cursor, cursorAt]
  memos := ⟨h.refreshed.length_eq, fun hrule hmemo =>
    (Memo.sound_of_first (h.refreshed.get hrule hmemo)).mono (Nat.le_add_right _ _)⟩

theorem Synced.token_eq (h : Synced text s) (m : Lexeme) :
    s.token m = tokenAt text m.kind m.keyword s.position (s.position + m.length) := by
  rw [token, tokenAt, h.take_add, Text.unitCount_append, ← h.offset, ← h.cursor, ← h.rest,
    Nat.add_sub_cancel_left]

theorem Synced.eofToken_eq (h : Synced text s) (hend : s.position = text.length) :
    s.eofToken = tokenAt text .eof none text.length text.length := by
  rw [eofToken, tokenAt, h.cursor, h.offset, hend, Nat.sub_self]
  rfl

/-- **The run of a scanner cuts the text from its place on.** -/
theorem Synced.cut_run (h : Synced text s) : Cut text s.position s.run := by
  fun_induction Scanner.run s with
  | case1 s hnone =>
    rcases h.chosen? with ⟨hend, -⟩ | ⟨-, m, hm, -⟩ | ⟨q, hq, hm⟩
    · rw [h.eofToken_eq hend, hend]
      exact .ended
    · exact absurd (hnone.symm.trans hm) (by simp)
    · exact absurd (hnone.symm.trans hm) (by simp)
  | case2 s m hm f hf =>
    rcases h.chosen? with ⟨-, hnone⟩ | ⟨hlt, m', hm', hlong⟩ | ⟨q, hq, hm'⟩
    · exact absurd (hm.symm.trans hnone) (by simp)
    · obtain rfl := Option.some.inj (hm.symm.trans hm')
      rw [h.cursor]
      exact .fault hlt hlong hf
    · obtain rfl := Option.some.inj (hm.symm.trans hm')
      cases hf
  | case3 s m hm hf _ ih =>
    rcases h.chosen? with ⟨-, hnone⟩ | ⟨hlt, m', hm', hlong⟩ | ⟨q, hq, hm'⟩
    · exact absurd (hm.symm.trans hnone) (by simp)
    · obtain rfl := Option.some.inj (hm.symm.trans hm')
      rw [h.token_eq]
      exact .lexeme hlt hlong hf (ih (h.advance (hlong.length_le hlt)))
    · obtain rfl := Option.some.inj (hm.symm.trans hm')
      have hlen : s.position + (q - s.position) = q := Nat.add_sub_cancel' hq.lt.le
      have hrest := ih (h.advance (by simpa only [unclaimed, hlen] using hq.le))
      rw [h.token_eq]
      simp only [Scanner.advance, unclaimed, hlen] at hrest ⊢
      exact .word hq hrest

end Scanner

/-- **The tokens of a text, and its end or its error, are those of the cut without a memory**: at
each place the longest lexeme of the lowest rank, or the word up to the next place where a rule
finds something. -/
theorem tokenize_eq_iff_cut (text : String) (r : Tokenization) :
    tokenize text = r ↔ Cut text.toList 0 r := by
  have hcut : Cut text.toList 0 (tokenize text) := (Scanner.synced_ofText text.toList).cut_run
  constructor
  · rintro rfl
    exact hcut
  · exact hcut.unique

end IncludeScan
