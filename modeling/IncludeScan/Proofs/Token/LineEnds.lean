import IncludeScan.Proofs.Token.Classes
import IncludeScan.Proofs.Token.Run

/-!
# Proofs/Token/LineEnds — the tokens on one side of a line end do not depend on the other side

No rule looks over a line end, except that a block comment goes on until it is closed.  So in a text
that ends with a line end and can be cut, each lexeme stays what it is when more text follows
(`Cut.append`), and what follows is cut as it would be on its own, only further down (`Cut.behind`).

`tokenize_append` — the tokens of two texts, the first of which ends with a line end.
-/

namespace IncludeScan

/-! ## What a rule finds in front of a line end -/

namespace Rule

/-- **More text behind a line end** changes nothing for the rule, unless it found an open
comment. -/
def LineBound (rule : Rule) : Prop :=
  ∀ cs v, rule (cs ++ '\n' :: v) = rule (cs ++ ['\n'])
    ∨ ∃ tail, cs ++ ['\n'] = '/' :: '*' :: tail ∧ closing? tail = none

theorem isPrefixOf_line {spelling : List Char} (h : '\n' ∉ spelling.dropLast) (cs v : List Char) :
    spelling.isPrefixOf (cs ++ '\n' :: v) = spelling.isPrefixOf (cs ++ ['\n']) := by
  induction spelling generalizing cs with
  | nil => rw [List.isPrefixOf_nil_left, List.isPrefixOf_nil_left]
  | cons a spelling ih =>
    cases cs with
    | nil =>
      cases spelling with
      | nil => simp [List.isPrefixOf]
      | cons b spelling =>
        have ha : (a == '\n') = false := beq_eq_false_iff_ne.2 fun ha => h (by simp [ha])
        simp [List.isPrefixOf, ha]
    | cons c cs =>
      have hrest : '\n' ∉ spelling.dropLast := by
        cases spelling with
        | nil => simp
        | cons b spelling => exact fun hb => h (List.mem_cons_of_mem _ hb)
      simp only [List.cons_append, List.isPrefixOf, ih hrest]

theorem lineBound_fixed (kind : Kind) {spelling : List Char} (h : '\n' ∉ spelling.dropLast) :
    (fixed kind spelling).LineBound := by
  intro cs v
  exact Or.inl (by simp only [fixed, isPrefixOf_line h cs v])

theorem lineBound_run (kind : Kind) {isFirst isPart : Char → Bool} (hfirst : isFirst '\n' = false)
    (hpart : isPart '\n' = false) : (run kind isFirst isPart).LineBound := by
  intro cs v
  refine Or.inl ?_
  cases cs with
  | nil => simp [run, hfirst]
  | cons c cs => simp only [List.cons_append, run, takeWhile_append_stop hpart]

theorem lineBound_directive : LineBound directive := by
  intro cs v
  refine Or.inl ?_
  have hblank : isBlank '\n' = false := by decide
  have hpart : isIdentPart '\n' = false := by decide
  cases cs with
  | nil => rfl
  | cons c cs =>
    by_cases hc : c = '#'
    · subst hc
      simp only [List.cons_append, directive, takeWhile_append_stop hblank,
        dropWhile_append_stop hblank, takeWhile_append_stop hpart]
    · have hnone : ∀ ds, directive (c :: ds) = none := fun ds =>
        beginsWith_directive c ds (by simpa)
      rw [List.cons_append, List.cons_append, hnone, hnone]

theorem lineBound_continuation : LineBound continuation := by
  intro cs v
  refine Or.inl ?_
  have hblank : isBlank '\n' = false := by decide
  cases cs with
  | nil => rfl
  | cons c cs =>
    by_cases hc : c = '\\'
    · subst hc
      simp only [List.cons_append, continuation, takeWhile_append_stop hblank,
        dropWhile_append_stop hblank]
      cases cs.dropWhile isBlank with
      | nil => rfl
      | cons d ds => by_cases hd : d = '\n' <;> simp [hd]
    · have hnone : ∀ ds, continuation (c :: ds) = none :=
        fun ds => beginsWith_continuation c ds (by simpa)
      rw [List.cons_append, List.cons_append, hnone, hnone]

theorem lineBound_looseBackslash : LineBound looseBackslash := by
  intro cs v
  refine Or.inl ?_
  cases cs with
  | nil => rfl
  | cons c cs =>
    by_cases hc : c = '\\'
    · subst hc
      simp [looseBackslash]
    · have hnone : ∀ ds, looseBackslash (c :: ds) = none :=
        fun ds => beginsWith_looseBackslash c ds (by simpa)
      rw [List.cons_append, List.cons_append, hnone, hnone]

theorem lineBound_lineComment : LineBound lineComment := by
  intro cs v
  refine Or.inl ?_
  match cs with
  | [] => rfl
  | [c] => by_cases hc : c = '/' <;> simp [lineComment, hc]
  | c :: d :: cs =>
    by_cases hc : c = '/'
    · by_cases hd : d = '/'
      · subst hc hd
        have hline : ∀ w, (cs ++ '\n' :: w).takeWhile (· != '\n') = cs.takeWhile (· != '\n') :=
          takeWhile_append_stop (by decide) cs
        simp only [List.cons_append, lineComment, hline]
      · simp [lineComment, hc, hd]
    · simp [lineComment, hc]

theorem closing?_append {cs : List Char} {n : Nat} (h : closing? cs = some n) (v : List Char) :
    closing? (cs ++ v) = some n := by
  fun_induction closing? cs generalizing n with
  | case1 cs => exact h
  | case2 c cs hne ih =>
    obtain ⟨k, hk, rfl⟩ := Option.map_eq_some_iff.1 h
    have hcons : closing? (c :: (cs ++ v)) = (closing? (cs ++ v)).map (· + 1) := by
      rw [closing?]
      rintro tail rfl htail
      cases cs with
      | nil => cases hk
      | cons d cs => exact hne cs rfl (by rw [(List.cons.inj htail).1])
    rw [List.cons_append, hcons, ih hk, Option.map_some]
  | case3 => cases h

theorem lineBound_blockComment : LineBound blockComment := by
  intro cs v
  match cs with
  | [] => exact Or.inl rfl
  | [c] => exact Or.inl (by by_cases hc : c = '/' <;> simp [blockComment, hc])
  | c :: d :: cs =>
    by_cases hc : c = '/'
    · by_cases hd : d = '*'
      · subst hc hd
        cases hclose : closing? (cs ++ ['\n']) with
        | none => exact Or.inr ⟨_, rfl, hclose⟩
        | some n =>
          have happend := closing?_append hclose v
          rw [List.append_assoc, List.singleton_append] at happend
          exact Or.inl (by simp only [List.cons_append, blockComment, happend, hclose])
      · exact Or.inl (by simp [blockComment, hc, hd])
    · exact Or.inl (by simp [blockComment, hc])

/-- A character of a string that is no quote, no backslash and no line end. -/
theorem stringEnd?_cons {c : Char} (hquote : c ≠ '"') (hslash : c ≠ '\\') (hline : c ≠ '\n')
    (cs : List Char) : stringEnd? (c :: cs) = (stringEnd? cs).map (· + 1) := by
  rw [stringEnd?]
  · exact hquote
  · exact fun h _ => hslash h
  · exact fun _ _ h _ => hslash h
  · exact hline

theorem stringEnd?_line (cs v : List Char) : stringEnd? (cs ++ '\n' :: v) = stringEnd? cs := by
  fun_induction stringEnd? cs with
  | case1 cs => rfl
  | case2 => rfl
  | case3 c cs hc => simp [stringEnd?, hc]
  | case4 c cs hc ih => simp [stringEnd?, hc, ih]
  | case5 cs => rfl
  | case6 c cs hquote hlast hnext hline ih =>
    have hslash : c ≠ '\\' := fun hc => by
      cases cs with
      | nil => exact hlast hc rfl
      | cons d cs => exact hnext d cs hc rfl
    rw [List.cons_append, stringEnd?_cons hquote hslash hline, ih]
  | case7 => rfl

theorem lineBound_string : LineBound string := by
  intro cs v
  refine Or.inl ?_
  cases cs with
  | nil => rfl
  | cons c cs =>
    by_cases hc : c = '"'
    · subst hc
      simp only [List.cons_append, string, stringEnd?_line]
    · have hnone : ∀ ds, string (c :: ds) = none := fun ds => beginsWith_string c ds (by simpa)
      rw [List.cons_append, List.cons_append, hnone, hnone]

theorem number_congr {cs ds : List Char} (h : Numeral.read? cs = Numeral.read? ds) :
    number cs = number ds := by
  unfold number
  split <;> split <;> simp_all

theorem lineBound_number : LineBound number := by
  intro cs v
  have hstop : isIdentPart '\n' = false := by decide
  refine Or.inl (number_congr ?_)
  rw [Numeral.read?_append_stop hstop, Numeral.read?_append_stop hstop]

/-- **No rule looks over a line end**, open comments apart. -/
theorem lineBound_of_mem {rule : Rule} (h : rule ∈ rules) : rule.LineBound :=
  forall_mem_rules lineBound_directive (lineBound_fixed _ (by decide))
    (lineBound_run _ (by decide) (by decide)) lineBound_continuation lineBound_looseBackslash
    lineBound_lineComment lineBound_blockComment lineBound_string lineBound_number
    (lineBound_run _ (by decide) (by decide))
    (fun spelling hs => lineBound_fixed _
      ((by decide : ∀ s ∈ operatorSpellings, '\n' ∉ s.dropLast) spelling hs))
    (fun spelling hs => lineBound_fixed _
      ((by decide : ∀ s ∈ punctSpellings, '\n' ∉ s.dropLast) spelling hs)) rule h

/-- Where a block comment begins, no other rule finds anything. -/
theorem eq_blockComment_or {rule : Rule} (h : rule ∈ rules) :
    rule = blockComment ∨ ∀ tail, rule ('/' :: '*' :: tail) = none := by
  refine forall_mem_rules
    (motive := fun rule => rule = blockComment ∨ ∀ tail, rule ('/' :: '*' :: tail) = none)
    (Or.inr fun _ => rfl) (Or.inr fun _ => rfl) (Or.inr fun _ => rfl) (Or.inr fun _ => rfl)
    (Or.inr fun _ => rfl) (Or.inr fun _ => rfl) (Or.inl rfl) (Or.inr fun _ => rfl)
    (Or.inr fun _ => rfl) (Or.inr fun _ => rfl) (fun s hs => Or.inr ?_) (fun s hs => Or.inr ?_) rule
    h
  · simp only [operatorSpellings, List.mem_cons, List.not_mem_nil, or_false] at hs
    rcases hs with rfl | rfl | rfl | rfl | rfl | rfl | rfl | rfl | rfl <;> exact fun _ => rfl
  · simp only [punctSpellings, List.mem_cons, List.not_mem_nil, or_false] at hs
    rcases hs with rfl | rfl | rfl | rfl | rfl | rfl | rfl | rfl <;> exact fun _ => rfl

theorem blockComment_of_open {tail : List Char} (h : closing? tail = none) :
    ∃ m, blockComment ('/' :: '*' :: tail) = some m ∧ m.fault = some .openComment := by
  simp only [blockComment, h]
  exact ⟨_, rfl, rfl⟩

theorem isSome_blockComment (tail : List Char) :
    (blockComment ('/' :: '*' :: tail)).isSome = true := by
  simp only [blockComment]
  split <;> rfl

/-- Whether a rule finds something does not depend on what is behind the line end. -/
theorem isSome_line {rule : Rule} (h : rule ∈ rules) (cs v : List Char) :
    (rule (cs ++ '\n' :: v)).isSome = (rule (cs ++ ['\n'])).isSome := by
  rcases lineBound_of_mem h cs v with heq | ⟨tail, htail, -⟩
  · rw [heq]
  · have hline : cs ++ '\n' :: v = '/' :: '*' :: (tail ++ v) := by
      rw [← List.cons_append, ← List.cons_append, ← htail, List.append_assoc]
      rfl
    rw [hline, htail]
    rcases eq_blockComment_or h with rfl | hnone
    · rw [isSome_blockComment, isSome_blockComment]
    · rw [hnone, hnone]

end Rule

/-! ## The cut in front of a line end -/

section

variable {u : List Char} (hu : u.getLast? = some '\n') (v : List Char)

include hu

/-- A text that ends with a line end, from a place in it on. -/
theorem exists_drop_line {p : Nat} (hp : p < u.length) :
    ∃ cs, u.drop p = cs ++ ['\n'] ∧ (u ++ v).drop p = cs ++ '\n' :: v := by
  obtain ⟨front, rfl⟩ := List.getLast?_eq_some_iff.1 hu
  rw [List.length_append, List.length_singleton] at hp
  refine ⟨front.drop p, List.drop_append_of_le_length (by omega), ?_⟩
  rw [List.append_assoc, List.drop_append_of_le_length (by omega)]
  rfl

/-- A place is claimed when more text follows if and only if it was before. -/
theorem exists_matches_append {p rank : Nat} (hp : p < u.length) :
    (∃ m, Matches (u ++ v) p rank m) ↔ ∃ m, Matches u p rank m := by
  obtain ⟨cs, hdrop, hdrop'⟩ := exists_drop_line hu v hp
  have hsome : ∀ text : List Char, (∃ m, Matches text p rank m)
      ↔ ∃ rule, rules[rank]? = some rule ∧ (rule (text.drop p)).isSome = true := by
    intro text
    constructor
    · rintro ⟨m, rule, hrule, hm⟩
      exact ⟨rule, hrule, Option.isSome_iff_exists.2 ⟨m, hm⟩⟩
    · rintro ⟨rule, hrule, hm⟩
      obtain ⟨m, hm⟩ := Option.isSome_iff_exists.1 hm
      exact ⟨m, rule, hrule, hm⟩
  rw [hsome, hsome, hdrop, hdrop']
  refine exists_congr fun rule => and_congr_right fun hrule => ?_
  rw [Rule.isSome_line (List.mem_of_getElem? hrule)]

/-- **The longest lexeme stays what it is when more text follows**, unless it is faulty. -/
theorem Longest.append {p : Nat} {m : Lexeme} (h : Longest u p m) (hp : p < u.length)
    (hf : m.fault = none) : Longest (u ++ v) p m := by
  obtain ⟨cs, hdrop, hdrop'⟩ := exists_drop_line hu v hp
  have hsame : ∀ (rank : Nat) (rule : Rule), rules[rank]? = some rule →
      rule ((u ++ v).drop p) = rule (u.drop p) := by
    intro rank rule hrule
    rw [hdrop, hdrop']
    refine (Rule.lineBound_of_mem (List.mem_of_getElem? hrule) cs v).resolve_right ?_
    -- an open comment at this place would be the longest lexeme, and faulty
    rintro ⟨tail, htail, hopen⟩
    obtain ⟨rank', ⟨rule', hrule', hm⟩, -⟩ := h
    obtain ⟨mc, hmc, hfault⟩ := Rule.blockComment_of_open hopen
    rw [hdrop, htail] at hm
    rcases Rule.eq_blockComment_or (List.mem_of_getElem? hrule') with rfl | hnone
    · obtain rfl := Option.some.inj (hmc.symm.trans hm)
      exact absurd (hf.symm.trans hfault) (by simp)
    · exact absurd ((hnone tail).symm.trans hm) (by simp)
  obtain ⟨rank, ⟨rule, hrule, hm⟩, hbest⟩ := h
  refine ⟨rank, ⟨rule, hrule, (hsame rank rule hrule).trans hm⟩, ?_⟩
  rintro rank' m' ⟨rule', hrule', hm'⟩
  exact hbest rank' m' ⟨rule', hrule', (hsame rank' rule' hrule').symm.trans hm'⟩

/-- The last place of the text is claimed by its line end. -/
theorem exists_matches_last : ∃ m, Matches u (u.length - 1) 1 m := by
  obtain ⟨front, rfl⟩ := List.getLast?_eq_some_iff.1 hu
  refine ⟨⟨.newline, 1, Nat.one_pos, none, none⟩, Rule.fixed .newline ['\n'], rfl, ?_⟩
  rw [List.length_append, List.length_singleton, Nat.add_sub_cancel, List.drop_left]
  rfl

/-- **An unclaimed part stays unclaimed.** -/
theorem Unclaimed.append {p q : Nat} (h : Unclaimed u p q) : Unclaimed (u ++ v) p q := by
  have hlt : q < u.length := by
    refine lt_of_le_of_ne h.le fun hq => ?_
    obtain ⟨m, hm⟩ := exists_matches_last hu
    have := h.lt
    exact h.free (u.length - 1) (by omega) (by omega) 1 m hm
  refine ⟨h.lt, h.le.trans (by simp), fun i hi hiq rank m hm => ?_, Or.inr ?_⟩
  · obtain ⟨m', hm'⟩ := (exists_matches_append hu v (hiq.trans hlt)).1 ⟨m, hm⟩
    exact h.free i hi hiq rank m' hm'
  · obtain ⟨rank, m, hm⟩ := h.next.resolve_left hlt.ne
    exact ⟨rank, (exists_matches_append hu v hlt).2 ⟨m, hm⟩⟩

end

theorem tokenAt_append {u : List Char} (v : List Char) (kind : Kind) (keyword : Option Keyword)
    {p q : Nat} (hpq : p ≤ q) (hq : q ≤ u.length) :
    tokenAt (u ++ v) kind keyword p q = tokenAt u kind keyword p q := by
  simp only [tokenAt, cursorAt, List.take_append_of_le_length (hpq.trans hq),
    List.take_append_of_le_length hq, List.drop_append_of_le_length (hpq.trans hq)]
  rw [List.take_append_of_le_length (by rw [List.length_drop]; omega)]

/-- **The tokens of a text that ends with a line end stay what they are** when more text follows. -/
theorem Cut.append {u : List Char} (hu : u.getLast? = some '\n') {v : List Char} {p : Nat}
    {r rv : Tokenization} (h : Cut u p r) {eof : Token} (hok : r.ending = .ok eof)
    (hv : Cut (u ++ v) u.length rv) : Cut (u ++ v) p ⟨r.tokens ++ rv.tokens, rv.ending⟩ := by
  induction h with
  | ended => exact hv
  | fault => cases hok
  | @lexeme p m r hp hm hf _ ih =>
    have hle := hm.length_le hp
    rw [← tokenAt_append v _ _ (Nat.le_add_right _ _) hle]
    exact .lexeme (hp.trans_le (by simp)) (hm.append hu v hp hf) hf (ih hok)
  | @word p q r hq _ ih =>
    rw [← tokenAt_append v _ _ hq.lt.le hq.le]
    exact .word (hq.append hu v) (ih hok)

/-! ## The cut behind a line end -/

/-- The place as many lines further down. -/
def Cursor.down (lines : Nat) (p : Cursor) : Cursor := ⟨p.line + lines, p.column⟩

/-- The token as it is behind a text of so many lines and code units. -/
def Token.moved (lines units : Nat) (t : Token) : Token :=
  { t with cursor := t.cursor.down lines, span := ⟨t.span.start + units, t.span.stop + units⟩ }

/-- The error as it is behind a text of so many lines. -/
def ScanError.moved (lines : Nat) (e : ScanError) : ScanError :=
  { e with cursor := e.cursor.down lines }

/-- The tokens and the ending of a text as they are behind another of so many lines and code
units. -/
def Tokenization.moved (lines units : Nat) (r : Tokenization) : Tokenization where
  tokens := r.tokens.map (Token.moved lines units)
  ending :=
    match r.ending with
    | .ok eof => .ok (eof.moved lines units)
    | .error e => .error (e.moved lines)

theorem Cursor.advance_down (lines : Nat) (p : Cursor) (cs : List Char) :
    (p.down lines).advance cs = (p.advance cs).down lines := by
  induction cs generalizing p with
  | nil => rfl
  | cons c cs ih =>
    rw [advance_cons, advance_cons, ← ih]
    congr 1
    unfold step down
    split <;> simp [Nat.add_right_comm]

theorem Cursor.line_advance (p : Cursor) (cs : List Char) :
    (p.advance cs).line = p.line + cs.count '\n' := by
  induction cs generalizing p with
  | nil => rfl
  | cons c cs ih =>
    rw [advance_cons, ih, List.count_cons]
    by_cases hc : c = '\n'
    · simp [step, hc]
      omega
    · simp [step, hc]

/-- Behind a line end a line begins. -/
theorem Cursor.advance_line {u : List Char} (hu : u.getLast? = some '\n') :
    start.advance u = start.down (u.count '\n') := by
  have hline := line_advance start u
  obtain ⟨front, rfl⟩ := List.getLast?_eq_some_iff.1 hu
  rw [advance_append] at hline ⊢
  exact Cursor.mk.injEq .. ▸ ⟨hline, rfl⟩

section

variable {u : List Char} (v : List Char) (p : Nat)

theorem drop_behind : (u ++ v).drop (u.length + p) = v.drop p := by
  rw [← List.drop_drop, List.drop_left]

theorem take_behind : (u ++ v).take (u.length + p) = u ++ v.take p := by
  rw [List.take_add, List.take_left, List.drop_left]

theorem matches_behind {rank : Nat} {m : Lexeme} :
    Matches (u ++ v) (u.length + p) rank m ↔ Matches v p rank m := by
  rw [Matches, Matches, drop_behind]

theorem longest_behind {m : Lexeme} : Longest (u ++ v) (u.length + p) m ↔ Longest v p m := by
  simp only [Longest, matches_behind]

theorem Unclaimed.behind {v : List Char} {p q : Nat} (h : Unclaimed v p q) :
    Unclaimed (u ++ v) (u.length + p) (u.length + q) where
  lt := Nat.add_lt_add_left h.lt _
  le := by
    have := h.le
    rw [List.length_append]
    omega
  free i hi hiq rank m hm := by
    obtain ⟨k, rfl⟩ := Nat.exists_eq_add_of_le (Nat.le_of_add_right_le hi)
    exact h.free k (by omega) (by omega) rank m ((matches_behind v k).1 hm)
  next := by
    rcases h.next with hend | ⟨rank, m, hm⟩
    · exact Or.inl (by rw [List.length_append, hend])
    · exact Or.inr ⟨rank, m, (matches_behind v q).2 hm⟩

variable (hu : u.getLast? = some '\n')

include hu

theorem cursorAt_behind :
    cursorAt (u ++ v) (u.length + p) = (cursorAt v p).down (u.count '\n') := by
  rw [cursorAt, take_behind, Cursor.advance_append, Cursor.advance_line hu, Cursor.advance_down]
  rfl

theorem tokenAt_behind (kind : Kind) (keyword : Option Keyword) (q : Nat) :
    tokenAt (u ++ v) kind keyword (u.length + p) (u.length + q)
      = (tokenAt v kind keyword p q).moved (u.count '\n') (Text.unitCount u) := by
  have hunits : ∀ k, Text.unitCount ((u ++ v).take (u.length + k))
      = Text.unitCount (v.take k) + Text.unitCount u := fun k => by
    rw [take_behind, Text.unitCount_append, Nat.add_comm]
  rw [tokenAt, tokenAt, Token.moved, drop_behind, cursorAt_behind v p hu, hunits, hunits,
    Nat.add_sub_add_left]

/-- **Behind a line end a text is cut as it is on its own.** -/
theorem Cut.behind {v : List Char} {p : Nat} {r : Tokenization} (h : Cut v p r) :
    Cut (u ++ v) (u.length + p) (r.moved (u.count '\n') (Text.unitCount u)) := by
  induction h with
  | ended =>
    have hended := @Cut.ended (u ++ v)
    rw [List.length_append, tokenAt_behind v v.length hu] at hended
    exact hended
  | @fault p m f hp hm hf =>
    have hlt : u.length + p < (u ++ v).length := by rw [List.length_append]; omega
    have hfault := Cut.fault hlt ((longest_behind v p).2 hm) hf
    rw [cursorAt_behind v p hu] at hfault
    exact hfault
  | @lexeme p m r hp hm hf _ ih =>
    have hlt : u.length + p < (u ++ v).length := by rw [List.length_append]; omega
    rw [← Nat.add_assoc] at ih
    have hlexeme := ih.lexeme hlt ((longest_behind v p).2 hm) hf
    rw [Nat.add_assoc, tokenAt_behind v p hu] at hlexeme
    exact hlexeme
  | @word p q r hq _ ih =>
    have hword := ih.word hq.behind
    rw [tokenAt_behind v p hu] at hword
    exact hword

end

/-! ## Two texts -/

theorem Tokenization.moved_ending_eq_error {lines units : Nat} {r : Tokenization} {e : ScanError} :
    (r.moved lines units).ending = .error e
      ↔ ∃ e', r.ending = .error e' ∧ e = e'.moved lines := by
  unfold moved
  cases r.ending <;> simp [eq_comm]

theorem Fault.code_injective {f g : Fault} (h : f.code = g.code) : f = g := by
  cases f <;> cases g <;> first | rfl | exact absurd h (by decide)

/-- **Behind a line end a text is cut as it is on its own.** -/
theorem tokenize_append_eq {u : String} (hu : u.toList.getLast? = some '\n') {eof : Token}
    (hok : (tokenize u).ending = .ok eof) (v : String) :
    tokenize (u ++ v)
      = ⟨(tokenize u).tokens
          ++ ((tokenize v).moved (u.toList.count '\n') (Text.unitCount u.toList)).tokens,
        ((tokenize v).moved (u.toList.count '\n') (Text.unitCount u.toList)).ending⟩ := by
  have hboth := (cut_tokenize u).append hu hok ((cut_tokenize v).behind hu)
  rw [← String.toList_append] at hboth
  exact (cut_tokenize (u ++ v)).unique hboth

/-- **Tokenization is compositional at line ends.**  If a text ends with a line end and can be cut,
the tokens of it and of any text behind it are those of the two texts, the latter's moved by the
lines and the code units of the former; and the two together fail exactly if the latter does, with
the same fault at the place moved. -/
theorem tokenize_append {u : String} (hu : u.toList.getLast? = some '\n') {eof : Token}
    (hok : (tokenize u).ending = .ok eof) (v : String) :
    (tokenize (u ++ v)).tokens
        = (tokenize u).tokens
          ++ (tokenize v).tokens.map (Token.moved (u.toList.count '\n') (Text.units u).length)
      ∧ (∀ eof, (tokenize v).ending = .ok eof → (tokenize (u ++ v)).ending
          = .ok (eof.moved (u.toList.count '\n') (Text.units u).length))
      ∧ ∀ e, (tokenize (u ++ v)).ending = .error e ↔ ∃ e', (tokenize v).ending = .error e'
          ∧ e.fault.code = e'.fault.code ∧ e.fault.construct = e'.fault.construct
          ∧ e.cursor = e'.cursor.down (u.toList.count '\n') := by
  rw [tokenize_append_eq hu hok, Text.length_units]
  refine ⟨rfl, fun eof hv => by simp only [Tokenization.moved, hv], fun e => ?_⟩
  refine Tokenization.moved_ending_eq_error.trans
    (exists_congr fun e' => and_congr_right fun _ => ?_)
  constructor
  · rintro rfl
    exact ⟨rfl, rfl, rfl⟩
  · rintro ⟨hcode, -, hcursor⟩
    exact ScanError.mk.injEq .. ▸ ⟨Fault.code_injective hcode, hcursor⟩

/-- A line whose end is continued, and behind it a comment that is not closed. -/
theorem tokenize_append_open_comment :
    "a \\\n".toList.getLast? = some '\n'
      ∧ (tokenize "a \\\n").ending = .ok ⟨.eof, "", ⟨2, 1⟩, ⟨4, 4⟩, none⟩
      ∧ (tokenize ("a \\\n" ++ "b /*")).tokens
          = (tokenize "a \\\n").tokens ++ (tokenize "b /*").tokens.map (Token.moved 1 4)
      ∧ (tokenize ("a \\\n" ++ "b /*")).ending = .error ⟨.openComment, ⟨2, 3⟩⟩ := by
  have hline : "a \\\n".toList.getLast? = some '\n' := by decide
  have hok : (tokenize "a \\\n").ending = .ok ⟨.eof, "", ⟨2, 1⟩, ⟨4, 4⟩, none⟩ := by
    rw [tokenize_eq_steps]
    rfl
  have herror : (tokenize "b /*").ending = .error ⟨.openComment, ⟨1, 3⟩⟩ := by
    rw [tokenize_eq_steps]
    rfl
  obtain ⟨htokens, -, hending⟩ := tokenize_append hline hok "b /*"
  exact ⟨hline, hok, htokens, (hending _).2 ⟨_, herror, rfl, rfl, rfl⟩⟩

end IncludeScan
