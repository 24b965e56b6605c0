import IncludeScan.Proofs.Outline.MainFunction
import IncludeScan.Proofs.Token.FaultPlaces

/-!
# Proofs/Outline/DirectiveTokens — where the directives of a text are, and that none is passed over

How a directive is written is said without the rules (`DirectiveText`): a hash, blanks, and a
keyword at whose end the word ends.  The rule of directives finds just that
(`Rule.exists_directiveText`, `DirectiveText.exists_lexeme`), and at a hash no other rule finds
anything, so that nothing competes with it (`longest_directive_iff`).  Keywords begin with one
another, but a word has one end, so they do not compete either.

All directive tokens being named, the lines of a file hold every one of them
(`Outline.filter_flatMap_tokens_lines`).

`tokenize_directives` — a directive token begins where a directive is written, and no line loses
one.
-/

namespace IncludeScan

/-! ## Directives as they are written -/

/-- **A directive with `rest` behind it**: a hash, blanks, and a run of identifier characters that
spells the keyword and does not go on in `rest`. -/
inductive DirectiveText (rest : List Char) (k : Keyword) : List Char → Prop
  | intro {blanks word : List Char} (hblanks : ∀ c ∈ blanks, c ∈ ['\t', '\x0b', '\x0c', '\r', ' '])
      (hword : ∀ c ∈ word, isIdentPart c = true) (hend : ∀ c ∈ rest.head?, isIdentPart c = false)
      (hspelling : String.ofList word = k.spelling) : DirectiveText rest k ('#' :: (blanks ++ word))

theorem Rule.isBlank_iff_mem {c : Char} :
    isBlank c = true ↔ c ∈ ['\t', '\x0b', '\x0c', '\r', ' '] := by
  simp [isBlank, or_assoc]

theorem Rule.exists_directiveText {cs : List Char} {m : Lexeme} (h : directive cs = some m) :
    ∃ k s rest, cs = s ++ rest ∧ DirectiveText rest k s ∧ m.keyword = some k
      ∧ m.length = s.length := by
  obtain ⟨ds, k, rfl, hspelling, -, hkeyword, -, hlength⟩ := exists_of_directive h
  have hblanks : ∀ c ∈ ds.takeWhile isBlank, c ∈ ['\t', '\x0b', '\x0c', '\r', ' '] :=
    fun c hc => isBlank_iff_mem.1 (List.mem_takeWhile_imp hc)
  have hend : Piece.Stops isIdentPart ((ds.dropWhile isBlank).dropWhile isIdentPart ++ []) :=
    Piece.stops_dropWhile (by simp [Piece.Stops]) _
  rw [List.append_nil] at hend
  refine ⟨k, _, _, ?_, .intro hblanks (fun c hc => List.mem_takeWhile_imp hc) hend hspelling,
    hkeyword, ?_⟩
  · rw [List.cons_append, List.append_assoc, List.takeWhile_append_dropWhile,
      List.takeWhile_append_dropWhile]
  · rw [hlength, List.length_cons, List.length_append]
    omega

theorem DirectiveText.exists_lexeme {rest s : List Char} {k : Keyword}
    (h : DirectiveText rest k s) :
    ∃ m, Rule.directive (s ++ rest) = some m ∧ m.kind = .directive ∧ m.keyword = some k
      ∧ m.fault = none ∧ m.length = s.length := by
  cases h with
  | @intro blanks word hblanks _ hend hspelling =>
    obtain rfl : word = k.spelling.toList := by rw [← hspelling, String.toList_ofList]
    have hm := Piece.directive_append k (fun c hc => Rule.isBlank_iff_mem.2 (hblanks c hc)) hend
    rw [List.cons_append, List.append_assoc]
    refine ⟨_, hm, rfl, rfl, rfl, ?_⟩
    simp only [List.length_cons, List.length_append]
    omega

/-- **Nothing competes with a directive**: it is the longest lexeme at a place exactly if its rule
finds it. -/
theorem longest_directive_iff {text : List Char} {p : Nat} {m : Lexeme} :
    Longest text p m ∧ m.kind = .directive ↔ Rule.directive (text.drop p) = some m := by
  constructor
  · rintro ⟨⟨rank, ⟨rule, hrule, hm⟩, -⟩, hkind⟩
    rwa [← Rule.eq_directive_of_kind_directive (List.mem_of_getElem? hrule) hm hkind]
  · intro hm
    obtain ⟨ds, k, hds, -, hkind, -⟩ := Rule.exists_of_directive hm
    refine ⟨longest_drop.1 (Piece.longest_of_sole (by simp [rules]) hm fun rule hrule m' hm' => ?_),
      hkind⟩
    rw [hds] at hm hm'
    have hrule : rule = Piece.soleRule '#' :=
      Piece.eq_soleRule (by decide) (Rule.canBegin_of_mem hrule hm')
    obtain rfl : rule = Rule.directive :=
      hrule.trans (Piece.eq_soleRule (by decide) (.directive rfl)).symm
    exact Or.inr (Option.some.inj (hm'.symm.trans hm))

/-! ## Directive tokens -/

/-- The token begins at that place of the text. -/
def BeginsAt (text : String) (p : Nat) (t : Token) : Prop :=
  ∃ before after, (tokenize text).tokens = before ++ t :: after ∧ (Token.textOf before).length = p

theorem Cut.exists_directive {text : List Char} {p : Nat} {r : Tokenization} (h : Cut text p r)
    {t : Token} {ts : List Token} (htokens : r.tokens = t :: ts) (hkind : t.kind = .directive) :
    ∃ m, Rule.directive (text.drop p) = some m
      ∧ t = tokenAt text m.kind m.keyword p (p + m.length) := by
  cases h with
  | ended => cases htokens
  | fault => cases htokens
  | @lexeme _ m _ _ hm =>
    obtain ⟨rfl, -⟩ := List.cons.inj htokens
    exact ⟨m, longest_directive_iff.1 ⟨hm, hkind⟩, rfl⟩
  | word =>
    obtain ⟨rfl, -⟩ := List.cons.inj htokens
    cases hkind

/-- **A directive token begins at a place that is reached exactly if a directive is written
there.** -/
theorem Reached.directive_iff {text : String} {p : Nat} (h : Reached text p) {k : Keyword}
    {s : List Char} :
    (∃ t, BeginsAt text p t ∧ t.kind = .directive ∧ t.keyword = some k ∧ t.value = String.ofList s)
      ↔ ∃ rest, text.toList.drop p = s ++ rest ∧ DirectiveText rest k s := by
  constructor
  · rintro ⟨t, ⟨before, after, htokens, rfl⟩, hkind, hkeyword, hvalue⟩
    obtain ⟨m, hm, rfl⟩ := (cut_of_length htokens).exists_directive rfl hkind
    obtain ⟨k', s', rest, htext, hs', hk', hlength⟩ := Rule.exists_directiveText hm
    obtain rfl := Option.some.inj (hkeyword.symm.trans hk')
    rw [hlength, value_tokenAt htext] at hvalue
    obtain rfl := String.ofList_injective hvalue
    exact ⟨rest, htext, hs'⟩
  · rintro ⟨rest, htext, hs⟩
    obtain ⟨before, after, htokens, rfl⟩ := h
    obtain ⟨m, hm, hkind, hkeyword, hfault, hlength⟩ := hs.exists_lexeme
    rw [← htext] at hm
    obtain ⟨r, hr⟩ :=
      (cut_of_length htokens).exists_of_longest (longest_directive_iff.2 hm).1 hfault
    obtain rfl := congrArg Tokenization.tokens hr
    refine ⟨_, ⟨before, r.tokens, htokens, rfl⟩, hkind, hkeyword, ?_⟩
    rw [hlength, value_tokenAt htext]

/-! ## Directive lines -/

namespace Outline

/-- The directives of a line and those behind it are all that there are. -/
theorem filter_directive_append (ts : List Token) :
    (Item.lineTokens ts).filter (·.kind == .directive)
      ++ (Item.behindLine ts).filter (·.kind == .directive)
      = ts.filter (·.kind == .directive) := by
  induction ts with
  | nil => rfl
  | cons t ts ih =>
    by_cases hnl : t.kind = .newline
    · simp [Item.lineTokens, Item.behindLine, hnl]
    · have hline : Item.lineTokens (t :: ts) = t :: Item.lineTokens ts := by
        simp [Item.lineTokens, hnl]
      have hbehind : Item.behindLine (t :: ts) = Item.behindLine ts := by
        simp [Item.behindLine, hnl]
      rw [hline, hbehind, List.filter_cons, List.filter_cons, ← ih]
      split <;> rfl

/-- **The lines of a file hold all of its directives.** -/
theorem filter_flatMap_tokens_lines {ts : List Token} (h : ∀ t ∈ ts, t.Named) :
    ((lines ts).flatMap Line.tokens).filter (·.kind == .directive)
      = ts.filter (·.kind == .directive) := by
  unfold lines
  fun_induction Item.ofTokens ts with
  | case1 => rfl
  | case2 t ts hdir k hk ih =>
    have hbehind := ih fun u hu => h u <| List.mem_cons_of_mem _ <|
      (Item.lineTokens_append_behindLine_sublist ts).subset (List.mem_append_right _ hu)
    -- directives are no trivia, so that the line keeps those behind the first
    have hargs : ((Item.lineTokens ts).filter fun u => !u.isTrivia).filter (·.kind == .directive)
        = (Item.lineTokens ts).filter (·.kind == .directive) := by
      rw [List.filter_filter]
      refine List.filter_congr fun u _ => ?_
      by_cases hu : u.kind = .directive <;> simp [Token.isTrivia, Kind.isTrivia, hu]
    rw [List.filter_cons_of_pos (by simp [hdir]), ← filter_directive_append ts, ← hbehind, ← hargs,
      ← List.filter_append, ← List.filter_cons_of_pos (by simp [hdir])]
    rfl
  | case3 t ts hdir hk ih => simpa [hk] using h t List.mem_cons_self hdir
  | case4 t ts hdir hskip ih =>
    rw [List.filter_cons_of_neg (by simpa using hdir)]
    exact ih (List.forall_mem_cons.1 h).2
  | case5 t ts hdir hskip ih =>
    rw [List.filter_cons_of_neg (by simpa using hdir)]
    exact ih (List.forall_mem_cons.1 h).2

end Outline

/-- **The directives of a text.**  At a place that is reached a directive token with the keyword `k`
and the text `s` begins exactly if `s` is written there, as a hash, blanks and the keyword, and the
word ends with it.  Every directive token has its keyword, so however far the tokens are read, each
of the directives among them begins a line or stands in one, and the line says what its token
does. -/
theorem tokenize_directives (text : String) :
    (∀ p, Reached text p → ∀ k s,
      (∃ t, BeginsAt text p t ∧ t.kind = .directive ∧ t.keyword = some k
        ∧ t.value = String.ofList s)
        ↔ ∃ rest, text.toList.drop p = s ++ rest ∧ DirectiveText rest k s)
    ∧ (∀ t ∈ (tokenize text).tokens, t.kind = .directive → ∃ k, t.keyword = some k)
    ∧ ∀ ts, ts <+: (tokenize text).tokens →
        .unnamed ∉ Item.ofTokens ts
        ∧ ((Outline.lines ts).flatMap Line.tokens).filter (·.kind == .directive)
          = ts.filter (·.kind == .directive)
        ∧ ∀ l ∈ Outline.lines ts, l.token.kind = .directive ∧ l.token.keyword = some l.keyword := by
  have hnamed := (cut_tokenize text).named
  refine ⟨fun p hp k s => hp.directive_iff, fun t ht hkind => ?_, fun ts hts => ?_⟩
  · exact Option.isSome_iff_exists.1 (hnamed t ht hkind)
  · have hnamed' : ∀ t ∈ ts, t.Named := fun t ht => hnamed t (hts.subset ht)
    exact ⟨Item.unnamed_notMem_ofTokens hnamed', Outline.filter_flatMap_tokens_lines hnamed',
      fun l hl => Token.directive?_eq_some_iff.1 (Outline.directive?_token_of_mem_lines hl)⟩

/-- A hash that begins nothing, a directive behind it whose keyword begins with another one, and one
more in its line. -/
theorem tokenize_directives_behind_hash :
    Reached "##\tinclude_next A #if" 1
    ∧ (∃ t, BeginsAt "##\tinclude_next A #if" 1 t ∧ t.kind = .directive
      ∧ t.keyword = some .includeNext
      ∧ t.value = "#\tinclude_next")
    ∧ .unnamed ∉ Item.ofTokens (tokenize "##\tinclude_next A #if").tokens
    ∧ ((Outline.lines (tokenize "##\tinclude_next A #if").tokens).flatMap Line.tokens).countP
        (·.kind == .directive) = 2 := by
  have htokens : (tokenize "##\tinclude_next A #if").tokens
      = [⟨.word, "#", ⟨1, 1⟩, ⟨0, 1⟩, none⟩]
        ++ [⟨.directive, "#\tinclude_next", ⟨1, 2⟩, ⟨1, 15⟩, some .includeNext⟩,
          ⟨.whitespace, " ", ⟨1, 16⟩, ⟨15, 16⟩, none⟩, ⟨.word, "A", ⟨1, 17⟩, ⟨16, 17⟩, none⟩,
          ⟨.whitespace, " ", ⟨1, 18⟩, ⟨17, 18⟩, none⟩,
          ⟨.directive, "#if", ⟨1, 19⟩, ⟨18, 21⟩, some .ifExpr⟩] := by
    rw [tokenize_eq_steps]
    decide +kernel
  have hreached : Reached "##\tinclude_next A #if" 1 := ⟨_, _, htokens, by decide⟩
  have htext :
      DirectiveText " A #if".toList .includeNext ('#' :: (['\t'] ++ "include_next".toList)) :=
    .intro (by decide) (by decide) (by decide) rfl
  obtain ⟨hwritten, -, hlines⟩ := tokenize_directives "##\tinclude_next A #if"
  obtain ⟨hunnamed, hall, -⟩ := hlines _ List.prefix_rfl
  refine ⟨hreached, (hwritten 1 hreached .includeNext _).2 ⟨_, by decide +kernel, htext⟩, hunnamed,
    ?_⟩
  rw [List.countP_eq_length_filter, hall, htokens]
  decide

end IncludeScan
