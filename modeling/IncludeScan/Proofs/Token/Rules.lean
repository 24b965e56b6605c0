import IncludeScan.Token.Rule

/-!
# Proofs/Token/Rules — a lexeme lies within its text, and its rule gives its kind

One lemma for each sort of rule, and `Rule.bounded_of_mem` and `Rule.exists_hasKind` for all of
them.
-/

namespace IncludeScan

/-- A numeral is written at the front of the text that it is read from. -/
theorem Numeral.exists_append {cs : List Char} {n : Numeral} (h : Numeral.read? cs = some n) :
    ∃ tail, cs = n.spelling ++ tail := by
  have hdigits := Numeral.withDigits_append_drop
  unfold Numeral.read? at h
  split at h
  · rename_i c rest
    split at h
    · exact Option.some.inj h ▸ hdigits .hexadecimal ['0', c] rest
    · split at h
      · exact Option.some.inj h ▸ hdigits .binary ['0', c] rest
      · exact Option.some.inj h ▸ hdigits .octal ['0'] (c :: rest)
  · exact Option.some.inj h ▸ hdigits .octal ['0'] []
  · rename_i c rest _ _
    split at h
    · exact Option.some.inj h ▸ hdigits .decimal [] (c :: rest)
    · cases h
  · cases h

theorem Numeral.length_spelling_le {cs : List Char} {n : Numeral} (h : Numeral.read? cs = some n) :
    n.spelling.length ≤ cs.length := by
  obtain ⟨tail, rfl⟩ := Numeral.exists_append h
  rw [List.length_append]
  omega

/-- A text that is one numeral is its spelling. -/
theorem Numeral.ofText?_eq_some_iff {cs : List Char} {n : Numeral} :
    Numeral.ofText? cs = some n ↔ Numeral.read? cs = some n ∧ n.spelling = cs := by
  unfold Numeral.ofText?
  cases hread : Numeral.read? cs with
  | none => simp
  | some m =>
    obtain ⟨tail, htail⟩ := Numeral.exists_append hread
    have hlength := congrArg List.length htail
    rw [List.length_append] at hlength
    dsimp only
    constructor
    · intro h
      split at h
      · obtain rfl := Option.some.inj h
        have hnil : tail = [] := List.length_eq_zero_iff.1 (by omega)
        exact ⟨rfl, by rw [htail, hnil, List.append_nil]⟩
      · cases h
    · rintro ⟨hm, hspelling⟩
      obtain rfl := Option.some.inj hm
      exact if_pos (congrArg List.length hspelling)

namespace Rule

/-- What the rule finds lies within the text. -/
def Bounded (rule : Rule) : Prop := ∀ cs m, rule cs = some m → m.length ≤ cs.length

theorem bounded_fixed (kind : Kind) (spelling : List Char) : (fixed kind spelling).Bounded := by
  intro cs m h
  unfold fixed at h
  split at h
  · rename_i hp
    obtain rfl := Option.some.inj h
    exact (List.isPrefixOf_iff_prefix.1 hp.2).length_le
  · cases h

theorem bounded_run (kind : Kind) (isFirst isPart : Char → Bool) :
    (run kind isFirst isPart).Bounded := by
  intro cs m h
  cases cs with
  | nil => cases h
  | cons c cs =>
    rw [run] at h
    split at h
    · obtain rfl := Option.some.inj h
      have hle := (List.takeWhile_prefix isPart (l := cs)).length_le
      simp only [List.length_cons]
      omega
    · cases h

/-- Blanks, and a run behind them, take no more than there is. -/
theorem length_takeWhile_add_le (p q : Char → Bool) (cs : List Char) :
    (cs.takeWhile p).length + ((cs.dropWhile p).takeWhile q).length ≤ cs.length := by
  have hsplit := congrArg List.length (List.takeWhile_append_dropWhile (p := p) (l := cs))
  have hle := (List.takeWhile_prefix q (l := cs.dropWhile p)).length_le
  rw [List.length_append] at hsplit
  omega

/-- **What a directive is found as**: a hash, the blanks behind it, and a run of identifier
characters that spells a keyword. -/
theorem exists_of_directive {cs : List Char} {m : Lexeme} (h : directive cs = some m) :
    ∃ (ds : List Char) (k : Keyword), cs = '#' :: ds
      ∧ String.ofList ((ds.dropWhile isBlank).takeWhile isIdentPart) = k.spelling
      ∧ m.kind = .directive ∧ m.keyword = some k ∧ m.fault = none
      ∧ m.length = 1 + (ds.takeWhile isBlank).length
          + ((ds.dropWhile isBlank).takeWhile isIdentPart).length := by
  unfold directive at h
  split at h
  · rename_i ds
    dsimp only at h
    split at h
    · rename_i k hk
      obtain rfl := Option.some.inj h
      exact ⟨ds, k, rfl, (Keyword.ofString?_eq_some_iff.1 hk).symm, rfl, rfl, rfl, rfl⟩
    · cases h
  · cases h

theorem bounded_directive : Bounded directive := by
  intro cs m h
  obtain ⟨ds, k, rfl, -, -, -, -, hlength⟩ := exists_of_directive h
  have hle := length_takeWhile_add_le isBlank isIdentPart ds
  rw [hlength, List.length_cons]
  omega

theorem bounded_continuation : Bounded continuation := by
  intro cs m h
  unfold continuation at h
  split at h
  · rename_i cs
    split at h
    · rename_i rest hrest
      obtain rfl := Option.some.inj h
      have hsplit := congrArg List.length (List.takeWhile_append_dropWhile (p := isBlank) (l := cs))
      rw [hrest, List.length_append] at hsplit
      simp only [List.length_cons] at hsplit ⊢
      omega
    · cases h
  · cases h

theorem bounded_looseBackslash : Bounded looseBackslash := by
  intro cs m h
  unfold looseBackslash at h
  split at h
  · split at h
    · cases h
    · obtain rfl := Option.some.inj h
      simp only [List.length_cons]
      omega
  · cases h

theorem bounded_lineComment : Bounded lineComment := by
  intro cs m h
  unfold lineComment at h
  split at h
  · rename_i cs
    obtain rfl := Option.some.inj h
    have hle := (List.takeWhile_prefix (· != '\n') (l := cs)).length_le
    simp only [List.length_cons]
    omega
  · cases h

theorem closing?_le {cs : List Char} {n : Nat} (h : closing? cs = some n) : n ≤ cs.length := by
  fun_induction closing? cs generalizing n with
  | case1 cs =>
    obtain rfl := Option.some.inj h
    simp
  | case2 c cs _ ih =>
    obtain ⟨k, hk, rfl⟩ := Option.map_eq_some_iff.1 h
    have := ih hk
    simp only [List.length_cons]
    omega
  | case3 => cases h

theorem bounded_blockComment : Bounded blockComment := by
  intro cs m h
  unfold blockComment at h
  split at h
  · split at h
    · rename_i n hn
      obtain rfl := Option.some.inj h
      have := closing?_le hn
      simp only [List.length_cons]
      omega
    · obtain rfl := Option.some.inj h
      simp only [List.length_cons]
      omega
  · cases h

theorem stringEnd?_le {cs : List Char} {n : Nat} (h : stringEnd? cs = some n) : n ≤ cs.length := by
  fun_induction stringEnd? cs generalizing n with
  | case1 cs =>
    obtain rfl := Option.some.inj h
    simp
  | case2 => cases h
  | case3 => cases h
  | case4 c cs _ ih =>
    obtain ⟨k, hk, rfl⟩ := Option.map_eq_some_iff.1 h
    have := ih hk
    simp only [List.length_cons]
    omega
  | case5 => cases h
  | case6 c cs _ _ _ _ ih =>
    obtain ⟨k, hk, rfl⟩ := Option.map_eq_some_iff.1 h
    have := ih hk
    simp only [List.length_cons]
    omega
  | case7 => cases h

theorem bounded_string : Bounded string := by
  intro cs m h
  unfold string at h
  split at h
  · split at h
    · rename_i n hn
      obtain rfl := Option.some.inj h
      have := stringEnd?_le hn
      simp only [List.length_cons]
      omega
    · cases h
  · cases h

theorem bounded_number : Bounded number := by
  intro cs m h
  unfold number at h
  split at h
  · rename_i n hn
    obtain rfl := Option.some.inj h
    exact Numeral.length_spelling_le hn
  · cases h

/-- What holds of each sort of rule holds of all rules. -/
theorem forall_mem_rules {motive : Rule → Prop} (directive : motive directive)
    (newline : motive (fixed .newline ['\n'])) (blanks : motive (run .whitespace isBlank isBlank))
    (continuation : motive continuation) (looseBackslash : motive looseBackslash)
    (lineComment : motive lineComment) (blockComment : motive blockComment) (string : motive string)
    (number : motive number) (word : motive (run .word isIdentStart isIdentPart))
    (op : ∀ spelling ∈ operatorSpellings, motive (fixed .op spelling))
    (punct : ∀ spelling ∈ punctSpellings, motive (fixed .punct spelling)) :
    ∀ rule ∈ rules, motive rule := by
  rw [rules, List.forall_mem_append, List.forall_mem_append]
  refine ⟨⟨?_, List.forall_mem_map.2 op⟩, List.forall_mem_map.2 punct⟩
  simp only [List.forall_mem_cons, List.not_mem_nil, false_imp_iff, implies_true, and_true]
  exact ⟨directive, newline, blanks, continuation, looseBackslash, lineComment, blockComment,
    string, number, word⟩

/-- **Every rule keeps within the text.** -/
theorem bounded_of_mem {rule : Rule} (h : rule ∈ rules) : rule.Bounded :=
  forall_mem_rules bounded_directive (bounded_fixed _ _) (bounded_run _ _ _) bounded_continuation
    bounded_looseBackslash bounded_lineComment bounded_blockComment bounded_string bounded_number
    (bounded_run _ _ _) (fun _ _ => bounded_fixed _ _) (fun _ _ => bounded_fixed _ _) rule h

/-! ## The kind of what a rule finds -/

/-- All that the rule finds is of this kind. -/
def HasKind (rule : Rule) (kind : Kind) : Prop := ∀ cs m, rule cs = some m → m.kind = kind

/-- All that the rule finds is of this kind, and never a fault. -/
def Plain (rule : Rule) (kind : Kind) : Prop :=
  ∀ cs m, rule cs = some m → m.kind = kind ∧ m.fault = none

theorem Plain.hasKind {rule : Rule} {kind : Kind} (h : rule.Plain kind) : rule.HasKind kind :=
  fun cs m hm => (h cs m hm).1

theorem plain_fixed (kind : Kind) (spelling : List Char) : (fixed kind spelling).Plain kind := by
  intro cs m h
  unfold fixed at h
  split at h
  · exact Option.some.inj h ▸ ⟨rfl, rfl⟩
  · cases h

theorem plain_run (kind : Kind) (isFirst isPart : Char → Bool) :
    (run kind isFirst isPart).Plain kind := by
  intro cs m h
  unfold run at h
  split at h
  · cases h
  · split at h
    · exact Option.some.inj h ▸ ⟨rfl, rfl⟩
    · cases h

theorem plain_directive : Plain directive .directive := by
  intro cs m h
  obtain ⟨_, _, -, -, hkind, -, hfault, -⟩ := exists_of_directive h
  exact ⟨hkind, hfault⟩

theorem plain_continuation : Plain continuation .continuation := by
  intro cs m h
  unfold continuation at h
  split at h
  · split at h
    · exact Option.some.inj h ▸ ⟨rfl, rfl⟩
    · cases h
  · cases h

theorem hasKind_looseBackslash : HasKind looseBackslash .continuation := by
  intro cs m h
  unfold looseBackslash at h
  split at h
  · split at h
    · cases h
    · exact Option.some.inj h ▸ rfl
  · cases h

theorem plain_lineComment : Plain lineComment .lineComment := by
  intro cs m h
  unfold lineComment at h
  split at h
  · exact Option.some.inj h ▸ ⟨rfl, rfl⟩
  · cases h

theorem hasKind_blockComment : HasKind blockComment .blockComment := by
  intro cs m h
  unfold blockComment at h
  split at h
  · split at h <;> exact Option.some.inj h ▸ rfl
  · cases h

theorem plain_string : Plain string .string := by
  intro cs m h
  unfold string at h
  split at h
  · split at h
    · exact Option.some.inj h ▸ ⟨rfl, rfl⟩
    · cases h
  · cases h

theorem plain_number : Plain number .number := by
  intro cs m h
  unfold number at h
  split at h
  · exact Option.some.inj h ▸ ⟨rfl, rfl⟩
  · cases h

/-- **Every rule has one kind**, never the end of the text; line ends, directives and numerals have
a rule of their own. -/
theorem exists_hasKind : ∀ rule ∈ rules,
    ∃ kind, rule.HasKind kind ∧ kind ≠ .eof ∧ (kind = .newline → rule = fixed .newline ['\n'])
      ∧ (kind = .directive → rule = directive) ∧ (kind = .number → rule = number) := by
  refine forall_mem_rules ?_ ?_ ?_ ?_ ?_ ?_ ?_ ?_ ?_ ?_ (fun spelling _ => ?_)
    (fun spelling _ => ?_)
  · exact ⟨_, plain_directive.hasKind, nofun, nofun, fun _ => rfl, nofun⟩
  · exact ⟨_, (plain_fixed _ _).hasKind, nofun, fun _ => rfl, nofun, nofun⟩
  · exact ⟨_, (plain_run _ _ _).hasKind, nofun, nofun, nofun, nofun⟩
  · exact ⟨_, plain_continuation.hasKind, nofun, nofun, nofun, nofun⟩
  · exact ⟨_, hasKind_looseBackslash, nofun, nofun, nofun, nofun⟩
  · exact ⟨_, plain_lineComment.hasKind, nofun, nofun, nofun, nofun⟩
  · exact ⟨_, hasKind_blockComment, nofun, nofun, nofun, nofun⟩
  · exact ⟨_, plain_string.hasKind, nofun, nofun, nofun, nofun⟩
  · exact ⟨_, plain_number.hasKind, nofun, nofun, nofun, fun _ => rfl⟩
  · exact ⟨_, (plain_run _ _ _).hasKind, nofun, nofun, nofun, nofun⟩
  · exact ⟨_, (plain_fixed _ _).hasKind, nofun, nofun, nofun, nofun⟩
  · exact ⟨_, (plain_fixed _ _).hasKind, nofun, nofun, nofun, nofun⟩

/-- Only one rule finds directives. -/
theorem eq_directive_of_kind_directive {rule : Rule} (h : rule ∈ rules) {cs : List Char}
    {m : Lexeme} (hm : rule cs = some m) (hkind : m.kind = .directive) : rule = directive := by
  obtain ⟨kind, hhas, -, -, hrule, -⟩ := exists_hasKind rule h
  exact hrule ((hhas cs m hm).symm.trans hkind)

/-- …and only one finds numerals. -/
theorem eq_number_of_kind_number {rule : Rule} (h : rule ∈ rules) {cs : List Char} {m : Lexeme}
    (hm : rule cs = some m) (hkind : m.kind = .number) : rule = number := by
  obtain ⟨kind, hhas, -, -, -, hrule⟩ := exists_hasKind rule h
  exact hrule ((hhas cs m hm).symm.trans hkind)

theorem kind_ne_eof {rule : Rule} (h : rule ∈ rules) {cs : List Char} {m : Lexeme}
    (hm : rule cs = some m) : m.kind ≠ .eof := by
  obtain ⟨kind, hkind, hne, -⟩ := exists_hasKind rule h
  exact hkind cs m hm ▸ hne

/-- A line end is one character. -/
theorem take_eq_of_kind_newline {rule : Rule} (h : rule ∈ rules) {cs : List Char} {m : Lexeme}
    (hm : rule cs = some m) (hnewline : m.kind = .newline) : cs.take m.length = ['\n'] := by
  obtain ⟨kind, hkind, -, hrule, -⟩ := exists_hasKind rule h
  obtain rfl := hrule ((hkind cs m hm).symm.trans hnewline)
  unfold fixed at hm
  split at hm
  · rename_i hfound
    obtain rfl := Option.some.inj hm
    exact (List.prefix_iff_eq_take.1 (List.isPrefixOf_iff_prefix.1 hfound.2)).symm
  · cases hm

end Rule

end IncludeScan
