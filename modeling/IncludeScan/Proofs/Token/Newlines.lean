import IncludeScan.Proofs.Token.Pieces

/-!
# Proofs/Token/Newlines — which tokens hold a newline

Only a newline by itself, a continued line end and a block comment hold one (`Kind.spansLines`).
Every other rule stops in front of it (`Rule.oneLine_of_mem`), and so does text that no rule claims,
since a newline is always claimed (`Piece.Fits.newline_notMem`).
-/

namespace IncludeScan

/-- Kinds of tokens that reach over a line end. -/
def Kind.spansLines : Kind → Bool
  | .newline | .continuation | .blockComment => true
  | _ => false

namespace Rule

/-- The rule finds no newline in a token that keeps to its line. -/
def OneLine (rule : Rule) : Prop :=
  ∀ cs m, rule cs = some m → m.kind.spansLines = false → '\n' ∉ cs.take m.length

theorem oneLine_fixed (kind : Kind) {spelling : List Char}
    (h : kind.spansLines = true ∨ '\n' ∉ spelling) : (fixed kind spelling).OneLine := by
  intro cs m hm hkind
  unfold fixed at hm
  split at hm
  · rename_i hp
    obtain rfl := Option.some.inj hm
    obtain ⟨tail, rfl⟩ := List.isPrefixOf_iff_prefix.1 hp.2
    rw [List.take_left]
    exact h.resolve_left (Bool.eq_false_iff.1 hkind)
  · cases hm

/-- As many characters as a run has are the run. -/
theorem take_length_takeWhile (p : Char → Bool) (cs : List Char) :
    cs.take (cs.takeWhile p).length = cs.takeWhile p :=
  (List.prefix_iff_eq_take.1 (List.takeWhile_prefix p)).symm

theorem drop_length_takeWhile (p : Char → Bool) (cs : List Char) :
    cs.drop (cs.takeWhile p).length = cs.dropWhile p := by
  have hsplit := (List.take_append_drop (cs.takeWhile p).length cs).trans
    (List.takeWhile_append_dropWhile (p := p) (l := cs)).symm
  rw [take_length_takeWhile] at hsplit
  exact List.append_cancel_left hsplit

theorem newline_notMem_takeWhile {p : Char → Bool} (h : p '\n' = false) (cs : List Char) :
    '\n' ∉ cs.takeWhile p :=
  fun hmem => Bool.eq_false_iff.1 h (List.mem_takeWhile_imp hmem)

theorem oneLine_run (kind : Kind) {isFirst isPart : Char → Bool} (hfirst : isFirst '\n' = false)
    (hpart : isPart '\n' = false) : (run kind isFirst isPart).OneLine := by
  intro cs m hm _
  cases cs with
  | nil => cases hm
  | cons c cs =>
    rw [run] at hm
    split at hm
    · rename_i hc
      obtain rfl := Option.some.inj hm
      dsimp only
      rw [Nat.add_comm, List.take_succ_cons, take_length_takeWhile, List.mem_cons, not_or]
      exact ⟨fun hline => Bool.eq_false_iff.1 hfirst (hline ▸ hc),
        newline_notMem_takeWhile hpart cs⟩
    · cases hm

theorem oneLine_directive : OneLine directive := by
  intro cs m hm _
  obtain ⟨ds, k, rfl, -, -, -, -, hlength⟩ := exists_of_directive hm
  rw [hlength, Nat.add_assoc, Nat.add_comm, List.take_succ_cons, List.take_add,
    take_length_takeWhile, drop_length_takeWhile, take_length_takeWhile]
  simp only [List.mem_cons, List.mem_append, not_or]
  exact ⟨by decide, newline_notMem_takeWhile (by decide) _, newline_notMem_takeWhile (by decide) _⟩

/-- What a continuation is found as. -/
theorem exists_of_continuation {cs : List Char} {m : Lexeme} (h : continuation cs = some m) :
    ∃ blanks rest, cs = '\\' :: (blanks ++ '\n' :: rest) ∧ (∀ c ∈ blanks, isBlank c = true)
      ∧ m.kind = .continuation ∧ m.length = blanks.length + 2 := by
  unfold continuation at h
  split at h
  · rename_i tail
    split at h
    · rename_i rest hrest
      obtain rfl := Option.some.inj h
      refine ⟨tail.takeWhile isBlank, rest, ?_, fun c hc => List.mem_takeWhile_imp hc, rfl, ?_⟩
      · rw [← hrest, List.takeWhile_append_dropWhile]
      · dsimp only
        omega
    · cases h
  · cases h

theorem oneLine_continuation : OneLine continuation := by
  intro cs m hm hkind
  unfold continuation at hm
  split at hm
  · split at hm
    · obtain rfl := Option.some.inj hm
      cases hkind
    · cases hm
  · cases hm

theorem oneLine_looseBackslash : OneLine looseBackslash := by
  intro cs m hm hkind
  unfold looseBackslash at hm
  split at hm
  · split at hm
    · cases hm
    · obtain rfl := Option.some.inj hm
      cases hkind
  · cases hm

theorem oneLine_lineComment : OneLine lineComment := by
  intro cs m hm _
  unfold lineComment at hm
  split at hm
  · rename_i cs
    obtain rfl := Option.some.inj hm
    dsimp only
    rw [Nat.add_comm, List.take_succ_cons, List.take_succ_cons, take_length_takeWhile]
    simp only [List.mem_cons, not_or]
    exact ⟨by decide, by decide, newline_notMem_takeWhile (by decide) cs⟩
  · cases hm

/-- What closes a block comment is the first star and slash. -/
theorem exists_of_closing? {cs : List Char} {n : Nat} (h : closing? cs = some n) :
    ∃ body rest, cs = body ++ '*' :: '/' :: rest ∧ ¬ ['*', '/'] <:+: body
      ∧ n = body.length + 2 := by
  fun_induction closing? cs generalizing n with
  | case1 rest => exact ⟨[], rest, rfl, by simp, (Option.some.inj h).symm⟩
  | case2 c cs hne ih =>
    obtain ⟨k, hk, rfl⟩ := Option.map_eq_some_iff.1 h
    obtain ⟨body, rest, rfl, hbody, rfl⟩ := ih hk
    refine ⟨c :: body, rest, rfl, ?_, rfl⟩
    rw [List.infix_cons_iff, not_or]
    refine ⟨?_, hbody⟩
    rintro ⟨tail, htail⟩
    obtain ⟨rfl, rfl⟩ := List.cons.inj htail
    exact hne _ rfl rfl
  | case3 => cases h

theorem oneLine_blockComment : OneLine blockComment := by
  intro cs m hm hkind
  unfold blockComment at hm
  split at hm
  · split at hm
    · obtain rfl := Option.some.inj hm
      cases hkind
    · obtain rfl := Option.some.inj hm
      cases hkind
  · cases hm

theorem newline_notMem_stringEnd? {cs : List Char} {n : Nat} (h : stringEnd? cs = some n) :
    '\n' ∉ cs.take n := by
  fun_induction stringEnd? cs generalizing n with
  | case1 cs =>
    obtain rfl := Option.some.inj h
    simp
  | case2 => cases h
  | case3 => cases h
  | case4 c cs hc ih =>
    obtain ⟨k, hk, rfl⟩ := Option.map_eq_some_iff.1 h
    have hline : '\n' ≠ c := fun hline => hc (hline ▸ rfl)
    simpa [hline] using ih hk
  | case5 => cases h
  | case6 c cs _ _ _ hc ih =>
    obtain ⟨k, hk, rfl⟩ := Option.map_eq_some_iff.1 h
    have hline : '\n' ≠ c := fun hline => hc hline.symm
    simpa [hline] using ih hk
  | case7 => cases h

theorem oneLine_string : OneLine string := by
  intro cs m hm _
  unfold string at hm
  split at hm
  · split at hm
    · rename_i n hn
      obtain rfl := Option.some.inj hm
      dsimp only
      rw [Nat.add_comm, List.take_succ_cons, List.mem_cons, not_or]
      exact ⟨by decide, newline_notMem_stringEnd? hn⟩
    · cases hm
  · cases hm

theorem oneLine_number : OneLine number := by
  intro cs m hm _
  unfold number at hm
  split at hm
  · rename_i n hn
    obtain rfl := Option.some.inj hm
    obtain ⟨tail, htail⟩ := Numeral.exists_append hn
    dsimp only
    rw [htail, List.take_left]
    intro hline
    exact absurd (Numeral.isIdentPart_of_mem_spelling hn hline) (by decide)
  · cases hm

/-- **No rule takes a newline**, line ends and block comments apart. -/
theorem oneLine_of_mem {rule : Rule} (h : rule ∈ rules) : rule.OneLine :=
  forall_mem_rules oneLine_directive (oneLine_fixed _ (Or.inl rfl))
    (oneLine_run _ (by decide) (by decide)) oneLine_continuation oneLine_looseBackslash
    oneLine_lineComment oneLine_blockComment oneLine_string oneLine_number
    (oneLine_run _ (by decide) (by decide))
    (fun spelling hs => oneLine_fixed _
      (Or.inr ((by decide : ∀ s ∈ operatorSpellings, '\n' ∉ s) spelling hs)))
    (fun spelling hs => oneLine_fixed _
      (Or.inr ((by decide : ∀ s ∈ punctSpellings, '\n' ∉ s) spelling hs))) rule h

end Rule

/-- Where a newline stands, a rule claims it. -/
theorem exists_matches_newline {text : List Char} {p : Nat} (h : text[p]? = some '\n') :
    ∃ m, Matches text p 1 m := by
  obtain ⟨tail, htail⟩ : ∃ tail, text.drop p = '\n' :: tail :=
    ⟨text.drop (p + 1), (List.drop_eq_getElem?_toList_append.trans (by rw [h]; rfl))⟩
  exact ⟨_, _, rfl, by rw [htail]; rfl⟩

/-- **A piece holds a newline only where its kind reaches over line ends.** -/
theorem Piece.Fits.newline_notMem {x : Piece} {rest : List Char} (h : x.Fits rest)
    (hkind : x.kind.spansLines = false) : '\n' ∉ x.text := by
  cases h with
  | lexeme hm hkind' hlength =>
    obtain ⟨rank, ⟨rule, hrule, hm⟩, -⟩ := hm
    have hline := Rule.oneLine_of_mem (List.mem_of_getElem? hrule) _ _ hm (hkind' ▸ hkind)
    rwa [hlength, List.drop_zero, List.take_left] at hline
  | unclaimed hu =>
    intro hline
    obtain ⟨i, hi, hget⟩ := List.mem_iff_getElem.1 hline
    obtain ⟨m, hm⟩ := @exists_matches_newline (x.text ++ rest) i
      (by rw [List.getElem?_append_left hi, List.getElem?_eq_getElem hi, hget])
    exact hu.free i (Nat.zero_le i) hi 1 m hm

/-- Laid pieces that keep to their line are on one line. -/
theorem Piece.newline_notMem_flat {xs : List Piece} {rest : List Char} (h : Laid xs rest)
    (hkinds : ∀ x ∈ xs, x.kind.spansLines = false) : '\n' ∉ flat xs := by
  induction xs with
  | nil => simp
  | cons x xs ih =>
    obtain ⟨hx, hxs⟩ := laid_cons.1 h
    obtain ⟨hkind, hkinds⟩ := List.forall_mem_cons.1 hkinds
    rw [flat_cons, List.mem_append, not_or]
    exact ⟨hx.newline_notMem hkind, ih hxs hkinds⟩

end IncludeScan
