import IncludeScan.Proofs.Token.Newlines

/-!
# Proofs/Token/Seams — where two tokens meet, one of the two characters there is an ASCII character

A lexeme begins with an ASCII character.  It ends with one, too, or else in front of one or with the
text: a line comment stops in front of its newline, and a fault takes all that is left.  Text that
no rule claims ends where a lexeme begins.

So wherever a text is cut there is a seam, one side of which is ASCII or empty (`Matches.seam`,
`Longest.seam_add`, `Unclaimed.seam`).
-/

namespace IncludeScan

/-- **A seam**: on one side of the place stands an ASCII character, or nothing. -/
def Text.Seam (cs : List Char) (p : Nat) : Prop :=
  (∀ c ∈ (cs.take p).getLast?, c.toNat < 0x80) ∨ ∀ c ∈ (cs.drop p).head?, c.toNat < 0x80

namespace Text

theorem seam_zero (cs : List Char) : Seam cs 0 := Or.inl (by simp)

theorem seam_of_length_le {cs : List Char} {p : Nat} (h : cs.length ≤ p) : Seam cs p :=
  Or.inr (by simp [List.drop_eq_nil_of_le h])

/-- A text of ASCII characters ends in a seam. -/
theorem seam_of_forall {cs : List Char} {p : Nat} (h : ∀ c ∈ cs.take p, c.toNat < 0x80) :
    Seam cs p :=
  Or.inl fun c hc => h c (List.mem_of_getLast? hc)

/-- There is a seam behind an ASCII character. -/
theorem seam_concat (front : List Char) {c : Char} (hc : c.toNat < 0x80) (back : List Char) :
    Seam (front ++ c :: back) (front.length + 1) := by
  refine Or.inl ?_
  rw [List.take_length_add_append, List.take_succ_cons, List.take_zero, List.getLast?_concat]
  exact fun d hd => Option.mem_some.1 hd ▸ hc

end Text

/-! ## Where lexemes begin and end -/

theorem toNat_lt_of_isIdentPart {c : Char} (h : isIdentPart c = true) : c.toNat < 0x80 := by
  rw [isIdentPart_iff] at h
  omega

namespace Rule

theorem toNat_lt_of_isBlank {c : Char} (h : isBlank c = true) : c.toNat < 0x80 := by
  rw [isBlank_iff] at h
  omega

theorem toNat_lt_of_mem_spelling : ∀ spelling ∈ operatorSpellings ++ punctSpellings,
    ∀ c ∈ spelling, c.toNat < 0x80 := by decide

/-- **Every lexeme begins with an ASCII character.** -/
theorem CanBegin.toNat_lt {c : Char} {rule : Rule} (h : CanBegin c rule) : c.toNat < 0x80 := by
  cases h with
  | blanks h => exact toNat_lt_of_isBlank h
  | number h =>
    rw [isDigit_iff] at h
    omega
  | word h => exact toNat_lt_of_isIdentPart (isIdentPart_of_start h)
  | op h => exact toNat_lt_of_mem_spelling _ (List.mem_append_left _ h) c List.mem_cons_self
  | punct h => exact toNat_lt_of_mem_spelling _ (List.mem_append_right _ h) c List.mem_cons_self
  | _ h =>
    rw [h]
    decide

/-- What the rule finds ends in a seam. -/
def EndsInSeam (rule : Rule) : Prop := ∀ cs m, rule cs = some m → Text.Seam cs m.length

theorem endsInSeam_fixed (kind : Kind) {spelling : List Char}
    (h : ∀ c ∈ spelling, c.toNat < 0x80) : (fixed kind spelling).EndsInSeam := by
  intro cs m hm
  unfold fixed at hm
  split at hm
  · rename_i hp
    obtain rfl := Option.some.inj hm
    obtain ⟨tail, rfl⟩ := List.isPrefixOf_iff_prefix.1 hp.2
    refine Text.seam_of_forall ?_
    rwa [List.take_left]
  · cases hm

theorem endsInSeam_run (kind : Kind) {isFirst isPart : Char → Bool}
    (hfirst : ∀ c, isFirst c = true → c.toNat < 0x80)
    (hpart : ∀ c, isPart c = true → c.toNat < 0x80) : (run kind isFirst isPart).EndsInSeam := by
  intro cs m hm
  cases cs with
  | nil => cases hm
  | cons c cs =>
    rw [run] at hm
    split at hm
    · rename_i hc
      obtain rfl := Option.some.inj hm
      refine Text.seam_of_forall ?_
      dsimp only
      rw [Nat.add_comm, List.take_succ_cons, take_length_takeWhile]
      exact List.forall_mem_cons.2 ⟨hfirst c hc, fun d hd => hpart d (List.mem_takeWhile_imp hd)⟩
    · cases hm

theorem endsInSeam_directive : EndsInSeam directive := by
  intro cs m hm
  obtain ⟨ds, k, rfl, -, -, -, -, hlength⟩ := exists_of_directive hm
  refine Text.seam_of_forall ?_
  rw [hlength, Nat.add_assoc, Nat.add_comm, List.take_succ_cons, List.take_add,
    take_length_takeWhile, drop_length_takeWhile, take_length_takeWhile]
  refine List.forall_mem_cons.2
    ⟨by decide, List.forall_mem_append.2 ⟨fun c hc => ?_, fun c hc => ?_⟩⟩
  · exact toNat_lt_of_isBlank (List.mem_takeWhile_imp hc)
  · exact toNat_lt_of_isIdentPart (List.mem_takeWhile_imp hc)

theorem endsInSeam_continuation : EndsInSeam continuation := by
  intro cs m hm
  obtain ⟨blanks, rest, rfl, -, -, hlength⟩ := exists_of_continuation hm
  rw [hlength]
  exact Text.seam_concat ('\\' :: blanks) (by decide) rest

theorem endsInSeam_looseBackslash : EndsInSeam looseBackslash := by
  intro cs m hm
  unfold looseBackslash at hm
  split at hm
  · split at hm
    · cases hm
    · obtain rfl := Option.some.inj hm
      refine Text.seam_of_length_le ?_
      rw [List.length_cons, Nat.add_comm]
  · cases hm

/-- A line comment ends in front of a newline. -/
theorem endsInSeam_lineComment : EndsInSeam lineComment := by
  intro cs m hm
  unfold lineComment at hm
  split at hm
  · rename_i cs
    obtain rfl := Option.some.inj hm
    refine Or.inr ?_
    dsimp only
    rw [Nat.add_comm, List.drop_succ_cons, List.drop_succ_cons, drop_length_takeWhile]
    intro c hc
    have hline := List.head?_dropWhile_not (· != '\n') cs
    rw [Option.mem_def.1 hc] at hline
    obtain rfl : c = '\n' := by simpa using hline
    decide
  · cases hm

theorem endsInSeam_blockComment : EndsInSeam blockComment := by
  intro cs m hm
  unfold blockComment at hm
  split at hm
  · split at hm
    · rename_i n hn
      obtain rfl := Option.some.inj hm
      obtain ⟨body, rest, rfl, -, rfl⟩ := exists_of_closing? hn
      have hseam := Text.seam_concat ('/' :: '*' :: (body ++ ['*'])) (c := '/') (by decide) rest
      have hlength : ('/' :: '*' :: (body ++ ['*'])).length + 1 = 2 + (body.length + 2) := by
        simp only [List.length_cons, List.length_append, List.length_nil]
        omega
      rw [hlength] at hseam
      simpa using hseam
    · obtain rfl := Option.some.inj hm
      refine Text.seam_of_length_le ?_
      simp only [List.length_cons]
      omega
  · cases hm

/-- A string has its closing quote at its end. -/
theorem exists_of_stringEnd? {cs : List Char} {n : Nat} (h : stringEnd? cs = some n) :
    ∃ body rest, cs = body ++ '"' :: rest ∧ n = body.length + 1 := by
  fun_induction stringEnd? cs generalizing n with
  | case1 rest => exact ⟨[], rest, rfl, (Option.some.inj h).symm⟩
  | case2 => cases h
  | case3 => cases h
  | case4 c cs _ ih =>
    obtain ⟨k, hk, rfl⟩ := Option.map_eq_some_iff.1 h
    obtain ⟨body, rest, rfl, rfl⟩ := ih hk
    exact ⟨'\\' :: c :: body, rest, rfl, rfl⟩
  | case5 => cases h
  | case6 c cs _ _ _ _ ih =>
    obtain ⟨k, hk, rfl⟩ := Option.map_eq_some_iff.1 h
    obtain ⟨body, rest, rfl, rfl⟩ := ih hk
    exact ⟨c :: body, rest, rfl, rfl⟩
  | case7 => cases h

theorem endsInSeam_string : EndsInSeam string := by
  intro cs m hm
  unfold string at hm
  split at hm
  · split at hm
    · rename_i n hn
      obtain rfl := Option.some.inj hm
      obtain ⟨body, rest, rfl, rfl⟩ := exists_of_stringEnd? hn
      dsimp only
      rw [Nat.add_comm]
      exact Text.seam_concat ('"' :: body) (by decide) rest
    · cases hm
  · cases hm

theorem endsInSeam_number : EndsInSeam number := by
  intro cs m hm
  unfold number at hm
  split at hm
  · rename_i n hn
    obtain rfl := Option.some.inj hm
    obtain ⟨tail, htail⟩ := Numeral.exists_append hn
    refine Text.seam_of_forall ?_
    dsimp only
    rw [htail, List.take_left]
    exact fun c hc => toNat_lt_of_isIdentPart (Numeral.isIdentPart_of_mem_spelling hn hc)
  · cases hm

/-- **Whatever a rule finds ends in a seam.** -/
theorem endsInSeam_of_mem {rule : Rule} (h : rule ∈ rules) : rule.EndsInSeam :=
  forall_mem_rules endsInSeam_directive (endsInSeam_fixed _ (by decide))
    (endsInSeam_run _ (fun _ => toNat_lt_of_isBlank) fun _ => toNat_lt_of_isBlank)
    endsInSeam_continuation endsInSeam_looseBackslash endsInSeam_lineComment endsInSeam_blockComment
    endsInSeam_string endsInSeam_number
    (endsInSeam_run _ (fun _ hc => toNat_lt_of_isIdentPart (isIdentPart_of_start hc))
      fun _ => toNat_lt_of_isIdentPart)
    (fun spelling hs => endsInSeam_fixed _
      (toNat_lt_of_mem_spelling spelling (List.mem_append_left _ hs)))
    (fun spelling hs => endsInSeam_fixed _
      (toNat_lt_of_mem_spelling spelling (List.mem_append_right _ hs))) rule h

end Rule

/-! ## Where a text is cut -/

variable {text : List Char} {p : Nat}

/-- There is a seam where a lexeme begins. -/
theorem Matches.seam {rank : Nat} {m : Lexeme} (h : Matches text p rank m) : Text.Seam text p := by
  obtain ⟨rule, hrule, hm⟩ := h
  refine Or.inr fun c hc => ?_
  obtain ⟨tail, htail⟩ := List.head?_eq_some_iff.1 hc
  rw [htail] at hm
  exact (Rule.canBegin_of_mem (List.mem_of_getElem? hrule) hm).toNat_lt

/-- …and where it ends. -/
theorem Longest.seam_add {m : Lexeme} (h : Longest text p m) (hp : p < text.length) :
    Text.Seam text (p + m.length) := by
  obtain ⟨rank, ⟨rule, hrule, hm⟩, -⟩ := h
  rcases Rule.endsInSeam_of_mem (List.mem_of_getElem? hrule) _ _ hm with hend | hnext
  · refine Or.inl ?_
    have hne : (text.drop p).take m.length ≠ [] := by
      rw [Ne, List.take_eq_nil_iff, List.drop_eq_nil_iff]
      have hpos := m.length_pos
      omega
    rw [List.take_add, List.getLast?_append, List.getLast?_eq_some_getLast hne, Option.some_or]
    rwa [List.getLast?_eq_some_getLast hne] at hend
  · refine Or.inr ?_
    rwa [← List.drop_drop]

theorem Unclaimed.seam {q : Nat} (h : Unclaimed text p q) : Text.Seam text q := by
  rcases h.next with rfl | ⟨rank, m, hm⟩
  · exact Text.seam_of_length_le (Nat.le_refl _)
  · exact hm.seam

end IncludeScan
