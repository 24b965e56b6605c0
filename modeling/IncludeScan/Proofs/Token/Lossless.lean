import IncludeScan.Proofs.Token.Run
import IncludeScan.Token.Stream

/-!
# Proofs/Token/Lossless — the tokens of a text are the text

The tokens lie end to end from the beginning of the text (`Tiled`), each is what stands in its span,
and none is empty; they stop at the end of the text or at the place of a fault (`Stop`).

A stream over the text gives these tokens one by one and then the end token or the error
(`Stream.gives_ofText`).

`tokenize_lossless` — all of this about `tokenize`.
-/

namespace IncludeScan

/-! ## Code units of a part of a text -/

namespace Text

theorem unitCount_pos {cs : List Char} (h : cs ≠ []) : 0 < unitCount cs := by
  obtain ⟨c, cs, rfl⟩ := List.exists_cons_of_ne_nil h
  have hc : 0 < (charUnits c).length := by
    unfold charUnits
    split <;> simp
  rw [unitCount]
  omega

theorem unitCount_take_lt {text : List Char} {p q : Nat} (hpq : p < q) (hq : q ≤ text.length) :
    unitCount (text.take p) < unitCount (text.take q) := by
  obtain ⟨k, rfl⟩ := Nat.exists_eq_add_of_lt hpq
  have hne : (text.drop p).take (k + 1) ≠ [] := by
    simp only [ne_eq, List.take_eq_nil_iff, List.drop_eq_nil_iff]
    omega
  have hpos := unitCount_pos hne
  rw [Nat.add_assoc, List.take_add, unitCount_append]
  omega

/-- **The units between two places are those of the characters between them.** -/
theorem extract_units (text : String) {p q : Nat} (hpq : p ≤ q) :
    (units text).extract (unitCount (text.toList.take p)) (unitCount (text.toList.take q))
      = units (String.ofList ((text.toList.drop p).take (q - p))) := by
  obtain ⟨k, rfl⟩ := Nat.exists_eq_add_of_le hpq
  have hlength (cs : List Char) : unitCount cs = (units (String.ofList cs)).length := by
    rw [length_units, String.toList_ofList]
  have happend (as bs : List Char) : units (String.ofList (as ++ bs))
      = units (String.ofList as) ++ units (String.ofList bs) := by
    simp [units]
  have htext : units text = units (String.ofList (text.toList.take p))
      ++ (units (String.ofList ((text.toList.drop p).take k))
        ++ units (String.ofList ((text.toList.drop p).drop k))) := by
    rw [← happend, List.take_append_drop, ← happend, List.take_append_drop, String.ofList_toList]
  rw [List.take_add, unitCount_append, List.extract_eq_take_drop, Nat.add_sub_cancel_left,
    Nat.add_sub_cancel_left, htext, hlength (text.toList.take p), List.drop_left, hlength,
    List.take_left]

end Text

/-! ## End to end -/

/-- The tokens are not empty and lie **end to end** from one offset to another. -/
def EndToEnd : Nat → List Token → Nat → Prop
  | start, [], stop => start = stop
  | start, t :: ts, stop =>
    t.span.start = start ∧ start < t.span.stop ∧ EndToEnd t.span.stop ts stop

/-- **The tokens are the parts of the text from one place to another**, none of them empty. -/
inductive Tiled (text : List Char) : Nat → List Token → Nat → Prop
  | nil (p : Nat) : Tiled text p [] p
  | cons {p q stop : Nat} {kind : Kind} {keyword : Option Keyword} {ts : List Token} (hpq : p < q)
      (hq : q ≤ text.length) (hkind : kind ≠ .eof) (rest : Tiled text q ts stop) :
      Tiled text p (tokenAt text kind keyword p q :: ts) stop

/-- **Where the tokens stop**: at the end of the text, or at the place of a fault. -/
inductive Stop (text : List Char) : Nat → Except ScanError Token → Prop
  | ended : Stop text text.length (.ok (tokenAt text .eof none text.length text.length))
  | fault {p : Nat} (f : Fault) (hp : p < text.length) : Stop text p (.error ⟨f, cursorAt text p⟩)

theorem Longest.kind_ne_eof {text : List Char} {p : Nat} {m : Lexeme} (h : Longest text p m) :
    m.kind ≠ .eof := by
  obtain ⟨rank, ⟨rule, hrule, hm⟩, -⟩ := h
  exact Rule.kind_ne_eof (List.mem_of_getElem? hrule) hm

/-- **A text is cut into parts that lie end to end**, up to where it stops. -/
theorem Cut.exists_tiled {text : List Char} {p : Nat} {r : Tokenization} (h : Cut text p r) :
    ∃ stop, Tiled text p r.tokens stop ∧ Stop text stop r.ending := by
  induction h with
  | ended => exact ⟨_, .nil _, .ended⟩
  | fault hp hm hf => exact ⟨_, .nil _, .fault _ hp⟩
  | @lexeme p m r hp hm hf _ ih =>
    obtain ⟨stop, htiled, hstop⟩ := ih
    have hlt : p < p + m.length := Nat.lt_add_of_pos_right m.length_pos
    exact ⟨stop, .cons hlt (hm.length_le hp) hm.kind_ne_eof htiled, hstop⟩
  | word hu _ ih =>
    obtain ⟨stop, htiled, hstop⟩ := ih
    exact ⟨stop, .cons hu.lt hu.le (by decide) htiled, hstop⟩

namespace Tiled

variable {text : List Char} {p stop : Nat} {ts : List Token}

theorem le (h : Tiled text p ts stop) : p ≤ stop := by
  induction h with
  | nil => exact le_refl _
  | cons hpq _ _ _ ih => exact hpq.le.trans ih

/-- The characters of the tokens are those of the text from place to place. -/
theorem flatMap_value (h : Tiled text p ts stop) :
    ts.flatMap (fun t => t.value.toList) = (text.drop p).take (stop - p) := by
  induction h with
  | nil => simp
  | @cons p q stop kind keyword ts hpq hq _ rest ih =>
    have hsplit : stop - p = (q - p) + (stop - q) := by
      have := rest.le
      omega
    rw [List.flatMap_cons, ih, hsplit, List.take_add, List.drop_drop, Nat.add_sub_cancel' hpq.le,
      tokenAt, String.toList_ofList]

theorem endToEnd (h : Tiled text p ts stop) :
    EndToEnd (Text.unitCount (text.take p)) ts (Text.unitCount (text.take stop)) := by
  induction h with
  | nil => exact rfl
  | cons hpq hq _ _ ih => exact ⟨rfl, Text.unitCount_take_lt hpq hq, ih⟩

/-- **Each token is what stands in its span**, and no token is empty or an end token. -/
theorem forall_mem {text : String} (h : Tiled text.toList p ts stop) :
    ∀ t ∈ ts, t.value ≠ "" ∧ t.kind ≠ .eof
      ∧ Text.units t.value = (Text.units text).extract t.span.start t.span.stop := by
  induction h with
  | nil => simp
  | @cons p q stop kind keyword ts hpq hq hkind _ ih =>
    refine List.forall_mem_cons.2
      ⟨⟨fun hempty => ?_, hkind, (Text.extract_units text hpq.le).symm⟩, ih⟩
    have hnil := congrArg (fun s => s.toList.length) hempty
    simp only [tokenAt, String.toList_ofList, List.length_take, List.length_drop,
      String.toList_empty, List.length_nil] at hnil
    omega

end Tiled

/-! ## One token after the other -/

namespace Stream

variable {σ ε : Type}

/-- **What a stream gives when it is asked again and again**: tokens, and at last the end token or
an error. -/
inductive Gives (pull : Pull σ ε) : Stream σ → List Token → Except ε Token → Prop
  | ended {s s' : Stream σ} {t : Token} (h : s.next pull = (.ok t, s')) (ht : t.kind = .eof) :
      Gives pull s [] (.ok t)
  | failed {s s' : Stream σ} {e : ε} (h : s.next pull = (.error e, s')) : Gives pull s [] (.error e)
  | token {s s' : Stream σ} {t : Token} {ts : List Token} {ending : Except ε Token}
      (h : s.next pull = (.ok t, s')) (ht : t.kind ≠ .eof) (rest : Gives pull s' ts ending) :
      Gives pull s (t :: ts) ending

theorem Gives.unique {pull : Pull σ ε} {s : Stream σ} {ts us : List Token} {x y : Except ε Token}
    (h : Gives pull s ts x) (h' : Gives pull s us y) : ts = us ∧ x = y := by
  induction h generalizing us with
  | ended hnext ht =>
    cases h' with
    | ended hnext' => exact ⟨rfl, (Prod.mk.inj (hnext.symm.trans hnext')).1⟩
    | failed hnext' => cases hnext.symm.trans hnext'
    | token hnext' ht' =>
      cases hnext.symm.trans hnext'
      exact absurd ht ht'
  | failed hnext =>
    cases h' with
    | ended hnext' => cases hnext.symm.trans hnext'
    | failed hnext' => exact ⟨rfl, (Prod.mk.inj (hnext.symm.trans hnext')).1⟩
    | token hnext' => cases hnext.symm.trans hnext'
  | token hnext ht _ ih =>
    cases h' with
    | ended hnext' ht' =>
      cases hnext.symm.trans hnext'
      exact absurd ht' ht
    | failed hnext' => cases hnext.symm.trans hnext'
    | token hnext' _ rest =>
      cases hnext.symm.trans hnext'
      obtain ⟨rfl, rfl⟩ := ih rest
      exact ⟨rfl, rfl⟩

/-- A stream that has nothing pushed back and has not ended asks the scanner. -/
theorem next_pull {s : Stream Scanner} (hpushed : s.pushed = []) (hended : s.ended = none) :
    s.next Scanner.pull
      = match s.source.next with
        | (.ok t, source) => (.ok t, { s with source }.receive t)
        | (.error e, source) => (.error e, { s with source }) := by
  simp only [next, hpushed, hended, Scanner.pull]
  rcases s.source.next with ⟨e | t, source⟩ <;> rfl

/-- **The tokens of a scanner's run, drawn one by one.** -/
theorem gives_run {scanner : Scanner} {s : Stream Scanner} (hsource : s.source = scanner)
    (hpushed : s.pushed = []) (hended : s.ended = none)
    (h : ∀ t ∈ scanner.run.tokens, t.kind ≠ .eof) :
    s.Gives Scanner.pull scanner.run.tokens scanner.run.ending := by
  have hnext := next_pull hpushed hended
  rw [hsource] at hnext
  fun_induction Scanner.run scanner generalizing s with
  | case1 scanner hnone =>
    simp only [Scanner.next, hnone] at hnext
    exact .ended hnext rfl
  | case2 scanner m hm f hf =>
    simp only [Scanner.next, hm, hf] at hnext
    exact .failed hnext
  | case3 scanner m hm hf _ ih =>
    obtain ⟨hkind, hrest⟩ := List.forall_mem_cons.1 h
    simp only [Scanner.next, hm, hf, receive, if_neg hkind] at hnext
    exact .token hnext hkind (ih rfl hpushed hended hrest (next_pull hpushed hended))

/-- **A stream over a text gives the tokens of the text** and then the end token or the error, and
nothing else. -/
theorem gives_ofText {text : String} {ts : List Token} {ending : Except ScanError Token} :
    (ofText text).Gives Scanner.pull ts ending
      ↔ ts = (tokenize text).tokens ∧ ending = (tokenize text).ending := by
  obtain ⟨stop, htiled, -⟩ := (cut_tokenize text).exists_tiled
  have hgives : (ofText text).Gives Scanner.pull (tokenize text).tokens (tokenize text).ending :=
    gives_run rfl rfl rfl fun t ht => (htiled.forall_mem t ht).2.1
  constructor
  · exact fun h => h.unique hgives
  · rintro ⟨rfl, rfl⟩
    exact hgives

end Stream

/-! ## The tokens of a text -/

/-- A place has a line and column of its own. -/
theorem cursorAt_injective {text : List Char} {p q : Nat} (hp : p ≤ text.length)
    (hq : q ≤ text.length) (h : cursorAt text p = cursorAt text q) : p = q := by
  rcases lt_trichotomy p q with hlt | heq | hgt
  · exact absurd (h ▸ cursorAt_before hlt hq) (Cursor.before_irrefl _)
  · exact heq
  · exact absurd (h ▸ cursorAt_before hgt hp) (Cursor.before_irrefl _)

theorem Tiled.join_values {text : String} {ts : List Token} {stop : Nat}
    (h : Tiled text.toList 0 ts stop) :
    String.join (ts.map Token.value) = String.ofList (text.toList.take stop) := by
  rw [← String.toList_inj, String.toList_join, List.flatMap_map, h.flatMap_value,
    String.toList_ofList, List.drop_zero, Nat.sub_zero]

/-- **Nothing is lost.**  Every token is what stands in its span, and none is empty or an end token;
a stream over the text gives these tokens, and the end token or the error behind them.  The tokens
lie end to end from the beginning: of a text without a fault up to its end, where the end token
stands, and otherwise up to the place of the fault, the only one that has the line and column of the
error. -/
theorem tokenize_lossless (text : String) :
    (∀ t ∈ (tokenize text).tokens, t.value ≠ "" ∧ t.kind ≠ .eof
      ∧ Text.units t.value = (Text.units text).extract t.span.start t.span.stop)
    ∧ (∀ ts ending, (Stream.ofText text).Gives Scanner.pull ts ending
        ↔ ts = (tokenize text).tokens ∧ ending = (tokenize text).ending)
    ∧ match (tokenize text).ending with
      | .ok eof =>
        EndToEnd 0 (tokenize text).tokens (Text.units text).length
        ∧ String.join ((tokenize text).tokens.map Token.value) = text
        ∧ (tokenize text).toExcept = .ok ((tokenize text).tokens ++ [eof])
        ∧ eof.kind = .eof ∧ eof.value = ""
        ∧ eof.span = ⟨(Text.units text).length, (Text.units text).length⟩
      | .error e =>
        (tokenize text).toExcept = .error e
        ∧ ∃ p < text.toList.length,
          (∀ q ≤ text.toList.length, cursorAt text.toList q = e.cursor ↔ q = p)
          ∧ EndToEnd 0 (tokenize text).tokens (Text.unitCount (text.toList.take p))
          ∧ String.join ((tokenize text).tokens.map Token.value)
            = String.ofList (text.toList.take p) := by
  obtain ⟨stop, htiled, hstop⟩ := (cut_tokenize text).exists_tiled
  refine ⟨htiled.forall_mem, fun ts ending => Stream.gives_ofText, ?_⟩
  have hends := htiled.endToEnd
  have hjoin := htiled.join_values
  rw [Tokenization.toExcept]
  generalize (tokenize text).ending = ending at hstop
  cases hstop with
  | ended =>
    rw [List.take_length] at hends hjoin
    rw [← Text.length_units] at hends
    refine ⟨hends, hjoin.trans String.ofList_toList, rfl, rfl, ?_, ?_⟩
    · simp [tokenAt]
    · simp [tokenAt, Text.length_units]
  | fault f hp =>
    refine ⟨rfl, stop, hp, fun q hq => ⟨fun hcursor => cursorAt_injective hq hp.le hcursor, ?_⟩,
      hends, hjoin⟩
    rintro rfl
    rfl

end IncludeScan
