import IncludeScan.Proofs.Token.Rules
import IncludeScan.Token.Scanner
import Mathlib.Data.Nat.Basic
import Mathlib.Order.Basic

/-!
# Proofs/Token/Cut — how a text is cut into tokens, place by place

`Cut` is the tokenization of a text without a scanner: at each place the longest lexeme that a rule
finds there, or, where none begins, a word up to the next place where one does.  Kinds, texts,
cursors and spans are read off the places.  A text is cut in one way (`Cut.unique`).
-/

namespace IncludeScan

/-! ## Cutting without a memory -/

/-- The rule of that rank finds the lexeme exactly at place `p` of the text. -/
def Matches (text : List Char) (p rank : Nat) (m : Lexeme) : Prop :=
  ∃ rule, rules[rank]? = some rule ∧ rule (text.drop p) = some m

/-- **The longest lexeme at a place**; of those of one length the one of the lowest rank. -/
def Longest (text : List Char) (p : Nat) (m : Lexeme) : Prop :=
  ∃ rank, Matches text p rank m ∧ ∀ rank' m', Matches text p rank' m' →
    m'.length < m.length ∨ (m'.length = m.length ∧ rank ≤ rank')

/-- **A part that no rule claims**: from `p` to the next place where a rule finds something, or to
the end of the text. -/
structure Unclaimed (text : List Char) (p q : Nat) : Prop where
  lt : p < q
  le : q ≤ text.length
  free : ∀ i, p ≤ i → i < q → ∀ rank m, ¬ Matches text i rank m
  next : q = text.length ∨ ∃ rank m, Matches text q rank m

/-- The line and column of a place. -/
def cursorAt (text : List Char) (p : Nat) : Cursor := Cursor.start.advance (text.take p)

/-- The characters from `p` to `q` as a token. -/
def tokenAt (text : List Char) (kind : Kind) (keyword : Option Keyword) (p q : Nat) : Token where
  kind := kind
  value := String.ofList ((text.drop p).take (q - p))
  cursor := cursorAt text p
  span := ⟨Text.unitCount (text.take p), Text.unitCount (text.take q)⟩
  keyword := keyword

/-- **How a text is cut from a place on.** -/
inductive Cut (text : List Char) : Nat → Tokenization → Prop
  | ended : Cut text text.length ⟨[], .ok (tokenAt text .eof none text.length text.length)⟩
  | fault {p : Nat} {m : Lexeme} {f : Fault} (hp : p < text.length) (hm : Longest text p m)
      (hf : m.fault = some f) : Cut text p ⟨[], .error ⟨f, cursorAt text p⟩⟩
  | lexeme {p : Nat} {m : Lexeme} {r : Tokenization} (hp : p < text.length) (hm : Longest text p m)
      (hf : m.fault = none) (rest : Cut text (p + m.length) r) :
      Cut text p (r.cons (tokenAt text m.kind m.keyword p (p + m.length)))
  | word {p q : Nat} {r : Tokenization} (h : Unclaimed text p q) (rest : Cut text q r) :
      Cut text p (r.cons (tokenAt text .word none p q))

/-- What holds of every lexeme and every word that a text is cut into holds of its tokens. -/
theorem Cut.forall_mem_tokens {text : List Char} {p : Nat} {r : Tokenization} (h : Cut text p r)
    {motive : Token → Prop}
    (lexeme : ∀ p m, p < text.length → Longest text p m →
      motive (tokenAt text m.kind m.keyword p (p + m.length)))
    (word : ∀ p q, Unclaimed text p q → motive (tokenAt text .word none p q)) :
    ∀ t ∈ r.tokens, motive t := by
  induction h with
  | ended => exact fun t ht => absurd ht List.not_mem_nil
  | fault => exact fun t ht => absurd ht List.not_mem_nil
  | lexeme hp hm _ _ ih => exact List.forall_mem_cons.2 ⟨lexeme _ _ hp hm, ih⟩
  | word hq _ ih => exact List.forall_mem_cons.2 ⟨word _ _ hq, ih⟩

/-! ## A text is cut in one way -/

theorem Matches.unique {text : List Char} {p rank : Nat} {m m' : Lexeme} (h : Matches text p rank m)
    (h' : Matches text p rank m') : m = m' := by
  obtain ⟨rule, hrule, hm⟩ := h
  obtain ⟨rule', hrule', hm'⟩ := h'
  obtain rfl := Option.some.inj (hrule.symm.trans hrule')
  exact Option.some.inj (hm.symm.trans hm')

theorem Longest.unique {text : List Char} {p : Nat} {m m' : Lexeme} (h : Longest text p m)
    (h' : Longest text p m') : m = m' := by
  obtain ⟨rank, hm, hbest⟩ := h
  obtain ⟨rank', hm', hbest'⟩ := h'
  have h₁ := hbest rank' m' hm'
  have h₂ := hbest' rank m hm
  obtain rfl : rank = rank' := by omega
  exact hm.unique hm'

/-- The longest lexeme lies within the text. -/
theorem Longest.length_le {text : List Char} {p : Nat} {m : Lexeme} (h : Longest text p m)
    (hp : p < text.length) : p + m.length ≤ text.length := by
  obtain ⟨rank, ⟨rule, hrule, hm⟩, -⟩ := h
  have hle := Rule.bounded_of_mem (List.mem_of_getElem? hrule) _ _ hm
  rw [List.length_drop] at hle
  omega

/-- Where a part is unclaimed, no lexeme begins. -/
theorem Unclaimed.not_longest {text : List Char} {p q : Nat} (h : Unclaimed text p q) {m : Lexeme} :
    ¬ Longest text p m := fun ⟨rank, hm, _⟩ => h.free p (le_refl p) h.lt rank m hm

theorem Unclaimed.le_of {text : List Char} {p q q' : Nat} (h : Unclaimed text p q)
    (h' : Unclaimed text p q') : q ≤ q' := by
  by_contra hlt
  rcases h'.next with hend | ⟨rank, m, hm⟩
  · have := h.le
    omega
  · exact h.free q' h'.lt.le (by omega) rank m hm

theorem Unclaimed.unique {text : List Char} {p q q' : Nat} (h : Unclaimed text p q)
    (h' : Unclaimed text p q') : q = q' :=
  le_antisymm (h.le_of h') (h'.le_of h)

theorem Cut.unique {text : List Char} {p : Nat} {r r' : Tokenization} (h : Cut text p r)
    (h' : Cut text p r') : r = r' := by
  induction h generalizing r' with
  | ended =>
    cases h' with
    | ended => rfl
    | fault hp => exact absurd hp (lt_irrefl _)
    | lexeme hp => exact absurd hp (lt_irrefl _)
    | word hu => exact absurd (hu.lt.trans_le hu.le) (lt_irrefl _)
  | fault hp hm hf =>
    cases h' with
    | ended => exact absurd hp (lt_irrefl _)
    | fault _ hm' hf' =>
      obtain rfl := hm.unique hm'
      obtain rfl := Option.some.inj (hf.symm.trans hf')
      rfl
    | lexeme _ hm' hf' =>
      obtain rfl := hm.unique hm'
      exact absurd (hf.symm.trans hf') (by simp)
    | word hu => exact absurd hm hu.not_longest
  | lexeme hp hm hf _ ih =>
    cases h' with
    | ended => exact absurd hp (lt_irrefl _)
    | fault _ hm' hf' =>
      obtain rfl := hm.unique hm'
      exact absurd (hf.symm.trans hf') (by simp)
    | lexeme _ hm' _ rest =>
      obtain rfl := hm.unique hm'
      rw [ih rest]
    | word hu => exact absurd hm hu.not_longest
  | word hu _ ih =>
    cases h' with
    | ended => exact absurd (hu.lt.trans_le hu.le) (lt_irrefl _)
    | fault _ hm => exact absurd hm hu.not_longest
    | lexeme _ hm => exact absurd hm hu.not_longest
    | word hu' rest =>
      obtain rfl := hu.unique hu'
      rw [ih rest]

end IncludeScan
