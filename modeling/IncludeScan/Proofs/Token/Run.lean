import IncludeScan.Proofs.Token.Memory

/-!
# Proofs/Token/Run — the run of a scanner in steps, and the order of its tokens

A scanner is through with a text after as many steps as the text has characters, so its run can be
computed with a count of the steps that remain (`Scanner.run_eq_steps`).  Every token begins behind
the one before it (`pairwise_cursor`), so no two tokens of a text stand at one place.
-/

namespace IncludeScan

/-! ## Counting the steps -/

/-- What a scanner gives in so many steps. -/
def Scanner.steps : Nat → Scanner → Tokenization
  | 0, s => ⟨[], .ok s.eofToken⟩
  | n + 1, s =>
    match s.chosen? s.refreshed with
    | none => ⟨[], .ok s.eofToken⟩
    | some m =>
      match m.fault with
      | some f => ⟨[], .error ⟨f, s.cursor⟩⟩
      | none => (steps n (s.advance m s.refreshed)).cons (s.token m)

/-- **As many steps as there are characters are enough.** -/
theorem Scanner.run_eq_steps {n : Nat} {s : Scanner} (h : s.rest.length ≤ n) :
    s.run = s.steps n := by
  induction n generalizing s with
  | zero =>
    have hnone : s.chosen? s.refreshed = none := dif_neg (by omega)
    rw [Scanner.run, steps]
    split
    · rfl
    · rename_i m hm
      exact absurd (hnone.symm.trans hm) (by simp)
  | succ n ih =>
    rw [Scanner.run, steps]
    split
    · rename_i hnone
      rw [hnone]
    · rename_i m hm
      have hlt := length_rest_advance_lt hm s.refreshed
      cases hfault : m.fault with
      | some f => simp only [hm, hfault]
      | none => simp only [hm, hfault, ih (Nat.le_of_lt_succ (hlt.trans_le h))]

theorem tokenize_eq_steps (text : String) :
    tokenize text = (Scanner.ofText text.toList).steps text.toList.length :=
  Scanner.run_eq_steps (Nat.le_refl _)

theorem cut_tokenize (text : String) : Cut text.toList 0 (tokenize text) :=
  (Scanner.synced_ofText text.toList).cut_run

/-! ## The order of the tokens -/

/-- A place before another, in the order of reading. -/
def Cursor.Before (p q : Cursor) : Prop := p.line < q.line ∨ (p.line = q.line ∧ p.column < q.column)

theorem Cursor.Before.trans {p q r : Cursor} (h : p.Before q) (h' : q.Before r) : p.Before r := by
  unfold Before at *
  omega

theorem Cursor.before_irrefl (p : Cursor) : ¬ p.Before p := by
  unfold Before
  omega

theorem Cursor.before_step (p : Cursor) (c : Char) : p.Before (p.step c) := by
  unfold Before step
  split <;> simp

theorem Cursor.before_advance (p : Cursor) {cs : List Char} (h : cs ≠ []) :
    p.Before (p.advance cs) := by
  induction cs generalizing p with
  | nil => exact absurd rfl h
  | cons c cs ih =>
    rw [advance_cons]
    cases cs with
    | nil => exact p.before_step c
    | cons d cs => exact (p.before_step c).trans (ih _ (by simp))

theorem cursorAt_before {text : List Char} {p q : Nat} (hpq : p < q) (hq : q ≤ text.length) :
    (cursorAt text p).Before (cursorAt text q) := by
  obtain ⟨k, rfl⟩ := Nat.exists_eq_add_of_lt hpq
  rw [cursorAt, cursorAt, Nat.add_assoc, List.take_add, Cursor.advance_append]
  refine Cursor.before_advance _ fun hnil => ?_
  have := congrArg List.length hnil
  simp only [List.length_take, List.length_drop, List.length_nil] at this
  omega

/-- The tokens follow each other, and none begins before this place. -/
structure FollowFrom (text : List Char) (p : Nat) (ts : List Token) : Prop where
  pairwise : ts.Pairwise fun a b => a.cursor.Before b.cursor
  from_place : ∀ t ∈ ts, t.cursor = cursorAt text p ∨ (cursorAt text p).Before t.cursor

theorem FollowFrom.cons {text : List Char} {p q : Nat} {ts : List Token} (h : FollowFrom text q ts)
    (hpq : p < q) (hq : q ≤ text.length) {t : Token} (ht : t.cursor = cursorAt text p) :
    FollowFrom text p (t :: ts) := by
  have hbefore : ∀ u ∈ ts, (cursorAt text p).Before u.cursor := fun u hu => by
    have hlt := cursorAt_before hpq hq
    rcases h.from_place u hu with heq | hu
    · rwa [heq]
    · exact hlt.trans hu
  refine ⟨List.pairwise_cons.2 ⟨fun u hu => ht ▸ hbefore u hu, h.pairwise⟩, ?_⟩
  exact List.forall_mem_cons.2 ⟨Or.inl ht, fun u hu => Or.inr (hbefore u hu)⟩

/-- **Each token begins before those that follow it.** -/
theorem Cut.followFrom {text : List Char} {p : Nat} {r : Tokenization} (h : Cut text p r) :
    FollowFrom text p r.tokens := by
  induction h with
  | ended => exact ⟨.nil, by simp⟩
  | fault => exact ⟨.nil, by simp⟩
  | @lexeme p m r hp hm _ _ ih =>
    exact ih.cons (Nat.lt_add_of_pos_right m.length_pos) (hm.length_le hp) rfl
  | word hq _ ih => exact ih.cons hq.lt hq.le rfl

/-- **No two tokens of a text stand at one place.** -/
theorem nodup_cursor_tokens (text : String) : ((tokenize text).tokens.map Token.cursor).Nodup := by
  refine List.pairwise_map.2 ((cut_tokenize text).followFrom.pairwise.imp fun hlt heq => ?_)
  exact Cursor.before_irrefl _ (heq ▸ hlt)

end IncludeScan
