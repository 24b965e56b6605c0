import IncludeScan.Proofs.Outline.Events
import Mathlib.Data.List.Forall2

/-!
# Proofs/Outline/IncludeLines — the includes of a file stand on lines of their own

A newline token lies between any two directive lines, so the lines of a file stand one below the
other (`Outline.pairwise_lines`).  An include has the number of the line that it was read from, and
the tree keeps the order of the lines.  So the numbers of the includes ascend, whatever blocks they
lie in (`Outline.pairwise_line_includes`), and an include of a file is known by its line.
-/

namespace IncludeScan

/-! ## Tokens and line ends -/

/-- One token stands on the line of another or below, and below if the first ends its line. -/
def Token.Above (t u : Token) : Prop :=
  t.cursor.line ≤ u.cursor.line ∧ (t.kind = .newline → t.cursor.line < u.cursor.line)

theorem Cursor.Before.line_le {p q : Cursor} (h : p.Before q) : p.line ≤ q.line := by
  unfold Before at h
  omega

/-- A newline token is one character, and what is behind it stands on the next line. -/
theorem Longest.line_lt {text : List Char} {p : Nat} {m : Lexeme} (h : Longest text p m)
    (hm : m.kind = .newline) : (cursorAt text p).line < (cursorAt text (p + m.length)).line := by
  obtain ⟨rank, ⟨rule, hrule, hfound⟩, -⟩ := h
  have htake := Rule.take_eq_of_kind_newline (List.mem_of_getElem? hrule) hfound hm
  rw [cursorAt, cursorAt, List.take_add, Cursor.advance_append, htake]
  exact Nat.lt_succ_self _

theorem FollowFrom.line_le {text : List Char} {p : Nat} {ts : List Token} (h : FollowFrom text p ts)
    {t : Token} (ht : t ∈ ts) : (cursorAt text p).line ≤ t.cursor.line := by
  rcases h.from_place t ht with heq | hbefore
  · rw [heq]
  · exact hbefore.line_le

/-- **The tokens of a text go down line by line.** -/
theorem Cut.pairwise_above {text : List Char} {p : Nat} {r : Tokenization} (h : Cut text p r) :
    r.tokens.Pairwise Token.Above := by
  induction h with
  | ended => exact .nil
  | fault => exact .nil
  | @lexeme p m r hp hm _ rest ih =>
    refine List.pairwise_cons.2 ⟨fun u hu => ⟨?_, fun hkind => ?_⟩, ih⟩
    · have hlt := cursorAt_before (Nat.lt_add_of_pos_right m.length_pos) (hm.length_le hp)
      exact hlt.line_le.trans (rest.followFrom.line_le hu)
    · exact (hm.line_lt hkind).trans_le (rest.followFrom.line_le hu)
  | word hq rest ih =>
    refine List.pairwise_cons.2 ⟨fun u hu => ⟨?_, nofun⟩, ih⟩
    exact (cursorAt_before hq.lt hq.le).line_le.trans (rest.followFrom.line_le hu)

/-! ## The lines of a file -/

namespace Item

/-- What is behind a line stands behind the newline token that ends it. -/
theorem exists_newline_before {ts : List Token} {u : Token} (hu : u ∈ behindLine ts) :
    ∃ front t back, ts = front ++ t :: back ∧ t.kind = .newline ∧ u ∈ back := by
  induction ts with
  | nil => cases hu
  | cons t ts ih =>
    by_cases ht : t.kind = .newline
    · exact ⟨[], t, ts, rfl, ht, by simpa [behindLine, ht] using hu⟩
    · obtain ⟨front, t', back, rfl, ht', hu⟩ := ih (by simpa [behindLine, ht] using hu)
      exact ⟨t :: front, t', back, rfl, ht', hu⟩

end Item

namespace Outline

theorem token_mem_of_mem_lines {ts : List Token} {l : Line} (h : l ∈ lines ts) : l.token ∈ ts :=
  (flatMap_tokens_lines_sublist ts).subset (List.mem_flatMap_of_mem h List.mem_cons_self)

/-- **Each line of a file stands below those before it.** -/
theorem pairwise_lines {ts : List Token} (h : ts.Pairwise Token.Above) :
    (lines ts).Pairwise fun l m => l.token.cursor.line < m.token.cursor.line := by
  unfold lines
  fun_induction Item.ofTokens ts with
  | case1 => exact .nil
  | case2 t ts hdir k hk ih =>
    obtain ⟨habove, hts⟩ := List.pairwise_cons.1 h
    have hbehind : (Item.behindLine ts).Pairwise Token.Above :=
      hts.sublist ((List.drop_sublist 1 _).trans (List.dropWhile_sublist _))
    refine List.pairwise_cons.2 ⟨fun l hl => ?_, ih hbehind⟩
    -- the newline token in between stands above the later line
    obtain ⟨front, u, back, rfl, hu, hl⟩ := Item.exists_newline_before (token_mem_of_mem_lines hl)
    have hle := (habove u (by simp)).1
    have hlt := (List.pairwise_cons.1 (List.pairwise_append.1 hts).2.1).1 l.token hl
    exact hle.trans_lt (hlt.2 hu)
  | case3 t ts hdir hk ih => exact ih (List.pairwise_cons.1 h).2
  | case4 t ts hdir hskip ih => exact ih (List.pairwise_cons.1 h).2
  | case5 t ts hdir hskip ih => exact ih (List.pairwise_cons.1 h).2

end Outline

/-! ## The includes among the events -/

/-- The include that an event is. -/
def Event.include? : Event → Option Include
  | .leaf (.includeFile target) => some target
  | _ => none

theorem Event.eq_of_include? {e : Event} {target : Include} (h : e.include? = some target) :
    e = .leaf (.includeFile target) := by
  rcases e with d | ⟨kind, condition⟩ | _
  · cases d with
    | includeFile i => rw [Option.some.inj h]
    | _ => cases h
  · cases h
  · cases h

theorem Branch.includes_eq_filterMap {bs : List Branch}
    (h : ∀ b ∈ bs, Directive.includes b.body = (Directive.events b.body).filterMap Event.include?) :
    includes bs = (events bs).filterMap Event.include? := by
  induction bs with
  | nil => rw [includes, events, List.filterMap_nil]
  | cons b bs ih =>
    obtain ⟨hb, hbs⟩ := List.forall_mem_cons.1 h
    obtain ⟨kind, condition, body⟩ := b
    rw [includes, events, hb, ih hbs, List.filterMap_cons_none rfl, List.filterMap_append]

/-- **The includes of a tree are those among its events.** -/
theorem Directive.includes_eq_filterMap (ds : List Directive) :
    includes ds = (events ds).filterMap Event.include? := by
  induction ds using forest_induction with
  | nil => rw [includes, events, List.filterMap_nil]
  | includeFile target ds ih => rw [includes, events, ih, List.filterMap_append]; rfl
  | define name params body ds ih => rw [includes, events, ih, List.filterMap_append]; rfl
  | undefine name ds ih => rw [includes, events, ih, List.filterMap_append]; rfl
  | block branches ds bodies ih =>
    rw [includes, events, includesOf, eventsOf, Branch.includes_eq_filterMap bodies, ih,
      List.filterMap_append, List.filterMap_append, List.filterMap_cons_none rfl,
      List.filterMap_nil, List.append_nil]

namespace Line

theorem line_of_readInclude {l : Line} {target : Include}
    (h : l.readInclude = .ok (.includeFile target)) : target.line = l.token.cursor.line := by
  unfold readInclude at h
  split at h
  · cases h
  · split at h
    · split at h
      · cases h
      · obtain rfl := Directive.includeFile.inj (Except.ok.inj h)
        rfl
    · split at h
      · split at h
        · obtain rfl := Directive.includeFile.inj (Except.ok.inj h)
          rfl
        · cases h
      · cases h

theorem readDefine_ne_include {l : Line} {target : Include} :
    l.readDefine ≠ .ok (.includeFile target) := by
  intro h
  unfold readDefine at h
  repeat' split at h
  all_goals cases h

theorem readUndef_ne_include {l : Line} {target : Include} :
    l.readUndef ≠ .ok (.includeFile target) := by
  intro h
  unfold readUndef at h
  repeat' split at h
  all_goals cases h

theorem line_of_readSingle {l : Line} {target : Include}
    (h : l.readSingle = .ok (.includeFile target)) : target.line = l.token.cursor.line := by
  unfold readSingle at h
  split at h
  · exact absurd h readDefine_ne_include
  · exact absurd h readUndef_ne_include
  · exact line_of_readInclude h

/-- **An include has the number of its line.** -/
theorem line_of_event {l : Line} {target : Include}
    (h : l.event = .ok (.leaf (.includeFile target))) :
    target.line = l.token.cursor.line := by
  unfold event at h
  split at h
  · obtain ⟨d, hread, hd⟩ := exists_of_map_eq_ok h
    exact line_of_readSingle (Event.leaf.inj hd ▸ hread)
  · obtain ⟨c, -, hc⟩ := exists_of_map_eq_ok h
    cases hc
  · obtain ⟨c, -, hc⟩ := exists_of_map_eq_ok h
    cases hc
  · cases Except.ok.inj h
  · cases Except.ok.inj h

end Line

/-- **The includes that were read are said by some of the lines**, in their order. -/
theorem Sorted.exists_sublist {ls : List Line} {es : List Event} {cs : List Complaint}
    (h : Sorted ls es cs) :
    ∃ ms : List Line, ms.Sublist ls
      ∧ List.Forall₂ (fun i m => m.event = .ok (.leaf (.includeFile i)))
        (es.filterMap Event.include?) ms := by
  induction h with
  | nil => exact ⟨[], .slnil, .nil⟩
  | @event l ls e es cs he _ ih =>
    obtain ⟨ms, hsub, hsaid⟩ := ih
    cases ht : e.include? with
    | none =>
      rw [List.filterMap_cons_none ht]
      exact ⟨ms, hsub.cons l, hsaid⟩
    | some target =>
      rw [List.filterMap_cons_some ht]
      exact ⟨l :: ms, hsub.cons_cons l, .cons (Event.eq_of_include? ht ▸ he) hsaid⟩
  | @complaint l _ _ _ _ _ _ ih =>
    obtain ⟨ms, hsub, hsaid⟩ := ih
    exact ⟨ms, hsub.cons l, hsaid⟩

/-! ## The includes of a file -/

namespace Outline

/-- **The includes of a file are said by some of its lines**, in their order. -/
theorem exists_sublist_includes (ts : List Token) :
    ∃ ms : List Line, ms.Sublist (lines ts)
      ∧ List.Forall₂ (fun i m => m.event = .ok (.leaf (.includeFile i)))
        (Directive.includes (ofTokens ts).directives) ms := by
  by_cases hframes : (LineReader.readAll (lines ts)).frames = []
  · obtain ⟨es, cs, hsorted, hevents, -⟩ := LineReader.exists_sorted (lines ts) {}
    have hes : Directive.events (ofTokens ts).directives = es := by
      rw [events_directives_eq hframes]
      exact hevents
    rw [Directive.includes_eq_filterMap, hes]
    exact hsorted.exists_sublist
  · -- a file that ends inside a block has no directives
    have hnil : (ofTokens ts).directives = [] := if_neg (by simpa using hframes)
    rw [hnil, Directive.includes]
    exact ⟨[], List.nil_sublist _, .nil⟩

/-- **The includes of a file stand on lines of their own**, each below the one before it. -/
theorem pairwise_line_includes {ts : List Token} (h : ts.Pairwise Token.Above) :
    ((Directive.includes (ofTokens ts).directives).map Include.line).Pairwise (· < ·) := by
  obtain ⟨ms, hsub, hsaid⟩ := exists_sublist_includes ts
  have hlines : (Directive.includes (ofTokens ts).directives).map Include.line
      = ms.map fun m => m.token.cursor.line := by
    rw [← List.forall₂_eq_eq_eq, List.forall₂_map_left_iff, List.forall₂_map_right_iff]
    exact hsaid.imp fun i m hm => m.line_of_event hm
  rw [hlines, List.pairwise_map]
  exact (pairwise_lines h).sublist hsub

theorem pairwise_line_includes_ofText {text : String} {o : Outline} (h : ofText text = .ok o) :
    ((Directive.includes o.directives).map Include.line).Pairwise (· < ·) := by
  obtain ⟨-, rfl⟩ := ofText_eq_ok_iff.1 h
  exact pairwise_line_includes (cut_tokenize text).pairwise_above

end Outline

end IncludeScan
