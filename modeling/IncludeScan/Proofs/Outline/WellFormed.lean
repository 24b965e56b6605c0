import IncludeScan.Proofs.Condition.Regroup
import IncludeScan.Proofs.Outline.Reactions
import IncludeScan.Proofs.Token.Lossless

/-!
# Proofs/Outline/WellFormed — every tree that is read is well formed

Who evaluates a tree takes a branch without a condition for one that is always taken, and who prints
it trusts the kinds of the branches.  A tree that was read deserves it, however many lines were
dropped on the way: what a line adds is well formed in itself (`Line.sound_reaction`), and no
further branch is begun behind a fallback.  So the reader is well formed at all times
(`LineReader.WellFormed`): what it has read, and each open block as it would be if it were closed
now.

`wellFormed_directives` — the tree of a text, at every depth.
-/

namespace IncludeScan

/-! ## Well-formed trees -/

/-- **The branches of a block in order**: the one that opens it, alternatives, and at most one
fallback, which is the last. -/
def Branch.InOrder (branches : List Branch) : Prop :=
  ∃ n, branches.map Branch.kind = .opening :: List.replicate n .alternative
    ∨ branches.map Branch.kind = .opening :: (List.replicate n .alternative ++ [.fallback])

mutual

/-- **A directive that is well formed**, with all that is inside it. -/
inductive Directive.WellFormed : Directive → Prop
  | quoted {path : String} {line : Nat} (hpath : '"' ∉ path.toList) :
      Directive.WellFormed (.includeFile ⟨path, false, line⟩)
  | system {path : String} {line : Nat} (hpath : path ≠ "") :
      Directive.WellFormed (.includeFile ⟨path, true, line⟩)
  | define {name : String} {params : Option (List String)} {body : List String}
      (hname : isIdentifier name = true)
      (hparams : ∀ ps ∈ params, ∀ p ∈ ps, isIdentifier p = true ∨ p = "...") :
      Directive.WellFormed (.define name params body)
  | undefine {name : String} (hname : isIdentifier name = true) :
      Directive.WellFormed (.undefine name)
  | block {branches : List Branch} (order : Branch.InOrder branches)
      (hbranches : ∀ b ∈ branches, Branch.WellFormed b) : Directive.WellFormed (.block branches)

/-- A branch that is well formed: it has a condition unless it is a fallback. -/
inductive Branch.WellFormed : Branch → Prop
  | conditional {kind : BranchKind} {c : Condition} {body : List Directive}
      (hkind : kind ≠ .fallback)
      (hc : c.WellNamed) (hbody : ∀ d ∈ body, Directive.WellFormed d) :
      Branch.WellFormed ⟨kind, some c, body⟩
  | fallback {body : List Directive} (hbody : ∀ d ∈ body, Directive.WellFormed d) :
      Branch.WellFormed ⟨.fallback, none, body⟩

end

theorem Branch.WellFormed.withBody {kind : BranchKind} {condition : Option Condition}
    {body others : List Directive} (h : WellFormed ⟨kind, condition, body⟩)
    (hothers : ∀ d ∈ others, d.WellFormed) : WellFormed ⟨kind, condition, others⟩ := by
  cases h with
  | conditional hkind hc _ => exact .conditional hkind hc hothers
  | fallback _ => exact .fallback hothers

/-- Behind branches in order, the last of which is no fallback, there may be one more. -/
theorem Branch.InOrder.concat {branches : List Branch} {last next : Branch}
    (h : InOrder (branches ++ [last])) (hlast : last.kind ≠ .fallback)
    (hnext : next.kind ≠ .opening) :
    InOrder (branches ++ [last] ++ [next]) := by
  obtain ⟨n, hkinds | hkinds⟩ := h
  · rw [InOrder, List.map_append, hkinds, List.map_singleton]
    cases hkind : next.kind with
    | opening => exact absurd hkind hnext
    | alternative => exact ⟨n + 1, Or.inl (by rw [List.replicate_succ', List.cons_append])⟩
    | fallback => exact ⟨n, Or.inr (List.cons_append ..)⟩
  · rw [List.map_append, List.map_singleton, ← List.cons_append] at hkinds
    exact absurd (by simpa using (List.append_inj' hkinds rfl).2) hlast

/-! ## What a line adds -/

theorem Token.isIdentifier_value {t : Token} (h : t.isIdentifier = true) :
    IncludeScan.isIdentifier t.value = true :=
  (Bool.and_eq_true_iff.1 h).2

namespace Line

theorem value_mem_of_upToAngle {ts : List Token} {parts : List String}
    (h : upToAngle ts = some parts) :
    ∀ part ∈ parts, ∃ t ∈ ts, t.value = part := by
  induction ts generalizing parts with
  | nil => cases h
  | cons t ts ih =>
    rw [upToAngle] at h
    split at h
    · obtain rfl := Option.some.inj h
      exact fun part hpart => absurd hpart List.not_mem_nil
    · obtain ⟨parts, hparts, rfl⟩ := Option.map_eq_some_iff.1 h
      refine List.forall_mem_cons.2 ⟨⟨t, List.mem_cons_self, rfl⟩, fun part hpart => ?_⟩
      obtain ⟨u, hu, hvalue⟩ := ih hparts part hpart
      exact ⟨u, List.mem_cons_of_mem t hu, hvalue⟩

/-- **An include has no quote in its path, or is not empty.** -/
theorem wellFormed_of_readInclude {l : Line} (hargs : ∀ t ∈ l.args, t.value ≠ "") {d : Directive}
    (h : l.readInclude = .ok d) : d.WellFormed := by
  unfold readInclude at h
  split at h
  · cases h
  · rename_i first rest hl
    split at h
    · split at h
      · cases h
      · rename_i hquote
        obtain rfl := Except.ok.inj h
        exact .quoted (by rwa [String.toList_ofList])
    · split at h
      · split at h
        · rename_i part parts hparts
          obtain rfl := Except.ok.inj h
          obtain ⟨t, ht, rfl⟩ := value_mem_of_upToAngle hparts part List.mem_cons_self
          have hne : t.value ≠ "" := hargs t (hl ▸ List.mem_cons_of_mem first ht)
          refine .system fun hempty => hne ?_
          rw [String.join_cons, String.append_eq_empty_iff] at hempty
          exact hempty.1
        · cases h
      · cases h

theorem isParameter_of_readParameters {name : String} {opening : Token} {place : ParameterPlace}
    {ts rest : List Token} {params : List String}
    (h : readParameters name opening place ts = .ok (params, rest)) :
    ∀ p ∈ params, isIdentifier p = true ∨ p = "..." := by
  fun_induction readParameters name opening place ts generalizing params rest with
  | case1 => cases h
  | case2 => cases h
  | case3 =>
    obtain ⟨rfl, -⟩ := Prod.mk.inj (Except.ok.inj h)
    exact fun p hp => absurd hp List.not_mem_nil
  | case4 t ts _ _ ih => exact ih h
  | case5 => cases h
  | case6 place t ts _ _ hparam others rest' hread ih =>
    obtain ⟨rfl, -⟩ := Prod.mk.inj (Except.ok.inj h)
    refine List.forall_mem_cons.2 ⟨?_, ih hread⟩
    rw [isParameter, Bool.or_eq_true, beq_iff_eq] at hparam
    exact hparam.imp_left Token.isIdentifier_value
  | case7 => cases h
  | case8 => cases h

theorem wellFormed_of_readDefine {l : Line} {d : Directive} (h : l.readDefine = .ok d) :
    d.WellFormed := by
  unfold readDefine at h
  split at h
  · cases h
  · split at h
    · cases h
    · rename_i hidentifier
      have hname := Token.isIdentifier_value (by simpa using hidentifier)
      split at h
      · obtain rfl := Except.ok.inj h
        exact .define hname (by simp)
      · split at h
        · split at h
          · rename_i params body hparams
            obtain rfl := Except.ok.inj h
            exact .define hname (by simpa using isParameter_of_readParameters hparams)
          · cases h
        · obtain rfl := Except.ok.inj h
          exact .define hname (by simp)

theorem wellFormed_of_readUndef {l : Line} {d : Directive} (h : l.readUndef = .ok d) :
    d.WellFormed := by
  unfold readUndef at h
  split at h
  · cases h
  · split at h
    · rename_i hidentifier
      obtain rfl := Except.ok.inj h
      exact .undefine (Token.isIdentifier_value hidentifier)
    · cases h

theorem wellFormed_of_readSingle {l : Line} (hargs : ∀ t ∈ l.args, t.value ≠ "") {d : Directive}
    (h : l.readSingle = .ok d) : d.WellFormed := by
  unfold readSingle at h
  split at h
  · exact wellFormed_of_readDefine h
  · exact wellFormed_of_readUndef h
  · exact wellFormed_of_readInclude hargs h

theorem wellNamed_of_readTested {l : Line} {c : Condition} (h : l.readTested = .ok c) :
    c.WellNamed := by
  unfold readTested at h
  split at h
  · cases h
  · split at h
    · rename_i hidentifier
      obtain rfl := Except.ok.inj h
      exact .defined (Token.isIdentifier_value hidentifier)
    · cases h

theorem wellNamed_of_readCondition {l : Line} {c : Condition} (h : l.readCondition = .ok c) :
    c.WellNamed := by
  have hnot (hmap : l.readTested.map .not = .ok c) : c.WellNamed := by
    obtain ⟨c', hc', rfl⟩ := exists_of_map_eq_ok hmap
    exact .not (wellNamed_of_readTested hc')
  unfold readCondition at h
  split at h
  · exact wellNamed_of_readTested h
  · exact wellNamed_of_readTested h
  · exact hnot h
  · exact hnot h
  · split at h
    · rename_i hparse
      exact Except.ok.inj h ▸ Condition.wellNamed_of_parse hparse
    · cases h

end Line

/-- **What a line does in a branch of this kind leads to nothing but well-formed trees.** -/
def Reaction.Sound (kind? : Option BranchKind) : Reaction → Prop
  | .report _ => True
  | .add d => d.WellFormed
  | .openBlock c => c.WellNamed
  | .nextBranch kind condition =>
    kind? ≠ some .fallback ∧ kind ≠ .opening ∧ Branch.WellFormed ⟨kind, condition, []⟩
  | .closeBlock => True

theorem Reaction.sound_ofRead {α : Type} {f : α → Reaction} {x : Except Complaint α}
    {kind? : Option BranchKind} (h : ∀ a, x = .ok a → (f a).Sound kind?) :
    (ofRead f x).Sound kind? := by
  cases x with
  | error c => trivial
  | ok a => exact h a rfl

theorem Line.sound_reaction {l : Line} (hargs : ∀ t ∈ l.args, t.value ≠ "")
    (kind? : Option BranchKind) :
    (l.reaction kind?).Sound kind? := by
  rw [reaction]
  fun_cases reactionAs l l.keyword.role kind?
  · exact Reaction.sound_ofRead fun d hd => wellFormed_of_readSingle hargs hd
  · exact Reaction.sound_ofRead fun c hc => wellNamed_of_readCondition hc
  · trivial
  · trivial
  · trivial
  · rename_i kind hfallback
    exact ⟨fun heq => hfallback (Option.some.inj heq), by decide, .fallback (by simp)⟩
  · rename_i kind hfallback
    refine Reaction.sound_ofRead fun c hc =>
      ⟨fun heq => hfallback (Option.some.inj heq), by decide, ?_⟩
    exact .conditional (by decide) (wellNamed_of_readCondition hc) (by simp)

/-! ## The reader of lines -/

/-- **An open block is well formed**: what is in front of it is, and its branches are, as far as
they go. -/
structure Frame.WellFormed (f : Frame) : Prop where
  outer : ∀ d ∈ f.outer, d.WellFormed
  order : Branch.InOrder (f.branches []).reverse
  branches : ∀ b ∈ f.branches [], b.WellFormed

namespace Frame.WellFormed

variable {f : Frame} {body : List Directive}

theorem inOrder_branches (h : f.WellFormed) (body : List Directive) :
    Branch.InOrder (f.branches body).reverse := by
  have hkinds :
      (f.branches body).reverse.map Branch.kind = (f.branches []).reverse.map Branch.kind := by
    simp [Frame.branches]
  rw [Branch.InOrder, hkinds]
  exact h.order

theorem wellFormed_branches (h : f.WellFormed) (hbody : ∀ d ∈ body, d.WellFormed) :
    ∀ b ∈ f.branches body, b.WellFormed := by
  obtain ⟨hcurrent, hfinished⟩ := List.forall_mem_cons.1 h.branches
  exact List.forall_mem_cons.2 ⟨hcurrent.withBody (by simpa using hbody), hfinished⟩

/-- **Closed now, it is a well-formed block.** -/
theorem block (h : f.WellFormed) (hbody : ∀ d ∈ body, d.WellFormed) :
    Directive.WellFormed (.block (f.branches body).reverse) :=
  .block (h.inOrder_branches body) (by simpa using h.wellFormed_branches hbody)

/-- **With one more branch it is well formed**, if the branch before is no fallback. -/
theorem nextBranch (h : f.WellFormed) (hbody : ∀ d ∈ body, d.WellFormed)
    (hfallback : f.kind ≠ .fallback) {kind : BranchKind} {condition : Option Condition}
    (hkind : kind ≠ .opening)
    (hhead : Branch.WellFormed ⟨kind, condition, []⟩) :
    Frame.WellFormed { f with finished := f.branches body, kind, condition } where
  outer := h.outer
  order := by
    have horder := h.inOrder_branches body
    rw [Frame.branches, List.reverse_cons] at horder ⊢
    rw [Frame.branches, List.reverse_cons]
    exact horder.concat hfallback hkind
  branches := List.forall_mem_cons.2 ⟨hhead, h.wellFormed_branches hbody⟩

end Frame.WellFormed

/-- **The reader is well formed**: what it has read in the innermost block is, and all open blocks
are. -/
structure LineReader.WellFormed (r : LineReader) : Prop where
  body : ∀ d ∈ r.body, d.WellFormed
  frames : ∀ f ∈ r.frames, f.WellFormed

namespace LineReader.WellFormed

variable {r : LineReader}

theorem react (h : r.WellFormed) (l : Line) {a : Reaction} (ha : a.Sound r.kind?) :
    (r.react l a).WellFormed := by
  cases a with
  | report c => exact ⟨h.body, h.frames⟩
  | add d => exact ⟨List.forall_mem_cons.2 ⟨ha, h.body⟩, h.frames⟩
  | openBlock c =>
    have hopening : BranchKind.opening ≠ .fallback := by decide
    refine ⟨by simp [LineReader.react, openBlock], List.forall_mem_cons.2 ⟨?_, h.frames⟩⟩
    exact ⟨h.body, ⟨0, Or.inl rfl⟩,
      List.forall_mem_singleton.2 (.conditional hopening ha (by simp))⟩
  | nextBranch kind condition =>
    obtain ⟨hfallback, hkind, hhead⟩ := ha
    rw [LineReader.react]
    split
    · exact h
    · rename_i f fs hframes
      obtain ⟨hf, hfs⟩ := List.forall_mem_cons.1 (hframes ▸ h.frames)
      rw [kind?, hframes] at hfallback
      refine ⟨by simp [LineReader.nextBranch], List.forall_mem_cons.2 ⟨?_, hfs⟩⟩
      exact hf.nextBranch h.body (fun heq => hfallback (congrArg some heq)) hkind hhead
  | closeBlock =>
    rw [LineReader.react]
    split
    · exact h
    · rename_i f fs hframes
      obtain ⟨hf, hfs⟩ := List.forall_mem_cons.1 (hframes ▸ h.frames)
      exact ⟨List.forall_mem_cons.2 ⟨hf.block h.body, hf.outer⟩, hfs⟩

/-- **No line spoils the reader**, whether it is taken or dropped. -/
theorem step (h : r.WellFormed) {l : Line} (hargs : ∀ t ∈ l.args, t.value ≠ "") :
    (r.step l).WellFormed := by
  rw [step_eq_react]
  exact h.react l (l.sound_reaction hargs _)

theorem foldl (h : r.WellFormed) {ls : List Line} (hargs : ∀ l ∈ ls, ∀ t ∈ l.args, t.value ≠ "") :
    (ls.foldl LineReader.step r).WellFormed := by
  induction ls generalizing r with
  | nil => exact h
  | cons l ls ih =>
    obtain ⟨hl, hls⟩ := List.forall_mem_cons.1 hargs
    exact ih (h.step hl) hls

end LineReader.WellFormed

/-! ## The tree of a text -/

namespace Outline

theorem value_ne_empty_of_mem_lines {text : String} {l : Line}
    (hl : l ∈ lines (tokenize text).tokens) {t : Token} (ht : t ∈ l.args) : t.value ≠ "" := by
  obtain ⟨stop, htiled, -⟩ := (cut_tokenize text).exists_tiled
  have hmem : t ∈ (tokenize text).tokens := (flatMap_tokens_lines_sublist _).subset
    (List.mem_flatMap_of_mem hl (List.mem_cons_of_mem _ ht))
  exact (htiled.forall_mem t hmem).1

/-- **Every tree that is read is well formed, at every depth.**  Each block has an opening branch,
alternatives behind it and at most one fallback at the end, and all but the fallback have a
condition.  Names of macros are identifiers, also in conditions, where a name that is not tested is
not `defined`; parameters are identifiers or dots; constants keep within the limit; a path in quotes
has no quote in it, and one in angle brackets is not empty. -/
theorem wellFormed_directives {text : String} {eof : Token} (h : (tokenize text).ending = .ok eof) :
    ∃ o, ofText text = .ok o ∧ ∀ d ∈ o.directives, d.WellFormed := by
  refine ⟨ofTokens (tokenize text).tokens, ofText_eq_ok_iff.2 ⟨⟨eof, h⟩, rfl⟩, ?_⟩
  have hreader : (LineReader.readAll (lines (tokenize text).tokens)).WellFormed :=
    LineReader.WellFormed.foldl ⟨by simp, by simp⟩ fun l hl t ht =>
      value_ne_empty_of_mem_lines hl ht
  rw [ofTokens]
  dsimp only
  split
  · simpa using hreader.body
  · simp

theorem wellFormed_directives_recovered :
    ∃ o, ofText "#ifdef A\n#else\n#elif B\n#include <x>\n#endif\n" = .ok o
      ∧ o.diagnostics.length = 1 ∧ o.directives.length = 1 ∧ ∀ d ∈ o.directives, d.WellFormed := by
  have hok : (tokenize "#ifdef A\n#else\n#elif B\n#include <x>\n#endif\n").ending
      = .ok ⟨.eof, "", ⟨6, 1⟩, ⟨43, 43⟩, none⟩ := by
    rw [tokenize_eq_steps]
    decide +kernel
  obtain ⟨o, ho, hwell⟩ := wellFormed_directives hok
  obtain ⟨-, rfl⟩ := ofText_eq_ok_iff.1 ho
  refine ⟨_, ho, ?_, ?_, hwell⟩
  all_goals
    rw [ofTokens, lines_eq_directiveLines, tokenize_eq_steps]
    decide +kernel

end Outline

end IncludeScan
