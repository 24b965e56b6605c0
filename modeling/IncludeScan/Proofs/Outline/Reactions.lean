import IncludeScan.Proofs.Outline.Events

/-!
# Proofs/Outline/Reactions — what a line does depends on the innermost branch alone

Of all that has been read, a line sees only the kind of the branch in which it stands.  So a step of
the reader is a **reaction**, found from the line and that kind, and then carried out
(`LineReader.step_eq_react`).  What holds of every step is then a matter of the five reactions: no
complaint made on the way is about a block left open (`LineReader.code_ne_of_mem_complaints`), and
complaints made before have no effect on what follows (`LineReader.foldl_step_onto`).
-/

namespace IncludeScan

/-- What a line does to the reader. -/
inductive Reaction where
  | report (c : Complaint)
  | add (d : Directive)
  | openBlock (c : Condition)
  | nextBranch (kind : BranchKind) (condition : Option Condition)
  | closeBlock

/-- The reaction to what was read, or to the reason why it could not be. -/
def Reaction.ofRead {α : Type} (f : α → Reaction) : Except Complaint α → Reaction
  | .ok a => f a
  | .error c => .report c

theorem Reaction.error_of_ofRead {α : Type} {f : α → Reaction} {x : Except Complaint α}
    {c : Complaint} (h : ofRead f x = .report c) (hf : ∀ a, f a ≠ .report c) : x = .error c := by
  rcases x with e | a
  · exact congrArg _ (Reaction.report.inj h)
  · exact absurd h (hf a)

namespace Line

/-- What a line with this role does in a branch of this kind, or outside of all blocks. -/
def reactionAs (l : Line) : Role → Option BranchKind → Reaction
  | .single, _ => .ofRead .add l.readSingle
  | .opens, _ => .ofRead .openBlock l.readCondition
  | _, none => .report ⟨.unpaired l.keyword, l.token⟩
  | .closes, some _ => .closeBlock
  | _, some .fallback => .report ⟨.afterElse l.keyword, l.token⟩
  | .falls, some _ => .nextBranch .fallback none
  | .continues, some _ => .ofRead (fun c => .nextBranch .alternative (some c)) l.readCondition

/-- **What a line does**, by the kind of the branch in which it stands. -/
def reaction (l : Line) (kind? : Option BranchKind) : Reaction := l.reactionAs l.keyword.role kind?

end Line

namespace LineReader

/-- The kind of the innermost branch. -/
def kind? (r : LineReader) : Option BranchKind := r.frames.head?.map Frame.kind

/-- Carries out what a line does. -/
def react (r : LineReader) (l : Line) : Reaction → LineReader
  | .report c => r.report c
  | .add d => r.add d
  | .openBlock c => r.openBlock l c
  | .nextBranch kind condition =>
    match r.frames with
    | [] => r
    | f :: fs => r.nextBranch f fs kind condition
  | .closeBlock =>
    match r.frames with
    | [] => r
    | f :: fs => r.closeBlock f fs

theorem branchStep_eq_react {r : LineReader} {f : Frame} {fs : List Frame}
    (hframes : r.frames = f :: fs) {l : Line}
    (hrole : l.keyword.role = .continues ∨ l.keyword.role = .falls
      ∨ l.keyword.role = .closes) :
    r.branchStep f fs l = r.react l (l.reaction (some f.kind)) := by
  rw [branchStep, Line.reaction]
  rcases hrole with hrole | hrole | hrole <;> rw [hrole]
  · rcases f.kind with _ | _ | _ <;> rcases hread : l.readCondition with e | c <;>
      simp [react, hframes, Line.reactionAs, Reaction.ofRead, hread]
  · rcases f.kind with _ | _ | _ <;> simp [react, hframes, Line.reactionAs]
  · simp [react, hframes, Line.reactionAs]

/-- **A step carries out the reaction to the line.** -/
theorem step_eq_react (r : LineReader) (l : Line) : r.step l = r.react l (l.reaction r.kind?) := by
  rw [step_eq]
  split
  · rename_i hrole
    rw [Line.reaction, hrole, Line.reactionAs]
    rcases l.readSingle with e | d <;> rfl
  · rename_i hrole
    rw [Line.reaction, hrole, Line.reactionAs]
    rcases l.readCondition with e | c <;> rfl
  all_goals
    rename_i hrole
    rcases hframes : r.frames with _ | ⟨f, fs⟩
    · rw [innerStep, kind?, hframes, Line.reaction, hrole]
      rfl
    · rw [innerStep_of_frames hframes, kind?, hframes,
        branchStep_eq_react hframes (by simp [hrole])]
      rfl

end LineReader

/-! ## No line is reported as a block left open -/

namespace Line

theorem code_of_readInclude {l : Line} {c : Complaint} (h : l.readInclude = .error c) :
    c.problem.code = .malformedInclude := by
  unfold readInclude at h
  repeat' split at h
  all_goals cases h
  all_goals rfl

theorem code_of_readParameters {name : String} {opening : Token} {place : ParameterPlace}
    {ts : List Token} {c : Complaint} (h : readParameters name opening place ts = .error c) :
    c.problem.code = .malformedDefine := by
  fun_induction readParameters name opening place ts with
  | case1 => exact Except.error.inj h ▸ rfl
  | case2 => exact Except.error.inj h ▸ rfl
  | case3 => cases h
  | case4 t ts _ _ ih => exact ih h
  | case5 => exact Except.error.inj h ▸ rfl
  | case6 => cases h
  | case7 _ t ts _ _ _ e he ih => exact ih (he.trans h)
  | case8 => exact Except.error.inj h ▸ rfl

theorem code_of_readDefine {l : Line} {c : Complaint} (h : l.readDefine = .error c) :
    c.problem.code = .malformedDefine := by
  unfold readDefine at h
  split at h
  · exact Except.error.inj h ▸ rfl
  · split at h
    · exact Except.error.inj h ▸ rfl
    · split at h
      · cases h
      · split at h
        · split at h
          · cases h
          · rename_i e he
            exact Except.error.inj h ▸ code_of_readParameters he
        · cases h

theorem code_of_readUndef {l : Line} {c : Complaint} (h : l.readUndef = .error c) :
    c.problem.code = .malformedUndef := by
  unfold readUndef at h
  repeat' split at h
  all_goals cases h
  all_goals rfl

theorem code_of_readTested {l : Line} {c : Complaint} (h : l.readTested = .error c) :
    c.problem.code = .malformedCondition := by
  unfold readTested at h
  repeat' split at h
  all_goals cases h
  all_goals rfl

theorem code_of_readCondition {l : Line} {c : Complaint} (h : l.readCondition = .error c) :
    c.problem.code = .malformedCondition := by
  unfold readCondition at h
  split at h
  · exact code_of_readTested h
  · exact code_of_readTested h
  · exact code_of_readTested (map_eq_error_iff.1 h)
  · exact code_of_readTested (map_eq_error_iff.1 h)
  · split at h
    · cases h
    · exact Except.error.inj h ▸ rfl

theorem code_ne_of_readSingle {l : Line} {c : Complaint} (h : l.readSingle = .error c) :
    c.problem.code ≠ .unterminatedConditional := by
  unfold readSingle at h
  split at h
  · rw [code_of_readDefine h]; decide
  · rw [code_of_readUndef h]; decide
  · rw [code_of_readInclude h]; decide

theorem code_ne_of_reaction {l : Line} {kind? : Option BranchKind} {c : Complaint}
    (h : l.reaction kind? = .report c) : c.problem.code ≠ .unterminatedConditional := by
  have hcondition : l.readCondition = .error c → c.problem.code ≠ .unterminatedConditional := by
    intro he
    rw [code_of_readCondition he]
    decide
  rw [reaction] at h
  revert h
  fun_cases reactionAs l l.keyword.role kind? <;> intro h
  · exact code_ne_of_readSingle (Reaction.error_of_ofRead h fun _ => nofun)
  · exact hcondition (Reaction.error_of_ofRead h fun _ => nofun)
  · exact Reaction.report.inj h ▸ nofun
  · cases h
  · exact Reaction.report.inj h ▸ nofun
  · cases h
  · exact hcondition (Reaction.error_of_ofRead h fun _ => nofun)

end Line

namespace LineReader

theorem complaints_react (r : LineReader) (l : Line) (a : Reaction) :
    (r.react l a).complaints = r.complaints
      ∨ ∃ c, a = .report c ∧ (r.react l a).complaints = c :: r.complaints := by
  rcases a with c | d | c | ⟨kind, condition⟩ | _
  · exact Or.inr ⟨c, rfl, rfl⟩
  · exact Or.inl rfl
  · exact Or.inl rfl
  all_goals
    rw [react]
    split <;> exact Or.inl rfl

/-- **No complaint about a line is about a block left open.** -/
theorem code_ne_of_mem_complaints {ls : List Line} {r : LineReader}
    (hr : ∀ c ∈ r.complaints, c.problem.code ≠ .unterminatedConditional) :
    ∀ c ∈ (ls.foldl step r).complaints, c.problem.code ≠ .unterminatedConditional := by
  induction ls generalizing r with
  | nil => exact hr
  | cons l ls ih =>
    refine ih ?_
    rw [step_eq_react]
    rcases r.complaints_react l (l.reaction r.kind?) with hsame | ⟨c, hc, hcons⟩
    · rwa [hsame]
    · rw [hcons]
      exact List.forall_mem_cons.2 ⟨Line.code_ne_of_reaction hc, hr⟩

end LineReader

/-- The complaint about the end of a file is about a block left open. -/
theorem Outline.code_of_mem_endComplaint? {r : LineReader} {c : Complaint}
    (h : c ∈ endComplaint? r) :
    c.problem.code = .unterminatedConditional := by
  obtain ⟨f, -, rfl⟩ := Option.map_eq_some_iff.1 h
  rfl

/-! ## Complaints made before -/

namespace LineReader

theorem readAll_append (ls ms : List Line) : readAll (ls ++ ms) = ms.foldl step (readAll ls) :=
  List.foldl_append

/-- The reader with complaints made before its own. -/
def onto (cs : List Complaint) (r : LineReader) : LineReader :=
  { r with complaints := r.complaints ++ cs }

theorem react_onto (cs : List Complaint) (r : LineReader) (l : Line) (a : Reaction) :
    (r.onto cs).react l a = (r.react l a).onto cs := by
  obtain ⟨frames, body, complaints⟩ := r
  rcases a with c | d | c | ⟨kind, condition⟩ | _
  · rfl
  · rfl
  · rfl
  all_goals rcases frames with _ | ⟨f, fs⟩ <;> rfl

/-- **A line does not look at the complaints made before it.** -/
theorem step_onto (cs : List Complaint) (r : LineReader) (l : Line) :
    (r.onto cs).step l = (r.step l).onto cs := by
  rw [step_eq_react, step_eq_react, react_onto]
  rfl

theorem foldl_step_onto (cs : List Complaint) (ls : List Line) (r : LineReader) :
    ls.foldl step (r.onto cs) = (ls.foldl step r).onto cs := by
  induction ls generalizing r with
  | nil => rfl
  | cons l ls ih => rw [List.foldl_cons, List.foldl_cons, step_onto, ih]

end LineReader

end IncludeScan
