import IncludeScan.Directive.Reach

/-!
# Proofs/Directive/TestedNames — a macro that no condition tests changes nothing

A condition sees an environment through the names that it **tests**: those asked for by `defined`
and those that stand for their value.  A call is taken to hold whatever its arguments are, so a name
that only occurs there is not tested.

Environments that agree on some names still agree on them behind any definition and any removal
(`AgreeOn.define`, `AgreeOn.erase`).  So if they agree on what the conditions of a tree test, they
agree on it wherever the walk meets a condition, and the same branches are taken
(`reachable_eq_of_agreeOn`).

`reachable_eq_of_agreeOn_tested` — such environments reach the same includes, and macros that are
never tested may be added.
-/

namespace IncludeScan

/-! ## The names that are tested -/

/-- The names that a condition tests, those in the arguments of calls left out. -/
def Condition.testedNames : Condition → List String
  | .defined name => [name]
  | .not operand => operand.testedNames
  | .and left right => left.testedNames ++ right.testedNames
  | .or left right => left.testedNames ++ right.testedNames
  | .compare left _ right => left.testedNames ++ right.testedNames
  | .apply _ _ => []
  | .ident name => [name]
  | .constant _ => []

mutual

/-- The conditions that stand anywhere in the directives. -/
def Directive.conditions : List Directive → List Condition
  | [] => []
  | .includeFile _ :: ds => Directive.conditions ds
  | .define _ _ _ :: ds => Directive.conditions ds
  | .undefine _ :: ds => Directive.conditions ds
  | .block branches :: ds => Branch.conditions branches ++ Directive.conditions ds

/-- The conditions of the branches and those that stand in them. -/
def Branch.conditions : List Branch → List Condition
  | [] => []
  | ⟨_, condition, body⟩ :: bs =>
    condition.toList ++ Directive.conditions body ++ Branch.conditions bs

end

/-- **The names that the conditions of the directives test.** -/
def Directive.testedNames (ds : List Directive) : List String :=
  (Directive.conditions ds).flatMap Condition.testedNames

theorem Branch.mem_conditions {bs : List Branch} {c : Condition} :
    c ∈ Branch.conditions bs ↔ ∃ b ∈ bs, c ∈ b.condition ∨ c ∈ Directive.conditions b.body := by
  induction bs with
  | nil => simp [Branch.conditions]
  | cons b bs ih =>
    obtain ⟨kind, condition, body⟩ := b
    simp [Branch.conditions, ih, or_assoc]

/-! ## Environments that agree on names -/

namespace Environment

/-- **The environments agree on the names**: the same ones are defined, with the same values. -/
def AgreeOn (names : List String) (env env' : Environment) : Prop :=
  ∀ name ∈ names, env.isDefined name = env'.isDefined name ∧ env.value name = env'.value name

instance (names : List String) (env env' : Environment) : Decidable (AgreeOn names env env') :=
  inferInstanceAs (Decidable (∀ name ∈ names, _))

variable {names : List String} {env env' : Environment}

theorem isDefined_and_value_iff {name : String} :
    (env.isDefined name = env'.isDefined name ∧ env.value name = env'.value name)
      ↔ env.find? name = env'.find? name := by
  rw [isDefined, isDefined, value, value]
  cases env.find? name <;> cases env'.find? name <;> simp

theorem agreeOn_iff : AgreeOn names env env' ↔ ∀ name ∈ names, env.find? name = env'.find? name :=
  forall₂_congr fun _ _ => isDefined_and_value_iff

theorem AgreeOn.mono {fewer : List String} (h : AgreeOn names env env') (hsub : fewer ⊆ names) :
    AgreeOn fewer env env' :=
  fun name hname => h name (hsub hname)

theorem AgreeOn.erase (h : AgreeOn names env env') (name : String) :
    AgreeOn names (env.erase name) (env'.erase name) := by
  rw [agreeOn_iff] at h ⊢
  intro other hother
  rw [find?_erase, find?_erase, h other hother]

/-- What a definition leaves of a name: its value, or for the reserved name only if it was there. -/
theorem find?_define_eq (env : Environment) (name : String) (value : Int) (other : String) :
    (env.define name value).find? other
      = if other = name then (if name = reserved then (env.find? name).map fun _ => value
        else some value)
        else env.find? other := by
  rw [define]
  by_cases hreserved : name = reserved
  · cases hfind : env.find? name with
    | none =>
      rw [if_pos ⟨hreserved, by rw [isDefined, hfind]; rfl⟩, if_pos hreserved]
      split
      · subst other
        exact hfind
      · rfl
    | some v =>
      rw [if_neg (by rw [isDefined, hfind]; simp), find?_insert, if_pos hreserved]
      rfl
  · rw [if_neg fun h => hreserved h.1, find?_insert, if_neg hreserved]

/-- **A definition keeps the agreement**, also of the reserved name: there it does the same in
both. -/
theorem AgreeOn.define (h : AgreeOn names env env') (name : String) (value : Int) :
    AgreeOn names (env.define name value) (env'.define name value) := by
  rw [agreeOn_iff] at h ⊢
  intro other hother
  rw [find?_define_eq, find?_define_eq]
  split
  · subst other
    rw [h name hother]
  · exact h other hother

/-- Macros laid on top do not matter to names that are not among them. -/
theorem agreeOn_overlay {extra : Environment} (h : ∀ name ∈ names, extra.isDefined name = false)
    (env : Environment) : AgreeOn names (env.overlay extra) env := by
  rw [agreeOn_iff]
  intro name hname
  have hnone : extra.find? name = none := by simpa [isDefined] using h name hname
  rw [find?_overlay, hnone, Option.none_or]

end Environment

/-! ## The walk -/

open Environment (AgreeOn)

variable {names : List String} {env env' : Environment}

/-- **A condition has the same value where what it tests is the same.** -/
theorem Condition.eval_eq_of_agreeOn : ∀ {c : Condition}, AgreeOn c.testedNames env env' →
    c.eval env = c.eval env'
  | .defined name, h => by rw [eval, eval, (h name List.mem_cons_self).1]
  | .not operand, h => by rw [eval, eval, eval_eq_of_agreeOn (c := operand) h]
  | .and left right, h => by
      rw [eval, eval, eval_eq_of_agreeOn (h.mono (List.subset_append_left _ _)),
        eval_eq_of_agreeOn (h.mono (List.subset_append_right _ _))]
  | .or left right, h => by
      rw [eval, eval, eval_eq_of_agreeOn (h.mono (List.subset_append_left _ _)),
        eval_eq_of_agreeOn (h.mono (List.subset_append_right _ _))]
  | .compare left op right, h => by
      rw [eval, eval, eval_eq_of_agreeOn (h.mono (List.subset_append_left _ _)),
        eval_eq_of_agreeOn (h.mono (List.subset_append_right _ _))]
  | .apply _ _, _ => rfl
  | .ident name, h => by rw [eval, eval, (h name List.mem_cons_self).2]
  | .constant _, _ => rfl

theorem Branch.isTaken_eq_of_agreeOn (h : AgreeOn names env env') {condition : Option Condition}
    (htested : ∀ c ∈ condition, c.testedNames ⊆ names) :
    isTaken env condition = isTaken env' condition := by
  cases condition with
  | none => rfl
  | some c =>
    rw [isTaken, isTaken, Condition.holds, Condition.holds,
      Condition.eval_eq_of_agreeOn (h.mono (htested c rfl))]

theorem Branch.reachable_eq_of_agreeOn (h : AgreeOn names env env') {bs : List Branch}
    (htested : ∀ b ∈ bs, ∀ c ∈ b.condition, c.testedNames ⊆ names)
    (hbodies : ∀ b ∈ bs, Directive.reachable env b.body = Directive.reachable env' b.body) :
    reachable env bs = reachable env' bs := by
  induction bs with
  | nil => rw [reachable, reachable]
  | cons b bs ih =>
    obtain ⟨hb, hbs⟩ := List.forall_mem_cons.1 htested
    obtain ⟨hbody, hrest⟩ := List.forall_mem_cons.1 hbodies
    obtain ⟨kind, condition, body⟩ := b
    rw [reachable, reachable, isTaken_eq_of_agreeOn h hb, hbody, ih hbs hrest]

/-- **The walk takes the same way** in environments that agree on names among which are all that the
conditions test. -/
theorem Directive.reachable_eq_of_agreeOn (ds : List Directive) :
    (∀ c ∈ conditions ds, c.testedNames ⊆ names) →
      ∀ env env' : Environment, AgreeOn names env env' →
      reachable env ds = reachable env' ds := by
  induction ds using Directive.forest_induction with
  | nil =>
    intro _ env env' _
    rw [reachable, reachable]
  | includeFile target ds ih =>
    intro htested env env' h
    rw [conditions] at htested
    rw [reachable, reachable, ih htested env env' h]
  | define name params body ds ih =>
    intro htested env env' h
    rw [conditions] at htested
    rw [reachable, reachable, ih htested _ _ (h.define name _)]
  | undefine name ds ih =>
    intro htested env env' h
    rw [conditions] at htested
    rw [reachable, reachable, ih htested _ _ (h.erase name)]
  | block branches ds bodies ih =>
    intro htested env env' h
    rw [conditions] at htested
    obtain ⟨hbranches, hds⟩ := List.forall_mem_append.1 htested
    have hconditions : ∀ b ∈ branches, ∀ c ∈ b.condition, c.testedNames ⊆ names := fun b hb c hc =>
      hbranches c (Branch.mem_conditions.2 ⟨b, hb, Or.inl hc⟩)
    have hbodies : ∀ b ∈ branches, reachable env b.body = reachable env' b.body := fun b hb =>
      bodies b hb (fun c hc => hbranches c (Branch.mem_conditions.2 ⟨b, hb, Or.inr hc⟩)) env env' h
    rw [reachable, reachable, Branch.reachable_eq_of_agreeOn h hconditions hbodies,
      ih hds env env' h]

theorem Directive.testedNames_subset {ds : List Directive} {c : Condition} (h : c ∈ conditions ds) :
    c.testedNames ⊆ testedNames ds :=
  fun _ hname => List.mem_flatMap_of_mem h hname

/-- **A macro that is never tested changes nothing.**  Environments that agree on every name that a
condition of the directives tests reach the same includes; so macros of which none is tested may be
laid on top of an environment. -/
theorem Directive.reachable_eq_of_agreeOn_tested (ds : List Directive) :
    (∀ env env' : Environment, AgreeOn (testedNames ds) env env' →
      reachable env ds = reachable env' ds)
    ∧ ∀ env extra : Environment, (∀ name ∈ testedNames ds, extra.isDefined name = false) →
        reachable (env.overlay extra) ds = reachable env ds := by
  have hagree := reachable_eq_of_agreeOn ds fun c hc => testedNames_subset hc
  exact ⟨hagree, fun env extra h => hagree _ _ (Environment.agreeOn_overlay h env)⟩

/-- A block that tests `B` and calls `F` with `A`, and in it one that tests `C` behind definitions
of the reserved name and of a name that is not tested. -/
def Directive.calledWith : List Directive :=
  let inner : Branch :=
    ⟨.opening, some (.compare (.ident "C") .gt (.constant 1)), [.includeFile ⟨"c.h", false, 5⟩]⟩
  [.block [
    ⟨.opening, some (.and (.apply "F" [.ident "A"]) (.defined "B")),
      [.define Environment.reserved none ["2"], .define "D" none [], .block [inner]]⟩,
    ⟨.fallback, none, [.includeFile ⟨"e.h", false, 8⟩]⟩]]

/-- The environments differ in the argument of the call, in the reserved name and in a name that the
directives define. -/
theorem Directive.reachable_calledWith :
    AgreeOn (testedNames calledWith) ⟨[("A", 1), ("B", 0), ("C", 2)]⟩
        ⟨[(Environment.reserved, 7), ("C", 2), ("D", 3), ("B", 0)]⟩
    ∧ reachable ⟨[("A", 1), ("B", 0), ("C", 2)]⟩ calledWith = [⟨"c.h", false, 5⟩]
    ∧ reachable ⟨[(Environment.reserved, 7), ("C", 2), ("D", 3), ("B", 0)]⟩ calledWith
        = [⟨"c.h", false, 5⟩] := by
  have hagree : AgreeOn (testedNames calledWith) ⟨[("A", 1), ("B", 0), ("C", 2)]⟩
      ⟨[(Environment.reserved, 7), ("C", 2), ("D", 3), ("B", 0)]⟩ := by decide +kernel
  have hreach : reachable ⟨[("A", 1), ("B", 0), ("C", 2)]⟩ calledWith = [⟨"c.h", false, 5⟩] := by
    decide +kernel
  exact ⟨hagree, hreach, ((reachable_eq_of_agreeOn_tested calledWith).1 _ _ hagree).symm.trans
    hreach⟩

end IncludeScan
