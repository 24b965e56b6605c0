import IncludeScan.Directive.Reach
import IncludeScan.Proofs.Directive.Sites
import Mathlib.Data.Fin.Basic

/-!
# Proofs/Directive/PathCondition — an include is reached exactly when its path is taken

The **path condition** of a site looks at the site alone.  Each block around it must be entered by
the branch that leads to the site: that branch is open, and none before it is (`Enclosure.Taken`).
The environment that decides this comes from the definitions that stand before the block, in its own
body and in those around it (`Site.Reached`).  The walk over the directives keeps the includes of
the sites whose path condition holds, and no others (`reachable_after`).
-/

namespace IncludeScan

/-! ## The path condition -/

/-- What a directive does to the environment of those behind it in its body. -/
def Directive.apply (env : Environment) : Directive → Environment
  | .includeFile _ => env
  | .define name params body => env.define name (definedValue params body)
  | .undefine name => env.erase name
  | .block _ => env

/-- The environment behind a list of directives. -/
def Environment.after (env : Environment) (ds : List Directive) : Environment :=
  ds.foldl Directive.apply env

/-- A branch can be taken: it has no condition, or its condition is not zero. -/
def Branch.Open (env : Environment) (condition : Option Condition) : Prop :=
  ∀ c ∈ condition, c.eval env ≠ 0

/-- **The branch that leads to the site is the first that can be taken.** -/
def Enclosure.Taken (env : Environment) (e : Enclosure) : Prop :=
  Branch.Open env e.condition ∧ ∀ b ∈ e.earlier, ¬ Branch.Open env b.condition

/-- **The path condition**: every block around the site is entered by the branch that leads to it,
in the environment behind all that stands before the block and before the blocks around that. -/
def Site.Reached (env : Environment) (s : Site) : Prop :=
  ∀ i : Fin s.enclosures.length,
    (s.enclosures.get i).Taken (env.after ((s.enclosures.take (i + 1)).flatMap Enclosure.before))

theorem Branch.isTaken_iff {env : Environment} {condition : Option Condition} :
    Branch.isTaken env condition = true ↔ Branch.Open env condition := by
  cases condition with
  | none => simp [Branch.isTaken, Branch.Open]
  | some c => simp [Branch.isTaken, Branch.Open, Condition.holds]

instance (env : Environment) (condition : Option Condition) :
    Decidable (Branch.Open env condition) :=
  decidable_of_iff _ Branch.isTaken_iff

instance (env : Environment) (e : Enclosure) : Decidable (e.Taken env) :=
  inferInstanceAs (Decidable (_ ∧ _))

instance (env : Environment) (s : Site) : Decidable (s.Reached env) :=
  inferInstanceAs (Decidable (∀ _ : Fin _, _))

theorem Environment.after_append (env : Environment) (ds es : List Directive) :
    env.after (ds ++ es) = (env.after ds).after es := List.foldl_append

theorem Environment.after_concat (env : Environment) (ds : List Directive) (d : Directive) :
    env.after (ds ++ [d]) = d.apply (env.after ds) := env.after_append ds [d]

theorem Site.reached_of_enclosures_eq_nil (env : Environment) (before : List Directive)
    (target : Include) (after : List Directive) : Site.Reached env ⟨[], before, target, after⟩ :=
  fun i => i.elim0

/-- **One block more around a site is one condition more**, and the rest is decided behind what
stands before the block. -/
theorem Site.reached_within {env : Environment} {e : Enclosure} {s : Site} :
    (s.within e).Reached env
      ↔ e.Taken (env.after e.before) ∧ s.Reached (env.after e.before) := by
  unfold Site.Reached
  refine Fin.forall_fin_succ.trans (and_congr ?_ (forall_congr' fun i => ?_))
  · simp [Site.within]
  · simp [Site.within, Environment.after_append]

/-! ## The walk -/

namespace Directive

/-- No site of a branch behind an open one is reached. -/
theorem filter_branchSites_eq_nil {env : Environment} {before after : List Directive}
    {earlier : List Branch} {b : Branch} (hb : b ∈ earlier)
    (hopen : Branch.Open (env.after before) b.condition) (branches : List Branch) :
    (Branch.sitesFrom before after earlier branches).filter (fun s => s.Reached env) = [] := by
  refine List.filter_eq_nil_iff.2 fun s hs hreached => ?_
  obtain ⟨pre, kind, condition, body, later, -, inner, -, rfl⟩ := mem_branchSites.1 hs
  obtain ⟨⟨-, hclosed⟩, -⟩ := Site.reached_within.1 (of_decide_eq_true hreached)
  exact hclosed b (List.mem_append_left _ hb) hopen

/-- Of the sites within a branch those are reached that the environment of the block reaches, if the
branch is taken. -/
theorem map_target_filter_within (env : Environment) (e : Enclosure) (ss : List Site) :
    ((ss.map (Site.within e)).filter fun s => s.Reached env).map Site.target
      = if e.Taken (env.after e.before)
          then (ss.filter fun s => s.Reached (env.after e.before)).map Site.target else [] := by
  rw [List.filter_map, List.map_map]
  split
  case isTrue htaken =>
    refine congrArg (List.map Site.target) (List.filter_congr fun s _ => ?_)
    exact decide_eq_decide.2 (Site.reached_within.trans (and_iff_right htaken))
  case isFalse htaken =>
    refine List.map_eq_nil_iff.2 (List.filter_eq_nil_iff.2 fun s _ hreached => ?_)
    exact htaken (Site.reached_within.1 (of_decide_eq_true hreached)).1

theorem reachable_branches {branches : List Branch}
    (h : ∀ b ∈ branches, ∀ (env : Environment) (before : List Directive),
      reachable (env.after before) b.body
        = ((sitesFrom before b.body).filter fun s => s.Reached env).map Site.target)
    (env : Environment) (before after : List Directive) {earlier : List Branch}
    (hearlier : ∀ b ∈ earlier, ¬ Branch.Open (env.after before) b.condition) :
    Branch.reachable (env.after before) branches
      = ((Branch.sitesFrom before after earlier branches).filter fun s => s.Reached env).map
          Site.target := by
  induction branches generalizing earlier with
  | nil => rw [Branch.reachable, Branch.sitesFrom]; rfl
  | cons b later ih =>
    obtain ⟨kind, condition, body⟩ := b
    have hbody := h _ List.mem_cons_self (env.after before) []
    rw [Branch.reachable, Branch.sitesFrom, List.filter_append, List.map_append,
      map_target_filter_within]
    by_cases hopen : Branch.Open (env.after before) condition
    · -- the branch is taken, and it hides those behind it
      rw [if_pos (Branch.isTaken_iff.2 hopen), if_pos ⟨hopen, hearlier⟩,
        filter_branchSites_eq_nil (List.mem_append_right _ List.mem_cons_self) hopen,
        List.map_nil, List.append_nil]
      exact hbody
    · have hnext : ∀ b ∈ earlier ++ [⟨kind, condition, body⟩],
          ¬ Branch.Open (env.after before) b.condition :=
        List.forall_mem_append.2 ⟨hearlier, List.forall_mem_singleton.2 hopen⟩
      rw [if_neg (fun h => hopen (Branch.isTaken_iff.1 h)), if_neg (fun h => hopen h.1),
        List.nil_append, ih (fun b hb => h b (List.mem_cons_of_mem _ hb)) hnext]

theorem reachable_after (env : Environment) (before ds : List Directive) :
    reachable (env.after before) ds
      = ((sitesFrom before ds).filter fun s => s.Reached env).map Site.target := by
  induction ds using forest_induction generalizing env before with
  | nil => rw [reachable, sitesFrom]; rfl
  | includeFile target ds ih =>
    rw [reachable, sitesFrom, List.filter_cons_of_pos
      (by simpa using Site.reached_of_enclosures_eq_nil env before target ds), List.map_cons, ← ih,
      Environment.after_concat]
    rfl
  | define name params body ds ih =>
    rw [reachable, sitesFrom, ← ih, Environment.after_concat]
    rfl
  | undefine name ds ih =>
    rw [reachable, sitesFrom, ← ih, Environment.after_concat]
    rfl
  | block branches ds bodies ih =>
    rw [reachable, sitesFrom, List.filter_append, List.map_append, ← ih, Environment.after_concat,
      reachable_branches bodies env before ds (fun b hb => absurd hb List.not_mem_nil)]
    rfl

/-- **The includes that are reached are those of the sites whose path condition holds**, in the
order of all includes and as often as they stand there. -/
theorem reachable_eq_filter_sites (env : Environment) (ds : List Directive) :
    (∀ s : Site, s ∈ sites ds ↔ s.tree = ds) ∧ (sites ds).Nodup
      ∧ includes ds = (sites ds).map Site.target
      ∧ reachable env ds = ((sites ds).filter fun s => s.Reached env).map Site.target :=
  ⟨fun _ => mem_sites, nodup_sites ds, (map_target_sites ds).symm, reachable_after env [] ds⟩

end Directive

end IncludeScan
