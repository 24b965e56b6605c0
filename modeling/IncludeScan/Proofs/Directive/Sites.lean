import IncludeScan.Directive.Basic
import Mathlib.Data.List.Nodup
import Mathlib.Data.List.Infix

/-!
# Proofs/Directive/Sites — the places where includes stand in a tree of directives

A **site** is an include with all that is around it: what stands before and behind it in its body,
and an **enclosure** for each block that it lies in, outermost first.  Putting the enclosures round
the include again gives the whole list of directives (`Site.tree`), and the sites of a list are just
the sites that give that list (`mem_sites`), each once (`nodup_sites`), in the order of the includes
(`map_target_sites`).
-/

namespace IncludeScan

/-- A block and the branch of it that leads to a site. -/
structure Enclosure where
  /-- What stands before the block in its body. -/
  before : List Directive
  /-- The branches of the block before the one that leads to the site. -/
  earlier : List Branch
  kind : BranchKind
  condition : Option Condition
  later : List Branch
  after : List Directive

/-- An include and where it stands. -/
structure Site where
  enclosures : List Enclosure
  before : List Directive
  target : Include
  after : List Directive

/-- The body in which the block stands, from the body of the branch. -/
def Enclosure.around (e : Enclosure) (body : List Directive) : List Directive :=
  e.before ++ .block (e.earlier ++ ⟨e.kind, e.condition, body⟩ :: e.later) :: e.after

namespace Site

/-- The directives that the site is a site of. -/
def tree (s : Site) : List Directive :=
  s.enclosures.foldr Enclosure.around (s.before ++ .includeFile s.target :: s.after)

/-- The site, with one more block around it. -/
def within (e : Enclosure) (s : Site) : Site := { s with enclosures := e :: s.enclosures }

/-- What stands before the site in the outermost body. -/
def front (s : Site) : List Directive :=
  match s.enclosures with
  | [] => s.before
  | e :: _ => e.before

/-- A site stands behind its front, as an include or in a block. -/
theorem exists_tree_eq (s : Site) : ∃ d after, s.tree = s.front ++ d :: after := by
  obtain ⟨enclosures, before, target, after⟩ := s
  cases enclosures with
  | nil => exact ⟨_, _, rfl⟩
  | cons e es => exact ⟨_, _, rfl⟩

theorem within_injective (e : Enclosure) : Function.Injective (within e) := by
  rintro ⟨enclosures, before, target, after⟩ ⟨enclosures', before', target', after'⟩ h
  obtain ⟨henclosures, hbefore, htarget, hafter⟩ := Site.mk.inj h
  exact Site.mk.injEq .. ▸ ⟨(List.cons.inj henclosures).2, hbefore, htarget, hafter⟩

end Site

mutual

/-- The sites of a list of directives that stands behind others in its body. -/
def Directive.sitesFrom (before : List Directive) : List Directive → List Site
  | [] => []
  | .includeFile target :: ds =>
    ⟨[], before, target, ds⟩ :: Directive.sitesFrom (before ++ [.includeFile target]) ds
  | .define name params body :: ds => Directive.sitesFrom (before ++ [.define name params body]) ds
  | .undefine name :: ds => Directive.sitesFrom (before ++ [.undefine name]) ds
  | .block branches :: ds =>
    Branch.sitesFrom before ds [] branches ++ Directive.sitesFrom (before ++ [.block branches]) ds

/-- The sites of the last branches of a block. -/
def Branch.sitesFrom (before after : List Directive) (earlier : List Branch) :
    List Branch → List Site
  | [] => []
  | ⟨kind, condition, body⟩ :: later =>
    (Directive.sitesFrom [] body).map (Site.within ⟨before, earlier, kind, condition, later, after⟩)
      ++ Branch.sitesFrom before after (earlier ++ [⟨kind, condition, body⟩]) later

end

/-- **The sites of a list of directives.** -/
def Directive.sites (ds : List Directive) : List Site := Directive.sitesFrom [] ds

/-! ## The includes are those of the sites -/

namespace Directive

theorem map_target_branchSites {branches : List Branch}
    (h : ∀ b ∈ branches, (sitesFrom [] b.body).map Site.target = includes b.body)
    (before after : List Directive) (earlier : List Branch) :
    (Branch.sitesFrom before after earlier branches).map Site.target
      = Branch.includes branches := by
  induction branches generalizing earlier with
  | nil => rw [Branch.sitesFrom, Branch.includes, List.map_nil]
  | cons b later ih =>
    obtain ⟨kind, condition, body⟩ := b
    rw [Branch.sitesFrom, Branch.includes, List.map_append,
      ih (fun b hb => h b (List.mem_cons_of_mem _ hb)), List.map_map,
      ← h ⟨kind, condition, body⟩ List.mem_cons_self]
    rfl

theorem map_target_sitesFrom (before ds : List Directive) :
    (sitesFrom before ds).map Site.target = includes ds := by
  induction ds using forest_induction generalizing before with
  | nil => rw [sitesFrom, includes, List.map_nil]
  | includeFile target ds ih => rw [sitesFrom, includes, List.map_cons, ih]; rfl
  | define name params body ds ih => rw [sitesFrom, includes, ih]; rfl
  | undefine name ds ih => rw [sitesFrom, includes, ih]; rfl
  | block branches ds bodies ih =>
    rw [sitesFrom, includes, List.map_append, ih, includesOf,
      map_target_branchSites fun b hb => bodies b hb []]

theorem map_target_sites (ds : List Directive) : (sites ds).map Site.target = includes ds :=
  map_target_sitesFrom [] ds

/-! ## Every site, and each once -/

theorem mem_branchSites {branches : List Branch} {before after : List Directive}
    {earlier : List Branch} {s : Site} :
    s ∈ Branch.sitesFrom before after earlier branches
      ↔ ∃ pre kind condition body later, branches = pre ++ ⟨kind, condition, body⟩ :: later
        ∧ ∃ inner ∈ sitesFrom [] body,
          inner.within ⟨before, earlier ++ pre, kind, condition, later, after⟩ = s := by
  induction branches generalizing earlier with
  | nil => simp [Branch.sitesFrom]
  | cons b bs ih =>
    obtain ⟨kind, condition, body⟩ := b
    rw [Branch.sitesFrom, List.mem_append, List.mem_map, ih]
    constructor
    · rintro (⟨inner, hinner, rfl⟩
        | ⟨pre, kind', condition', body', later, rfl, inner, hinner, rfl⟩)
      · exact ⟨[], kind, condition, body, bs, rfl, inner, hinner, by rw [List.append_nil]⟩
      · exact ⟨⟨kind, condition, body⟩ :: pre, kind', condition', body', later, rfl, inner, hinner,
          by rw [List.append_assoc]; rfl⟩
    · rintro ⟨pre, kind', condition', body', later, hsplit, inner, hinner, rfl⟩
      cases pre with
      | nil =>
        obtain ⟨hb, rfl⟩ := List.cons.inj hsplit
        obtain ⟨rfl, rfl, rfl⟩ := Branch.mk.inj hb
        exact Or.inl ⟨inner, hinner, by rw [List.append_nil]⟩
      | cons b pre =>
        obtain ⟨rfl, rfl⟩ := List.cons.inj hsplit
        exact Or.inr ⟨pre, kind', condition', body', later, rfl, inner, hinner,
          by rw [List.append_assoc]; rfl⟩

end Directive

namespace Site

/-- The site is a site of the whole body and stands behind its first part. -/
def Beyond (before ds : List Directive) (s : Site) : Prop :=
  s.tree = before ++ ds ∧ before <+: s.front

/-- The site stands in the directive `d` of the body. -/
def StandsIn (before : List Directive) (d : Directive) (after : List Directive) (s : Site) : Prop :=
  s.tree = before ++ d :: after ∧ s.front = before

theorem not_beyond_nil (before : List Directive) (s : Site) : ¬ s.Beyond before [] := by
  rintro ⟨htree, hb⟩
  obtain ⟨d, after, h⟩ := s.exists_tree_eq
  have hlen := congrArg List.length (h.symm.trans htree)
  have hle := hb.length_le
  simp only [List.length_append, List.length_cons, List.length_nil] at hlen
  omega

/-- **A site stands in the next directive or behind it.** -/
theorem beyond_cons {s : Site} {before ds : List Directive} {d : Directive} :
    s.Beyond before (d :: ds) ↔ s.StandsIn before d ds ∨ s.Beyond (before ++ [d]) ds := by
  constructor
  · rintro ⟨htree, rest, hrest⟩
    cases rest with
    | nil => exact Or.inl ⟨htree, by rw [← hrest, List.append_nil]⟩
    | cons d' rest =>
      obtain ⟨first, after, h⟩ := s.exists_tree_eq
      -- the tree begins with the front, so the front goes on with the next directive
      have hsame := h.symm.trans htree
      rw [← hrest, List.append_assoc] at hsame
      obtain ⟨rfl, -⟩ := List.cons.inj (List.append_cancel_left hsame)
      exact Or.inr ⟨by rw [htree, List.append_assoc]; rfl, rest,
        by rw [← hrest, List.append_assoc]; rfl⟩
  · rintro (⟨htree, rfl⟩ | ⟨htree, hb⟩)
    · exact ⟨htree, List.prefix_rfl⟩
    · exact ⟨by rw [htree, List.append_assoc]; rfl, (List.prefix_append _ _).trans hb⟩

theorem standsIn_iff {before after : List Directive} {d : Directive} {s : Site} :
    s.StandsIn before d after
      ↔ (∃ target, d = .includeFile target ∧ s = ⟨[], before, target, after⟩)
        ∨ ∃ pre kind condition later, ∃ inner : Site,
          d = .block (pre ++ ⟨kind, condition, inner.tree⟩ :: later)
          ∧ inner.within ⟨before, pre, kind, condition, later, after⟩ = s := by
  constructor
  · obtain ⟨enclosures, before', target, after'⟩ := s
    rintro ⟨htree, rfl⟩
    cases enclosures with
    | nil =>
      obtain ⟨rfl, rfl⟩ := List.cons.inj (List.append_cancel_left htree)
      exact Or.inl ⟨target, rfl, rfl⟩
    | cons e es =>
      obtain ⟨rfl, rfl⟩ := List.cons.inj (List.append_cancel_left htree)
      exact Or.inr ⟨e.earlier, e.kind, e.condition, e.later, ⟨es, before', target, after'⟩, rfl,
        rfl⟩
  · rintro (⟨target, rfl, rfl⟩ | ⟨pre, kind, condition, later, inner, rfl, rfl⟩)
    · exact ⟨rfl, rfl⟩
    · exact ⟨rfl, rfl⟩

end Site

namespace Directive

theorem mem_sitesFrom {before ds : List Directive} {s : Site} :
    s ∈ sitesFrom before ds ↔ s.Beyond before ds := by
  induction ds using forest_induction generalizing before s with
  | nil => simp [sitesFrom, Site.not_beyond_nil]
  | includeFile target ds ih =>
    rw [sitesFrom, List.mem_cons, ih, Site.beyond_cons, Site.standsIn_iff]
    simp
  | define name params body ds ih => simp [sitesFrom, ih, Site.beyond_cons, Site.standsIn_iff]
  | undefine name ds ih => simp [sitesFrom, ih, Site.beyond_cons, Site.standsIn_iff]
  | block branches ds bodies ih =>
    rw [sitesFrom, List.mem_append, ih, Site.beyond_cons, mem_branchSites, Site.standsIn_iff]
    refine or_congr_left ⟨?_, ?_⟩
    · rintro ⟨pre, kind, condition, body, later, rfl, inner, hinner, rfl⟩
      obtain ⟨rfl, -⟩ := (bodies ⟨kind, condition, body⟩ (by simp)).1 hinner
      exact Or.inr ⟨pre, kind, condition, later, inner, rfl, rfl⟩
    · rintro (⟨target, h, -⟩ | ⟨pre, kind, condition, later, inner, h, rfl⟩)
      · exact absurd h (by simp)
      · obtain rfl := Directive.block.inj h
        exact ⟨pre, kind, condition, inner.tree, later, rfl, inner,
          (bodies ⟨kind, condition, inner.tree⟩ (by simp)).2 ⟨rfl, List.nil_prefix⟩, rfl⟩

/-- **The sites of a list of directives are all the sites whose tree it is.** -/
theorem mem_sites {ds : List Directive} {s : Site} : s ∈ sites ds ↔ s.tree = ds :=
  mem_sitesFrom.trans (and_iff_left List.nil_prefix)

/-- What stands behind a directive does not stand in it. -/
theorem not_mem_sitesFrom_of_front {before ds : List Directive} {d : Directive} {s : Site}
    (h : s.front = before) : s ∉ sitesFrom (before ++ [d]) ds := by
  intro hs
  have hle := (mem_sitesFrom.1 hs).2.length_le
  rw [h, List.length_append, List.length_singleton] at hle
  omega

theorem nodup_branchSites {branches : List Branch}
    (h : ∀ b ∈ branches, (sitesFrom [] b.body).Nodup) (before after : List Directive)
    (earlier : List Branch) : (Branch.sitesFrom before after earlier branches).Nodup := by
  induction branches generalizing earlier with
  | nil => rw [Branch.sitesFrom]; exact List.nodup_nil
  | cons b later ih =>
    obtain ⟨kind, condition, body⟩ := b
    rw [Branch.sitesFrom]
    refine List.nodup_append'.2 ⟨(h _ List.mem_cons_self).map (Site.within_injective _),
      ih (fun b hb => h b (List.mem_cons_of_mem _ hb)) _, ?_⟩
    -- a site of a later branch has more branches before its own
    intro s hs hlater
    obtain ⟨inner, -, rfl⟩ := List.mem_map.1 hs
    obtain ⟨pre, _, _, _, _, -, inner', -, heq⟩ := mem_branchSites.1 hlater
    have hlen := congrArg (fun s : Site => s.enclosures.map fun e => e.earlier.length) heq
    simp [Site.within] at hlen

theorem nodup_sitesFrom (before ds : List Directive) : (sitesFrom before ds).Nodup := by
  induction ds using forest_induction generalizing before with
  | nil => rw [sitesFrom]; exact List.nodup_nil
  | includeFile target ds ih =>
    rw [sitesFrom]
    exact List.nodup_cons.2 ⟨not_mem_sitesFrom_of_front rfl, ih _⟩
  | define name params body ds ih => rw [sitesFrom]; exact ih _
  | undefine name ds ih => rw [sitesFrom]; exact ih _
  | block branches ds bodies ih =>
    rw [sitesFrom]
    refine List.nodup_append'.2 ⟨nodup_branchSites (fun b hb => bodies b hb []) _ _ _, ih _, ?_⟩
    intro s hs
    obtain ⟨_, _, _, _, _, -, inner, -, rfl⟩ := mem_branchSites.1 hs
    exact not_mem_sitesFrom_of_front rfl

theorem nodup_sites (ds : List Directive) : (sites ds).Nodup := nodup_sitesFrom [] ds

end Directive

end IncludeScan
