import IncludeScan.Analysis
import IncludeScan.Proofs.Directive.PathCondition
import IncludeScan.Proofs.Outline.IncludeLines

/-!
# Proofs/Analysis/Targets — which targets reach an include of a file

The report on a file asks of each include whether it is among those that a target reaches.  Two
includes of a file are never on one line, so this is the question whether the target reaches the
line (`Target.reaches`), and one path that is included twice is told apart.

`FileReport.includes_ofContent` — the includes of a report, the targets of each, and back: the
includes that a target reaches.
-/

namespace IncludeScan

/-- The target reaches an include on this line. -/
def Target.reaches (directives : List Directive) (t : Target) (line : Nat) : Bool :=
  (Directive.reachable t.env directives).any fun i => i.line == line

theorem Target.reaches_iff {directives : List Directive} {t : Target} {line : Nat} :
    t.reaches directives line = true
      ↔ ∃ i ∈ Directive.reachable t.env directives, i.line = line := by
  simp [reaches]

/-- The includes that are reached are some of all includes, in the same order. -/
theorem Directive.reachable_sublist (env : Environment) (ds : List Directive) :
    (reachable env ds).Sublist (includes ds) := by
  have hreachable : reachable env ds = ((sites ds).filter fun s => s.Reached env).map Site.target :=
    reachable_after env [] ds
  rw [hreachable, ← map_target_sites]
  exact List.filter_sublist.map _

/-- A sublist is what remains of a list whose entries have keys of their own, if the keys of the
sublist are kept. -/
theorem filter_key_eq_of_sublist {α β : Type} [BEq β] [LawfulBEq β] {key : α → β} {s l : List α}
    (h : s.Sublist l) (hl : (l.map key).Nodup) :
    (l.filter fun a => s.any fun b => key b == key a) = s := by
  induction h with
  | slnil => rfl
  | @cons s l a h ih =>
    obtain ⟨hnew, hl⟩ := List.nodup_cons.1 hl
    have ha : (s.any fun b => key b == key a) = false := by
      rw [List.any_eq_false]
      intro b hb heq
      exact hnew (eq_of_beq heq ▸ List.mem_map_of_mem (h.subset hb))
    rw [List.filter_cons_of_neg (by simp [ha]), ih hl]
  | @cons_cons s l a h ih =>
    obtain ⟨hnew, hl⟩ := List.nodup_cons.1 hl
    rw [List.filter_cons_of_pos (by simp)]
    refine congrArg (a :: ·) ((List.filter_congr fun b hb => ?_).trans (ih hl))
    have hne : (key a == key b) = false :=
      beq_eq_false_iff_ne.2 fun heq => hnew (heq ▸ List.mem_map_of_mem hb)
    rw [List.any_cons, hne, Bool.false_or]

section

variable {ds : List Directive} (hlines : ((Directive.includes ds).map Include.line).Nodup)

include hlines

/-- **An include of a file is known by its line.** -/
theorem Target.contains_reachable (t : Target) {i : Include} (hi : i ∈ Directive.includes ds) :
    (Directive.reachable t.env ds).contains i = t.reaches ds i.line := by
  rw [Bool.eq_iff_iff, List.contains_iff_mem, reaches_iff]
  constructor
  · exact fun hmem => ⟨i, hmem, rfl⟩
  · rintro ⟨j, hj, hline⟩
    have hsame :=
      List.inj_on_of_nodup_map hlines ((Directive.reachable_sublist _ _).subset hj) hi hline
    exact hsame ▸ hj

theorem FileReport.annotate_eq (targets : List Target) :
    annotate ds targets = (Directive.includes ds).map fun i =>
      ⟨i, (targets.filter fun t => t.reaches ds i.line).map Target.name,
        targets.any fun t => !t.reaches ds i.line⟩ := by
  refine List.map_congr_left fun i hi => ?_
  have hplatforms : ((targets.map fun t => (t.name, Directive.reachable t.env ds)).filter
      fun r => r.2.contains i).map Prod.fst
        = (targets.filter fun t => t.reaches ds i.line).map Target.name := by
    rw [List.filter_map, List.map_map]
    refine congrArg _ (List.filter_congr fun t _ => ?_)
    exact Target.contains_reachable hlines t hi
  dsimp only
  rw [hplatforms, List.length_map]
  refine congrArg _ (Bool.eq_iff_iff.2 ?_)
  have hcount : (targets.filter fun t => t.reaches ds i.line).length < targets.length
      ↔ ∃ t ∈ targets, ¬ t.reaches ds i.line = true := List.length_filter_lt_length_iff_exists
  rw [decide_eq_true_iff, hcount]
  simp

/-- **The includes on the lines that a target reaches are those that it reaches.** -/
theorem Target.filter_reaches (t : Target) :
    (Directive.includes ds).filter (fun i => t.reaches ds i.line) = Directive.reachable t.env ds :=
  filter_key_eq_of_sublist (Directive.reachable_sublist _ _) hlines

end

namespace FileReport

theorem ofContent_eq {c : Content} {o : Outline} (h : c.outline = .ok o) (name : String)
    (targets : List Target) : ofContent name c targets = ofOutline name targets o := by
  rw [ofContent, h]

/-- A name that only one target has stands among the names of some targets just if that target is
one of them. -/
theorem contains_name {targets : List Target} {t : Target} (ht : t ∈ targets)
    (hname : ∀ u ∈ targets, u.name = t.name → u = t) (p : Target → Bool) :
    ((targets.filter p).map Target.name).contains t.name = p t := by
  rw [Bool.eq_iff_iff, List.contains_iff_mem]
  constructor
  · intro hmem
    obtain ⟨u, hu, heq⟩ := List.mem_map.1 hmem
    obtain ⟨hu, hp⟩ := List.mem_filter.1 hu
    exact hname u hu heq ▸ hp
  · exact fun hp => List.mem_map_of_mem (List.mem_filter.2 ⟨ht, hp⟩)

/-- **The includes of a file with the targets that reach them.**  The report on a file that can be
cut lists all includes of its directives, in order.  The platforms of each are the names of the
targets that reach its line, in the order of the targets, and it is specific if some target does
not.  So the includes on the lines that a target reaches are just those that its environment
reaches; and if no other target has its name, they are the ones that list the name. -/
theorem includes_ofContent (name : String) {c : Content} {eof : Token}
    (h : c.tokenize.ending = .ok eof) (targets : List Target) :
    ∃ o, c.outline = .ok o
      ∧ (ofContent name c targets).includes.map ReachedInclude.target
        = Directive.includes o.directives
      ∧ (∀ r ∈ (ofContent name c targets).includes,
        r.platforms = (targets.filter fun t => t.reaches o.directives r.target.line).map Target.name
        ∧ (r.platformSpecific = true ↔ ∃ t ∈ targets, t.reaches o.directives r.target.line = false))
      ∧ (∀ t ∈ targets,
        ((ofContent name c targets).includes.filter fun r =>
          t.reaches o.directives r.target.line).map ReachedInclude.target
          = Directive.reachable t.env o.directives)
      ∧ ∀ t ∈ targets, (∀ u ∈ targets, u.name = t.name → u = t) →
        ((ofContent name c targets).includes.filter fun r =>
          r.platforms.contains t.name).map ReachedInclude.target
          = Directive.reachable t.env o.directives := by
  have ho : c.outline = .ok (Outline.ofTokens c.tokenize.tokens) :=
    Outline.ofText_eq_ok_iff.2 ⟨⟨eof, h⟩, rfl⟩
  have hlines : ((Directive.includes (Outline.ofTokens c.tokenize.tokens).directives).map
      Include.line).Nodup :=
    (Outline.pairwise_line_includes_ofText ho).imp Nat.ne_of_lt
  refine ⟨_, ho, ?_⟩
  rw [ofContent_eq ho, ofOutline, annotate_eq hlines]
  refine ⟨?_, ?_, fun t _ => ?_, fun t ht hname => ?_⟩
  · rw [List.map_map]
    exact List.map_id _
  · refine List.forall_mem_map.2 fun i _ => ⟨rfl, ?_⟩
    simp
  · rw [List.filter_map, List.map_map]
    exact (List.map_id _).trans (Target.filter_reaches hlines t)
  · rw [List.filter_map, List.map_map]
    refine (List.map_id _).trans
      (.trans (List.filter_congr fun i _ => ?_) (Target.filter_reaches hlines t))
    exact contains_name ht hname _

/-- One header included in both branches of a block: each target has the include of its own
branch. -/
theorem includes_ofContent_both_branches :
    let text := "#ifdef W\n#include <a.h>\n#else\n#include <a.h>\n#endif\n"
    let report := ofContent "a.c" (.text text) [⟨"w", ⟨[("W", 1)]⟩⟩, ⟨"x", .empty⟩]
    (Content.text text).tokenize.ending = .ok ⟨.eof, "", ⟨6, 1⟩, ⟨52, 52⟩, none⟩
      ∧ report.includes.map ReachedInclude.target = [⟨"a.h", true, 2⟩, ⟨"a.h", true, 4⟩]
      ∧ (report.includes.filter fun r => r.platforms.contains "w").map ReachedInclude.target
        = [⟨"a.h", true, 2⟩]
      ∧ (report.includes.filter fun r => r.platforms.contains "x").map ReachedInclude.target
        = [⟨"a.h", true, 4⟩] := by
  intro text report
  have hok : (tokenize text).ending = .ok ⟨.eof, "", ⟨6, 1⟩, ⟨52, 52⟩, none⟩ := by
    rw [tokenize_eq_steps]
    decide +kernel
  obtain ⟨o, ho, hincludes, -, -, hnamed⟩ :=
    includes_ofContent "a.c" (c := .text text) hok [⟨"w", ⟨[("W", 1)]⟩⟩, ⟨"x", .empty⟩]
  obtain ⟨-, rfl⟩ := Outline.ofText_eq_ok_iff.1 ho
  have hw := hnamed ⟨"w", ⟨[("W", 1)]⟩⟩ (by decide) (by decide)
  have hx := hnamed ⟨"x", .empty⟩ (by decide) (by decide)
  rw [Outline.ofTokens, Outline.lines_eq_directiveLines, tokenize_eq_steps] at hincludes hw hx
  refine ⟨hok, hincludes.trans ?_, hw.trans ?_, hx.trans ?_⟩ <;> decide +kernel

end FileReport

end IncludeScan
