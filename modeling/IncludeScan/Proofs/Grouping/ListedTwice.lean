import IncludeScan.Proofs.Grouping.InputOrder

/-!
# Proofs/Grouping/ListedTwice — only a file that is listed twice is refused

A grouping can fail in three ways: a file has no node, a group has no file to be named after, a file
is assigned twice.  Every file finds the node of its id, and every component has files; so only the
assignment is left (`exists_ofFiles_eq`).  It goes through the groups, and they hold the files as
often as they are listed (`Named.sources_collect_perm`).

What the assignment reports reads as a file in two groups.  But files of one name have one id, so
they are in one group, and the report names that group twice (`Named.eq_of_mem_sources`).

`ofFiles_error_iff_listedTwice` — files are refused when one is listed twice, and for no other
reason.
-/

namespace IncludeScan

namespace Groups

/-- **What a failed assignment says**: a file comes again, in the second group, that has come
before, in the first. -/
theorem assign_eq_error : ∀ {seen list : List (String × String)} {e : GroupingError},
    assign seen list = .error e → ∃ before file first second after,
      e = .assignedTwice file first second ∧ list = before ++ (file, second) :: after
        ∧ (before.reverse ++ seen).lookup file = some first
  | seen, (file, group) :: others, e, h => by
      rw [assign] at h
      cases hfile : seen.lookup file with
      | some first =>
        rw [hfile] at h
        exact ⟨[], file, first, group, others, (Except.error.inj h).symm, rfl, hfile⟩
      | none =>
        rw [hfile] at h
        cases hrest : assign ((file, group) :: seen) others with
        | ok rest =>
          rw [hrest] at h
          cases h
        | error e' =>
          rw [hrest] at h
          obtain rfl := Except.error.inj h
          obtain ⟨before, again, first, second, after, rfl, rfl, hseen⟩ := assign_eq_error hrest
          exact ⟨(file, group) :: before, again, first, second, after, rfl, rfl,
            by simpa using hseen⟩

/-- …so the file is in the groups twice, and both groups have it. -/
theorem fileToGroup_eq_error {groups : Groups} {e : GroupingError}
    (h : groups.fileToGroup = .error e) :
    ∃ file first second, e = .assignedTwice file first second
      ∧ 1 < (groups.flatMap fun e => e.2.sources).count file
      ∧ (∃ g, (first, g) ∈ groups ∧ file ∈ g.sources) ∧ ∃ g, (second, g) ∈ groups
        ∧ file ∈ g.sources := by
  obtain ⟨before, file, first, second, after, rfl, hlist, hseen⟩ := assign_eq_error h
  have hfirst : (file, first) ∈ before := by
    obtain ⟨l, l', hsplit, -⟩ := List.lookup_eq_some_iff.1 hseen
    rw [List.append_nil] at hsplit
    exact List.mem_reverse.1 (hsplit ▸ by simp)
  have hmem : ∀ name, (file, name) ∈ before ++ (file, second) :: after →
      ∃ g, (name, g) ∈ groups ∧ file ∈ g.sources := fun name hname => by
    rw [← hlist] at hname
    obtain ⟨⟨name', g⟩, hg, hfile⟩ := List.mem_flatMap.1 hname
    obtain ⟨file', hfile', heq⟩ := List.mem_map.1 hfile
    obtain ⟨rfl, rfl⟩ := Prod.mk.inj heq
    exact ⟨g, hg, hfile'⟩
  have hcount : 1 < ((before ++ (file, second) :: after).map Prod.fst).count file := by
    have hpos : 0 < (before.map Prod.fst).count file :=
      List.count_pos_iff.2 (List.mem_map.2 ⟨_, hfirst, rfl⟩)
    simp only [List.map_append, List.map_cons, List.count_append, List.count_cons_self]
    omega
  rw [← hlist, List.map_flatMap] at hcount
  exact ⟨file, first, second, rfl,
    by simpa [Function.comp_def] using hcount, hmem first (by simp [hfirst]), hmem second (by simp)⟩

end Groups

namespace Grouping

open IncludeGraph

/-- **A file is in one group**, however often it is listed. -/
theorem Named.eq_of_mem_sources {layout : Path.Layout} {files : List SourceFile}
    {named : List (List String × String)} (h : Named layout files named) {file name other : String}
    {g g' : Group} (hg : (name, g) ∈ (collect files (edges layout files) named).sorted)
    (hg' : (other, g') ∈ (collect files (edges layout files) named).sorted)
    (hfile : file ∈ g.sources)
    (hfile' : file ∈ g'.sources) : name = other := by
  obtain ⟨c, hc, hcg⟩ := List.mem_map.1 (h.sorted_collect_perm.mem_iff.1 hg)
  obtain ⟨d, hd, hdg⟩ := List.mem_map.1 (h.sorted_collect_perm.mem_iff.1 hg')
  obtain ⟨rfl, rfl⟩ := Prod.mk.inj hcg
  obtain ⟨rfl, rfl⟩ := Prod.mk.inj hdg
  obtain ⟨f, hf, hid, rfl⟩ := mem_sources_groupFor.1 hfile
  rw [h.eq_of_mem hc hd hid ((mem_sources_iff hf).1 hfile')]

/-- **Files are refused exactly when one is listed twice.**  What is reported is always such a file,
and the one group that it is in as both. -/
theorem ofFiles_error_iff_listedTwice (layout : Path.Layout) (files : List SourceFile) :
    ((∃ e, ofFiles layout files = .error e) ↔ ¬ (files.map SourceFile.name).Nodup)
    ∧ ∀ e, ofFiles layout files = .error e → ∃ file group, e = .assignedTwice file group group
        ∧ 1 < (files.map SourceFile.name).count file := by
  obtain ⟨named, hnamed, heq⟩ := exists_ofFiles_eq layout files
  refine ⟨⟨?_, fun htwice => ?_⟩, fun e he => ?_⟩
  · rintro ⟨e, he⟩ hnames
    obtain ⟨r, hr⟩ := @exists_ofFiles layout files hnames
    cases he.symm.trans hr
  · cases hassign : (collect files (edges layout files) named).sorted.fileToGroup with
    | ok table =>
      exact absurd (hnamed.sources_collect_perm.nodup_iff.1 (Groups.nodup_of_fileToGroup hassign))
        htwice
    | error e => exact ⟨e, heq.trans (congrArg _ hassign)⟩
  · cases hassign : (collect files (edges layout files) named).sorted.fileToGroup with
    | ok table => cases he.symm.trans (heq.trans (congrArg _ hassign))
    | error e' =>
      obtain rfl := Except.error.inj (he.symm.trans (heq.trans (congrArg _ hassign)))
      obtain ⟨file, first, second, rfl, hcount, ⟨g, hg, hfile⟩, g', hg', hfile'⟩ :=
        Groups.fileToGroup_eq_error hassign
      obtain rfl := hnamed.eq_of_mem_sources hg hg' hfile hfile'
      exact ⟨file, first, rfl, hnamed.sources_collect_perm.count_eq file ▸ hcount⟩

/-- Two headers that include each other, the second of them listed twice. -/
def crossingTwice : List SourceFile := [⟨"a.h", [["b.h"]]⟩, ⟨"b.h", [["a.h"]]⟩, ⟨"b.h", []⟩]

theorem ofFiles_crossingTwice :
    ¬ (crossingTwice.map SourceFile.name).Nodup
    ∧ ∃ group, ofFiles {} crossingTwice = .error (.assignedTwice "b.h" group group) := by
  have htwice : ¬ (crossingTwice.map SourceFile.name).Nodup := by decide
  obtain ⟨hrefused, hreported⟩ := ofFiles_error_iff_listedTwice {} crossingTwice
  obtain ⟨e, he⟩ := hrefused.2 htwice
  obtain ⟨file, group, rfl, hcount⟩ := hreported e he
  have hfile : file ∈ crossingTwice.map SourceFile.name := List.count_pos_iff.1 (by omega)
  have hname : file = "b.h" := by
    rcases List.mem_cons.1 hfile with rfl | hrest
    · exact absurd hcount (by decide)
    · simpa [crossingTwice] using hrest
  exact ⟨htwice, group, hname ▸ he⟩

end Grouping

end IncludeScan
