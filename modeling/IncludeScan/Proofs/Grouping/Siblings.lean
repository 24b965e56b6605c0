import IncludeScan.Proofs.Grouping.Shape
import IncludeScan.Proofs.Path.Variants

/-!
# Proofs/Grouping/Siblings — an include of a file beside the including one is never lost

An include is tried as it is written, and from the directory of the including file only if nothing
is registered under that path.  So where the path as written is the name of some other file, the
sibling that it leads to is never tried.  Still its group is found: in a layout that renames
nothing, only the names of files are registered (`registered_default`), and a name keeps its last
component behind any directory.  The other file and the sibling have one id, and files of one id are
in one group.

`sibling_dependsOn` — the group of the sibling is the group of the including file or one that it
depends on.
-/

namespace IncludeScan

/-- **Without a layout of its own a file is included by its name alone.** -/
theorem Path.mem_variants_default {name path : String} (h : Plain name) :
    path ∈ variants {} name ↔ path = name := by
  have hjoin : join ["", name] = name := by rw [join_pair "" h.ne_empty, if_pos rfl, h.clean_eq]
  have htransform : transform "" ⟨"", ""⟩ name = name := hjoin
  rw [mem_variants, Layout.allSearches, hjoin]
  simp only [List.mem_singleton, exists_eq_left, htransform, or_self]
  exact and_iff_right_of_imp fun heq => heq ▸ h.ne_empty

namespace IncludeGraph

variable {files : List SourceFile}

/-! ## Where the include of a sibling leads -/

theorem registered_default (hplain : ∀ f ∈ files, Path.Plain f.name) {path : String} :
    Registered {} files path ↔ ∃ f ∈ files, f.name = path :=
  exists_congr fun f => and_congr_right fun hf =>
    (Path.mem_variants_default (hplain f hf)).trans eq_comm

/-- **A name is owned by its own id.** -/
theorem owns_default (hplain : ∀ f ∈ files, Path.Plain f.name) {f : SourceFile} (hf : f ∈ files) :
    Owns {} files f.groupId f.name := by
  have hmem := (Path.mem_variants_default (hplain f hf)).2 rfl
  obtain ⟨id, before, g, after, hsplit, hpath, hlast, rfl⟩ :=
    @Registered.exists_owns {} files f.name ⟨f, hf, hmem⟩
  have hname : f.name = g.name := (Path.mem_variants_default (hplain g (by simp [hsplit]))).1 hpath
  exact ⟨before, g, after, hsplit, hpath, hlast, congrArg Path.stem hname.symm⟩

/-- **An include of a sibling leads to the id of the sibling**, also if the path as written is the
name of another file. -/
theorem leadsTo_sibling (hplain : ∀ f ∈ files, Path.Plain f.name) {file path : String}
    {g : SourceFile} (hg : g ∈ files) (hpath : Path.join [Path.directory file, path] = g.name) :
    LeadsTo {} files (Path.candidates file path) g.groupId := by
  by_cases hregistered : Registered {} files path
  · -- the other file has the sibling's last component, and so its id
    obtain ⟨f, hf, rfl⟩ := (registered_default hplain).1 hregistered
    have hid : f.groupId = g.groupId :=
      Path.stem_eq_of_base_eq (((hplain f hf).base_join _).symm.trans (congrArg Path.base hpath))
    exact ⟨[], f.name, _, List.eraseDups_cons, by simp, hid ▸ owns_default hplain hf⟩
  · have hne : path ≠ g.name := fun heq =>
      hregistered ((registered_default hplain).2 ⟨g, hg, heq.symm⟩)
    refine ⟨[path], g.name, [], ?_, by simpa using hregistered, owns_default hplain hg⟩
    rw [Path.candidates, hpath, eraseDups_of_nodup (by simpa using hne)]
    rfl

end IncludeGraph

/-! ## The group of the sibling -/

namespace Grouping

open IncludeGraph

variable {layout : Path.Layout} {files : List SourceFile} {r : Grouping}

/-- The one group that the file is in. -/
def IsGroupOf (r : Grouping) (file : String) (e : String × Group) : Prop :=
  e ∈ r.groups ∧ ∀ e' ∈ r.groups, file ∈ e'.2.sources ↔ e' = e

theorem Built.isGroupOf {named : List (List String × String)} (h : Built layout files r named)
    {f : SourceFile} (hf : f ∈ files) {c : List String × String} (hc : c ∈ named)
    (hid : f.groupId ∈ c.1) :
    r.IsGroupOf f.name (c.2, (groupFor files (edges layout files) named c.1 c.2).sorted) := by
  refine ⟨h.mem_groups.2 ⟨c, hc, rfl⟩, fun e' he' => ⟨fun hfile => ?_, ?_⟩⟩
  · obtain ⟨d, hd, rfl⟩ := h.mem_groups.1 he'
    rw [h.eq_of_mem hd hc ((mem_sources_iff hf).1 hfile) hid]
  · rintro rfl
    exact (mem_sources_iff hf).2 hid

/-- **An edge between the ids of two files is a dependency between their groups**, unless they share
one. -/
theorem exists_isGroupOf_of_includes (h : ofFiles layout files = .ok r) {f g : SourceFile}
    (hf : f ∈ files) (hg : g ∈ files) (hinc : Includes layout files f.groupId g.groupId) :
    ∃ a b, r.IsGroupOf f.name a ∧ r.IsGroupOf g.name b ∧ (b = a ∨ b.1 ∈ a.2.dependsOn) := by
  obtain ⟨named, hb⟩ := exists_built h
  obtain ⟨c, hc, hfc⟩ := hb.exists_mem hf
  obtain ⟨d, hd, hgd⟩ := hb.exists_mem hg
  refine ⟨_, _, hb.isGroupOf hf hc hfc, hb.isGroupOf hg hd hgd, ?_⟩
  by_cases hname : d.2 = c.2
  · exact Or.inl (by rw [hb.eq_of_name hd hc hname])
  · exact Or.inr ((hb.mem_dependsOn hd).2 ⟨hname, _, hfc, _, hgd, hinc⟩)

/-- **No include of a sibling is lost.**  Files with plain names of their own can be grouped, with
no layout given.  If a path that one of them includes in quotes, read from its directory, is the
name of another, then the group of the other is its own group or one that this depends on. -/
theorem sibling_dependsOn {files : List (String × List String)}
    (hplain : ∀ f ∈ files, Path.Plain f.1) (hnames : (files.map Prod.fst).Nodup) :
    ∃ r, ofFiles {} (files.map fun f => .ofQuoted f.1 f.2) = .ok r
      ∧ ∀ f ∈ files, ∀ path ∈ f.2, ∀ g ∈ files, Path.join [Path.directory f.1, path] = g.1 →
        ∃ a b, r.IsGroupOf f.1 a ∧ r.IsGroupOf g.1 b ∧ (b = a ∨ b.1 ∈ a.2.dependsOn) := by
  have hname : (files.map fun f => SourceFile.ofQuoted f.1 f.2).map SourceFile.name
      = files.map Prod.fst := by
    rw [List.map_map]
    rfl
  have hplain' : ∀ f ∈ files.map fun f => SourceFile.ofQuoted f.1 f.2, Path.Plain f.name :=
    List.forall_mem_map.2 hplain
  obtain ⟨r, hr⟩ := @exists_ofFiles {} (files.map fun f => .ofQuoted f.1 f.2) (hname ▸ hnames)
  refine ⟨r, hr, fun f hf path hpath g hg hjoin => ?_⟩
  have hf' := List.mem_map_of_mem (f := fun f => SourceFile.ofQuoted f.1 f.2) hf
  have hg' := List.mem_map_of_mem (f := fun f => SourceFile.ofQuoted f.1 f.2) hg
  refine exists_isGroupOf_of_includes hr hf' hg' ⟨_, hf', rfl, _, List.mem_map_of_mem hpath, ?_⟩
  exact leadsTo_sibling hplain' hg' hjoin

/-- A file in a directory, and two headers of one name, one beside it and one above: the path as
written is the name of the header above. -/
theorem sibling_dependsOn_above :
    let files := [("sub/x.cc", ["y.h"]), ("sub/y.h", []), ("y.h", [])]
    (∀ f ∈ files, Path.Plain f.1) ∧ (files.map Prod.fst).Nodup
    ∧ Path.join [Path.directory "sub/x.cc", "y.h"] = "sub/y.h"
    ∧ ∃ r, ofFiles {} (files.map fun f => .ofQuoted f.1 f.2) = .ok r
      ∧ ∃ a b, r.IsGroupOf "sub/x.cc" a ∧ r.IsGroupOf "sub/y.h" b
        ∧ (b = a ∨ b.1 ∈ a.2.dependsOn) := by
  intro files
  have hplain : ∀ f ∈ files, Path.Plain f.1 := by decide +kernel
  have hnames : (files.map Prod.fst).Nodup := by decide
  have hjoin : Path.join [Path.directory "sub/x.cc", "y.h"] = "sub/y.h" := by decide +kernel
  obtain ⟨r, hr, hsibling⟩ := sibling_dependsOn hplain hnames
  exact ⟨hplain, hnames, hjoin, r, hr,
    hsibling ("sub/x.cc", ["y.h"]) (by simp [files]) "y.h" (by simp) ("sub/y.h", [])
      (by simp [files]) hjoin⟩

end Grouping

end IncludeScan
