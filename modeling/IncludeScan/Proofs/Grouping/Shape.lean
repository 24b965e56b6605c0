import IncludeScan.Proofs.Grouping.InputOrder

/-!
# Proofs/Grouping/Shape — what the groups of a directory say of themselves

A group is made from a component of the include graph, and what it says can be read off its files
alone.  Every id of a component belongs to a file (`exists_file_of_mem`), so the ids of the files of
a group are those of the component (`Named.mem_map_stem`).  They are what the group lists when a
cycle has merged several, and one of them is its name.  An include between files of two groups is an
edge between their components, and the other way round.

* `groups_wellShaped` — names, order and merged ids of the groups.
* `dependsOn_iff_includes` — a group depends on another when one of its files includes one of the
  other's.
-/

namespace IncludeScan

/-! ## First names and ascending lists -/

namespace Text

/-- The names are in strictly ascending order of their code units. -/
def Ascending (names : List String) : Prop := names.Pairwise fun a b => unitsLT a b = true

/-- One of the names, and none of them sorts before it. -/
def IsFirst (names : List String) (name : String) : Prop :=
  name ∈ names ∧ ∀ other ∈ names, unitsLT other name = false

theorem unitsLT_of_unitsLE {a b : String} (h : unitsLE a b = true) (hne : a ≠ b) :
    unitsLT a b = true := by
  by_contra hlt
  exact hne (unitsLE_antisymm h (by simpa [unitsLE] using hlt))

/-- **What is sorted and has no name twice ascends strictly.** -/
theorem Ascending.of_pairwise {names : List String} (hnodup : names.Nodup)
    (h : names.Pairwise fun a b => unitsLE a b = true) : Ascending names :=
  (hnodup.and h).imp fun hab => unitsLT_of_unitsLE hab.2 hab.1

theorem ascending_sortNames {names : List String} (h : names.Nodup) : Ascending (sortNames names) :=
  .of_pairwise ((sortNames_perm names).nodup_iff.2 h) (pairwise_mergeSort_units id names)

theorem isFirst_of_head? {names : List String} {name : String}
    (h : (sortNames names).head? = some name) : IsFirst names name := by
  obtain ⟨rest, hsorted⟩ := List.head?_eq_some_iff.1 h
  have hpairs : (name :: rest).Pairwise fun a b => unitsLE a b = true :=
    hsorted ▸ pairwise_mergeSort_units id names
  refine ⟨mem_sortNames.1 (hsorted ▸ List.mem_cons_self), fun other hother => ?_⟩
  rcases List.mem_cons.1 (hsorted ▸ mem_sortNames.2 hother) with rfl | hmem
  · exact decide_eq_false (List.lt_irrefl _)
  · simpa [unitsLE] using (List.pairwise_cons.1 hpairs).1 other hmem

end Text

/-! ## The name of a group -/

namespace Group

/-- **The id of the first header or, where there is none, of the first file.** -/
def NamedAfter (sources : List String) (name : String) : Prop :=
  (∃ header, Text.IsFirst (sources.filter isHeader) header ∧ Path.stem header = name)
  ∨ ((∀ file ∈ sources, isHeader file = false)
    ∧ ∃ file, Text.IsFirst sources file ∧ Path.stem file = name)

theorem namedAfter_of_nameOf {files : List String} {name : String} (h : nameOf files = .ok name) :
    NamedAfter files name := by
  rw [nameOf] at h
  split at h
  · rename_i first hfirst
    obtain rfl := Except.ok.inj h
    rcases Option.or_eq_some_iff.1 hfirst with hheader | ⟨hnone, hfile⟩
    · exact Or.inl ⟨first, Text.isFirst_of_head? hheader, rfl⟩
    · refine Or.inr ⟨fun file hmem => ?_, first, Text.isFirst_of_head? hfile, rfl⟩
      have hnil : Text.sortNames (files.filter isHeader) = [] := List.head?_eq_none_iff.1 hnone
      by_contra hheader
      have hsorted := Text.mem_sortNames.2 (List.mem_filter.2 ⟨hmem, by simpa using hheader⟩)
      exact absurd (hnil ▸ hsorted) List.not_mem_nil
  · cases h

theorem namedAfter_sortNames {files : List String} {name : String} :
    NamedAfter (Text.sortNames files) name ↔ NamedAfter files name := by
  simp only [NamedAfter, Text.IsFirst, List.mem_filter, Text.mem_sortNames]

/-- The ids of the files of a group. -/
def ids (g : Group) : Finset String := (g.sources.map Path.stem).toFinset

/-- **A group of that name as it should be**: its lists ascend, it is named after one of its files,
and it lists the ids of its files when there are several. -/
structure WellShaped (name : String) (g : Group) : Prop where
  sources : Text.Ascending g.sources
  dependsOn : Text.Ascending g.dependsOn
  subGroups : Text.Ascending g.subGroups
  named : NamedAfter g.sources name
  merged : 1 < g.ids.card → g.subGroups.toFinset = g.ids ∧ name ∈ g.subGroups
  single : g.ids.card ≤ 1 → g.subGroups = []

end Group

namespace Grouping

open IncludeGraph

variable {layout : Path.Layout} {files : List SourceFile} {r : Grouping}
  {named : List (List String × String)}

/-! ## The files of a component -/

namespace Named

theorem exists_file (h : Named layout files named) {c : List String × String} (hc : c ∈ named)
    {id : String} (hid : id ∈ c.1) : ∃ f ∈ files, f.groupId = id :=
  exists_file_of_mem (h.mem_components hc) hid

theorem nodup_ids (h : Named layout files named) {c : List String × String} (hc : c ∈ named) :
    c.1.Nodup :=
  (List.nodup_flatten.1 (Digraph.nodup_flatten_components (edgesInside_digraph layout files))).1 c.1
    (h.mem_components hc)

/-- **The ids of the files of a group are the ids of its component.** -/
theorem mem_map_stem (h : Named layout files named) {c : List String × String} (hc : c ∈ named)
    {id : String} :
    id ∈ (groupFor files (edges layout files) named c.1 c.2).sorted.sources.map Path.stem
      ↔ id ∈ c.1 := by
  rw [List.mem_map]
  constructor
  · rintro ⟨file, hfile, rfl⟩
    obtain ⟨f, -, hid, rfl⟩ := mem_sources_groupFor.1 hfile
    exact hid
  · intro hid
    obtain ⟨f, hf, rfl⟩ := h.exists_file hc hid
    exact ⟨f.name, (mem_sources_iff hf).2 hid, rfl⟩

theorem ids_groupFor (h : Named layout files named) {c : List String × String} (hc : c ∈ named) :
    (groupFor files (edges layout files) named c.1 c.2).sorted.ids = c.1.toFinset := by
  ext id
  rw [Group.ids, List.mem_toFinset, List.mem_toFinset, h.mem_map_stem hc]

theorem card_ids_groupFor (h : Named layout files named) {c : List String × String}
    (hc : c ∈ named) :
    (groupFor files (edges layout files) named c.1 c.2).sorted.ids.card = c.1.length := by
  rw [h.ids_groupFor hc, List.toFinset_card_of_nodup (h.nodup_ids hc)]

end Named

/-! ## Names and order -/

namespace Built

theorem wellShaped (h : Built layout files r named) {e : String × Group} (he : e ∈ r.groups) :
    Group.WellShaped e.1 e.2 := by
  have hsources := h.nodup_sources he
  obtain ⟨c, hc, rfl⟩ := h.mem_groups.1 he
  have hsorted : (groupFor files (edges layout files) named c.1 c.2).sorted.subGroups
      = Text.sortNames (if c.1.length > 1 then c.1 else []) := rfl
  have hnodup : (if c.1.length > 1 then c.1 else []).Nodup := by
    split
    · exact h.nodup_ids hc
    · exact List.nodup_nil
  exact
    { sources := .of_pairwise hsources (Text.pairwise_mergeSort_units id _)
      dependsOn := Text.ascending_sortNames ((nodup_eraseDups _).filter _)
      subGroups := Text.ascending_sortNames hnodup
      named := Group.namedAfter_sortNames.2 (Group.namedAfter_of_nameOf (h.nameOf c hc))
      merged := fun hcard => by
        rw [h.card_ids_groupFor hc] at hcard
        rw [hsorted, if_pos hcard, h.ids_groupFor hc]
        exact ⟨List.toFinset_eq_of_perm _ _ (Text.sortNames_perm c.1),
          Text.mem_sortNames.2 (h.name_mem hc)⟩
      single := fun hcard => by
        rw [h.card_ids_groupFor hc] at hcard
        rw [hsorted, if_neg (by omega)]
        exact (Text.sortNames_perm []).eq_nil }

theorem ascending_keys (h : Built layout files r named) :
    Text.Ascending (r.groups.map Prod.fst) := by
  refine .of_pairwise h.nodup_keys (List.pairwise_map.2 ?_)
  rw [h.groups]
  exact Groups.pairwise_sorted _

end Built

/-- **No two components get one name.** -/
theorem Named.pairwise_nameOf (h : Named layout files named) :
    (digraph files (edges layout files)).components.Pairwise fun c d =>
      Group.nameOf (c.flatMap (sourcesOf files)) ≠ Group.nameOf (d.flatMap (sourcesOf files)) := by
  rw [← h.components, List.pairwise_map]
  refine (List.pairwise_map.1 h.nodup_names).imp_of_mem fun {c d} hc hd hne heq => ?_
  rw [h.nameOf c hc, h.nameOf d hd] at heq
  exact hne (Except.ok.inj heq)

/-- A component is in the table under its name. -/
theorem Built.exists_group (h : Built layout files r named) {component : List String}
    (hcomponent : component ∈ (digraph files (edges layout files)).components) :
    ∃ e ∈ r.groups, Group.nameOf (component.flatMap (sourcesOf files)) = .ok e.1
      ∧ e.2.ids = component.toFinset := by
  rw [← h.components] at hcomponent
  obtain ⟨c, hc, rfl⟩ := List.mem_map.1 hcomponent
  exact ⟨_, h.mem_groups.2 ⟨c, hc, rfl⟩, h.nameOf c hc, h.ids_groupFor hc⟩

/-- **Names, order and merged ids of the groups.**  The groups ascend by name, and each is well
shaped.  No two components get one name, so each is there as the group of its name. -/
theorem groups_wellShaped (h : ofFiles layout files = .ok r) :
    Text.Ascending (r.groups.map Prod.fst)
    ∧ (∀ e ∈ r.groups, Group.WellShaped e.1 e.2)
    ∧ ((digraph files (edges layout files)).components.Pairwise fun c d =>
        Group.nameOf (c.flatMap (sourcesOf files)) ≠ Group.nameOf (d.flatMap (sourcesOf files)))
    ∧ ∀ c ∈ (digraph files (edges layout files)).components, ∃ e ∈ r.groups,
        Group.nameOf (c.flatMap (sourcesOf files)) = .ok e.1 ∧ e.2.ids = c.toFinset := by
  obtain ⟨named, hb⟩ := exists_built h
  exact ⟨hb.ascending_keys, fun e he => hb.wellShaped he, hb.pairwise_nameOf,
    fun c hc => hb.exists_group hc⟩

/-- The two headers are one group: it has the name of the first and lists both ids. -/
theorem crossing_wellShaped :
    ofFiles {} crossing = .ok crossingGroups
    ∧ Group.NamedAfter ["a.h", "b.h"] "a" ∧ Group.NamedAfter ["c.c"] "c"
    ∧ (["a", "b"] : List String).toFinset = Group.ids ⟨["a.h", "b.h"], [], ["a", "b"]⟩ := by
  obtain ⟨-, hshape, -⟩ := groups_wellShaped ofFiles_crossing
  have ha := hshape ("a", ⟨["a.h", "b.h"], [], ["a", "b"]⟩) (by decide)
  have hc := hshape ("c", ⟨["c.c"], ["a"], []⟩) (by decide)
  exact ⟨ofFiles_crossing, ha.named, hc.named, (ha.merged (by decide +kernel)).1⟩

/-! ## Dependencies -/

theorem Named.eq_of_name (h : Named layout files named) {c d : List String × String}
    (hc : c ∈ named) (hd : d ∈ named) (hname : c.2 = d.2) : c = d :=
  List.inj_on_of_nodup_map h.nodup_names hc hd hname

/-- **An id is found in the one component that has it.** -/
theorem Named.groupOf?_eq_some_iff (h : Named layout files named) {d : List String × String}
    (hd : d ∈ named) {id : String} : groupOf? named id = some d.2 ↔ id ∈ d.1 := by
  constructor
  · intro hgroup
    obtain ⟨c, hc, hid, hname⟩ := mem_of_groupOf? hgroup
    exact h.eq_of_name hc hd hname ▸ hid
  · intro hid
    have hsome : (named.find? fun c => c.1.contains id).isSome = true :=
      List.find?_isSome.2 ⟨d, hd, by simpa using hid⟩
    obtain ⟨c, hfind⟩ := Option.isSome_iff_exists.1 hsome
    have hmem : id ∈ c.1 := by simpa using List.find?_some hfind
    rw [groupOf?, hfind, h.eq_of_mem (List.mem_of_find?_eq_some hfind) hd hmem hid]
    rfl

/-- A group depends on another where an edge leads from the one component to the other. -/
theorem Named.mem_dependsOn (h : Named layout files named) {c d : List String × String}
    (hd : d ∈ named) :
    d.2 ∈ (groupFor files (edges layout files) named c.1 c.2).sorted.dependsOn
      ↔ d.2 ≠ c.2 ∧ ∃ id ∈ c.1, ∃ target ∈ d.1, Includes layout files id target := by
  rw [mem_dependsOn_groupFor]
  simp only [h.groupOf?_eq_some_iff hd]
  exact and_congr_right' (exists_congr fun id => and_congr_right'
    (exists_congr fun target => and_comm))

/-- **An edge between components is an include between files of their groups.** -/
theorem Named.exists_includes_iff (h : Named layout files named) {c d : List String × String}
    (hd : d ∈ named) :
    (∃ id ∈ c.1, ∃ target ∈ d.1, Includes layout files id target)
      ↔ ∃ f ∈ files, f.name ∈ (groupFor files (edges layout files) named c.1 c.2).sorted.sources
        ∧ ∃ candidates ∈ f.includes,
          ∃ g ∈ files, g.name ∈ (groupFor files (edges layout files) named d.1 d.2).sorted.sources
            ∧ LeadsTo layout files candidates g.groupId := by
  constructor
  · rintro ⟨-, hid, target, htarget, f, hf, rfl, candidates, hcandidates, hleads⟩
    obtain ⟨g, hg, rfl⟩ := h.exists_file hd htarget
    exact ⟨f, hf, (mem_sources_iff hf).2 hid, candidates, hcandidates, g, hg,
      (mem_sources_iff hg).2 htarget, hleads⟩
  · rintro ⟨f, hf, hsource, candidates, hcandidates, g, hg, htarget, hleads⟩
    exact ⟨f.groupId, (mem_sources_iff hf).1 hsource, g.groupId, (mem_sources_iff hg).1 htarget, f,
      hf, rfl, candidates, hcandidates, hleads⟩

/-- **A group depends on another exactly when a file of the one includes a file of the other**: the
groups are different, and some include of the one leads to the id of a file of the other.  What a
group depends on is always a group. -/
theorem dependsOn_iff_includes (h : ofFiles layout files = .ok r) :
    (∀ a ∈ r.groups, ∀ b ∈ r.groups, b.1 ∈ a.2.dependsOn ↔
      a ≠ b ∧ ∃ f ∈ files, f.name ∈ a.2.sources ∧ ∃ candidates ∈ f.includes,
        ∃ g ∈ files, g.name ∈ b.2.sources ∧ LeadsTo layout files candidates g.groupId)
    ∧ ∀ a ∈ r.groups, ∀ other ∈ a.2.dependsOn, ∃ b ∈ r.groups, b.1 = other := by
  obtain ⟨named, hb⟩ := exists_built h
  refine ⟨fun a ha b hb' => ?_, fun a ha other hother => ?_⟩
  · obtain ⟨c, hc, rfl⟩ := hb.mem_groups.1 ha
    obtain ⟨d, hd, rfl⟩ := hb.mem_groups.1 hb'
    rw [hb.mem_dependsOn hd, hb.exists_includes_iff hd]
    refine and_congr_left' (not_congr ⟨fun hname => ?_, fun heq => (congrArg Prod.fst heq).symm⟩)
    rw [hb.eq_of_name hd hc hname]
  · obtain ⟨-, -, d, hd, -, rfl, -⟩ := hb.exists_of_dependsOn ⟨a.2, ha, hother⟩
    exact ⟨_, hb.mem_groups.2 ⟨d, hd, rfl⟩, rfl⟩

/-- The third file includes the second header, whose group has the name of the first; neither header
includes the third file. -/
theorem crossing_dependsOn :
    ofFiles {} crossing = .ok crossingGroups
    ∧ (∃ f ∈ crossing, f.name ∈ ["c.c"] ∧ ∃ candidates ∈ f.includes,
        ∃ g ∈ crossing, g.name ∈ ["a.h", "b.h"] ∧ LeadsTo {} crossing candidates g.groupId)
    ∧ ¬ ∃ f ∈ crossing, f.name ∈ ["a.h", "b.h"] ∧ ∃ candidates ∈ f.includes,
        ∃ g ∈ crossing, g.name ∈ ["c.c"] ∧ LeadsTo {} crossing candidates g.groupId := by
  obtain ⟨hdepends, -⟩ := dependsOn_iff_includes ofFiles_crossing
  have hca := hdepends ("c", ⟨["c.c"], ["a"], []⟩) (by decide)
    ("a", ⟨["a.h", "b.h"], [], ["a", "b"]⟩) (by decide)
  have hac := hdepends ("a", ⟨["a.h", "b.h"], [], ["a", "b"]⟩) (by decide)
    ("c", ⟨["c.c"], ["a"], []⟩) (by decide)
  refine ⟨ofFiles_crossing, (hca.1 (by decide)).2, fun hincludes => ?_⟩
  exact absurd (hac.2 ⟨by decide, hincludes⟩) (by decide)

end Grouping

end IncludeScan
