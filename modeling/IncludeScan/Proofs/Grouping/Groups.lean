import IncludeScan.Proofs.Grouping.IncludeGraph
import Mathlib

/-!
# Proofs/Grouping/Groups — groups are components of the include graph, and there is no cycle

A component is named after one of its files, so its name is one of its own ids (`Named.name_mem`).
Components share no id; so no two have one name, and putting the groups into a table by name loses
none of them (`Named.sorted_collect_perm`).

From there both results are read off the components.  Files are in one group when their ids are
mutually reachable; and if groups depended on each other in a circle, their names would be mutually
reachable ids of different components.
-/

namespace IncludeScan

/-- Where two steps succeed one after the other, the first does. -/
theorem exists_ok_of_bind {ε α β : Type} {first : Except ε α} {second : α → Except ε β} {b : β}
    (h : first >>= second = .ok b) : ∃ a, first = .ok a ∧ second a = .ok b :=
  match first, h with
  | .ok a, h => ⟨a, rfl, h⟩

namespace Groups

theorem insert_of_notMem {groups : Groups} {name : String} (h : name ∉ groups.map Prod.fst)
    (g : Group) : groups.insert name g = groups ++ [(name, g)] := by
  rw [insert, if_neg]
  intro hany
  obtain ⟨e, he, hn⟩ := List.any_eq_true.1 hany
  exact h (List.mem_map.2 ⟨e, he, beq_iff_eq.1 hn⟩)

/-- **A table filled under distinct names** keeps everything that is put into it. -/
theorem foldl_insert {β : Type} (name : β → String) (group : β → Group) :
    ∀ (bs : List β) (groups : Groups), (groups.map Prod.fst ++ bs.map name).Nodup →
      bs.foldl (fun table b => table.insert (name b) (group b)) groups
        = groups ++ bs.map fun b => (name b, group b)
  | [], groups, _ => (List.append_nil groups).symm
  | b :: bs, groups, h => by
      have hb : name b ∉ groups.map Prod.fst := fun hmem =>
        List.disjoint_of_nodup_append h hmem List.mem_cons_self
      rw [List.foldl_cons, insert_of_notMem hb, foldl_insert name group bs]
      · simp
      · simpa using h

/-- A file that is assigned occurs neither among the earlier ones nor again. -/
theorem assign_eq_ok : ∀ {seen list table : List (String × String)}, assign seen list = .ok table →
    (list.map Prod.fst).Nodup ∧ ∀ e ∈ list, seen.lookup e.1 = none
  | _, [], _, _ => ⟨List.nodup_nil, by simp⟩
  | seen, (file, group) :: others, table, h => by
      rw [assign] at h
      cases hfile : seen.lookup file with
      | some first => simp [hfile] at h
      | none =>
        rw [hfile] at h
        cases hrest : assign ((file, group) :: seen) others with
        | error e => simp [hrest, Except.map] at h
        | ok rest =>
          obtain ⟨hnodup, hnew⟩ := assign_eq_ok hrest
          have hne : ∀ e ∈ others, e.1 ≠ file ∧ seen.lookup e.1 = none := fun e he => by
            have := hnew e he
            rw [List.lookup_cons] at this
            cases hbeq : e.1 == file with
            | true => simp [hbeq] at this
            | false => exact ⟨beq_eq_false_iff_ne.1 hbeq, by simpa [hbeq] using this⟩
          refine ⟨List.nodup_cons.2 ⟨fun hmem => ?_, hnodup⟩, fun e he => ?_⟩
          · obtain ⟨e, he, heq⟩ := List.mem_map.1 hmem
            exact (hne e he).1 heq
          · rcases List.mem_cons.1 he with rfl | he
            · exact hfile
            · exact (hne e he).2

/-- **The assignment succeeds only if no file is in the groups twice.** -/
theorem nodup_of_fileToGroup {groups : Groups} {table : List (String × String)}
    (h : groups.fileToGroup = .ok table) : (groups.flatMap fun e => e.2.sources).Nodup := by
  have hnodup := (assign_eq_ok h).1
  rw [List.map_flatMap] at hnodup
  simpa [Function.comp_def] using hnodup

theorem sorted_perm (groups : Groups) :
    groups.sorted.Perm (groups.map fun e => (e.1, e.2.sorted)) :=
  (List.mergeSort_perm groups _).map _

end Groups

theorem Group.mem_of_nameOf {files : List String} {name : String}
    (h : Group.nameOf files = .ok name) : ∃ file ∈ files, Path.stem file = name := by
  unfold Group.nameOf at h
  dsimp only at h
  split at h
  · rename_i first hfirst
    refine ⟨first, ?_, Except.ok.inj h⟩
    rcases Option.or_eq_some_iff.1 hfirst with hhead | ⟨-, hhead⟩
    · exact (List.mem_filter.1 (Text.mem_sortNames.1 (List.mem_of_head? hhead))).1
    · exact Text.mem_sortNames.1 (List.mem_of_head? hhead)
  · cases h

namespace Grouping

open IncludeGraph

variable {layout : Path.Layout} {files : List SourceFile} {r : Grouping}

theorem nameComponents_eq_ok :
    ∀ {components : List (List String)} {named : List (List String × String)},
    nameComponents files components = .ok named → named.map Prod.fst = components
      ∧ ∀ c ∈ named, Group.nameOf (c.1.flatMap (sourcesOf files)) = .ok c.2
  | [], named, h => by
      obtain rfl : [] = named := Except.ok.inj h
      exact ⟨rfl, by simp⟩
  | c :: cs, named, h => by
      rw [nameComponents, List.mapM_cons] at h
      obtain ⟨d, hd, h⟩ := exists_ok_of_bind h
      obtain ⟨name, hname, hpure⟩ := exists_ok_of_bind hd
      obtain rfl : (c, name) = d := Except.ok.inj hpure
      obtain ⟨rest, hrest, hpure⟩ := exists_ok_of_bind h
      obtain rfl : (c, name) :: rest = named := Except.ok.inj hpure
      obtain ⟨hfst, hnames⟩ := nameComponents_eq_ok hrest
      refine ⟨by rw [List.map_cons, hfst], fun e he => ?_⟩
      rcases List.mem_cons.1 he with rfl | he
      · exact hname
      · exact hnames e he

/-! ## How a grouping is built -/

/-- **The components of the include graph, each with the name of its files.** -/
structure Named (layout : Path.Layout) (files : List SourceFile)
    (named : List (List String × String)) : Prop where
  components : named.map Prod.fst = (digraph files (edges layout files)).components
  nameOf : ∀ c ∈ named, Group.nameOf (c.1.flatMap (sourcesOf files)) = .ok c.2

/-- **A grouping and the named components that it is built from.** -/
structure Built (layout : Path.Layout) (files : List SourceFile) (r : Grouping)
    (named : List (List String × String)) : Prop extends Named layout files named where
  groups : r.groups = (collect files (edges layout files) named).sorted
  nodup : (r.groups.flatMap fun e => e.2.sources).Nodup

/-- The graph is always there, so the naming is the first step that may fail. -/
theorem ofFiles_eq (layout : Path.Layout) (files : List SourceFile) :
    ofFiles layout files = (do
      let named ← nameComponents files (digraph files (edges layout files)).components
      let groups := (collect files (edges layout files) named).sorted
      let _ ← Groups.fileToGroup groups
      return ⟨groups, named.filter fun c => c.1.length > 1⟩) := by
  rw [ofFiles, build_eq_ok]
  rfl

theorem exists_built (h : ofFiles layout files = .ok r) : ∃ named, Built layout files r named := by
  rw [ofFiles_eq] at h
  obtain ⟨named, hnamed, h⟩ := exists_ok_of_bind h
  obtain ⟨table, htable, h⟩ := exists_ok_of_bind h
  obtain rfl := Except.ok.inj h
  obtain ⟨hfst, hnames⟩ := nameComponents_eq_ok hnamed
  exact ⟨named, ⟨hfst, hnames⟩, rfl, Groups.nodup_of_fileToGroup htable⟩

namespace Named

variable {named : List (List String × String)}

/-- The ids of the files are the ids of the components, and each component has some. -/
theorem exists_mem (h : Named layout files named) {f : SourceFile} (hf : f ∈ files) :
    ∃ c ∈ named, f.groupId ∈ c.1 := by
  have hmem : f.groupId ∈ (named.map Prod.fst).flatten := by
    rw [h.components, Digraph.mem_flatten_components (edgesInside_digraph layout files)]
    exact Text.mem_sortNames.2 (mem_ids.2 ⟨f, hf, rfl⟩)
  obtain ⟨ids, hids, hid⟩ := List.mem_flatten.1 hmem
  obtain ⟨c, hc, rfl⟩ := List.mem_map.1 hids
  exact ⟨c, hc, hid⟩

theorem mem_components (h : Named layout files named) {c : List String × String} (hc : c ∈ named) :
    c.1 ∈ (digraph files (edges layout files)).components :=
  h.components ▸ List.mem_map_of_mem hc

/-- The ids of a component are those that are mutually reachable from any one of them. -/
theorem mem_iff (h : Named layout files named) {c : List String × String} (hc : c ∈ named)
    {id : String} (hid : id ∈ c.1) (other : String) :
    other ∈ c.1 ↔ Relation.ReflTransGen (Includes layout files) id other
      ∧ Relation.ReflTransGen (Includes layout files) other id := by
  have hcomp := Digraph.isComponent_of_mem (edgesInside_digraph layout files) (h.mem_components hc)
  rw [← reach_digraph, ← reach_digraph]
  exact hcomp.mem_iff id hid other

theorem pairwise_disjoint (h : Named layout files named) :
    named.Pairwise fun c d => List.Disjoint c.1 d.1 := by
  have hnodup := Digraph.nodup_flatten_components (edgesInside_digraph layout files)
  rw [← h.components, List.nodup_flatten, List.pairwise_map] at hnodup
  exact hnodup.2

/-- Components that share an id are one. -/
theorem eq_of_mem (h : Named layout files named) {c d : List String × String} (hc : c ∈ named)
    (hd : d ∈ named) {id : String} (hic : id ∈ c.1) (hid : id ∈ d.1) : c = d := by
  by_contra hne
  have : Std.Symm fun c d : List String × String => List.Disjoint c.1 d.1 :=
    ⟨fun _ _ hdis _ hd hc => hdis hc hd⟩
  exact h.pairwise_disjoint.forall hc hd hne hic hid

/-- **The name of a component is one of its ids.** -/
theorem name_mem (h : Named layout files named) {c : List String × String} (hc : c ∈ named) :
    c.2 ∈ c.1 := by
  obtain ⟨file, hfile, hstem⟩ := Group.mem_of_nameOf (h.nameOf c hc)
  obtain ⟨id, hid, hsource⟩ := List.mem_flatMap.1 hfile
  obtain ⟨f, -, rfl, rfl⟩ := mem_sourcesOf.1 hsource
  exact hstem ▸ hid

/-- **No two components have one name.** -/
theorem nodup_names (h : Named layout files named) : (named.map Prod.snd).Nodup := by
  refine List.pairwise_map.2 (h.pairwise_disjoint.imp_of_mem fun {c d} hc hd hdis heq => ?_)
  exact hdis (h.name_mem hc) (heq ▸ h.name_mem hd)

/-- **Every component is a group**, and there are no others. -/
theorem sorted_collect_perm (h : Named layout files named) :
    (collect files (edges layout files) named).sorted.Perm
      (named.map fun c => (c.2, (groupFor files (edges layout files) named c.1 c.2).sorted)) := by
  have hcollect : collect files (edges layout files) named
      = named.map fun c => (c.2, groupFor files (edges layout files) named c.1 c.2) :=
    Groups.foldl_insert Prod.snd (fun c => groupFor files (edges layout files) named c.1 c.2) named
      []
      h.nodup_names
  rw [hcollect]
  refine (Groups.sorted_perm _).trans ?_
  rw [List.map_map]
  exact List.Perm.refl _

theorem nodup_keys_collect (h : Named layout files named) :
    ((collect files (edges layout files) named).sorted.map Prod.fst).Nodup := by
  refine (h.sorted_collect_perm.map Prod.fst).nodup_iff.2 ?_
  rw [List.map_map]
  exact h.nodup_names

end Named

namespace Built

variable {named : List (List String × String)}

theorem groups_perm (h : Built layout files r named) :
    r.groups.Perm
      (named.map fun c => (c.2, (groupFor files (edges layout files) named c.1 c.2).sorted)) :=
  h.groups ▸ h.sorted_collect_perm

theorem mem_groups (h : Built layout files r named) {e : String × Group} :
    e ∈ r.groups ↔ ∃ c ∈ named,
      (c.2, (groupFor files (edges layout files) named c.1 c.2).sorted) = e := by
  rw [h.groups_perm.mem_iff, List.mem_map]

theorem nodup_keys (h : Built layout files r named) : (r.groups.map Prod.fst).Nodup :=
  h.groups ▸ h.nodup_keys_collect

theorem nodup_sources (h : Built layout files r named) {e : String × Group} (he : e ∈ r.groups) :
    e.2.sources.Nodup :=
  (List.nodup_flatMap.1 h.nodup).1 e he

end Built

theorem mem_sources_groupFor {edges : List (String × List String)}
    {named : List (List String × String)} {component : List String} {name file : String} :
    file ∈ (groupFor files edges named component name).sorted.sources
      ↔ ∃ f ∈ files, f.groupId ∈ component ∧ f.name = file := by
  simp only [groupFor, Group.sorted, Text.mem_sortNames, List.mem_flatMap, mem_sourcesOf]
  constructor
  · rintro ⟨id, hid, f, hf, rfl, hname⟩
    exact ⟨f, hf, hid, hname⟩
  · rintro ⟨f, hf, hid, hname⟩
    exact ⟨f.groupId, hid, f, hf, rfl, hname⟩

/-- The id of a file is read off its name. -/
theorem mem_sources_iff {edges : List (String × List String)} {named : List (List String × String)}
    {component : List String} {name : String} {f : SourceFile} (hf : f ∈ files) :
    f.name ∈ (groupFor files edges named component name).sorted.sources
      ↔ f.groupId ∈ component := by
  rw [mem_sources_groupFor]
  constructor
  · rintro ⟨g, -, hid, hname⟩
    rwa [SourceFile.groupId, hname] at hid
  · exact fun hid => ⟨f, hf, hid, rfl⟩

/-! ## Files in one group -/

/-- The classes of ids under mutual reachability, with paths of one edge or more. -/
theorem mutual_iff_eq_or_transGen {a b : String} :
    (Relation.ReflTransGen (Includes layout files) a b
        ∧ Relation.ReflTransGen (Includes layout files) b a)
      ↔ a = b ∨ (Relation.TransGen (Includes layout files) a b
        ∧ Relation.TransGen (Includes layout files) b a) := by
  constructor
  · rintro ⟨hab, hba⟩
    rcases Relation.reflTransGen_iff_eq_or_transGen.1 hab with rfl | hab
    · exact Or.inl rfl
    · rcases Relation.reflTransGen_iff_eq_or_transGen.1 hba with rfl | hba
      · exact Or.inl rfl
      · exact Or.inr ⟨hab, hba⟩
  · rintro (rfl | ⟨hab, hba⟩)
    · exact ⟨.refl, .refl⟩
    · exact ⟨hab.to_reflTransGen, hba.to_reflTransGen⟩

/-- **The groups partition the files by mutual inclusion.**  The groups have distinct names.  Each
listed file occurs in one group, and once; no other name occurs.  Two files are in one group exactly
when their ids are equal or each reaches the other along includes. -/
theorem groups_partition_files (h : ofFiles layout files = .ok r) :
    (r.groups.map Prod.fst).Nodup
    ∧ (∀ f ∈ files, ∃ e ∈ r.groups, e.2.sources.count f.name = 1
        ∧ ∀ e' ∈ r.groups, f.name ∈ e'.2.sources → e' = e)
    ∧ (∀ e ∈ r.groups, ∀ name ∈ e.2.sources, ∃ f ∈ files, f.name = name)
    ∧ ∀ f ∈ files, ∀ g ∈ files,
        (∃ e ∈ r.groups, f.name ∈ e.2.sources ∧ g.name ∈ e.2.sources)
          ↔ f.groupId = g.groupId ∨ (Relation.TransGen (Includes layout files) f.groupId g.groupId
            ∧ Relation.TransGen (Includes layout files) g.groupId f.groupId) := by
  obtain ⟨named, hb⟩ := exists_built h
  refine ⟨hb.nodup_keys, fun f hf => ?_, fun e he name hname => ?_, fun f hf g hg => ?_⟩
  · obtain ⟨c, hc, hid⟩ := hb.exists_mem hf
    have he := hb.mem_groups.2 ⟨c, hc, rfl⟩
    refine ⟨_, he, List.count_eq_one_of_mem (hb.nodup_sources he) ((mem_sources_iff hf).2 hid),
      fun e' he' hmem => ?_⟩
    obtain ⟨d, hd, rfl⟩ := hb.mem_groups.1 he'
    rw [hb.eq_of_mem hd hc ((mem_sources_iff hf).1 hmem) hid]
  · obtain ⟨c, -, rfl⟩ := hb.mem_groups.1 he
    obtain ⟨f, hf, -, hfile⟩ := mem_sources_groupFor.1 hname
    exact ⟨f, hf, hfile⟩
  · rw [← mutual_iff_eq_or_transGen]
    constructor
    · rintro ⟨e, he, hef, heg⟩
      obtain ⟨c, hc, rfl⟩ := hb.mem_groups.1 he
      exact (hb.mem_iff hc ((mem_sources_iff hf).1 hef) _).1 ((mem_sources_iff hg).1 heg)
    · intro hmut
      obtain ⟨c, hc, hid⟩ := hb.exists_mem hf
      exact ⟨_, hb.mem_groups.2 ⟨c, hc, rfl⟩, (mem_sources_iff hf).2 hid,
        (mem_sources_iff hg).2 ((hb.mem_iff hc hid _).2 hmut)⟩

/-- Two headers that include each other, and a file that includes one of them. -/
def crossing : List SourceFile :=
  [⟨"a.h", [["b.h"]]⟩, ⟨"b.h", [["none.h", "a.h"]]⟩, ⟨"c.c", [["b.h"]]⟩]

/-- …and their groups: the headers are one. -/
def crossingGroups : Grouping :=
  ⟨[("a", ⟨["a.h", "b.h"], [], ["a", "b"]⟩), ("c", ⟨["c.c"], ["a"], []⟩)], [(["b", "a"], "a")]⟩

theorem ofFiles_crossing : ofFiles {} crossing = .ok crossingGroups := by
  have hedges : edges {} crossing = [("a", ["b"]), ("b", ["a"]), ("c", ["b"])] := by decide +kernel
  have hids : ids crossing = ["a", "b", "c"] := by decide +kernel
  have hcomponents : (digraph crossing [("a", ["b"]), ("b", ["a"]), ("c", ["b"])]).components
      = [["b", "a"], ["c"]] := by
    rw [digraph, hids]
    cbv
  have hcycle : Group.nameOf (["b", "a"].flatMap (sourcesOf crossing)) = .ok "a" := by
    have hsources : ["b", "a"].flatMap (sourcesOf crossing) = ["b.h", "a.h"] := by decide +kernel
    have hheaders : ["b.h", "a.h"].filter isHeader = ["b.h", "a.h"] := by decide +kernel
    have hsort : Text.sortNames ["b.h", "a.h"] = ["a.h", "b.h"] := by cbv
    rw [hsources, Group.nameOf, hheaders, hsort]
    decide +kernel
  have hsingle : Group.nameOf (["c"].flatMap (sourcesOf crossing)) = .ok "c" := by
    have hsources : ["c"].flatMap (sourcesOf crossing) = ["c.c"] := by decide +kernel
    have hheaders : ["c.c"].filter isHeader = [] := by decide +kernel
    have hsort : Text.sortNames ["c.c"] = ["c.c"] := by cbv
    rw [hsources, Group.nameOf, hheaders, hsort, show Text.sortNames [] = [] by cbv]
    decide +kernel
  have hcollect : collect crossing [("a", ["b"]), ("b", ["a"]), ("c", ["b"])]
        [(["b", "a"], "a"), (["c"], "c")]
      = [("a", ⟨["b.h", "a.h"], [], ["b", "a"]⟩), ("c", ⟨["c.c"], ["a"], []⟩)] := by
    decide +kernel
  have hsorted : Groups.sorted
        [("a", ⟨["b.h", "a.h"], [], ["b", "a"]⟩), ("c", ⟨["c.c"], ["a"], []⟩)]
      = crossingGroups.groups := by cbv
  have hnamed : nameComponents crossing [["b", "a"], ["c"]]
      = .ok [(["b", "a"], "a"), (["c"], "c")] := by
    rw [nameComponents, List.mapM_cons, hcycle, List.mapM_cons, hsingle]
    rfl
  rw [ofFiles_eq, hedges, hcomponents, hnamed]
  simp only [bind, Except.bind]
  rw [hcollect, hsorted]
  rfl

/-- The two headers are in one group, so each reaches the other; the third file is in another
group. -/
theorem crossing_mutual_includes :
    ofFiles {} crossing = .ok crossingGroups
    ∧ (Relation.TransGen (Includes {} crossing) "a" "b"
      ∧ Relation.TransGen (Includes {} crossing) "b" "a")
    ∧ ¬ (Relation.TransGen (Includes {} crossing) "a" "c"
      ∧ Relation.TransGen (Includes {} crossing) "c" "a") := by
  have hgroups := (groups_partition_files ofFiles_crossing).2.2.2
  have ha : (⟨"a.h", [["b.h"]]⟩ : SourceFile).groupId = "a" := by decide +kernel
  have hb : (⟨"b.h", [["none.h", "a.h"]]⟩ : SourceFile).groupId = "b" := by decide +kernel
  have hc : (⟨"c.c", [["b.h"]]⟩ : SourceFile).groupId = "c" := by decide +kernel
  have hab := hgroups ⟨"a.h", [["b.h"]]⟩ (by decide) ⟨"b.h", [["none.h", "a.h"]]⟩ (by decide)
  have hac := hgroups ⟨"a.h", [["b.h"]]⟩ (by decide) ⟨"c.c", [["b.h"]]⟩ (by decide)
  rw [ha, hb] at hab
  rw [ha, hc] at hac
  exact ⟨ofFiles_crossing, (hab.1 (by decide)).resolve_left (by decide),
    fun hmut => absurd (hac.2 (Or.inr hmut)) (by decide)⟩

/-! ## Dependencies between groups -/

/-- The group of one name lists the other name among those that it depends on. -/
def DependsOn (r : Grouping) (name other : String) : Prop :=
  ∃ g, (name, g) ∈ r.groups ∧ other ∈ g.dependsOn

theorem mem_of_groupOf? {named : List (List String × String)} {id name : String}
    (h : groupOf? named id = some name) : ∃ c ∈ named, id ∈ c.1 ∧ c.2 = name := by
  obtain ⟨c, hfind, hname⟩ := Option.map_eq_some_iff.1 h
  refine ⟨c, List.mem_of_find?_eq_some hfind, ?_, hname⟩
  simpa using List.find?_some hfind

theorem mem_dependsOn_groupFor {named : List (List String × String)} {component : List String}
    {name other : String} :
    other ∈ (groupFor files (edges layout files) named component name).sorted.dependsOn
      ↔ other ≠ name ∧ ∃ id ∈ component, ∃ target, Includes layout files id target
        ∧ groupOf? named target = some other := by
  simp only [groupFor, dependenciesOf, Group.sorted, Text.mem_sortNames, List.mem_filter,
    List.mem_eraseDups, List.mem_filterMap, List.mem_flatMap, List.mem_map, mem_sourcesOf,
    mem_targets, bne_iff_ne]
  constructor
  · rintro ⟨⟨target, ⟨-, ⟨-, ⟨id, hid, f, -, rfl, rfl⟩, rfl⟩, hinc⟩, hgroup⟩, hne⟩
    exact ⟨hne, f.groupId, hid, target, hinc, hgroup⟩
  · rintro ⟨hne, id, hid, target, hinc, hgroup⟩
    -- an id with an include has a file, and the name of the file leads back to it
    obtain ⟨f, hf, rfl, hleads⟩ := hinc
    exact ⟨⟨target, ⟨f.groupId, ⟨f.name, ⟨f.groupId, hid, f, hf, rfl, rfl⟩, rfl⟩, f, hf, rfl,
      hleads⟩,
      hgroup⟩, hne⟩

/-- **A dependency is an edge between two components.** -/
theorem Built.exists_of_dependsOn {named : List (List String × String)}
    (hb : Built layout files r named) {name other : String} (h : r.DependsOn name other) :
    ∃ c ∈ named, ∃ d ∈ named, c.2 = name ∧ d.2 = other ∧ c ≠ d
      ∧ ∃ id ∈ c.1, ∃ target ∈ d.1, Includes layout files id target := by
  obtain ⟨g, hg, hmem⟩ := h
  obtain ⟨c, hc, heq⟩ := hb.mem_groups.1 hg
  obtain ⟨rfl, rfl⟩ := Prod.mk.inj heq
  obtain ⟨hne, id, hid, target, hinc, hgroup⟩ := mem_dependsOn_groupFor.1 hmem
  obtain ⟨d, hd, htarget, rfl⟩ := mem_of_groupOf? hgroup
  exact ⟨c, hc, d, hd, rfl, rfl, fun hcd => hne (hcd ▸ rfl), id, hid, target, htarget, hinc⟩

/-- …so the name of the one reaches the name of the other. -/
theorem Built.reach_of_dependsOn {named : List (List String × String)}
    (hb : Built layout files r named) {name other : String} (h : r.DependsOn name other) :
    Relation.ReflTransGen (Includes layout files) name other := by
  obtain ⟨c, hc, d, hd, rfl, rfl, -, id, hid, target, htarget, hinc⟩ := hb.exists_of_dependsOn h
  have hfrom := ((hb.mem_iff hc (hb.name_mem hc) id).1 hid).1
  have hto := ((hb.mem_iff hd htarget d.2).1 (hb.name_mem hd)).1
  exact (hfrom.tail hinc).trans hto

/-- **Groups do not depend on each other in a circle**, and they depend on groups that exist. -/
theorem dependsOn_acyclic (h : ofFiles layout files = .ok r) :
    (∀ name, ¬ Relation.TransGen r.DependsOn name name)
    ∧ ∀ e ∈ r.groups, ∀ other ∈ e.2.dependsOn, other ∈ r.groups.map Prod.fst := by
  obtain ⟨named, hb⟩ := exists_built h
  refine ⟨fun name hcycle => ?_, fun e he other hother => ?_⟩
  · obtain ⟨other, hfirst, hrest⟩ := Relation.TransGen.head'_iff.1 hcycle
    have hback : Relation.ReflTransGen (Includes layout files) other name :=
      hrest.trans_induction_on (fun _ => .refl) (fun hd => hb.reach_of_dependsOn hd)
        fun _ _ => .trans
    have hforth := hb.reach_of_dependsOn hfirst
    obtain ⟨c, hc, d, hd, rfl, rfl, hne, -⟩ := hb.exists_of_dependsOn hfirst
    -- the two names are mutually reachable, so both are ids of one component
    have hmem : d.2 ∈ c.1 := (hb.mem_iff hc (hb.name_mem hc) d.2).2 ⟨hforth, hback⟩
    exact hne (hb.eq_of_mem hc hd hmem (hb.name_mem hd))
  · obtain ⟨c, -, d, hd, -, rfl, -⟩ := hb.exists_of_dependsOn ⟨e.2, he, hother⟩
    exact List.mem_map.2 ⟨_, hb.mem_groups.2 ⟨d, hd, rfl⟩, rfl⟩

theorem crossing_acyclic :
    ofFiles {} crossing = .ok crossingGroups ∧ crossingGroups.DependsOn "c" "a"
    ∧ ¬ Relation.TransGen crossingGroups.DependsOn "a" "c" := by
  have hdep : crossingGroups.DependsOn "c" "a" := ⟨⟨["c.c"], ["a"], []⟩, by decide, by decide⟩
  exact ⟨ofFiles_crossing, hdep, fun h =>
    (dependsOn_acyclic ofFiles_crossing).1 "a" (h.tail hdep)⟩

end Grouping

end IncludeScan
