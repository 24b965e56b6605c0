import IncludeScan.Proofs.Grouping.Groups
import IncludeScan.Proofs.Text.Sorting
import Mathlib

/-!
# Proofs/Grouping/InputOrder — files may be listed in any order

The order of the files enters a grouping in four ways: the file listed last owns a path, the graph
lists its nodes and edges as they come, a group lists its files as they come, and the components are
found and named in the order of the graph.  If no path belongs to files of two ids (`Unambiguous`),
ownership has nothing to do with the order.  Nodes and edges are then the same up to order, and as
they are visited in ascending order the search is the same step by step (`digraph_eq_of_perm`); all
other lists are sorted.

Files with names of their own can always be grouped (`exists_ofFiles`).

`ofFiles_perm` — the same files in another order have the same grouping.
-/

namespace IncludeScan

namespace IncludeGraph

variable {layout : Path.Layout} {files others : List SourceFile}

/-! ## Ownership -/

/-- **No path belongs to files of two ids.** -/
def Unambiguous (layout : Path.Layout) (files : List SourceFile) : Prop :=
  ∀ f ∈ files, ∀ g ∈ files, ∀ path ∈ Path.variants layout f.name,
    path ∈ Path.variants layout g.name →
    f.groupId = g.groupId

theorem Unambiguous.of_perm (h : Unambiguous layout files) (hperm : files.Perm others) :
    Unambiguous layout others :=
  fun f hf g hg => h f (hperm.mem_iff.2 hf) g (hperm.mem_iff.2 hg)

theorem Registered.exists_owns {path : String} (h : Registered layout files path) :
    ∃ id, Owns layout files id path := by
  rcases hlookup : (registry layout files).lookup path with - | id
  · exact absurd h (lookup_registry_eq_none.1 hlookup)
  · exact ⟨id, lookup_registry.1 hlookup⟩

/-- **A path is owned by the one id that has it**, whichever of the files is listed last. -/
theorem Unambiguous.owns_iff (h : Unambiguous layout files) {id path : String} :
    Owns layout files id path ↔ ∃ f ∈ files, path ∈ Path.variants layout f.name
      ∧ f.groupId = id := by
  constructor
  · rintro ⟨before, f, after, rfl, hpath, -, hid⟩
    exact ⟨f, by simp, hpath, hid⟩
  · rintro ⟨f, hf, hpath, rfl⟩
    obtain ⟨id, before, g, after, hsplit, hpath', hlast, rfl⟩ :=
      Registered.exists_owns ⟨f, hf, hpath⟩
    rw [h f hf g (by simp [hsplit]) path hpath hpath']
    exact ⟨before, g, after, hsplit, hpath', hlast, rfl⟩

/-! ## The graph -/

theorem registered_iff_of_perm (hperm : files.Perm others) {path : String} :
    Registered layout files path ↔ Registered layout others path := by
  simp only [Registered, hperm.mem_iff]

/-- **An edge is an edge in any order.** -/
theorem Unambiguous.includes_iff_of_perm (h : Unambiguous layout files) (hperm : files.Perm others)
    {source target : String} :
    Includes layout files source target ↔ Includes layout others source target := by
  simp only [Includes, LeadsTo, h.owns_iff, (h.of_perm hperm).owns_iff,
    registered_iff_of_perm hperm, hperm.mem_iff]

theorem ids_perm (hperm : files.Perm others) : (ids files).Perm (ids others) :=
  (List.perm_ext_iff_of_nodup (nodup_eraseDups _) (nodup_eraseDups _)).2 fun id => by
    rw [← ids, ← ids, mem_ids, mem_ids]
    simp only [hperm.mem_iff]

theorem nodup_targets (layout : Path.Layout) (files : List SourceFile) (id : String) :
    (targets (edges layout files) id).Nodup := by
  rw [targets, edges, lookup_map_self]
  split
  · exact nodup_eraseDups _
  · exact List.nodup_nil

/-- **The graph is the same, down to the order of its nodes and edges.** -/
theorem digraph_eq_of_perm (h : Unambiguous layout files) (hperm : files.Perm others) :
    digraph files (edges layout files) = digraph others (edges layout others) := by
  have htargets (id : String) :
      (targets (edges layout files) id).Perm (targets (edges layout others) id) :=
    (List.perm_ext_iff_of_nodup (nodup_targets layout files id) (nodup_targets layout others id)).2
      fun target => by rw [mem_targets, mem_targets, h.includes_iff_of_perm hperm]
  rw [digraph, digraph, Text.sortNames_eq_of_perm (ids_perm hperm)]
  congr 1
  ext1 id
  exact Text.sortNames_eq_of_perm (htargets id)

theorem sourcesOf_perm (hperm : files.Perm others) (id : String) :
    (sourcesOf files id).Perm (sourcesOf others id) :=
  (hperm.filter _).map _

theorem flatMap_sourcesOf_perm (hperm : files.Perm others) (component : List String) :
    (component.flatMap (sourcesOf files)).Perm (component.flatMap (sourcesOf others)) :=
  List.Perm.flatMap (List.Perm.refl _) fun id _ => sourcesOf_perm hperm id

end IncludeGraph

/-! ## The groups -/

theorem Group.nameOf_eq_of_perm {files others : List String} (hperm : files.Perm others) :
    nameOf files = nameOf others := by
  rw [nameOf, nameOf, Text.sortNames_eq_of_perm hperm, Text.sortNames_eq_of_perm (hperm.filter _)]

/-- The groups are listed by name. -/
theorem Groups.pairwise_sorted (groups : Groups) :
    groups.sorted.Pairwise fun a b => Text.unitsLE a.1 b.1 = true := by
  rw [sorted, List.pairwise_map]
  exact Text.pairwise_mergeSort_units Prod.fst groups

/-- Tables with the same entries under distinct names are listed in the same way. -/
theorem Groups.sorted_eq_of_perm {groups others : Groups}
    (hkeys : (groups.sorted.map Prod.fst).Nodup) (hperm : groups.sorted.Perm others.sorted) :
    groups.sorted = others.sorted := by
  refine hperm.eq_of_pairwise (fun a b ha hb hab hba => ?_) groups.pairwise_sorted
    others.pairwise_sorted
  exact List.inj_on_of_nodup_map hkeys ha (hperm.mem_iff.2 hb) (Text.unitsLE_antisymm hab hba)

namespace Grouping

open IncludeGraph

variable {layout : Path.Layout} {files others : List SourceFile}

theorem nameComponents_eq_of_perm (hperm : files.Perm others) (components : List (List String)) :
    nameComponents files components = nameComponents others components := by
  have hname (component : List String) : Group.nameOf (component.flatMap (sourcesOf files))
      = Group.nameOf (component.flatMap (sourcesOf others)) :=
    Group.nameOf_eq_of_perm (flatMap_sourcesOf_perm hperm component)
  simp only [nameComponents, hname]

theorem sorted_groupFor_eq_of_perm (h : Unambiguous layout files) (hperm : files.Perm others)
    (named : List (List String × String)) (component : List String) (name : String) :
    (groupFor files (edges layout files) named component name).sorted
      = (groupFor others (edges layout others) named component name).sorted := by
  have hdepends : (groupFor files (edges layout files) named component name).dependsOn.Perm
      (groupFor others (edges layout others) named component name).dependsOn := by
    refine (List.perm_ext_iff_of_nodup ((nodup_eraseDups _).filter _)
      ((nodup_eraseDups _).filter _)).2 fun other => ?_
    refine Text.mem_sortNames.symm.trans (mem_dependsOn_groupFor.trans ?_)
    refine .trans ?_ (mem_dependsOn_groupFor.symm.trans Text.mem_sortNames)
    simp only [h.includes_iff_of_perm hperm]
  rw [Group.sorted, Group.sorted, Text.sortNames_eq_of_perm hdepends]
  congr 1
  exact Text.sortNames_eq_of_perm (flatMap_sourcesOf_perm hperm component)

/-- **The same components make the same groups.** -/
theorem Named.sorted_collect_eq_of_perm {named : List (List String × String)}
    (hnamed : Named layout files named) (h : Unambiguous layout files) (hperm : files.Perm others) :
    (collect files (edges layout files) named).sorted
      = (collect others (edges layout others) named).sorted := by
  have hothers : Named layout others named := by
    refine ⟨digraph_eq_of_perm h hperm ▸ hnamed.components, fun c hc => ?_⟩
    rw [← Group.nameOf_eq_of_perm (flatMap_sourcesOf_perm hperm c.1)]
    exact hnamed.nameOf c hc
  refine Groups.sorted_eq_of_perm hnamed.nodup_keys_collect (hnamed.sorted_collect_perm.trans ?_)
  simp only [sorted_groupFor_eq_of_perm h hperm]
  exact hothers.sorted_collect_perm.symm

/-- **The grouping does not depend on the order**, whether it succeeds or not. -/
theorem ofFiles_eq_of_perm (h : Unambiguous layout files) (hperm : files.Perm others) :
    ofFiles layout files = ofFiles layout others := by
  have hnamed : nameComponents others (digraph others (edges layout others)).components
      = nameComponents files (digraph files (edges layout files)).components := by
    rw [digraph_eq_of_perm h hperm, nameComponents_eq_of_perm hperm]
  rw [ofFiles_eq, ofFiles_eq, hnamed]
  rcases hfiles :
      nameComponents files (digraph files (edges layout files)).components with e | named
  · dsimp only [bind, Except.bind]
  · obtain ⟨hfst, hnames⟩ := nameComponents_eq_ok hfiles
    have hsame := Named.sorted_collect_eq_of_perm ⟨hfst, hnames⟩ h hperm
    dsimp only [bind, Except.bind]
    rw [hsame]

/-! ## Files with names of their own -/

end Grouping

theorem Group.exists_nameOf {files : List String} (h : files ≠ []) :
    ∃ name, nameOf files = .ok name := by
  have hsorted : Text.sortNames files ≠ [] := fun hnil =>
    h (hnil ▸ Text.sortNames_perm files).nil_eq.symm
  obtain ⟨first, rest, hfirst⟩ := List.exists_cons_of_ne_nil hsorted
  rw [nameOf, hfirst, List.head?_cons]
  rcases (Text.sortNames (files.filter isHeader)).head? with - | header
  · exact ⟨_, rfl⟩
  · exact ⟨_, rfl⟩

namespace Groups

theorem exists_assign : ∀ (seen list : List (String × String)), (list.map Prod.fst).Nodup →
    (∀ e ∈ list, seen.lookup e.1 = none) → ∃ table, assign seen list = .ok table
  | _, [], _, _ => ⟨[], rfl⟩
  | seen, (file, group) :: list, hnodup, hnew => by
      obtain ⟨hfile, hnodup⟩ := List.nodup_cons.1 hnodup
      obtain ⟨hfirst, hnew⟩ := List.forall_mem_cons.1 hnew
      obtain ⟨table, htable⟩ := exists_assign ((file, group) :: seen) list hnodup fun e he => by
        have hne : e.1 ≠ file := fun heq => hfile (List.mem_map.2 ⟨e, he, heq⟩)
        rw [List.lookup_cons, beq_eq_false_iff_ne.2 hne]
        exact hnew e he
      exact ⟨(file, group) :: table, by rw [assign, hfirst, htable]; rfl⟩

/-- **The assignment succeeds if no file is in the groups twice.** -/
theorem exists_fileToGroup {groups : Groups} (h : (groups.flatMap fun e => e.2.sources).Nodup) :
    ∃ table, groups.fileToGroup = .ok table := by
  refine exists_assign [] _ ?_ fun _ _ => rfl
  rw [List.map_flatMap]
  simpa [Function.comp_def] using h

end Groups

namespace Grouping

open IncludeGraph

variable {layout : Path.Layout} {files others : List SourceFile}

theorem exists_nameComponents : ∀ {components : List (List String)},
    (∀ c ∈ components, c.flatMap (sourcesOf files) ≠ []) →
      ∃ named, nameComponents files components = .ok named
  | [], _ => ⟨[], rfl⟩
  | c :: components, h => by
      obtain ⟨hc, h⟩ := List.forall_mem_cons.1 h
      obtain ⟨name, hname⟩ := Group.exists_nameOf hc
      obtain ⟨named, hnamed⟩ := exists_nameComponents h
      refine ⟨(c, name) :: named, ?_⟩
      rw [nameComponents] at hnamed ⊢
      rw [List.mapM_cons, hname, hnamed]
      rfl

/-- **Every id of a component is the id of a file.** -/
theorem exists_file_of_mem {component : List String}
    (h : component ∈ (digraph files (edges layout files)).components) {id : String}
    (hid : id ∈ component) :
    ∃ f ∈ files, f.groupId = id := by
  have hnode := (Digraph.mem_flatten_components (edgesInside_digraph layout files)).1
    (List.mem_flatten_of_mem h hid)
  exact mem_ids.1 (Text.mem_sortNames.1 hnode)

/-- Every component has files. -/
theorem flatMap_sourcesOf_ne_nil {component : List String}
    (h : component ∈ (digraph files (edges layout files)).components) :
    component.flatMap (sourcesOf files) ≠ [] := by
  obtain ⟨id, hid⟩ := List.exists_mem_of_ne_nil _
    (Digraph.isComponent_of_mem (edgesInside_digraph layout files) h).ne_nil
  obtain ⟨f, hf, hfid⟩ := exists_file_of_mem h hid
  exact List.ne_nil_of_mem (List.mem_flatMap_of_mem hid (mem_sourcesOf.2 ⟨f, hf, hfid, rfl⟩))

theorem flatMap_sourcesOf_cons_of_notMem {names : List String} {f : SourceFile}
    (h : f.groupId ∉ names) (files : List SourceFile) :
    names.flatMap (sourcesOf (f :: files)) = names.flatMap (sourcesOf files) := by
  refine List.flatMap_congr fun id hid => ?_
  have hne : f.groupId ≠ id := fun heq => h (heq ▸ hid)
  rw [sourcesOf, List.filter_cons_of_neg (by simpa using hne), sourcesOf]

/-- **The ids hold the files**: each is listed once, under its own id. -/
theorem flatMap_sourcesOf_perm_names {names : List String} (hnodup : names.Nodup) :
    ∀ {files : List SourceFile}, (∀ f ∈ files, f.groupId ∈ names) →
      (names.flatMap (sourcesOf files)).Perm (files.map SourceFile.name)
  | [], _ => by simp [sourcesOf]
  | f :: files, h => by
      obtain ⟨hf, hfiles⟩ := List.forall_mem_cons.1 h
      have hperm := flatMap_sourcesOf_perm_names hnodup hfiles
      obtain ⟨before, after, rfl⟩ := List.append_of_mem hf
      have hself : sourcesOf (f :: files) f.groupId = f.name :: sourcesOf files f.groupId := by
        simp [sourcesOf]
      have hnot := (List.nodup_middle.1 hnodup).notMem
      rw [List.flatMap_append, List.flatMap_cons] at hperm ⊢
      rw [hself, flatMap_sourcesOf_cons_of_notMem fun hid => hnot (List.mem_append_left _ hid),
        flatMap_sourcesOf_cons_of_notMem fun hid => hnot (List.mem_append_right _ hid)]
      exact List.perm_middle.trans (hperm.cons f.name)

/-- **The groups hold the files**, each as often as it is listed. -/
theorem Named.sources_collect_perm {named : List (List String × String)}
    (h : Named layout files named) :
    ((collect files (edges layout files) named).sorted.flatMap fun e => e.2.sources).Perm
      (files.map SourceFile.name) := by
  have hids : (named.flatMap Prod.fst).Nodup := by
    rw [List.flatMap_def, h.components]
    exact Digraph.nodup_flatten_components (edgesInside_digraph layout files)
  have hall : ∀ f ∈ files, f.groupId ∈ named.flatMap Prod.fst := fun f hf => by
    obtain ⟨c, hc, hid⟩ := h.exists_mem hf
    exact List.mem_flatMap_of_mem hc hid
  refine (h.sorted_collect_perm.flatMap_right _).trans ?_
  rw [List.flatMap_map]
  refine (List.Perm.flatMap (List.Perm.refl named) fun c _ => Text.sortNames_perm _).trans ?_
  exact List.flatMap_assoc ▸ flatMap_sourcesOf_perm_names hids hall

/-- **Only the assignment of the files can fail.** -/
theorem exists_ofFiles_eq (layout : Path.Layout) (files : List SourceFile) :
    ∃ named, Named layout files named
      ∧ ofFiles layout files = (collect files (edges layout files)
        named).sorted.fileToGroup.map fun _ =>
          ⟨(collect files (edges layout files) named).sorted,
            named.filter fun c => c.1.length > 1⟩ := by
  obtain ⟨named, hnamed⟩ :=
    exists_nameComponents fun c hc => @flatMap_sourcesOf_ne_nil layout files c hc
  obtain ⟨hfst, hname⟩ := nameComponents_eq_ok hnamed
  refine ⟨named, ⟨hfst, hname⟩, ?_⟩
  rw [ofFiles_eq, hnamed]
  rfl

theorem exists_ofFiles (hnames : (files.map SourceFile.name).Nodup) :
    ∃ r, ofFiles layout files = .ok r := by
  obtain ⟨named, hnamed, heq⟩ := exists_ofFiles_eq layout files
  obtain ⟨table, htable⟩ :=
    Groups.exists_fileToGroup (hnamed.sources_collect_perm.nodup_iff.2 hnames)
  exact ⟨_, heq.trans (congrArg _ htable)⟩

/-- **Files may be listed in any order.**  Files with names of their own, none of whose paths
belongs to two ids, can be grouped, and in another order they have the same grouping. -/
theorem ofFiles_perm (hnames : (files.map SourceFile.name).Nodup)
    (hpaths : Unambiguous layout files) (hperm : files.Perm others) :
    ∃ r, ofFiles layout files = .ok r ∧ ofFiles layout others = .ok r := by
  obtain ⟨r, hr⟩ := exists_ofFiles hnames
  exact ⟨r, hr, (ofFiles_eq_of_perm hpaths hperm).symm.trans hr⟩

/-- Two headers that include each other and a file that includes one of them, the file listed
first. -/
theorem ofFiles_perm_crossing :
    (crossing.map SourceFile.name).Nodup ∧ Unambiguous {} crossing
    ∧ ofFiles {} crossing = .ok crossingGroups
    ∧ ofFiles {} crossing.reverse = .ok crossingGroups := by
  have hnames : (crossing.map SourceFile.name).Nodup := by decide
  have ha : Path.variants {} "a.h" = ["a.h"] := by decide +kernel
  have hb : Path.variants {} "b.h" = ["b.h"] := by decide +kernel
  have hc : Path.variants {} "c.c" = ["c.c"] := by decide +kernel
  have hpaths : Unambiguous {} crossing := by
    intro f hf g hg path hpath hpath'
    simp only [crossing, List.mem_cons, List.not_mem_nil, or_false] at hf hg
    rcases hf with rfl | rfl | rfl <;> rcases hg with rfl | rfl | rfl <;> simp_all
  obtain ⟨r, hr, hreverse⟩ := ofFiles_perm hnames hpaths crossing.reverse_perm.symm
  obtain rfl := Except.ok.inj (ofFiles_crossing.symm.trans hr)
  exact ⟨hnames, hpaths, ofFiles_crossing, hreverse⟩

end Grouping

end IncludeScan
