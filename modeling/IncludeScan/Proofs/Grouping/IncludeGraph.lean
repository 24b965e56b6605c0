import IncludeScan.Grouping.Group
import IncludeScan.Proofs.Grouping.Components
import IncludeScan.Proofs.Text.Names

/-!
# Proofs/Grouping/IncludeGraph — the edges of the include graph, said without its tables

The registry of path variants is a table that is searched; what it says is that the file listed last
**owns** a path (`lookup_registry`).  An include then leads to the owner of the first of its
candidates that has one (`target?_eq_some_iff`), and these are the edges of the graph
(`edge_digraph`).

The nodes are filled file by file; every file finds the node of its id, so this never fails, and
each node ends up with what all files of its id include (`build_eq_ok`).
-/

namespace IncludeScan

namespace Text

@[simp] theorem mem_sortNames {name : String} {names : List String} :
    name ∈ sortNames names ↔ name ∈ names :=
  List.mem_mergeSort

end Text

namespace IncludeGraph

variable {layout : Path.Layout} {files : List SourceFile}

/-! ## The meaning of an include -/

/-- The path is a variant of some listed file. -/
def Registered (layout : Path.Layout) (files : List SourceFile) (path : String) : Prop :=
  ∃ f ∈ files, path ∈ Path.variants layout f.name

/-- The id owns the path: it is the id of the last listed file that has the path as a variant. -/
def Owns (layout : Path.Layout) (files : List SourceFile) (id path : String) : Prop :=
  ∃ before f after, files = before ++ f :: after ∧ path ∈ Path.variants layout f.name
    ∧ (∀ later ∈ after, path ∉ Path.variants layout later.name) ∧ f.groupId = id

/-- An include leads to the owner of the first of its candidates that is registered. -/
def LeadsTo (layout : Path.Layout) (files : List SourceFile) (candidates : List String)
    (id : String) : Prop :=
  ∃ before path after, candidates = before ++ path :: after
    ∧ (∀ other ∈ before, ¬ Registered layout files other) ∧ Owns layout files id path

/-- **An edge of the include graph**: some file of the one id has an include that leads to the
other. -/
def Includes (layout : Path.Layout) (files : List SourceFile) (source target : String) : Prop :=
  ∃ f ∈ files, f.groupId = source
    ∧ ∃ candidates ∈ f.includes, LeadsTo layout files candidates target

/-! ## The registry -/

theorem registry_concat (layout : Path.Layout) (files : List SourceFile) (f : SourceFile) :
    registry layout (files ++ [f])
      = ((Path.variants layout f.name).map fun v => (v, f.groupId)).reverse
        ++ registry layout files := by
  simp [registry]

theorem lookup_reverse_map_const (vs : List String) (id path : String) :
    (vs.map fun v => (v, id)).reverse.lookup path = if path ∈ vs then some id else none := by
  induction vs with
  | nil => rfl
  | cons v vs ih =>
    rw [List.map_cons, List.reverse_cons, List.lookup_append, ih]
    by_cases hvs : path ∈ vs
    · rw [if_pos hvs, if_pos (List.mem_cons_of_mem v hvs)]
      rfl
    · rw [if_neg hvs, Option.none_or, List.lookup_cons]
      by_cases hv : path = v
      · simp [hv]
      · simp [beq_eq_false_iff_ne.2 hv, hv, hvs]

theorem owns_concat_of_mem {f : SourceFile} {id path : String}
    (h : path ∈ Path.variants layout f.name) :
    Owns layout (files ++ [f]) id path ↔ f.groupId = id := by
  constructor
  · rintro ⟨before, f', after, hsplit, -, hafter, hid⟩
    rcases List.eq_nil_or_concat' after with rfl | ⟨after, last, rfl⟩
    · obtain ⟨-, hf⟩ := List.append_inj' hsplit rfl
      exact (List.cons.inj hf).1 ▸ hid
    · rw [← List.cons_append, ← List.append_assoc] at hsplit
      obtain ⟨-, hf⟩ := List.append_inj' hsplit rfl
      obtain rfl := (List.cons.inj hf).1
      exact absurd h (hafter f (by simp))
  · exact fun hid => ⟨files, f, [], rfl, h, by simp, hid⟩

theorem owns_concat_of_notMem {f : SourceFile} {id path : String}
    (h : path ∉ Path.variants layout f.name) :
    Owns layout (files ++ [f]) id path ↔ Owns layout files id path := by
  constructor
  · rintro ⟨before, f', after, hsplit, hmem, hafter, hid⟩
    rcases List.eq_nil_or_concat' after with rfl | ⟨after, last, rfl⟩
    · obtain ⟨-, hf⟩ := List.append_inj' hsplit rfl
      exact absurd hmem ((List.cons.inj hf).1 ▸ h)
    · rw [← List.cons_append, ← List.append_assoc] at hsplit
      obtain ⟨hfiles, -⟩ := List.append_inj' hsplit rfl
      exact ⟨before, f', after, hfiles, hmem,
        fun later hl => hafter later (List.mem_append_left _ hl), hid⟩
  · rintro ⟨before, f', after, rfl, hmem, hafter, hid⟩
    refine ⟨before, f', after ++ [f], by simp, hmem, fun later hl => ?_, hid⟩
    rcases List.mem_append.1 hl with hl | hl
    · exact hafter later hl
    · exact List.mem_singleton.1 hl ▸ h

/-- **The registry gives a path to its owner.** -/
theorem lookup_registry {id path : String} :
    (registry layout files).lookup path = some id ↔ Owns layout files id path := by
  induction files using List.reverseRecOn with
  | nil => simp [registry, Owns]
  | append_singleton files f ih =>
    rw [registry_concat, List.lookup_append, lookup_reverse_map_const]
    by_cases h : path ∈ Path.variants layout f.name
    · rw [if_pos h, owns_concat_of_mem h, Option.some_or, Option.some_inj]
    · rw [if_neg h, owns_concat_of_notMem h, Option.none_or, ih]

/-- …and knows nothing of a path that no file has. -/
theorem lookup_registry_eq_none {path : String} :
    (registry layout files).lookup path = none ↔ ¬ Registered layout files path := by
  rw [List.lookup_eq_none_iff]
  simp only [registry, List.mem_reverse, List.mem_flatMap, List.mem_map, Registered]
  constructor
  · rintro h ⟨f, hf, hv⟩
    simpa using h (path, f.groupId) ⟨f, hf, path, hv, rfl⟩
  · rintro h _ ⟨f, hf, v, hv, rfl⟩
    rw [bne_iff_ne]
    rintro rfl
    exact h ⟨f, hf, hv⟩

theorem target?_eq_some_iff {candidates : List String} {id : String} :
    target? (registry layout files) candidates = some id ↔ LeadsTo layout files candidates id := by
  simp only [target?, List.findSome?_eq_some_iff, LeadsTo, lookup_registry, lookup_registry_eq_none]
  constructor <;> rintro ⟨before, path, after, h, h₁, h₂⟩ <;> exact ⟨before, path, after, h, h₂, h₁⟩

/-! ## The edges -/

/-- The ids to which the includes of a group id lead, each once. -/
def targetsOf (registry : List (String × String)) (files : List SourceFile) (id : String) :
    List String :=
  ((files.filter fun f => f.groupId == id).flatMap fun f =>
    f.includes.filterMap (target? registry)).eraseDups

/-- **The targets of every id.** -/
def edges (layout : Path.Layout) (files : List SourceFile) : List (String × List String) :=
  (ids files).map fun id => (id, targetsOf (registry layout files) files id)

theorem mem_ids {id : String} : id ∈ ids files ↔ ∃ f ∈ files, f.groupId = id := by
  rw [ids, List.mem_eraseDups, List.mem_map]

/-- **A file is added to the node of its id**, if there is one: the targets of that node are those
found before and those of the file. -/
theorem addFile_map (registry : List (String × String)) {names : List String} {f : SourceFile}
    (hf : f.groupId ∈ names) (found : String → List String) :
    addFile registry (names.map fun id => (id, (found id).eraseDups)) f
      = .ok (names.map fun id => (id, (found id
          ++ if f.groupId == id then f.includes.filterMap (target? registry)
            else []).eraseDups)) := by
  have hnode :
      (names.map fun id => (id, (found id).eraseDups)).any (fun n => n.1 == f.groupId) = true :=
    List.any_eq_true.2 ⟨_, List.mem_map_of_mem hf, beq_self_eq_true _⟩
  rw [addFile, if_pos hnode, List.map_map]
  refine congrArg Except.ok (List.map_congr_left fun id _ => ?_)
  by_cases hid : id = f.groupId
  · simp [hid, eraseDups_eraseDups_append]
  · simp [hid, Ne.symm hid]

theorem foldlM_addFile (registry : List (String × String)) {names : List String} :
    ∀ (files : List SourceFile), (∀ f ∈ files, f.groupId ∈ names) → ∀ found : String → List String,
      files.foldlM (addFile registry) (names.map fun id => (id, (found id).eraseDups))
        = .ok (names.map fun id => (id, (found id ++ (files.filter fun f => f.groupId == id).flatMap
            fun f => f.includes.filterMap (target? registry)).eraseDups))
  | [], _, found => by simp; rfl
  | f :: files, h, found => by
      obtain ⟨hf, hfiles⟩ := List.forall_mem_cons.1 h
      rw [List.foldlM_cons, addFile_map registry hf]
      refine (foldlM_addFile registry files hfiles _).trans ?_
      refine congrArg Except.ok (List.map_congr_left fun id _ => ?_)
      by_cases hid : f.groupId = id
      · simp [hid]
      · simp [hid]

/-- **Every file finds its node**, and the nodes get the targets of their ids. -/
theorem build_eq_ok (layout : Path.Layout) (files : List SourceFile) :
    build layout files = .ok (edges layout files) := by
  have hnodes : ∀ f ∈ files, f.groupId ∈ ids files := fun f hf => mem_ids.2 ⟨f, hf, rfl⟩
  exact foldlM_addFile (registry layout files) files hnodes fun _ => []

theorem mem_sourcesOf {id name : String} :
    name ∈ sourcesOf files id ↔ ∃ f ∈ files, f.groupId = id ∧ f.name = name := by
  simp [sourcesOf, and_assoc]

theorem mem_targetsOf {source target : String} :
    target ∈ targetsOf (registry layout files) files source
      ↔ Includes layout files source target := by
  simp only [targetsOf, List.mem_eraseDups, List.mem_flatMap, List.mem_filter, List.mem_filterMap,
    beq_iff_eq, target?_eq_some_iff, Includes, and_assoc]

theorem lookup_map_self {β : Type} (F : String → β) (names : List String) (name : String) :
    (names.map fun n => (n, F n)).lookup name = if name ∈ names then some (F name) else none := by
  induction names with
  | nil => rfl
  | cons n ns ih =>
    rw [List.map_cons, List.lookup_cons, ih]
    by_cases h : name = n
    · simp [h]
    · simp [beq_eq_false_iff_ne.2 h, h]

/-- **The table of edges holds the edges.** -/
theorem mem_targets {source target : String} :
    target ∈ targets (edges layout files) source ↔ Includes layout files source target := by
  rw [targets, edges, lookup_map_self]
  by_cases h : source ∈ ids files
  · rw [if_pos h, Option.getD_some, mem_targetsOf]
  · rw [if_neg h, Option.getD_none]
    refine ⟨fun ht => absurd ht List.not_mem_nil, ?_⟩
    rintro ⟨f, hf, hid, -⟩
    exact absurd (mem_ids.2 ⟨f, hf, hid⟩) h

theorem Includes.target_mem {source target : String} (h : Includes layout files source target) :
    target ∈ ids files := by
  obtain ⟨-, -, -, -, -, -, path, -, -, -, before, f, after, hsplit, -, -, hid⟩ := h
  exact mem_ids.2 ⟨f, by simp [hsplit], hid⟩

theorem edge_digraph {source target : String} :
    (digraph files (edges layout files)).Edge source target
      ↔ Includes layout files source target := by
  rw [Digraph.Edge, digraph, Text.mem_sortNames, mem_targets]

theorem reach_digraph {source target : String} :
    (digraph files (edges layout files)).Reach source target
      ↔ Relation.ReflTransGen (Includes layout files) source target := by
  rw [Digraph.Reach, show (digraph files (edges layout files)).Edge = Includes layout files from
    funext fun a => funext fun b => propext edge_digraph]

theorem edgesInside_digraph (layout : Path.Layout) (files : List SourceFile) :
    (digraph files (edges layout files)).EdgesInside := by
  intro source _ target h
  exact Text.mem_sortNames.2 (edge_digraph.1 h).target_mem

end IncludeGraph

end IncludeScan
