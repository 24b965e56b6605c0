import IncludeScan.Grouping.Digraph
import IncludeScan.Grouping.File
import IncludeScan.Log
import IncludeScan.Text.Units

/-!
# Grouping/Group — the files of a directory that have to be compiled together

Files with one group id belong together, and so do the ids on a cycle of includes.  An include leads
to the first of its candidates that is a variant of some listed file; if several files have that
variant, the one listed last owns it.

A group is named after its first header, or after its first file when it has no header.  All lists
are sorted by code units.  A file that is listed twice would be assigned twice, which is refused.
-/

namespace IncludeScan

/-- Files that belong together, the groups that they include, and the ids that a cycle has
merged. -/
structure Group where
  sources : List String
  dependsOn : List String
  subGroups : List String
deriving DecidableEq, Repr

/-- Why files cannot be grouped. -/
inductive GroupingError where
  | noNode (file : String)
  | emptyGroup
  | assignedTwice (file first second : String)
deriving DecidableEq, Repr

/-- The wording of a grouping error. -/
def GroupingError.message : GroupingError → String
  | .noNode file => "no graph node for " ++ file
  | .emptyGroup => "cannot name an empty group"
  | .assignedTwice file first second =>
    "Inconsistent source groups, file " ++ file ++ " assigned to both groups " ++ first ++ " and "
      ++ second

namespace Group

/-- The name of a group of these files. -/
def nameOf (files : List String) : Except GroupingError String :=
  let headers := Text.sortNames (files.filter isHeader)
  match headers.head?.or (Text.sortNames files).head? with
  | some first => .ok (Path.stem first)
  | none => .error .emptyGroup

/-- The group with all lists sorted. -/
def sorted (g : Group) : Group :=
  ⟨Text.sortNames g.sources, Text.sortNames g.dependsOn, Text.sortNames g.subGroups⟩

end Group

/-- Groups by name, in order. -/
abbrev Groups := List (String × Group)

namespace Groups

/-- The groups with one more.  A group of the same name is replaced where it stands. -/
def insert (groups : Groups) (name : String) (g : Group) : Groups :=
  if groups.any fun e => e.1 == name then groups.map fun e => if e.1 == name then (name, g) else e
  else groups ++ [(name, g)]

/-- The groups sorted by name, with all their lists sorted. -/
def sorted (groups : Groups) : Groups :=
  (groups.mergeSort fun a b => Text.unitsLE a.1 b.1).map fun (name, g) => (name, g.sorted)

/-- Each file with its group, in order; a file must not occur again. -/
def assign (seen : List (String × String)) :
    List (String × String) → Except GroupingError (List (String × String))
  | [] => .ok []
  | (file, group) :: others =>
    match seen.lookup file with
    | some first => .error (.assignedTwice file first group)
    | none => (assign ((file, group) :: seen) others).map ((file, group) :: ·)

/-- The group of each file. -/
def fileToGroup (groups : Groups) : Except GroupingError (List (String × String)) :=
  assign [] (groups.flatMap fun (name, g) => g.sources.map fun file => (file, name))

/-- The groups that share nothing but the group id. -/
def byId (names : List String) : Groups :=
  let ids := (names.map Path.stem).eraseDups
  Groups.sorted (ids.map fun id => (id, ⟨names.filter fun n => Path.stem n == id, [], []⟩))

end Groups

/-! ## The graph of includes -/

namespace IncludeGraph

/-- Each variant with the id of a file that has it; files listed later come first. -/
def registry (layout : Path.Layout) (files : List SourceFile) : List (String × String) :=
  (files.flatMap fun f => (Path.variants layout f.name).map fun v => (v, f.groupId)).reverse

/-- The id that an include leads to, by its candidates. -/
def target? (registry : List (String × String)) (candidates : List String) : Option String :=
  candidates.findSome? fun path => registry.lookup path

/-- The group ids of the files, each once. -/
def ids (files : List SourceFile) : List String :=
  (files.map SourceFile.groupId).eraseDups

/-- The files of a group id. -/
def sourcesOf (files : List SourceFile) (id : String) : List String :=
  (files.filter fun f => f.groupId == id).map SourceFile.name

/-- The nodes with a file added to the one of its id, which must be there: what the file includes
joins the targets of the node, each once. -/
def addFile (registry : List (String × String)) (nodes : List (String × List String))
    (f : SourceFile) : Except GroupingError (List (String × List String)) :=
  if nodes.any fun n => n.1 == f.groupId then
    .ok (nodes.map fun n =>
      if n.1 == f.groupId then (n.1, (n.2 ++ f.includes.filterMap (target? registry)).eraseDups)
      else n)
  else .error (.noNode f.name)

/-- The targets of every id: the nodes come first, then the files one after the other. -/
def build (layout : Path.Layout) (files : List SourceFile) :
    Except GroupingError (List (String × List String)) :=
  files.foldlM (addFile (registry layout files)) ((ids files).map fun id => (id, []))

/-- The targets of an id. -/
def targets (edges : List (String × List String)) (id : String) : List String :=
  (edges.lookup id).getD []

/-- The ids and their includes in ascending order. -/
def digraph (files : List SourceFile) (edges : List (String × List String)) : Digraph String where
  nodes := Text.sortNames (ids files)
  successors := fun id => Text.sortNames (targets edges id)

end IncludeGraph

/-! ## Grouping -/

/-- The groups of a directory, and the cycles that were merged with the names that they got. -/
structure Grouping where
  groups : Groups
  merged : List (List String × String)

namespace Grouping

/-- The name of each component. -/
def nameComponents (files : List SourceFile) (components : List (List String)) :
    Except GroupingError (List (List String × String)) :=
  components.mapM fun component => do
    return (component, ← Group.nameOf (component.flatMap (IncludeGraph.sourcesOf files)))

/-- The name of the group that holds an id. -/
def groupOf? (named : List (List String × String)) (id : String) : Option String :=
  (named.find? fun c => c.1.contains id).map Prod.snd

/-- The groups that the files of a group depend on: from the names of the files back to their ids,
and from there along the includes. -/
def dependenciesOf (edges : List (String × List String)) (named : List (List String × String))
    (sources : List String) (name : String) : List String :=
  (((sources.map Path.stem).eraseDups.flatMap (IncludeGraph.targets edges)).filterMap
    (groupOf? named)).eraseDups.filter fun other => other != name

/-- The group of a component. -/
def groupFor (files : List SourceFile) (edges : List (String × List String))
    (named : List (List String × String)) (component : List String) (name : String) : Group where
  sources := component.flatMap (IncludeGraph.sourcesOf files)
  dependsOn := dependenciesOf edges named (component.flatMap (IncludeGraph.sourcesOf files)) name
  subGroups := if component.length > 1 then component else []

/-- The groups of all components, by name. -/
def collect (files : List SourceFile) (edges : List (String × List String))
    (named : List (List String × String)) : Groups :=
  named.foldl (fun groups c => groups.insert c.2 (groupFor files edges named c.1 c.2)) []

/-- Groups the files of a directory. -/
def ofFiles (layout : Path.Layout) (files : List SourceFile) : Except GroupingError Grouping := do
  let edges ← IncludeGraph.build layout files
  let named ← nameComponents files (IncludeGraph.digraph files edges).components
  let groups := (collect files edges named).sorted
  let _ ← Groups.fileToGroup groups
  return ⟨groups, named.filter fun c => c.1.length > 1⟩

/-- What is written about a grouping. -/
def trace (g : Grouping) : List LogLine :=
  (g.merged.map fun (ids, name) =>
    LogLine.say ("merged cyclic nodes " ++ ", ".intercalate ids ++ " into " ++ name))
  ++ [LogLine.say ("groups " ++ ", ".intercalate (g.groups.map Prod.fst))]

end Grouping

end IncludeScan
