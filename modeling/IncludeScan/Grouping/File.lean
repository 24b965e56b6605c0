import IncludeScan.Path.Variant

/-!
# Grouping/File — the files of a directory as grouping sees them

A header and the file that implements it share the name up to the extension, their *group id*.
-/

namespace IncludeScan

/-- A header, or anything else. -/
inductive FileKind where
  | header
  | source
deriving DecidableEq, Repr

namespace FileKind

/-- The name of a kind of file. -/
def name : FileKind → String
  | .header => "header"
  | .source => "source"

/-- The extensions of headers. -/
def headerExtensions : List String := [".h", ".hh", ".hpp", ".hxx"]

/-- The kind of a file by its name. -/
def ofFile (file : String) : FileKind :=
  if headerExtensions.contains (Path.extension file) then .header else .source

end FileKind

/-- The file is a header. -/
def isHeader (file : String) : Bool := FileKind.ofFile file == .header

/-- A listed file and, for each of its includes, the paths that it may mean, to be tried in
order. -/
structure SourceFile where
  name : String
  includes : List (List String)
deriving DecidableEq, Repr

namespace SourceFile

/-- A file with the paths that it includes in quotes. -/
def ofQuoted (name : String) (quoted : List String) : SourceFile :=
  ⟨name, quoted.map (Path.candidates name)⟩

/-- The id that a file shares with its header. -/
def groupId (f : SourceFile) : String := Path.stem f.name

end SourceFile

end IncludeScan
