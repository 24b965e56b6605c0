import IncludeScan.Path.Basic

/-!
# Path/Variant — the paths by which a header may be included

A package can strip directories off the paths of its headers and put others in front.  A strip path
that begins at the root counts from the repository, any other from the package; a front path without
a strip path strips the package's own directory.

A file may be included by its path in the repository, by the path that the package gives it, by its
name as listed, and by the path that each further search gives it.
-/

namespace IncludeScan.Path

/-- What is stripped off a header's path and what is put in front. -/
structure Search where
  strip : String := ""
  front : String := ""
deriving DecidableEq, Repr

/-- Where a package lies, how it names its headers, and further searches. -/
structure Layout where
  rel : String := ""
  strip : String := ""
  front : String := ""
  searches : List Search := []
deriving DecidableEq, Repr

/-- The path without a directory in front; a path outside the directory is kept. -/
def dropDirectory (dir path : String) : String :=
  if dir = "" ∨ dir = "." then path
  else if path = dir then ""
  else if (dir.toList ++ ['/']).isPrefixOf path.toList then
    String.ofList (path.toList.drop (dir.toList.length + 1))
  else path

/-- The directory that is stripped off. -/
def strippedDirectory (rel : String) (s : Search) : String :=
  if isAbsolute s.strip then String.ofList (s.strip.toList.drop 1)
  else if s.strip ≠ "" then join [rel, s.strip]
  else if s.front ≠ "" then rel
  else ""

/-- The path by which a search finds a header. -/
def transform (rel : String) (s : Search) (header : String) : String :=
  join [s.front, dropDirectory (strippedDirectory rel s) header]

/-- All paths by which a listed file may be included, each once. -/
def variants (layout : Layout) (name : String) : List String :=
  let full := join [layout.rel, name]
  let found :=
    [full, transform layout.rel ⟨layout.strip, layout.front⟩ full, name]
      ++ layout.searches.map fun s => transform layout.rel s full
  found.eraseDups.filter fun path => path != ""

/-- What an include may mean: the path as written, then the path from the including file's
directory. -/
def candidates (file target : String) : List String :=
  [target, join [directory file, target]].eraseDups

end IncludeScan.Path
