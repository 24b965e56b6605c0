import IncludeScan.Text.Space

/-!
# Path/Basic — slash-separated paths as text

`join` puts segments together and cleans the result: empty and `.` components go, `..` takes away
the component before it, and there is no slash at the end.  At the beginning of a relative path `..`
stays; at the root it goes.  A relative path of no components is `.`, and no segments at all are the
empty text.

`directory`, `base` and `extension` take a path as it is written, without cleaning it.
-/

namespace IncludeScan.Path

/-- The path begins at the root. -/
def isAbsolute (path : String) : Bool := path.toList.head? == some '/'

/-- The texts between slashes, empty ones included. -/
def components (path : String) : List String := Text.splitAt '/' path

/-- The components so far, latest first, and one more. -/
def resolveStep (absolute : Bool) (above : List String) (component : String) : List String :=
  if component = "" ∨ component = "." then above
  else if component = ".." then
    match above with
    | [] => if absolute then [] else [".."]
    | top :: below => if top = ".." then ".." :: above else below
  else component :: above

/-- The components that are left when `.` and `..` have done their work. -/
def resolve (absolute : Bool) (cs : List String) : List String :=
  (cs.foldl (resolveStep absolute) []).reverse

/-- Components as a path. -/
def render (absolute : Bool) (cs : List String) : String :=
  if absolute then "/" ++ "/".intercalate cs
  else if cs.isEmpty then "."
  else "/".intercalate cs

/-- The shortest path to the same place. -/
def clean (path : String) : String :=
  render (isAbsolute path) (resolve (isAbsolute path) (components path))

/-- The segments as one clean path; empty segments are skipped. -/
def join (segments : List String) : String :=
  let parts := segments.filter fun s => s != ""
  if parts.isEmpty then "" else clean ("/".intercalate parts)

/-! ## Parts of a path

The last component is found from the end, where slashes are skipped; so these work on the characters
in reverse. -/

/-- The characters in reverse, without slashes at the end of the path. -/
def reversed (path : String) : List Char := path.toList.reverse.dropWhile (· == '/')

/-- The last component; empty for a path of slashes. -/
def base (path : String) : String :=
  String.ofList ((reversed path).takeWhile (· != '/')).reverse

/-- All in front of the last component and one slash.  A path of one component lies in `.`, or at
the root if it is absolute; directly behind two slashes it lies in `//`. -/
def directory (path : String) : String :=
  match (reversed path).dropWhile (· != '/') with
  | [] | [_] => if isAbsolute path then "/" else "."
  | _ :: front =>
    if isAbsolute path ∧ front.length = 1 then "//" else String.ofList front.reverse

/-- The last component from its last dot on.  A dot in front of all else makes no extension, and the
component `..` has none. -/
def extension (path : String) : String :=
  let name := (base path).toList
  let ending := (name.reverse.takeWhile (· != '.')).reverse
  if ending.length + 1 < name.length ∧ name ≠ ['.', '.'] then String.ofList ('.' :: ending) else ""

/-- The last component without its extension. -/
def stem (path : String) : String :=
  let name := (base path).toList
  String.ofList (name.take (name.length - (extension path).length))

end IncludeScan.Path
