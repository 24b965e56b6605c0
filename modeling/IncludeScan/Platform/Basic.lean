import IncludeScan.Text.Units

/-!
# Platform/Basic — operating system and architecture

A platform is a pair of names.  An empty name on one side stands for every value there.
-/

namespace IncludeScan

/-- An operating system and an architecture. -/
structure Platform where
  os : String
  arch : String
deriving DecidableEq, Repr

namespace Platform

/-- The platform as one text. -/
def key (p : Platform) : String := p.os ++ "/" ++ p.arch

/-- The order of two names. -/
def compareNames (a b : String) : Ordering :=
  if a = b then .eq else if Text.unitsLT a b then .lt else .gt

/-- Platforms are ordered by operating system, then by architecture. -/
def compare (a b : Platform) : Ordering :=
  (compareNames a.os b.os).then (compareNames a.arch b.arch)

/-- The platforms in ascending order. -/
def sort (platforms : List Platform) : List Platform :=
  platforms.mergeSort fun a b => (compare a b).isLE

end Platform

end IncludeScan
