/-!
# Grouping/Digraph — the strongly connected components of a directed graph

A search goes depth-first along the edges and numbers the nodes in the order in which it discovers
them.  A discovered node waits on a stack until its component is known.  The *low link* of a node is
the smallest number of a waiting node that an edge from it, or from a node discovered below it,
leads to.  Where the low link is the node's own number, nothing older is reached: the node and all
that wait above it are one component.

So a component is listed behind all others that can be reached from it, and within a component the
node discovered last comes first.
-/

namespace IncludeScan

/-- Nodes, and the nodes to which edges lead from each. -/
structure Digraph (α : Type) where
  nodes : List α
  successors : α → List α

/-- The nodes discovered so far, oldest first; those that still wait for their component, latest
first; and the components that are complete, latest first. -/
structure Search (α : Type) where
  discovered : List α := []
  waiting : List α := []
  closed : List (List α) := []

/-- A search and the low link that it has found for the node it looks at. -/
structure Linked (α : Type) where
  search : Search α
  low : Nat

namespace Search

variable {α : Type} [DecidableEq α]

/-- The number of a discovered node: how many were discovered before it. -/
def number (s : Search α) (n : α) : Nat := s.discovered.idxOf n

/-- Discovers a node. -/
def enter (s : Search α) (n : α) : Search α :=
  { s with discovered := s.discovered ++ [n], waiting := n :: s.waiting }

/-- Takes the waiting nodes down to `n` off the stack: they are a component. -/
def close (s : Search α) (n : α) : Search α :=
  let above := s.waiting.takeWhile (· != n)
  let below := s.waiting.dropWhile (· != n)
  { s with waiting := below.drop 1, closed := (above ++ below.take 1) :: s.closed }

end Search

namespace Linked

variable {α : Type} [DecidableEq α]

/-- Looks along an edge to `m`.  A node not discovered yet is followed, and its low link counts; of
the discovered nodes only those that wait count, by their number. -/
def meet (follow : Search α → α → Linked α) (r : Linked α) (m : α) : Linked α :=
  if m ∈ r.search.discovered then
    if m ∈ r.search.waiting then { r with low := min r.low (r.search.number m) } else r
  else
    let below := follow r.search m
    ⟨below.search, min r.low below.low⟩

/-- Leaves the node `n` of that number.  If its low link is its own number, its component is
complete. -/
def leave (r : Linked α) (n : α) (number : Nat) : Linked α :=
  if r.low = number then { r with search := r.search.close n } else r

end Linked

namespace Digraph

variable {α : Type} [DecidableEq α]

/-- Searches from a node that is not discovered yet, at most `depth` edges deep. -/
def connect (g : Digraph α) : Nat → Search α → α → Linked α
  | 0, s, _ => ⟨s, s.discovered.length⟩
  | depth + 1, s, n =>
    let number := s.discovered.length
    ((g.successors n).foldl (Linked.meet (g.connect depth)) ⟨s.enter n, number⟩).leave n number

/-- Searches from a node unless it is discovered.  No path without repetition is longer than the
list of nodes. -/
def explore (g : Digraph α) (s : Search α) (n : α) : Search α :=
  if n ∈ s.discovered then s else (g.connect g.nodes.length s n).search

/-- The components of the graph. -/
def components (g : Digraph α) : List (List α) :=
  (g.nodes.foldl g.explore {}).closed.reverse

end Digraph

end IncludeScan
