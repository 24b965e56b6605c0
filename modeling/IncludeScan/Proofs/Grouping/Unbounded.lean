import IncludeScan.Proofs.Grouping.Components

/-!
# Proofs/Grouping/Unbounded — the component search as deep as it goes

The search carries a bound on its depth.  `Sees` is the search without one: a relation that follows
each edge as deep as it leads, and that holds of a search only if it comes to its end.  It holds of
at most one (`Sees.unique`), and of the search with the bound, as long as the bound is no less than
the number of nodes that are left (`unhindered`).

`components_classes` — the search ends, with the classes of mutual reachability, each behind those
that it leads to.
-/

namespace IncludeScan

namespace Digraph

variable {α : Type} [DecidableEq α]

/-! ## Searching without a bound -/

/-- **The search looks along edges, and along all that it discovers there**, and comes to an end. -/
inductive Sees (g : Digraph α) : List α → Linked α → Linked α → Prop
  | nil (r : Linked α) : Sees g [] r r
  | waiting {m : α} {ms : List α} {r r' : Linked α} (hd : m ∈ r.search.discovered)
      (hw : m ∈ r.search.waiting)
      (rest : Sees g ms { r with low := min r.low (r.search.number m) } r') :
      Sees g (m :: ms) r r'
  | closed {m : α} {ms : List α} {r r' : Linked α} (hd : m ∈ r.search.discovered)
      (hw : m ∉ r.search.waiting) (rest : Sees g ms r r') : Sees g (m :: ms) r r'
  | followed {m : α} {ms : List α} {r below left r' : Linked α} (hd : m ∉ r.search.discovered)
      (inner : Sees g (g.successors m) ⟨r.search.enter m, r.search.discovered.length⟩ below)
      (hleft : left = below.leave m r.search.discovered.length)
      (rest : Sees g ms ⟨left.search, min r.low left.low⟩ r') : Sees g (m :: ms) r r'

/-- **The search goes through a list of nodes**, from each that it has not discovered. -/
inductive Explores (g : Digraph α) : List α → Search α → Search α → Prop
  | nil (s : Search α) : Explores g [] s s
  | old {n : α} {ns : List α} {s t : Search α} (hn : n ∈ s.discovered) (rest : Explores g ns s t) :
      Explores g (n :: ns) s t
  | new {n : α} {ns : List α} {s t : Search α} {r : Linked α} (hn : n ∉ s.discovered)
      (inner : Sees g (g.successors n) ⟨s.enter n, s.discovered.length⟩ r)
      (rest : Explores g ns (r.leave n s.discovered.length).search t) : Explores g (n :: ns) s t

/-- The search without a bound ends and finds these components. -/
def Finds (g : Digraph α) (components : List (List α)) : Prop :=
  ∃ t, Explores g g.nodes {} t ∧ components = t.closed.reverse

variable {g : Digraph α}

/-- **The search ends in one way.** -/
theorem Sees.unique {ms : List α} {r a b : Linked α} (h : g.Sees ms r a) (h' : g.Sees ms r b) :
    a = b := by
  induction h generalizing b with
  | nil r =>
    cases h'
    rfl
  | waiting hd hw _ ih =>
    cases h' with
    | waiting _ _ rest => exact ih rest
    | closed _ hw' => exact absurd hw hw'
    | followed hd' => exact absurd hd hd'
  | closed hd hw _ ih =>
    cases h' with
    | waiting _ hw' => exact absurd hw' hw
    | closed _ _ rest => exact ih rest
    | followed hd' => exact absurd hd hd'
  | followed hd _ hleft _ ihinner ih =>
    cases h' with
    | waiting hd' => exact absurd hd' hd
    | closed hd' => exact absurd hd' hd
    | followed _ inner hleft' rest =>
      obtain rfl := ihinner inner
      obtain rfl := hleft.trans hleft'.symm
      exact ih rest

theorem Explores.unique {ns : List α} {s t u : Search α} (h : g.Explores ns s t)
    (h' : g.Explores ns s u) :
    t = u := by
  induction h generalizing u with
  | nil s =>
    cases h'
    rfl
  | old hn _ ih =>
    cases h' with
    | old _ rest => exact ih rest
    | new hn' => exact absurd hn hn'
  | new hn inner _ ih =>
    cases h' with
    | old hn' => exact absurd hn' hn
    | new _ inner' rest =>
      obtain rfl := inner.unique inner'
      exact ih rest

/-! ## The bound is never met -/

/-- The search with a bound is one without, from every node that it can enter while so many are
left. -/
def Unhindered (g : Digraph α) (depth : Nat) : Prop :=
  ∀ path s n, Enters g path s n → g.nodes.length ≤ depth + s.discovered.length →
    ∃ below, g.Sees (g.successors n) ⟨s.enter n, s.discovered.length⟩ below
      ∧ g.connect depth s n = below.leave n s.discovered.length

section

variable {path : List α} {s : Search α} {n : α} {depth : Nat} (hg : g.EdgesInside)
  (hu : Unhindered g depth) (hs : Enters g path s n)
  (hdepth : g.nodes.length ≤ depth + 1 + s.discovered.length)

include hg hu hs hdepth

/-- **Looking along the edges of a node with a bound** is looking along them without. -/
theorem sees_foldl_meet : ∀ (ms seen : List α) (r : Linked α), Scanned g path s n seen r →
    (∀ m ∈ ms, g.Edge n m) → g.Sees ms r (ms.foldl (Linked.meet (g.connect depth)) r)
  | [], _, r, _, _ => .nil r
  | m :: ms, seen, r, h, he => by
      obtain ⟨hm, hms⟩ := List.forall_mem_cons.1 he
      have hrest :=
        sees_foldl_meet ms (m :: seen) _ (h.meet hg (follows_connect hg depth) hs hdepth hm) hms
      rw [List.foldl_cons]
      generalize ms.foldl _ _ = r' at hrest ⊢
      by_cases hd : m ∈ r.search.discovered
      · rw [Linked.meet, if_pos hd] at hrest
        by_cases hw : m ∈ r.search.waiting
        · rw [if_pos hw] at hrest
          exact .waiting hd hw hrest
        · rw [if_neg hw] at hrest
          exact .closed hd hw hrest
      · have hlen := h.length_discovered_lt
        obtain ⟨below, hbelow, hleft⟩ := hu (n :: path) r.search m (h.enters hg hs hm hd) (by omega)
        rw [Linked.meet, if_neg hd] at hrest
        exact .followed hd hbelow hleft hrest

end

/-- **A bound of as many edges as nodes are left is no bound.** -/
theorem unhindered (hg : g.EdgesInside) : ∀ depth, Unhindered g depth
  | 0 => fun path s n hs hdepth => by
      have hlt := hs.length_discovered_lt hs.mem hs.new
      omega
  | depth + 1 => fun path s n hs hdepth =>
      ⟨_, sees_foldl_meet hg (unhindered hg depth) hs hdepth (g.successors n) [] _
        (.enter hs) fun _ hm => hm, rfl⟩

theorem explores_foldl (hg : g.EdgesInside) : ∀ (ns : List α) (s : Search α), Exploring g [] s →
    ns ⊆ g.nodes → g.Explores ns s (ns.foldl g.explore s)
  | [], s, _, _ => .nil s
  | n :: ns, s, hs, hns => by
      obtain ⟨hn, hns⟩ := List.cons_subset.1 hns
      have hrest := explores_foldl hg ns (g.explore s n) (exploring_explore hg hs hn).1 hns
      rw [List.foldl_cons]
      generalize ns.foldl _ _ = t at hrest ⊢
      by_cases hd : n ∈ s.discovered
      · rw [explore, if_pos hd] at hrest
        exact .old hd hrest
      · obtain ⟨below, hbelow, hleft⟩ :=
          unhindered hg g.nodes.length [] s n ⟨hs, hn, hd, by simp⟩ (by omega)
        rw [explore, if_neg hd, hleft] at hrest
        exact .new hd hbelow hrest

/-- **The search without a bound ends, and finds the components.** -/
theorem finds_iff (hg : g.EdgesInside) {components : List (List α)} :
    g.Finds components ↔ components = g.components := by
  have hall := explores_foldl hg g.nodes {} (.empty g) (List.Subset.refl _)
  constructor
  · rintro ⟨t, ht, rfl⟩
    rw [ht.unique hall]
    rfl
  · rintro rfl
    exact ⟨_, hall, rfl⟩

/-! ## The components, one behind the other -/

/-- **Edges lead into the own component or into one listed before.** -/
theorem mem_or_exists_of_edge (hg : g.EdgesInside) {earlier later : List (List α)} {c : List α}
    (h : g.components = earlier ++ c :: later) {m n : α} (hm : m ∈ c) (he : g.Edge m n) :
    n ∈ c ∨ ∃ d ∈ earlier, n ∈ d := by
  have hclosed : (g.nodes.foldl g.explore {}).closed = later.reverse ++ c :: earlier.reverse := by
    rw [← List.reverse_reverse (g.nodes.foldl g.explore {}).closed]
    have hrev := congrArg List.reverse h
    rwa [List.reverse_append, List.reverse_cons, List.append_assoc] at hrev
  have hn :=
    (exploring_nodes hg).1.descend c earlier.reverse (hclosed ▸ List.suffix_append _ _) m hm n he
  rw [List.flatten_cons, List.mem_append, List.mem_flatten] at hn
  simpa only [List.mem_reverse] using hn

/-- Two nodes are listed together exactly if each reaches the other. -/
theorem exists_mem_components_iff (hg : g.EdgesInside) {m n : α} (hm : m ∈ g.nodes) :
    (∃ c ∈ g.components, m ∈ c ∧ n ∈ c) ↔ g.Mutual m n := by
  constructor
  · rintro ⟨c, hc, hmc, hnc⟩
    exact ((isComponent_of_mem hg hc).mem_iff m hmc n).1 hnc
  · intro hmutual
    obtain ⟨c, hc, hmc⟩ := List.mem_flatten.1 ((mem_flatten_components hg).2 hm)
    exact ⟨c, hc, hmc, ((isComponent_of_mem hg hc).mem_iff m hmc n).2 hmutual⟩

/-- **The strongly connected components.**  If the edges of nodes lead to nodes, the search ends
however deep it has to go, and what it finds lists each node once, in one list, and nothing else.
Two nodes are in one list exactly if each reaches the other, and an edge out of a list leads into
one that is listed before. -/
theorem components_classes (hg : g.EdgesInside) :
    (∀ components, g.Finds components ↔ components = g.components)
    ∧ (∀ n, g.components.flatten.count n = if n ∈ g.nodes then 1 else 0)
    ∧ (∀ c ∈ g.components, c ≠ [])
    ∧ (∀ m ∈ g.nodes, ∀ n ∈ g.nodes,
        (∃ c ∈ g.components, m ∈ c ∧ n ∈ c) ↔ g.Reach m n ∧ g.Reach n m)
    ∧ ∀ earlier c later, g.components = earlier ++ c :: later →
        ∀ m ∈ c, ∀ n, g.Edge m n → n ∈ c ∨ ∃ d ∈ earlier, n ∈ d := by
  refine ⟨fun _ => finds_iff hg, fun n => ?_, fun c hc => (isComponent_of_mem hg hc).ne_nil,
    fun m hm n _ => exists_mem_components_iff hg hm,
    fun _ _ _ h m hm n => mem_or_exists_of_edge hg h hm⟩
  simp only [(nodup_flatten_components hg).count, mem_flatten_components hg]

/-- A cycle of two nodes that leads to another, beside a node that leads to itself. -/
theorem components_classes_two_cycles :
    Finds ⟨["a", "b", "c", "d"], fun n => if n = "a" then ["b"] else if n = "b" then ["a", "d"]
      else if n = "c" then ["c"] else ["d"]⟩ [["d"], ["b", "a"], ["c"]]
    ∧ ∃ d ∈ [["d"]], "d" ∈ d := by
  have hinside :
      EdgesInside ⟨["a", "b", "c", "d"], fun n => if n = "a" then ["b"]
        else if n = "b" then ["a", "d"]
      else if n = "c" then ["c"] else ["d"]⟩ := by
    unfold EdgesInside Edge
    decide
  obtain ⟨hfinds, -, -, -, hedge⟩ := components_classes hinside
  refine ⟨(hfinds _).2 (by decide), ?_⟩
  exact (hedge [["d"]] ["b", "a"] [["c"]] (by decide) "b" (by decide) "d"
    (by unfold Edge; decide)).resolve_left
    (by decide)

end Digraph

end IncludeScan
