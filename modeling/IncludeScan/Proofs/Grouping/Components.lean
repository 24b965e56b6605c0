import IncludeScan.Grouping.Digraph
import Mathlib.Data.List.Nodup
import Mathlib.Data.List.Perm.Subperm
import Mathlib.Data.List.Infix
import Mathlib.Logic.Relation

/-!
# Proofs/Grouping/Components — the component search finds the classes of mutual reachability

While the search is at a node it has a **path**: the nodes that it has entered and not left.  Two
facts about the path carry the proof (`Exploring`): every waiting node reaches a node of the path
that is no younger (`back`), and every node of the path reaches all waiting nodes that are no older
(`down`).  So when the search leaves a node, all that waits above it goes round with it; and if its
low link is its own number, no edge leads from there to anything older that waits, so nothing else
does.

`isComponent_of_mem`, `nodup_flatten_components` and `mem_flatten_components` say what the
components are; nothing else is known of them elsewhere.
-/

namespace IncludeScan

namespace Digraph

variable {α : Type} (g : Digraph α)

/-- An edge leads from `m` to `n`. -/
def Edge (m n : α) : Prop := n ∈ g.successors m

/-- `n` can be reached from `m`, along no edges or more. -/
def Reach : α → α → Prop := Relation.ReflTransGen g.Edge

/-- Each of two nodes reaches the other. -/
def Mutual (m n : α) : Prop := g.Reach m n ∧ g.Reach n m

/-- The edges of a node lead to nodes. -/
def EdgesInside : Prop := ∀ m ∈ g.nodes, ∀ n, g.Edge m n → n ∈ g.nodes

/-- A component: some nodes, and with each of them just those that are mutually reachable from
it. -/
structure IsComponent (c : List α) : Prop where
  ne_nil : c ≠ []
  mem_iff : ∀ m ∈ c, ∀ n, n ∈ c ↔ g.Mutual m n

variable {g}

theorem Mutual.symm {m n : α} (h : g.Mutual m n) : g.Mutual n m := ⟨h.2, h.1⟩

theorem Mutual.trans {k m n : α} (h : g.Mutual k m) (h' : g.Mutual m n) : g.Mutual k n :=
  ⟨h.1.trans h'.1, h'.2.trans h.2⟩

/-- A list that is the class of one of its members is the class of them all. -/
theorem IsComponent.of_mem {c : List α} {n : α} (hn : n ∈ c) (h : ∀ m, m ∈ c ↔ g.Mutual n m) :
    g.IsComponent c where
  ne_nil := List.ne_nil_of_mem hn
  mem_iff m hm k := by
    have hnm : g.Mutual n m := (h m).1 hm
    rw [h k]
    exact ⟨hnm.symm.trans, hnm.trans⟩

end Digraph

/-! ## Numbers

A node keeps its number while the search goes on, and the waiting nodes stand in order of their
numbers. -/

namespace Search

variable {α : Type} [DecidableEq α] {s t : Search α}

theorem number_lt {n : α} (h : n ∈ s.discovered) : s.number n < s.discovered.length :=
  List.idxOf_lt_length_iff.2 h

theorem number_eq_of_grown (h : s.discovered <+: t.discovered) {n : α} (hn : n ∈ s.discovered) :
    t.number n = s.number n := by
  obtain ⟨later, h⟩ := h
  rw [number, number, ← h, List.idxOf_append_of_mem hn]

theorem number_enter_self {n : α} (h : n ∉ s.discovered) :
    (s.enter n).number n = s.discovered.length := by
  rw [number, enter, List.idxOf_append_of_notMem h]
  simp

/-- **Numbers grow along the discovered nodes.** -/
theorem pairwise_number (h : s.discovered.Nodup) :
    s.discovered.Pairwise fun m n => s.number m < s.number n := by
  rw [List.pairwise_iff_getElem]
  intro i j hi hj hij
  rwa [number, number, h.idxOf_getElem, h.idxOf_getElem]

/-- What stands above on the stack has the larger number. -/
theorem number_lt_of_waiting (hd : s.discovered.Nodup) (hw : s.waiting.reverse.Sublist s.discovered)
    {above below : List α} (h : s.waiting = above ++ below) {m n : α} (hm : m ∈ above)
    (hn : n ∈ below) : s.number n < s.number m := by
  have hp := (pairwise_number hd).sublist hw
  rw [h, List.reverse_append, List.pairwise_append] at hp
  exact hp.2.2 n (List.mem_reverse.2 hn) m (List.mem_reverse.2 hm)

/-- Closing a node takes it, and what stands above it, off the stack. -/
theorem close_eq {n : α} {above below : List α} (h : s.waiting = above ++ n :: below)
    (hn : n ∉ above) :
    s.close n = { s with waiting := below, closed := (above ++ [n]) :: s.closed } := by
  have hall : ∀ m ∈ above, (m != n) = true := fun m hm => by
    simpa using fun he : m = n => hn (he ▸ hm)
  have ht : s.waiting.takeWhile (· != n) = above := by
    rw [h, List.takeWhile_append_of_pos hall]
    simp
  have hd : s.waiting.dropWhile (· != n) = n :: below := by
    rw [h, List.dropWhile_append_of_pos hall]
    simp
  rw [close, ht, hd]
  rfl

end Search

namespace Digraph

variable {α : Type} [DecidableEq α] {g : Digraph α}

/-! ## The search on its path -/

/-- **What holds of a search while it is at the nodes of `path`.** -/
structure Exploring (g : Digraph α) (path : List α) (s : Search α) : Prop where
  nodup : s.discovered.Nodup
  inside : s.discovered ⊆ g.nodes
  /-- Each discovered node waits or is in a closed component. -/
  perm : s.discovered.Perm (s.waiting ++ s.closed.flatten)
  ordered : s.waiting.reverse.Sublist s.discovered
  path_waits : path ⊆ s.waiting
  /-- All edges of a node that the search has left are followed. -/
  followed : ∀ m ∈ s.discovered, m ∉ path → ∀ n, g.Edge m n → n ∈ s.discovered
  back : ∀ m ∈ s.waiting, ∃ p ∈ path, s.number p ≤ s.number m ∧ g.Reach m p
  down : ∀ p ∈ path, ∀ m ∈ s.waiting, s.number p ≤ s.number m → g.Reach p m
  isComponent : ∀ c ∈ s.closed, g.IsComponent c
  /-- Edges of a closed component lead into it, or into one that was closed before. -/
  descend : ∀ c earlier, c :: earlier <:+ s.closed → ∀ m ∈ c, ∀ n, g.Edge m n →
    n ∈ (c :: earlier).flatten

namespace Exploring

variable {path : List α} {s : Search α}

theorem empty (g : Digraph α) : Exploring g [] {} where
  nodup := List.nodup_nil
  inside := List.nil_subset _
  perm := List.Perm.refl _
  ordered := List.Sublist.refl _
  path_waits := List.nil_subset _
  followed := by simp
  back := by simp
  down := by simp
  isComponent := by simp
  descend := by simp

theorem mem_discovered_iff (h : Exploring g path s) {n : α} :
    n ∈ s.discovered ↔ n ∈ s.waiting ∨ n ∈ s.closed.flatten := by
  rw [h.perm.mem_iff, List.mem_append]

theorem discovered_of_waiting (h : Exploring g path s) {n : α} (hn : n ∈ s.waiting) :
    n ∈ s.discovered :=
  h.mem_discovered_iff.2 (Or.inl hn)

theorem notMem_closed (h : Exploring g path s) {n : α} (hn : n ∈ s.waiting) :
    n ∉ s.closed.flatten :=
  List.disjoint_of_nodup_append (h.perm.nodup h.nodup) hn

theorem nodup_waiting (h : Exploring g path s) : s.waiting.Nodup :=
  (List.nodup_append.1 (h.perm.nodup h.nodup)).1

/-- **No edge leads out of the closed components.** -/
theorem closed_edge (h : Exploring g path s) {m n : α} (hm : m ∈ s.closed.flatten)
    (he : g.Edge m n) : n ∈ s.closed.flatten := by
  obtain ⟨c, hc, hmc⟩ := List.mem_flatten.1 hm
  obtain ⟨later, earlier, hsplit⟩ := List.append_of_mem hc
  have hn := h.descend c earlier (hsplit ▸ List.suffix_append _ _) m hmc n he
  rw [hsplit, List.flatten_append]
  exact List.mem_append_right _ hn

theorem closed_reach (h : Exploring g path s) {m n : α} (hm : m ∈ s.closed.flatten)
    (hr : g.Reach m n) : n ∈ s.closed.flatten := by
  induction hr with
  | refl => exact hm
  | tail _ he ih => exact h.closed_edge ih he

/-- With an empty path nothing waits. -/
theorem waiting_eq_nil (h : Exploring g [] s) : s.waiting = [] := by
  refine List.eq_nil_iff_forall_not_mem.2 fun n hn => ?_
  obtain ⟨p, hp, -⟩ := h.back n hn
  exact absurd hp List.not_mem_nil

/-- The fuel is enough: some node is left to discover, so the discovered ones are fewer. -/
theorem length_discovered_lt (h : Exploring g path s) {n : α} (hn : n ∈ g.nodes)
    (hnew : n ∉ s.discovered) : s.discovered.length < g.nodes.length := by
  have hsub : (n :: s.discovered).Subperm g.nodes :=
    List.subperm_of_subset (List.nodup_cons.2 ⟨hnew, h.nodup⟩) (List.cons_subset.2 ⟨hn, h.inside⟩)
  exact hsub.length_le

/-- **Entering a node** that the whole path reaches puts it on the path. -/
theorem enter (h : Exploring g path s) {n : α} (hn : n ∈ g.nodes) (hnew : n ∉ s.discovered)
    (hpath : ∀ p ∈ path, g.Reach p n) : Exploring g (n :: path) (s.enter n) := by
  have hkeep : ∀ m ∈ s.discovered, (s.enter n).number m = s.number m := fun m hm =>
    Search.number_eq_of_grown (List.prefix_append _ _) hm
  have hself := Search.number_enter_self hnew
  have hlt : ∀ m ∈ s.waiting, (s.enter n).number m < (s.enter n).number n := fun m hm => by
    rw [hself, hkeep m (h.discovered_of_waiting hm)]
    exact Search.number_lt (h.discovered_of_waiting hm)
  refine ⟨?_, ?_, ?_, ?_, ?_, ?_, ?_, ?_, h.isComponent, h.descend⟩
  · exact List.nodup_append.2 ⟨h.nodup, List.nodup_singleton n,
      fun a ha b hb => by rintro rfl; exact hnew (List.mem_singleton.1 hb ▸ ha)⟩
  · exact List.append_subset.2 ⟨h.inside, List.cons_subset.2 ⟨hn, List.nil_subset _⟩⟩
  · exact (List.perm_append_singleton n _).trans (h.perm.cons n)
  · rw [Search.enter, List.reverse_cons]
    exact h.ordered.append (List.Sublist.refl _)
  · exact List.cons_subset.2
      ⟨List.mem_cons_self, fun p hp => List.mem_cons_of_mem n (h.path_waits hp)⟩
  · intro m hm hmp k hk
    have hm' : m ∈ s.discovered := by
      rcases List.mem_append.1 hm with hm | hm
      · exact hm
      · exact absurd (List.mem_singleton.1 hm ▸ List.mem_cons_self) hmp
    exact List.mem_append_left _
      (h.followed m hm' (fun hp => hmp (List.mem_cons_of_mem n hp)) k hk)
  · intro m hm
    rcases List.mem_cons.1 hm with rfl | hm
    · exact ⟨m, List.mem_cons_self, le_rfl, Relation.ReflTransGen.refl⟩
    · obtain ⟨p, hp, hle, hr⟩ := h.back m hm
      refine ⟨p, List.mem_cons_of_mem n hp, ?_, hr⟩
      rw [hkeep p (h.discovered_of_waiting (h.path_waits hp)),
        hkeep m (h.discovered_of_waiting hm)]
      exact hle
  · intro p hp m hm hle
    rcases List.mem_cons.1 hp with rfl | hp' <;> rcases List.mem_cons.1 hm with rfl | hm'
    · exact Relation.ReflTransGen.refl
    · exact absurd (hlt m hm') (by omega)
    · exact hpath p hp'
    · rw [hkeep p (h.discovered_of_waiting (h.path_waits hp')),
        hkeep m (h.discovered_of_waiting hm')] at hle
      exact h.down p hp' m hm' hle

end Exploring

/-! ## From entering a node to leaving it

`s` is the search before it enters `n`; everything that it puts on the stack meanwhile stands above
what waits in `s`. -/

/-- **The search can enter `n`**, a new node that the whole path reaches. -/
structure Enters (g : Digraph α) (path : List α) (s : Search α) (n : α) : Prop
    extends Exploring g path s where
  mem : n ∈ g.nodes
  new : n ∉ s.discovered
  reach : ∀ p ∈ path, g.Reach p n

/-- **A low link of `n`**: no edge leads from the nodes `above` to anything older that waits, and
the link is the number of `n` itself or of an older waiting node that `n` reaches. -/
structure LowLink (g : Digraph α) (s : Search α) (n : α) (above : List α) (low : Nat) : Prop where
  least : ∀ m ∈ above, ∀ p ∈ s.waiting, g.Edge m p → low ≤ s.number p
  attained : low = s.discovered.length ∨ ∃ p ∈ s.waiting, s.number p = low ∧ g.Reach n p

/-- The search at `n`, which has looked along the edges to `seen`. -/
structure Scanned (g : Digraph α) (path : List α) (s : Search α) (n : α) (seen : List α)
    (r : Linked α) : Prop where
  exploring : Exploring g (n :: path) r.search
  grown : (s.enter n).discovered <+: r.search.discovered
  link : ∃ above, r.search.waiting = above ++ n :: s.waiting ∧ LowLink g s n above r.low
  seen : ∀ m ∈ seen, m ∈ r.search.discovered ∧ (m ∈ s.waiting → r.low ≤ s.number m)

/-- **The search that has left `n`.** -/
structure Connected (g : Digraph α) (path : List α) (s : Search α) (n : α) (r : Linked α) :
    Prop where
  exploring : Exploring g path r.search
  grown : (s.enter n).discovered <+: r.search.discovered
  link : ∃ above, r.search.waiting = above ++ s.waiting ∧ LowLink g s n above r.low

theorem LowLink.mono {s : Search α} {n : α} {above : List α} {low low' : Nat}
    (h : LowLink g s n above low) (hle : low' ≤ low)
    (ha : low' = low ∨ ∃ p ∈ s.waiting, s.number p = low' ∧ g.Reach n p) :
    LowLink g s n above low' where
  least m hm p hp he := hle.trans (h.least m hm p hp he)
  attained := by
    rcases ha with rfl | ha
    · exact h.attained
    · exact Or.inr ha

namespace Scanned

variable {path : List α} {s : Search α} {n : α} {seen : List α} {r : Linked α}

theorem grown_old (h : Scanned g path s n seen r) : s.discovered <+: r.search.discovered :=
  (List.prefix_append _ _).trans h.grown

theorem number_old (h : Scanned g path s n seen r) {m : α} (hm : m ∈ s.discovered) :
    r.search.number m = s.number m :=
  Search.number_eq_of_grown h.grown_old hm

theorem number_self (h : Scanned g path s n seen r) (hs : Enters g path s n) :
    r.search.number n = s.discovered.length := by
  rw [Search.number_eq_of_grown h.grown (List.mem_append_right _ List.mem_cons_self),
    Search.number_enter_self hs.new]

theorem waiting_of_old (h : Scanned g path s n seen r) {m : α} (hm : m ∈ s.waiting) :
    m ∈ r.search.waiting := by
  obtain ⟨above, hw, -⟩ := h.link
  rw [hw]
  exact List.mem_append_right _ (List.mem_cons_of_mem n hm)

/-- A waiting node with a smaller number than `n` waited before. -/
theorem old_of_number_lt (h : Scanned g path s n seen r) (hs : Enters g path s n) {m : α}
    (hm : m ∈ r.search.waiting) (hlt : r.search.number m < s.discovered.length) :
    m ∈ s.waiting := by
  obtain ⟨above, hw, -⟩ := h.link
  have hself := h.number_self hs
  rw [hw] at hm
  rcases List.mem_append.1 hm with hm | hm
  · have := Search.number_lt_of_waiting h.exploring.nodup h.exploring.ordered hw hm
      List.mem_cons_self
    omega
  · rcases List.mem_cons.1 hm with rfl | hm
    · omega
    · exact hm

theorem low_le (h : Scanned g path s n seen r) (hs : Enters g path s n) :
    r.low ≤ s.discovered.length := by
  obtain ⟨above, -, hl⟩ := h.link
  rcases hl.attained with h | ⟨p, hp, h, -⟩
  · omega
  · have := Search.number_lt (hs.discovered_of_waiting hp)
    omega

/-- **An edge to a discovered node that waits.** -/
theorem meet_waiting (h : Scanned g path s n seen r) (hs : Enters g path s n) {m : α}
    (he : g.Edge n m) (hm : m ∈ r.search.waiting) :
    Scanned g path s n (m :: seen) { r with low := min r.low (r.search.number m) } where
  exploring := h.exploring
  grown := h.grown
  link := by
    obtain ⟨above, hw, hl⟩ := h.link
    refine ⟨above, hw, hl.mono (min_le_left _ _) ?_⟩
    rcases le_or_gt r.low (r.search.number m) with hle | hlt
    · exact Or.inl (min_eq_left hle)
    · have hold := h.old_of_number_lt hs hm (hlt.trans_le (h.low_le hs))
      refine Or.inr ⟨m, hold, ?_, Relation.ReflTransGen.single he⟩
      rw [min_eq_right hlt.le, h.number_old (hs.discovered_of_waiting hold)]
  seen k hk := by
    rcases List.mem_cons.1 hk with rfl | hk
    · refine ⟨h.exploring.discovered_of_waiting hm, fun hold => ?_⟩
      rw [← h.number_old (hs.discovered_of_waiting hold)]
      exact min_le_right _ _
    · exact ⟨(h.seen k hk).1, fun hold => (min_le_left _ _).trans ((h.seen k hk).2 hold)⟩

/-- **An edge to a node of a closed component** changes nothing. -/
theorem meet_closed (h : Scanned g path s n seen r) {m : α} (hm : m ∈ r.search.discovered)
    (hw : m ∉ r.search.waiting) : Scanned g path s n (m :: seen) r :=
  { h with
    seen := fun k hk => by
      rcases List.mem_cons.1 hk with rfl | hk
      · exact ⟨hm, fun hold => absurd (h.waiting_of_old hold) hw⟩
      · exact h.seen k hk }

/-- **An edge to a node that is followed**: its low link counts. -/
theorem meet_followed (h : Scanned g path s n seen r) (hs : Enters g path s n) {m : α}
    (he : g.Edge n m) (hm : m ∉ r.search.discovered)
    {below : Linked α} (hc : Connected g (n :: path) r.search m below) :
    Scanned g path s n (m :: seen) ⟨below.search, min r.low below.low⟩ := by
  have hgrown : r.search.discovered <+: below.search.discovered :=
    (List.prefix_append _ _).trans hc.grown
  obtain ⟨above, hw, hl⟩ := h.link
  obtain ⟨above', hw', hl'⟩ := hc.link
  refine ⟨hc.exploring, h.grown.trans hgrown, ⟨above' ++ above, by rw [hw', hw, List.append_assoc],
    ⟨?_, ?_⟩⟩, ?_⟩
  · intro k hk p hp hkp
    rcases List.mem_append.1 hk with hk | hk
    · have hle := hl'.least k hk p (h.waiting_of_old hp) hkp
      rw [h.number_old (hs.discovered_of_waiting hp)] at hle
      exact (min_le_right _ _).trans hle
    · exact (min_le_left _ _).trans (hl.least k hk p hp hkp)
  · rcases le_or_gt r.low below.low with hle | hlt
    · rw [min_eq_left hle]
      exact hl.attained
    · rw [min_eq_right hlt.le]
      have hlow := h.low_le hs
      have hlen := h.grown_old.length_le
      rcases hl'.attained with hown | ⟨p, hp, hnum, hr⟩
      · omega
      · have hold := h.old_of_number_lt hs hp (by omega)
        refine Or.inr ⟨p, hold, ?_, Relation.ReflTransGen.head he hr⟩
        rw [← hnum, h.number_old (hs.discovered_of_waiting hold)]
  · intro k hk
    rcases List.mem_cons.1 hk with rfl | hk
    · exact ⟨hc.grown.subset (List.mem_append_right _ List.mem_cons_self),
        fun hold => absurd (h.exploring.discovered_of_waiting (h.waiting_of_old hold)) hm⟩
    · exact ⟨hgrown.subset (h.seen k hk).1,
        fun hold => (min_le_left _ _).trans ((h.seen k hk).2 hold)⟩

/-! ### Leaving the node

All edges of `n` are seen now.  What waits above `n` then has no edge to an undiscovered node, and
`n` goes round with all of it. -/

theorem followed_all (h : Scanned g path s n seen r) (hall : ∀ m, g.Edge n m → m ∈ seen) :
    ∀ m ∈ r.search.discovered, m ∉ path → ∀ k, g.Edge m k → k ∈ r.search.discovered := by
  intro m hm hp k hk
  by_cases hmn : m = n
  · exact (h.seen k (hall k (hmn ▸ hk))).1
  · exact h.exploring.followed m hm
      (fun hmem => (List.mem_cons.1 hmem).elim hmn hp) k hk

theorem link_all (h : Scanned g path s n seen r) (hall : ∀ m, g.Edge n m → m ∈ seen) :
    ∃ above, r.search.waiting = above ++ n :: s.waiting ∧ LowLink g s n (above ++ [n]) r.low := by
  obtain ⟨above, hw, hl⟩ := h.link
  refine ⟨above, hw, ⟨fun m hm p hp he => ?_, hl.attained⟩⟩
  rcases List.mem_append.1 hm with hm | hm
  · exact hl.least m hm p hp he
  · obtain rfl := List.mem_singleton.1 hm
    exact (h.seen p (hall p he)).2 hp

/-- What waited before reaches a node of the path that is no younger — and that is not `n`. -/
theorem back_old (h : Scanned g path s n seen r) (hs : Enters g path s n) {m : α}
    (hm : m ∈ s.waiting) :
    ∃ p ∈ path, r.search.number p ≤ r.search.number m ∧ g.Reach m p := by
  obtain ⟨p, hp, hle, hr⟩ := h.exploring.back m (h.waiting_of_old hm)
  have hself := h.number_self hs
  have hold := h.number_old (hs.discovered_of_waiting hm)
  have hlt := Search.number_lt (hs.discovered_of_waiting hm)
  rcases List.mem_cons.1 hp with rfl | hp
  · omega
  · exact ⟨p, hp, hle, hr⟩

/-- **Leaving a node that reaches something older**: it goes on waiting. -/
theorem keep (h : Scanned g path s n seen r) (hs : Enters g path s n)
    (hall : ∀ m, g.Edge n m → m ∈ seen) (hlow : r.low ≠ s.discovered.length) :
    Connected g path s n r := by
  obtain ⟨above, hw, hl⟩ := h.link_all hall
  refine ⟨?_, h.grown, above ++ [n], by rw [hw, List.append_assoc]; rfl, hl⟩
  refine { h.exploring with
    path_waits := fun p hp => h.exploring.path_waits (List.mem_cons_of_mem n hp)
    followed := h.followed_all hall
    back := fun m hm => ?_
    down := fun p hp => h.exploring.down p (List.mem_cons_of_mem n hp) }
  obtain ⟨p, hp, hle, hr⟩ := h.exploring.back m hm
  rcases List.mem_cons.1 hp with rfl | hp
  · -- the path node found is `n` itself: go on to the older node that the low link names
    obtain ⟨q, hq, hnum, hr'⟩ := hl.attained.resolve_left hlow
    obtain ⟨p', hp', hle', hr''⟩ := h.back_old hs hq
    refine ⟨p', hp', ?_, hr.trans (hr'.trans hr'')⟩
    have hself := h.number_self hs
    have hold := h.number_old (hs.discovered_of_waiting hq)
    have hlt := Search.number_lt (hs.discovered_of_waiting hq)
    omega
  · exact ⟨p, hp, hle, hr⟩

section Close

variable {above : List α} (hw : r.search.waiting = above ++ n :: s.waiting)

include hw

/-- All that waits above `n` goes round with it: down from `n`, and back through the path. -/
theorem mutual_of_above (h : Scanned g path s n seen r) (hs : Enters g path s n) {m : α}
    (hm : m ∈ above ++ [n]) : g.Mutual n m := by
  have hmw : m ∈ r.search.waiting := by
    rw [hw]
    rcases List.mem_append.1 hm with hm | hm
    · exact List.mem_append_left _ hm
    · exact List.mem_append_right _ (List.mem_singleton.1 hm ▸ List.mem_cons_self)
  have hnw : n ∈ r.search.waiting := h.exploring.path_waits List.mem_cons_self
  have hle : r.search.number n ≤ r.search.number m := by
    rcases List.mem_append.1 hm with hm | hm
    · exact (Search.number_lt_of_waiting h.exploring.nodup h.exploring.ordered hw hm
        List.mem_cons_self).le
    · rw [List.mem_singleton.1 hm]
  refine ⟨h.exploring.down n List.mem_cons_self m hmw hle, ?_⟩
  obtain ⟨p, hp, -, hr⟩ := h.exploring.back m hmw
  rcases List.mem_cons.1 hp with rfl | hp'
  · exact hr
  · refine hr.trans (h.exploring.down p hp n hnw ?_)
    have hpd := hs.discovered_of_waiting (hs.path_waits hp')
    rw [h.number_self hs, h.number_old hpd]
    exact (Search.number_lt hpd).le

/-- **No edge leads from there to what waited before**, when the low link is the number of `n`. -/
theorem edge_of_above (h : Scanned g path s n seen r) (hs : Enters g path s n)
    (hall : ∀ m, g.Edge n m → m ∈ seen) (hl : LowLink g s n (above ++ [n]) r.low)
    (hlow : r.low = s.discovered.length) {m k : α} (hm : m ∈ above ++ [n]) (he : g.Edge m k) :
    k ∈ above ++ [n] ∨ k ∈ r.search.closed.flatten := by
  have hnd : (above ++ n :: s.waiting).Nodup := hw ▸ h.exploring.nodup_waiting
  have hmw : m ∈ r.search.waiting := by
    rw [hw, List.append_cons]
    exact List.mem_append_left _ hm
  have hmp : m ∉ path := fun hp => by
    rw [List.append_cons] at hnd
    exact List.disjoint_of_nodup_append hnd hm (hs.path_waits hp)
  have hk := h.followed_all hall m (h.exploring.discovered_of_waiting hmw) hmp k he
  rcases h.exploring.mem_discovered_iff.1 hk with hk | hk
  · rw [hw, List.append_cons] at hk
    rcases List.mem_append.1 hk with hk | hk
    · exact Or.inl hk
    · have hle := hl.least m hm k hk he
      have hlt := Search.number_lt (hs.discovered_of_waiting hk)
      omega
  · exact Or.inr hk

/-- **The nodes down to `n` are a component.** -/
theorem isComponent_above (h : Scanned g path s n seen r) (hs : Enters g path s n)
    (hall : ∀ m, g.Edge n m → m ∈ seen) (hl : LowLink g s n (above ++ [n]) r.low)
    (hlow : r.low = s.discovered.length) : g.IsComponent (above ++ [n]) := by
  have hn : n ∈ above ++ [n] := List.mem_append_right _ List.mem_cons_self
  refine .of_mem hn fun m => ⟨h.mutual_of_above hw hs, fun hmut => ?_⟩
  have hreach : ∀ k, g.Reach n k → k ∈ above ++ [n] ∨ k ∈ r.search.closed.flatten := by
    intro k hk
    induction hk with
    | refl => exact Or.inl hn
    | tail _ he ih =>
      rcases ih with ih | ih
      · exact h.edge_of_above hw hs hall hl hlow ih he
      · exact Or.inr (h.exploring.closed_edge ih he)
  -- a closed node cannot reach back to `n`, which waits
  refine (hreach m hmut.1).resolve_right fun hm => ?_
  exact h.exploring.notMem_closed (h.exploring.path_waits List.mem_cons_self)
    (h.exploring.closed_reach hm hmut.2)

end Close

/-- **Leaving a node whose low link is its own number**: it leaves the stack with its component. -/
theorem close (h : Scanned g path s n seen r) (hs : Enters g path s n)
    (hall : ∀ m, g.Edge n m → m ∈ seen) (hlow : r.low = s.discovered.length) :
    Connected g path s n { r with search := r.search.close n } := by
  obtain ⟨above, hw, hl⟩ := h.link_all hall
  have hnd : (above ++ n :: s.waiting).Nodup := hw ▸ h.exploring.nodup_waiting
  have hna : n ∉ above := fun hm => List.disjoint_of_nodup_append hnd hm List.mem_cons_self
  have hclose := Search.close_eq hw hna
  refine ⟨?_, ?_, [], ?_, by simp, Or.inl hlow⟩
  · rw [hclose]
    refine ⟨h.exploring.nodup, h.exploring.inside, ?_, ?_, hs.path_waits, h.followed_all hall,
      fun m => h.back_old hs, fun p hp m hm => h.exploring.down p (List.mem_cons_of_mem n hp) m
        (h.waiting_of_old hm), ?_, ?_⟩
    · refine h.exploring.perm.trans ?_
      rw [hw, List.append_cons, List.flatten_cons, ← List.append_assoc]
      exact List.perm_append_comm.append_right _
    · have hsub : s.waiting.Sublist r.search.waiting := by
        rw [hw, List.append_cons]
        exact List.sublist_append_right _ _
      exact hsub.reverse.trans h.exploring.ordered
    · intro c hc
      rcases List.mem_cons.1 hc with rfl | hc
      · exact h.isComponent_above hw hs hall hl hlow
      · exact h.exploring.isComponent c hc
    · intro c earlier hsuf m hm k he
      rcases List.suffix_cons_iff.1 hsuf with heq | hsuf
      · obtain ⟨rfl, rfl⟩ := List.cons.inj heq
        rw [List.flatten_cons]
        exact List.mem_append.2 (h.edge_of_above hw hs hall hl hlow hm he)
      · exact h.exploring.descend c earlier hsuf m hm k he
  · rw [hclose]
    exact h.grown
  · rw [hclose]
    rfl

end Scanned

/-! ## The whole search -/

/-- What a way of following edges has to do for a search that has this many nodes left. -/
def Follows (g : Digraph α) (depth : Nat) (follow : Search α → α → Linked α) : Prop :=
  ∀ path s n, Enters g path s n → g.nodes.length ≤ depth + s.discovered.length →
    Connected g path s n (follow s n)

namespace Scanned

variable {path : List α} {s : Search α} {n : α}

/-- Nothing is seen yet when the search has just entered a node. -/
theorem enter (hs : Enters g path s n) :
    Scanned g path s n [] ⟨s.enter n, s.discovered.length⟩ where
  exploring := hs.toExploring.enter hs.mem hs.new hs.reach
  grown := List.prefix_rfl
  link := ⟨[], rfl, by simp, Or.inl rfl⟩
  seen := by simp

/-- The search at `n` has discovered more than it had before. -/
theorem length_discovered_lt {seen : List α} {r : Linked α} (h : Scanned g path s n seen r) :
    s.discovered.length < r.search.discovered.length := by
  have hlen := h.grown.length_le
  rwa [Search.enter, List.length_append, List.length_singleton] at hlen

/-- **The search can go on along an edge** to a node that is not discovered yet. -/
theorem enters {seen : List α} {r : Linked α} (h : Scanned g path s n seen r) (hg : g.EdgesInside)
    (hs : Enters g path s n) {m : α} (he : g.Edge n m) (hm : m ∉ r.search.discovered) :
    Enters g (n :: path) r.search m where
  toExploring := h.exploring
  mem := hg n hs.mem m he
  new := hm
  reach :=
    List.forall_mem_cons.2 ⟨Relation.ReflTransGen.single he, fun p hp => (hs.reach p hp).tail he⟩

section Meet

variable {depth : Nat} {follow : Search α → α → Linked α} (hg : g.EdgesInside)
  (hf : Follows g depth follow) (hs : Enters g path s n)
  (hdepth : g.nodes.length ≤ depth + 1 + s.discovered.length)

include hg hf hs hdepth

/-- **One edge more is seen.** -/
theorem meet {seen : List α} {r : Linked α} (h : Scanned g path s n seen r) {m : α}
    (he : g.Edge n m) : Scanned g path s n (m :: seen) (r.meet follow m) := by
  unfold Linked.meet
  split_ifs with hd hw
  · exact h.meet_waiting hs he hw
  · exact h.meet_closed hd hw
  · have hlen := h.length_discovered_lt
    exact h.meet_followed hs he hd (hf (n :: path) r.search m (h.enters hg hs he hd) (by omega))

/-- …and so are all edges of a list. -/
theorem foldl_meet : ∀ (ms seen : List α) (r : Linked α), Scanned g path s n seen r →
    (∀ m ∈ ms, g.Edge n m) →
      Scanned g path s n (ms.reverse ++ seen) (ms.foldl (Linked.meet follow) r)
  | [], _, _, h, _ => h
  | m :: ms, seen, r, h, he => by
      rw [List.foldl_cons, List.reverse_cons, List.append_assoc]
      exact foldl_meet ms (m :: seen) _ (meet hg hf hs hdepth h (he m List.mem_cons_self))
        fun k hk => he k (List.mem_cons_of_mem m hk)

end Meet

end Scanned

/-- **The search from a node does what it should**, if it may go as deep as nodes are left. -/
theorem follows_connect (hg : g.EdgesInside) : ∀ depth, Follows g depth (g.connect depth)
  | 0 => fun path s n hs hdepth => by
      have hlt := hs.length_discovered_lt hs.mem hs.new
      omega
  | depth + 1 => fun path s n hs hdepth => by
      have hscan := Scanned.foldl_meet hg (follows_connect hg depth) hs hdepth
        (g.successors n) [] _ (.enter hs) fun m hm => hm
      have hall : ∀ m, g.Edge n m → m ∈ (g.successors n).reverse ++ [] := fun m hm =>
        List.mem_append_left _ (List.mem_reverse.2 hm)
      rw [connect, Linked.leave]
      split_ifs with hlow
      · exact hscan.close hs hall hlow
      · exact hscan.keep hs hall hlow

theorem exploring_explore (hg : g.EdgesInside) {s : Search α} (hs : Exploring g [] s) {n : α}
    (hn : n ∈ g.nodes) :
    Exploring g [] (g.explore s n) ∧ s.discovered ⊆ (g.explore s n).discovered
      ∧ n ∈ (g.explore s n).discovered := by
  unfold explore
  split_ifs with hd
  · exact ⟨hs, List.Subset.refl _, hd⟩
  · have hc := follows_connect hg g.nodes.length [] s n ⟨hs, hn, hd, by simp⟩ (by omega)
    exact ⟨hc.exploring, fun m hm => hc.grown.subset (List.mem_append_left _ hm),
      hc.grown.subset (List.mem_append_right _ List.mem_cons_self)⟩

theorem exploring_foldl (hg : g.EdgesInside) : ∀ (ns : List α) (s : Search α), Exploring g [] s →
    ns ⊆ g.nodes →
    Exploring g [] (ns.foldl g.explore s) ∧ s.discovered ⊆ (ns.foldl g.explore s).discovered
      ∧ ns ⊆ (ns.foldl g.explore s).discovered
  | [], s, hs, _ => ⟨hs, List.Subset.refl _, List.nil_subset _⟩
  | n :: ns, s, hs, hns => by
      obtain ⟨hn, hns⟩ := List.cons_subset.1 hns
      obtain ⟨h₁, h₂, h₃⟩ := exploring_explore hg hs hn
      obtain ⟨k₁, k₂, k₃⟩ := exploring_foldl hg ns (g.explore s n) h₁ hns
      exact ⟨k₁, fun m hm => k₂ (h₂ hm), List.cons_subset.2 ⟨k₂ h₃, k₃⟩⟩

/-! ## The components -/

/-- **The search ends with nothing on its path and all nodes discovered.** -/
theorem exploring_nodes (hg : g.EdgesInside) :
    Exploring g [] (g.nodes.foldl g.explore {})
      ∧ g.nodes ⊆ (g.nodes.foldl g.explore {}).discovered :=
  have h := exploring_foldl hg g.nodes {} (.empty g) (List.Subset.refl _)
  ⟨h.1, h.2.2⟩

theorem perm_flatten_components (hg : g.EdgesInside) :
    (g.nodes.foldl g.explore {}).discovered.Perm g.components.flatten := by
  obtain ⟨h, -⟩ := exploring_nodes hg
  have hperm := h.perm
  rw [h.waiting_eq_nil, List.nil_append] at hperm
  exact hperm.trans (List.reverse_perm _).flatten.symm

/-- **No node is listed twice.** -/
theorem nodup_flatten_components (hg : g.EdgesInside) : g.components.flatten.Nodup :=
  (perm_flatten_components hg).nodup (exploring_nodes hg).1.nodup

/-- **Just the nodes are listed.** -/
theorem mem_flatten_components (hg : g.EdgesInside) {n : α} :
    n ∈ g.components.flatten ↔ n ∈ g.nodes := by
  obtain ⟨h, hall⟩ := exploring_nodes hg
  rw [← (perm_flatten_components hg).mem_iff]
  exact ⟨fun hn => h.inside hn, fun hn => hall hn⟩

/-- **What is listed are components**: each is the class of its nodes under mutual reachability. -/
theorem isComponent_of_mem (hg : g.EdgesInside) {c : List α} (hc : c ∈ g.components) :
    g.IsComponent c :=
  (exploring_nodes hg).1.isComponent c (List.mem_reverse.1 hc)

end Digraph

end IncludeScan
