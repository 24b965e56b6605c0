import IncludeScan.Proofs.Path.Spelling
import Mathlib.Data.List.TakeWhile

/-!
# Proofs/Path/Joining — a joined path is in normal form

Of the components of a path, resolving leaves some `..` in front, which have nothing to take away,
and names behind them.  Such components are **resolved** (`resolved_resolve`), and resolving leaves
them alone (`resolve_of_resolved`); so what stands in front may be resolved beforehand
(`resolve_resolve_append`), and so may the front of a text (`clean_append_slash`).

Where a path leads to is found one component after the other, without regard to normal forms
(`destination`); resolving does not change it (`foldl_walk_resolve`).

* `join_nested` — joins may be nested and repeated; the result is empty, the root or a tidy path,
  and it leads to where the segments lead one behind the other.
-/

namespace IncludeScan.Path

/-! ## Resolved components -/

/-- **Nothing is left to resolve**: behind the `..` in front there are only names, and at the root
there are only names at all. -/
structure Resolved (absolute : Bool) (cs : List String) : Prop where
  names_behind : ∀ c ∈ cs.dropWhile (· == ".."), IsName c
  grounded : absolute = true → ∀ c ∈ cs, IsName c

variable {absolute : Bool} {cs above dir : List String} {c path : String}

theorem resolved_iff :
    Resolved absolute cs
      ↔ (∀ c ∈ cs.dropWhile (· == ".."), IsName c) ∧ (absolute = true → ∀ c ∈ cs, IsName c) :=
  ⟨fun h => ⟨h.names_behind, h.grounded⟩, fun h => ⟨h.1, h.2⟩⟩

instance (absolute : Bool) (cs : List String) : Decidable (Resolved absolute cs) :=
  decidable_of_iff' _ resolved_iff

theorem resolved_nil : Resolved absolute [] := ⟨by simp, by simp⟩

theorem not_isName_up : ¬ IsName ".." := fun h => h.2.2 rfl

theorem isIdle_or_eq_up_or_isName (c : String) : isIdle c = true ∨ c = ".." ∨ IsName c := by
  simp only [isIdle, IsName, Bool.or_eq_true, beq_iff_eq]
  tauto

/-- **One component more**: a name anywhere, and `..` behind others like it. -/
theorem resolved_concat :
    Resolved absolute (cs ++ [c])
      ↔ Resolved absolute cs ∧ (IsName c ∨ c = ".." ∧ absolute = false ∧ ∀ d ∈ cs, d = "..") := by
  have hnone : cs.dropWhile (· == "..") = [] ↔ ∀ d ∈ cs, d = ".." := by
    simp [List.dropWhile_eq_nil_iff]
  rw [resolved_iff, resolved_iff, List.dropWhile_append, List.forall_mem_append,
    List.forall_mem_singleton]
  by_cases hups : ∀ d ∈ cs, d = ".."
  · rw [hnone.2 hups, List.isEmpty_nil, if_pos rfl]
    by_cases hup : c = ".."
    · subst hup
      cases absolute with
      | true => simp [not_isName_up]
      | false => simpa [not_isName_up] using hups
    · rw [List.dropWhile_cons_of_neg (by simpa using hup), List.forall_mem_singleton]
      simp only [List.not_mem_nil, false_imp_iff, implies_true, true_and]
      tauto
  · rw [if_neg (by simpa [hnone] using hups), List.forall_mem_append, List.forall_mem_singleton]
    tauto

theorem Resolved.isIdle_eq_false (h : Resolved absolute cs) (hc : c ∈ cs) : isIdle c = false := by
  induction cs using List.reverseRecOn with
  | nil => exact absurd hc List.not_mem_nil
  | append_singleton cs d ih =>
    obtain ⟨hcs, hd⟩ := resolved_concat.1 h
    rcases List.mem_append.1 hc with hc | hc
    · exact ih hcs hc
    · obtain rfl := List.mem_singleton.1 hc
      rcases hd with hname | ⟨rfl, -, -⟩
      · exact isIdle_of_isName hname
      · rfl

/-! ## What one component does -/

/-- A component that may stand at the end is put there. -/
theorem resolveStep_of_resolved (h : Resolved absolute (above.reverse ++ [c])) :
    resolveStep absolute above c = c :: above := by
  rcases (resolved_concat.1 h).2 with hname | ⟨rfl, rfl, hups⟩
  · exact resolveStep_of_isName hname absolute above
  · cases above with
    | nil => rfl
    | cons top below =>
      have htop : top = ".." := hups top (by simp)
      simp [resolveStep, htop]

/-- **What a component does to resolved ones**: it says nothing, it is `..` at the root, it is `..`
and takes away a name, or it is put behind them. -/
theorem resolveStep_cases (h : Resolved absolute above.reverse) (c : String) :
    (isIdle c = true ∧ resolveStep absolute above c = above)
    ∨ (c = ".." ∧ absolute = true ∧ above = [] ∧ resolveStep absolute above c = [])
    ∨ (c = ".." ∧ ∃ top, IsName top ∧ above = top :: resolveStep absolute above c)
    ∨ (Resolved absolute (above.reverse ++ [c]) ∧ resolveStep absolute above c = c :: above) := by
  -- the component goes to the end whenever it may stand there; the other cases are those where it
  -- may not
  by_cases hput : Resolved absolute (above.reverse ++ [c])
  · exact Or.inr (Or.inr (Or.inr ⟨hput, resolveStep_of_resolved hput⟩))
  rcases isIdle_or_eq_up_or_isName c with hidle | rfl | hname
  · exact Or.inl ⟨hidle, resolveStep_of_isIdle hidle absolute above⟩
  · rw [resolved_concat] at hput
    cases above with
    | nil =>
      cases absolute with
      | true => exact Or.inr (Or.inl ⟨rfl, rfl, rfl, rfl⟩)
      | false => exact absurd ⟨h, Or.inr ⟨rfl, rfl, by simp⟩⟩ hput
    | cons top below =>
      rw [List.reverse_cons] at h
      obtain ⟨-, htop | ⟨rfl, hrelative, hups⟩⟩ := resolved_concat.1 h
      · exact Or.inr (Or.inr (Or.inl ⟨rfl, top, htop, by simp [resolveStep, htop.2.2]⟩))
      · refine absurd ⟨by rwa [List.reverse_cons], Or.inr ⟨rfl, hrelative, ?_⟩⟩ hput
        rw [List.reverse_cons, List.forall_mem_append, List.forall_mem_singleton]
        exact ⟨hups, rfl⟩
  · exact absurd (resolved_concat.2 ⟨h, Or.inl hname⟩) hput

theorem Resolved.resolveStep (h : Resolved absolute above.reverse) (c : String) :
    Resolved absolute (resolveStep absolute above c).reverse := by
  rcases resolveStep_cases h c with
    ⟨-, hstep⟩ | ⟨-, -, -, hstep⟩ | ⟨-, top, -, hstep⟩ | ⟨hput, hstep⟩
  · rwa [hstep]
  · rw [hstep]
    exact resolved_nil
  · rw [hstep, List.reverse_cons] at h
    exact (resolved_concat.1 h).1
  · rwa [hstep, List.reverse_cons]

/-! ## What all of them do -/

theorem resolve_append_singleton (absolute : Bool) (cs : List String) (c : String) :
    resolve absolute (cs ++ [c])
      = (resolveStep absolute (resolve absolute cs).reverse c).reverse := by
  rw [resolve, List.foldl_concat, resolve, List.reverse_reverse]

/-- **Resolving leaves nothing to resolve.** -/
theorem resolved_resolve (absolute : Bool) (cs : List String) :
    Resolved absolute (resolve absolute cs) := by
  induction cs using List.reverseRecOn with
  | nil => exact resolved_nil
  | append_singleton cs c ih =>
    rw [resolve_append_singleton]
    exact Resolved.resolveStep (by rwa [List.reverse_reverse]) c

theorem resolved_stack (absolute : Bool) (cs : List String) :
    Resolved absolute (resolve absolute cs).reverse.reverse := by
  rw [List.reverse_reverse]
  exact resolved_resolve absolute cs

/-- **What is resolved is left alone.** -/
theorem resolve_of_resolved (h : Resolved absolute cs) : resolve absolute cs = cs := by
  induction cs using List.reverseRecOn with
  | nil => rfl
  | append_singleton cs c ih =>
    rw [resolve_append_singleton, ih (resolved_concat.1 h).1,
      resolveStep_of_resolved (by rwa [List.reverse_reverse]), List.reverse_cons,
      List.reverse_reverse]

/-- **What stands in front may be resolved beforehand.** -/
theorem resolve_resolve_append (absolute : Bool) (cs ds : List String) :
    resolve absolute (resolve absolute cs ++ ds) = resolve absolute (cs ++ ds) := by
  have hfront :
      (resolve absolute cs).foldl (resolveStep absolute) [] = cs.foldl (resolveStep absolute) [] :=
    List.reverse_injective (resolve_of_resolved (resolved_resolve absolute cs))
  rw [resolve, List.foldl_append, hfront, ← List.foldl_append, resolve]

/-- Resolving adds no component. -/
theorem mem_of_mem_resolve (h : c ∈ resolve absolute cs) : c ∈ cs := by
  induction cs using List.reverseRecOn with
  | nil => exact h
  | append_singleton cs d ih =>
    have hcs : c ∈ (resolve absolute cs).reverse → c ∈ cs ++ [d] := fun hc =>
      List.mem_append_left _ (ih (List.mem_reverse.1 hc))
    rw [resolve_append_singleton, List.mem_reverse] at h
    rcases resolveStep_cases (resolved_stack absolute cs) d with
      ⟨-, hstep⟩ | ⟨-, -, -, hstep⟩ | ⟨-, top, -, hstep⟩ | ⟨-, hstep⟩
    · exact hcs (hstep ▸ h)
    · rw [hstep] at h
      exact absurd h List.not_mem_nil
    · exact hcs (hstep ▸ List.mem_cons_of_mem top h)
    · rw [hstep] at h
      rcases List.mem_cons.1 h with rfl | h
      · simp
      · exact hcs h

/-! ## Where a path leads -/

/-- Where a component leads from a directory, given by its names from the last to the first.  Above
the root there is only the root. -/
def walk (dir : List String) (c : String) : List String :=
  if isIdle c then dir
  else if c = ".." then dir.tail
  else c :: dir

/-- **Where a path leads**: component by component from a directory, or from the root. -/
def destination (dir : List String) (path : String) : List String :=
  (components path).foldl walk (if isAbsolute path then [] else dir)

theorem walk_of_isIdle (h : isIdle c = true) (dir : List String) : walk dir c = dir := if_pos h

theorem walk_up (dir : List String) : walk dir ".." = dir.tail := rfl

theorem walk_of_isName (h : IsName c) (dir : List String) : walk dir c = c :: dir := by
  rw [walk, if_neg (by simp [isIdle_of_isName h]), if_neg h.2.2]

/-- A component leads to the same place whether or not those before it have been resolved. -/
theorem foldl_walk_resolveStep (hroot : absolute = true → dir = [])
    (h : Resolved absolute above.reverse) (c : String) :
    (resolveStep absolute above c).reverse.foldl walk dir
      = walk (above.reverse.foldl walk dir) c := by
  rcases resolveStep_cases h c with
    ⟨hidle, hstep⟩ | ⟨rfl, habsolute, rfl, hstep⟩ | ⟨rfl, top, htop, hstep⟩ | ⟨-, hstep⟩
  · rw [hstep, walk_of_isIdle hidle]
  · rw [hstep, hroot habsolute]
    rfl
  -- `..` goes back the one way that the name above it has led
  · have habove : above.reverse.foldl walk dir
        = top :: (resolveStep absolute above "..").reverse.foldl walk dir := by
      conv_lhs => rw [hstep]
      rw [List.reverse_cons, List.foldl_concat, walk_of_isName htop]
    rw [habove, walk_up, List.tail_cons]
  · rw [hstep, List.reverse_cons, List.foldl_concat]

/-- **Resolved components lead to the same place.** -/
theorem foldl_walk_resolve (hroot : absolute = true → dir = []) (cs : List String) :
    (resolve absolute cs).foldl walk dir = cs.foldl walk dir := by
  induction cs using List.reverseRecOn with
  | nil => rfl
  | append_singleton cs c ih =>
    rw [resolve_append_singleton, foldl_walk_resolveStep hroot (resolved_stack absolute cs),
      List.reverse_reverse, ih, List.foldl_concat]

theorem destination_eq (dir : List String) (path : String) :
    destination dir path = (namesOf path).foldl walk (if isAbsolute path then [] else dir) := by
  rw [destination, namesOf, foldl_filter_isIdle walk_of_isIdle]

/-! ## Tidy paths -/

/-- The components of a path, behind the root if it begins there. -/
def behindRoot (path : String) : List String :=
  if isAbsolute path then (components path).tail else components path

/-- **Nothing is left to clean**: there is no slash at the end, and the path is a single dot or its
components are resolved. -/
structure Tidy (path : String) : Prop where
  last_ne_slash : path.toList.getLast? ≠ some '/'
  dot_or_resolved : path = "." ∨ Resolved (isAbsolute path) (behindRoot path)

theorem tidy_iff :
    Tidy path ↔ path.toList.getLast? ≠ some '/'
      ∧ (path = "." ∨ Resolved (isAbsolute path) (behindRoot path)) :=
  ⟨fun h => ⟨h.last_ne_slash, h.dot_or_resolved⟩, fun h => ⟨h.1, h.2⟩⟩

instance (path : String) : Decidable (Tidy path) := decidable_of_iff' _ tidy_iff

example :
    Tidy "../../a.h" ∧ Tidy "/a/b" ∧ ¬ Tidy "a/" ∧ ¬ Tidy "a//b" ∧ ¬ Tidy "./a" ∧ ¬ Tidy "a/.."
    ∧ ¬ Tidy "/../a" := by
  decide +kernel

/-- A slash at the end has an empty component behind it. -/
theorem empty_mem_behindRoot (h : path.toList.getLast? = some '/') : "" ∈ behindRoot path := by
  obtain ⟨front, hfront⟩ := List.getLast?_eq_some_iff.1 h
  have hpath : path = String.ofList front ++ "/" ++ "" := by simp [← String.toList_inj, hfront]
  have hcomponents : components path = components (String.ofList front) ++ [""] := by
    rw [hpath, components_append_slash]
    rfl
  rw [behindRoot, hcomponents]
  split
  · rw [List.tail_append_of_ne_nil (components_ne_nil _)]
    simp
  · simp

theorem tidy_of_resolved (h : Resolved (isAbsolute path) (behindRoot path)) : Tidy path := by
  refine ⟨fun hlast => ?_, Or.inr h⟩
  exact absurd (h.isIdle_eq_false (empty_mem_behindRoot hlast)) (by decide)

/-! ## Resolved components as text -/

theorem exists_intercalate_cons (c : String) (cs : List String) :
    ∃ back, "/".intercalate (c :: cs) = c ++ back := by
  cases cs with
  | nil => exact ⟨"", by rw [String.intercalate_singleton, String.append_empty]⟩
  | cons d cs => exact ⟨_, by rw [String.intercalate_cons_cons, String.append_assoc]⟩

theorem components_root (back : String) : components ("/" ++ back) = "" :: components back := by
  rw [← String.empty_append (s := "/" ++ back), ← String.append_assoc, components_append_slash]
  rfl

theorem isAbsolute_of_slash_notMem (h : '/' ∉ path.toList) : isAbsolute path = false := by
  rw [isAbsolute, beq_eq_false_iff_ne]
  exact fun hhead => h (List.mem_of_head? hhead)

section Render

variable (h : Resolved absolute cs) (hslash : ∀ c ∈ cs, '/' ∉ c.toList)
include h hslash

theorem isAbsolute_render : isAbsolute (render absolute cs) = absolute := by
  cases absolute with
  | true =>
    rw [render, if_pos rfl, isAbsolute_append (by decide)]
    rfl
  | false =>
    cases cs with
    | nil => decide +kernel
    | cons c cs =>
      have hc : c ≠ "" := by
        rintro rfl
        exact absurd (h.isIdle_eq_false List.mem_cons_self) (by decide)
      obtain ⟨back, hback⟩ := exists_intercalate_cons c cs
      rw [render, if_neg (by decide), if_neg (by simp), hback, isAbsolute_append hc]
      exact isAbsolute_of_slash_notMem (hslash c List.mem_cons_self)

theorem namesOf_render : namesOf (render absolute cs) = cs := by
  have htext := namesOf_intercalate (fun _ hc => h.isIdle_eq_false hc) hslash
  cases absolute with
  | true =>
    rw [namesOf] at htext
    rw [render, if_pos rfl, namesOf, components_root, List.filter_cons_of_neg (by decide), htext]
  | false =>
    rw [render, if_neg (by decide)]
    split
    · rename_i hcs
      rw [List.isEmpty_iff.1 hcs]
      decide +kernel
    · exact htext

theorem tidy_render : render absolute cs = "/" ∨ Tidy (render absolute cs) := by
  by_cases hcs : cs = []
  · subst hcs
    cases absolute with
    | true => exact Or.inl (by decide +kernel)
    | false => exact Or.inr (by decide +kernel)
  · have hbehind : behindRoot (render absolute cs) = cs := by
      rw [behindRoot, isAbsolute_render h hslash]
      cases absolute with
      | true => rw [if_pos rfl, render, if_pos rfl, components_root, List.tail_cons,
          components_intercalate hcs hslash]
      | false => rw [if_neg (by decide), render, if_neg (by decide), if_neg (by simpa using hcs),
          components_intercalate hcs hslash]
    refine Or.inr (tidy_of_resolved ?_)
    rwa [isAbsolute_render h hslash, hbehind]

end Render

/-! ## Cleaning -/

theorem slash_notMem_of_mem_resolve (h : c ∈ resolve absolute (components path)) : '/' ∉ c.toList :=
  slash_notMem_of_mem_components (mem_of_mem_resolve h)

theorem isAbsolute_clean (path : String) : isAbsolute (clean path) = isAbsolute path :=
  isAbsolute_render (resolved_resolve ..) fun _ => slash_notMem_of_mem_resolve

theorem namesOf_clean (path : String) :
    namesOf (clean path) = resolve (isAbsolute path) (namesOf path) := by
  rw [namesOf, namesOf, resolve_filter]
  exact namesOf_render (resolved_resolve ..) fun _ => slash_notMem_of_mem_resolve

/-- **A clean path is the root or tidy.** -/
theorem tidy_clean (path : String) : clean path = "/" ∨ Tidy (clean path) :=
  tidy_render (resolved_resolve ..) fun _ => slash_notMem_of_mem_resolve

theorem clean_ne_empty (path : String) : clean path ≠ "" := by
  intro hempty
  have htidy := tidy_clean path
  rw [hempty] at htidy
  exact absurd htidy (by decide +kernel)

/-- **A clean path leads to where the path leads.** -/
theorem destination_clean (dir : List String) (path : String) :
    destination dir (clean path) = destination dir path := by
  have hroot : isAbsolute path = true → (if isAbsolute path then [] else dir) = [] := fun h =>
    if_pos h
  rw [destination_eq, isAbsolute_clean, namesOf_clean, foldl_walk_resolve hroot, ← destination_eq]

theorem clean_congr {path other : String} (habsolute : isAbsolute path = isAbsolute other)
    (h : resolve (isAbsolute other) (namesOf path) = resolve (isAbsolute other) (namesOf other)) :
    clean path = clean other := by
  rw [namesOf, resolve_filter, namesOf, resolve_filter] at h
  rw [clean, clean, habsolute, h]

theorem clean_clean (path : String) : clean (clean path) = clean path := by
  refine clean_congr (isAbsolute_clean path) ?_
  rw [namesOf_clean, resolve_of_resolved (resolved_resolve ..)]

/-- **What stands in front of a slash may be cleaned beforehand.** -/
theorem clean_append_slash {front : String} (hfront : front ≠ "") (back : String) :
    clean (clean front ++ "/" ++ back) = clean (front ++ "/" ++ back) := by
  have habsolute : isAbsolute (front ++ "/" ++ back) = isAbsolute front := by
    rw [String.append_assoc, isAbsolute_append hfront]
  have habsolute' : isAbsolute (clean front ++ "/" ++ back) = isAbsolute front := by
    rw [String.append_assoc, isAbsolute_append (clean_ne_empty front), isAbsolute_clean]
  refine clean_congr (habsolute'.trans habsolute.symm) ?_
  rw [habsolute, namesOf_append_slash, namesOf_append_slash, namesOf_clean, resolve_resolve_append]

/-! ## Joining -/

/-- The segments that are not empty. -/
def segmentsOf (xs : List String) : List String := xs.filter fun s => s != ""

theorem join_congr {xs ys : List String} (h : segmentsOf xs = segmentsOf ys) :
    join xs = join ys := by
  rw [segmentsOf, segmentsOf] at h
  rw [join, join, h]

theorem join_of_segmentsOf_eq_nil {xs : List String} (h : segmentsOf xs = []) : join xs = "" :=
  if_pos (List.isEmpty_iff.2 h)

theorem join_of_segmentsOf_ne_nil {xs : List String} (h : segmentsOf xs ≠ []) :
    join xs = clean ("/".intercalate (segmentsOf xs)) :=
  if_neg (mt List.isEmpty_iff.1 h)

theorem segmentsOf_append (xs ys : List String) :
    segmentsOf (xs ++ ys) = segmentsOf xs ++ segmentsOf ys :=
  List.filter_append ..

theorem segmentsOf_cons {s : String} (h : s ≠ "") (xs : List String) :
    segmentsOf (s :: xs) = s :: segmentsOf xs :=
  List.filter_cons_of_pos (by simpa using h)

theorem intercalate_segmentsOf_ne_empty {xs : List String} (h : segmentsOf xs ≠ []) :
    "/".intercalate (segmentsOf xs) ≠ "" := by
  obtain ⟨s, rest, hxs⟩ := List.exists_cons_of_ne_nil h
  have hs : s ≠ "" := by
    have hmem : s ∈ segmentsOf xs := by simp [hxs]
    simpa using (List.mem_filter.1 hmem).2
  obtain ⟨back, hback⟩ := exists_intercalate_cons s rest
  rw [hxs, hback]
  simp [hs]

/-- **The first segments may be joined beforehand.** -/
theorem join_cons_join (xs ys : List String) : join (join xs :: ys) = join (xs ++ ys) := by
  by_cases hxs : segmentsOf xs = []
  · rw [join_of_segmentsOf_eq_nil hxs]
    refine join_congr ?_
    rw [segmentsOf_append, hxs]
    rfl
  · have hfront := intercalate_segmentsOf_ne_empty hxs
    have hjoin :
        segmentsOf (join xs :: ys) = clean ("/".intercalate (segmentsOf xs)) :: segmentsOf ys := by
      rw [join_of_segmentsOf_ne_nil hxs, segmentsOf_cons (clean_ne_empty _)]
    have hall : segmentsOf (xs ++ ys) ≠ [] := by simp [segmentsOf_append, hxs]
    rw [join_of_segmentsOf_ne_nil (by simp [hjoin]), join_of_segmentsOf_ne_nil hall, hjoin,
      segmentsOf_append]
    by_cases hys : segmentsOf ys = []
    · rw [hys, String.intercalate_singleton, List.append_nil, clean_clean]
    · rw [← List.singleton_append, String.intercalate_append_of_ne_nil (List.cons_ne_nil _ _) hys,
        String.intercalate_singleton, clean_append_slash hfront,
        String.intercalate_append_of_ne_nil hxs hys]

theorem join_tidy {xs : List String} (h : join xs ≠ "") : join xs = "/" ∨ Tidy (join xs) := by
  by_cases hxs : segmentsOf xs = []
  · exact absurd (join_of_segmentsOf_eq_nil hxs) h
  · rw [join_of_segmentsOf_ne_nil hxs]
    exact tidy_clean _

theorem destination_join (dir xs : List String) :
    destination dir (join xs) = destination dir ("/".intercalate (segmentsOf xs)) := by
  by_cases hxs : segmentsOf xs = []
  · rw [join_of_segmentsOf_eq_nil hxs, hxs, String.intercalate_nil]
  · rw [join_of_segmentsOf_ne_nil hxs, destination_clean]

/-- **Joins may be nested and repeated, and their results are in normal form.**  Segments that have
been joined stand for themselves in front of others, and a joined path is left as it is.  Unless it
is empty, it is the root or tidy.  From every directory it leads to where its segments lead, written
one behind the other. -/
theorem join_nested (xs ys : List String) :
    join (join xs :: ys) = join (xs ++ ys)
    ∧ join [join xs] = join xs
    ∧ (join xs ≠ "" → join xs = "/" ∨ Tidy (join xs))
    ∧ ∀ dir, destination dir (join xs) = destination dir ("/".intercalate (segmentsOf xs)) := by
  refine ⟨join_cons_join xs ys, ?_, join_tidy, fun dir => destination_join dir xs⟩
  rw [join_cons_join, List.append_nil]

/-- Segments that leave the directory in which they begin, with slashes, dots and empty ones among
them. -/
theorem join_nested_parent :
    let xs := ["lib/./x/", "", "../..", "..//", "/a"]
    let ys := ["..", "./b.h"]
    join xs = "../a" ∧ join xs ≠ "" ∧ Tidy (join xs)
    ∧ join [join xs] = join xs
    ∧ join (join xs :: ys) = join (xs ++ ys) ∧ join (xs ++ ys) = "../b.h"
    ∧ destination ["src", "root"] (join xs) = ["a", "root"] := by
  intro xs ys
  have heq : join xs = "../a" := by decide +kernel
  have hne : join xs ≠ "" := by rw [heq]; decide
  obtain ⟨hnested, hagain, htidy, -⟩ := join_nested xs ys
  exact ⟨heq, hne, (htidy hne).resolve_left (by rw [heq]; decide), hagain, hnested,
    by decide +kernel, by decide +kernel⟩

end IncludeScan.Path
