import IncludeScan.Path.Basic
import Mathlib.Data.List.Infix

/-!
# Proofs/Path/Components — a path is the list of its components

A path can be put together again from its components (`intercalate_components`), and a slash between
two paths puts their components one behind the other (`components_append_slash`).

A component that is neither empty nor one of the dots **names** a file or a directory.  Nothing that
is put in front of a path takes away a name at its end, and so joining and cleaning keep it
(`endsIn_join`).  It is the base of the path (`base_of_endsIn`), and the id of a file depends on it
alone (`stem_eq_of_base_eq`).

A path of names only is clean as it is (`Plain.clean_eq`).
-/

namespace IncludeScan

theorem Text.pieces_eq_splitOnP (isSeparator : Char → Bool) (cs : List Char) :
    pieces isSeparator cs = cs.splitOnP isSeparator := by
  induction cs with
  | nil => rfl
  | cons c cs ih =>
    rw [pieces, ih, List.splitOnP_cons_eq_if_modifyHead]
    obtain ⟨piece, others, hpieces⟩ :=
      List.exists_cons_of_ne_nil (List.splitOnP_ne_nil isSeparator cs)
    rw [hpieces]
    rfl

namespace Path

/-! ## Components -/

theorem components_eq_splitOn (path : String) :
    components path = (path.toList.splitOn '/').map String.ofList := by
  rw [components, Text.splitAt, Text.pieces_eq_splitOnP, List.splitOn_eq_splitOnP]

/-- **A path is put together from its components.** -/
theorem intercalate_components (path : String) : "/".intercalate (components path) = path := by
  have hchars : (components path).map String.toList = path.toList.splitOn '/' := by
    rw [components_eq_splitOn, List.map_map]
    exact (List.map_congr_left fun _ _ => String.toList_ofList).trans (List.map_id _)
  rw [← String.toList_inj, String.toList_intercalate, hchars]
  exact List.intercalate_splitOn '/'

theorem components_ne_nil (path : String) : components path ≠ [] := by
  rw [components, Text.splitAt]
  simpa using Text.pieces_ne_nil _ _

theorem exists_last (path : String) : ∃ front last, components path = front ++ [last] :=
  (List.eq_nil_or_concat' _).resolve_left (components_ne_nil path)

/-- **A slash puts components one behind the other.** -/
theorem components_append_slash (front back : String) :
    components (front ++ "/" ++ back) = components front ++ components back := by
  have hchars : (front ++ "/" ++ back).toList = front.toList ++ '/' :: back.toList := by simp
  rw [components, Text.splitAt, Text.pieces_eq_splitOnP, hchars,
    List.splitOnP_append_cons _ _ (by simp), List.map_append, ← Text.pieces_eq_splitOnP,
    ← Text.pieces_eq_splitOnP]
  rfl

theorem isAbsolute_append {front : String} (h : front ≠ "") (back : String) :
    isAbsolute (front ++ back) = isAbsolute front := by
  obtain ⟨c, cs, hcs⟩ := List.exists_cons_of_ne_nil (show front.toList ≠ [] by simpa using h)
  rw [isAbsolute, isAbsolute, String.toList_append, hcs]
  rfl

/-- A path that begins with a directory and a slash, cut behind the slash. -/
theorem exists_behind_slash {dir path : String}
    (h : (dir.toList ++ ['/']).isPrefixOf path.toList = true) :
    ∃ rest, path = dir ++ "/" ++ rest
      ∧ String.ofList (path.toList.drop (dir.toList.length + 1)) = rest := by
  obtain ⟨rest, hrest⟩ := List.isPrefixOf_iff_prefix.1 h
  refine ⟨String.ofList rest, by simp [← String.toList_inj, ← hrest], ?_⟩
  rw [← hrest, List.drop_left' (by simp)]

theorem components_of_notMem {path : String} (h : '/' ∉ path.toList) :
    components path = [path] := by
  have hone : path.toList.splitOnP (· == '/') = [path.toList] :=
    List.splitOnP_eq_singleton fun c hc => by
      rw [beq_eq_false_iff_ne]
      rintro rfl
      exact h hc
  rw [components, Text.splitAt, Text.pieces_eq_splitOnP, hone, List.map_singleton,
    String.ofList_toList]

theorem slash_notMem_of_mem_pieces : ∀ {cs piece : List Char},
    piece ∈ Text.pieces (· == '/') cs → '/' ∉ piece
  | [], piece, h => by
      obtain rfl := List.mem_singleton.1 h
      exact List.not_mem_nil
  | c :: cs, piece, h => by
      rw [Text.pieces] at h
      split at h
      · rcases List.mem_cons.1 h with rfl | h
        · exact List.not_mem_nil
        · exact slash_notMem_of_mem_pieces h
      · rename_i hc
        have hc' : '/' ≠ c := fun heq => hc (by simp [← heq])
        split at h
        · obtain rfl := List.mem_singleton.1 h
          simpa using hc'
        · rename_i first others hpieces
          rcases List.mem_cons.1 h with rfl | h
          · have hfirst := @slash_notMem_of_mem_pieces cs first (by simp [hpieces])
            simpa using ⟨hc', hfirst⟩
          · exact slash_notMem_of_mem_pieces (hpieces ▸ List.mem_cons_of_mem _ h)

theorem slash_notMem_of_mem_components {path c : String} (h : c ∈ components path) :
    '/' ∉ c.toList := by
  obtain ⟨piece, hpiece, rfl⟩ := List.mem_map.1 h
  rw [String.toList_ofList]
  exact slash_notMem_of_mem_pieces hpiece

/-! ## Names -/

/-- The component names a file or a directory. -/
def IsName (c : String) : Prop := c ≠ "" ∧ c ≠ "." ∧ c ≠ ".."

instance (c : String) : Decidable (IsName c) := inferInstanceAs (Decidable (_ ∧ _))

/-- **A path of names only**: it is relative, and there is nothing in it to clean. -/
def Plain (path : String) : Prop := ∀ c ∈ components path, IsName c

instance (path : String) : Decidable (Plain path) := inferInstanceAs (Decidable (∀ c ∈ _, _))

/-- The last component of the path. -/
def EndsIn (path name : String) : Prop := ∃ front, components path = front ++ [name]

theorem resolveStep_of_isName {c : String} (h : IsName c) (absolute : Bool) (above : List String) :
    resolveStep absolute above c = c :: above := by
  obtain ⟨hempty, hdot, hdots⟩ := h
  unfold resolveStep
  rw [if_neg (by simp [hempty, hdot]), if_neg hdots]

/-- **A name at the end is not resolved away.** -/
theorem resolve_concat {name : String} (h : IsName name) (absolute : Bool) (cs : List String) :
    resolve absolute (cs ++ [name]) = resolve absolute cs ++ [name] := by
  rw [resolve, List.foldl_append, List.foldl_cons, List.foldl_nil, resolveStep_of_isName h,
    List.reverse_cons, resolve]

theorem resolve_of_forall_isName {absolute : Bool} {cs : List String} (h : ∀ c ∈ cs, IsName c) :
    resolve absolute cs = cs := by
  induction cs using List.reverseRecOn with
  | nil => rfl
  | append_singleton cs c ih =>
    rw [List.forall_mem_append, List.forall_mem_singleton] at h
    rw [resolve_concat h.2, ih h.1]

namespace EndsIn

variable {path name : String}

theorem slash_notMem (h : EndsIn path name) : '/' ∉ name.toList := by
  obtain ⟨front, hfront⟩ := h
  exact @slash_notMem_of_mem_components path name (by simp [hfront])

theorem unique {other : String} (h : EndsIn path name) (h' : EndsIn path other) : name = other := by
  obtain ⟨front, hfront⟩ := h
  obtain ⟨front', hfront'⟩ := h'
  simpa using (List.append_inj' (hfront.symm.trans hfront') rfl).2

theorem ne_empty (h : EndsIn path name) (hname : IsName name) : path ≠ "" := by
  rintro rfl
  obtain ⟨front, hfront⟩ := h
  have hmem : name ∈ components "" := by simp [hfront]
  exact hname.1 (List.mem_singleton.1 hmem)

theorem ne_dot (h : EndsIn path name) (hname : IsName name) : path ≠ "." := by
  rintro rfl
  exact hname.2.1 (h.unique ⟨[], by decide⟩)

/-- What is put in front with a slash leaves the end as it is. -/
theorem behind (h : EndsIn path name) (front : String) : EndsIn (front ++ "/" ++ path) name := by
  obtain ⟨cs, hcs⟩ := h
  exact ⟨components front ++ cs, by rw [components_append_slash, hcs, List.append_assoc]⟩

/-- …and so does what is taken away from the front. -/
theorem of_behind {front : String} (h : EndsIn (front ++ "/" ++ path) name) : EndsIn path name := by
  obtain ⟨cs, hcs⟩ := h
  rw [components_append_slash] at hcs
  obtain ⟨init, last, hlast⟩ := exists_last path
  rw [hlast, ← List.append_assoc] at hcs
  exact ⟨init, hlast.trans (congrArg _ (List.append_inj' hcs rfl).2)⟩

end EndsIn

theorem endsIn_self {name : String} (h : '/' ∉ name.toList) : EndsIn name name :=
  ⟨[], components_of_notMem h⟩

/-! ## Cleaning and joining -/

theorem endsIn_intercalate {name : String} (h : '/' ∉ name.toList) (cs : List String) :
    EndsIn ("/".intercalate (cs ++ [name])) name := by
  rcases eq_or_ne cs [] with rfl | hne
  · rw [List.nil_append, String.intercalate_singleton]
    exact endsIn_self h
  · rw [String.intercalate_append_of_ne_nil hne (List.cons_ne_nil _ _),
      String.intercalate_singleton]
    exact (endsIn_self h).behind _

/-- **Cleaning keeps a name at the end.** -/
theorem EndsIn.clean {path name : String} (h : EndsIn path name) (hname : IsName name) :
    EndsIn (clean path) name := by
  have hslash := h.slash_notMem
  obtain ⟨front, hfront⟩ := h
  rw [Path.clean, hfront, resolve_concat hname, render]
  split
  · have hroot := (endsIn_intercalate hslash (resolve (isAbsolute path) front)).behind ""
    rwa [String.empty_append] at hroot
  · rw [if_neg (by simp)]
    exact endsIn_intercalate hslash _

theorem join_pair (front : String) {path : String} (h : path ≠ "") :
    join [front, path] = if front = "" then clean path else clean (front ++ "/" ++ path) := by
  by_cases hfront : front = "" <;> simp [join, hfront, h]

theorem join_singleton {path : String} (h : path ≠ "") : join [path] = clean path := by
  simp [join, h]

theorem join_pair_empty (front : String) : join [front, ""] = join [front] := by
  by_cases hfront : front = "" <;> simp [join, hfront]

/-- **Whatever is in front, a joined path keeps the name at its end.** -/
theorem endsIn_join {path name : String} (h : EndsIn path name) (hname : IsName name)
    (front : String) :
    EndsIn (join [front, path]) name := by
  rw [join_pair front (h.ne_empty hname)]
  split
  · exact h.clean hname
  · exact (h.behind front).clean hname

/-! ## The base of a path -/

theorem base_eq {path name : String} {front : List Char}
    (hpath : path.toList = front ++ name.toList) (hfront : front = [] ∨ ∃ cs, front = cs ++ ['/'])
    (hslash : '/' ∉ name.toList) (hne : name ≠ "") :
    base path = name := by
  have hchars : ∀ c ∈ name.toList.reverse, (c != '/') = true := by
    intro c hc
    rw [bne_iff_ne]
    rintro rfl
    exact hslash (List.mem_reverse.1 hc)
  have hstop : front.reverse.takeWhile (· != '/') = [] := by
    rcases hfront with rfl | ⟨cs, rfl⟩ <;> simp
  have hreversed : reversed path = name.toList.reverse ++ front.reverse := by
    rw [reversed, hpath, List.reverse_append]
    obtain ⟨c, cs, hcs⟩ :=
      List.exists_cons_of_ne_nil (show name.toList.reverse ≠ [] by simpa using hne)
    have hc : (c == '/') = false := by simpa [hcs] using hchars c (by simp [hcs])
    rw [hcs, List.cons_append, List.dropWhile_cons_of_neg (by simp [hc])]
  rw [base, hreversed, List.takeWhile_append_of_pos hchars, hstop, List.append_nil,
    List.reverse_reverse, String.ofList_toList]

/-- **The base of a path is its last component**, if that is not empty. -/
theorem base_of_endsIn {path name : String} (h : EndsIn path name) (hne : name ≠ "") :
    base path = name := by
  have hslash := h.slash_notMem
  obtain ⟨front, hfront⟩ := h
  have hpath := intercalate_components path
  rw [hfront] at hpath
  rcases eq_or_ne front [] with rfl | hcs
  · rw [List.nil_append, String.intercalate_singleton] at hpath
    exact @base_eq path name [] (by rw [hpath, List.nil_append]) (Or.inl rfl) hslash hne
  · rw [String.intercalate_append_of_ne_nil hcs (List.cons_ne_nil _ _),
      String.intercalate_singleton] at hpath
    refine @base_eq path name (("/".intercalate front).toList ++ ['/']) ?_ (Or.inr ⟨_, rfl⟩) hslash
      hne
    rw [← hpath, String.toList_append, String.toList_append]
    rfl

/-- The id of a file depends on the last component of its name alone. -/
theorem stem_eq_of_base_eq {path other : String} (h : base path = base other) :
    stem path = stem other := by
  rw [stem, stem, extension, extension, h]

/-! ## Plain paths -/

namespace Plain

variable {path : String}

theorem endsIn (h : Plain path) : EndsIn path (base path) ∧ IsName (base path) := by
  obtain ⟨front, last, hlast⟩ := exists_last path
  have hname : IsName last := h last (by simp [hlast])
  rw [base_of_endsIn ⟨front, hlast⟩ hname.1]
  exact ⟨⟨front, hlast⟩, hname⟩

theorem ne_empty (h : Plain path) : path ≠ "" := h.endsIn.1.ne_empty h.endsIn.2

theorem isAbsolute_eq (h : Plain path) : isAbsolute path = false := by
  by_contra habsolute
  rw [Bool.not_eq_false, isAbsolute, beq_iff_eq, List.head?_eq_some_iff] at habsolute
  obtain ⟨cs, hcs⟩ := habsolute
  have hpath : path = "" ++ "/" ++ String.ofList cs := by simp [← String.toList_inj, hcs]
  have hempty : "" ∈ components path := by
    rw [hpath, components_append_slash]
    exact List.mem_append_left _ (List.mem_singleton.2 rfl)
  exact (h "" hempty).1 rfl

/-- **A path of names only is clean.** -/
theorem clean_eq (h : Plain path) : clean path = path := by
  rw [clean, h.isAbsolute_eq, resolve_of_forall_isName h, render, if_neg (by decide),
    if_neg (by simpa using components_ne_nil path), intercalate_components]

/-- Whatever is in front of it, a joined path has the base of the path. -/
theorem base_join (h : Plain path) (front : String) : base (join [front, path]) = base path :=
  base_of_endsIn (endsIn_join h.endsIn.1 h.endsIn.2 front) h.endsIn.2.1

end Plain

end Path

end IncludeScan
