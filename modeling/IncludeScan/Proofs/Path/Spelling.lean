import IncludeScan.Proofs.Path.Components

/-!
# Proofs/Path/Spelling — one place, and the ways to write it

A *trail* is a list of names.  Its text puts slashes between them and nothing else, and the names
can be read off the text again (`parts_text`).  Other paths spell the trail as well: they may have
further slashes, and components that are a single dot.  Such components are skipped when a path is
resolved (`resolve_filter`), and so cleaning and joining do not see how a trail is spelled
(`clean_of_spells`, `join_pair_of_spells`).
-/

namespace IncludeScan.Path

/-! ## Trails -/

/-- **The names on the way to a place**, from a directory that is understood. -/
structure Trail where
  names : List String
  proper : ∀ c ∈ names, IsName c ∧ '/' ∉ c.toList

/-- The components of a path; the empty path has none. -/
def parts (path : String) : List String :=
  if path = "" then [] else components path

theorem components_intercalate {cs : List String} (hne : cs ≠ []) (h : ∀ c ∈ cs, '/' ∉ c.toList) :
    components ("/".intercalate cs) = cs := by
  induction cs with
  | nil => exact absurd rfl hne
  | cons c cs ih =>
    rw [List.forall_mem_cons] at h
    cases cs with
    | nil => rw [String.intercalate_singleton, components_of_notMem h.1]
    | cons d cs =>
      rw [String.intercalate_cons_cons, components_append_slash, components_of_notMem h.1,
        ih (List.cons_ne_nil _ _) h.2, List.singleton_append]

namespace Trail

/-- The shortest path to the place. -/
def text (t : Trail) : String := "/".intercalate t.names

instance : Append Trail where
  append a b := ⟨a.names ++ b.names, List.forall_mem_append.2 ⟨a.proper, b.proper⟩⟩

@[simp] theorem names_append (a b : Trail) : (a ++ b).names = a.names ++ b.names := rfl

theorem text_of_names_eq_nil {t : Trail} (h : t.names = []) : t.text = "" := by
  rw [text, h, String.intercalate_nil]

theorem text_congr {a b : Trail} (h : a.names = b.names) : a.text = b.text := by
  rw [text, text, h]

theorem components_text {t : Trail} (h : t.names ≠ []) : components t.text = t.names :=
  components_intercalate h fun c hc => (t.proper c hc).2

theorem plain_text {t : Trail} (h : t.names ≠ []) : Plain t.text := by
  rw [Plain, components_text h]
  exact fun c hc => (t.proper c hc).1

/-- **The names are read off the text.** -/
theorem parts_text (t : Trail) : parts t.text = t.names := by
  rw [parts]
  by_cases h : t.names = []
  · rw [if_pos (text_of_names_eq_nil h), h]
  · rw [if_neg (plain_text h).ne_empty, components_text h]

theorem text_inj {a b : Trail} : a.text = b.text ↔ a.names = b.names := by
  refine ⟨fun h => ?_, text_congr⟩
  rw [← parts_text a, h, parts_text]

theorem isAbsolute_text (t : Trail) : isAbsolute t.text = false := by
  by_cases h : t.names = []
  · rw [text_of_names_eq_nil h]
    rfl
  · exact (plain_text h).isAbsolute_eq

end Trail

/-! ## Components that say nothing -/

/-- The component leads nowhere: it is empty, or a single dot. -/
def isIdle (c : String) : Bool := c == "" || c == "."

/-- The components of a path that lead somewhere. -/
def namesOf (path : String) : List String := (components path).filter fun c => !isIdle c

theorem resolveStep_of_isIdle {c : String} (h : isIdle c = true) (absolute : Bool)
    (above : List String) :
    resolveStep absolute above c = above := by
  unfold resolveStep
  rw [if_pos (by simpa [isIdle] using h)]

/-- A step that skips the components that say nothing may as well not be given them. -/
theorem foldl_filter_isIdle {step : List String → String → List String}
    (h : ∀ {c}, isIdle c = true → ∀ above, step above c = above) (start cs : List String) :
    (cs.filter fun c => !isIdle c).foldl step start = cs.foldl step start := by
  have hstep : (fun above c => if (!isIdle c) = true then step above c else above) = step := by
    funext above c
    by_cases hc : isIdle c = true
    · rw [h hc, if_neg (by simp [hc])]
    · rw [if_pos (by simpa using hc)]
  rw [List.foldl_filter, hstep]

/-- **A path is resolved as if the components that say nothing were not there.** -/
theorem resolve_filter (absolute : Bool) (cs : List String) :
    resolve absolute (cs.filter fun c => !isIdle c) = resolve absolute cs := by
  rw [resolve, foldl_filter_isIdle fun hc => resolveStep_of_isIdle hc absolute, resolve]

theorem isIdle_of_isName {c : String} (h : IsName c) : isIdle c = false := by
  simp [isIdle, h.1, h.2.1]

theorem namesOf_eq_components {path : String} (h : Plain path) : namesOf path = components path :=
  List.filter_eq_self.2 fun c hc => by simp [isIdle_of_isName (h c hc)]

theorem namesOf_intercalate {cs : List String} (h : ∀ c ∈ cs, isIdle c = false)
    (hslash : ∀ c ∈ cs, '/' ∉ c.toList) : namesOf ("/".intercalate cs) = cs := by
  by_cases hcs : cs = []
  · rw [hcs, String.intercalate_nil]
    decide +kernel
  · rw [namesOf, components_intercalate hcs hslash, List.filter_eq_self]
    exact fun c hc => by simp [h c hc]

theorem namesOf_append_slash (front back : String) :
    namesOf (front ++ "/" ++ back) = namesOf front ++ namesOf back := by
  rw [namesOf, components_append_slash, List.filter_append, namesOf, namesOf]

/-! ## The spellings of a trail -/

namespace Trail

/-- **The path spells the trail**: it is relative, and what is left of its components are the
names. -/
structure Spells (t : Trail) (path : String) : Prop where
  relative : isAbsolute path = false
  namesOf_eq : namesOf path = t.names

theorem namesOf_text (t : Trail) : namesOf t.text = t.names :=
  namesOf_intercalate (fun c hc => isIdle_of_isName (t.proper c hc).1) fun c hc => (t.proper c hc).2

theorem spells_text (t : Trail) : t.Spells t.text := ⟨t.isAbsolute_text, t.namesOf_text⟩

variable {a b t : Trail} {path other : String}

theorem names_eq_nil_of_spells_empty (h : t.Spells "") : t.names = [] := by
  rw [← h.namesOf_eq]
  decide

theorem Spells.append_slash (h : a.Spells path) (h' : b.Spells other) (hne : path ≠ "") :
    (a ++ b).Spells (path ++ "/" ++ other) := by
  constructor
  · rw [String.append_assoc, isAbsolute_append hne, h.relative]
  · rw [namesOf_append_slash, h.namesOf_eq, h'.namesOf_eq, names_append]

/-- **Cleaning gives the text of the trail**, and a dot for the one without names. -/
theorem clean_of_spells (h : t.Spells path) :
    clean path = if t.names = [] then "." else t.text := by
  have hresolve : resolve false (components path) = t.names := by
    rw [← resolve_filter, ← namesOf, h.namesOf_eq]
    exact resolve_of_forall_isName fun c hc => (t.proper c hc).1
  rw [clean, h.relative, hresolve, render, if_neg (by decide)]
  simp only [List.isEmpty_iff]
  rfl

theorem clean_of_spells_of_ne (h : t.Spells path) (hne : t.names ≠ []) : clean path = t.text := by
  rw [clean_of_spells h, if_neg hne]

/-- **Two trails are joined in whatever way they are spelled.** -/
theorem join_pair_of_spells (h : a.Spells path) (h' : b.Spells other) (hne : (a ++ b).names ≠ []) :
    join [path, other] = (a ++ b).text := by
  by_cases hother : other = ""
  · subst hother
    have hb := names_eq_nil_of_spells_empty h'
    have hnames : (a ++ b).names = a.names := by rw [names_append, hb, List.append_nil]
    rw [hnames] at hne
    have hpath : path ≠ "" := fun heq => hne (names_eq_nil_of_spells_empty (heq ▸ h))
    rw [join_pair_empty, join_singleton hpath, clean_of_spells_of_ne h hne, text_congr hnames]
  · rw [join_pair _ hother]
    split
    · rename_i hpath
      have ha := names_eq_nil_of_spells_empty (hpath ▸ h)
      have hnames : (a ++ b).names = b.names := by rw [names_append, ha, List.nil_append]
      rw [clean_of_spells_of_ne h' (hnames ▸ hne), text_congr hnames]
    · rename_i hpath
      exact clean_of_spells_of_ne (h.append_slash h' hpath) hne

end Trail

end IncludeScan.Path
