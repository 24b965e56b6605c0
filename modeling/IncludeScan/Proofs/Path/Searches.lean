import IncludeScan.Path.Variant
import IncludeScan.Proofs.Path.Spelling

/-!
# Proofs/Path/Searches — the path by which a search finds a header, component by component

A directory is taken off a path as text: the path begins with the directory and a slash.  Said with
components, those of the directory stand in front of those of the path (`dropDirectory_eq`), so
`pkg` is not taken off `pkgx/a.h`.

* `parts_transform` — where all paths are trails, a search puts its front path in place of what it
  strips, and keeps the header whole if it lies elsewhere.
* `transform_respelled_iff` — which spellings of the settings give the same path.  A front path, and
  a strip path of the package, are cleaned before they are used.  A strip path of the repository is
  compared as it is written, and so is the package's own directory where it is stripped; a header in
  such a directory is overlooked if the directory is not written in its shortest form
  (`transform_respelled_slash`).
-/

namespace IncludeScan.Path

/-! ## Taking off a directory -/

/-- **A directory is taken off by its components.** -/
theorem dropDirectory_eq {dir : String} (hempty : dir ≠ "") (hdot : dir ≠ ".") (path : String) :
    dropDirectory dir path
      = if components dir <+: components path then
          "/".intercalate ((components path).drop (components dir).length)
        else path := by
  rw [dropDirectory, if_neg (by simp [hempty, hdot])]
  by_cases hself : path = dir
  · rw [if_pos hself, hself, if_pos (List.prefix_refl _), List.drop_length, String.intercalate_nil]
  rw [if_neg hself]
  by_cases hfront : (dir.toList ++ ['/']).isPrefixOf path.toList = true
  · obtain ⟨rest, hpath, hdrop⟩ := exists_behind_slash hfront
    have hcomponents : components path = components dir ++ components rest := by
      rw [hpath, components_append_slash]
    rw [if_pos hfront, hdrop, hcomponents, if_pos (List.prefix_append _ _), List.drop_left,
      intercalate_components]
  · rw [if_neg hfront, if_neg]
    rintro ⟨rest, hrest⟩
    have hpath := intercalate_components path
    rw [← hrest] at hpath
    rcases eq_or_ne rest [] with rfl | hne
    · rw [List.append_nil, intercalate_components] at hpath
      exact hself hpath.symm
    · rw [String.intercalate_append_of_ne_nil (components_ne_nil dir) hne,
        intercalate_components] at hpath
      refine hfront (List.isPrefixOf_iff_prefix.2 ⟨("/".intercalate rest).toList, ?_⟩)
      rw [← hpath]
      simp

/-- Components without those of a directory in front; outside the directory all are kept. -/
def namesBelow (dir cs : List String) : List String :=
  if dir <+: cs then cs.drop dir.length else cs

theorem namesBelow_eq_self_iff {dir cs : List String} :
    namesBelow dir cs = cs ↔ ¬ (dir ≠ [] ∧ dir <+: cs) := by
  by_cases hfront : dir <+: cs
  · rw [namesBelow, if_pos hfront]
    constructor
    · rintro hdrop ⟨hne, -⟩
      have hlength := congrArg List.length hdrop
      rw [List.length_drop] at hlength
      have hpos := List.length_pos_iff.2 hne
      have hle := hfront.length_le
      omega
    · intro h
      obtain rfl : dir = [] := by_contra fun hne => h ⟨hne, hfront⟩
      rfl
  · rw [namesBelow, if_neg hfront]
    exact iff_of_true rfl fun h => hfront h.2

namespace Trail

/-- The trail from a directory on, if it leads there. -/
def below (dir t : Trail) : Trail where
  names := namesBelow dir.names t.names
  proper := by
    rw [namesBelow]
    split
    · exact fun c hc => t.proper c (List.mem_of_mem_drop hc)
    · exact t.proper

@[simp] theorem names_below (dir t : Trail) : (below dir t).names = namesBelow dir.names t.names :=
  rfl

/-- **A directory in its shortest form is taken off.** -/
theorem dropDirectory_text (dir : Trail) {t : Trail} (ht : t.names ≠ []) :
    dropDirectory dir.text t.text = (below dir t).text := by
  by_cases hdir : dir.names = []
  · rw [text_of_names_eq_nil hdir, dropDirectory, if_pos (Or.inl rfl)]
    exact text_congr (namesBelow_eq_self_iff.2 fun h => h.1 hdir).symm
  · obtain ⟨hends, hname⟩ := (plain_text hdir).endsIn
    rw [dropDirectory_eq (hends.ne_empty hname) (hends.ne_dot hname), components_text hdir,
      components_text ht, text, text, names_below, namesBelow]
    split <;> rfl

/-- **A directory in any other form is not**: it has a component that no clean path has. -/
theorem dropDirectory_of_ne_text {dir t : Trail} {path : String} (hpath : namesOf path = dir.names)
    (hne : path ≠ dir.text) (ht : t.names ≠ []) : dropDirectory path t.text = t.text := by
  by_cases hempty : path = ""
  · rw [dropDirectory, if_pos (Or.inl hempty)]
  by_cases hdot : path = "."
  · rw [dropDirectory, if_pos (Or.inr hdot)]
  rw [dropDirectory_eq hempty hdot, if_neg]
  intro hfront
  rw [components_text ht] at hfront
  have hplain : Plain path := fun c hc => (t.proper c (hfront.subset hc)).1
  rw [namesOf_eq_components hplain] at hpath
  exact hne (by rw [text, ← hpath, intercalate_components])

/-- The directory holds the header, but it is not written in its shortest form. -/
def Overlooked (dir : Trail) (path : String) (header : Trail) : Prop :=
  path ≠ dir.text ∧ dir.names ≠ [] ∧ dir.names <+: header.names

end Trail

/-! ## Searches by components -/

/-- The components that a search strips off a header. -/
def strippedNames (absolute : Bool) (rel strip front : List String) : List String :=
  if absolute then strip
  else if strip ≠ [] then rel ++ strip
  else if front ≠ [] then rel
  else []

open Trail

variable {rel strip front header : Trail} {rel' strip' front' : String}

theorem strippedDirectory_absolute (rel strip front : String) :
    strippedDirectory rel ⟨"/" ++ strip, front⟩ = strip := by
  have hchars : ("/" ++ strip).toList = '/' :: strip.toList := by simp
  rw [strippedDirectory, isAbsolute, hchars, List.head?_cons, if_pos (by decide), List.drop_one,
    List.tail_cons, String.ofList_toList]

/-- A strip path of the package is joined to the package's directory. -/
theorem strippedDirectory_relative (hrel : rel.Spells rel') (hstrip : strip.Spells strip')
    (hne : strip.names ≠ []) (front : String) :
    strippedDirectory rel' ⟨strip', front⟩ = (rel ++ strip).text := by
  have hempty : strip' ≠ "" := fun heq => hne (names_eq_nil_of_spells_empty (heq ▸ hstrip))
  rw [strippedDirectory, hstrip.relative, if_neg (by decide), if_pos hempty]
  exact join_pair_of_spells hrel hstrip (by simp [hne])

theorem strippedDirectory_package (hne : front' ≠ "") (rel : String) :
    strippedDirectory rel ⟨"", front'⟩ = rel := by
  have hempty : isAbsolute "" = false := rfl
  rw [strippedDirectory, hempty, if_neg (by decide), if_neg (by simp), if_pos hne]

/-- A front path is put in front of what is left of a header. -/
theorem join_front (hfront : front.Spells front') (hempty : front.names = [] → front' = "")
    (rest : Trail) :
    join [front', rest.text] = (front ++ rest).text := by
  by_cases hne : (front ++ rest).names = []
  · rw [names_append, List.append_eq_nil_iff] at hne
    rw [hempty hne.1, text_of_names_eq_nil hne.2, text_of_names_eq_nil (by simp [hne])]
    rfl
  · exact join_pair_of_spells hfront rest.spells_text hne

/-- **A search puts its front path in place of the directory that it strips**, if that is in its
shortest form. -/
theorem transform_below {dir : Trail} (hfront : front.Spells front')
    (hempty : front.names = [] → front' = "") (hheader : header.names ≠ [])
    (hdir : strippedDirectory rel' ⟨strip', front'⟩ = dir.text) :
    transform rel' ⟨strip', front'⟩ header.text = (front ++ below dir header).text := by
  rw [transform, hdir, dropDirectory_text dir hheader, join_front hfront hempty]

theorem exists_strippedDirectory (rel strip front : Trail) (absolute : Bool) :
    ∃ dir : Trail, dir.names = strippedNames absolute rel.names strip.names front.names
      ∧ strippedDirectory rel.text ⟨(if absolute then "/" else "") ++ strip.text, front.text⟩
        = dir.text := by
  cases absolute with
  | true => exact ⟨strip, rfl, strippedDirectory_absolute ..⟩
  | false =>
    rw [if_neg (by decide), String.empty_append]
    by_cases hstrip : strip.names = []
    · rw [text_of_names_eq_nil hstrip]
      by_cases hfront : front.names = []
      · have hnone : strippedDirectory rel.text ⟨"", ""⟩ = "" := rfl
        refine ⟨⟨[], by simp⟩, by simp [strippedNames, hstrip, hfront], ?_⟩
        rw [text_of_names_eq_nil hfront, hnone]
        exact (text_of_names_eq_nil rfl).symm
      · refine ⟨rel, by simp [strippedNames, hstrip, hfront], ?_⟩
        exact strippedDirectory_package (plain_text hfront).ne_empty _
    · refine ⟨rel ++ strip, by simp [strippedNames, hstrip], ?_⟩
      exact strippedDirectory_relative rel.spells_text strip.spells_text hstrip _

/-- **The components of the path by which a search finds a header**: those of the front path, and
behind them those of the header without the stripped ones in front, or all of them if the stripped
ones do not stand there.  A strip path with a slash in front is stripped as it is, any other behind
the package's directory, and a front path alone strips that directory. -/
theorem parts_transform (rel strip front : Trail) {header : Trail} (hheader : header.names ≠ [])
    (absolute : Bool) :
    parts (transform rel.text ⟨(if absolute then "/" else "") ++ strip.text, front.text⟩
      header.text)
      = front.names ++ namesBelow (strippedNames absolute rel.names strip.names front.names)
        header.names := by
  obtain ⟨dir, hnames, hdir⟩ := exists_strippedDirectory rel strip front absolute
  rw [transform_below front.spells_text text_of_names_eq_nil hheader hdir, parts_text, names_append,
    names_below, hnames]

/-- A package's directory is not stripped off a header beside it, whose path begins with the same
letters. -/
theorem parts_transform_beside :
    let rel : Trail := ⟨["pkg"], by decide +kernel⟩
    let strip : Trail := ⟨[], by decide +kernel⟩
    let front : Trail := ⟨["vendor"], by decide +kernel⟩
    let header : Trail := ⟨["pkgx", "a.h"], by decide +kernel⟩
    header.names ≠ [] ∧ header.text = "pkgx/a.h"
      ∧ parts (transform rel.text ⟨(if false then "/" else "") ++ strip.text, front.text⟩
        header.text)
        = ["vendor", "pkgx", "a.h"] := by
  intro rel strip front header
  have hheader : header.names ≠ [] := List.cons_ne_nil _ _
  exact ⟨hheader, by decide +kernel, parts_transform rel strip front hheader false⟩

/-! ## Searches in other spellings -/

/-- A directory that is compared as it is written: another spelling gives another path exactly if
the header is overlooked. -/
theorem transform_as_written_iff {dir : Trail} {path : String} (hfront : front.Spells front')
    (hempty : front.names = [] → front' = "") (hheader : header.names ≠ [])
    (hpath : namesOf path = dir.names)
    {short : String} (hwritten : strippedDirectory rel' ⟨strip', front'⟩ = path)
    (hshort : strippedDirectory rel.text ⟨short, front.text⟩ = dir.text) :
    transform rel' ⟨strip', front'⟩ header.text = transform rel.text ⟨short, front.text⟩ header.text
      ↔ ¬ Overlooked dir path header := by
  rw [transform_below front.spells_text text_of_names_eq_nil hheader hshort]
  by_cases hself : path = dir.text
  · rw [transform_below hfront hempty hheader (hwritten.trans hself)]
    exact iff_of_true rfl fun h => h.1 hself
  · rw [transform, hwritten, dropDirectory_of_ne_text hpath hself hheader, join_front hfront hempty,
      text_inj, names_append, names_append, List.append_cancel_left_eq, names_below, eq_comm,
      namesBelow_eq_self_iff]
    exact not_congr (and_iff_right hself).symm

/-- **Which spellings of the settings give the same path.**  The package's directory and the front
path may be spelled in any way, and so may a strip path of the package; an empty strip or front path
is none at all and stays empty.  A strip path of the repository, and the package's directory where a
front path alone strips it, may be spelled otherwise if and only if the header does not lie
there. -/
theorem transform_respelled_iff (hheader : header.names ≠ []) (hrel : rel.Spells rel')
    (hfront : front.Spells front') (hempty : front.names = [] → front' = "") :
    (∀ strip', strip.Spells strip' → strip.names ≠ [] →
      transform rel' ⟨strip', front'⟩ header.text
        = transform rel.text ⟨strip.text, front.text⟩ header.text)
    ∧ (∀ strip', namesOf strip' = strip.names →
      (transform rel' ⟨"/" ++ strip', front'⟩ header.text
          = transform rel.text ⟨"/" ++ strip.text, front.text⟩ header.text
        ↔ ¬ Overlooked strip strip' header))
    ∧ (front.names ≠ [] →
      (transform rel' ⟨"", front'⟩ header.text = transform rel.text ⟨"", front.text⟩ header.text
        ↔ ¬ Overlooked rel rel' header))
    ∧ (front.names = [] →
      transform rel' ⟨"", front'⟩ header.text
        = transform rel.text ⟨"", front.text⟩ header.text) := by
  refine ⟨fun strip' hstrip hne => ?_, fun strip' hstrip => ?_, fun hne => ?_, fun hnil => ?_⟩
  · have hdir := strippedDirectory_relative hrel hstrip hne front'
    have hshort := strippedDirectory_relative rel.spells_text strip.spells_text hne front.text
    rw [transform_below hfront hempty hheader hdir,
      transform_below front.spells_text text_of_names_eq_nil hheader hshort]
  · exact transform_as_written_iff hfront hempty hheader hstrip (strippedDirectory_absolute ..)
      (strippedDirectory_absolute ..)
  · have hne' : front' ≠ "" := fun heq => hne (names_eq_nil_of_spells_empty (heq ▸ hfront))
    exact transform_as_written_iff hfront hempty hheader hrel.namesOf_eq
      (strippedDirectory_package hne' _)
      (strippedDirectory_package (plain_text hne).ne_empty _)
  · rw [hempty hnil, text_of_names_eq_nil hnil]
    rfl

/-- Slashes and dots in all three settings, with a strip path of the package. -/
theorem transform_respelled_iff_package :
    let rel : Trail := ⟨["pkg"], by decide +kernel⟩
    let strip : Trail := ⟨["include"], by decide +kernel⟩
    let front : Trail := ⟨["vendor"], by decide +kernel⟩
    let header : Trail := ⟨["pkg", "include", "a.h"], by decide +kernel⟩
    header.names ≠ [] ∧ rel.Spells "./pkg/" ∧ front.Spells "vendor/./" ∧ strip.Spells "include//"
      ∧ transform "./pkg/" ⟨"include//", "vendor/./"⟩ header.text
        = transform rel.text ⟨strip.text, front.text⟩ header.text
      ∧ transform rel.text ⟨strip.text, front.text⟩ header.text = "vendor/a.h" := by
  intro rel strip front header
  have hheader : header.names ≠ [] := List.cons_ne_nil _ _
  have hrel : rel.Spells "./pkg/" := ⟨by decide +kernel, by decide +kernel⟩
  have hfront : front.Spells "vendor/./" := ⟨by decide +kernel, by decide +kernel⟩
  have hstrip : strip.Spells "include//" := ⟨by decide +kernel, by decide +kernel⟩
  have hempty : front.names = [] → "vendor/./" = "" := fun h => absurd h (List.cons_ne_nil _ _)
  refine ⟨hheader, hrel, hfront, hstrip, ?_, by decide +kernel⟩
  exact (transform_respelled_iff hheader hrel hfront hempty).1 _ hstrip (List.cons_ne_nil _ _)

/-- **A slash at the end of a directory that is compared as it is written**: the directory is not
stripped, neither a strip path of the repository nor the directory of the package. -/
theorem transform_respelled_slash :
    namesOf "third_party/" = namesOf "third_party" ∧ namesOf "pkg/" = namesOf "pkg"
      ∧ transform "pkg" ⟨"/third_party", ""⟩ "third_party/lib/a.h" = "lib/a.h"
      ∧ transform "pkg" ⟨"/third_party/", ""⟩ "third_party/lib/a.h" = "third_party/lib/a.h"
      ∧ transform "pkg" ⟨"", "vendor"⟩ "pkg/a.h" = "vendor/a.h"
      ∧ transform "pkg/" ⟨"", "vendor"⟩ "pkg/a.h" = "vendor/pkg/a.h" := by
  decide +kernel

end IncludeScan.Path
