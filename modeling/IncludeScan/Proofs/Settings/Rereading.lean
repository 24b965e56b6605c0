import IncludeScan.Proofs.Text.Names
import IncludeScan.Settings

/-!
# Proofs/Settings/Rereading — settings that are written back are read as they were

What is read of a value is in a normal form: texts are trimmed, lists of names are *tidy*, and the
codes to leave out are some of all codes, in order.  Each of the readers gives back a normal form
that is written as a value (`readList_array`, `readSearches_array`, `readDisabled_array`), so the
second reading changes nothing.

One thing is lost, since there is no name to write it by: what is no code among the diagnostics to
leave out.

`ReadSettings.ofValue_toValue` — settings are read back, less that.
-/

namespace IncludeScan

/-! ## Writing settings -/

/-- A search as a value. -/
def Path.Search.toValue (s : Search) : Value :=
  .object [("stripIncludePrefix", .string s.strip), ("includePrefix", .string s.front)]

/-- A layout as a value. -/
def Path.Layout.toValue (l : Layout) : Value :=
  .object [("rel", .string l.rel), ("stripIncludePrefix", .string l.strip),
    ("includePrefix", .string l.front), ("searches", .array (l.searches.map Search.toValue))]

/-- **Settings as a value**, with the diagnostics to leave out as a list of their codes. -/
def Settings.toValue (s : Settings) : Value :=
  .object [("platforms", .array (s.platforms.map .string)),
    ("macros", .array (s.macros.map .string)), ("grouping", s.grouping.toValue),
    ("diagnostics", .object [("disable", .array (s.disable.map fun code => .string code.id))]),
    ("debug", .bool s.debug)]

namespace Settings

/-! ## Texts and lists -/

/-- **A tidy list of names**: they are distinct, none is empty, and none has white space at an
end. -/
structure Tidy (names : List String) : Prop where
  nodup : names.Nodup
  ne_empty : ∀ s ∈ names, s ≠ ""
  trimmed : ∀ s ∈ names, Text.Trimmed s.toList

theorem trimmed_readText (v : Value) : Text.Trimmed (readText v).toList := by
  cases v with
  | string s => exact Text.trimmed_trim s
  | null | bool | number | instant | array | object => exact (by decide : Text.Trimmed "".toList)

theorem readText_string {s : String} (h : Text.Trimmed s.toList) : readText (.string s) = s :=
  Text.trim_of_trimmed h

theorem tidy_readList (v : Value) : Tidy (readList v) := by
  have hmem : ∀ s ∈ readList v, (∃ item, readText item = s) ∧ s ≠ "" := by
    intro s hs
    rw [readList, List.mem_eraseDups, List.mem_filter, List.mem_map] at hs
    obtain ⟨⟨item, -, hitem⟩, hne⟩ := hs
    exact ⟨⟨item, hitem⟩, by simpa using hne⟩
  refine ⟨nodup_eraseDups _, fun s hs => (hmem s hs).2, fun s hs => ?_⟩
  obtain ⟨item, rfl⟩ := (hmem s hs).1
  exact trimmed_readText item

/-- **A tidy list is read as it is.** -/
theorem readList_array {names : List String} (h : Tidy names) :
    readList (.array (names.map .string)) = names := by
  have htexts : (names.map Value.string).map readText = names := by
    rw [List.map_map]
    exact (List.map_congr_left fun s hs => readText_string (h.trimmed s hs)).trans
      (List.map_id names)
  have hkept : names.filter (fun s => s != "") = names :=
    List.filter_eq_self.2 fun s hs => bne_iff_ne.2 (h.ne_empty s hs)
  rw [readList, readItems, htexts, hkept, eraseDups_of_nodup h.nodup]

/-! ## Layouts -/

theorem readSearch_toValue {s : Path.Search} (hstrip : Text.Trimmed s.strip.toList)
    (hfront : Text.Trimmed s.front.toList) : readSearch s.toValue = s := by
  have hstrip' := readText_string hstrip
  have hfront' := readText_string hfront
  exact congrArg₂ Path.Search.mk hstrip' hfront'

theorem trimmed_of_mem_readSearches {v : Value} {s : Path.Search} (h : s ∈ readSearches v) :
    Text.Trimmed s.strip.toList ∧ Text.Trimmed s.front.toList := by
  cases v with
  | array items =>
    obtain ⟨item, -, hitem⟩ := List.mem_filterMap.1 h
    obtain ⟨-, -, rfl⟩ := Option.map_eq_some_iff.1 hitem
    exact ⟨trimmed_readText _, trimmed_readText _⟩
  | null | bool | number | string | instant | object => cases h

theorem readSearches_array {searches : List Path.Search}
    (h : ∀ s ∈ searches, Text.Trimmed s.strip.toList ∧ Text.Trimmed s.front.toList) :
    readSearches (.array (searches.map Path.Search.toValue)) = searches := by
  induction searches with
  | nil => rfl
  | cons s searches ih =>
    obtain ⟨⟨hstrip, hfront⟩, hsearches⟩ := List.forall_mem_cons.1 h
    exact congrArg₂ List.cons (readSearch_toValue hstrip hfront) (ih hsearches)

/-- **A layout is read back.** -/
theorem readLayout_toValue (v : Value) : readLayout (readLayout v).toValue = readLayout v := by
  have hfields : readLayout (readLayout v).toValue
      = ⟨readText (.string (readText (v.get "rel"))),
        readText (.string (readText (v.get "stripIncludePrefix"))),
        readText (.string (readText (v.get "includePrefix"))),
        readSearches (.array ((readSearches (v.get "searches")).map Path.Search.toValue))⟩ := rfl
  rw [hfields, readText_string (trimmed_readText _), readText_string (trimmed_readText _),
    readText_string (trimmed_readText _), readSearches_array fun s => trimmed_of_mem_readSearches]
  rfl

/-! ## Diagnostics to leave out -/

theorem ofName?_id (code : DiagnosticCode) : DiagnosticCode.ofName? code.id = some code := by
  cases code <;> decide

theorem isStray_id (code : DiagnosticCode) : DiagnosticCode.isStray code.id = false := by
  cases code <;> decide

theorem tidy_ids {codes : List DiagnosticCode} (h : codes.Nodup) :
    Tidy (codes.map DiagnosticCode.id) where
  nodup := h.map fun a b hab => Option.some.inj (by rw [← ofName?_id a, ← ofName?_id b, hab])
  ne_empty := List.forall_mem_map.2 fun code _ => by cases code <;> decide
  trimmed := List.forall_mem_map.2 fun code _ => by cases code <;> decide

/-- The names of codes are read as they are. -/
theorem readDisabledNames_ids {codes : List DiagnosticCode} (h : codes.Nodup) :
    readDisabledNames (.array (codes.map fun code => .string code.id))
      = codes.map DiagnosticCode.id := by
  have hlist := readList_array (tidy_ids h)
  rwa [List.map_map] at hlist

/-- **Codes are read back in order.** -/
theorem readDisabled_array (p : DiagnosticCode → Bool) :
    readDisabled (.array ((DiagnosticCode.all.filter p).map fun code => .string code.id))
      = DiagnosticCode.all.filter p := by
  have hnodup : (DiagnosticCode.all.filter p).Nodup := List.Nodup.filter p (by decide)
  have hnamed :
      ((DiagnosticCode.all.filter p).map DiagnosticCode.id).filterMap DiagnosticCode.ofName?
      = DiagnosticCode.all.filter p := by
    rw [List.filterMap_map]
    exact (List.filterMap_congr fun code _ => ofName?_id code).trans List.filterMap_some
  rw [readDisabled, readDisabledNames_ids hnodup, hnamed]
  refine List.filter_congr fun code hcode => ?_
  rw [Bool.eq_iff_iff, List.contains_iff_mem, List.mem_filter]
  exact and_iff_right hcode

theorem readStray_array {codes : List DiagnosticCode} (h : codes.Nodup) :
    readStray (.array (codes.map fun code => .string code.id)) = false := by
  rw [readStray, readDisabledNames_ids h, List.any_map, List.any_eq_false]
  exact fun code _ => Bool.eq_false_iff.1 (isStray_id code)

/-! ## Settings -/

/-- **Settings are read back.** -/
theorem read_toValue (v : Value) : read (read v).toValue = read v := by
  have hfields : read (read v).toValue
      = ⟨readList (.array ((read v).platforms.map .string)),
        readList (.array ((read v).macros.map .string)), readLayout (read v).grouping.toValue,
        readDisabled (.array ((read v).disable.map fun code => .string code.id)), (read v).debug⟩ :=
        rfl
  have hplatforms : readList (.array ((read v).platforms.map .string)) = (read v).platforms :=
    readList_array (tidy_readList _)
  have hmacros : readList (.array ((read v).macros.map .string)) = (read v).macros :=
    readList_array (tidy_readList _)
  have hgrouping : readLayout (read v).grouping.toValue = (read v).grouping := readLayout_toValue _
  have hdisable :
      readDisabled (.array ((read v).disable.map fun code => .string code.id)) = (read v).disable :=
    readDisabled_array _
  rw [hfields, hplatforms, hmacros, hgrouping, hdisable]

end Settings

namespace ReadSettings

open Settings

/-- What is no code is not written. -/
theorem stray_toValue (v : Value) : (ofValue (ofValue v).toValue).stray = false :=
  readStray_array (List.Nodup.filter _ (by decide))

/-- **What is read is in normal form.**  The platforms and the macros are distinct, not empty and
trimmed.  Written back, with the diagnostics to leave out as a list of their codes, the settings are
read as they were but for what is no code; so they are read as they were exactly if no name of a
diagnostic to leave out, trimmed and in lower case, is `constructor`. -/
theorem ofValue_toValue (v : Value) :
    Tidy (ofValue v).platforms ∧ Tidy (ofValue v).macros
    ∧ ofValue (ofValue v).toValue = { ofValue v with stray := false }
    ∧ (ofValue (ofValue v).toValue = ofValue v ↔
        ∀ name ∈ readDisabledNames ((v.get "diagnostics").get "disable"),
          DiagnosticCode.friendly (Text.trimChars name.toList) ≠ "constructor".toList) := by
  have hback : ofValue (ofValue v).toValue = { ofValue v with stray := false } :=
    congrArg₂ ReadSettings.mk (read_toValue v) (stray_toValue v)
  have hstray : ofValue (ofValue v).toValue = ofValue v ↔ (ofValue v).stray = false := by
    rw [hback]
    exact ⟨fun h => (congrArg stray h).symm, fun h => congrArg (ReadSettings.mk (read v)) h.symm⟩
  refine ⟨tidy_readList _, tidy_readList _, hback, ?_⟩
  rw [hstray]
  exact List.any_eq_false.trans (by simp [DiagnosticCode.isStray])

/-- A name that is no code's is taken for one, and is gone when the settings are read again. -/
theorem ofValue_toValue_constructor :
    ofValue (ofValue (.object
      [("diagnostics", .object [("disable", .array [.string "constructor"])])])).toValue
      ≠ ofValue (.object [("diagnostics",
        .object [("disable", .array [.string "constructor"])])]) := by
  decide

end ReadSettings

end IncludeScan
