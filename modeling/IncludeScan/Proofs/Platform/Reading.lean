import IncludeScan.Platform.File
import Mathlib.Data.List.Forall2

/-!
# Proofs/Platform/Reading — what a platform file says that its schema describes

The fields of a platform file are taken out of a value without a look at what else the value may be.
Where the schema describes it, the file that comes out is what the value says, field by field: a
name for each text of a list, a rule for each record, in their order, and the defaults where a field
is missing.

`PlatformFile.describedBy_ofValue` — the file in a value that the schema describes.
-/

namespace IncludeScan

/-! ## Records and lists of a schema -/

theorem Value.get_eq {v : Value} {entries : List (String × Value)} (h : v.entries? = some entries)
    (key : String) : v.get key = (entries.lookup key).getD .null := by
  cases v with
  | object others =>
    obtain rfl := Option.some.inj h
    rfl
  | instant t =>
    obtain rfl := Option.some.inj h
    rfl
  | _ => cases h

namespace Schema

variable {required : List String} {fields : List (String × Schema)} {v : Value}

theorem acceptsFields_iff {entries : List (String × Value)} :
    AcceptsFields fields entries
      ↔ ∀ f ∈ fields, ∀ w, entries.lookup f.1 = some w → f.2.Accepts w := by
  induction fields with
  | nil => simp [AcceptsFields]
  | cons f fields ih => rw [AcceptsFields, ih, List.forall_mem_cons]

/-- **The entries of a record that is accepted**: a field that is required is there, and any field
that is there is what it has to be. -/
structure Fields (required : List String) (fields : List (String × Schema)) (v : Value)
    (entries : List (String × Value)) : Prop where
  get : ∀ key, v.get key = (entries.lookup key).getD .null
  present : ∀ key ∈ required, (entries.lookup key).isSome = true
  accepted : ∀ f ∈ fields, ∀ w, entries.lookup f.1 = some w → f.2.Accepts w

theorem exists_fields (h : (record required fields).Accepts v) :
    ∃ entries, v.entries? = some entries ∧ Fields required fields v entries := by
  rw [Accepts] at h
  obtain ⟨entries, hentries, hpresent, -, hfields⟩ := h
  exact ⟨entries, hentries, Value.get_eq hentries, hpresent, acceptsFields_iff.1 hfields⟩

namespace Fields

variable {entries : List (String × Value)} (h : Fields required fields v entries)
  (key : String) (field : Schema)

include h

/-- A field that is required. -/
theorem get_required (hkey : key ∈ required) (hfield : (key, field) ∈ fields) :
    entries.lookup key = some (v.get key) ∧ field.Accepts (v.get key) := by
  obtain ⟨w, hw⟩ := Option.isSome_iff_exists.1 (h.present key hkey)
  rw [h.get, hw, Option.getD_some]
  exact ⟨rfl, h.accepted _ hfield w hw⟩

/-- A field that may be missing. -/
theorem get_optional (hfield : (key, field) ∈ fields) :
    entries.lookup key = none ∧ v.get key = .null
      ∨ entries.lookup key = some (v.get key) ∧ field.Accepts (v.get key) := by
  rw [h.get]
  cases hlookup : entries.lookup key with
  | none => exact Or.inl ⟨rfl, rfl⟩
  | some w => exact Or.inr ⟨rfl, h.accepted _ hfield w hlookup⟩

end Fields

/-- **A list of texts is the list of its names.** -/
theorem texts_of_accepts {spelling : Spelling} {nonempty distinct : Bool}
    (h : (list (.text spelling) nonempty distinct).Accepts v) :
    v = .array (v.texts.map .string) ∧ (∀ name ∈ v.texts, spelling.accepts name = true)
      ∧ (nonempty = true → v.texts ≠ []) := by
  rw [Accepts] at h
  obtain ⟨items, rfl, hnonempty, hitems, -⟩ := h
  have htext : ∀ w ∈ items, w = .string w.text ∧ spelling.accepts w.text = true := by
    intro w hw
    have hw := hitems w hw
    rw [Accepts] at hw
    obtain ⟨s, rfl, hs⟩ := hw
    exact ⟨rfl, hs⟩
  refine ⟨?_, List.forall_mem_map.2 fun w hw => (htext w hw).2, fun hne hnil => ?_⟩
  · refine congrArg Value.array ?_
    rw [Value.texts, Value.items, List.map_map]
    exact (List.map_id _).symm.trans (List.map_congr_left fun w hw => (htext w hw).1)
  · exact hnonempty hne (List.map_eq_nil_iff.1 hnil)

end Schema

/-! ## What a value describes -/

/-- How a list of names is written: as a star, or name by name. -/
def NameList.WrittenAs (v : Value) : NameList → Prop
  | .every => v = .string "*"
  | .listed names => v = .array (names.map .string) ∧ names ≠ []
    ∧ ∀ name ∈ names, Spelling.name.accepts name = true

/-- **The rule that a record describes**: its fields, and where they are missing the value 1 and no
wildcards. -/
structure MacroRule.DescribedBy (entries : List (String × Value)) (r : MacroRule) : Prop where
  names : entries.lookup "names" = some (.array (r.names.map .string))
  named : r.names ≠ []
  identifiers : ∀ name ∈ r.names, isIdentifier name = true
  value : entries.lookup "value" = none ∧ r.value = 1
    ∨ ∃ n, entries.lookup "value" = some (.number n) ∧ n.toInt? = some r.value
  os : ∃ v, entries.lookup "os" = some v ∧ r.os.WrittenAs v
  arch : ∃ v, entries.lookup "arch" = some v ∧ r.arch.WrittenAs v
  anyArch : entries.lookup "anyArch" = none ∧ r.anyArch = false
    ∨ entries.lookup "anyArch" = some (.bool r.anyArch)
  anyOs : entries.lookup "anyOs" = none ∧ r.anyOs = false
    ∨ entries.lookup "anyOs" = some (.bool r.anyOs)

/-- The other names that a field of a record gives, in its order; none where it is missing. -/
def AliasesAt (key : String) (entries : List (String × Value)) (aliases : List (String × String)) :
    Prop :=
  entries.lookup key = none ∧ aliases = []
    ∨ ∃ v, entries.lookup key = some v
      ∧ v.entries? = some (aliases.map fun a => (a.1, .string a.2))
      ∧ ∀ a ∈ aliases, Spelling.name.accepts a.2 = true

/-- **The platform file that a value describes**: its known names, its other names and, in their
order, its rules. -/
structure PlatformFile.DescribedBy (v : Value) (file : PlatformFile) : Prop where
  os : v.get "os" = .array (file.os.map .string)
  arch : v.get "arch" = .array (file.arch.map .string)
  spelled : ∀ name ∈ file.os ++ file.arch, Spelling.name.accepts name = true
  osAliases : AliasesAt "os" ((v.get "aliases").entries?.getD []) file.osAliases
  archAliases : AliasesAt "arch" ((v.get "aliases").entries?.getD []) file.archAliases
  rules : ∃ items, v.get "macros" = .array items
    ∧ List.Forall₂ (fun item r => ∃ entries, item.entries? = some entries ∧ r.DescribedBy entries)
      items file.rules

/-! ## What is taken out of a value -/

theorem NameList.writtenAs_ofValue {v : Value} (h : Schema.nameList.Accepts v) :
    (NameList.ofValue v).WrittenAs v := by
  rw [Schema.nameList, Schema.Accepts] at h
  rcases h with ⟨hstar, -⟩ | ⟨hstar, hlist⟩
  · rw [Schema.Accepts] at hstar
    subst hstar
    rfl
  · obtain ⟨hv, hspelled, hne⟩ := Schema.texts_of_accepts hlist
    have htext : v.text = "" := congrArg Value.text hv
    rw [ofValue, htext, if_neg (by decide)]
    exact ⟨hv, hne rfl, hspelled⟩

/-- A flag is missing or there. -/
theorem Schema.Fields.flag {required : List String} {fields : List (String × Schema)} {v : Value}
    {entries : List (String × Value)} (h : Fields required fields v entries) {key : String}
    (hfield : (key, Schema.boolean) ∈ fields) :
    entries.lookup key = none ∧ (v.get key).isTrue = false
      ∨ entries.lookup key = some (.bool (v.get key).isTrue) := by
  rcases h.get_optional _ _ hfield with ⟨hnone, hnull⟩ | ⟨hsome, haccepts⟩
  · rw [hnull]
    exact Or.inl ⟨hnone, rfl⟩
  · rw [Accepts] at haccepts
    obtain ⟨b, hb⟩ := haccepts
    rw [hb] at hsome ⊢
    exact Or.inr hsome

/-- **The rule in a record is the one that the record describes.** -/
theorem MacroRule.describedBy_ofValue {v : Value} (h : Schema.macroRule.Accepts v) :
    ∃ entries, v.entries? = some entries ∧ (MacroRule.ofValue v).DescribedBy entries := by
  obtain ⟨entries, hentries, hfields⟩ := Schema.exists_fields h
  obtain ⟨hnames, hnamesAccept⟩ := hfields.get_required "names"
    (.list (.text .identifier) true false) (by simp) (by simp)
  obtain ⟨hos, hosAccept⟩ := hfields.get_required "os" .nameList (by simp) (by simp)
  obtain ⟨harch, harchAccept⟩ := hfields.get_required "arch" .nameList (by simp) (by simp)
  obtain ⟨hv, hidentifiers, hne⟩ := Schema.texts_of_accepts hnamesAccept
  refine ⟨entries, hentries, ?_⟩
  exact {
    names := hnames.trans (congrArg some hv)
    named := hne rfl
    identifiers := hidentifiers
    value := by
      rcases hfields.get_optional "value" .integer (by simp) with ⟨hnone, hnull⟩ | ⟨hsome, haccepts⟩
      · refine Or.inl ⟨hnone, ?_⟩
        rw [ofValue, hnull]
        rfl
      · rw [Schema.Accepts] at haccepts
        obtain ⟨n, i, hn, hi⟩ := haccepts
        refine Or.inr ⟨n, hn ▸ hsome, ?_⟩
        simp only [ofValue, hn, Value.integer?, hi, Option.getD_some]
    os := ⟨_, hos, NameList.writtenAs_ofValue hosAccept⟩
    arch := ⟨_, harch, NameList.writtenAs_ofValue harchAccept⟩
    anyArch := hfields.flag (by simp)
    anyOs := hfields.flag (by simp) }

/-- **Other names are taken entry by entry.** -/
theorem Value.entries?_of_aliasMap {v : Value} (h : Schema.aliasMap.Accepts v) :
    v.entries? = some (v.textEntries.map fun a => (a.1, .string a.2))
      ∧ ∀ a ∈ v.textEntries, Spelling.name.accepts a.2 = true := by
  rw [Schema.aliasMap, Schema.Accepts] at h
  obtain ⟨entries, hentries, hall⟩ := h
  have htext : ∀ e ∈ entries,
      e = (e.1, .string e.2.text) ∧ Spelling.name.accepts e.2.text = true := by
    intro e he
    have haccepts := hall e he
    rw [Schema.name, Schema.Accepts] at haccepts
    obtain ⟨s, hs, hspelled⟩ := haccepts
    rw [hs]
    exact ⟨Prod.ext rfl hs, hspelled⟩
  rw [textEntries, hentries, Option.getD_some, List.map_map]
  refine ⟨congrArg some ?_, List.forall_mem_map.2 fun e he => (htext e he).2⟩
  exact (List.map_id _).symm.trans (List.map_congr_left fun e he => (htext e he).1)

theorem aliasesAt_of_fields {required : List String} {fields : List (String × Schema)} {v : Value}
    {entries : List (String × Value)} (h : Schema.Fields required fields v entries) {key : String}
    (hfield : (key, Schema.aliasMap) ∈ fields) :
    AliasesAt key entries (v.get key).textEntries := by
  rcases h.get_optional _ _ hfield with ⟨hnone, hnull⟩ | ⟨hsome, haccepts⟩
  · rw [hnull]
    exact Or.inl ⟨hnone, rfl⟩
  · exact Or.inr ⟨_, hsome, Value.entries?_of_aliasMap haccepts⟩

/-- The field with the other names, which may be missing. -/
theorem aliasesAt_of_aliases {v : Value} {entries : List (String × Value)}
    {required : List String} {fields : List (String × Schema)}
    (h : Schema.Fields required fields v entries)
    (hfield : ("aliases", Schema.record [] [("os", .aliasMap), ("arch", .aliasMap)]) ∈ fields) :
    AliasesAt "os" ((v.get "aliases").entries?.getD []) ((v.get "aliases").get "os").textEntries
      ∧ AliasesAt "arch" ((v.get "aliases").entries?.getD [])
        ((v.get "aliases").get "arch").textEntries := by
  rcases h.get_optional _ _ hfield with ⟨-, hnull⟩ | ⟨-, haccepts⟩
  · rw [hnull]
    exact ⟨Or.inl ⟨rfl, rfl⟩, Or.inl ⟨rfl, rfl⟩⟩
  · obtain ⟨named, hnamed, hothers⟩ := Schema.exists_fields haccepts
    rw [hnamed, Option.getD_some]
    exact ⟨aliasesAt_of_fields hothers (by simp), aliasesAt_of_fields hothers (by simp)⟩

/-- **The file in a value that the schema describes is what the value says.** -/
theorem PlatformFile.describedBy_ofValue {v : Value} (h : schema.Accepts v) :
    (ofValue v).DescribedBy v := by
  obtain ⟨entries, hentries, hfields⟩ := Schema.exists_fields h
  obtain ⟨-, hos⟩ := hfields.get_required "os" (.list .name true true) (by simp) (by simp)
  obtain ⟨-, harch⟩ := hfields.get_required "arch" (.list .name true true) (by simp) (by simp)
  obtain ⟨-, hmacros⟩ :=
    hfields.get_required "macros" (.list .macroRule false false) (by simp) (by simp)
  have haliases := aliasesAt_of_aliases hfields (by simp)
  obtain ⟨hosTexts, hosSpelled, -⟩ := Schema.texts_of_accepts hos
  obtain ⟨harchTexts, harchSpelled, -⟩ := Schema.texts_of_accepts harch
  rw [Schema.Accepts] at hmacros
  obtain ⟨items, hitems, -, hrules, -⟩ := hmacros
  exact {
    os := hosTexts
    arch := harchTexts
    spelled := List.forall_mem_append.2 ⟨hosSpelled, harchSpelled⟩
    osAliases := haliases.1
    archAliases := haliases.2
    rules := by
      refine ⟨items, hitems, ?_⟩
      rw [ofValue, hitems]
      refine List.forall₂_map_right_iff.2 (List.forall₂_same.2 fun item hitem => ?_)
      exact MacroRule.describedBy_ofValue (hrules item hitem) }

/-! ## Files that are well formed -/

/-- **A platform file that is well formed**: all names are spelled as names, and each rule names a
macro. -/
structure PlatformFile.WellFormed (file : PlatformFile) : Prop where
  spelled : ∀ name ∈ file.os ++ file.arch, Spelling.name.accepts name = true
  osAliases : ∀ a ∈ file.osAliases, Spelling.name.accepts a.2 = true
  archAliases : ∀ a ∈ file.archAliases, Spelling.name.accepts a.2 = true
  named : ∀ r ∈ file.rules, r.names ≠ []

/-- What other names stand for is spelled as a name. -/
theorem AliasesAt.accepts {key : String} {entries : List (String × Value)}
    {aliases : List (String × String)} (h : AliasesAt key entries aliases) :
    ∀ a ∈ aliases, Spelling.name.accepts a.2 = true := by
  rcases h with ⟨-, rfl⟩ | ⟨v, -, -, haccepts⟩
  · exact fun a ha => absurd ha List.not_mem_nil
  · exact haccepts

/-- What a value describes is well formed. -/
theorem PlatformFile.DescribedBy.wellFormed {v : Value} {file : PlatformFile}
    (h : file.DescribedBy v) : file.WellFormed where
  spelled := h.spelled
  osAliases := h.osAliases.accepts
  archAliases := h.archAliases.accepts
  named r hr := by
    obtain ⟨items, -, hrules⟩ := h.rules
    obtain ⟨i, hi, rfl⟩ := List.getElem_of_mem hr
    obtain ⟨entries, -, hdescribed⟩ := hrules.get (hrules.length_eq ▸ hi) hi
    exact hdescribed.named

end IncludeScan
