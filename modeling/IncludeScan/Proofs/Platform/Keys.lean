import IncludeScan.Platform.Standard
import IncludeScan.Proofs.Path.Components
import IncludeScan.Proofs.Platform.Coverage
import IncludeScan.Proofs.Text.Sorting

/-!
# Proofs/Platform/Keys — platforms and the keys that stand for them

The names that a file may know have neither a slash nor white space in them, so a key can be taken
apart again (`Platform.splitAt_key`).  Two things follow.

* A table holds the macros of its platforms under their keys; all that was ever put there is of
  known names and not empty (`PlatformTable.Holds`), so the keys give the platforms back:
  `PlatformTable.platforms_ascending`.
* Reading a key asks for its two names: `PlatformTable.parsePlatform_key_iff`.  The answer is the
  same platform as long as neither name is another name for something else, which a known name may
  be (`PlatformTable.parsePlatform_key_chained`).

Both hold of the standard table without a condition (`PlatformTable.exists_standard`).
-/

namespace IncludeScan

/-! ## Names without white space -/

namespace Text

/-- Where there is no white space there is nothing to trim. -/
theorem trim_eq_self {s : String} (h : ∀ c ∈ s.toList, isSpace c = false) : trim s = s := by
  have hkept : ∀ cs ⊆ s.toList, cs.dropWhile isSpace = cs := fun cs hcs =>
    List.dropWhile_eq_self_iff.2 fun hl => by simp [h _ (hcs (List.getElem_mem hl))]
  rw [trim, trimChars, hkept _ (List.Subset.refl _),
    hkept _ (List.reverse_subset.2 (List.Subset.refl _)), List.reverse_reverse,
    String.ofList_toList]

end Text

theorem Spelling.isSpace_eq_false {s : String} (h : Spelling.name.accepts s = true) {c : Char}
    (hc : c ∈ s.toList) : Text.isSpace c = false := by
  simp only [accepts, Bool.and_eq_true, List.all_eq_true] at h
  have hpart := h.2 c hc
  rw [Bool.or_eq_true, isIdentPart_iff, beq_iff_eq, ← Char.toNat_inj] at hpart
  rw [← Bool.not_eq_true]
  simp only [Text.isSpace, Text.spaceRuns, List.any_cons, List.any_nil, Bool.or_eq_true,
    Bool.and_eq_true, decide_eq_true_eq, Bool.false_eq_true, or_false]
  have hhyphen : '-'.toNat = 45 := rfl
  omega

theorem Spelling.ne_empty {s : String} (h : Spelling.name.accepts s = true) : s ≠ "" := by
  rintro rfl
  exact absurd h (by decide)

/-! ## Keys -/

namespace Platform

/-- **A platform of known names**: each of the two is empty or known, and not both are empty. -/
structure KnownTo (os arch : List String) (p : Platform) : Prop where
  os : p.os = "" ∨ p.os ∈ os
  arch : p.arch = "" ∨ p.arch ∈ arch
  named : ¬ (p.os = "" ∧ p.arch = "")

/-- Known names are written without slashes and white space. -/
theorem KnownTo.chars {os arch : List String} {p : Platform} (h : p.KnownTo os arch)
    (hspelled : ∀ name ∈ os ++ arch, Spelling.name.accepts name = true) :
    ∀ c ∈ p.os.toList ++ p.arch.toList, c ≠ '/' ∧ Text.isSpace c = false := by
  have hname : ∀ name ∈ os ++ arch, ∀ c ∈ name.toList, c ≠ '/'
      ∧ Text.isSpace c = false := fun name hname c hc =>
    ⟨fun hslash => Spelling.slash_notMem (hspelled name hname) (hslash ▸ hc),
      Spelling.isSpace_eq_false (hspelled name hname) hc⟩
  refine List.forall_mem_append.2 ⟨?_, ?_⟩
  · rcases h.os with hempty | hmem
    · simp [hempty]
    · exact hname _ (List.mem_append_left _ hmem)
  · rcases h.arch with hempty | hmem
    · simp [hempty]
    · exact hname _ (List.mem_append_right _ hmem)

theorem KnownTo.plain {os arch : List String} {p : Platform} (h : p.KnownTo os arch)
    (hspelled : ∀ name ∈ os ++ arch, Spelling.name.accepts name = true) : p.Plain :=
  ⟨fun hslash => (h.chars hspelled _ (List.mem_append_left _ hslash)).1 rfl,
    fun hslash => (h.chars hspelled _ (List.mem_append_right _ hslash)).1 rfl⟩

/-- **The two names stand on both sides of the slash.** -/
theorem splitAt_key {p : Platform} (h : p.Plain) : Text.splitAt '/' p.key = [p.os, p.arch] := by
  have hsides := Path.components_append_slash p.os p.arch
  rwa [Path.components_of_notMem h.1, Path.components_of_notMem h.2] at hsides

theorem platformOfKey_key {p : Platform} (h : p.Plain) : PlatformTable.platformOfKey p.key = p := by
  rw [PlatformTable.platformOfKey, splitAt_key h]

/-! ## The order of platforms -/

theorem compareNames_eq_eq_iff {a b : String} : compareNames a b = .eq ↔ a = b := by
  unfold compareNames
  split_ifs <;> simp_all

theorem isLE_compareNames_iff {a b : String} :
    (compareNames a b).isLE = true ↔ Text.unitsLE a b = true := by
  have htotal := Text.unitsLE_total a b
  have hlt : Text.unitsLT a b = !Text.unitsLE b a := (Bool.not_not _).symm
  unfold compareNames
  split_ifs with heq hbefore
  · subst heq
    simpa [Ordering.isLE] using htotal
  · simp_all [Ordering.isLE]
  · have hba : Text.unitsLE b a = true := by simpa [hlt] using hbefore
    exact iff_of_false (by simp [Ordering.isLE]) fun hab => heq (Text.unitsLE_antisymm hab hba)

theorem compare_eq_eq_iff {a b : Platform} : compare a b = .eq ↔ a = b := by
  obtain ⟨os, arch⟩ := a
  obtain ⟨os', arch'⟩ := b
  rw [compare, Ordering.then_eq_eq, compareNames_eq_eq_iff, compareNames_eq_eq_iff, mk.injEq]

/-- The order from left to right. -/
theorem isLE_compare_iff {a b : Platform} :
    (compare a b).isLE = true
      ↔ Text.unitsLE a.os b.os = true ∧ (a.os = b.os → Text.unitsLE a.arch b.arch = true) := by
  rw [← isLE_compareNames_iff, ← isLE_compareNames_iff, ← compareNames_eq_eq_iff (a := a.os),
    compare]
  cases compareNames a.os b.os <;> simp [Ordering.then]

theorem isLE_compare_trans (a b c : Platform) (hab : (compare a b).isLE = true)
    (hbc : (compare b c).isLE = true) : (compare a c).isLE = true := by
  rw [isLE_compare_iff] at *
  refine ⟨Text.unitsLE_trans _ _ _ hab.1 hbc.1, fun hac => ?_⟩
  -- between equal systems there is no other
  have hos : a.os = b.os := Text.unitsLE_antisymm hab.1 (hac ▸ hbc.1)
  exact Text.unitsLE_trans _ _ _ (hab.2 hos) (hbc.2 (hos.symm.trans hac))

theorem isLE_compare_total (a b : Platform) :
    ((compare a b).isLE || (compare b a).isLE) = true := by
  rw [Bool.or_eq_true, isLE_compare_iff, isLE_compare_iff]
  by_cases hos : a.os = b.os
  · have hself : Text.unitsLE b.os b.os = true := by simpa using Text.unitsLE_total b.os b.os
    have harch := Bool.or_eq_true_iff.1 (Text.unitsLE_total a.arch b.arch)
    simpa [hos, hself] using harch
  · have hside := Bool.or_eq_true_iff.1 (Text.unitsLE_total a.os b.os)
    simpa [hos, Ne.symm hos] using hside

/-- **Different platforms are sorted into strictly ascending order.** -/
theorem pairwise_sort {ps : List Platform} (h : ps.Nodup) :
    (sort ps).Pairwise fun a b => compare a b = .lt := by
  have hle : (sort ps).Pairwise fun a b => (compare a b).isLE = true :=
    List.pairwise_mergeSort isLE_compare_trans isLE_compare_total ps
  have hne : (sort ps).Nodup := (List.mergeSort_perm ps _).nodup_iff.2 h
  refine (hle.and hne).imp fun {a b} hab => ?_
  have heq : compare a b ≠ .eq := fun heq => hab.2 (compare_eq_eq_iff.1 heq)
  have hside := hab.1
  cases hcompare : compare a b <;> simp_all

end Platform

/-! ## What a table holds -/

namespace PlatformTable

theorem keys_update (environments : List (String × Environment)) (key : String)
    (change : Environment → Environment) :
    (update environments key change).map Prod.fst
      = if key ∈ environments.map Prod.fst then environments.map Prod.fst
        else environments.map Prod.fst ++ [key] := by
  induction environments with
  | nil => rfl
  | cons e others ih =>
    obtain ⟨k, env⟩ := e
    rw [update]
    by_cases hk : k = key
    · simp [hk]
    · rw [if_neg (by simpa using hk), List.map_cons, ih]
      simp only [List.map_cons, List.mem_cons, Ne.symm hk, false_or]
      split_ifs <;> rfl

/-- What is found after a change was there before or was changed. -/
theorem mem_update {environments : List (String × Environment)} {key : String}
    {change : Environment → Environment} {e : String × Environment}
    (h : e ∈ update environments key change) : e ∈ environments ∨ ∃ env, e = (key, change env) := by
  induction environments with
  | nil => exact Or.inr ⟨.empty, List.mem_singleton.1 h⟩
  | cons e' others ih =>
    obtain ⟨k, env⟩ := e'
    rw [update] at h
    split at h
    · rename_i hk
      rcases List.mem_cons.1 h with rfl | h
      · exact Or.inr ⟨env, by rw [beq_iff_eq.1 hk]⟩
      · exact Or.inl (List.mem_cons_of_mem _ h)
    · rcases List.mem_cons.1 h with rfl | h
      · exact Or.inl List.mem_cons_self
      · exact (ih h).imp_left (List.mem_cons_of_mem _)

/-- **What a table holds**: under different keys the macros of platforms of known names, and never
none. -/
structure Holds (file : PlatformFile) (environments : List (String × Environment)) : Prop where
  distinct : (environments.map Prod.fst).Nodup
  known : ∀ e ∈ environments, ∃ p : Platform, p.KnownTo file.os file.arch ∧ e.1 = p.key
  defined : ∀ e ∈ environments, e.2 ≠ .empty

namespace Holds

variable {file : PlatformFile} {environments : List (String × Environment)}

/-- Changing one environment keeps that, as long as it does not make it empty. -/
theorem update (h : Holds file environments) {p : Platform} (hp : p.KnownTo file.os file.arch)
    {change : Environment → Environment} (hchange : ∀ env, change env ≠ .empty) :
    Holds file (update environments p.key change) where
  distinct := by
    rw [keys_update]
    split_ifs with hkey
    · exact h.distinct
    · exact List.concat_eq_append ▸ h.distinct.concat hkey
  known e he := by
    rcases mem_update he with he | ⟨env, rfl⟩
    · exact h.known e he
    · exact ⟨p, hp, rfl⟩
  defined e he := by
    rcases mem_update he with he | ⟨env, rfl⟩
    · exact h.defined e he
    · exact hchange env

end Holds

/-- Defining macros makes no environment empty. -/
theorem defineAll_ne_empty {r : MacroRule} (hnames : r.names ≠ [])
    (hreserved : Environment.reserved ∉ r.names) (env : Environment) :
    defineAll r env ≠ .empty := by
  obtain ⟨name, hname⟩ := List.exists_mem_of_ne_nil _ hnames
  intro hempty
  have hfind := find?_defineAll hreserved env name
  rw [hempty, if_pos hname] at hfind
  cases hfind

/-- **A rule writes under the keys of known platforms.** -/
theorem Holds.spread {file : PlatformFile} {environments : List (String × Environment)}
    (h : Holds file environments) {r : MacroRule} (hnames : r.names ≠ [])
    (hreserved : Environment.reserved ∉ r.names)
    (hknown : ∀ p, r.Covers file p → p.KnownTo file.os file.arch) :
    Holds file (spread file environments r) :=
  List.foldlRecOn _ _ h fun _ henvs p hp =>
    henvs.update (hknown p (mem_targets_iff.1 hp)) (defineAll_ne_empty hnames hreserved)

/-- A rule of known names covers platforms of known names. -/
theorem knownTo_of_covers {file : PlatformFile} (hfile : file.WellFormed) {r : MacroRule}
    (hr : r.Known file) {p : Platform} (hp : r.Covers file p) : p.KnownTo file.os file.arch := by
  obtain ⟨hos, harch⟩ := hr
  obtain ⟨hosSpelled, harchSpelled⟩ := List.forall_mem_append.1 hfile.spelled
  have hosName : p.os ∈ r.os.names file.os → p.os ≠ "" := fun hmem =>
    Spelling.ne_empty (hosSpelled _ (hos _ hmem))
  have harchName : p.arch ∈ r.arch.names file.arch → p.arch ≠ "" := fun hmem =>
    Spelling.ne_empty (harchSpelled _ (harch _ hmem))
  rcases hp with ⟨hpos, hparch⟩ | ⟨hempty, -, hpos⟩ | ⟨hempty, -, hparch⟩
  · exact ⟨Or.inr (hos _ hpos), Or.inr (harch _ hparch), fun hboth => hosName hpos hboth.1⟩
  · exact ⟨Or.inr (hos _ hpos), Or.inl hempty, fun hboth => hosName hpos hboth.1⟩
  · exact ⟨Or.inl hempty, Or.inr (harch _ hparch), fun hboth => harchName hparch hboth.2⟩

/-- **A table holds what its rules have put there.** -/
theorem holds_of_ofFile {file : PlatformFile} {table : PlatformTable}
    (htable : ofFile file = .ok table) (hfile : file.WellFormed)
    (hreserved : ∀ r ∈ file.rules, Environment.reserved ∉ r.names) :
    Holds file table.environments := by
  obtain ⟨hknown, rfl⟩ := ofFile_eq_ok_iff.1 htable
  refine List.foldlRecOn _ _ ⟨List.nodup_nil, by simp, by simp⟩ fun _ henvs r hr => ?_
  exact henvs.spread (hfile.named r hr) (hreserved r hr) fun p =>
    knownTo_of_covers hfile (hknown r hr)

/-- With different keys an entry is found under its key. -/
theorem lookup_of_mem {environments : List (String × Environment)}
    (h : (environments.map Prod.fst).Nodup) {key : String} {env : Environment}
    (hmem : (key, env) ∈ environments) :
    environments.lookup key = some env := by
  obtain ⟨before, after, rfl⟩ := List.append_of_mem hmem
  refine List.lookup_eq_some_iff.2 ⟨before, after, rfl, fun e he => bne_iff_ne.2 ?_⟩
  rintro rfl
  rw [List.map_append, List.map_cons] at h
  exact List.disjoint_of_nodup_append h (List.mem_map_of_mem he) List.mem_cons_self

variable {file : PlatformFile} {table : PlatformTable}

theorem mem_platforms {p : Platform} :
    p ∈ table.platforms ↔ ∃ e ∈ table.environments, platformOfKey e.1 = p := by
  rw [platforms, Platform.sort, List.mem_mergeSort, List.mem_map]

namespace Holds

variable (h : Holds file table.environments)
  (hspelled : ∀ name ∈ file.os ++ file.arch, Spelling.name.accepts name = true)

include h hspelled

/-- A key that is held is that of the platform that it gives. -/
theorem key_platformOfKey {e : String × Environment} (he : e ∈ table.environments) :
    (platformOfKey e.1).KnownTo file.os file.arch ∧ (platformOfKey e.1).key = e.1 := by
  obtain ⟨p, hp, hkey⟩ := h.known e he
  rw [hkey, Platform.platformOfKey_key (hp.plain hspelled)]
  exact ⟨hp, rfl⟩

/-- **The platforms that are listed are those with macros.** -/
theorem mem_platforms_iff {p : Platform} :
    p ∈ table.platforms ↔ table.environmentFor p ≠ .empty := by
  rw [mem_platforms]
  constructor
  · rintro ⟨e, he, rfl⟩
    rw [environmentFor, (h.key_platformOfKey hspelled he).2, lookup_of_mem h.distinct he]
    exact h.defined e he
  · intro hdefined
    cases hlookup : table.environments.lookup p.key with
    | none => exact absurd (by rw [environmentFor, hlookup]; rfl) hdefined
    | some env =>
      obtain ⟨before, after, hsplit, -⟩ := List.lookup_eq_some_iff.1 hlookup
      have hmem : (p.key, env) ∈ table.environments := by simp [hsplit]
      obtain ⟨hknown, hkey⟩ := h.key_platformOfKey hspelled hmem
      -- the names of `p` may be anything: that they have no slash follows from the key
      exact ⟨_, hmem, Platform.eq_of_key (hknown.plain hspelled) hkey⟩

theorem pairwise_platforms : table.platforms.Pairwise fun a b => Platform.compare a b = .lt := by
  refine Platform.pairwise_sort ?_
  refine List.pairwise_map.2
    ((List.pairwise_map.1 h.distinct).imp_of_mem fun {e e'} he he' hne heq => hne ?_)
  rw [← (h.key_platformOfKey hspelled he).2, heq, (h.key_platformOfKey hspelled he').2]

end Holds

/-! ## Tables from text -/

/-- The names of platforms that are held are known or empty, and not both are empty. -/
theorem knownTo_of_mem_platforms (htable : ofFile file = .ok table) (hfile : file.WellFormed)
    (hrules : ∀ r ∈ file.rules, Environment.reserved ∉ r.names) {p : Platform}
    (hp : p ∈ table.platforms) : p.KnownTo table.os table.arch := by
  have hholds := holds_of_ofFile htable hfile hrules
  obtain ⟨e, he, rfl⟩ := mem_platforms.1 hp
  obtain ⟨-, rfl⟩ := ofFile_eq_ok_iff.1 htable
  exact (hholds.key_platformOfKey hfile.spelled he).1

theorem resolveAlias_eq_self_iff {aliases : List (String × String)} {name : String} :
    resolveAlias aliases name = name ↔ ∀ other, aliases.lookup name = some other →
      other = name := by
  unfold resolveAlias
  cases aliases.lookup name <;> simp

/-- What a name stands for is left alone, unless it is itself another name for something else; the
empty name is none. -/
theorem resolveAlias_resolveAlias_iff {aliases : List (String × String)}
    (h : ∀ a ∈ aliases, Spelling.name.accepts a.2 = true) {name resolved : String}
    (hname : resolveAlias aliases name = resolved) :
    resolveAlias aliases resolved = resolved
      ↔ (resolved ≠ "" → ∀ other, aliases.lookup resolved = some other → other = resolved) := by
  rw [resolveAlias_eq_self_iff]
  refine ⟨fun hself _ => hself, fun hself => ?_⟩
  by_cases hempty : resolved = ""
  · -- only the empty name itself gives the empty name, as all others stand for names
    cases hlookup : aliases.lookup name with
    | none =>
      rw [resolveAlias, hlookup, Option.getD_none] at hname
      rw [← hname, hlookup]
      exact fun _ hnone => absurd hnone (by simp)
    | some other =>
      obtain ⟨before, after, rfl, -⟩ := List.lookup_eq_some_iff.1 hlookup
      rw [resolveAlias, hlookup, Option.getD_some] at hname
      exact absurd (hname.trans hempty) (Spelling.ne_empty (h (name, other) (by simp)))
  · exact hself hempty

/-- **Reading the key of a platform of known names asks for its two names.** -/
theorem parsePlatform_key (t : PlatformTable) {os arch : List String} {p : Platform}
    (h : p.KnownTo os arch) (hspelled : ∀ name ∈ os ++ arch, Spelling.name.accepts name = true) :
    t.parsePlatform p.key = t.platform p.os p.arch := by
  have hchars := List.forall_mem_append.1 (h.chars hspelled)
  have hos : Text.trim p.os = p.os := Text.trim_eq_self fun c hc => (hchars.1 c hc).2
  have harch : Text.trim p.arch = p.arch := Text.trim_eq_self fun c hc => (hchars.2 c hc).2
  have hkey : Text.trim p.key = p.key := by
    refine Text.trim_eq_self fun c hc => ?_
    simp only [Platform.key, String.toList_append, List.mem_append] at hc
    rcases hc with (hc | hc) | hc
    · exact (hchars.1 c hc).2
    · obtain rfl : c = '/' := by simpa using hc
      decide
    · exact (hchars.2 c hc).2
  rw [parsePlatform, hkey, Platform.splitAt_key (h.plain hspelled)]
  dsimp only
  rw [hos, harch]

theorem exists_platform_of_parsePlatform {t : PlatformTable} {spec : String} {p : Platform}
    (h : t.parsePlatform spec = .ok p) : ∃ os arch, t.platform os arch = .ok p := by
  unfold parsePlatform at h
  split at h
  · exact ⟨_, _, h⟩
  · cases h

/-- A platform that can be read is of known names. -/
theorem knownTo_of_parsePlatform {t : PlatformTable} {spec : String} {p : Platform}
    (h : t.parsePlatform spec = .ok p) : p.KnownTo t.os t.arch := by
  obtain ⟨os, arch, h⟩ := exists_platform_of_parsePlatform h
  obtain ⟨rfl, hos, harch⟩ := platform_eq_ok h
  refine ⟨hos, harch, fun hboth => ?_⟩
  rw [platform, if_pos hboth] at h
  cases h

/-- The answer depends on what the names stand for. -/
theorem platform_eq_self_iff {t : PlatformTable} {os arch : String} {p : Platform}
    (h : t.platform os arch = .ok p) :
    t.platform p.os p.arch = .ok p
      ↔ resolveAlias t.osAliases p.os = p.os ∧ resolveAlias t.archAliases p.arch = p.arch := by
  obtain ⟨hp, -, -⟩ := platform_eq_ok h
  constructor
  · intro hagain
    obtain ⟨hp', -, -⟩ := platform_eq_ok hagain
    exact ⟨(congrArg Platform.os hp').symm, (congrArg Platform.arch hp').symm⟩
  · rintro ⟨hos, harch⟩
    have hos' : resolveAlias t.osAliases p.os = resolveAlias t.osAliases os :=
      hos.trans (congrArg Platform.os hp)
    have harch' : resolveAlias t.archAliases p.arch = resolveAlias t.archAliases arch :=
      harch.trans (congrArg Platform.arch hp)
    rw [← h, platform, platform, hos', harch']

/-- A known platform is found again if neither of its names is another name for something else. -/
theorem parsePlatform_key_eq_ok_iff (htable : ofFile file = .ok table) (hfile : file.WellFormed)
    {spec : String} {p : Platform} (hp : table.parsePlatform spec = .ok p) :
    table.parsePlatform p.key = .ok p
      ↔ (p.os ≠ "" → ∀ other, table.osAliases.lookup p.os = some other → other = p.os)
        ∧ (p.arch ≠ "" → ∀ other, table.archAliases.lookup p.arch = some other →
          other = p.arch) := by
  obtain ⟨-, rfl⟩ := ofFile_eq_ok_iff.1 htable
  obtain ⟨os, arch, hplatform⟩ := exists_platform_of_parsePlatform hp
  obtain ⟨hnames, -, -⟩ := platform_eq_ok hplatform
  rw [parsePlatform_key _ (knownTo_of_parsePlatform hp) hfile.spelled,
    platform_eq_self_iff hplatform]
  refine and_congr ?_ ?_
  · exact resolveAlias_resolveAlias_iff hfile.osAliases (congrArg Platform.os hnames).symm
  · exact resolveAlias_resolveAlias_iff hfile.archAliases (congrArg Platform.arch hnames).symm

/-- Two systems, of which one is also another name for the other. -/
def chained : String :=
  "\x7bos: [b, c], arch: [x], aliases: \x7bos: \x7ba: b, b: c\x7d\x7d, macros: []\x7d"

end PlatformTable

/-! ## The standard table -/

namespace PlatformFile

theorem wellFormed_standard : standard.WellFormed where
  spelled := by decide
  osAliases := by decide
  archAliases := by decide
  named := by decide

theorem known_standard : ∀ r ∈ standard.rules, r.Known standard := by decide

/-- No known name is another name, too. -/
theorem lookup_standard :
    (∀ name ∈ standard.os, standard.osAliases.lookup name = none)
      ∧ ∀ name ∈ standard.arch, standard.archAliases.lookup name = none := by decide

end PlatformFile

/-- **The standard table.**  There is one; its platforms are listed in strictly ascending order, and
are those for which macros are defined; and a platform that can be read is found again by its
key. -/
theorem PlatformTable.exists_standard :
    ∃ table, standard = .ok table
      ∧ table.platforms.Pairwise (fun a b => Platform.compare a b = .lt)
      ∧ (∀ p, p ∈ table.platforms ↔ table.environmentFor p ≠ .empty)
      ∧ ∀ spec p, table.parsePlatform spec = .ok p → table.parsePlatform p.key = .ok p := by
  have hfile := PlatformFile.wellFormed_standard
  have htable : standard = .ok _ := ofFile_eq_ok_iff.2 ⟨PlatformFile.known_standard, rfl⟩
  have hholds := holds_of_ofFile htable hfile (by decide)
  refine ⟨_, htable, hholds.pairwise_platforms hfile.spelled,
    fun p => hholds.mem_platforms_iff hfile.spelled, fun spec p hp => ?_⟩
  have hknown := knownTo_of_parsePlatform hp
  refine (parsePlatform_key_eq_ok_iff htable hfile hp).2
    ⟨fun hne other hother => ?_, fun hne other hother => ?_⟩
  · have hnone := PlatformFile.lookup_standard.1 p.os (hknown.os.resolve_left hne)
    exact absurd (hnone.symm.trans hother) (by simp)
  · have hnone := PlatformFile.lookup_standard.2 p.arch (hknown.arch.resolve_left hne)
    exact absurd (hnone.symm.trans hother) (by simp)

end IncludeScan
