import IncludeScan.Analysis
import IncludeScan.Proofs.Grouping.Groups
import IncludeScan.Proofs.Outline.Prologue
import IncludeScan.Proofs.Platform.Reading
import IncludeScan.Proofs.Value.Checking

/-!
# Proofs/Platform/Coverage — which rule gives a macro its value on a platform

A table is a list of environments under keys, into which the rules of a file were spread one after
the other.  All that can be asked of it is what a macro is on a platform, and the answer is that of
the last rule that names the macro and **covers** the platform (`MacroRule.Covers`), for keys tell
platforms apart (`Platform.eq_of_key`).

`Settings.exists_targets` — the targets of settings, macro by macro.
-/

namespace IncludeScan

/-! ## The last one that writes -/

section

variable {S α β : Type} {writes : α → Prop} [DecidablePred writes] {xs : List α}

/-- **Where each step writes or leaves alone, the last that writes is seen.** -/
theorem foldl_last_write (view : S → Option β) (step : S → α → S) {value : α → β}
    (h : ∀ x ∈ xs, ∀ s, view (step s x) = if writes x then some (value x) else view s) (s : S) :
    view (xs.foldl step s) = ((xs.filter (writes ·)).getLast?.map value).or (view s) := by
  induction xs generalizing s with
  | nil => rfl
  | cons x xs ih =>
    obtain ⟨hx, hxs⟩ := List.forall_mem_cons.1 h
    rw [List.foldl_cons, ih hxs, hx]
    by_cases hw : writes x
    · rw [List.filter_cons_of_pos (by simp [hw]), if_pos hw, List.getLast?_cons]
      cases (xs.filter (writes ·)).getLast? <;> rfl
    · rw [List.filter_cons_of_neg (by simp [hw]), if_neg hw]

/-- Where all write the same value, it is seen if any writes. -/
theorem foldl_write (view : S → Option β) (step : S → α → S) {value : β}
    (h : ∀ x ∈ xs, ∀ s, view (step s x) = if writes x then some value else view s) (s : S) :
    view (xs.foldl step s) = if ∃ x ∈ xs, writes x then some value else view s := by
  induction xs generalizing s with
  | nil => simp
  | cons x xs ih =>
    obtain ⟨hx, hxs⟩ := List.forall_mem_cons.1 h
    rw [List.foldl_cons, ih hxs, hx]
    by_cases hw : writes x <;> simp [hw]

/-- A fold whose steps may fail is a plain fold, as long as none of them fails. -/
theorem foldlM_eq_ok_iff {ε : Type} {step : S → α → Except ε S} {plain : S → α → S}
    {fine : α → Prop} (h : ∀ s x s', step s x = .ok s' ↔ fine x ∧ s' = plain s x) {s s' : S} :
    xs.foldlM step s = .ok s' ↔ (∀ x ∈ xs, fine x) ∧ s' = xs.foldl plain s := by
  induction xs generalizing s with
  | nil => exact ⟨fun heq => ⟨by simp, (Except.ok.inj heq).symm⟩, fun heq => congrArg _ heq.2.symm⟩
  | cons x xs ih =>
    rw [List.foldlM_cons, List.forall_mem_cons, List.foldl_cons]
    constructor
    · intro hfold
      obtain ⟨s₁, hs₁, hfold⟩ := exists_ok_of_bind hfold
      obtain ⟨hx, rfl⟩ := (h s x s₁).1 hs₁
      obtain ⟨hxs, hs'⟩ := ih.1 hfold
      exact ⟨⟨hx, hxs⟩, hs'⟩
    · rintro ⟨⟨hx, hxs⟩, hs'⟩
      rw [(h s x _).2 ⟨hx, rfl⟩]
      exact ih.2 ⟨hxs, hs'⟩

end

/-- Where each succeeds, so does the whole, item by item. -/
theorem exists_mapM_ok {ε α β : Type} {f : α → Except ε β} {R : α → β → Prop} {xs : List α}
    (h : ∀ x ∈ xs, ∃ b, f x = .ok b ∧ R x b) : ∃ bs, xs.mapM f = .ok bs ∧ List.Forall₂ R xs bs := by
  induction xs with
  | nil => exact ⟨[], rfl, .nil⟩
  | cons x xs ih =>
    obtain ⟨hx, hxs⟩ := List.forall_mem_cons.1 h
    obtain ⟨b, hb, hR⟩ := hx
    obtain ⟨bs, hbs, hall⟩ := ih hxs
    refine ⟨b :: bs, ?_, .cons hR hall⟩
    rw [List.mapM_cons, hb, hbs]
    rfl

theorem mapError_eq_ok {ε δ α : Type} {f : ε → δ} {r : Except ε α} {a : α} :
    r.mapError f = .ok a ↔ r = .ok a := by
  cases r <;> simp [Except.mapError]

/-- Of several definitions of one name the last counts. -/
theorem Environment.find?_defineAll {ds : List Definition} (h : ∀ d ∈ ds, d.name ≠ reserved)
    (env : Environment) (n : String) :
    (env.defineAll ds).find? n
      = ((ds.filter (n = ·.name)).getLast?.map Definition.value).or (env.find? n) :=
  foldl_last_write (find? · n) (fun env (d : Definition) => env.define d.name d.value)
    (fun d hd env => find?_define env (h d hd) d.value n) env

/-! ## Rules and platforms -/

/-- The names that a list of names stands for. -/
def NameList.names (known : List String) : NameList → List String
  | .every => known
  | .listed names => names

/-- The names that a rule lists are all known. -/
def MacroRule.Known (file : PlatformFile) (r : MacroRule) : Prop :=
  (∀ name ∈ r.os.names file.os, name ∈ file.os)
  ∧ ∀ name ∈ r.arch.names file.arch, name ∈ file.arch
deriving Decidable

/-- **A rule covers a platform** if both its names are in the expanded lists, or one of them is and
the other is empty and the rule is for any value there. -/
def MacroRule.Covers (file : PlatformFile) (r : MacroRule) (p : Platform) : Prop :=
  (p.os ∈ r.os.names file.os ∧ p.arch ∈ r.arch.names file.arch)
  ∨ (p.arch = "" ∧ r.anyArch = true ∧ p.os ∈ r.os.names file.os)
  ∨ (p.os = "" ∧ r.anyOs = true ∧ p.arch ∈ r.arch.names file.arch)
deriving Decidable

namespace Platform

/-- Neither name has a slash in it. -/
def Plain (p : Platform) : Prop := '/' ∉ p.os.toList ∧ '/' ∉ p.arch.toList

/-- **A key tells its platform.** -/
theorem eq_of_key {p q : Platform} (hp : p.Plain) (h : p.key = q.key) : p = q := by
  obtain ⟨os, arch⟩ := p
  obtain ⟨os', arch'⟩ := q
  -- one platform without slashes is enough: its key has no other slash at which the second could be
  -- cut
  have hchars : os.toList ++ '/' :: arch.toList = os'.toList ++ '/' :: arch'.toList := by
    simpa [key] using congrArg String.toList h
  obtain ⟨hos, -, harch⟩ := (List.append_cons_inj_of_notMem hp.1 hp.2).1 hchars
  obtain rfl : os = os' := String.toList_inj.1 hos
  obtain rfl : arch = arch' := String.toList_inj.1 harch
  rfl

end Platform

theorem Spelling.slash_notMem {s : String} (h : Spelling.name.accepts s = true) :
    '/' ∉ s.toList := by
  intro hmem
  simp only [accepts, Bool.and_eq_true, List.all_eq_true] at h
  exact absurd (h.2 _ hmem) (by decide)

namespace PlatformTable

/-- A list can be expanded if its names are known, and stands for them. -/
theorem expand_eq_ok_iff {known names : List String} {l : NameList} :
    expand known l = .ok names
      ↔ (∀ name ∈ l.names known, name ∈ known) ∧ names = l.names known := by
  cases l with
  | every => simp [expand, NameList.names, eq_comm]
  | listed listed =>
    rw [expand, NameList.names]
    split
    · rename_i name hname
      have hunknown := List.find?_some hname
      have hmem := List.mem_of_find?_eq_some hname
      refine iff_of_false (by simp) fun hknown => ?_
      simp [hknown.1 name hmem] at hunknown
    · rename_i hnone
      have hknown : ∀ name ∈ listed, name ∈ known := by simpa using List.find?_eq_none.1 hnone
      exact ⟨fun heq => ⟨hknown, (Except.ok.inj heq).symm⟩, fun heq => congrArg _ heq.2.symm⟩

/-- **The platforms of a rule are those that it covers.** -/
theorem mem_targets_iff {file : PlatformFile} {r : MacroRule} {p : Platform} :
    p ∈ targets r (r.os.names file.os) (r.arch.names file.arch) ↔ r.Covers file p := by
  obtain ⟨os, arch⟩ := p
  simp only [targets, MacroRule.Covers, List.mem_append, List.mem_flatMap, List.mem_map,
    Platform.mk.injEq, or_assoc]
  refine or_congr ?_ (or_congr ?_ ?_)
  · constructor
    · rintro ⟨os, hos, arch, harch, rfl, rfl⟩
      exact ⟨hos, harch⟩
    · exact fun h => ⟨os, h.1, arch, h.2, rfl, rfl⟩
  · cases r.anyArch
    · simp
    · simp [and_comm, eq_comm]
  · cases r.anyOs
    · simp
    · simp [and_comm, eq_comm]

/-! ## What is in a table -/

/-- **The value of a macro** in the environment under a key. -/
def valueAt (environments : List (String × Environment)) (key n : String) : Option Int :=
  ((environments.lookup key).getD .empty).find? n

theorem lookup_update (environments : List (String × Environment)) (k key : String)
    (change : Environment → Environment) :
    (update environments k change).lookup key
      = if key = k then some (change ((environments.lookup k).getD .empty))
        else environments.lookup key := by
  induction environments with
  | nil => by_cases hkey : key = k <;> simp [update, List.lookup_cons, hkey, beq_eq_false_iff_ne.2]
  | cons e others ih =>
    obtain ⟨k', env⟩ := e
    rw [update]
    by_cases hk : k' = k
    · subst hk
      by_cases hkey : key = k'
      · simp [hkey]
      · simp [List.lookup_cons, hkey, beq_eq_false_iff_ne.2 hkey]
    · rw [if_neg (by simpa using hk), List.lookup_cons, ih]
      by_cases hkey : key = k'
      · subst hkey
        simp [hk]
      · simp [List.lookup_cons, beq_eq_false_iff_ne.2 hkey, beq_eq_false_iff_ne.2 (Ne.symm hk)]

theorem valueAt_update (environments : List (String × Environment)) (k key n : String)
    (change : Environment → Environment) :
    valueAt (update environments k change) key n
      = if key = k then (change ((environments.lookup key).getD .empty)).find? n
        else valueAt environments key n := by
  unfold valueAt
  rw [lookup_update]
  split
  · rename_i hkey
    rw [hkey, Option.getD_some]
  · rfl

theorem find?_defineAll {r : MacroRule} (h : Environment.reserved ∉ r.names) (env : Environment)
    (n : String) :
    (defineAll r env).find? n = if n ∈ r.names then some r.value else env.find? n := by
  have hfold := foldl_write (Environment.find? · n) (fun env name => env.define name r.value)
    (fun name hname env => Environment.find?_define env (fun heq => h (heq ▸ hname)) r.value n) env
  simp only [exists_eq_right'] at hfold
  exact hfold

/-- A rule at one platform. -/
theorem valueAt_define {r : MacroRule} (h : Environment.reserved ∉ r.names)
    (environments : List (String × Environment)) {p q : Platform} (hp : p.Plain) (n : String) :
    valueAt (update environments q.key (defineAll r)) p.key n
      = if p = q ∧ n ∈ r.names then some r.value else valueAt environments p.key n := by
  rw [valueAt_update]
  by_cases hpq : p = q
  · subst hpq
    rw [if_pos rfl, find?_defineAll h]
    simp only [true_and, valueAt]
  · rw [if_neg fun hkey => hpq (Platform.eq_of_key hp hkey), if_neg fun hboth => hpq hboth.1]

end PlatformTable

/-- A rule names a macro and covers a platform. -/
def MacroRule.Defines (file : PlatformFile) (p : Platform) (n : String) (r : MacroRule) : Prop :=
  n ∈ r.names ∧ r.Covers file p
deriving Decidable

namespace PlatformTable

/-- The environments after a rule whose names are all known. -/
def spread (file : PlatformFile) (environments : List (String × Environment)) (r : MacroRule) :
    List (String × Environment) :=
  (targets r (r.os.names file.os) (r.arch.names file.arch)).foldl
    (fun envs p => update envs p.key (defineAll r)) environments

/-- **A rule is added if its names are known.** -/
theorem addRule_eq_ok_iff {file : PlatformFile} {r : MacroRule}
    {environments environments' : List (String × Environment)} :
    addRule file environments r = .ok environments'
      ↔ r.Known file ∧ environments' = spread file environments r := by
  constructor
  · intro h
    obtain ⟨oses, hoses, h⟩ := exists_ok_of_bind h
    obtain ⟨archs, harchs, h⟩ := exists_ok_of_bind h
    obtain ⟨hos, rfl⟩ := expand_eq_ok_iff.1 (mapError_eq_ok.1 hoses)
    obtain ⟨harch, rfl⟩ := expand_eq_ok_iff.1 (mapError_eq_ok.1 harchs)
    exact ⟨⟨hos, harch⟩, (Except.ok.inj h).symm⟩
  · rintro ⟨⟨hos, harch⟩, rfl⟩
    rw [addRule, expand_eq_ok_iff.2 ⟨hos, rfl⟩, expand_eq_ok_iff.2 ⟨harch, rfl⟩]
    rfl

/-- **A file has a table if its rules list only known names**, and the table holds what they
spread. -/
theorem ofFile_eq_ok_iff {file : PlatformFile} {table : PlatformTable} :
    ofFile file = .ok table
      ↔ (∀ r ∈ file.rules, r.Known file)
        ∧ table = ⟨file.os, file.arch, file.osAliases, file.archAliases,
            file.rules.foldl (spread file) []⟩ := by
  have hfold : ∀ environments, file.rules.foldlM (addRule file) [] = .ok environments
      ↔ (∀ r ∈ file.rules, r.Known file) ∧ environments = file.rules.foldl (spread file) [] := by
    intro environments
    refine foldlM_eq_ok_iff fun _ _ _ => ?_
    exact addRule_eq_ok_iff
  constructor
  · intro h
    obtain ⟨environments, henvironments, h⟩ := exists_ok_of_bind h
    obtain ⟨hknown, rfl⟩ := (hfold environments).1 henvironments
    exact ⟨hknown, (Except.ok.inj h).symm⟩
  · rintro ⟨hknown, rfl⟩
    rw [ofFile, (hfold _).2 ⟨hknown, rfl⟩]
    rfl

/-- **A rule defines its macros on all platforms that it covers, and nothing else.** -/
theorem valueAt_spread {file : PlatformFile} {r : MacroRule} (h : Environment.reserved ∉ r.names)
    (environments : List (String × Environment)) {p : Platform} (hp : p.Plain) (n : String) :
    valueAt (spread file environments r) p.key n
      = if r.Defines file p n then some r.value else valueAt environments p.key n := by
  have hiff : (∃ q ∈ targets r (r.os.names file.os) (r.arch.names file.arch), p = q ∧ n ∈ r.names)
      ↔ r.Defines file p n := by
    constructor
    · rintro ⟨q, hq, rfl, hn⟩
      exact ⟨hn, mem_targets_iff.1 hq⟩
    · rintro ⟨hn, hcovers⟩
      exact ⟨p, mem_targets_iff.2 hcovers, rfl, hn⟩
  refine (foldl_write (valueAt · p.key n)
    (fun envs (q : Platform) => update envs q.key (defineAll r))
    (fun q _ envs => valueAt_define h envs hp n) environments).trans ?_
  exact if_congr hiff rfl rfl

/-- **A table gives a macro the value of the last rule that defines it.** -/
theorem find?_environmentFor {file : PlatformFile} {table : PlatformTable}
    (htable : ofFile file = .ok table) (h : ∀ r ∈ file.rules, Environment.reserved ∉ r.names)
    {p : Platform} (hp : p.Plain) (n : String) :
    (table.environmentFor p).find? n
      = (file.rules.filter (MacroRule.Defines file p n)).getLast?.map MacroRule.value := by
  obtain ⟨-, rfl⟩ := ofFile_eq_ok_iff.1 htable
  -- the rules are the writes, and at first nothing is defined under any key
  have hlast := foldl_last_write (valueAt · p.key n) (spread file)
    (fun r hr envs => valueAt_spread (h r hr) envs hp n) []
  exact hlast.trans (Option.or_none ..)

/-- **A platform that is read** has the names on both sides of a slash, in place of other names, and
each is empty or known. -/
structure Reads (file : PlatformFile) (text : String) (p : Platform) : Prop where
  sides : ∃ os arch, Text.splitAt '/' (Text.trim text) = [os, arch]
    ∧ p = ⟨resolveAlias file.osAliases (Text.trim os),
      resolveAlias file.archAliases (Text.trim arch)⟩
  os : p.os = "" ∨ p.os ∈ file.os
  arch : p.arch = "" ∨ p.arch ∈ file.arch

theorem platform_eq_ok {t : PlatformTable} {os arch : String} {p : Platform}
    (h : t.platform os arch = .ok p) :
    p = ⟨resolveAlias t.osAliases os, resolveAlias t.archAliases arch⟩
      ∧ (p.os = "" ∨ p.os ∈ t.os) ∧ (p.arch = "" ∨ p.arch ∈ t.arch) := by
  simp only [platform] at h
  split_ifs at h with hnone hos harch
  obtain rfl := Except.ok.inj h
  refine ⟨rfl, ?_, ?_⟩
  · by_contra hnot
    exact hos (not_or.1 hnot)
  · by_contra hnot
    exact harch (not_or.1 hnot)

theorem reads_of_parsePlatform {file : PlatformFile} {table : PlatformTable}
    (htable : ofFile file = .ok table) {text : String} {p : Platform}
    (h : table.parsePlatform text = .ok p) : Reads file text p := by
  obtain ⟨-, rfl⟩ := ofFile_eq_ok_iff.1 htable
  unfold parsePlatform at h
  split at h
  · rename_i os arch hsides
    obtain ⟨hp, hos, harch⟩ := platform_eq_ok h
    exact ⟨⟨os, arch, hsides, hp⟩, hos, harch⟩
  · cases h

/-- Names that a file may know have no slash. -/
theorem Reads.plain {file : PlatformFile} {text : String} {p : Platform} (h : Reads file text p)
    (hspelled : ∀ name ∈ file.os ++ file.arch, Spelling.name.accepts name = true) : p.Plain := by
  obtain ⟨hos, harch⟩ := List.forall_mem_append.1 hspelled
  refine ⟨?_, ?_⟩
  · rcases h.os with hempty | hmem
    · simp [hempty]
    · exact Spelling.slash_notMem (hos _ hmem)
  · rcases h.arch with hempty | hmem
    · simp [hempty]
    · exact Spelling.slash_notMem (harch _ hmem)

/-- **A text has a table** if there is a value in it, which is not blank and accepted, and the file
in the value has the table. -/
theorem parse_eq_ok_iff {reader : TableReader} {text label : String} {table : PlatformTable} :
    parse reader text label = .ok table
      ↔ ∃ v, reader.load text = some v ∧ v.isBlank = false
        ∧ reader.validate PlatformFile.schema v = .ok () ∧ ofFile (.ofValue v) = .ok table := by
  unfold parse
  cases reader.load text with
  | none => simp
  | some v =>
    cases hblank : v.isBlank
    · cases hvalid : reader.validate PlatformFile.schema v <;> simp [hblank, hvalid, mapError_eq_ok]
    · simp [hblank]

/-- **A table that is read from a text is that of the file which the value in it describes.** -/
theorem described_of_parse {reader : TableReader} (hreader : reader.Sound) {text label : String}
    {table : PlatformTable} (h : parse reader text label = .ok table) :
    ∃ v, reader.load text = some v ∧ (PlatformFile.ofValue v).DescribedBy v
      ∧ ofFile (.ofValue v) = .ok table := by
  obtain ⟨v, hv, -, hvalid, htable⟩ := parse_eq_ok_iff.1 h
  exact ⟨v, hv, PlatformFile.describedBy_ofValue (hreader v hvalid), htable⟩

end PlatformTable

/-! ## The targets of settings -/

/-- **A target for a platform, macro by macro**: the last definition that is given for it, or else
the last rule of the file that defines it there. -/
def Target.AnswersFor (file : PlatformFile) (definitions : List String) (p : Platform)
    (t : Target) : Prop :=
  t.name = p.os ++ "/" ++ p.arch
    ∧ ∀ n, t.env.find? n
        = (((Environment.readable definitions).filter (n = ·.name)).getLast?.map
          Definition.value).or
            ((file.rules.filter (MacroRule.Defines file p n)).getLast?.map MacroRule.value)

/-- …and for the text of a platform. -/
def Target.Answers (file : PlatformFile) (definitions : List String) (spec : String) (t : Target) :
    Prop :=
  ∃ p, PlatformTable.Reads file spec p ∧ t.AnswersFor file definitions p

theorem Target.Answers.of_sides {file : PlatformFile} {definitions : List String}
    {spec os arch : String} {t : Target} (h : t.Answers file definitions spec)
    (hsides : Text.splitAt '/' (Text.trim spec) = [os, arch]) :
    t.AnswersFor file definitions ⟨PlatformTable.resolveAlias file.osAliases (Text.trim os),
      PlatformTable.resolveAlias file.archAliases (Text.trim arch)⟩ := by
  obtain ⟨p, hreads, hanswers⟩ := h
  obtain ⟨os', arch', hsides', rfl⟩ := hreads.sides
  obtain ⟨rfl, rfl⟩ : os' = os ∧ arch' = arch := by simpa using hsides'.symm.trans hsides
  exact hanswers

/-- The target of one platform. -/
def Target.resolveOne (table : PlatformTable) (extra : Environment) (spec : String) :
    Except TargetError Target := do
  let p ← (table.parsePlatform spec).mapError .platform
  return ⟨p.key, (table.environmentFor p).overlay extra⟩

theorem Target.resolve_eq {definitions : List String} {extra : Environment}
    (h : Environment.ofDefinitions definitions = .ok extra) (table : PlatformTable)
    (platforms : List String) :
    resolve table platforms definitions = platforms.mapM (resolveOne table extra) := by
  rw [resolve, h]
  rfl

/-- A platform that can be read has its target. -/
theorem Target.exists_resolveOne {file : PlatformFile} {table : PlatformTable}
    (htable : PlatformTable.ofFile file = .ok table)
    (hspelled : ∀ name ∈ file.os ++ file.arch, Spelling.name.accepts name = true)
    (hrules : ∀ r ∈ file.rules, Environment.reserved ∉ r.names) {definitions : List String}
    (hnames : ∀ d ∈ Environment.readable definitions, d.name ≠ Environment.reserved) {spec : String}
    {p : Platform} (hp : table.parsePlatform spec = .ok p) :
    ∃ t, resolveOne table (Environment.empty.defineAll (Environment.readable definitions)) spec
      = .ok t
      ∧ t.Answers file definitions spec := by
  have hreads := PlatformTable.reads_of_parsePlatform htable hp
  refine ⟨_, by rw [resolveOne, hp]; rfl, p, hreads, rfl, fun n => ?_⟩
  rw [Environment.find?_overlay, Environment.find?_defineAll hnames, Environment.find?_empty,
    Option.or_none, PlatformTable.find?_environmentFor htable hrules (hreads.plain hspelled)]

/-- A text that the reader at the command line accepts, from what there is in it. -/
theorem PlatformTable.exists_commandLine {text : String} {file : PlatformFile}
    (h : (Yaml.parse text).map
        (fun v => (v.isBlank, (PlatformFile.schema.issues [] v).isEmpty, PlatformFile.ofValue v))
      = some (false, true, file)) {table : PlatformTable} (htable : ofFile file = .ok table)
    (label : String) :
    ∃ v, TableReader.commandLine.load text = some v ∧ PlatformFile.ofValue v = file
      ∧ parse .commandLine text label = .ok table := by
  obtain ⟨v, hv, hparts⟩ := Option.map_eq_some_iff.1 h
  obtain ⟨hblank, hparts⟩ := Prod.mk.inj hparts
  obtain ⟨hissues, rfl⟩ := Prod.mk.inj hparts
  have hvalid : PlatformFile.schema.check v = .ok () :=
    Schema.check_eq_ok_iff.2 ((Schema.issues_eq_nil_iff _ [] v).1 (List.isEmpty_iff.1 hissues))
  exact ⟨v, hv, rfl, parse_eq_ok_iff.2 ⟨v, hv, hblank, hvalid, htable⟩⟩

/-- Two systems, one of them with another name, and two rules of which the second overrides the
first. -/
def PlatformTable.overridden : String :=
  "\x7bos: [linux, mac], arch: [x86, arm], aliases: \x7bos: \x7bdarwin: mac\x7d\x7d, macros: ["
    ++ "\x7bnames: [A, B], os: '*', arch: '*', anyArch: true\x7d, "
    ++ "\x7bnames: [A], value: 2, os: [mac], arch: '*'\x7d]\x7d"

/-- What that text says. -/
def PlatformFile.overridden : PlatformFile where
  os := ["linux", "mac"]
  arch := ["x86", "arm"]
  osAliases := [("darwin", "mac")]
  rules := [{ names := ["A", "B"], os := .every, arch := .every, anyArch := true },
            { names := ["A"], value := 2, os := .listed ["mac"], arch := .every }]

set_option maxRecDepth 100000 in
theorem PlatformFile.load_overridden :
    (Yaml.parse PlatformTable.overridden).map
        (fun v => (v.isBlank, (schema.issues [] v).isEmpty, ofValue v))
      = some (false, true, overridden) := by
  decide +kernel

end IncludeScan
