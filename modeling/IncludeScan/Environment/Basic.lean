import IncludeScan.Text.Units

/-!
# Environment/Basic — the macros that are defined, and their integer values

An environment is seen through `find?`: which value a name has, if it is defined at all.  Each
operation has one equation about `find?`, and nothing else need be known about it.

One name is reserved: `define` cannot introduce `__proto__`.  An entry of that name that is there
from the start is replaced and erased like any other.
-/

namespace IncludeScan

/-- Macro names with their values. -/
structure Environment where
  entries : List (String × Int) := []
deriving DecidableEq, Repr, Inhabited

namespace Environment

/-- No macros. -/
def empty : Environment := {}

/-- The value of a macro, if it is defined. -/
def find? (env : Environment) (name : String) : Option Int :=
  env.entries.lookup name

/-- The macro is defined. -/
def isDefined (env : Environment) (name : String) : Bool :=
  (env.find? name).isSome

/-- The value of a macro, zero when it is not defined. -/
def value (env : Environment) (name : String) : Int :=
  (env.find? name).getD 0

/-- The environment without a macro. -/
def erase (env : Environment) (name : String) : Environment :=
  ⟨env.entries.filter fun e => e.1 != name⟩

/-- The environment with a macro set to a value. -/
def insert (env : Environment) (name : String) (value : Int) : Environment :=
  ⟨(name, value) :: (env.erase name).entries⟩

/-- The name that a definition cannot introduce. -/
def reserved : String := "__proto__"

/-- The environment after a macro is defined. -/
def define (env : Environment) (name : String) (value : Int) : Environment :=
  if name = reserved ∧ env.isDefined name = false then env else env.insert name value

/-- The environment with all macros of another on top. -/
def overlay (env extra : Environment) : Environment :=
  ⟨extra.entries ++ env.entries.filter fun e => !extra.isDefined e.1⟩

/-- The macros sorted by name. -/
def sorted (env : Environment) : List (String × Int) :=
  env.entries.mergeSort fun a b => Text.unitsLE a.1 b.1

/-! ## What each operation does to `find?` -/

private theorem lookup_filter_eq_none {name : String} (keep : String → Bool) (h : keep name = false)
    (l : List (String × Int)) : (l.filter fun e => keep e.1).lookup name = none := by
  induction l with
  | nil => rfl
  | cons e l ih =>
    obtain ⟨k, v⟩ := e
    by_cases hk : keep k
    · have hne : (name == k) = false := by
        rw [beq_eq_false_iff_ne]
        rintro rfl
        simp [h] at hk
      simp [hk, List.lookup_cons, hne, ih]
    · simp [hk, ih]

private theorem lookup_filter_eq {name : String} (keep : String → Bool) (h : keep name = true)
    (l : List (String × Int)) : (l.filter fun e => keep e.1).lookup name = l.lookup name := by
  induction l with
  | nil => rfl
  | cons e l ih =>
    obtain ⟨k, v⟩ := e
    by_cases hk : keep k
    · by_cases hn : name = k <;> simp [hk, List.lookup_cons, hn, ih]
    · have hne : (name == k) = false := by
        rw [beq_eq_false_iff_ne]
        rintro rfl
        exact hk h
      simp [hk, List.lookup_cons, hne, ih]

@[simp] theorem find?_empty (name : String) : empty.find? name = none := rfl

theorem find?_erase (env : Environment) (name other : String) :
    (env.erase name).find? other = if other = name then none else env.find? other := by
  unfold erase find?
  split
  · exact lookup_filter_eq_none (· != name) (by simp_all) _
  · exact lookup_filter_eq (· != name) (by simpa using ‹_›) _

theorem find?_insert (env : Environment) (name : String) (value : Int) (other : String) :
    (env.insert name value).find? other = if other = name then some value else env.find? other := by
  have h := find?_erase env name other
  unfold insert
  unfold find? at h ⊢
  by_cases hn : other = name
  · simp [hn]
  · rw [if_neg hn] at h ⊢
    simp [List.lookup_cons, beq_eq_false_iff_ne.2 hn, h]

theorem find?_define (env : Environment) {name : String} (h : name ≠ reserved) (value : Int)
    (other : String) :
    (env.define name value).find? other = if other = name then some value else env.find? other := by
  rw [define, if_neg (fun hr => h hr.1), find?_insert]

theorem find?_overlay (env extra : Environment) (name : String) :
    (env.overlay extra).find? name = (extra.find? name).or (env.find? name) := by
  unfold overlay find?
  rw [List.lookup_append]
  cases h : extra.entries.lookup name with
  | some v => simp
  | none =>
    have hk : (!extra.isDefined name) = true := by simp [isDefined, find?, h]
    rw [lookup_filter_eq (fun n => !extra.isDefined n) hk]

end Environment

end IncludeScan
