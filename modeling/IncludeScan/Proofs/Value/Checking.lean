import IncludeScan.Platform.Reader
import Mathlib.Data.List.GetD

/-!
# Proofs/Value/Checking — nothing is wrong with just the values that a schema describes

The check of a value follows its schema, and so does the proof: each kind of schema has its own
reason to find nothing, and records and lists hand the question down.

`Schema.issues_eq_nil_iff` — the check finds nothing wrong exactly if the schema describes the
value; so the reader at the command line is sound (`TableReader.sound_commandLine`).
-/

namespace IncludeScan

namespace Schema

/-! ## Lists and records -/

theorem lengthIssues_eq_nil_iff {nonempty : Bool} {path : List String} {items : List Value} :
    lengthIssues nonempty path items = [] ↔ (nonempty = true → items ≠ []) := by
  cases nonempty <;> simp [lengthIssues]

/-- **No item is repeated** if no later one is the same as an earlier one. -/
theorem repetition?_eq_none_iff {items : List Value} :
    repetition? items = none ↔ items.Pairwise fun a b => Value.same b a = false := by
  simp only [repetition?, List.findSome?_eq_none_iff, List.mem_reverse, List.mem_range,
    Option.map_eq_none_iff, List.find?_eq_none, Bool.not_eq_true, List.pairwise_iff_getElem]
  constructor
  · intro h i j hi hj hij
    have hsame := h j hj i hij
    rwa [List.getD_eq_getElem _ _ hj, List.getD_eq_getElem _ _ hi] at hsame
  · intro h i hi j hji
    have hj : j < items.length := Nat.lt_trans hji hi
    rw [List.getD_eq_getElem _ _ hi, List.getD_eq_getElem _ _ hj]
    exact h j i hj hi hji

theorem repetitionIssues_eq_nil_iff {distinct : Bool} {path : List String} {items : List Value} :
    repetitionIssues distinct path items = []
      ↔ (distinct = true → items.Pairwise fun a b => Value.same b a = false) := by
  rw [← repetition?_eq_none_iff, repetitionIssues]
  cases repetition? items with
  | none => simp
  | some found => cases distinct <;> simp

theorem keyIssues_eq_nil_iff {required known path : List String} {entries : List (String × Value)} :
    keyIssues required known path entries = []
      ↔ (∀ key ∈ required, (entries.lookup key).isSome = true) ∧ ∀ e ∈ entries, e.1 ∈ known := by
  simp [keyIssues, Option.isSome_iff_ne_none]

theorem eitherIssues_eq_nil_iff {path : List String} {first second : List Issue} :
    eitherIssues path first second = []
      ↔ first = [] ∧ second ≠ [] ∨ first ≠ [] ∧ second = [] := by
  cases first <;> cases second <;> simp [eitherIssues]

/-- The items of a list are checked one by one, whatever their place. -/
theorem flatMap_zipIdx_eq_nil_iff {items : List Value} {issuesAt : Nat → Value → List Issue}
    {accepts : Value → Prop} (h : ∀ i w, issuesAt i w = [] ↔ accepts w) :
    (items.zipIdx.flatMap fun p => issuesAt p.2 p.1) = [] ↔ ∀ w ∈ items, accepts w := by
  rw [List.flatMap_eq_nil_iff]
  simp only [h, Prod.forall]
  constructor
  · intro hall w hw
    obtain ⟨i, hi, rfl⟩ := List.getElem_of_mem hw
    exact hall _ i (List.mk_mem_zipIdx_iff_getElem?.2 (List.getElem?_eq_getElem hi))
  · exact fun hall w i hmem => hall w (List.fst_mem_of_mem_zipIdx hmem)

/-! ## Values of each kind -/

mutual

/-- **Nothing is wrong with just the values that the schema describes.** -/
theorem issues_eq_nil_iff : ∀ (s : Schema) (path : List String) (v : Value),
    s.issues path v = [] ↔ s.Accepts v
  | .text spelling, path, v => by cases v <;> simp [issues, Accepts]
  | .constant s, path, v => by cases v <;> simp [issues, Accepts]
  | .integer, path, v => by
    cases v <;> simp [issues, Accepts, Option.isSome_iff_exists]
  | .boolean, path, v => by cases v <;> simp [issues, Accepts]
  | .list item nonempty distinct, path, v => by
    have hitem := fun (i : Nat) w => issues_eq_nil_iff item (path ++ [toString i]) w
    cases v with
    | array items =>
      simp only [issues, Accepts, List.append_eq_nil_iff, lengthIssues_eq_nil_iff,
        repetitionIssues_eq_nil_iff, flatMap_zipIdx_eq_nil_iff hitem]
      simp [and_assoc]
    | _ => simp [issues, Accepts]
  | .oneOf first second, path, v => by
    rw [issues, Accepts, eitherIssues_eq_nil_iff, ne_eq, ne_eq, issues_eq_nil_iff first path v,
      issues_eq_nil_iff second path v]
  | .record required fields, path, v => by
    rw [issues, Accepts]
    cases v.entries? with
    | none => simp
    | some entries =>
      simp [keyIssues_eq_nil_iff, fieldIssues_eq_nil_iff fields path entries, and_assoc]
  | .mapping item, path, v => by
    rw [issues, Accepts]
    cases v.entries? with
    | none => simp
    | some entries =>
      have hitem := fun (e : String × Value) => issues_eq_nil_iff item (path ++ [e.1]) e.2
      simp [List.flatMap_eq_nil_iff, hitem]

theorem fieldIssues_eq_nil_iff : ∀ (fields : List (String × Schema)) (path : List String)
    (entries : List (String × Value)), fieldIssues fields path entries = []
      ↔ AcceptsFields fields entries
  | [], _, _ => by simp [fieldIssues, AcceptsFields]
  | (key, field) :: fields, path, entries => by
    rw [fieldIssues, AcceptsFields, List.append_eq_nil_iff,
      fieldIssues_eq_nil_iff fields path entries]
    refine and_congr_left' ?_
    cases entries.lookup key with
    | none => simp
    | some w => simp [issues_eq_nil_iff field (path ++ [key]) w]

end

/-- **The check accepts just the values that the schema describes.** -/
theorem check_eq_ok_iff {s : Schema} {v : Value} : s.check v = .ok () ↔ s.Accepts v := by
  rw [← issues_eq_nil_iff s [] v, check]
  split <;> simp_all

end Schema

/-- **The reader at the command line is sound.** -/
theorem TableReader.sound_commandLine : TableReader.commandLine.Sound :=
  fun _ => Schema.check_eq_ok_iff.1

end IncludeScan
