import IncludeScan.Text.Space
import Mathlib.Data.List.DropRight
import Mathlib.Data.List.Nodup

/-!
# Proofs/Text/Names — names without white space around them, and lists that hold each name once

A text is trimmed when white space neither begins nor ends it (`Trimmed`).  What has been trimmed
is, and what is trimmed already is left as it was; so trimming twice is trimming once.  The same
goes for taking a list of names without repetitions (`nodup_eraseDups`, `eraseDups_of_nodup`).
-/

namespace IncludeScan

namespace Text

/-- **White space neither begins nor ends the text.** -/
def Trimmed (cs : List Char) : Prop :=
  (∀ c ∈ cs.head?, isSpace c = false) ∧ ∀ c ∈ cs.getLast?, isSpace c = false

/-- What is left of a run of white space begins with something else. -/
theorem isSpace_of_mem_head?_dropWhile {cs : List Char} {c : Char}
    (h : c ∈ (cs.dropWhile isSpace).head?) :
    isSpace c = false := by
  have hfirst := List.head?_dropWhile_not isSpace cs
  rwa [Option.mem_def.1 h] at hfirst

theorem trimmed_trimChars (cs : List Char) : Trimmed (trimChars cs) := by
  constructor
  · intro c hc
    -- the text begins as it did before its end was cut off
    obtain ⟨tail, htail⟩ : trimChars cs <+: cs.dropWhile isSpace := List.rdropWhile_prefix isSpace _
    refine @isSpace_of_mem_head?_dropWhile cs c ?_
    rw [← htail]
    exact List.mem_head?_append_of_mem_head? hc
  · intro c hc
    rw [trimChars, List.getLast?_reverse] at hc
    exact isSpace_of_mem_head?_dropWhile hc

theorem dropWhile_isSpace_eq {cs : List Char} (h : ∀ c ∈ cs.head?, isSpace c = false) :
    cs.dropWhile isSpace = cs := by
  cases cs with
  | nil => rfl
  | cons c cs => exact List.dropWhile_cons_of_neg (Bool.eq_false_iff.1 (h c rfl))

theorem trimChars_of_trimmed {cs : List Char} (h : Trimmed cs) : trimChars cs = cs := by
  rw [trimChars, dropWhile_isSpace_eq h.1,
    dropWhile_isSpace_eq (by rw [List.head?_reverse]; exact h.2), List.reverse_reverse]

theorem trimChars_eq_self_iff {cs : List Char} : trimChars cs = cs ↔ Trimmed cs :=
  ⟨fun h => h ▸ trimmed_trimChars cs, trimChars_of_trimmed⟩

instance (cs : List Char) : Decidable (Trimmed cs) := decidable_of_iff _ trimChars_eq_self_iff

theorem trim_of_trimmed {s : String} (h : Trimmed s.toList) : trim s = s := by
  rw [trim, trimChars_of_trimmed h, String.ofList_toList]

theorem trimmed_trim (s : String) : Trimmed (trim s).toList := by
  rw [toList_trim]
  exact trimmed_trimChars s.toList

end Text

/-! ## Each name once -/

theorem nodup_eraseDups (names : List String) : names.eraseDups.Nodup := by
  match names with
  | [] => exact List.nodup_nil
  | name :: names =>
    rw [List.eraseDups_cons, List.nodup_cons, List.mem_eraseDups]
    exact ⟨by simp, nodup_eraseDups _⟩
termination_by names.length
decreasing_by exact Nat.lt_succ_of_le (List.length_filter_le _ _)

theorem eraseDups_of_nodup {names : List String} (h : names.Nodup) : names.eraseDups = names := by
  induction names with
  | nil => rfl
  | cons name names ih =>
    obtain ⟨hname, hnames⟩ := List.nodup_cons.1 h
    have hkeep : names.filter (fun other => !other == name) = names :=
      List.filter_eq_self.2 fun other hother => by
        simpa using fun heq : other = name => hname (heq ▸ hother)
    rw [List.eraseDups_cons, hkeep, ih hnames]

theorem eraseDups_eraseDups_append (names others : List String) :
    (names.eraseDups ++ others).eraseDups = (names ++ others).eraseDups := by
  have hremove : others.removeAll names.eraseDups = others.removeAll names := by
    simp [List.removeAll]
  rw [List.eraseDups_append, List.eraseDups_append, eraseDups_of_nodup (nodup_eraseDups names),
    hremove]

end IncludeScan
