import IncludeScan.Analysis
import IncludeScan.Proofs.Outline.Descent
import IncludeScan.Proofs.Token.Run

/-!
# Proofs/Analysis/Faults — the report on a file that cannot be cut

Reading a text fails only where its tokens end with an error, with that very error; and then nothing
of what was read before is left in the report.

`FileReport.ofContent_of_fault` — both about every file, text or bytes, whether it is read block by
block off a stream or from its tokens.
-/

namespace IncludeScan

/-- **A text has no outline exactly if its tokens end with an error**, and the error is the same. -/
theorem Outline.ofText_eq_error_iff {text : String} {e : ScanError} :
    ofText text = .error e ↔ (tokenize text).toExcept = .error e := by
  rw [ofText, Tokenization.toExcept, map_eq_error_iff, map_eq_error_iff]

theorem Content.outline_eq_error_iff {c : Content} {e : ScanError} :
    c.outline = .error e ↔ c.tokenize.toExcept = .error e :=
  Outline.ofText_eq_error_iff

namespace FileReport

theorem parsed_ofContent (name : String) (c : Content) (targets : List Target) :
    (ofContent name c targets).parsed = false ↔ ∃ e, c.outline = .error e := by
  rw [ofContent]
  rcases c.outline with e | o
  · exact ⟨fun _ => ⟨e, rfl⟩, fun _ => rfl⟩
  · exact ⟨nofun, nofun⟩

/-- **Only a fault of the text stops the reading.**  The descent over the stream of a file's text
comes to an end, its calls no deeper than three for each token, and with the same result as the
outline; there is an error exactly if all tokens of the text cannot be had, it is the error of the
tokens, and no failure of another sort.  There is a report on every file, and the file is unparsed
in just this case.  Then the report has no includes and no main function, whatever stands before the
fault, and one diagnostic, with the wording and the place of the error. -/
theorem ofContent_of_fault (c : Content) :
    (∀ n, 3 * c.tokenize.tokens.length < n →
      Descent.read n (Stream.ofText c.decoded) = some (c.outline.mapError .scan))
    ∧ (∀ e, c.outline = .error e ↔ c.tokenize.toExcept = .error e)
    ∧ ∀ name targets,
      ((ofContent name c targets).parsed = false ↔ ∃ e, c.tokenize.toExcept = .error e)
      ∧ ∀ e, c.tokenize.toExcept = .error e →
        (ofContent name c targets).includes = [] ∧ (ofContent name c targets).hasMain = false
        ∧ ∃ code, (ofContent name c targets).diagnostics
            = [⟨code, e.message, e.cursor, some .error⟩]
          ∧ (e.fault.code = "comment-unterminated" ∧ code.id = "CCS001"
            ∨ e.fault.code = "continuation-invalid" ∧ code.id = "CCS002") := by
  refine ⟨fun n hn => Descent.read_ofText hn, fun e => Content.outline_eq_error_iff,
    fun name targets => ⟨?_, ?_⟩⟩
  · simp only [parsed_ofContent, Content.outline_eq_error_iff]
  · intro e he
    rw [ofContent, Content.outline_eq_error_iff.2 he]
    refine ⟨rfl, rfl, codeOf e.fault, rfl, ?_⟩
    rcases e.fault with _ | _
    · exact Or.inr ⟨rfl, rfl⟩
    · exact Or.inl ⟨rfl, rfl⟩

/-- A comment is left open behind an include, a block that is not closed and a main function. -/
theorem ofContent_of_fault_open_comment :
    let text := "#include <a.h>\n#ifdef\n#if A\nint main() \x7b /*"
    let report := ofContent "a.c" (.text text) []
    (Content.text text).tokenize.toExcept = .error ⟨.openComment, ⟨4, 14⟩⟩
    ∧ Descent.read 100 (Stream.ofText text) = some (.error (.scan ⟨.openComment, ⟨4, 14⟩⟩))
    ∧ report.parsed = false ∧ report.includes = [] ∧ report.hasMain = false
    ∧ report.diagnostics.map Diagnostic.cursor = [⟨4, 14⟩] := by
  intro text report
  have hfault : (tokenize text).toExcept = .error ⟨.openComment, ⟨4, 14⟩⟩ := by
    rw [Tokenization.toExcept, tokenize_eq_steps]
    decide +kernel
  have hcalls : 3 * (tokenize text).tokens.length < 100 := by
    rw [tokenize_eq_steps]
    decide +kernel
  obtain ⟨hread, houtline, hreport⟩ := ofContent_of_fault (.text text)
  obtain ⟨hparsed, hfields⟩ := hreport "a.c" []
  obtain ⟨hincludes, hmain, code, hdiagnostics, -⟩ := hfields _ hfault
  refine ⟨hfault, (hread 100 hcalls).trans ?_, hparsed.2 ⟨_, hfault⟩, hincludes, hmain, ?_⟩
  · rw [(houtline _).2 hfault]
    rfl
  · rw [hdiagnostics]
    rfl

end FileReport

end IncludeScan
