import IncludeScan.Proofs.Analysis.Faults
import IncludeScan.Proofs.Grouping.InputOrder

/-!
# Proofs/Analysis/Independence — the groups of a directory hang on its contents alone

The reports on the files are shaped by the targets and by the diagnostics that are left out, and the
groups are made from the reports.  But grouping looks only at what a report includes in quotes, and
of a file that is what its outline includes in quotes (`SourceFile.ofInput`): targets mark the
includes and settings choose diagnostics, and neither adds or drops an include.

`DirectoryReport.grouping_withTrace` — the groups of a directory, and that no other targets and
settings have others.
-/

namespace IncludeScan

/-- The paths that a file includes in quotes, in order; none if it cannot be cut into tokens. -/
def Content.quoted (c : Content) : List String :=
  match c.outline with
  | .ok o => ((Directive.includes o.directives).filter fun i => !i.system).map Include.path
  | .error _ => []

/-- The file as grouping sees it, from its content. -/
def SourceFile.ofInput (f : InputFile) : SourceFile := ofQuoted f.name f.content.quoted

namespace FileReport

/-- **What a report includes in quotes is what the file includes in quotes.** -/
theorem quoted_ofContent (name : String) (c : Content) (targets : List Target) :
    (ofContent name c targets).quoted = c.quoted := by
  rw [ofContent, Content.quoted]
  cases c.outline with
  | error e => rfl
  | ok o =>
    -- the targets only mark an include, and what is quoted does not look at the mark
    change ((annotate o.directives targets).filter fun i => !i.target.system).map
      (fun i => i.target.path) = _
    rw [annotate, List.filter_map, List.map_map]
    rfl

theorem name_ofContent (name : String) (c : Content) (targets : List Target) :
    (ofContent name c targets).name = name := by
  rw [ofContent]
  cases c.outline <;> rfl

end FileReport

namespace DirectoryReport

/-- **Grouping sees the files as their contents show them.** -/
theorem map_grouping_withTrace (verbose : Bool) (s : Settings) (files : List InputFile)
    (targets : List Target) (layout : Path.Layout) :
    (withTrace verbose s files targets layout).map (fun r => r.1.grouping)
      = Grouping.ofFiles layout (files.map SourceFile.ofInput) := by
  have hfiles : (files.map fun f =>
        (FileReport.ofContent f.name f.content targets).withoutDisabled s.disable).map
          (fun r => SourceFile.ofQuoted r.name r.quoted)
      = files.map SourceFile.ofInput := by
    rw [List.map_map]
    refine List.map_congr_left fun f _ => ?_
    exact congrArg₂ SourceFile.ofQuoted (FileReport.name_ofContent ..)
      (FileReport.quoted_ofContent ..)
  rw [withTrace, ofFiles, hfiles]
  cases Grouping.ofFiles layout (files.map SourceFile.ofInput) <;> rfl

theorem exists_withTrace {files : List InputFile} {layout : Path.Layout} {g : Grouping}
    (h : Grouping.ofFiles layout (files.map SourceFile.ofInput) = .ok g) (verbose : Bool)
    (s : Settings) (targets : List Target) :
    ∃ r log, withTrace verbose s files targets layout = .ok (r, log) ∧ r.grouping = g := by
  have hmap := map_grouping_withTrace verbose s files targets layout
  rw [h] at hmap
  generalize withTrace verbose s files targets layout = run at hmap
  cases run with
  | error e => cases hmap
  | ok run => exact ⟨run.1, run.2, rfl, Except.ok.inj hmap⟩

end DirectoryReport

/-- **A listed file is in one group.** -/
theorem Grouping.exists_group_iff {layout : Path.Layout} {files : List SourceFile} {r : Grouping}
    (h : ofFiles layout files = .ok r) {f : SourceFile} (hf : f ∈ files) :
    ∃ e ∈ r.groups, ∀ e' ∈ r.groups, f.name ∈ e'.2.sources ↔ e' = e := by
  obtain ⟨named, hb⟩ := exists_built h
  obtain ⟨c, hc, hid⟩ := hb.exists_mem hf
  refine ⟨_, hb.mem_groups.2 ⟨c, hc, rfl⟩, fun e' he' => ⟨fun hmem => ?_, ?_⟩⟩
  · obtain ⟨d, hd, rfl⟩ := hb.mem_groups.1 he'
    rw [hb.eq_of_mem hd hc ((mem_sources_iff hf).1 hmem) hid]
  · rintro rfl
    exact (mem_sources_iff hf).2 hid

/-- What is included in quotes is there, and only where the file can be cut. -/
theorem Content.mem_quoted {c : Content} {path : String} :
    path ∈ c.quoted ↔ ∃ o, c.outline = .ok o
      ∧ ∃ i ∈ Directive.includes o.directives, i.system = false ∧ i.path = path := by
  rw [quoted]
  cases c.outline with
  | error e => simp
  | ok o => simp [and_assoc]

/-- **An edge comes from an include in quotes of a file that can be cut.** -/
theorem IncludeGraph.mem_targets_ofInput {layout : Path.Layout} {files : List InputFile}
    {source target : String} :
    target ∈ targets (edges layout (files.map SourceFile.ofInput)) source
      ↔ ∃ f ∈ files, Path.stem f.name = source ∧ ∃ o, f.content.outline = .ok o
        ∧ ∃ i ∈ Directive.includes o.directives, i.system = false
          ∧ LeadsTo layout (files.map SourceFile.ofInput) (Path.candidates f.name i.path)
              target := by
  rw [mem_targets]
  constructor
  · rintro ⟨g, hg, hid, candidates, hcandidates, hleads⟩
    obtain ⟨f, hf, rfl⟩ := List.mem_map.1 hg
    obtain ⟨path, hpath, rfl⟩ := List.mem_map.1 hcandidates
    obtain ⟨o, ho, i, hi, hsystem, rfl⟩ := Content.mem_quoted.1 hpath
    exact ⟨f, hf, hid, o, ho, i, hi, hsystem, hleads⟩
  · rintro ⟨f, hf, hid, o, ho, i, hi, hsystem, hleads⟩
    have hpath := Content.mem_quoted.2 ⟨o, ho, i, hi, hsystem, rfl⟩
    exact ⟨.ofInput f, List.mem_map_of_mem hf, hid, _, List.mem_map_of_mem hpath, hleads⟩

namespace DirectoryReport

/-- **The groups of a directory hang on the contents and the layout alone.**  If the analysis of a
directory returns, then its groups are those of the files as their contents show them, and with any
other targets and settings it returns too, with the same groups.  Each file is in one group, whether
it can be cut or not; and every edge between ids comes from an include in quotes of a file that can
be cut. -/
theorem grouping_withTrace {verbose : Bool} {s : Settings} {files : List InputFile}
    {targets : List Target} {layout : Path.Layout} {r : DirectoryReport} {log : List LogLine}
    (h : withTrace verbose s files targets layout = .ok (r, log)) :
    Grouping.ofFiles layout (files.map SourceFile.ofInput) = .ok r.grouping
    ∧ (∀ verbose' s' targets', ∃ r' log',
        withTrace verbose' s' files targets' layout = .ok (r', log') ∧ r'.grouping = r.grouping)
    ∧ (∀ f ∈ files,
        (∃ e ∈ r.grouping.groups, ∀ e' ∈ r.grouping.groups, f.name ∈ e'.2.sources ↔ e' = e)
        ∧ ∀ e, f.content.tokenize.toExcept = .error e → (SourceFile.ofInput f).includes = [])
    ∧ ∀ source target,
        target ∈ IncludeGraph.targets (IncludeGraph.edges layout (files.map SourceFile.ofInput))
            source
          ↔ ∃ f ∈ files, Path.stem f.name = source ∧ ∃ o, f.content.outline = .ok o
            ∧ ∃ i ∈ Directive.includes o.directives, i.system = false
              ∧ IncludeGraph.LeadsTo layout (files.map SourceFile.ofInput)
                  (Path.candidates f.name i.path) target := by
  have hgrouping : Grouping.ofFiles layout (files.map SourceFile.ofInput) = .ok r.grouping := by
    rw [← map_grouping_withTrace verbose s files targets layout, h]
    rfl
  refine ⟨hgrouping, exists_withTrace hgrouping, fun f hf => ⟨?_, fun e he => ?_⟩,
    fun _ _ => IncludeGraph.mem_targets_ofInput⟩
  · exact Grouping.exists_group_iff hgrouping (List.mem_map_of_mem hf)
  · rw [SourceFile.ofInput, Content.quoted, Content.outline_eq_error_iff.2 he]
    rfl

/-- An include in a block that no target reaches, and one in front of a comment that is left open,
in bytes. -/
def unreached : List InputFile :=
  [⟨"a.c", .text "#if A\n#include \"b.h\"\n#endif\n"⟩,
    ⟨"b.h", .bytes ("#include \"a.c\"\n/*".toList.map fun c => UInt8.ofNat c.toNat)⟩]

theorem map_ofInput_unreached :
    unreached.map SourceFile.ofInput = [.ofQuoted "a.c" ["b.h"], .ofQuoted "b.h" []] := by
  have hguarded : (Content.text "#if A\n#include \"b.h\"\n#endif\n").quoted = ["b.h"] := by
    have hending : (tokenize "#if A\n#include \"b.h\"\n#endif\n").ending
        = .ok ⟨.eof, "", ⟨4, 1⟩, ⟨28, 28⟩, none⟩ := by
      rw [tokenize_eq_steps]
      decide +kernel
    rw [Content.quoted, Content.outline, Content.decoded,
      Outline.ofText_eq_ok_iff.2 ⟨⟨_, hending⟩, rfl⟩, Outline.ofTokens,
      Outline.lines_eq_directiveLines, tokenize_eq_steps]
    cbv
  have hopen : (Content.bytes ("#include \"a.c\"\n/*".toList.map
      fun c => UInt8.ofNat c.toNat)).quoted = [] := by
    have hdecoded : Text.Utf8.decode ("#include \"a.c\"\n/*".toList.map
        fun c => UInt8.ofNat c.toNat) = "#include \"a.c\"\n/*" := by decide +kernel
    have hfault : (tokenize "#include \"a.c\"\n/*").toExcept
        = .error ⟨.openComment, ⟨2, 1⟩⟩ := by
      rw [Tokenization.toExcept, tokenize_eq_steps]
      decide +kernel
    rw [Content.quoted, Content.outline, Content.decoded, hdecoded,
      Outline.ofText_eq_error_iff.2 hfault]
  simp only [unreached, List.map_cons, List.map_nil, SourceFile.ofInput, hguarded, hopen]

/-- The first include is an edge though no target reaches it, and the other is none; its
file is grouped all the same. -/
theorem grouping_withTrace_unreached :
    ∃ r log, withTrace true {} unreached [⟨"none", .empty⟩] {} = .ok (r, log)
      ∧ (∃ r' log', withTrace false ⟨[], [], {}, DiagnosticCode.all, true⟩ unreached
          [⟨"A", ⟨[("A", 1)]⟩⟩] {} = .ok (r', log') ∧ r'.grouping = r.grouping)
      ∧ (∃ e ∈ r.grouping.groups, "b.h" ∈ e.2.sources)
      ∧ "b" ∈ IncludeGraph.targets
          (IncludeGraph.edges {} (unreached.map SourceFile.ofInput)) "a"
      ∧ (∀ target, target ∉ IncludeGraph.targets
          (IncludeGraph.edges {} (unreached.map SourceFile.ofInput)) "b") := by
  obtain ⟨g, hg⟩ := @Grouping.exists_ofFiles {} (unreached.map SourceFile.ofInput) (by decide)
  obtain ⟨r, log, hrun, -⟩ := exists_withTrace hg true {} [⟨"none", .empty⟩]
  obtain ⟨-, hother, hfiles, -⟩ := grouping_withTrace hrun
  have hedges : IncludeGraph.edges {} (unreached.map SourceFile.ofInput)
      = [("a", ["b"]), ("b", [])] := by
    rw [map_ofInput_unreached]
    decide +kernel
  obtain ⟨⟨e, he, hmem⟩, -⟩ := hfiles
    ⟨"b.h", .bytes ("#include \"a.c\"\n/*".toList.map fun c => UInt8.ofNat c.toNat)⟩ (by decide)
  refine ⟨r, log, hrun, hother .., ⟨e, he, (hmem e he).2 rfl⟩, ?_, fun target => ?_⟩
  · rw [hedges]
    decide
  · rw [hedges]
    exact List.not_mem_nil

end DirectoryReport

end IncludeScan
