import IncludeScan.Proofs.Outline.Printed

/-!
# Proofs/Outline/Roundtrip — a printed tree is read again

    tree ──events──▸ lines of text ──rows──▸ tokens ──▸ lines ──events──▸ tree

A tree is printed as the lines of its events (`Directive.format_eq_lines`).  Cut and read they are
the same events, each include now with the number of its line (`Event.exists_lines`); and a reader
that is given the events of a canonical tree builds that tree (`LineReader.foldl_step_events`).

`ofText_format` — the outline of the printed text of a canonical tree.
-/

namespace IncludeScan

open Piece

/-! ## Canonical trees -/

mutual

/-- **Directives that are read as they are printed**: what is on one line can be written, and each
block has an opening branch with a condition, in front of what may follow it. -/
inductive Directive.Canonical : List Directive → Prop
  | nil : Directive.Canonical []
  | leaf {d : Directive} {ds : List Directive} (hd : d.Writable) (hds : Directive.Canonical ds) :
      Directive.Canonical (d :: ds)
  | block {c : Condition} {body : List Directive} {rest : List Branch} {ds : List Directive}
      (hc : c.Canonical) (hbody : Directive.Canonical body) (hrest : Branch.Canonical rest)
      (hds : Directive.Canonical ds) :
      Directive.Canonical (.block (⟨.opening, some c, body⟩ :: rest) :: ds)

/-- The further branches of a block: alternatives with a condition, and at most one fallback without
one, which is the last. -/
inductive Branch.Canonical : List Branch → Prop
  | none : Branch.Canonical []
  | alternative {c : Condition} {body : List Directive} {rest : List Branch} (hc : c.Canonical)
      (hbody : Directive.Canonical body) (hrest : Branch.Canonical rest) :
      Branch.Canonical (⟨.alternative, some c, body⟩ :: rest)
  | fallback {body : List Directive} (hbody : Directive.Canonical body) :
      Branch.Canonical [⟨.fallback, Option.none, body⟩]

end

theorem Directive.Writable.eventsOf {d : Directive} (h : d.Writable) : d.eventsOf = [.leaf d] := by
  cases h <;> rfl

mutual

theorem Directive.Canonical.writable : ∀ {ds : List Directive}, Directive.Canonical ds →
    ∀ e ∈ Directive.events ds, e.Writable
  | _, .nil => by simp [Directive.events]
  | _, .leaf hd hds => by
    rw [Directive.events, hd.eventsOf, List.singleton_append, List.forall_mem_cons]
    exact ⟨.leaf hd, hds.writable⟩
  | _, .block hc hbody hrest hds => by
    simp only [Directive.events, Directive.eventsOf, Branch.events, List.forall_mem_append,
      List.forall_mem_cons]
    exact ⟨⟨⟨.opening hc, hbody.writable, hrest.writable⟩, .endBlock, by simp⟩, hds.writable⟩

theorem Branch.Canonical.writable : ∀ {bs : List Branch}, Branch.Canonical bs →
    ∀ e ∈ Branch.events bs, e.Writable
  | _, .none => by simp [Branch.events]
  | _, .alternative hc hbody hrest => by
    rw [Branch.events, List.forall_mem_cons, List.forall_mem_append]
    exact ⟨.alternative hc, hbody.writable, hrest.writable⟩
  | _, .fallback hbody => by
    rw [Branch.events, Branch.events, List.append_nil, List.forall_mem_cons]
    exact ⟨.fallback, hbody.writable⟩

end

/-! ## The text of a tree, line by line -/

/-- Texts one below the other, each with a line end. -/
def inLines (texts : List String) : String := String.join (texts.map (· ++ "\n"))

theorem inLines_cons (text : String) (texts : List String) :
    inLines (text :: texts) = text ++ "\n" ++ inLines texts := by
  simp [inLines]

theorem inLines_append (texts texts' : List String) :
    inLines (texts ++ texts') = inLines texts ++ inLines texts' := by
  simp [inLines]

theorem intercalate_newline {texts : List String} (h : texts ≠ []) :
    "\n".intercalate texts ++ "\n" = inLines texts := by
  induction texts with
  | nil => exact absurd rfl h
  | cons text texts ih =>
    cases texts with
    | nil => simp [inLines]
    | cons text' texts =>
      rw [String.intercalate_cons_cons, inLines_cons, ← ih (List.cons_ne_nil _ _),
        String.append_assoc]

mutual

theorem Directive.format_eq_lines : ∀ d : Directive,
    d.format ++ "\n" = inLines (d.eventsOf.map Event.text)
  | .includeFile target => by simp [Directive.eventsOf, inLines, Event.text]
  | .define name params body => by simp [Directive.eventsOf, inLines, Event.text]
  | .undefine name => by simp [Directive.eventsOf, inLines, Event.text]
  | .block branches => by
    rw [Directive.format, Directive.eventsOf, intercalate_newline (by simp), List.map_append,
      inLines_append, inLines_append, Branch.formatAll_eq_lines branches]
    rfl

theorem Directive.formatAll_eq_lines : ∀ ds : List Directive,
    inLines (Directive.formatAll ds) = inLines ((Directive.events ds).map Event.text)
  | [] => by rw [Directive.formatAll, Directive.events, List.map_nil]
  | d :: ds => by
    rw [Directive.formatAll, Directive.events, List.map_append, inLines_append, inLines_cons,
      Directive.format_eq_lines d, Directive.formatAll_eq_lines ds]

theorem Branch.formatAll_eq_lines : ∀ bs : List Branch,
    inLines (Branch.formatAll bs) = inLines ((Branch.events bs).map Event.text)
  | [] => by rw [Branch.formatAll, Branch.events, List.map_nil]
  | ⟨kind, condition, body⟩ :: bs => by
    rw [Branch.formatAll, Branch.events, List.map_cons, inLines_cons, inLines_cons, inLines_append,
      List.map_append, inLines_append, Directive.formatAll_eq_lines body,
      Branch.formatAll_eq_lines bs]
    rfl

end

/-! ## Line numbers -/

/-- How many lines a text has. -/
def lineCount (text : String) : Nat := text.toList.count '\n' + 1

mutual

/-- The directive with the line numbers that it has when it is printed from line `n` on. -/
def Directive.placed (n : Nat) : Directive → Directive
  | .includeFile target => .includeFile { target with line := n }
  | .define name params body => .define name params body
  | .undefine name => .undefine name
  | .block branches => .block (Branch.placedAll n branches)

/-- Directives printed one below the other from line `n` on. -/
def Directive.placedAll (n : Nat) : List Directive → List Directive
  | [] => []
  | d :: ds => d.placed n :: Directive.placedAll (n + lineCount d.format) ds

/-- Branches printed one below the other, each with its first line above its body. -/
def Branch.placedAll (n : Nat) : List Branch → List Branch
  | [] => []
  | ⟨kind, condition, body⟩ :: bs =>
    let inside := n + lineCount (Branch.head kind condition)
    ⟨kind, condition, Directive.placedAll inside body⟩
      :: Branch.placedAll (inside + ((Directive.formatAll body).map lineCount).sum) bs

end

/-- Events on consecutive lines. -/
def Event.onLines (n : Nat) : List Event → List Event
  | [] => []
  | e :: es => e.onLine n :: onLines (n + 1) es

theorem Event.onLines_append (n : Nat) (es fs : List Event) :
    onLines n (es ++ fs) = onLines n es ++ onLines (n + es.length) fs := by
  induction es generalizing n with
  | nil => rfl
  | cons e es ih => simp [onLines, ih, Nat.add_assoc, Nat.add_comm 1]

theorem count_inLines (texts : List String) :
    (inLines texts).toList.count '\n' = (texts.map lineCount).sum := by
  induction texts with
  | nil => rfl
  | cons text texts ih =>
    simp [inLines_cons, ih, lineCount]
    omega

theorem Event.Writable.lineCount_text {e : Event} (h : e.Writable) : lineCount e.text = 1 := by
  obtain ⟨k, xs, hprinted⟩ := h.exists_printed
  have hcount := count_newline_row (hprinted.laid []) hprinted.kinds
  rwa [hprinted.flat_row, List.count_append] at hcount

theorem Event.sum_lineCount {es : List Event} (h : ∀ e ∈ es, e.Writable) :
    (es.map fun e => lineCount e.text).sum = es.length := by
  rw [List.map_congr_left fun e he => (h e he).lineCount_text]
  simp

theorem Directive.lineCount_format {d : Directive} (h : ∀ e ∈ d.eventsOf, e.Writable) :
    lineCount d.format = d.eventsOf.length := by
  have hcount := congrArg (fun text : String => text.toList.count '\n') (format_eq_lines d)
  simp only [count_inLines, List.map_map, String.toList_append, List.count_append] at hcount
  exact hcount.trans (Event.sum_lineCount h)

theorem Directive.sum_lineCount_formatAll {ds : List Directive} (h : ∀ e ∈ events ds, e.Writable) :
    ((formatAll ds).map lineCount).sum = (events ds).length := by
  rw [← count_inLines, formatAll_eq_lines, count_inLines, List.map_map]
  exact Event.sum_lineCount h

theorem Directive.Writable.placed {d : Directive} (h : d.Writable) (n : Nat) :
    (d.placed n).Writable ∧ d.placed n = d.renumber fun _ => n := by
  cases h with
  | quoted hpath => exact ⟨.quoted hpath, rfl⟩
  | system hne hpath hslash => exact ⟨.system hne hpath hslash, rfl⟩
  | define hname hparams hbody => exact ⟨.define hname hparams hbody, rfl⟩
  | undefine hname => exact ⟨.undefine hname, rfl⟩

mutual

theorem Directive.Canonical.placedAll : ∀ {ds : List Directive}, Directive.Canonical ds →
    ∀ n, Directive.Canonical (Directive.placedAll n ds)
  | _, .nil, _ => .nil
  | _, .leaf hd hds, n => .leaf (hd.placed n).1 (hds.placedAll _)
  | _, .block hc hbody hrest hds, _ =>
    .block hc (hbody.placedAll _) (hrest.placedAll _) (hds.placedAll _)

theorem Branch.Canonical.placedAll : ∀ {bs : List Branch}, Branch.Canonical bs →
    ∀ n, Branch.Canonical (Branch.placedAll n bs)
  | _, .none, _ => .none
  | _, .alternative hc hbody hrest, _ => .alternative hc (hbody.placedAll _) (hrest.placedAll _)
  | _, .fallback hbody, _ => .fallback (hbody.placedAll _)

end

theorem Branch.events_placedAll_cons {kind : BranchKind} {condition : Option Condition}
    {body : List Directive} {bs : List Branch} (hhead : (Event.branch kind condition).Writable)
    (hbody : ∀ e ∈ Directive.events body, e.Writable)
    (hinside : ∀ n, Directive.events (Directive.placedAll n body)
      = Event.onLines n (Directive.events body))
    (hbelow : ∀ n, Branch.events (Branch.placedAll n bs) = Event.onLines n (Branch.events bs))
    (n : Nat) :
    Branch.events (Branch.placedAll n (⟨kind, condition, body⟩ :: bs))
      = Event.onLines n (Branch.events (⟨kind, condition, body⟩ :: bs)) := by
  have hline : lineCount (Branch.head kind condition) = 1 := hhead.lineCount_text
  rw [Branch.placedAll, Branch.events, Branch.events, hline, hinside, hbelow,
    Directive.sum_lineCount_formatAll hbody, Event.onLines, Event.onLines_append]
  rfl

mutual

/-- **The events of a printed tree are those of the tree on consecutive lines.** -/
theorem Directive.Canonical.events_placedAll : ∀ {ds : List Directive}, Directive.Canonical ds →
    ∀ n, Directive.events (Directive.placedAll n ds) = Event.onLines n (Directive.events ds)
  | _, .nil, n => by rw [Directive.placedAll, Directive.events, Event.onLines]
  | _, .leaf (d := d) hd hds, n => by
    have hline : lineCount d.format = 1 := (Event.Writable.leaf hd).lineCount_text
    obtain ⟨hplaced, hrenumber⟩ := hd.placed n
    rw [Directive.placedAll, Directive.events, Directive.events, hplaced.eventsOf, hd.eventsOf,
      hline, hds.events_placedAll, Event.onLines_append, hrenumber]
    rfl
  | _, .block hc hbody hrest hds, n => by
    have hbranches := Branch.events_placedAll_cons (.opening hc) hbody.writable
      hbody.events_placedAll hrest.events_placedAll n
    -- the block alone, which says how many lines it takes
    have hwritable := (Directive.Canonical.block hc hbody hrest .nil).writable
    rw [Directive.events, Directive.events, List.append_nil] at hwritable
    rw [Directive.placedAll, Directive.events, Directive.events,
      Directive.lineCount_format hwritable, hds.events_placedAll, Event.onLines_append,
      Directive.placed, Directive.eventsOf, hbranches, Directive.eventsOf, Event.onLines_append]
    rfl

theorem Branch.Canonical.events_placedAll : ∀ {bs : List Branch}, Branch.Canonical bs →
    ∀ n, Branch.events (Branch.placedAll n bs) = Event.onLines n (Branch.events bs)
  | _, .none, n => by rw [Branch.placedAll, Branch.events, Event.onLines]
  | _, .alternative hc hbody hrest, n =>
    Branch.events_placedAll_cons (.alternative hc) hbody.writable hbody.events_placedAll
      hrest.events_placedAll n
  | _, .fallback hbody, n =>
    Branch.events_placedAll_cons .fallback hbody.writable hbody.events_placedAll
      (fun n => by rw [Branch.placedAll, Branch.events, Event.onLines]) n

end

/-! ## From the text to the lines -/

namespace Event

/-- The pieces of rows. -/
def rowsPieces (rows : List (Keyword × List Piece)) : List Piece :=
  rows.flatMap fun r => row r.1 r.2

theorem exists_rows {es : List Event} (h : ∀ e ∈ es, e.Writable) :
    ∃ rows, List.Forall₂ (fun (e : Event) (r : Keyword × List Piece) => e.Printed r.1 r.2) es
      rows := by
  induction es with
  | nil => exact ⟨[], .nil⟩
  | cons e es ih =>
    obtain ⟨he, hes⟩ := List.forall_mem_cons.1 h
    obtain ⟨k, xs, hprinted⟩ := he.exists_printed
    obtain ⟨rows, hrows⟩ := ih hes
    exact ⟨(k, xs) :: rows, .cons hprinted hrows⟩

section

variable {es : List Event} {rows : List (Keyword × List Piece)}
  (h : List.Forall₂ (fun (e : Event) (r : Keyword × List Piece) => e.Printed r.1 r.2) es rows)

include h

theorem flat_rows : flat (rowsPieces rows) = (inLines (es.map Event.text)).toList := by
  induction h with
  | nil => rfl
  | @cons e r es rows he _ ih =>
    rw [rowsPieces, List.flatMap_cons, flat_append, he.flat_row, List.map_cons, inLines_cons,
      String.toList_append, String.toList_append, ← ih]
    rfl

theorem laid_rows : Laid (rowsPieces rows) [] := by
  induction h with
  | nil => trivial
  | cons he _ ih => exact laid_append.2 ⟨he.laid _, ih⟩

/-- **The lines of printed events are the events again**, on consecutive lines. -/
theorem exists_lines (p : Cursor) (offset : Nat) :
    ∃ ls : List Line, Item.ofTokens (place p offset (rowsPieces rows)) = ls.map .line
      ∧ ls.map Line.event = (onLines p.line es).map .ok := by
  induction h generalizing p offset with
  | nil => exact ⟨[], by rw [rowsPieces, List.flatMap_nil, place, Item.ofTokens]; rfl, rfl⟩
  | @cons e r es rows he _ ih =>
    obtain ⟨ls, hitems, hevents⟩ := ih (p.advance (flat (row r.1 r.2)))
      (offset + Text.unitCount (flat (row r.1 r.2)))
    have hnext : (p.advance (flat (row r.1 r.2))).line = p.line + 1 := by
      rw [Cursor.line_advance, count_newline_row (he.laid []) he.kinds]
    refine ⟨rowLine p offset r.1 r.2 :: ls, ?_, ?_⟩
    · rw [rowsPieces, List.flatMap_cons, place_append, Item.ofTokens_append (endsLine_row _ _ _ _),
        Item.ofTokens_row he.kinds]
      exact congrArg (List.cons _) hitems
    · rw [List.map_cons, he.read, hevents, hnext]
      rfl

end

end Event

/-! ## From the lines to the tree -/

namespace LineReader

/-- What the event of a line does to the reader. -/
theorem step_of_event {l : Line} {e : Event} (h : l.event = .ok e) :
    match e with
    | .leaf d => ∀ r, step r l = r.add d
    | .branch .opening (some c) => ∀ r, step r l = r.openBlock l c
    | .branch kind condition => ∀ r f fs, r.frames = f :: fs → f.kind ≠ .fallback →
      step r l = r.nextBranch f fs kind condition
    | .endBlock => ∀ r f fs, r.frames = f :: fs → step r l = r.closeBlock f fs := by
  unfold Line.event at h
  split at h
  · rename_i hrole
    obtain ⟨d, hread, rfl⟩ := exists_of_map_eq_ok h
    exact fun r => by rw [step, hrole, hread]
  · rename_i hrole
    obtain ⟨c, hread, rfl⟩ := exists_of_map_eq_ok h
    exact fun r => by rw [step, hrole, hread]
  · rename_i hrole
    obtain ⟨c, hread, rfl⟩ := exists_of_map_eq_ok h
    intro r f fs hframes hkind
    rw [step_eq, hrole, innerStep_of_frames hframes]
    simp [branchStep, hrole, hread, hkind]
  · rename_i hrole
    obtain rfl := Except.ok.inj h
    intro r f fs hframes hkind
    rw [step_eq, hrole, innerStep_of_frames hframes]
    simp [branchStep, hrole, hkind]
  · rename_i hrole
    obtain rfl := Except.ok.inj h
    intro r f fs hframes
    rw [step_eq, hrole, innerStep_of_frames hframes]
    simp [branchStep, hrole]

mutual

/-- **The events of a canonical tree build the tree.** -/
theorem foldl_step_events : ∀ {ds : List Directive}, Directive.Canonical ds →
    ∀ {ls : List Line}, ls.map Line.event = (Directive.events ds).map .ok →
    ∀ r : LineReader, ls.foldl step r = { r with body := ds.reverse ++ r.body }
  | _, .nil, ls, h, r => by
    rw [Directive.events, List.map_nil, List.map_eq_nil_iff] at h
    rw [h]
    rfl
  | _, .leaf hd hds, ls, h, r => by
    rw [Directive.events, hd.eventsOf, List.singleton_append, List.map_cons,
      List.map_eq_cons_iff] at h
    obtain ⟨l, ls, rfl, hl, hls⟩ := h
    rw [List.foldl_cons, step_of_event hl, foldl_step_events hds hls]
    simp [add]
  | _, .block hc hbody hrest hds, ls, h, r => by
    rw [Directive.events, Directive.eventsOf, Branch.events, List.cons_append, List.cons_append,
      List.append_assoc (Directive.events _) (Branch.events _),
      List.append_assoc (Directive.events _), List.map_cons, List.map_append, List.map_append] at h
    -- the opening line, the lines of its body, those down to the end of the block, and the rest
    obtain ⟨l, ls, rfl, hl, hls⟩ := List.map_eq_cons_iff.1 h
    obtain ⟨inside, ls, rfl, hinside, hls⟩ := List.map_eq_append_iff.1 hls
    obtain ⟨below, ls, rfl, hbelow, hls⟩ := List.map_eq_append_iff.1 hls
    rw [List.foldl_cons, step_of_event hl, List.foldl_append, foldl_step_events hbody hinside,
      List.foldl_append, foldl_step_branches hrest hbelow rfl (by simp),
      foldl_step_events hds hls]
    simp [openBlock, Frame.branches]

/-- …and those of the further branches and the end of the block close it. -/
theorem foldl_step_branches : ∀ {bs : List Branch}, Branch.Canonical bs →
    ∀ {ls : List Line}, ls.map Line.event = (Branch.events bs ++ [Event.endBlock]).map .ok →
    ∀ {r : LineReader} {f : Frame} {fs : List Frame}, r.frames = f :: fs → f.kind ≠ .fallback →
      ls.foldl step r
        = { r with frames := fs, body := .block ((f.branches r.body).reverse ++ bs) :: f.outer }
  | _, .none, ls, h, r, f, fs, hframes, hkind => by
    rw [Branch.events, List.nil_append, List.map_singleton, List.map_eq_singleton_iff] at h
    obtain ⟨l, rfl, hl⟩ := h
    rw [List.foldl_cons, List.foldl_nil, step_of_event hl r f fs hframes, closeBlock,
      List.append_nil]
  | _, .alternative hc hbody hrest, ls, h, r, f, fs, hframes, hkind => by
    rw [Branch.events, List.cons_append, List.append_assoc, List.map_cons, List.map_append] at h
    obtain ⟨l, ls, rfl, hl, hls⟩ := List.map_eq_cons_iff.1 h
    obtain ⟨inside, below, rfl, hinside, hbelow⟩ := List.map_eq_append_iff.1 hls
    rw [List.foldl_cons, step_of_event hl r f fs hframes hkind, List.foldl_append,
      foldl_step_events hbody hinside, foldl_step_branches hrest hbelow rfl (by simp)]
    simp [nextBranch, Frame.branches]
  | _, .fallback hbody, ls, h, r, f, fs, hframes, hkind => by
    rw [Branch.events, Branch.events, List.append_nil, List.cons_append, List.map_cons,
      List.map_append, List.map_singleton] at h
    obtain ⟨l, ls, rfl, hl, hls⟩ := List.map_eq_cons_iff.1 h
    obtain ⟨inside, below, rfl, hinside, hbelow⟩ := List.map_eq_append_iff.1 hls
    obtain ⟨last, rfl, hlast⟩ := List.map_eq_singleton_iff.1 hbelow
    rw [List.foldl_cons, step_of_event hl r f fs hframes hkind, List.foldl_append,
      foldl_step_events hbody hinside, List.foldl_cons, List.foldl_nil,
      step_of_event hlast _ _ _ rfl]
    simp [nextBranch, closeBlock, Frame.branches]

end

end LineReader

/-! ## The outline of a printed tree -/

theorem MainWatch.foldl_see_lines (ls : List Line) :
    (ls.map Item.line).foldl see .idle = .idle := by
  induction ls with
  | nil => rfl
  | cons l ls ih => exact ih

/-- A file of directive lines alone, with the events of a canonical tree, has that tree. -/
theorem Outline.ofTokens_of_events {ts : List Token} {ls : List Line} {ds : List Directive}
    (hitems : Item.ofTokens ts = ls.map .line) (hds : Directive.Canonical ds)
    (hevents : ls.map Line.event = (Directive.events ds).map .ok) :
    ofTokens ts = ⟨ds, false, []⟩ := by
  have hlines : lines ts = ls := by
    rw [lines, hitems, List.filterMap_map]
    exact List.filterMap_some
  have hread : LineReader.readAll (lines ts) = { body := ds.reverse } := by
    rw [hlines, LineReader.readAll, LineReader.foldl_step_events hds hevents, List.append_nil]
  have hmain : hasMainIn ts = false := by
    rw [hasMainIn, hitems, MainWatch.foldl_see_lines]
    rfl
  simp [ofTokens, hread, hmain, endComplaint?]

/-- A text of lines that are printed events. -/
theorem Outline.ofText_lines {ds : List Directive} (h : Directive.Canonical ds) :
    ofText (inLines ((Directive.events ds).map Event.text))
      = .ok ⟨Directive.placedAll 1 ds, false, []⟩ := by
  obtain ⟨rows, hrows⟩ := Event.exists_rows h.writable
  obtain ⟨htokens, eof, hending⟩ := tokenize_flat (Event.laid_rows hrows)
  rw [Event.flat_rows hrows, String.ofList_toList] at htokens hending
  obtain ⟨ls, hitems, hevents⟩ := Event.exists_lines hrows .start 0
  rw [← htokens] at hitems
  refine ofText_eq_ok_iff.2 ⟨⟨eof, hending⟩, ?_⟩
  exact (ofTokens_of_events hitems (h.placedAll 1)
    (hevents.trans (by rw [h.events_placedAll]; rfl))).symm

/-- A line end alone, which is how no directives are printed. -/
theorem Outline.ofText_newline : ofText "\n" = .ok ⟨[], false, []⟩ := by
  have hflat : String.ofList (flat [lineEnd]) = "\n" := rfl
  obtain ⟨htokens, eof, hending⟩ := @tokenize_flat [lineEnd] ⟨fits_lineEnd [], trivial⟩
  rw [hflat] at htokens hending
  have hitems : Item.ofTokens (tokenize "\n").tokens = List.map Item.line [] := by
    rw [htokens]
    simp [place, Item.ofTokens]
  refine ofText_eq_ok_iff.2 ⟨⟨eof, hending⟩, ?_⟩
  exact (ofTokens_of_events hitems .nil (by simp [Directive.events])).symm

/-- **Reading undoes printing**: the text of a canonical tree has that tree, each include with the
number of the line that it was printed on, and nothing is reported. -/
theorem Outline.ofText_format {ds : List Directive} (h : Directive.Canonical ds) :
    ofText ("\n".intercalate (Directive.formatAll ds) ++ "\n")
      = .ok ⟨Directive.placedAll 1 ds, false, []⟩ := by
  cases ds with
  | nil => exact ofText_newline
  | cons d ds =>
    rw [intercalate_newline (by simp [Directive.formatAll]), Directive.formatAll_eq_lines]
    exact ofText_lines h

theorem Outline.ofText_format_nested :
    Directive.Canonical
        [.define "F" (some ["x", "..."]) ["(", "x"],
          .block
            [⟨.opening, some (.and (.defined "A") (.not (.ident "B"))),
                [.block [⟨.opening, some (.ident "C"), [.includeFile ⟨"sys/a-b.h", true, 0⟩]⟩]]⟩,
              ⟨.fallback, none, [.includeFile ⟨"b c.h", false, 0⟩]⟩]]
      ∧ ofText (inLines ["#define F(x, ...) ( x", "#if defined(A) && !(B)", "#if C",
          "#include <sys/a-b.h>", "#endif", "#else", "#include \"b c.h\"", "#endif"])
        = .ok
          ⟨[.define "F" (some ["x", "..."]) ["(", "x"],
              .block
                [⟨.opening, some (.and (.defined "A") (.not (.ident "B"))),
                    [.block [⟨.opening, some (.ident "C"),
                      [.includeFile ⟨"sys/a-b.h", true, 4⟩]⟩]]⟩,
                  ⟨.fallback, none, [.includeFile ⟨"b c.h", false, 7⟩]⟩]], false, []⟩ := by
  have hname (name : String) (h : isIdentifier name = true ∧ name ≠ "defined") :
      (Condition.ident name).Canonical := ⟨.ident h.1 h.2, trivial⟩
  have hboth : (Condition.and (.defined "A") (.not (.ident "B"))).Canonical :=
    ⟨.join .and (.defined (by decide)) (.not (hname "B" (by decide)).1),
      by simp [Condition.Grouped, Condition.power, Connective.power, Connective.operandPower]⟩
  have hdefine : (Directive.define "F" (some ["x", "..."]) ["(", "x"]).Writable :=
    .define (by decide) (by rintro ps ⟨⟩; decide) (by decide)
  have hsystem := @Directive.Writable.system "sys/a-b.h" 0 (by decide) (by decide) (by decide)
  have hquoted := @Directive.Writable.quoted "b c.h" 0 (by decide)
  have hinner := Directive.Canonical.block (hname "C" (by decide)) (.leaf hsystem .nil) .none .nil
  have hcanonical := Directive.Canonical.leaf hdefine
    (.block hboth hinner (.fallback (.leaf hquoted .nil)) .nil)
  refine ⟨hcanonical,
    ((congrArg ofText ?_).trans (ofText_format hcanonical)).trans (congrArg Except.ok ?_)⟩
  · decide +kernel
  · rfl

end IncludeScan
