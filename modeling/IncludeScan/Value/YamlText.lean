import IncludeScan.Value.Scalar

/-!
# Value/YamlText — the scalars of YAML text, and the gaps between them

Blanks, line ends and comments part the nodes of a text.  How far the line at hand is indented
decides to which collection a node belongs, so the place in the text is kept with line, column and
indentation.  A tab indents nothing; where one was passed over, no block collection can begin in the
rest of the line.

A scalar is quoted once, quoted twice, or not quoted; it may run over several lines, whose ends are
folded into spaces.
-/

namespace IncludeScan.Yaml

/-- A blank within a line. -/
def isBlank (c : Char) : Bool := c == ' ' || c == '\t'

/-- The text still to be read; the line and the column where it begins, and how far that line is
indented. -/
structure Source where
  rest : List Char
  line : Nat := 0
  column : Nat := 0
  indent : Nat := 0
  /-- Only blanks were read of this line. -/
  inMargin : Bool := true
  /-- A tab was passed over between the nodes of this line. -/
  tabbed : Bool := false

namespace Source

/-- Reads one character. -/
def step (s : Source) (c : Char) : Source :=
  if c = '\n' then ⟨s.rest.drop 1, s.line + 1, 0, 0, true, false⟩
  else
    { s with
      rest := s.rest.drop 1
      column := s.column + 1
      indent := if s.inMargin && c == ' ' then s.indent + 1 else s.indent
      inMargin := s.inMargin && c == ' ' }

/-- Reads a number of characters. -/
def skip (s : Source) (count : Nat) : Source := (s.rest.take count).foldl step s

/-- Reads one character between nodes. -/
def stepGap (s : Source) (c : Char) : Source :=
  let after := s.step c
  { after with tabbed := after.tabbed || c == '\t' }

end Source

/-- The text ends here, or goes on with a blank or a new line. -/
def atGap : List Char → Bool
  | [] => true
  | c :: _ => isBlank c || c == '\n'

/-- A character that parts the items of a flow collection. -/
def isFlowMark (c : Char) : Bool :=
  c == ',' || c == '[' || c == ']' || c == '\x7b' || c == '\x7d'

/-- Passes over blanks, line ends and, if they are allowed, comments; `rest` is the text of `s`. -/
def skipGapIn (comments : Bool) (inComment : Bool) (s : Source) : (rest : List Char) → Source
  | [] => s
  | c :: cs =>
    if c == '\n' then skipGapIn comments false (s.step c) cs
    else if inComment then skipGapIn comments true (s.step c) cs
    else if isBlank c then skipGapIn comments false (s.stepGap c) cs
    else if comments && c == '#' then skipGapIn comments true (s.step c) cs
    else s

/-- The next place that is not a blank, a line end or a comment. -/
def skipGap (s : Source) : Source := skipGapIn true false s s.rest

/-- The next place that is not a blank or a line end. -/
def skipBreaks (s : Source) : Source := skipGapIn false false s s.rest

/-- The next place in this line that is not a blank. -/
def skipBlanks (s : Source) : Source := s.skip (s.rest.takeWhile isBlank).length

/-- Line ends inside a scalar: one is a space, and of several each but the first is kept. -/
def folded (breaks : Nat) : List Char :=
  if breaks = 0 then [] else if breaks = 1 then [' '] else List.replicate (breaks - 1) '\n'

/-- A marker that ends a document: three dashes or three dots, and a gap. -/
def startsMarker : List Char → Bool
  | '-' :: '-' :: '-' :: cs => atGap cs
  | '.' :: '.' :: '.' :: cs => atGap cs
  | _ => false

/-- A control character, or another that must not be written in a text. -/
def isUnprintable (c : Char) : Bool :=
  let n := c.toNat
  n ≤ 0x08 || (0x0B ≤ n && n ≤ 0x0C) || (0x0E ≤ n && n ≤ 0x1F) || (0x7F ≤ n && n ≤ 0x84)
    || (0x86 ≤ n && n ≤ 0x9F) || n == 0xFFFE || n == 0xFFFF

/-- A control character that must not be written in quotes. -/
def isControl (c : Char) : Bool := c.toNat < 0x20 && c != '\t'

/-! ## Quoted scalars -/

/-- Blanks and line ends inside quotes: how many line ends there are, whether what follows begins a
line, and what follows. -/
structure Breaks where
  count : Nat
  atStart : Bool
  rest : List Char

/-- Splits off blanks and line ends. -/
def splitBreaks (atStart : Bool) : List Char → Breaks
  | [] => ⟨0, atStart, []⟩
  | c :: cs =>
    if c == '\n' then
      let b := splitBreaks true cs
      { b with count := b.count + 1 }
    else if isBlank c then splitBreaks false cs
    else ⟨0, atStart, c :: cs⟩

theorem length_splitBreaks_le (atStart : Bool) (cs : List Char) :
    (splitBreaks atStart cs).rest.length ≤ cs.length := by
  induction cs generalizing atStart with
  | nil => simp [splitBreaks]
  | cons c cs ih =>
    have h₁ := ih true
    have h₂ := ih false
    simp only [splitBreaks]
    split
    · simp only [List.length_cons]; omega
    · split <;> simp only [List.length_cons] <;> omega

/-- The lines inside quotes end where a document does. -/
def Breaks.isBroken (b : Breaks) : Bool := b.atStart && startsMarker b.rest

/-- Reads a single-quoted scalar behind its first quote: the text and what follows the last
quote. -/
def singleQuoted : List Char → Option (List Char × List Char)
  | [] => none
  | '\'' :: '\'' :: cs => (singleQuoted cs).map fun (text, rest) => ('\'' :: text, rest)
  | '\'' :: cs => some ([], cs)
  | '\n' :: cs =>
    have := length_splitBreaks_le true cs
    if (splitBreaks true cs).isBroken then none
    else
      (singleQuoted (splitBreaks true cs).rest).map fun (text, rest) =>
        (folded ((splitBreaks true cs).count + 1) ++ text, rest)
  | c :: cs =>
    if isControl c then none else (singleQuoted cs).map fun (text, rest) => (c :: text, rest)
termination_by cs => cs.length
decreasing_by all_goals simp only [List.length_cons]; omega

/-- What a backslash and a letter stand for. -/
def simpleEscape? : Char → Option Char
  | '0' => some (Char.ofNat 0)
  | 'a' => some (Char.ofNat 7)
  | 'b' => some (Char.ofNat 8)
  | 't' => some '\t'
  | '\t' => some '\t'
  | 'n' => some '\n'
  | 'v' => some (Char.ofNat 0xB)
  | 'f' => some (Char.ofNat 0xC)
  | 'r' => some '\r'
  | 'e' => some (Char.ofNat 0x1B)
  | ' ' => some ' '
  | '"' => some '"'
  | '/' => some '/'
  | '\\' => some '\\'
  | 'N' => some (Char.ofNat 0x85)
  | '_' => some (Char.ofNat 0xA0)
  | 'L' => some (Char.ofNat 0x2028)
  | 'P' => some (Char.ofNat 0x2029)
  | _ => none

/-- How many hexadecimal digits an escape has. -/
def hexLength? : Char → Option Nat
  | 'x' => some 2
  | 'u' => some 4
  | 'U' => some 8
  | _ => none

/-- The number that exactly so many hexadecimal digits make. -/
def hex? (count : Nat) (cs : List Char) : Option Nat :=
  let ds := cs.take count
  if ds.length = count then ds.foldlM (fun n c => (digit? 16 c).map (n * 16 + ·)) 0 else none

/-- A character as an escape gives it: a code point, or half of a pair. -/
def joinSurrogates : List Nat → List Char
  | [] => []
  | [n] => [Char.ofNat n]
  | high :: low :: rest =>
    if 0xD800 ≤ high ∧ high < 0xDC00 ∧ 0xDC00 ≤ low ∧ low < 0xE000 then
      Char.ofNat (0x10000 + (high - 0xD800) * 0x400 + (low - 0xDC00)) :: joinSurrogates rest
    else Char.ofNat high :: joinSurrogates (low :: rest)

/-- Reads a double-quoted scalar behind its first quote: code points, and what follows the last
quote. -/
def doubleQuoted : List Char → Option (List Nat × List Char)
  | [] => none
  | '"' :: cs => some ([], cs)
  | '\\' :: '\n' :: cs =>
    have := length_splitBreaks_le true cs
    if (splitBreaks true cs).isBroken then none else doubleQuoted (splitBreaks true cs).rest
  | '\\' :: e :: cs =>
    match simpleEscape? e, hexLength? e with
    | some c, _ => (doubleQuoted cs).map fun (text, rest) => (c.toNat :: text, rest)
    | none, some count =>
      match hex? count cs with
      | some n => (doubleQuoted (cs.drop count)).map fun (text, rest) => (n :: text, rest)
      | none => none
    | none, none => none
  | '\n' :: cs =>
    have := length_splitBreaks_le true cs
    if (splitBreaks true cs).isBroken then none
    else
      (doubleQuoted (splitBreaks true cs).rest).map fun (text, rest) =>
        ((folded ((splitBreaks true cs).count + 1)).map Char.toNat ++ text, rest)
  | c :: cs =>
    if isControl c then none else (doubleQuoted cs).map fun (text, rest) => (c.toNat :: text, rest)
termination_by cs => cs.length
decreasing_by all_goals simp only [List.length_cons, List.length_drop]; omega

/-! ## Unquoted scalars -/

/-- A character that an unquoted scalar cannot begin with. -/
def isIndicator (c : Char) : Bool :=
  isBlank c || c == '\n' || isFlowMark c || "#&*!|>'\"%@\x60".toList.contains c

/-- An unquoted scalar can begin here. -/
def startsPlain (inFlow : Bool) : List Char → Bool
  | [] => false
  | c :: cs =>
    !isIndicator c &&
      !((c == '?' || c == '-') && (atGap cs || (inFlow && cs.head?.any isFlowMark)))

/-- A colon that ends a key: a gap follows, or in a flow collection one of its marks. -/
def endsKey (inFlow : Bool) (behind : List Char) : Bool :=
  atGap behind || (inFlow && behind.head?.any isFlowMark)

/-- The part of an unquoted scalar that lies in this line. -/
def plainRun (inFlow : Bool) : (afterBlank : Bool) → List Char → List Char
  | _, [] => []
  | afterBlank, c :: cs =>
    if c == '\n' then []
    else if c == ':' && endsKey inFlow cs then []
    else if c == '#' && afterBlank then []
    else if inFlow && isFlowMark c then []
    else c :: plainRun inFlow (isBlank c) cs

/-- A text without blanks at its end. -/
def dropEndBlanks (cs : List Char) : List Char := (cs.reverse.dropWhile isBlank).reverse

/-- Reads an unquoted scalar, which may go on in lines that are indented by `least` or more.  `text`
is what was read before, and `breaks` the line ends behind it. -/
def plain (least : Nat) (inFlow : Bool) : (fuel : Nat) → (text : List Char) → (breaks : Nat) →
    Source → List Char × Source
  | 0, text, _, s => (text, s)
  | fuel + 1, text, breaks, s =>
    let run := plainRun inFlow (breaks != 0) s.rest
    if run.isEmpty || (s.column == 0 && startsMarker s.rest) then (text, s)
    else
      let part := dropEndBlanks run
      let text := text ++ folded breaks ++ part
      let ended := s.skip run.length
      match ended.rest with
      | '\n' :: _ =>
        let behind := skipBreaks ended
        if behind.rest.isEmpty || behind.indent < least then (text, s.skip part.length)
        else plain least inFlow fuel text (behind.line - ended.line) behind
      | _ => (text, ended)

end IncludeScan.Yaml
