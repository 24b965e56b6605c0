import IncludeScan.Value.Decimal
import IncludeScan.Value.YamlText

/-!
# Value/Yaml — reading a value from YAML text

Block and flow collections, scalars, and comments; text in JSON is read as flow collections.
Anchors, aliases, tags, block scalars, explicit keys and several documents in one text are refused.

Readers return nothing when the text is broken.  A node may also be absent, which is an answer of
its own.  How deep a reader may go is bounded by the length of the text, as each round of any of
them takes at least one character.
-/

namespace IncludeScan.Yaml

/-- A value, and whether it is written as the key under which other records are merged in. -/
structure Node where
  value : Value
  merges : Bool := false

namespace Node

/-- The value of a node that is absent. -/
def absent : Node := ⟨.null, false⟩

/-- The node of an unquoted scalar. -/
def ofWord (word : String) : Node := ⟨scalar word, word == "<<"⟩

end Node

/-! ## Records -/

/-- The key that a record as a whole makes. -/
def recordKey : String := "[object Object]"

/-- A value as a key, lists apart. -/
def plainKey? : Value → Option String
  | .null => some "null"
  | .bool b => some (if b then "true" else "false")
  | .number n => some n.text
  | .string s => some s
  | .instant t => some t.text
  | .object _ => some recordKey
  | .array _ => none

/-- An item of a list as a part of a key, empty for null. -/
def keyPart? : Value → Option String
  | .null => some ""
  | v => plainKey? v

/-- A value as a key.  The items of a list are joined by commas; lists in a list make no key. -/
def key? : Value → Option String
  | .array items => (items.mapM keyPart?).map fun parts => ",".intercalate parts
  | v => plainKey? v

/-- The entries that a value brings when it is merged into a record. -/
def mergedEntries? : Value → Option (List (String × Value))
  | .array items => some (items.zipIdx.map fun (v, i) => (toString i, v))
  | v => v.entries?

/-- Adds a pair to the entries of a record.  What is merged in, one record or a list of them, does
not replace entries. -/
def addPair (entries : List (String × Value)) (key : Node) (value : Value) :
    Option (List (String × Value)) :=
  if key.merges then
    match value with
    | .array sources =>
      sources.foldlM (fun es v => (mergedEntries? v).map (Entries.fill es)) entries
    | v => (mergedEntries? v).map (Entries.fill entries)
  else (key? key.value).map fun k => Entries.write entries k value

/-- The record of some pairs. -/
def record? (pairs : List (Node × Value)) : Option Value :=
  (pairs.foldlM (fun entries p => addPair entries p.1 p.2) []).map fun entries =>
    .object (Entries.indexFirst entries)

/-! ## Flow collections -/

mutual

/-- Reads a scalar or a flow collection, if there is one. -/
def flowNode (least : Nat) (inFlow : Bool) : Nat → Source → Option (Option Node × Source)
  | 0, _ => none
  | fuel + 1, s =>
    match s.rest with
    | [] => some (none, s)
    | '[' :: _ => do
      let (items, behind) ← flowItems least fuel true [] (s.skip 1)
      return (some ⟨.array items.reverse, false⟩, behind)
    | '\x7b' :: _ => do
      let (pairs, behind) ← flowPairs least fuel true [] (s.skip 1)
      return (some ⟨← record? pairs.reverse, false⟩, behind)
    | '\'' :: cs => do
      let (text, rest) ← singleQuoted cs
      return (some ⟨.string (String.ofList text), false⟩, s.skip (s.rest.length - rest.length))
    | '"' :: cs => do
      let (text, rest) ← doubleQuoted cs
      return (some ⟨.string (String.ofList (joinSurrogates text)), false⟩,
        s.skip (s.rest.length - rest.length))
    | cs =>
      if startsPlain inFlow cs then
        let (text, behind) := plain least inFlow (cs.length + 1) [] 0 s
        if text.any isUnprintable then none
        else if text.isEmpty then some (none, s)
        else some (some (.ofWord (String.ofList text)), behind)
      else some (none, s)

/-- Reads the items of a flow sequence, latest first, up to its end.  `ready` says that an item may
come: the first, or one behind a comma. -/
def flowItems (least : Nat) :
    Nat → (ready : Bool) → List Value → Source → Option (List Value × Source)
  | 0, _, _, _ => none
  | fuel + 1, ready, items, s =>
    let s := skipGap s
    match s.rest with
    | [] => none
    | ']' :: _ => some (items, s.skip 1)
    | _ =>
      if !ready then none
      else do
        let ((node, value?), behind) ← flowEntry least fuel s
        let item ← match value? with
          | some value => record? [(node, value.value)]
          | none => some node.value
        match behind.rest with
        | ',' :: _ => flowItems least fuel true (item :: items) (behind.skip 1)
        | _ => flowItems least fuel false (item :: items) behind

/-- Reads the pairs of a flow mapping, latest first, up to its end. -/
def flowPairs (least : Nat) :
    Nat → (ready : Bool) → List (Node × Value) → Source → Option (List (Node × Value) × Source)
  | 0, _, _, _ => none
  | fuel + 1, ready, pairs, s =>
    let s := skipGap s
    match s.rest with
    | [] => none
    | '\x7d' :: _ => some (pairs, s.skip 1)
    | _ =>
      if !ready then none
      else do
        let ((key, value?), behind) ← flowEntry least fuel s
        let p := (key, (value?.getD .absent).value)
        match behind.rest with
        | ',' :: _ => flowPairs least fuel true (p :: pairs) (behind.skip 1)
        | _ => flowPairs least fuel false (p :: pairs) behind

/-- Reads a node of a flow collection and, behind a colon in the same line, the value that it is the
key of.  Only in front of a colon may the node be absent.  What follows is not a gap. -/
def flowEntry (least : Nat) : Nat → Source → Option ((Node × Option Node) × Source)
  | 0, _ => none
  | fuel + 1, s => do
    let (node?, behind) ← flowNode least true fuel s
    let behind := skipGap behind
    match behind.rest with
    | ':' :: _ =>
      if behind.line = s.line then
        let (value?, last) ← flowNode least true fuel (skipGap (behind.skip 1))
        return ((node?.getD .absent, some (value?.getD .absent)), skipGap last)
      else return ((← node?, none), behind)
    | _ => return ((← node?, none), behind)

end

/-! ## Block collections -/

/-- A dash that begins an item. -/
def startsItem : List Char → Bool
  | '-' :: cs => atGap cs
  | _ => false

/-- A mark of an explicit key or value. -/
def startsExplicit : List Char → Bool
  | '?' :: cs => atGap cs
  | ':' :: cs => atGap cs
  | _ => false

/-- What follows an entry of a block collection that is indented by `column` and whose entry began
in `line`: the end of the collection, a further entry, or an error. -/
inductive Following where
  | ends
  | entry
  | misplaced
deriving DecidableEq

/-- What follows an entry of a block collection. -/
def following (column line : Nat) (s : Source) : Following :=
  if s.rest.isEmpty then .ends
  else if s.line = line ∨ column < s.indent then .misplaced
  else if s.indent < column then .ends
  else .entry

mutual

/-- Reads a node of a block collection.  Lines that go on with it are indented by `least` or more,
and `blocks` says that a block collection may begin here. -/
def blockNode (least : Nat) (blocks : Bool) : Nat → Source → Option (Option Node × Source)
  | 0, _ => none
  | fuel + 1, s =>
    if !blocks || s.tabbed then flowNode least false fuel s
    else if startsItem s.rest then do
      let (items, behind) ← blockItems s.column fuel [] s
      return (some ⟨.array items.reverse, false⟩, behind)
    else if startsExplicit s.rest then none
    else do
      let (node?, behind) ← flowNode least false fuel s
      match node? with
      | none => return (none, s)
      | some node =>
        let colon := skipBlanks behind
        match colon.rest with
        | ':' :: cs =>
          if behind.line ≠ s.line then return (some node, behind)
          else if !atGap cs then none
          else do
            let (pairs, last) ← blockPairs s.column least fuel [] s
            return (some ⟨← record? pairs.reverse, false⟩, last)
        | _ => return (some node, behind)
termination_by structural fuel => fuel

/-- Reads the items of a block sequence at `column`, latest first. -/
def blockItems (column : Nat) : Nat → List Value → Source → Option (List Value × Source)
  | 0, _, _ => none
  | fuel + 1, items, s =>
    if s.rest.isEmpty then some (items, s)
    else if s.tabbed then none
    else if !startsItem s.rest then some (items, s)
    else
      let start := skipGap (s.skip 1)
      if start.line ≠ s.line ∧ (start.rest.isEmpty ∨ start.indent ≤ column) then
        blockItems column fuel (.null :: items) start
      else do
        let (node?, behind) ← blockNode (column + 1) true fuel start
        let items := (node?.getD .absent).value :: items
        let behind := skipGap behind
        match following column start.line behind with
        | .ends => return (items, behind)
        | .entry => blockItems column fuel items behind
        | .misplaced => none
termination_by structural fuel => fuel

/-- Reads the pairs of a block mapping at `column`, latest first. -/
def blockPairs (column least : Nat) :
    Nat → List (Node × Value) → Source → Option (List (Node × Value) × Source)
  | 0, _, _ => none
  | fuel + 1, pairs, s =>
    if s.tabbed || startsExplicit s.rest then none
    else do
      let (key?, behind) ← flowNode least false fuel s
      match key? with
      | none => return (pairs, s)
      | some key =>
        let colon := skipBlanks behind
        match colon.rest with
        | ':' :: cs =>
          if behind.line ≠ s.line ∨ !atGap cs then none
          else do
            let (value?, last) ← blockValue column fuel (colon.skip 1)
            let p := (key, (value?.getD .absent).value)
            let last := skipGap last
            match following column s.line last with
            | .ends => return (p :: pairs, last)
            | .entry => blockPairs column least fuel (p :: pairs) last
            | .misplaced => none
        | _ => none
termination_by structural fuel => fuel

/-- Reads the value behind a colon: in the same line a scalar or a flow collection, and in a later
line any node that is indented more, or a sequence that is indented as the mapping is. -/
def blockValue (column : Nat) : Nat → Source → Option (Option Node × Source)
  | 0, _ => none
  | fuel + 1, s =>
    let start := skipGap s
    if start.rest.isEmpty then some (none, start)
    else if start.line = s.line then blockNode (column + 1) false fuel start
    else if column < start.indent then blockNode (column + 1) true fuel start
    else if start.indent = column ∧ startsItem start.rest ∧ !start.tabbed then do
      let (items, behind) ← blockItems start.column fuel [] start
      return (some ⟨.array items.reverse, false⟩, behind)
    else some (none, start)
termination_by structural fuel => fuel

end

/-! ## Documents -/

/-- Every line end as a line feed. -/
def unifyLineEnds : List Char → List Char
  | [] => []
  | '\r' :: '\n' :: cs => '\n' :: unifyLineEnds cs
  | '\r' :: cs => '\n' :: unifyLineEnds cs
  | c :: cs => c :: unifyLineEnds cs

/-- The text without a byte order mark in front. -/
def dropMark : List Char → List Char
  | c :: cs => if c = Char.ofNat 0xFEFF then cs else c :: cs
  | [] => []

/-- Passes over the marker that a document may begin with. -/
def skipOpening (s : Source) : Source :=
  match s.rest with
  | '-' :: '-' :: '-' :: _ => if s.indent = 0 then skipGap (s.skip 3) else s
  | _ => s

/-- Passes over the marker that a document may end with. -/
def skipClosing (s : Source) : Source :=
  match s.rest with
  | '.' :: _ => if s.column = 0 ∧ startsMarker s.rest then skipGap (s.skip 3) else s
  | _ => s

/-- Reads the value of a text, null for a text without one. -/
def parse (text : String) : Option Value := do
  let cs := unifyLineEnds (dropMark text.toList)
  if cs.contains (Char.ofNat 0) then none
  let s := skipOpening (skipGap { rest := cs })
  let (node?, behind) ← blockNode s.indent true (4 * cs.length + 8) s
  if (skipClosing (skipGap behind)).rest.isEmpty then return (node?.getD .absent).value else none

end IncludeScan.Yaml
