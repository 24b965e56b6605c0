import IncludeScan.Proofs.Outline.Lines
import IncludeScan.Proofs.Token.Rules
import IncludeScan.Proofs.Token.Run

/-!
# Proofs/Outline/MainFunction — when a file has a main function

The watch for a main function goes through the items of a file, the tokens of code and the directive
lines between them.  From each of its states something is left to see (`MainWatch.Completes`); one
item more is either a part of that, or an `int` that begins anew (`MainWatch.completes_see`), so a
whole file is found out by what it holds, and the states are gone
(`MainWatch.foldl_see_eq_found_iff`).

The items of a file are those of its rows, code first and then the directive line
(`Item.ofTokens_eq_rows`); this needs that every directive token names its directive.

`hasMain_iff` — a file has a main function if and only if its code says so.
-/

namespace IncludeScan

/-! ## Directive tokens name their directive -/

/-- What is found as a directive has a keyword. -/
theorem Rule.isSome_keyword_of_kind_directive {rule : Rule} (h : rule ∈ rules) {cs : List Char}
    {m : Lexeme} (hm : rule cs = some m) (hkind : m.kind = .directive) :
    m.keyword.isSome = true := by
  obtain rfl := eq_directive_of_kind_directive h hm hkind
  obtain ⟨_, k, -, -, -, hkeyword, -⟩ := exists_of_directive hm
  rw [hkeyword, Option.isSome_some]

/-- If the token is a directive, it names it. -/
def Token.Named (t : Token) : Prop := t.kind = .directive → t.keyword.isSome = true

/-- **The tokens of a text are named.** -/
theorem Cut.named {text : List Char} {p : Nat} {r : Tokenization} (h : Cut text p r) :
    ∀ t ∈ r.tokens, t.Named := by
  refine h.forall_mem_tokens (fun p m _ hm hkind => ?_) fun p q _ hkind => ?_
  · obtain ⟨rank, ⟨rule, hrule, hfound⟩, -⟩ := hm
    exact Rule.isSome_keyword_of_kind_directive (List.mem_of_getElem? hrule) hfound hkind
  · exact absurd hkind (by decide : Kind.word ≠ .directive)

/-! ## The items of the rows -/

namespace Outline

/-- The code of a row: what stands in front of its directive line, without trivia. -/
def rowCode (row : List Token) : List Token :=
  (row.takeWhile fun t => t.directive?.isNone).filter fun t => !t.isTrivia

/-- **The code of a file**: its tokens outside the directive lines, without trivia and line ends. -/
def code (ts : List Token) : List Token := (rows ts).flatMap rowCode

/-- The items of a row: its code, and the directive line that ends it. -/
def rowItems (row : List Token) : List Item :=
  (rowCode row).map .code ++ (rowLine? row).toList.map .line

variable {t : Token}

theorem rowItems_cons_directive {k : Keyword} (h : t.directive? = some k) (row : List Token) :
    rowItems (t :: row) = [.line ⟨t, k, row.filter fun u => !u.isTrivia⟩] := by
  simp [rowItems, rowCode, rowLine?, h]

theorem rowItems_cons_trivia (h : t.directive? = none) (htrivia : t.isTrivia = true)
    (row : List Token) : rowItems (t :: row) = rowItems row := by
  simp [rowItems, rowCode, rowLine?, h, htrivia]

theorem rowItems_cons_code (h : t.directive? = none) (htrivia : t.isTrivia = false)
    (row : List Token) : rowItems (t :: row) = .code t :: rowItems row := by
  simp [rowItems, rowCode, rowLine?, h, htrivia]

/-- The rows are the rest of the line and the rows behind it. -/
theorem flatMap_rowItems_rows (ts : List Token) :
    (rows ts).flatMap rowItems
      = rowItems (Item.lineTokens ts) ++ (rows (Item.behindLine ts)).flatMap rowItems := by
  obtain ⟨others, hrows, hothers⟩ := exists_rows ts
  rw [hrows, List.flatMap_cons]
  rcases hothers with rfl | ⟨rfl, hbehind⟩
  · rfl
  · rw [hbehind]
    rfl

/-- A token in front that ends no line belongs to the first row. -/
theorem flatMap_rowItems_rows_cons (h : t.kind ≠ .newline) (ts : List Token) :
    (rows (t :: ts)).flatMap rowItems
      = rowItems (t :: Item.lineTokens ts) ++ (rows (Item.behindLine ts)).flatMap rowItems := by
  rw [flatMap_rowItems_rows]
  simp [Item.lineTokens, Item.behindLine, h]

end Outline

open Outline in
/-- **The items of a file are those of its rows.** -/
theorem Item.ofTokens_eq_rows {ts : List Token} (h : ∀ t ∈ ts, t.Named) :
    ofTokens ts = (rows ts).flatMap rowItems := by
  fun_induction ofTokens ts with
  | case1 => rfl
  | case2 t ts hdir k hk ih =>
    have hname := Token.directive?_eq_some_iff.2 ⟨hdir, hk⟩
    have hsub := (lineTokens_append_behindLine_sublist ts).subset
    rw [flatMap_rowItems_rows_cons (by simp [hdir]), rowItems_cons_directive hname,
      ← ih fun u hu => h u (List.mem_cons_of_mem _ (hsub (List.mem_append_right _ hu)))]
    rfl
  | case3 t ts hdir hk ih => simpa [hk] using h t List.mem_cons_self hdir
  | case4 t ts hdir hskip ih =>
    rw [ih fun u hu => h u (List.mem_cons_of_mem _ hu)]
    by_cases hnl : t.kind = .newline
    · rw [rows_cons_newline hnl]
      rfl
    · rw [flatMap_rowItems_rows_cons hnl,
        rowItems_cons_trivia (if_neg hdir) (hskip.resolve_right hnl), ← flatMap_rowItems_rows]
  | case5 t ts hdir hskip ih =>
    obtain ⟨htrivia, hnl⟩ := not_or.1 hskip
    rw [ih fun u hu => h u (List.mem_cons_of_mem _ hu), flatMap_rowItems_rows_cons hnl,
      rowItems_cons_code (if_neg hdir) (by simpa using htrivia), List.cons_append,
      ← flatMap_rowItems_rows]

namespace Item

/-- The token of code that an item is. -/
def code? : Item → Option Token
  | .code t => some t
  | _ => none

/-- The token that an item begins with. -/
def head? : Item → Option Token
  | .code t => some t
  | .line l => some l.token
  | .unnamed => none

theorem code?_eq_some {x : Item} {t : Token} (h : x.code? = some t) : x = .code t := by
  cases x with
  | code u => exact congrArg _ (Option.some.inj h)
  | line | unnamed => cases h

theorem line?_eq_some {x : Item} {l : Line} (h : x.line? = some l) : x = .line l := by
  cases x with
  | line m => exact congrArg _ (Option.some.inj h)
  | code | unnamed => cases h

theorem filterMap_code?_ofTokens {ts : List Token} (h : ∀ t ∈ ts, t.Named) :
    (ofTokens ts).filterMap code? = Outline.code ts := by
  rw [ofTokens_eq_rows h, List.filterMap_flatMap, Outline.code]
  refine congrArg (List.flatMap · _) (funext fun row => ?_)
  rw [Outline.rowItems, List.filterMap_append, List.filterMap_map, List.filterMap_map]
  have hcode : code? ∘ Item.code = some := rfl
  have hline : code? ∘ Item.line = fun _ => none := rfl
  rw [hcode, hline, List.filterMap_some, List.filterMap_none, List.append_nil]

theorem unnamed_notMem_ofTokens {ts : List Token} (h : ∀ t ∈ ts, t.Named) :
    .unnamed ∉ ofTokens ts := by
  simp [ofTokens_eq_rows h, Outline.rowItems]

/-- The items stand in the order of their tokens. -/
theorem filterMap_head?_ofTokens_sublist (ts : List Token) :
    ((ofTokens ts).filterMap head?).Sublist ts := by
  fun_induction ofTokens ts with
  | case1 => exact List.Sublist.refl _
  | case2 t ts hdir k hk ih =>
    refine List.Sublist.cons_cons t
      (ih.trans (List.Sublist.trans ?_ (lineTokens_append_behindLine_sublist ts)))
    exact List.sublist_append_right _ _
  | case3 t ts hdir hk ih => exact ih.cons t
  | case4 t ts hdir h ih => exact ih.cons t
  | case5 t ts hdir h ih => exact ih.cons_cons t

/-- What the watch for a main function sees of an item. -/
def shape : Item → Option (Kind × String)
  | .code t => some (t.kind, t.value)
  | _ => none

end Item

/-! ## The watch -/

namespace MainWatch

/-- **What is left to see of a main function**, at the front of the items. -/
def Completes : MainWatch → List Item → Prop
  | .idle, _ => False
  | .afterInt, items =>
    ∃ lines m p rest, items = lines ++ .code m :: .code p :: rest ∧ (∀ x ∈ lines, x.code? = none)
      ∧ m.isWord "main" = true ∧ p.isPunct "(" = true
  | .afterMain, items => ∃ p rest, items = .code p :: rest ∧ p.isPunct "(" = true
  | .found, _ => True

/-- **A main function among the items**: an `int`, and what is left to see behind it. -/
def Occurs (items : List Item) : Prop :=
  ∃ before i rest, items = before ++ .code i :: rest ∧ i.isWord "int" = true
    ∧ Completes .afterInt rest

theorem occurs_cons {x : Item} {items : List Item} :
    Occurs (x :: items) ↔
      (∃ i, x = .code i ∧ i.isWord "int" = true ∧ Completes .afterInt items) ∨ Occurs items := by
  constructor
  · rintro ⟨before, i, rest, hitems, hint, hrest⟩
    cases before with
    | nil =>
      obtain ⟨rfl, rfl⟩ := List.cons.inj hitems
      exact Or.inl ⟨i, rfl, hint, hrest⟩
    | cons y before =>
      obtain ⟨rfl, rfl⟩ := List.cons.inj hitems
      exact Or.inr ⟨before, i, rest, rfl, hint, hrest⟩
  · rintro (⟨i, rfl, hint, hrest⟩ | ⟨before, i, rest, rfl, hint, hrest⟩)
    · exact ⟨[], i, items, rfl, hint, hrest⟩
    · exact ⟨x :: before, i, rest, rfl, hint, hrest⟩

@[simp] theorem not_completes_idle (items : List Item) : ¬ Completes .idle items := fun h => h

@[simp] theorem completes_found (items : List Item) : Completes .found items := trivial

@[simp] theorem completes_afterMain_code {t : Token} {items : List Item} :
    Completes .afterMain (.code t :: items) ↔ t.isPunct "(" = true := by
  constructor
  · rintro ⟨p, rest, hitems, hp⟩
    cases hitems
    exact hp
  · exact fun ht => ⟨t, items, rfl, ht⟩

/-- A directive line breaks what a `main` has begun. -/
theorem not_completes_afterMain {x : Item} (hx : x.code? = none) (items : List Item) :
    ¬ Completes .afterMain (x :: items) := by
  rintro ⟨p, rest, hitems, -⟩
  obtain ⟨rfl, -⟩ := List.cons.inj hitems
  cases hx

@[simp] theorem completes_afterInt_code {t : Token} {items : List Item} :
    Completes .afterInt (.code t :: items) ↔ t.isWord "main" = true
      ∧ Completes .afterMain items := by
  constructor
  · rintro ⟨lines, m, p, rest, hitems, hlines, hm, hp⟩
    cases lines with
    | nil =>
      cases hitems
      exact ⟨hm, p, rest, rfl, hp⟩
    | cons y lines =>
      obtain ⟨rfl, -⟩ := List.cons.inj hitems
      cases hlines _ List.mem_cons_self
  · rintro ⟨ht, p, rest, rfl, hp⟩
    exact ⟨[], t, p, rest, rfl, by simp, ht, hp⟩

/-- A directive line keeps what an `int` has begun. -/
theorem completes_afterInt_cons {x : Item} (hx : x.code? = none) {items : List Item} :
    Completes .afterInt (x :: items) ↔ Completes .afterInt items := by
  constructor
  · rintro ⟨lines, m, p, rest, hitems, hlines, hm, hp⟩
    cases lines with
    | nil =>
      obtain ⟨rfl, -⟩ := List.cons.inj hitems
      cases hx
    | cons y lines =>
      obtain ⟨-, rfl⟩ := List.cons.inj hitems
      exact ⟨lines, m, p, rest, rfl, (List.forall_mem_cons.1 hlines).2, hm, hp⟩
  · rintro ⟨lines, m, p, rest, rfl, hlines, hm, hp⟩
    exact ⟨x :: lines, m, p, rest, rfl, List.forall_mem_cons.2 ⟨hx, hlines⟩, hm, hp⟩

theorem completes_seeDirective (w : MainWatch) {x : Item} (hx : x.code? = none)
    (items : List Item) :
    Completes w.seeDirective items ↔ Completes w (x :: items) := by
  cases w with
  | idle => exact Iff.rfl
  | afterInt => exact (completes_afterInt_cons hx).symm
  | afterMain => exact iff_of_false (not_completes_idle items) (not_completes_afterMain hx items)
  | found => exact Iff.rfl

/-- A token of code goes on with what was begun, or it is an `int` and begins anew. -/
theorem completes_seeToken (w : MainWatch) (t : Token) (items : List Item) :
    Completes (w.seeToken t) items ↔
      Completes w (.code t :: items) ∨ t.isWord "int" = true ∧ Completes .afterInt items := by
  cases w with
  | idle => by_cases hint : t.isWord "int" = true <;> simp [seeToken, hint]
  | afterInt =>
    by_cases hint : t.isWord "int" = true
    · have hmain : t.isWord "main" = false := by simp_all [Token.isWord]
      simp [seeToken, hint, hmain]
    · by_cases hmain : t.isWord "main" = true <;> simp [seeToken, hint, hmain]
  | afterMain =>
    by_cases hopen : t.isPunct "(" = true
    · simp [seeToken, hopen]
    · by_cases hint : t.isWord "int" = true <;> simp [seeToken, hopen, hint]
  | found => simp [seeToken]

/-- **One item more.**  What was left to see goes on with it, or it is an `int` and all begins
anew. -/
theorem completes_see (w : MainWatch) (x : Item) (items : List Item) :
    Completes (w.see x) items ∨ Occurs items ↔ Completes w (x :: items) ∨ Occurs (x :: items) := by
  rw [occurs_cons, ← or_assoc]
  refine or_congr_left ?_
  cases x with
  | code t =>
    refine (completes_seeToken w t items).trans (or_congr_right ⟨fun h => ⟨t, rfl, h⟩, ?_⟩)
    rintro ⟨i, hi, h⟩
    exact Item.code.inj hi ▸ h
  | line l =>
    refine (completes_seeDirective w rfl items).trans (or_iff_left ?_).symm
    rintro ⟨i, hi, -⟩
    cases hi
  | unnamed =>
    refine (completes_seeDirective w rfl items).trans (or_iff_left ?_).symm
    rintro ⟨i, hi, -⟩
    cases hi

/-- **The watch finds what the items hold.** -/
theorem foldl_see_eq_found_iff (items : List Item) :
    ∀ w : MainWatch, items.foldl see w = .found ↔ Completes w items ∨ Occurs items := by
  induction items with
  | nil =>
    intro w
    cases w <;> simp [Completes, Occurs]
  | cons x items ih =>
    intro w
    rw [List.foldl_cons, ih, completes_see]

theorem see_congr {x y : Item} (h : x.shape = y.shape) (w : MainWatch) : w.see x = w.see y := by
  cases x with
  | code t =>
    cases y with
    | code u =>
      obtain ⟨hkind, hvalue⟩ := Prod.mk.inj (Option.some.inj h)
      have hword : ∀ v, t.isWord v = u.isWord v := fun v => by
        rw [Token.isWord, hkind, hvalue, Token.isWord]
      have hpunct : ∀ v, t.isPunct v = u.isPunct v := fun v => by
        rw [Token.isPunct, hkind, hvalue, Token.isPunct]
      cases w <;> simp only [see, seeToken, hword, hpunct]
    | line | unnamed => cases h
  | line | unnamed =>
    cases y with
    | code => cases h
    | line | unnamed => rfl

/-- **The watch sees no more of a directive line than that it is there.** -/
theorem foldl_see_congr {xs ys : List Item} (h : xs.map Item.shape = ys.map Item.shape) :
    ∀ w : MainWatch, xs.foldl see w = ys.foldl see w := by
  induction xs generalizing ys with
  | nil =>
    obtain rfl := List.map_eq_nil_iff.1 h.symm
    exact fun w => rfl
  | cons x xs ih =>
    cases ys with
    | nil => cases h
    | cons y ys =>
      obtain ⟨hhead, htail⟩ := List.cons.inj h
      intro w
      rw [List.foldl_cons, List.foldl_cons, see_congr hhead, ih htail]

end MainWatch

/-! ## Files -/

namespace Outline

/-- **What is read of a file whose directives are not looked at**: its code, and `none` for each
directive line. -/
def transcript (ts : List Token) : List (Option (Kind × String)) :=
  (rows ts).flatMap fun row =>
    (rowCode row).map (fun t => some (t.kind, t.value)) ++ (rowLine? row).toList.map fun _ => none

theorem map_shape_ofTokens {ts : List Token} (h : ∀ t ∈ ts, t.Named) :
    (Item.ofTokens ts).map Item.shape = transcript ts := by
  rw [Item.ofTokens_eq_rows h, List.map_flatMap, transcript]
  refine congrArg (List.flatMap · _) (funext fun row => ?_)
  rw [rowItems, List.map_append, List.map_map, List.map_map]
  rfl

/-- Between two tokens that follow each other there is none. -/
theorem not_between {front behind : List Token} {m p x : Token}
    (h : (front ++ m :: p :: behind).Pairwise fun t u => t.cursor.Before u.cursor)
    (hx : x ∈ front ++ m :: p :: behind) :
    ¬ (m.cursor.Before x.cursor ∧ x.cursor.Before p.cursor) := by
  rintro ⟨hm, hp⟩
  obtain ⟨-, htail, hfront⟩ := List.pairwise_append.1 h
  obtain ⟨-, hbehind⟩ := List.pairwise_cons.1 htail
  rcases List.mem_append.1 hx with hx | hx
  · exact Cursor.before_irrefl _ (hm.trans (hfront x hx m List.mem_cons_self))
  · rcases List.mem_cons.1 hx with rfl | hx
    · exact Cursor.before_irrefl _ hm
    · rcases List.mem_cons.1 hx with rfl | hx
      · exact Cursor.before_irrefl _ hp
      · exact Cursor.before_irrefl _ (hp.trans ((List.pairwise_cons.1 hbehind).1 x hx))

section

variable {ts : List Token} {items : List Item} (hheads : (items.filterMap Item.head?).Sublist ts)

include hheads

/-- No directive line stands between items that follow each other. -/
theorem not_sublist_of_adjacent (hts : ts.Pairwise fun t u => t.cursor.Before u.cursor)
    {front behind : List Item} {m p : Token}
    (hitems : items = front ++ .code m :: .code p :: behind)
    {l : Line} (hl : .line l ∈ items) : ¬ [m, l.token, p].Sublist ts := by
  intro hbetween
  have hmem : l.token ∈ items.filterMap Item.head? := List.mem_filterMap.2 ⟨_, hl, rfl⟩
  have hpairwise := hts.sublist hheads
  rw [hitems, List.filterMap_append] at hmem hpairwise
  have hthree := hts.sublist hbetween
  simp only [List.pairwise_cons, List.forall_mem_cons] at hthree
  exact not_between hpairwise hmem ⟨hthree.1.1, hthree.2.1.1⟩

/-- What stands between two tokens of code and is no code is a directive line. -/
theorem exists_line_between (hunnamed : .unnamed ∉ items) {front lines behind : List Item}
    {m p : Token} (hitems : items = front ++ .code m :: (lines ++ .code p :: behind))
    (hlines : ∀ x ∈ lines, x.code? = none) (hne : lines ≠ []) :
    ∃ l, .line l ∈ items ∧ [m, l.token, p].Sublist ts := by
  obtain ⟨x, lines, rfl⟩ := List.exists_cons_of_ne_nil hne
  cases x with
  | code t => cases hlines _ List.mem_cons_self
  | unnamed => exact absurd (hitems ▸ by simp) hunnamed
  | line l =>
    refine ⟨l, by simp [hitems], List.Sublist.trans ?_ hheads⟩
    rw [hitems, List.filterMap_append]
    refine (List.Sublist.trans ?_ (List.sublist_append_right _ _))
    refine List.Sublist.cons_cons m (List.Sublist.cons_cons l.token ?_)
    have hp : .code p ∈ lines ++ .code p :: behind := List.mem_append_right _ List.mem_cons_self
    exact List.singleton_sublist.2 (List.mem_filterMap.2 ⟨_, hp, rfl⟩)

end

/-- **A main function among the items is one in the code.** -/
theorem occurs_iff (text : String) :
    MainWatch.Occurs (Item.ofTokens (tokenize text).tokens) ↔
      ∃ i m p, [i, m, p] <:+: code (tokenize text).tokens
        ∧ i.isWord "int" = true ∧ m.isWord "main" = true ∧ p.isPunct "(" = true
        ∧ ∀ l ∈ directiveLines (tokenize text).tokens,
          ¬ [m, l.token, p].Sublist (tokenize text).tokens := by
  have hnamed := (cut_tokenize text).named
  have hunnamed := Item.unnamed_notMem_ofTokens hnamed
  have hheads := Item.filterMap_head?_ofTokens_sublist (tokenize text).tokens
  rw [← lines_eq_directiveLines, lines, ← Item.filterMap_code?_ofTokens hnamed]
  generalize Item.ofTokens (tokenize text).tokens = items at hheads hunnamed
  constructor
  · rintro ⟨front, i, _, hitems, hint, lines, m, p, behind, rfl, hlines, hmain, hopen⟩
    refine ⟨i, m, p, ⟨front.filterMap Item.code?, behind.filterMap Item.code?, ?_⟩, hint, hmain,
      hopen, ?_⟩
    · simp [hitems, List.filterMap_eq_nil_iff.2 hlines, Item.code?]
    · intro l hl
      have hadjacent : items = (front ++ .code i :: lines) ++ .code m :: .code p :: behind := by
        simpa using hitems
      obtain ⟨x, hx, hxl⟩ := List.mem_filterMap.1 hl
      exact not_sublist_of_adjacent hheads (cut_tokenize text).followFrom.pairwise hadjacent
        (Item.line?_eq_some hxl ▸ hx)
  · rintro ⟨i, m, p, ⟨front, behind, hinfix⟩, hint, hmain, hopen, hbetween⟩
    rw [List.append_assoc, eq_comm, List.filterMap_eq_append_iff] at hinfix
    obtain ⟨front', tail, rfl, -, htail⟩ := hinfix
    obtain ⟨front'', xi, tail, rfl, -, hi, htail⟩ := List.filterMap_eq_cons_iff.1 htail
    obtain ⟨lines, xm, tail, rfl, hlines, hm, htail⟩ := List.filterMap_eq_cons_iff.1 htail
    obtain ⟨lines', xp, tail, rfl, hlines', hp, -⟩ := List.filterMap_eq_cons_iff.1 htail
    obtain rfl := Item.code?_eq_some hi
    obtain rfl := Item.code?_eq_some hm
    obtain rfl := Item.code?_eq_some hp
    -- a line between the last two would be a directive line between them
    obtain rfl : lines' = [] := by
      by_contra hne
      have hitems :
          front' ++ (front'' ++ .code i :: (lines ++ .code m :: (lines' ++ .code p :: tail)))
          = (front' ++ front'' ++ .code i :: lines) ++ .code m :: (lines' ++ .code p :: tail) := by
            simp
      obtain ⟨l, hl, hsub⟩ := exists_line_between hheads hunnamed hitems hlines' hne
      exact hbetween l (List.mem_filterMap.2 ⟨_, hl, rfl⟩) hsub
    exact ⟨front' ++ front'', i, _, by simp, hint, lines, m, p, tail, rfl, hlines, hmain, hopen⟩

/-- **When a file has a main function.**  A text that can be cut has one if and only if, in its
code, the word `int` is followed by the word `main` and that by an opening parenthesis, and no
directive line stands between the last two.  What the directive lines say, whether they are read or
dropped, and how blocks are nested, closed or left open, has no part in it. -/
theorem hasMain_iff {text : String} {eof : Token} (h : (tokenize text).ending = .ok eof) :
    ∃ o, ofText text = .ok o
      ∧ (o.hasMain = true ↔
          ∃ i m p, [i, m, p] <:+: code (tokenize text).tokens
            ∧ i.isWord "int" = true ∧ m.isWord "main" = true ∧ p.isPunct "(" = true
            ∧ ∀ l ∈ directiveLines (tokenize text).tokens,
              ¬ [m, l.token, p].Sublist (tokenize text).tokens)
      ∧ ∀ other o', ofText other = .ok o' →
          transcript (tokenize other).tokens = transcript (tokenize text).tokens →
          o'.hasMain = o.hasMain := by
  refine ⟨_, ofText_eq_ok_iff.2 ⟨⟨eof, h⟩, rfl⟩, ?_, fun other o' ho' hsame => ?_⟩
  · rw [ofTokens, hasMainIn, beq_iff_eq, MainWatch.foldl_see_eq_found_iff,
      or_iff_right (MainWatch.not_completes_idle _), occurs_iff]
  · obtain ⟨-, rfl⟩ := ofText_eq_ok_iff.1 ho'
    rw [← map_shape_ofTokens (cut_tokenize other).named,
      ← map_shape_ofTokens (cut_tokenize text).named]
      at hsame
    exact congrArg (· == .found) (MainWatch.foldl_see_congr hsame .idle)

/-- A directive line and comments between the three tokens, in a block that is never closed; and a
text with other directives, one of them malformed, in the same places. -/
theorem hasMain_iff_unterminated :
    ∃ o o', ofText "#ifdef A\nint /* a */\n#else\nmain // b\n(void);\n" = .ok o
      ∧ ofText "#undef B\nint\n#undef\nmain(void);" = .ok o'
      ∧ o.diagnostics.map Diagnostic.code = [.unterminatedConditional]
      ∧ o'.diagnostics.map Diagnostic.code = [.malformedUndef]
      ∧ o.hasMain = true ∧ o'.hasMain = true := by
  have hok : (tokenize "#ifdef A\nint /* a */\n#else\nmain // b\n(void);\n").ending
      = .ok ⟨.eof, "", ⟨6, 1⟩, ⟨45, 45⟩, none⟩ := by
    rw [tokenize_eq_steps]
    decide +kernel
  have hok' : (tokenize "#undef B\nint\n#undef\nmain(void);").ending
      = .ok ⟨.eof, "", ⟨4, 12⟩, ⟨31, 31⟩, none⟩ := by
    rw [tokenize_eq_steps]
    decide +kernel
  have hsame : transcript (tokenize "#undef B\nint\n#undef\nmain(void);").tokens
      = transcript (tokenize "#ifdef A\nint /* a */\n#else\nmain // b\n(void);\n").tokens := by
    rw [tokenize_eq_steps, tokenize_eq_steps]
    decide +kernel
  obtain ⟨o, ho, hmain, hother⟩ := hasMain_iff hok
  have ho' := ofText_eq_ok_iff.2 ⟨⟨_, hok'⟩, rfl⟩
  have hhas : o.hasMain = true := by
    refine hmain.2 ⟨⟨.word, "int", ⟨2, 1⟩, ⟨9, 12⟩, none⟩, ⟨.word, "main", ⟨4, 1⟩, ⟨27, 31⟩, none⟩,
      ⟨.punct, "(", ⟨5, 1⟩, ⟨37, 38⟩, none⟩, ?_, rfl, rfl, rfl, ?_⟩
    · rw [tokenize_eq_steps]
      decide +kernel
    · rw [tokenize_eq_steps]
      decide +kernel
  refine ⟨o, _, ho, ho', ?_, ?_, hhas, (hother _ _ ho' hsame).trans hhas⟩
  · obtain ⟨-, rfl⟩ := ofText_eq_ok_iff.1 ho
    rw [ofTokens, lines_eq_directiveLines, tokenize_eq_steps]
    decide +kernel
  · rw [ofTokens, lines_eq_directiveLines, tokenize_eq_steps]
    decide +kernel

end Outline

end IncludeScan
