import FunImp.Proofs.Grammar.Errors
import FunImp.Proofs.Lexing.Marked

/-! # Reading covers the text

What the lexer yields stands one behind the other and is all of the text: tokens, stray characters
between them, and the end behind everything. The stray characters are those that are in no class,
wherever they stand. -/

namespace FunImp.Lexer

theorem itemsFrom_nil (id : String) (p : Position) :
    itemsFrom id p [] = [.token ⟨.eof, none, .point p, id⟩] := by
  rw [itemsFrom]
  rfl

/-- A lexer on its way: what it has not read, and whether it has told the end. -/
structure Cursor where
  id : String
  position : Position
  rest : List Char
  finished : Bool

namespace Cursor

/-- In front of the whole text. -/
def ofSource (source : Source) : Cursor := ⟨source.id, .origin, source.chars, false⟩

/-- The next item, and the cursor behind it. Behind the end there is none. -/
def next (c : Cursor) : Option Item × Cursor :=
  if c.finished then (none, c)
  else
    match munch c.rest with
    | some (l, rest) =>
      (some (.token ⟨l.kind, some (.ofList l.chars), .covering c.position l.chars, c.id⟩),
        { c with position := c.position.after l.chars, rest })
    | none =>
      match c.rest with
      | [] => (some (.token ⟨.eof, none, .point c.position, c.id⟩), { c with finished := true })
      | x :: rest =>
        (some (.stray ⟨x, .covering c.position [x]⟩),
          { c with position := c.position.advance x, rest })

/-- What one more call answers after `n` calls. -/
def nth : Nat → Cursor → Option Item
  | 0, c => c.next.1
  | n + 1, c => nth n c.next.2

/-- The items that are still to come. -/
def coming (c : Cursor) : List Item :=
  if c.finished then [] else itemsFrom c.id c.position c.rest

theorem next_coming (c : Cursor) :
    c.next.1 = c.coming.head? ∧ c.next.2.coming = c.coming.tail := by
  obtain ⟨id, position, rest, _ | _⟩ := c
  · cases hmunch : munch rest with
    | some found =>
      obtain ⟨l, rest'⟩ := found
      simp [next, coming, hmunch, itemsFrom_of_munch hmunch]
    | none =>
      cases rest with
      | nil => simp [next, coming, hmunch, itemsFrom_nil]
      | cons x rest => simp [next, coming, hmunch, itemsFrom_of_munch_eq_none hmunch]
  · simp [next, coming]

theorem nth_eq (n : Nat) (c : Cursor) : c.nth n = c.coming[n]? := by
  induction n generalizing c with
  | zero => rw [nth, c.next_coming.1, List.head?_eq_getElem?]
  | succ n ih => rw [nth, ih, c.next_coming.2, List.getElem?_tail]

end Cursor

/-- Letters and digits of ASCII, white space between tokens, and punctuation. -/
def isKnown (c : Char) : Bool :=
  c.isAlphanum || c ∈ [' ', '\n', '+', '-', '*', '/', '(', ')', '\x7b', '\x7d', '=', ';', ',', ':']

theorem isKnown_of_isBlank {c : Char} (h : isBlank c) : isKnown c := by
  rcases isBlank_iff.1 h with rfl | rfl <;> decide

theorem isKnown_of_isAlphanum {c : Char} (h : c.isAlphanum) : isKnown c := by
  simp [isKnown, h]

theorem isSome_ofPunctuation? {c : Char} (hblank : ¬isBlank c) (hword : ¬c.isAlphanum) :
    (Token.Kind.ofPunctuation? c).isSome = isKnown c := by
  unfold Token.Kind.ofPunctuation?
  split
  all_goals simp_all [isKnown, isBlank_iff]

/-- A text has a token at its front if its first character is known. -/
theorem munch_eq_none_iff {c : Char} {cs : List Char} :
    munch (c :: cs) = none ↔ isKnown c = false := by
  by_cases hblank : isBlank c
  · simp [munch_blank hblank, isKnown_of_isBlank hblank]
  by_cases halpha : c.isAlpha
  · simp [munch_word halpha, isKnown_of_isAlphanum (Token.Kind.isAlphanum_of_isAlpha halpha)]
  by_cases hdigit : c.isDigit
  · simp [munch_digit hdigit, isKnown_of_isAlphanum (Token.Kind.isAlphanum_of_isDigit hdigit)]
  · have hword : ¬c.isAlphanum := by simp [Char.isAlphanum, halpha, hdigit]
    rw [munch_other hblank halpha hdigit, ← isSome_ofPunctuation? hblank hword]
    simp

/-- The texts of tokens are made of known characters. -/
theorem isKnown_of_spells {kind : Token.Kind} {cs : List Char} (h : kind.Spells cs) :
    ∀ c ∈ cs, isKnown c := by
  cases kind with
  | identifier =>
    obtain ⟨hword, -⟩ := h
    cases cs with
    | nil => exact hword.elim
    | cons c cs =>
      obtain ⟨hc, hcs⟩ := hword
      exact List.forall_mem_cons.2 ⟨isKnown_of_isAlphanum (Token.Kind.isAlphanum_of_isAlpha hc),
        fun d hd => isKnown_of_isAlphanum (hcs d hd)⟩
  | integer => exact fun c hc => isKnown_of_isAlphanum (Token.Kind.isAlphanum_of_isDigit (h.2 c hc))
  | whitespace => exact fun c hc => isKnown_of_isBlank (isBlank_iff.2 (h.2 c hc))
  | eof => exact h.elim
  | _ =>
    obtain rfl := h
    exact List.all_eq_true.1 rfl

/-- The characters of an item, none at the end of the text. -/
def Item.chars : Item → List Char
  | token t => t.chars
  | stray e => [e.character]

@[simp] theorem Item.chars_token (kind : Token.Kind) (cs : List Char) (span : Span) (id : String) :
    (token ⟨kind, some (.ofList cs), span, id⟩).chars = cs :=
  String.toList_ofList

@[simp] theorem Item.chars_stray (c : Char) (span : Span) : (stray ⟨c, span⟩).chars = [c] := rfl

/-- What is read behind the characters in front: texts of tokens and characters in no class, each
where it stands, and the end. -/
inductive Yields (id : String) : List Char → List Char → List Item → Prop where
  | stop (front : List Char) :
      Yields id front [] [.token ⟨.eof, none, .point (.ofText front), id⟩]
  | token {front rest : List Char} {l : Lexeme} {items : List Item} (h : l.kind.Spells l.chars)
      (hrest : Yields id (front ++ l.chars) rest items) :
      Yields id front (l.chars ++ rest)
        (.token ⟨l.kind, some (.ofList l.chars), .covering (.ofText front) l.chars, id⟩ :: items)
  | stray {front rest : List Char} {c : Char} {items : List Item} (h : isKnown c = false)
      (hrest : Yields id (front ++ [c]) rest items) :
      Yields id front (c :: rest) (.stray ⟨c, .covering (.ofText front) [c]⟩ :: items)

theorem yields_itemsFrom (id : String) (front cs : List Char) :
    Yields id front cs (itemsFrom id (.ofText front) cs) := by
  generalize hp : Position.ofText front = p
  induction p, cs using itemsFrom.induct generalizing front with
  | case1 p cs l rest hmunch ih =>
    subst hp
    obtain ⟨rfl, hspells, -⟩ := spells_of_munch hmunch
    rw [itemsFrom_of_munch hmunch]
    exact .token hspells (ih _ (Position.after_ofText _ _).symm)
  | case2 p hmunch =>
    subst hp
    rw [itemsFrom_nil]
    exact .stop front
  | case3 p c rest hmunch ih =>
    subst hp
    rw [itemsFrom_of_munch_eq_none hmunch]
    exact .stray (munch_eq_none_iff.1 hmunch) (ih _ (Position.advance_ofText _ _).symm)

namespace Yields

variable {id : String} {front cs : List Char} {items : List Item}

theorem flatMap_chars (h : Yields id front cs items) : items.flatMap Item.chars = cs := by
  induction h with
  | stop => rfl
  | token _ _ ih => rw [List.flatMap_cons, Item.chars_token, ih]
  | stray _ _ ih => rw [List.flatMap_cons, Item.chars_stray, ih, List.singleton_append]

/-- An item spans its own characters, behind those of the items in front of it. -/
theorem span_eq (h : Yields id front cs items) {before behind : List Item} {item : Item}
    (hitems : items = before ++ item :: behind) :
    item.span = .covering (.ofText (front ++ before.flatMap Item.chars)) item.chars := by
  induction h generalizing before with
  | stop front =>
    obtain ⟨rfl, hitem⟩ | ⟨_, -, hnil⟩ := List.cons_eq_append_iff.1 hitems
    · cases hitem
      simp [Item.span, Item.chars, Token.chars, Span.covering, Span.point, Position.after]
    · simp at hnil
  | token _ _ ih =>
    obtain ⟨rfl, hitem⟩ | ⟨before, rfl, hrest⟩ := List.cons_eq_append_iff.1 hitems
    · cases hitem
      simp [Item.span]
    · simp [ih hrest]
  | stray _ _ ih =>
    obtain ⟨rfl, hitem⟩ | ⟨before, rfl, hrest⟩ := List.cons_eq_append_iff.1 hitems
    · cases hitem
      simp [Item.span]
    · simp [ih hrest]

/-- Only the last item is the end of the text, and only it has no characters. -/
theorem exists_append_end (h : Yields id front cs items) :
    ∃ before : List Item,
      items = before ++ [.token ⟨.eof, none, .point (.ofText (front ++ cs)), id⟩] ∧
      ∀ item ∈ before, item.chars ≠ [] ∧ ∀ t : Token, item = .token t → t.kind ≠ .eof := by
  induction h with
  | stop front => exact ⟨[], by rw [List.append_nil, List.nil_append], List.forall_mem_nil _⟩
  | @token _ _ l _ hspells _ ih =>
    obtain ⟨before, rfl, hall⟩ := ih
    rw [List.append_assoc]
    refine ⟨_ :: before, rfl, List.forall_mem_cons.2 ⟨⟨?_, ?_⟩, hall⟩⟩
    · rw [Item.chars_token]
      exact fun hnil => Token.Kind.not_spells_nil _ (hnil ▸ hspells)
    · rintro t ⟨⟩ (heof : l.kind = .eof)
      rw [heof] at hspells
      exact hspells
  | stray _ _ ih =>
    obtain ⟨before, rfl, hall⟩ := ih
    rw [List.append_assoc]
    exact ⟨_ :: before, rfl, List.forall_mem_cons.2 ⟨⟨List.cons_ne_nil _ _, nofun⟩, hall⟩⟩

end Yields

/-- A character and its number in the text, as a stray character if it is in no class. -/
def strayAt (text : List Char) (numbered : Char × Nat) : Option StrayCharacter :=
  if isKnown numbered.1 then none
  else some ⟨numbered.1, .covering (.ofText (text.take numbered.2)) [numbered.1]⟩

/-- Those characters are stray that are in no class, and each of them where it stands. -/
theorem Yields.strays_eq {id : String} {front cs : List Char} {items : List Item}
    (h : Yields id front cs items) :
    items.filterMap Item.stray? = (cs.zipIdx front.length).filterMap (strayAt (front ++ cs)) := by
  induction h with
  | stop => rfl
  | @token front rest l _ hspells _ ih =>
    have hknown : (l.chars.zipIdx front.length).filterMap
        (strayAt (front ++ (l.chars ++ rest))) = [] :=
      List.filterMap_eq_nil_iff.2 fun numbered hmem =>
        if_pos (isKnown_of_spells hspells _ (List.fst_mem_of_mem_zipIdx hmem))
    rw [List.filterMap_cons, Item.stray?, ih, List.zipIdx_append, List.filterMap_append, hknown,
      List.nil_append, List.length_append, List.append_assoc]
  | @stray front rest c _ hc _ ih =>
    have hstray : strayAt (front ++ c :: rest) (c, front.length) =
        some ⟨c, .covering (.ofText front) [c]⟩ := by
      simp [strayAt, hc]
    rw [List.filterMap_cons, Item.stray?, ih, List.zipIdx_cons, List.filterMap_cons, hstray,
      List.length_append, List.append_assoc]
    rfl

/-- The items stand one behind the other from the start of the source to its end. Each of them
spans its own characters at their place in the text. -/
structure Tiles (source : Source) (items : List Item) : Prop where
  chars : items.flatMap Item.chars = source.chars
  placed : ∀ (before : List Item) (item : Item) (behind : List Item),
    items = before ++ item :: behind →
      item.span.start = .ofText (before.flatMap Item.chars) ∧
        item.span.stop = .ofText (before.flatMap Item.chars ++ item.chars) ∧
        source.slice item.span = some (.ofList item.chars)
  starts : items.head?.map (·.span.start) = some .origin
  meets : items.IsChain fun item next => item.span.stop = next.span.start
  ends : ∃ front : List Item, items = front ++ [.token source.endToken] ∧
    ∀ item ∈ front, item.chars ≠ [] ∧ ∀ t : Token, item = .token t → t.kind ≠ .eof

variable {source : Source}

theorem yields_items (source : Source) : Yields source.id [] source.chars (items source) :=
  yields_itemsFrom source.id [] source.chars

theorem placed_items {before behind : List Item} {item : Item}
    (h : items source = before ++ item :: behind) :
    item.span.start = .ofText (before.flatMap Item.chars) ∧
      item.span.stop = .ofText (before.flatMap Item.chars ++ item.chars) ∧
      source.slice item.span = some (.ofList item.chars) := by
  have hspan : item.span = .covering (.ofText (before.flatMap Item.chars)) item.chars :=
    (yields_items source).span_eq h
  have hstop : item.span.stop = .ofText (before.flatMap Item.chars ++ item.chars) := by
    rw [hspan]
    exact Position.after_ofText _ _
  have hchars : source.chars =
      before.flatMap Item.chars ++ item.chars ++ behind.flatMap Item.chars := by
    rw [← (yields_items source).flatMap_chars, h, List.flatMap_append, List.flatMap_cons,
      List.append_assoc]
  have hstart : item.span.start = .ofText (before.flatMap Item.chars) := by rw [hspan]; rfl
  exact ⟨hstart, hstop, Source.slice_eq_some hchars hstart hstop⟩

theorem tiles_items (source : Source) : Tiles source (items source) := by
  have hends := (yields_items source).exists_append_end
  refine ⟨(yields_items source).flatMap_chars, fun _ _ _ => placed_items, ?_, ?_, hends⟩
  · cases h : items source with
    | nil =>
      obtain ⟨front, hfront, -⟩ := hends
      exact absurd (h.symm.trans hfront).symm (by simp)
    | cons item behind =>
      obtain ⟨hstart, -⟩ := @placed_items source [] behind item h
      exact congrArg some hstart
  · rw [List.isChain_iff_forall_rel_of_append_cons_cons]
    intro item next before behind h
    obtain ⟨-, hstop, -⟩ := placed_items h
    have hnext : items source = (before ++ [item]) ++ next :: behind := by simpa using h
    rw [hstop, (placed_items hnext).1]
    simp

theorem lex_eq_error_iff {errors : LexErrors} :
    lex source = .error errors ↔
      errors.toList = source.chars.zipIdx.filterMap (strayAt source.chars) := by
  have hstrays : (items source).filterMap Item.stray? =
      source.chars.zipIdx.filterMap (strayAt source.chars) := (yields_items source).strays_eq
  rw [lex, hstrays]
  obtain ⟨first, others⟩ := errors
  cases source.chars.zipIdx.filterMap (strayAt source.chars) with
  | nil => simp [LexErrors.toList]
  | cons e es => simp [LexErrors.toList, eq_comm]

theorem exists_lex_eq_error_iff :
    (∃ errors, lex source = .error errors) ↔ ∃ c ∈ source.chars, isKnown c = false := by
  simp only [lex_eq_error_iff]
  constructor
  · rintro ⟨⟨e, es⟩, h⟩
    have he : e ∈ source.chars.zipIdx.filterMap (strayAt source.chars) := by
      rw [← h]
      exact List.mem_cons_self
    obtain ⟨numbered, hmem, hstray⟩ := List.mem_filterMap.1 he
    refine ⟨numbered.1, List.fst_mem_of_mem_zipIdx hmem, ?_⟩
    by_contra hknown
    simp [strayAt, hknown] at hstray
  · rintro ⟨c, hc, hknown⟩
    obtain ⟨i, hi, rfl⟩ := List.getElem_of_mem hc
    have hmem : (source.chars[i], i) ∈ source.chars.zipIdx := by
      simp [List.mem_zipIdx_iff_getElem?]
    cases h : source.chars.zipIdx.filterMap (strayAt source.chars) with
    | nil =>
      have hnone := List.filterMap_eq_nil_iff.1 h _ hmem
      simp [strayAt, hknown] at hnone
    | cons e es => exact ⟨⟨e, es⟩, rfl⟩

/-- A stray character takes one column of its row. -/
theorem column_of_strayAt {text : List Char} {numbered : Char × Nat} {e : StrayCharacter}
    (h : strayAt text numbered = some e) :
    e.span.stop.row = e.span.start.row ∧ e.span.stop.column = e.span.start.column + 1 := by
  unfold strayAt at h
  split at h
  · cases h
  · rename_i hknown
    obtain rfl := Option.some.inj h
    have hnewline : numbered.1 ≠ '\n' := fun hc => hknown (by rw [hc]; rfl)
    simp [Span.covering, Position.after, Position.advance, hnewline]

theorem items_of_lex {ts : List Token} (h : lex source = .ok ts) :
    items source = ts.map .token := by
  obtain ⟨ls, hreads, rfl⟩ := lex_eq_ok_iff.1 h
  exact itemsFrom_of_reads hreads _ _

/-- The end of the input is the last token, and a parser adds it where it is left out. -/
theorem parse_without_end {ts : List Token} (h : lex source = .ok ts) :
    ts = ts.filter (·.kind ≠ .eof) ++ [source.endToken] ∧
      parse (ts.filter (·.kind ≠ .eof)) source = parse ts source := by
  obtain ⟨front, hfront, hall⟩ := (tiles_items source).ends
  rw [items_of_lex h] at hfront
  obtain ⟨before, last, rfl, rfl, hlast⟩ := List.map_eq_append_iff.1 hfront
  obtain ⟨t, ts, rfl, ht, hts⟩ := List.map_eq_cons_iff.1 hlast
  obtain rfl := List.map_eq_nil_iff.1 hts
  cases ht
  have hbefore : ∀ t ∈ before, t.kind ≠ .eof := fun t ht =>
    (hall _ (List.mem_map_of_mem ht)).2 t rfl
  have hfilter : (before ++ [source.endToken]).filter (·.kind ≠ .eof) = before := by
    rw [List.filter_append, List.filter_eq_self.2 (by simpa using hbefore)]
    simp [Source.endToken]
  rw [hfilter, parse, parse, Parser.ofTokens_append_endToken hbefore]
  exact ⟨rfl, rfl⟩

/-- Reading yields what tiles the source, item by item and then nothing. It fails if and only if
some character is in no class, and then reports just these, one column each. Otherwise the items
are the tokens, and these are parsed alike without the end of the input. -/
theorem items_tile (source : Source) :
    Tiles source (items source) ∧
    (∀ n, (Cursor.ofSource source).nth n = (items source)[n]?) ∧
    ((∃ errors, lex source = .error errors) ↔ ∃ c ∈ source.chars, isKnown c = false) ∧
    (∀ errors, lex source = .error errors →
      errors.toList = source.chars.zipIdx.filterMap (strayAt source.chars) ∧
        ∀ e ∈ errors.toList,
          e.span.stop.row = e.span.start.row ∧ e.span.stop.column = e.span.start.column + 1) ∧
    ∀ ts, lex source = .ok ts →
      items source = ts.map .token ∧ ts = ts.filter (·.kind ≠ .eof) ++ [source.endToken] ∧
        parse (ts.filter (·.kind ≠ .eof)) source = parse ts source := by
  refine ⟨tiles_items source, fun n => Cursor.nth_eq n _, exists_lex_eq_error_iff,
    fun errors h => ⟨lex_eq_error_iff.1 h, fun e he => ?_⟩,
    fun ts h => ⟨items_of_lex h, parse_without_end h⟩⟩
  rw [lex_eq_error_iff.1 h] at he
  obtain ⟨numbered, -, hstray⟩ := List.mem_filterMap.1 he
  exact column_of_strayAt hstray

private def straySample : Source := ⟨"sample", "a é\n?"⟩

private def strayErrors : LexErrors :=
  ⟨⟨'é', .covering ⟨2, 1, 3⟩ ['é']⟩, [⟨'?', .covering ⟨5, 2, 1⟩ ['?']⟩]⟩

private def plainSample : Source := ⟨"sample", "a 1"⟩

private def plainTokens : List Token :=
  [⟨.identifier, some "a", .covering ⟨0, 1, 1⟩ ['a'], "sample"⟩,
    ⟨.whitespace, some " ", .covering ⟨1, 1, 2⟩ [' '], "sample"⟩,
    ⟨.integer, some "1", .covering ⟨2, 1, 3⟩ ['1'], "sample"⟩]

theorem items_tile_sample :
    lex straySample = .error strayErrors ∧
      (∀ e ∈ strayErrors.toList, e.span.stop.column = e.span.start.column + 1) ∧
      lex plainSample = .ok (plainTokens ++ [plainSample.endToken]) ∧
      parse plainTokens plainSample = parse (plainTokens ++ [plainSample.endToken]) plainSample ∧
      (Cursor.ofSource plainSample).nth 3 = some (.token plainSample.endToken) ∧
      plainSample.slice (.covering ⟨2, 1, 3⟩ ['1']) = some "1" := by
  have hstray : lex straySample = .error strayErrors := by decide +kernel
  have hplain : lex plainSample = .ok (plainTokens ++ [plainSample.endToken]) := by decide +kernel
  obtain ⟨-, -, -, herror, -⟩ := items_tile straySample
  obtain ⟨htiles, hnth, -, -, hok⟩ := items_tile plainSample
  obtain ⟨-, hcolumns⟩ := herror _ hstray
  obtain ⟨hitems, -, hparse⟩ := hok _ hplain
  have hslice := (htiles.placed [.token plainTokens[0], .token plainTokens[1]]
    (.token plainTokens[2]) [.token plainSample.endToken] hitems).2.2
  refine ⟨hstray, fun e he => (hcolumns e he).2, hplain, hparse, ?_, hslice⟩
  rw [hnth, hitems]
  rfl

end FunImp.Lexer
