import FunImp.Proofs.Grammar.Parse
import FunImp.Proofs.Lexing.Normal
import FunImp.Proofs.Text.Positions

/-! # Tokens laid out in a text

Tokens are laid out behind a text if each stands right behind what is before it. Then the span of
leaves in a row runs from the first token, without the white space in front of it, to the end of
the last one. -/

namespace FunImp

namespace Token

/-- The characters of a token, none at the end of the input. -/
def chars (t : Token) : List Char := (t.text.getD "").toList

theorem sourceText_eq (ts : List Token) : sourceText ts = .ofList (ts.flatMap chars) := by
  induction ts with
  | nil => rfl
  | cons t ts ih =>
    rw [sourceText] at ih
    rw [sourceText, List.flatMap_cons, String.ofList_append, ← ih, chars, String.ofList_toList]
    cases h : t.text with
    | none => simp [h]
    | some text => simp [h, String.join_cons]

/-- The tokens stand one behind the other, the first of them behind the characters in front. -/
def LaidOut (front : List Char) : List Token → Prop
  | [] => True
  | t :: ts =>
    t.span.start = .ofText front ∧ t.span.stop = .ofText (front ++ t.chars) ∧
      LaidOut (front ++ t.chars) ts

theorem laidOut_append {front : List Char} {ts us : List Token} :
    LaidOut front (ts ++ us) ↔ LaidOut front ts ∧ LaidOut (front ++ ts.flatMap chars) us := by
  induction ts generalizing front with
  | nil => simp [LaidOut]
  | cons t ts ih => simp [LaidOut, ih, and_assoc]

end Token

namespace Span

theorem join_of_before {s t : Span} (h : s.stop.offset ≤ t.start.offset) :
    (s.join t).start = s.start ∧ (s.join t).stop = t.stop := by
  have hstart : s.start.offset ≤ t.start.offset := Nat.le_trans s.ordered h
  have hstop : s.stop.offset ≤ t.stop.offset := Nat.le_trans h t.ordered
  rw [join, if_pos hstart, extend, dif_pos hstop]
  exact ⟨rfl, rfl⟩

end Span

namespace Leaf

/-- The characters of leaves in a row, with the white space between them. -/
def charsOf (ls : List Leaf) : List Char := (ls.flatMap tokens).flatMap Token.chars

theorem charsOf_append (ls ms : List Leaf) : charsOf (ls ++ ms) = charsOf ls ++ charsOf ms := by
  simp [charsOf]

theorem charsOf_cons (l : Leaf) (ls : List Leaf) :
    charsOf (l :: ls) = l.leading.flatMap Token.chars ++ l.token.chars ++ charsOf ls := by
  simp [charsOf, tokens]

/-- The leaves are laid out, with white space in front of each token. -/
structure LaidOut (front : List Char) (ls : List Leaf) : Prop where
  tokens : Token.LaidOut front (ls.flatMap Leaf.tokens)
  tidy : ∀ l ∈ ls, l.Tidy

variable {front : List Char} {l : Leaf} {ls ms : List Leaf}

theorem laidOut_append :
    LaidOut front (ls ++ ms) ↔ LaidOut front ls ∧ LaidOut (front ++ charsOf ls) ms := by
  constructor
  · rintro ⟨htokens, htidy⟩
    rw [List.flatMap_append, Token.laidOut_append] at htokens
    rw [List.forall_mem_append] at htidy
    exact ⟨⟨htokens.1, htidy.1⟩, htokens.2, htidy.2⟩
  · rintro ⟨⟨hls, hlsTidy⟩, hms, hmsTidy⟩
    refine ⟨?_, List.forall_mem_append.2 ⟨hlsTidy, hmsTidy⟩⟩
    rw [List.flatMap_append, Token.laidOut_append]
    exact ⟨hls, hms⟩

theorem laidOut_cons (h : LaidOut front (l :: ls)) :
    l.token.span.start = .ofText (front ++ l.leading.flatMap Token.chars) ∧
      l.token.span.stop =
        .ofText (front ++ (l.leading.flatMap Token.chars ++ l.token.chars)) ∧
      LaidOut (front ++ (l.leading.flatMap Token.chars ++ l.token.chars)) ls := by
  obtain ⟨htokens, htidy⟩ := h
  rw [List.flatMap_cons, Leaf.tokens, List.append_assoc, Token.laidOut_append] at htokens
  obtain ⟨-, hstart, hstop, hrest⟩ := htokens
  simp only [List.append_assoc] at hstop hrest
  exact ⟨hstart, hstop, hrest, (List.forall_mem_cons.1 htidy).2⟩

private theorem foldl_join {s : Span} (hs : s.stop = .ofText front) (h : LaidOut front ls) :
    ((ls.map (·.token.span)).foldl Span.join s).start = s.start ∧
      ((ls.map (·.token.span)).foldl Span.join s).stop = .ofText (front ++ charsOf ls) := by
  induction ls generalizing front s with
  | nil => simpa [charsOf] using hs
  | cons l ls ih =>
    obtain ⟨hstart, hstop, hrest⟩ := laidOut_cons h
    have hbefore : s.stop.offset ≤ l.token.span.start.offset := by
      rw [hs, hstart]
      exact Position.offset_ofText_le_append _ _
    obtain ⟨hjoinStart, hjoinStop⟩ := Span.join_of_before hbefore
    obtain ⟨hfoldStart, hfoldStop⟩ := ih (hjoinStop.trans hstop) hrest
    rw [List.map_cons, List.foldl_cons, charsOf_cons]
    exact ⟨hfoldStart.trans hjoinStart, by simpa using hfoldStop⟩

/-- The span of leaves in a row leaves out the white space in front of the first of them, and
nothing else. -/
theorem spanOf_laidOut (h : LaidOut front (l :: ls)) :
    (Token.spanOf ((l :: ls).flatMap tokens)).start =
        .ofText (front ++ l.leading.flatMap Token.chars) ∧
      (Token.spanOf ((l :: ls).flatMap tokens)).stop = .ofText (front ++ charsOf (l :: ls)) := by
  obtain ⟨hstart, hstop, hrest⟩ := laidOut_cons h
  obtain ⟨hfoldStart, hfoldStop⟩ := foldl_join hstop hrest
  have hspan : Token.spanOf ((l :: ls).flatMap tokens) =
      (ls.map (·.token.span)).foldl Span.join l.token.span := by
    rw [Token.spanOf, filter_tokens h.tidy, List.map_map]
    rfl
  rw [hspan, charsOf_cons]
  exact ⟨hfoldStart.trans hstart, by simpa using hfoldStop⟩

end Leaf

namespace Lexer

/-- The tokens of lexemes are laid out. -/
theorem laidOut_place (id : String) (front : List Char) (ls : List Lexeme) :
    Token.LaidOut front (place id (.ofText front) ls) := by
  induction ls generalizing front with
  | nil => exact ⟨rfl, by simp [Token.chars, Span.point], trivial⟩
  | cons l ls ih =>
    have hchars : Token.chars ⟨l.kind, some (.ofList l.chars), .covering (.ofText front) l.chars,
        id⟩ = l.chars := by simp [Token.chars]
    rw [place, Position.after_ofText]
    refine ⟨rfl, ?_, ?_⟩
    · rw [hchars]
      exact Position.after_ofText front l.chars
    · rw [hchars]
      exact ih (front ++ l.chars)

theorem flatMap_chars_place (id : String) (p : Position) (ls : List Lexeme) :
    (place id p ls).flatMap Token.chars = written ls := by
  induction ls generalizing p with
  | nil => rfl
  | cons l ls ih => simp [place, Token.chars, ih, written]

/-- The end of the input is the last token and no other one. -/
theorem throughEnd_place {ls : List Lexeme} (h : ∀ l ∈ ls, l.kind ≠ .eof) (source : Source)
    (id : String) (p : Position) : throughEnd source (place id p ls) = place id p ls := by
  obtain ⟨ts, e, hplace, hts, he⟩ :
      ∃ ts e, place id p ls = ts ++ [e] ∧ (∀ t ∈ ts, t.kind ≠ .eof) ∧ e.kind = .eof := by
    induction ls generalizing p with
    | nil => exact ⟨[], _, rfl, List.forall_mem_nil _, rfl⟩
    | cons l ls ih =>
      obtain ⟨hl, hls⟩ := List.forall_mem_cons.1 h
      obtain ⟨ts, e, hplace, hts, he⟩ := ih hls (p.after l.chars)
      let t : Token := ⟨l.kind, some (.ofList l.chars), .covering p l.chars, id⟩
      exact ⟨t :: ts, e, congrArg (t :: ·) hplace, List.forall_mem_cons.2 ⟨hl, hts⟩, he⟩
  rw [hplace, throughEnd_append_end source hts he]

/-- The tokens of a source are laid out from its start, and are all of it. -/
theorem laidOut_of_lex {source : Source} {ts : List Token} (h : lex source = .ok ts) :
    Token.LaidOut [] ts ∧ ts.flatMap Token.chars = source.chars ∧ throughEnd source ts = ts := by
  obtain ⟨ls, hreads, rfl⟩ := lex_eq_ok_iff.1 h
  obtain ⟨hnormal, hchars⟩ := reads_iff.1 hreads
  refine ⟨laidOut_place source.id [] ls, ?_, throughEnd_place (fun l hl heof => ?_) source _ _⟩
  · rw [flatMap_chars_place, hchars]
  · have hspelt := hnormal.spelt l hl
    rw [heof] at hspelt
    exact hspelt

end Lexer

end FunImp
