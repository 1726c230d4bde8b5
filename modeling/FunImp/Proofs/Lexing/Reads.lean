import FunImp.Token.Lexer

/-! # Reading a text lexeme by lexeme

A text without stray characters has the tokens of its lexemes, each placed behind the one before
it. -/

namespace FunImp

namespace Lexer

/-- The lexemes are munched off the characters one after the other. -/
inductive Reads : List Char → List Lexeme → Prop where
  | nil : Reads [] []
  | cons {cs rest : List Char} {l : Lexeme} {ls : List Lexeme} (h : munch cs = some (l, rest))
      (hr : Reads rest ls) : Reads cs (l :: ls)

/-- The tokens of lexemes that start at a position, and the end. -/
def place (id : String) (p : Position) : List Lexeme → List Token
  | [] => [⟨.eof, none, .point p, id⟩]
  | l :: ls =>
    ⟨l.kind, some (.ofList l.chars), .covering p l.chars, id⟩ :: place id (p.after l.chars) ls

theorem itemsFrom_of_munch {cs rest : List Char} {l : Lexeme} (h : munch cs = some (l, rest))
    (id : String) (p : Position) :
    itemsFrom id p cs =
      .token ⟨l.kind, some (.ofList l.chars), .covering p l.chars, id⟩ ::
        itemsFrom id (p.after l.chars) rest := by
  rw [itemsFrom]
  split
  · rename_i l' rest' h'
    obtain ⟨rfl, rfl⟩ := Prod.mk.inj (Option.some.inj (h.symm.trans h'))
    rfl
  · rename_i h'
    rw [h] at h'
    cases h'

theorem itemsFrom_of_reads {cs : List Char} {ls : List Lexeme} (h : Reads cs ls) (id : String)
    (p : Position) : itemsFrom id p cs = (place id p ls).map .token := by
  induction h generalizing p with
  | nil =>
    rw [itemsFrom]
    rfl
  | cons h _ ih => rw [itemsFrom_of_munch h, ih, place, List.map_cons]

theorem lex_of_reads {source : Source} {ls : List Lexeme} (h : Reads source.chars ls) :
    lex source = .ok (place source.id .origin ls) := by
  have hstray (ts : List Token) : (ts.map Item.token).filterMap Item.stray? = [] := by
    induction ts with
    | nil => rfl
    | cons t ts ih => exact ih
  have htoken (ts : List Token) : (ts.map Item.token).filterMap Item.token? = ts := by
    induction ts with
    | nil => rfl
    | cons t ts ih => simp [Item.token?, ih]
  rw [lex, items, itemsFrom_of_reads h]
  simp only [hstray, htoken]

/-- Without stray characters the whole text is read. -/
theorem exists_reads {id : String} {p : Position} {cs : List Char}
    (h : (itemsFrom id p cs).filterMap Item.stray? = []) : ∃ ls, Reads cs ls := by
  induction p, cs using itemsFrom.induct with
  | case1 p cs l rest hmunch ih =>
    rw [itemsFrom_of_munch hmunch] at h
    obtain ⟨ls, hls⟩ := ih h
    exact ⟨l :: ls, .cons hmunch hls⟩
  | case2 => exact ⟨[], .nil⟩
  | case3 p c rest hmunch ih =>
    rw [itemsFrom] at h
    split at h
    · rename_i hsome
      rw [hmunch] at hsome
      cases hsome
    · exact absurd h (List.cons_ne_nil _ _)

theorem lex_eq_ok_iff {source : Source} {ts : List Token} :
    lex source = .ok ts ↔ ∃ ls, Reads source.chars ls ∧ ts = place source.id .origin ls := by
  constructor
  · intro h
    have hstray : (items source).filterMap Item.stray? = [] := by
      unfold lex at h
      simp only at h
      split at h
      · assumption
      · cases h
    obtain ⟨ls, hls⟩ := exists_reads hstray
    exact ⟨ls, hls, Except.ok.inj (h.symm.trans (lex_of_reads hls))⟩
  · rintro ⟨ls, hls, rfl⟩
    exact lex_of_reads hls

end Lexer

end FunImp
