import FunImp.Proofs.Diagnostic.Fits
import FunImp.Proofs.Lexing.Placed

/-! # What tokens and stray characters mark

Every token of a source marks its own characters, and so does every stray character. Only white
space may start with a line feed, and only the end of the input has no characters. -/

namespace FunImp.Lexer

variable {source : Source} {ts : List Token} {t : Token}

theorem itemsFrom_of_munch_eq_none {c : Char} {cs : List Char} (h : munch (c :: cs) = none)
    (id : String) (p : Position) :
    itemsFrom id p (c :: cs) = .stray ⟨c, .covering p [c]⟩ :: itemsFrom id (p.advance c) cs := by
  rw [itemsFrom]
  split
  · rename_i h'
    rw [h] at h'
    cases h'
  · rfl

/-- A stray character stands right behind what is in front of it, and is no white space. -/
theorem stray_of_mem_itemsFrom {id : String} (front : List Char) {cs : List Char}
    {e : StrayCharacter}
    (h : .stray e ∈ itemsFrom id (.ofText front) cs) :
    isBlank e.character = false ∧ ∃ before behind, cs = before ++ e.character :: behind ∧
      e.span = .covering (.ofText (front ++ before)) [e.character] := by
  generalize hp : Position.ofText front = p at h
  induction p, cs using itemsFrom.induct generalizing front with
  | case1 p cs l rest hmunch ih =>
    subst hp
    rw [itemsFrom_of_munch hmunch] at h
    rcases List.mem_cons.1 h with h | h
    · cases h
    · obtain ⟨hblank, before, behind, rfl, hspan⟩ := ih _ (Position.after_ofText _ _).symm h
      refine ⟨hblank, l.chars ++ before, behind, ?_, ?_⟩
      · rw [(spells_of_munch hmunch).1, List.append_assoc]
      · rw [hspan, List.append_assoc]
  | case2 p hmunch =>
    rw [itemsFrom] at h
    cases List.mem_singleton.1 h
  | case3 p c rest hmunch ih =>
    subst hp
    rw [itemsFrom_of_munch_eq_none hmunch] at h
    rcases List.mem_cons.1 h with h | h
    · cases h
      refine ⟨?_, [], rest, rfl, by rw [List.append_nil]⟩
      by_contra hblank
      rw [munch_blank (eq_true_of_ne_false hblank)] at hmunch
      cases hmunch
    · obtain ⟨hblank, before, behind, rfl, hspan⟩ := ih _ (Position.advance_ofText _ _).symm h
      refine ⟨hblank, c :: before, behind, rfl, ?_⟩
      rw [hspan, List.append_assoc, List.singleton_append]

theorem marks_of_lex_eq_error {errors : LexErrors} (h : lex source = .error errors) :
    ∀ e ∈ errors.toList, source.Marks e.span [e.character] := by
  intro e he
  have hmem : .stray e ∈ items source := by
    unfold lex at h
    simp only at h
    split at h
    · cases h
    · rename_i first others hstrays
      cases h
      rw [LexErrors.toList, ← hstrays] at he
      obtain ⟨item, hitem, hstray⟩ := List.mem_filterMap.1 he
      cases item with
      | token t => cases hstray
      | stray e' =>
        cases hstray
        exact hitem
  obtain ⟨hblank, before, behind, hchars, hspan⟩ := stray_of_mem_itemsFrom [] hmem
  refine ⟨fun hhead => ?_, before, behind, ?_, ?_, ?_⟩
  · rw [Option.some.inj hhead] at hblank
    cases hblank
  · rw [hchars, List.append_assoc, List.singleton_append]
  · rw [hspan]
    rfl
  · rw [hspan]
    exact Position.after_ofText _ _

theorem of_mem_place {id : String} {p : Position} {ls : List Lexeme} (h : t ∈ place id p ls) :
    t.kind = .eof ∧ t.chars = [] ∨ ∃ l ∈ ls, t.kind = l.kind ∧ t.chars = l.chars := by
  induction ls generalizing p with
  | nil =>
    obtain rfl := List.mem_singleton.1 h
    exact .inl ⟨rfl, rfl⟩
  | cons l ls ih =>
    rcases List.mem_cons.1 h with rfl | h
    · exact .inr ⟨l, List.mem_cons_self, rfl, String.toList_ofList⟩
    · rcases ih h with h | ⟨l', hl', h⟩
      · exact .inl h
      · exact .inr ⟨l', List.mem_cons_of_mem _ hl', h⟩

/-- Every token but the end of the input has a text of its kind. -/
theorem spells_of_mem_lex (h : lex source = .ok ts) (ht : t ∈ ts) :
    t.kind = .eof ∧ t.chars = [] ∨ t.kind.Spells t.chars := by
  obtain ⟨ls, hreads, rfl⟩ := lex_eq_ok_iff.1 h
  obtain ⟨hnormal, -⟩ := reads_iff.1 hreads
  refine (of_mem_place ht).imp_right ?_
  rintro ⟨l, hl, hkind, hchars⟩
  rw [hkind, hchars]
  exact hnormal.spelt l hl

/-- Every token but the end of the input has characters, and starts with a line feed only if it is
white space. -/
theorem chars_of_mem_lex (h : lex source = .ok ts) (ht : t ∈ ts) (hkind : t.kind ≠ .whitespace) :
    t.chars.head? ≠ some '\n' ∧ (t.chars = [] ↔ t.kind = .eof) := by
  rcases spells_of_mem_lex h ht with ⟨hkind, hchars⟩ | hspelt
  · simp [hkind, hchars]
  · cases hchars : t.chars with
    | nil =>
      rw [hchars] at hspelt
      exact absurd hspelt (Token.Kind.not_spells_nil _)
    | cons c cs =>
      rw [hchars] at hspelt
      obtain ⟨-, -, hblank⟩ := hspelt.first
      refine ⟨fun hhead => hkind (hblank.1 ?_), nofun, fun heof => ?_⟩
      · rw [Option.some.inj hhead]
        rfl
      · rw [heof] at hspelt
        exact hspelt.elim

theorem marks_of_mem_lex (h : lex source = .ok ts) (ht : t ∈ ts) (hkind : t.kind ≠ .whitespace) :
    source.Marks t.span t.chars := by
  obtain ⟨hlaid, hchars, -⟩ := laidOut_of_lex h
  obtain ⟨front, behind, rfl⟩ := List.append_of_mem ht
  rw [Token.laidOut_append] at hlaid
  obtain ⟨-, hstart, hstop, -⟩ := hlaid
  refine ⟨(chars_of_mem_lex h ht hkind).1, front.flatMap Token.chars,
    behind.flatMap Token.chars, ?_, hstart, hstop⟩
  rw [← hchars, List.flatMap_append, List.flatMap_cons, List.append_assoc]

end FunImp.Lexer
