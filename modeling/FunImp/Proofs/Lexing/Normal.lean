import Mathlib.Data.List.Chain
import Mathlib.Data.List.TakeWhile
import FunImp.Proofs.Lexing.Reads

/-! # Normal lists of lexemes

A list of lexemes is normal if every text belongs to its kind and no two neighbours would be read
as one. Splitting a text into lexemes and joining the texts of a normal list are inverse to each
other. -/

namespace FunImp

theorem Lexer.isBlank_iff {c : Char} : isBlank c = true ↔ c = ' ' ∨ c = '\n' := by
  rw [isBlank, Bool.or_eq_true, decide_eq_true_eq, decide_eq_true_eq]

namespace Token.Kind

/-- A letter, and letters and digits behind it. -/
def IsWord : List Char → Prop
  | [] => False
  | c :: cs => c.isAlpha ∧ ∀ d ∈ cs, d.isAlphanum

instance : DecidablePred IsWord
  | [] => .isFalse id
  | c :: cs => decidable_of_iff (c.isAlpha ∧ cs.all Char.isAlphanum) (by simp [IsWord])

/-- The text belongs to the kind. The end of the input has no text. -/
def Spells : Kind → List Char → Prop
  | identifier, cs => IsWord cs ∧ cs ≠ ['i', 'm', 'p'] ∧ cs ≠ ['f', 'u', 'n']
  | integer, cs => cs ≠ [] ∧ ∀ c ∈ cs, c.isDigit
  | whitespace, cs => cs ≠ [] ∧ ∀ c ∈ cs, c = ' ' ∨ c = '\n'
  | imp, cs => cs = ['i', 'm', 'p']
  | fn, cs => cs = ['f', 'u', 'n']
  | plus, cs => cs = ['+']
  | minus, cs => cs = ['-']
  | star, cs => cs = ['*']
  | slash, cs => cs = ['/']
  | leftParen, cs => cs = ['(']
  | rightParen, cs => cs = [')']
  | leftBrace, cs => cs = ['\x7b']
  | rightBrace, cs => cs = ['\x7d']
  | assign, cs => cs = ['=']
  | semicolon, cs => cs = [';']
  | comma, cs => cs = [',']
  | colon, cs => cs = [':']
  | eof, _ => False

instance (kind : Kind) (cs : List Char) : Decidable (kind.Spells cs) :=
  match kind with
  | identifier => inferInstanceAs (Decidable (IsWord cs ∧ _))
  | integer => decidable_of_iff (cs ≠ [] ∧ cs.all Char.isDigit) (by simp [Spells])
  | whitespace => decidable_of_iff (cs ≠ [] ∧ cs.all Lexer.isBlank) (by
      simp [Spells, Lexer.isBlank_iff])
  | imp | fn | plus | minus | star | slash | leftParen | rightParen | leftBrace | rightBrace
  | assign | semicolon | comma | colon => inferInstanceAs (Decidable (cs = _))
  | eof => .isFalse id

/-- A token of the second kind, right behind one of the first, would be read as part of it. -/
def Merges : Kind → Kind → Prop
  | whitespace, next => next = whitespace
  | identifier, next | imp, next | fn, next => next ∈ [identifier, imp, fn, integer]
  | integer, next => next = integer
  | _, _ => False

instance (kind next : Kind) : Decidable (kind.Merges next) :=
  match kind with
  | whitespace | integer => inferInstanceAs (Decidable (next = _))
  | identifier | imp | fn => inferInstanceAs (Decidable (next ∈ _))
  | eof | plus | minus | star | slash | leftParen | rightParen | leftBrace | rightBrace | assign
  | semicolon | comma | colon => .isFalse id

/-- The characters that a token of the kind goes on with. -/
def carriedOnBy : Kind → Char → Bool
  | whitespace => Lexer.isBlank
  | identifier | imp | fn => Char.isAlphanum
  | integer => Char.isDigit
  | _ => fun _ => false

private theorem isDigit_eq_false {c : Char} (h : c.isAlpha) : c.isDigit = false := by
  have hletter : 'A'.val ≤ c.val := by
    rcases Bool.or_eq_true_iff.1 h with hupper | hlower
    · have hrange : 'A'.val ≤ c.val ∧ c.val ≤ 'Z'.val := of_decide_eq_true hupper
      exact hrange.1
    · obtain ⟨ha, -⟩ := Bool.and_eq_true_iff.1 hlower
      exact UInt32.le_trans (by decide) (of_decide_eq_true ha)
  by_contra hdigit
  obtain ⟨-, hnine⟩ := Bool.and_eq_true_iff.1 (eq_true_of_ne_false hdigit)
  have hle : 'A'.val ≤ '9'.val := UInt32.le_trans hletter (of_decide_eq_true hnine)
  exact absurd hle (by decide)

private theorem isBlank_eq_false {c : Char} (h : c.isAlphanum) : Lexer.isBlank c = false := by
  by_contra hblank
  rcases Lexer.isBlank_iff.1 (eq_true_of_ne_false hblank) with rfl | rfl
  · exact absurd h (by decide)
  · exact absurd h (by decide)

theorem isAlphanum_of_isAlpha {c : Char} (h : c.isAlpha) : c.isAlphanum := by
  simp [Char.isAlphanum, h]

theorem isAlphanum_of_isDigit {c : Char} (h : c.isDigit) : c.isAlphanum := by
  simp [Char.isAlphanum, h]

/-- What kind a character starts is told by the class it belongs to. -/
theorem Spells.first {kind : Kind} {c : Char} {cs : List Char} (h : kind.Spells (c :: cs)) :
    (c.isAlpha = true ↔ kind ∈ [identifier, imp, fn]) ∧ (c.isDigit = true ↔ kind = integer) ∧
      (Lexer.isBlank c = true ↔ kind = whitespace) := by
  cases kind with
  | identifier =>
    have hc : c.isAlpha := h.1.1
    simp [hc, isDigit_eq_false hc, isBlank_eq_false (isAlphanum_of_isAlpha hc)]
  | integer =>
    have hc : c.isDigit := h.2 c List.mem_cons_self
    have halpha : ¬c.isAlpha := fun ha => by simp [isDigit_eq_false ha] at hc
    simp [hc, halpha, isBlank_eq_false (isAlphanum_of_isDigit hc)]
  | whitespace =>
    rcases h.2 c List.mem_cons_self with rfl | rfl
    · decide
    · decide
  | eof => exact h.elim
  | _ =>
    obtain ⟨rfl, -⟩ := List.cons.inj h
    decide

/-- A text carries on the one before it if and only if the kinds merge. -/
theorem Spells.carriedOnBy_iff {next : Kind} {c : Char} {cs : List Char}
    (h : next.Spells (c :: cs)) (kind : Kind) : kind.carriedOnBy c = true ↔ kind.Merges next := by
  obtain ⟨halpha, hdigit, hblank⟩ := h.first
  have hword : c.isAlphanum = true ↔ next ∈ [identifier, imp, fn, integer] := by
    simp only [Char.isAlphanum, Bool.or_eq_true, halpha, hdigit]
    simp [or_assoc]
  cases kind with
  | whitespace => exact hblank
  | identifier | imp | fn => exact hword
  | integer => exact hdigit
  | _ => simp [carriedOnBy, Merges]

theorem not_spells_nil (kind : Kind) : ¬kind.Spells [] := by
  cases kind with
  | identifier => exact fun h => h.1
  | integer | whitespace => exact fun h => h.1 rfl
  | eof => exact id
  | _ => simp [Spells]

theorem ofKeyword?_eq (word : List Char) :
    ofKeyword? (.ofList word) =
      if word = ['i', 'm', 'p'] then some imp else if word = ['f', 'u', 'n'] then some fn
      else none := by
  have himp : "imp" = String.ofList ['i', 'm', 'p'] := rfl
  have hfun : "fun" = String.ofList ['f', 'u', 'n'] := rfl
  simp only [ofKeyword?, himp, hfun, String.ofList_inj]

theorem spells_word {word : List Char} (h : IsWord word) :
    ((ofKeyword? (.ofList word)).getD identifier).Spells word ∧
      ((ofKeyword? (.ofList word)).getD identifier).carriedOnBy = Char.isAlphanum := by
  rw [ofKeyword?_eq]
  split
  · exact ⟨‹_›, rfl⟩
  · split
    · exact ⟨‹_›, rfl⟩
    · exact ⟨⟨h, ‹_›, ‹_›⟩, rfl⟩

theorem isWord_of_spells {kind : Kind} {word : List Char} (h : kind.Spells word)
    (hkind : kind ∈ [identifier, imp, fn]) :
    IsWord word ∧ (ofKeyword? (.ofList word)).getD identifier = kind := by
  simp only [List.mem_cons, List.not_mem_nil, or_false] at hkind
  rw [ofKeyword?_eq]
  rcases hkind with rfl | rfl | rfl
  · exact ⟨h.1, by simp [h.2.1, h.2.2]⟩
  · obtain rfl := h
    exact ⟨by simp [IsWord], rfl⟩
  · obtain rfl := h
    exact ⟨by simp [IsWord], rfl⟩

theorem ofPunctuation?_eq_some_iff {c : Char} {kind : Kind} :
    ofPunctuation? c = some kind ↔
      kind.Spells [c] ∧ kind ∉ [identifier, integer, whitespace, imp, fn] := by
  constructor
  · intro h
    unfold ofPunctuation? at h
    split at h <;> cases h <;> exact ⟨rfl, by decide⟩
  · rintro ⟨h, hkind⟩
    cases kind with
    | identifier | integer | whitespace | imp | fn => simp at hkind
    | eof => exact h.elim
    | _ =>
      obtain ⟨rfl, -⟩ := List.cons.inj h
      rfl

end Token.Kind

namespace Lexer

/-- A run of characters of one class ends where the class ends. -/
theorem run_eq_iff {p : Char → Bool} {cs run rest : List Char} :
    cs.takeWhile p = run ∧ cs.dropWhile p = rest ↔
      cs = run ++ rest ∧ (∀ c ∈ run, p c = true) ∧ ∀ c ∈ rest.head?, p c = false := by
  constructor
  · rintro ⟨rfl, rfl⟩
    refine ⟨List.takeWhile_append_dropWhile.symm, fun c => List.mem_takeWhile_imp, fun c hc => ?_⟩
    have hhead := List.head?_dropWhile_not p cs
    rwa [hc] at hhead
  · rintro ⟨rfl, hrun, hrest⟩
    rw [List.takeWhile_append_of_pos hrun, List.dropWhile_append_of_pos hrun]
    cases rest with
    | nil => simp
    | cons c rest => simp [hrest c rfl]

theorem munch_blank {c : Char} (hc : isBlank c = true) (cs : List Char) :
    munch (c :: cs) = some (⟨.whitespace, c :: cs.takeWhile isBlank⟩, cs.dropWhile isBlank) := by
  rw [munch, if_pos hc]

theorem munch_word {c : Char} (hc : c.isAlpha = true) (cs : List Char) :
    munch (c :: cs) =
      some (⟨(Token.Kind.ofKeyword? (.ofList (c :: cs.takeWhile Char.isAlphanum))).getD .identifier,
        c :: cs.takeWhile Char.isAlphanum⟩, cs.dropWhile Char.isAlphanum) := by
  have hblank := Token.Kind.isBlank_eq_false (Token.Kind.isAlphanum_of_isAlpha hc)
  rw [munch, if_neg (by simp [hblank]), if_pos hc]

theorem munch_digit {c : Char} (hc : c.isDigit = true) (cs : List Char) :
    munch (c :: cs) =
      some (⟨.integer, c :: cs.takeWhile Char.isDigit⟩, cs.dropWhile Char.isDigit) := by
  have hblank := Token.Kind.isBlank_eq_false (Token.Kind.isAlphanum_of_isDigit hc)
  have halpha : ¬c.isAlpha = true := fun h => by simp [Token.Kind.isDigit_eq_false h] at hc
  rw [munch, if_neg (by simp [hblank]), if_neg halpha, if_pos hc]

theorem munch_other {c : Char} (hblank : ¬isBlank c = true) (halpha : ¬c.isAlpha = true)
    (hdigit : ¬c.isDigit = true) (cs : List Char) :
    munch (c :: cs) = (Token.Kind.ofPunctuation? c).map fun kind => (⟨kind, [c]⟩, cs) := by
  rw [munch, if_neg hblank, if_neg halpha, if_neg hdigit]

/-- What is munched belongs to its kind and goes as far as it can. -/
theorem spells_of_munch {cs rest : List Char} {l : Lexeme} (h : munch cs = some (l, rest)) :
    cs = l.chars ++ rest ∧ l.kind.Spells l.chars ∧
      ∀ c ∈ rest.head?, l.kind.carriedOnBy c = false := by
  cases cs with
  | nil => simp [munch] at h
  | cons c cs =>
    have hrun (p : Char → Bool) :
        cs = cs.takeWhile p ++ cs.dropWhile p ∧ (∀ d ∈ cs.takeWhile p, p d = true) ∧
          ∀ d ∈ (cs.dropWhile p).head?, p d = false := run_eq_iff.1 ⟨rfl, rfl⟩
    by_cases hblank : isBlank c = true
    · rw [munch_blank hblank] at h
      obtain ⟨rfl, rfl⟩ := Prod.mk.inj (Option.some.inj h)
      obtain ⟨hsplit, hall, hstop⟩ := hrun isBlank
      have hblanks : ∀ d ∈ c :: cs.takeWhile isBlank, d = ' ' ∨ d = '\n' :=
        List.forall_mem_cons.2 ⟨isBlank_iff.1 hblank, fun d hd => isBlank_iff.1 (hall d hd)⟩
      exact ⟨congrArg (c :: ·) hsplit, ⟨List.cons_ne_nil _ _, hblanks⟩, hstop⟩
    by_cases halpha : c.isAlpha = true
    · rw [munch_word halpha] at h
      obtain ⟨rfl, rfl⟩ := Prod.mk.inj (Option.some.inj h)
      obtain ⟨hsplit, hall, hstop⟩ := hrun Char.isAlphanum
      have hword : Token.Kind.IsWord (c :: cs.takeWhile Char.isAlphanum) := ⟨halpha, hall⟩
      obtain ⟨hspells, hclass⟩ := Token.Kind.spells_word hword
      exact ⟨congrArg (c :: ·) hsplit, hspells, by rwa [hclass]⟩
    by_cases hdigit : c.isDigit = true
    · rw [munch_digit hdigit] at h
      obtain ⟨rfl, rfl⟩ := Prod.mk.inj (Option.some.inj h)
      obtain ⟨hsplit, hall, hstop⟩ := hrun Char.isDigit
      have hdigits : ∀ d ∈ c :: cs.takeWhile Char.isDigit, d.isDigit = true :=
        List.forall_mem_cons.2 ⟨hdigit, hall⟩
      exact ⟨congrArg (c :: ·) hsplit, ⟨List.cons_ne_nil _ _, hdigits⟩, hstop⟩
    · rw [munch_other hblank halpha hdigit] at h
      obtain ⟨kind, hkind, heq⟩ := Option.map_eq_some_iff.1 h
      obtain ⟨rfl, rfl⟩ := Prod.mk.inj heq
      obtain ⟨hspells, hnot⟩ := Token.Kind.ofPunctuation?_eq_some_iff.1 hkind
      refine ⟨rfl, hspells, fun d _ => ?_⟩
      cases kind with
      | identifier | integer | whitespace | imp | fn => simp at hnot
      | _ => rfl

/-- A text of a kind is munched as a whole if nothing behind it carries it on. -/
theorem munch_of_spells {l : Lexeme} (h : l.kind.Spells l.chars) {rest : List Char}
    (hrest : ∀ c ∈ rest.head?, l.kind.carriedOnBy c = false) :
    munch (l.chars ++ rest) = some (l, rest) := by
  obtain ⟨kind, _ | ⟨c, cs⟩⟩ := l
  · exact absurd h kind.not_spells_nil
  · obtain ⟨halpha, hdigit, hblank⟩ := h.first
    have hrun {p : Char → Bool} (hp : ∀ d ∈ cs, p d = true)
        (hstop : ∀ d ∈ rest.head?, p d = false) :
        (cs ++ rest).takeWhile p = cs ∧ (cs ++ rest).dropWhile p = rest :=
      run_eq_iff.2 ⟨rfl, hp, hstop⟩
    have hword (hkind : kind ∈ [.identifier, .imp, .fn])
        (hstop : ∀ d ∈ rest.head?, d.isAlphanum = false) :
        munch (c :: (cs ++ rest)) = some (⟨kind, c :: cs⟩, rest) := by
      obtain ⟨⟨_, hall⟩, hkeyword⟩ := Token.Kind.isWord_of_spells h hkind
      obtain ⟨htake, hdrop⟩ := hrun hall hstop
      rw [munch_word (halpha.2 hkind), htake, hdrop, hkeyword]
    cases kind with
    | identifier | imp | fn => exact hword (by decide) hrest
    | integer =>
      obtain ⟨htake, hdrop⟩ := hrun (fun d hd => h.2 d (List.mem_cons_of_mem _ hd)) hrest
      rw [List.cons_append, munch_digit (hdigit.2 rfl), htake, hdrop]
    | whitespace =>
      have hall : ∀ d ∈ cs, isBlank d = true := fun d hd =>
        isBlank_iff.2 (h.2 d (List.mem_cons_of_mem _ hd))
      obtain ⟨htake, hdrop⟩ := hrun hall hrest
      rw [List.cons_append, munch_blank (hblank.2 rfl), htake, hdrop]
    | eof => exact h.elim
    | _ =>
      obtain ⟨rfl, rfl⟩ := List.cons.inj h
      rfl

/-- Every text belongs to its kind, and no two neighbours would be read as one. -/
structure Normal (ls : List Lexeme) : Prop where
  spelt : ∀ l ∈ ls, l.kind.Spells l.chars
  apart : ls.IsChain fun l next => ¬l.kind.Merges next.kind

instance : DecidablePred Normal := fun ls =>
  decidable_of_iff ((∀ l ∈ ls, l.kind.Spells l.chars) ∧
    ls.IsChain fun l next => ¬l.kind.Merges next.kind) ⟨fun h => ⟨h.1, h.2⟩, fun h => ⟨h.1, h.2⟩⟩

/-- The texts of lexemes joined. -/
def written (ls : List Lexeme) : List Char := ls.flatMap Lexeme.chars

/-- What follows a lexeme carries it on if and only if it merges with the next one. -/
theorem carriedOn_iff {ls : List Lexeme} (h : ∀ l ∈ ls, l.kind.Spells l.chars)
    (kind : Token.Kind) :
    (∀ c ∈ (written ls).head?, kind.carriedOnBy c = false) ↔
      ∀ next ∈ ls.head?, ¬kind.Merges next.kind := by
  cases ls with
  | nil => simp [written]
  | cons next ls =>
    have hnext := h next List.mem_cons_self
    obtain ⟨nextKind, _ | ⟨c, cs⟩⟩ := next
    · exact absurd hnext nextKind.not_spells_nil
    · have hiff := hnext.carriedOnBy_iff kind
      simp [written, ← hiff]

theorem normal_cons_iff {l : Lexeme} {ls : List Lexeme} :
    Normal (l :: ls) ↔ l.kind.Spells l.chars ∧
      (∀ c ∈ (written ls).head?, l.kind.carriedOnBy c = false) ∧ Normal ls := by
  constructor
  · rintro ⟨hspelt, hapart⟩
    obtain ⟨hl, hls⟩ := List.forall_mem_cons.1 hspelt
    obtain ⟨hnext, hapart⟩ := List.isChain_cons.1 hapart
    exact ⟨hl, (carriedOn_iff hls l.kind).2 hnext, hls, hapart⟩
  · rintro ⟨hl, hstop, hls, hapart⟩
    have hnext := (carriedOn_iff hls l.kind).1 hstop
    exact ⟨List.forall_mem_cons.2 ⟨hl, hls⟩, List.isChain_cons.2 ⟨hnext, hapart⟩⟩

/-- The lexemes of a text are the normal list that is written that way. -/
theorem reads_iff {cs : List Char} {ls : List Lexeme} :
    Reads cs ls ↔ Normal ls ∧ cs = written ls := by
  constructor
  · intro h
    induction h with
    | nil => exact ⟨⟨by simp, .nil⟩, rfl⟩
    | cons hmunch _ ih =>
      obtain ⟨hnormal, rfl⟩ := ih
      obtain ⟨rfl, hspells, hstop⟩ := spells_of_munch hmunch
      exact ⟨normal_cons_iff.2 ⟨hspells, hstop, hnormal⟩, rfl⟩
  · rintro ⟨h, rfl⟩
    induction ls with
    | nil => exact .nil
    | cons l ls ih =>
      obtain ⟨hspells, hstop, hnormal⟩ := normal_cons_iff.1 h
      exact .cons (munch_of_spells hspells hstop) (ih hnormal)

def Lexeme.isWhitespace (x : Lexeme) : Bool := x.kind = .whitespace

/-- The kind and the text of a lexeme, as a token has them. -/
def Lexeme.spelling (l : Lexeme) : Token.Kind × Option String := (l.kind, some (.ofList l.chars))

end Lexer

/-- The kind and the text of a token. -/
def Token.spelling (t : Token) : Kind × Option String := (t.kind, t.text)

namespace Lexer

theorem map_spelling_place (id : String) (p : Position) (ls : List Lexeme) :
    (place id p ls).map Token.spelling = ls.map Lexeme.spelling ++ [(.eof, none)] := by
  induction ls generalizing p with
  | nil => rfl
  | cons l ls ih => simp [place, Token.spelling, Lexeme.spelling, ih]

/-- Splitting a text into tokens and joining the texts of a normal list are inverse to each other:
the tokens of a text are a normal list that joins to the text, and every normal list is read back
from what it joins to. -/
theorem lex_written_inverse :
    (∀ (source : Source) (ts : List Token), lex source = .ok ts →
      ∃ ls, Normal ls ∧ source.text = .ofList (written ls) ∧
        ts.map Token.spelling = ls.map Lexeme.spelling ++ [(.eof, none)]) ∧
    ∀ (id : String) (ls : List Lexeme), Normal ls →
      ∃ ts, lex ⟨id, .ofList (written ls)⟩ = .ok ts ∧
        ts.map Token.spelling = ls.map Lexeme.spelling ++ [(.eof, none)] := by
  constructor
  · intro source ts h
    obtain ⟨ls, hreads, rfl⟩ := lex_eq_ok_iff.1 h
    obtain ⟨hnormal, hchars⟩ := reads_iff.1 hreads
    have htext : source.text = .ofList (written ls) := by
      rw [← hchars, Source.chars, String.ofList_toList]
    exact ⟨ls, hnormal, htext, map_spelling_place _ _ _⟩
  · intro id ls h
    have hreads : Reads (⟨id, .ofList (written ls)⟩ : Source).chars ls := by
      rw [Source.chars, String.toList_ofList]
      exact reads_iff.2 ⟨h, rfl⟩
    exact ⟨_, lex_of_reads hreads, map_spelling_place _ _ _⟩

/-- The lexemes of `12x fun1 fun`. -/
private def sampleLexemes : List Lexeme :=
  [⟨.integer, ['1', '2']⟩, ⟨.identifier, ['x']⟩, ⟨.whitespace, [' ']⟩,
    ⟨.identifier, ['f', 'u', 'n', '1']⟩, ⟨.whitespace, [' ']⟩, ⟨.fn, ['f', 'u', 'n']⟩]

theorem lex_written_inverse_sample :
    Normal sampleLexemes ∧ ∃ ts, lex ⟨"sample", "12x fun1 fun"⟩ = .ok ts ∧
      ts.map Token.spelling = sampleLexemes.map Lexeme.spelling ++ [(.eof, none)] ∧
      ∃ ls, Normal ls ∧ "12x fun1 fun" = .ofList (written ls) ∧
        ts.map Token.spelling = ls.map Lexeme.spelling ++ [(.eof, none)] := by
  have hnormal : Normal sampleLexemes := by decide
  obtain ⟨ts, hlex, hspelling⟩ := lex_written_inverse.2 "sample" sampleLexemes hnormal
  exact ⟨hnormal, ts, hlex, hspelling, lex_written_inverse.1 _ ts hlex⟩

end Lexer

end FunImp
