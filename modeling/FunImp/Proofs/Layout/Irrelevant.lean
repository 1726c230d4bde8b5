import FunImp.Proofs.Layout.Checking
import FunImp.Proofs.Layout.Lowering
import FunImp.Proofs.Lexing.Normal
import FunImp.Proofs.Lowering.Chains

/-! # Layout never matters

Two texts with the same tokens, white space and places aside, come to the same trees, the same
programs and the same verdicts, white space and places aside. -/

namespace FunImp

/-- Both token lists were parsed, or both were not, and for the same reason. -/
inductive SameReading : Except SyntaxError Tree → Except SyntaxError Tree → Prop where
  | trees (t t' : Tree) : SameReading (.ok t) (.ok t')
  | errors {e e' : SyntaxError} (expected : e.expected = e'.expected)
      (kind : e.found.kind = e'.found.kind) (text : e.found.text = e'.found.text)
      (rules : e.rules = e'.rules) (depthLimit : e.depthLimit = e'.depthLimit) :
      SameReading (.error e) (.error e')

/-- Both programs are valid and have the same types, or both have the same faults. -/
inductive SameVerdict :
    Except (List SemanticError) TypedProgram → Except (List SemanticError) TypedProgram →
    Prop where
  | types {y y' : TypedProgram} (h : y.types = y'.types) : SameVerdict (.ok y) (.ok y')
  | faults {es es' : List SemanticError}
      (h : es.map SemanticError.fault = es'.map SemanticError.fault) :
      SameVerdict (.error es) (.error es')

theorem sameReading_of_bareAnswer {r r' : Except SyntaxError Tree}
    (h : Parser.bareAnswer r = Parser.bareAnswer r') : SameReading r r' := by
  cases r with
  | ok t =>
    cases r' with
    | ok t' => exact .trees t t'
    | error e' => cases h
  | error e =>
    cases r' with
    | ok t' => cases h
    | error e' =>
      obtain ⟨obstacle, found, rules⟩ := e
      obtain ⟨obstacle', found', rules'⟩ := e'
      obtain ⟨rfl, hfound, rfl⟩ := SyntaxError.mk.inj (Except.error.inj h)
      have hunplaced : found.unplaced = found'.unplaced := hfound
      obtain ⟨hkind, htext, -, -⟩ := Token.mk.inj hunplaced
      exact .errors rfl hkind htext rfl rfl

theorem faults_bare (es : List SemanticError) :
    (es.map SemanticError.bare).map SemanticError.fault = es.map SemanticError.fault := by
  rw [List.map_map]
  rfl

theorem sameVerdict_of_bare (options : Options) {p p' : Program}
    (h : p.mapLeaves Leaf.bare = p'.mapLeaves Leaf.bare) :
    SameVerdict (validate options p) (validate options p') := by
  have hverdict := (validate_bare options p).symm.trans
    ((congrArg (validate options) h).trans (validate_bare options p'))
  generalize validate options p = v at hverdict ⊢
  generalize validate options p' = v' at hverdict ⊢
  cases v with
  | ok y =>
    cases v' with
    | ok y' => exact .types (TypedProgram.mk.inj (Except.ok.inj hverdict)).2
    | error es' => cases hverdict
  | error es =>
    cases v' with
    | ok y' => cases hverdict
    | error es' =>
      have hfaults := congrArg (List.map SemanticError.fault) (Except.error.inj hverdict)
      rw [faults_bare, faults_bare] at hfaults
      exact .faults hfaults

/-- The kinds and texts of the tokens other than white space. -/
def significant (ts : List Token) : List (Token.Kind × Option String) :=
  (ts.filter (!·.isWhitespace)).map Token.spelling

theorem significant_of_spelling {ts : List Token} {ls : List Lexer.Lexeme}
    (h : ts.map Token.spelling = ls.map Lexer.Lexeme.spelling ++ [(.eof, none)]) :
    significant ts = (ls.filter (!·.isWhitespace)).map Lexer.Lexeme.spelling ++ [(.eof, none)] := by
  have hfilter : significant ts =
      (ts.map Token.spelling).filter fun s => !decide (s.1 = .whitespace) := by
    rw [List.filter_map]
    rfl
  rw [hfilter, h, List.filter_append, List.filter_map]
  rfl

theorem skeleton_eq_of_significant {ts ts' : List Token} (h : significant ts = significant ts') :
    skeleton ts = skeleton ts' := by
  have hskeleton (us : List Token) :
      skeleton us = (significant us).map fun s => ⟨s.1, s.2, default, ""⟩ := by
    rw [significant, List.map_map]
    rfl
  rw [hskeleton, hskeleton, h]

/-- Layout never matters. If two texts have the same tokens but for white space and places, both
parse or both fail alike. The programs of their trees are the same but for white space and places,
and validation finds the same types or the same faults in them. -/
theorem layout_irrelevant :
    ∀ (source source' : Source) (ts ts' : List Token), lex source = .ok ts →
      lex source' = .ok ts' → significant ts = significant ts' →
      SameReading (parse ts source) (parse ts' source') ∧
      ∀ t t', parse ts source = .ok t → parse ts' source' = .ok t' →
        ∃ p p', lower t = .ok p ∧ lower t' = .ok p' ∧
          p.mapLeaves Leaf.bare = p'.mapLeaves Leaf.bare ∧
          ∀ options, SameVerdict (validate options p) (validate options p') := by
  intro source source' ts ts' _ _ h
  have hparse : Parser.bareAnswer (parse ts source) = Parser.bareAnswer (parse ts' source') :=
    parse_bare (skeleton_eq_of_significant h)
  refine ⟨sameReading_of_bareAnswer hparse, fun t t' ht ht' => ?_⟩
  rw [ht, ht'] at hparse
  have htrees : t.bare = t'.bare := Except.ok.inj hparse
  obtain ⟨p, hp⟩ := (wellFormed_of_parse_eq_ok ht).1.isProgram.lower_eq_ok
  obtain ⟨p', hp'⟩ := (wellFormed_of_parse_eq_ok ht').1.isProgram.lower_eq_ok
  have hprograms : p.mapLeaves Leaf.bare = p'.mapLeaves Leaf.bare := by
    have hbare := lower_bare hp
    rw [htrees, lower_bare hp'] at hbare
    exact (Except.ok.inj hbare).symm
  exact ⟨p, p', hp, hp', hprograms, fun options => sameVerdict_of_bare options hprograms⟩

open Lexer

/-- The text of `chainSource 0` with other white space. -/
private def spacedSource : Source := ⟨"spaced", "f ( ) :\n  int \x7b 1 \x7d\n"⟩

private def spacedLexemes : List Lexeme :=
  [⟨.identifier, ['f']⟩, ⟨.whitespace, [' ']⟩, ⟨.leftParen, ['(']⟩, ⟨.whitespace, [' ']⟩,
    ⟨.rightParen, [')']⟩, ⟨.whitespace, [' ']⟩, ⟨.colon, [':']⟩, ⟨.whitespace, ['\n', ' ', ' ']⟩,
    ⟨.identifier, ['i', 'n', 't']⟩, ⟨.whitespace, [' ']⟩, ⟨.leftBrace, ['\x7b']⟩,
    ⟨.whitespace, [' ']⟩, ⟨.integer, ['1']⟩, ⟨.whitespace, [' ']⟩, ⟨.rightBrace, ['\x7d']⟩,
    ⟨.whitespace, ['\n']⟩]

theorem layout_irrelevant_sample :
    ∃ ts ts' t t' p p', lex (chainSource 0) = .ok ts ∧ lex spacedSource = .ok ts' ∧
      significant ts = significant ts' ∧ parse ts (chainSource 0) = .ok t ∧
      parse ts' spacedSource = .ok t' ∧ lower t = .ok p ∧ lower t' = .ok p' ∧
      p.mapLeaves Leaf.bare = p'.mapLeaves Leaf.bare ∧
      SameVerdict (validate default p) (validate default p') := by
  have hlex := lex_of_reads (reads_chainSource 0)
  have hspaced : lex spacedSource = .ok (place "spaced" .origin spacedLexemes) :=
    lex_of_reads (reads_iff.2 ⟨by decide, by decide⟩)
  obtain ⟨hreading, hprograms⟩ := layout_irrelevant _ _ _ _ hlex hspaced rfl
  obtain ⟨c, hlex', -⟩ := lex_chainSource 0
  have ht := c.parse_tokens (chainSource 0)
  rw [← Except.ok.inj (hlex.symm.trans hlex')] at ht
  rw [ht] at hreading
  generalize hr : parse _ spacedSource = r at hreading
  cases hreading with
  | trees t t' =>
    obtain ⟨p, p', hp, hp', hbare, hverdict⟩ := hprograms _ _ ht hr
    exact ⟨_, _, _, _, p, p', hlex, hspaced, rfl, ht, hr, hp, hp', hbare, hverdict default⟩

end FunImp
