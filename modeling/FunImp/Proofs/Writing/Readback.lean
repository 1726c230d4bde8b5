import FunImp.Proofs.Layout.Irrelevant
import FunImp.Proofs.Writing.Functions

/-! # Every abstract program can be written and is read back

The tree of a draft has no white space. The text of the draft has spaces, but layout never
matters, so that the text is read as what the tree stands for. -/

namespace FunImp

open Lexer FunImp.Tree

theorem Expr.sketch_mapLeaves {g : Leaf → Leaf} (hg : ∀ l, (g l).text = l.text) (e : Expr) :
    (e.mapLeaves g).sketch = e.sketch := by
  induction e using Expr.induct with
  | block id o children c ih =>
    simpa [mapLeaves, sketch, allSketches_eq, mapAllLeaves_eq] using ih
  | bare id child ih => exact congrArg Sketch.bare ih
  | statement id child s ih => exact congrArg Sketch.statement ih
  | binary id left op s right ihl ihr => simp [mapLeaves, sketch, ihl, ihr]
  | integer id l => exact congrArg Sketch.integer (hg l)
  | reference id l => exact congrArg Sketch.reference (hg l)
  | call id n o arguments c ih =>
    simpa [mapLeaves, sketch, argumentSketches_eq, mapArgumentLeaves_eq, Separated.items, hg] using
      fun e l h => ih (e, l) h

theorem Program.sketch_bare (p : Program) : (p.mapLeaves Leaf.bare).sketch = p.sketch := by
  have htext (l : Leaf) : l.bare.text = l.text := rfl
  have hkind (l : Leaf) : l.bare.kind = l.kind := rfl
  have hfunction (f : FunctionDecl) : (f.mapLeaves Leaf.bare).sketch = f.sketch := by
    have hpurity : (f.mapLeaves Leaf.bare).purity = f.purity := by
      cases hk : f.keyword with
      | none => simp [FunctionDecl.purity, FunctionDecl.mapLeaves, hk]
      | some k => simp [FunctionDecl.purity, FunctionDecl.mapLeaves, hk, hkind]
    rw [FunctionDecl.sketch, hpurity]
    simp [FunctionDecl.sketch, FunctionDecl.mapLeaves, ParamList.mapLeaves, Param.mapLeaves,
      TypeSpec.mapLeaves, htext, Expr.sketch_mapLeaves htext]
  simp [Program.sketch, Program.mapLeaves, hfunction]

theorem Tree.ruleDepth_bare (t : Tree) : t.bare.ruleDepth = t.ruleDepth := by
  induction t using Tree.induct with
  | node rule children ih =>
    have hchildren : children.map (fun t => t.bare.ruleDepth) = children.map ruleDepth :=
      List.map_congr_left ih
    simp [ruleDepth, forestRuleDepth_eq_foldr, Function.comp_def, hchildren]
  | leaf => rfl
  | blank => rfl

theorem isWhitespace_eq_false {x : Lexeme} (h : x.Proper) : x.isWhitespace = false :=
  decide_eq_false h.2

theorem filter_intersperse {ls : List Lexeme} (h : ∀ l ∈ ls, l.Proper) :
    (ls.intersperse ⟨.whitespace, [' ']⟩).filter (!·.isWhitespace) = ls := by
  induction ls with
  | nil => rfl
  | cons l ls ih =>
    obtain ⟨hl, hls⟩ := List.forall_mem_cons.1 h
    cases ls with
    | nil => simp [isWhitespace_eq_false hl]
    | cons next ls =>
      have hspace : Lexeme.isWhitespace ⟨.whitespace, [' ']⟩ = true := rfl
      simpa [isWhitespace_eq_false hl, hspace] using ih hls

namespace Draft

variable {d : Draft}

theorem proper_write (h : ∀ f ∈ d, f.1.Writable) : ∀ l ∈ d.write, l.Proper := by
  intro l hl
  obtain ⟨f, hf, hl⟩ := List.mem_flatMap.1 hl
  exact (h f hf).proper f.2 l hl

/-- A draft has a well-formed tree with its lexemes, which is lowered to a program with its
sketch. -/
theorem exists_wellFormed (h : ∀ f ∈ d, f.1.Writable) :
    ∃ t p, t.WellFormed ∧ significant t.tokens = d.write.map Lexeme.spelling ++ [(.eof, none)] ∧
      t.ruleDepth = d.depth ∧ lower t = .ok p ∧ p.sketch = d.map Prod.fst := by
  obtain ⟨t, p, hprogram, hleaves, hdepth, hp, hsketch⟩ := exists_tree h
  have hwf : t.WellFormed := by
    refine ⟨hprogram, fun l hl w hw => ?_⟩
    rw [hleaves, List.mem_append, List.mem_map, List.mem_singleton] at hl
    obtain ⟨x, -, rfl⟩ | rfl := hl
    · cases hw
    · cases hw
  have htokens : t.tokens.map Token.spelling = d.write.map Lexeme.spelling ++ [(.eof, none)] := by
    have hlexeme (x : Lexeme) : x.leaf.tokens.map Token.spelling = [x.spelling] := rfl
    have heof : eofLeaf.tokens.map Token.spelling = [(.eof, none)] := rfl
    have hwrite : d.write.map Lexeme.spelling = d.write.flatMap fun x => [x.spelling] :=
      List.map_eq_flatMap
    simp [hprogram.tokens_eq, hleaves, List.map_flatMap, List.flatMap_map, hlexeme, heof, hwrite]
  refine ⟨t, p, hwf, ?_, hdepth, hp, hsketch⟩
  rw [significant_of_spelling htokens, List.filter_eq_self.2]
  exact fun l hl => by simp [isWhitespace_eq_false (proper_write h l hl)]

variable {ts : List Token} (hts : significant ts = d.write.map Lexeme.spelling ++ [(.eof, none)])
include hts

/-- Whatever the white space between its lexemes is, a draft parses if and only if the rules that
it nests are not too many. -/
theorem exists_parse_eq_ok_iff (h : ∀ f ∈ d, f.1.Writable) (source : Source) :
    (∃ t, parse ts source = .ok t) ↔ d.depth ≤ maxDepth := by
  obtain ⟨t₀, -, hwf, hts₀, hdepth, -⟩ := exists_wellFormed h
  have hanswer : Parser.bareAnswer (parse ts source) = Parser.bareAnswer (parse t₀.tokens source) :=
    parse_bare (skeleton_eq_of_significant (hts.trans hts₀.symm))
  rw [← hdepth]
  constructor
  · rintro ⟨t, ht⟩
    rw [ht] at hanswer
    generalize hr : parse t₀.tokens source = r at hanswer
    cases r with
    | error e => cases hanswer
    | ok u =>
      obtain ⟨hu, hle, htokens⟩ := wellFormed_of_parse_eq_ok hr
      rw [hwf.throughEnd_tokens] at htokens
      rwa [← hu.eq_of_tokens_eq hwf htokens]
  · intro hle
    rw [parse_eq_ok_of_wellFormed hwf hle (hwf.throughEnd_tokens source).symm] at hanswer
    generalize parse ts source = r at hanswer
    cases r with
    | error e => cases hanswer
    | ok t => exact ⟨t, rfl⟩

/-- Whatever the white space between its lexemes is, a draft is read as what was written. -/
theorem exists_lower_of_parse (h : ∀ f ∈ d, f.1.Writable) {source : Source} {t : Tree}
    (ht : parse ts source = .ok t) :
    t.ruleDepth = d.depth ∧ ∃ p, lower t = .ok p ∧ p.sketch = d.map Prod.fst := by
  obtain ⟨t₀, p₀, hwf, hts₀, hdepth, hp₀, hsketch⟩ := exists_wellFormed h
  have hle : t₀.ruleDepth ≤ maxDepth :=
    hdepth ▸ (exists_parse_eq_ok_iff hts h source).1 ⟨t, ht⟩
  have hanswer : Parser.bareAnswer (parse ts source) = Parser.bareAnswer (parse t₀.tokens source) :=
    parse_bare (skeleton_eq_of_significant (hts.trans hts₀.symm))
  rw [ht, parse_eq_ok_of_wellFormed hwf hle (hwf.throughEnd_tokens source).symm] at hanswer
  have hbare : t.bare = t₀.bare := Except.ok.inj hanswer
  obtain ⟨p, hp⟩ := (wellFormed_of_parse_eq_ok ht).1.isProgram.lower_eq_ok
  have hprogram : p.mapLeaves Leaf.bare = p₀.mapLeaves Leaf.bare :=
    Except.ok.inj ((lower_bare hp).symm.trans (hbare ▸ lower_bare hp₀))
  refine ⟨?_, p, hp, ?_⟩
  · rw [← t.ruleDepth_bare, hbare, t₀.ruleDepth_bare, hdepth]
  · rw [← p.sketch_bare, hprogram, p₀.sketch_bare, hsketch]

end Draft

/-- Every abstract program can be written and is read back as itself: if the rules that its text
nests are not too many, the text has tokens, a tree and a program, and the program is the one that
was written. If they are too many, the text has tokens but no tree. -/
theorem draft_read_back (id : String) (d : Draft) (h : ∀ f ∈ d, f.1.Writable) :
    ∃ ts, lex ⟨id, d.text⟩ = .ok ts ∧
      (d.depth ≤ maxDepth → ∃ t p, parse ts ⟨id, d.text⟩ = .ok t ∧ t.ruleDepth = d.depth ∧
        lower t = .ok p ∧ p.sketch = d.map Prod.fst) ∧
      ((∃ t, parse ts ⟨id, d.text⟩ = .ok t) → d.depth ≤ maxDepth) := by
  have hproper := Draft.proper_write h
  have hreads : Reads (⟨id, d.text⟩ : Source).chars (d.write.intersperse ⟨.whitespace, [' ']⟩) := by
    rw [Source.chars, Draft.text, String.toList_ofList]
    exact reads_iff.2 ⟨normal_intersperse hproper, rfl⟩
  have hts := significant_of_spelling (map_spelling_place id .origin
    (d.write.intersperse ⟨.whitespace, [' ']⟩))
  rw [filter_intersperse hproper] at hts
  have hparses := Draft.exists_parse_eq_ok_iff hts h ⟨id, d.text⟩
  refine ⟨_, lex_of_reads hreads, fun hdepth => ?_, hparses.1⟩
  obtain ⟨t, ht⟩ := hparses.2 hdepth
  obtain ⟨htree, p, hp, hsketch⟩ := Draft.exists_lower_of_parse hts h ht
  exact ⟨t, p, ht, htree, hp, hsketch⟩

private def sampleDraft : Draft :=
  [(⟨.impure, "main", [], "void", .block [
      .statement (.bare (.call "f" [
        .bare (.binary (.integer "1") .add (.binary (.reference "x") .multiply (.integer "2"))),
        .block []])),
      .block [.bare (.reference "y")], .bare (.integer "7")]⟩, false),
    (⟨.pure, "f", [("x", "int"), ("y", "void")], "int", .block []⟩, true),
    (⟨.pure, "g", [], "int", .block [.bare (.reference "x")]⟩, false)]

private theorem writable_sampleDraft : ∀ f ∈ sampleDraft, f.1.Writable := by
  have hx : Sketch.Writable .body (.bare (.reference "x")) := .bare (.reference (by decide))
  have hy : Sketch.Writable .body (.bare (.reference "y")) := .bare (.reference (by decide))
  have hseven : Sketch.Writable .body (.bare (.integer "7")) := .bare (.integer (by decide))
  have hempty : Sketch.Writable .body (.block []) := .block (by simp)
  have hproduct : Sketch.Writable .term (.binary (.reference "x") .multiply (.integer "2")) :=
    .binary (.reference (by decide)) (.integer (by decide)) (by decide) (by decide)
  have hsum : Sketch.Writable .body (.bare (.binary (.integer "1") .add _)) :=
    .bare (.binary (.integer (by decide)) hproduct (by decide) (by decide))
  have hcall : Sketch.Writable .body (.bare (.call "f" [_, _])) :=
    .bare (.call (by decide) (by simpa using ⟨hsum, hempty⟩))
  have hinner : Sketch.Writable .body (.block [.bare (.reference "y")]) :=
    .block (List.forall_mem_singleton.2 (.unterminated hy))
  have hmain : Sketch.Writable .body (.block [.statement (.bare (.call "f" [_, _])), _, _]) :=
    .block (by simpa using ⟨.terminated hcall, .unterminated hinner, .unterminated hseven⟩)
  refine List.forall_mem_cons.2 ⟨⟨by decide, by simp, by decide, ⟨_, rfl⟩, hmain⟩, ?_⟩
  refine List.forall_mem_cons.2 ⟨⟨by decide, by decide, by decide, ⟨_, rfl⟩, hempty⟩, ?_⟩
  refine List.forall_mem_singleton.2 ⟨by decide, by simp, by decide, ⟨_, rfl⟩, ?_⟩
  exact .block (List.forall_mem_singleton.2 (.unterminated hx))

theorem draft_read_back_sample :
    (∀ f ∈ sampleDraft, f.1.Writable) ∧ sampleDraft.depth ≤ maxDepth ∧
      sampleDraft.text =
        "imp main ( ) : void \x7b f ( 1 + x * 2 , \x7b \x7d ) ; \x7b y \x7d 7 \x7d " ++
        "fun f ( x : int , y : void ) : int \x7b \x7d g ( ) : int \x7b x \x7d" ∧
      ∃ ts t p, lex ⟨"sample", sampleDraft.text⟩ = .ok ts ∧
        parse ts ⟨"sample", sampleDraft.text⟩ = .ok t ∧ lower t = .ok p ∧
        p.sketch = sampleDraft.map Prod.fst := by
  have hdepth : sampleDraft.depth ≤ maxDepth := by decide
  obtain ⟨ts, hts, hread, -⟩ := draft_read_back "sample" sampleDraft writable_sampleDraft
  obtain ⟨t, p, ht, -, hp, hsketch⟩ := hread hdepth
  exact ⟨writable_sampleDraft, hdepth, by decide, ts, t, p, hts, ht, hp, hsketch⟩

end FunImp
