import FunImp.Proofs.Grammar.Completeness
import FunImp.Tree.Parser

/-! # Parsing and the trees of the grammar

Token lists that parse and well-formed trees of bounded depth are in one-to-one correspondence:
`parse` goes one way and `Tree.tokens` the other. -/

namespace FunImp

namespace Leaf

/-- The token is significant, and what stands in front of it is white space. -/
def Tidy (l : Leaf) : Prop :=
  (∀ w ∈ l.leading, w.kind = .whitespace) ∧ l.kind ≠ .whitespace

/-- Without white space the tokens of tidy leaves are their own. -/
theorem filter_tokens {ls : List Leaf} (h : ∀ l ∈ ls, l.Tidy) :
    (ls.flatMap tokens).filter (!·.isWhitespace) = ls.map token := by
  induction ls with
  | nil => rfl
  | cons l ls ih =>
    obtain ⟨⟨hblanks, hkind⟩, hls⟩ := List.forall_mem_cons.1 h
    have hleading : l.leading.filter (!·.isWhitespace) = [] := by
      simpa [Token.isWhitespace] using hblanks
    have htoken : l.token.isWhitespace = false := decide_eq_false hkind
    simp [tokens, hleading, htoken, ih hls]

private theorem gatherOnto_leaves {done : List Leaf} {leading ts ws : List Token} {ls : List Leaf}
    (h : gatherOnto leading done ts = (ls, ws)) (hd : ∀ l ∈ done, l.Tidy)
    (hl : ∀ w ∈ leading, w.kind = .whitespace) :
    (done.reverse.flatMap tokens ++ leading.reverse ++ ts = ls.flatMap tokens ++ ws) ∧
      (∀ l ∈ ls, l.Tidy) ∧ ∀ w ∈ ws, w.kind = .whitespace := by
  induction ts generalizing leading done with
  | nil =>
    simp only [gatherOnto, Prod.mk.injEq] at h
    obtain ⟨rfl, rfl⟩ := h
    simpa using ⟨hd, hl⟩
  | cons t ts ih =>
    by_cases ht : t.kind = .whitespace
    · rw [gatherOnto, if_pos (by simpa [Token.isWhitespace] using ht)] at h
      simpa using ih h hd (List.forall_mem_cons.2 ⟨ht, hl⟩)
    · rw [gatherOnto, if_neg (by simpa [Token.isWhitespace] using ht)] at h
      have hleaf : Tidy ⟨leading.reverse, t⟩ := ⟨by simpa using hl, ht⟩
      simpa [tokens] using ih h (List.forall_mem_cons.2 ⟨hleaf, hd⟩) (by simp)

/-- Gathering keeps every token and leaves none but white space behind the last leaf. -/
theorem gather_spec (ts : List Token) :
    ts = (gather ts).1.flatMap tokens ++ (gather ts).2 ∧
      (∀ l ∈ (gather ts).1, l.Tidy) ∧ ∀ w ∈ (gather ts).2, w.kind = .whitespace := by
  obtain ⟨split, tidy, blank⟩ :=
    gatherOnto_leaves (rfl : gatherOnto [] [] ts = gather ts) (by simp) (by simp)
  exact ⟨split, tidy, blank⟩

private theorem gatherOnto_blanks {us : List Token} (h : ∀ w ∈ us, w.kind = .whitespace)
    (leading : List Token) (done : List Leaf) (ts : List Token) :
    gatherOnto leading done (us ++ ts) = gatherOnto (us.reverse ++ leading) done ts := by
  induction us generalizing leading with
  | nil => rfl
  | cons u us ih =>
    obtain ⟨hu, hus⟩ := List.forall_mem_cons.1 h
    rw [List.cons_append, gatherOnto, if_pos (by simpa [Token.isWhitespace] using hu), ih hus]
    simp

private theorem gatherOnto_leaf {l : Leaf} (h : l.Tidy) (done : List Leaf) (ts : List Token) :
    gatherOnto [] done (l.tokens ++ ts) = gatherOnto [] (l :: done) ts := by
  have hkind : l.token.isWhitespace = false := decide_eq_false h.2
  simp [tokens, gatherOnto_blanks h.1, gatherOnto, hkind]

/-- Leaves are gathered back from their tokens. -/
theorem gather_tokens {ls : List Leaf} {ws : List Token} (hl : ∀ l ∈ ls, l.Tidy)
    (hw : ∀ w ∈ ws, w.kind = .whitespace) : gather (ls.flatMap tokens ++ ws) = (ls, ws) := by
  have hrun (done : List Leaf) :
      gatherOnto [] done (ls.flatMap tokens ++ ws) = (done.reverse ++ ls, ws) := by
    induction ls generalizing done with
    | nil =>
      have hblanks := gatherOnto_blanks hw [] done []
      simpa [gatherOnto] using hblanks
    | cons l ls ih =>
      obtain ⟨hl, hls⟩ := List.forall_mem_cons.1 hl
      rw [List.flatMap_cons, List.append_assoc, gatherOnto_leaf hl, ih hls]
      simp
  exact hrun []

end Leaf

/-- The tokens up to the first end of input. If there is none, the input ends where the source
ends. -/
def throughEnd (source : Source) (tokens : List Token) : List Token :=
  tokens.takeWhile (·.kind ≠ .eof) ++
    [(tokens.find? (·.kind = .eof)).getD ⟨.eof, none, source.finish, source.id⟩]

theorem throughEnd_append_end {ts : List Token} {e : Token} (source : Source)
    (hts : ∀ t ∈ ts, t.kind ≠ .eof) (he : e.kind = .eof) :
    throughEnd source (ts ++ [e]) = ts ++ [e] := by
  have htake : (ts ++ [e]).takeWhile (·.kind ≠ .eof) = ts := by
    rw [List.takeWhile_append_of_pos (by simpa using hts)]
    simp [he]
  have hfind : (ts ++ [e]).find? (·.kind = .eof) = some e := by
    rw [List.find?_append, List.find?_eq_none.2 (by simpa using hts)]
    simp [he]
  rw [throughEnd, htake, hfind, Option.getD_some]

namespace Parser

/-- What a parser starts with: tidy leaves none of which is an end, white space, and the end. -/
theorem ofTokens_spec (tokens : List Token) (source : Source) :
    ∃ ls ws e, ofTokens tokens source = ⟨[], ls, ws, e⟩ ∧
      (∀ l ∈ ls, l.Tidy ∧ l.kind ≠ .eof) ∧ (∀ w ∈ ws, w.kind = .whitespace) ∧ e.kind = .eof ∧
      throughEnd source tokens = ls.flatMap Leaf.tokens ++ ws ++ [e] := by
  let front := tokens.takeWhile (·.kind ≠ .eof)
  obtain ⟨hfront, htidy, hblank⟩ := Leaf.gather_spec front
  have hmem : ∀ t ∈ front, t.kind ≠ .eof := by
    intro t ht
    simpa using List.all_eq_true.1 (List.all_takeWhile (l := tokens)) t ht
  refine ⟨_, _, _, rfl, fun l hl => ⟨htidy l hl, hmem _ ?_⟩, hblank, ?_, ?_⟩
  · rw [hfront]
    exact List.mem_append_left _ (List.mem_flatMap.2 ⟨l, hl, by simp [Leaf.tokens]⟩)
  · cases hfind : tokens.find? (·.kind = .eof) with
    | none => rfl
    | some e => simpa using List.find?_some hfind
  · exact congrArg (· ++ [_]) hfront

/-- A parser that left no rules open has one level for the program and the rest for functions. -/
theorem run_program_eq_ok {ls rest : List Leaf} {ws : List Token} {e : Token} {t : Tree} :
    (program ⟨[], ls, ws, e⟩).run ls = .ok (t, rest) ↔
      ∃ fs, (Tree.functions 127).run ls = .ok (fs, rest) ∧
        t = .node .program (fs ++ [Tree.ofLeaf ⟨ws, e⟩]) := by
  simp only [program, programUpTo, maxDepth, List.length_nil, Nat.sub_zero, Tree.opened,
    Tree.Reader.run_within_eq_ok, Tree.Reader.run_bind_eq_ok, Tree.Reader.run_pure_eq_ok]
  constructor
  · rintro ⟨fs, _, hfs, rfl, rfl⟩
    exact ⟨fs, hfs, rfl⟩
  · rintro ⟨fs, hfs, rfl⟩
    exact ⟨fs, rest, hfs, rfl, rfl⟩

end Parser

theorem parse_eq_ok_iff_run {tokens : List Token} {source : Source} {t : Tree} :
    parse tokens source = .ok t ↔
      ∃ rest, (Parser.ofTokens tokens source).program.run (Parser.ofTokens tokens source).leaves =
        .ok (t, rest) := by
  rw [parse, Parser.readProgram_eq]
  cases (Parser.ofTokens tokens source).program.run (Parser.ofTokens tokens source).leaves with
  | error e => simp
  | ok r => simp [Prod.ext_iff]

namespace Tree

/-- The leaves in front of the end of a program are tidy, and none of them is an end of input. -/
theorem WellFormed.split {t : Tree} (h : t.WellFormed) :
    ∃ functions leading eof, t = node .program (functions ++ [ofLeaf ⟨leading, eof⟩]) ∧
      (∀ f ∈ functions, IsFunction f) ∧ eof.kind = .eof ∧ (∀ w ∈ leading, w.kind = .whitespace) ∧
      (∀ l ∈ forestLeaves functions, l.Tidy ∧ l.kind ≠ .eof) ∧
      t.tokens = (forestLeaves functions).flatMap Leaf.tokens ++ leading ++ [eof] := by
  obtain ⟨hprogram, hblanks⟩ := h
  have htokens := hprogram.tokens_eq
  obtain @⟨functions, _, hf, ⟨leading, eof⟩, rfl, he⟩ := hprogram
  have hleaves : (node .program (functions ++ [ofLeaf ⟨leading, eof⟩])).leaves =
      forestLeaves functions ++ [⟨leading, eof⟩] := by simp [leaves, forestLeaves]
  rw [hleaves] at hblanks htokens
  obtain ⟨hblanks, hleading⟩ := List.forall_mem_append.1 hblanks
  refine ⟨functions, leading, eof, rfl, hf, by simpa [Leaf.kind] using he, by simpa using hleading,
    fun l hl => ?_, by simpa [Leaf.tokens] using htokens⟩
  obtain ⟨f, hm, hlf⟩ := mem_forestLeaves.1 hl
  obtain ⟨heof, hblank⟩ := (hf f hm).of_hereditary hereditary_kinds l hlf
  exact ⟨⟨hblanks l hl, hblank⟩, heof⟩

theorem wellFormed_program {functions : List Tree} {leading : List Token} {eof : Token}
    (hf : ∀ f ∈ functions, IsFunction f) (he : eof.kind = .eof)
    (hleading : ∀ w ∈ leading, w.kind = .whitespace)
    (hleaves : ∀ l ∈ forestLeaves functions, l.Tidy) :
    (node .program (functions ++ [ofLeaf ⟨leading, eof⟩])).WellFormed where
  isProgram := .mk hf ⟨_, rfl, by simpa [Leaf.kind] using he⟩
  blanks := by
    simp only [leaves, forestLeaves_append, List.forall_mem_append]
    exact ⟨fun l hl => (hleaves l hl).1, by simpa [forestLeaves] using hleading⟩

/-- The grammar is unambiguous: a well-formed tree is told by its tokens, however deep it is. -/
theorem WellFormed.eq_of_tokens_eq {t u : Tree} (ht : t.WellFormed) (hu : u.WellFormed)
    (h : t.tokens = u.tokens) : t = u := by
  obtain ⟨fs, leading, eof, rfl, hf, -, hleading, hleaves, hsplit⟩ := ht.split
  obtain ⟨gs, leading', eof', rfl, hg, -, hleading', hleaves', hsplit'⟩ := hu.split
  rw [hsplit, hsplit'] at h
  obtain ⟨hfront, hend⟩ := List.append_inj' h rfl
  have hgather := Leaf.gather_tokens (fun l hl => (hleaves l hl).1) hleading
  rw [hfront, Leaf.gather_tokens (fun l hl => (hleaves' l hl).1) hleading'] at hgather
  obtain ⟨hsame, rfl⟩ := Prod.mk.inj hgather
  obtain rfl := List.singleton_inj.1 hend
  -- With enough budget for both, one reader answers both from the same leaves.
  let budget := max (forestRuleDepth fs) (forestRuleDepth gs)
  have hfs : (functions budget).run (forestLeaves fs ++ []) = .ok (fs, []) :=
    run_functions hf (forestRuleDepth_le_iff.1 (Nat.le_max_left _ _)) rfl
  have hgs : (functions budget).run (forestLeaves gs ++ []) = .ok (gs, []) :=
    run_functions hg (forestRuleDepth_le_iff.1 (Nat.le_max_right _ _)) rfl
  rw [hsame, hfs] at hgs
  cases hgs
  rfl

end Tree

theorem wellFormed_of_parse_eq_ok {tokens : List Token} {source : Source} {t : Tree}
    (h : parse tokens source = .ok t) :
    t.WellFormed ∧ t.ruleDepth ≤ maxDepth ∧ t.tokens = throughEnd source tokens := by
  obtain ⟨ls, ws, e, hparser, hls, hws, he, htokens⟩ := Parser.ofTokens_spec tokens source
  rw [parse_eq_ok_iff_run, hparser] at h
  obtain ⟨rest, hrun⟩ := h
  obtain ⟨fs, hfs, rfl⟩ := Parser.run_program_eq_ok.1 hrun
  obtain ⟨hfunctions, rfl, hnext⟩ := Tree.functions_of_run hfs
  obtain rfl : rest = [] := by
    cases rest with
    | nil => rfl
    | cons l rest => exact absurd hnext (hls l (by simp)).2
  rw [List.append_nil] at hls htokens
  have hwf := Tree.wellFormed_program (fun f hm => (hfunctions f hm).1) he hws
    fun l hl => (hls l hl).1
  have hdepth : ∀ t ∈ fs ++ [Tree.ofLeaf ⟨ws, e⟩], t.ruleDepth ≤ 127 :=
    List.forall_mem_append.2 ⟨fun f hm => (hfunctions f hm).2, by simp⟩
  refine ⟨hwf, (Tree.ruleDepth_node_le_succ rfl).2 hdepth, ?_⟩
  rw [hwf.isProgram.tokens_eq, htokens]
  simp [Tree.leaves, Tree.forestLeaves, Leaf.tokens]

theorem parse_eq_ok_of_wellFormed {tokens : List Token} {source : Source} {t : Tree}
    (h : t.WellFormed) (hd : t.ruleDepth ≤ maxDepth) (ht : t.tokens = throughEnd source tokens) :
    parse tokens source = .ok t := by
  obtain ⟨functions, leading, eof, rfl, hf, he, hleading, hleaves, hsplit⟩ := h.split
  obtain ⟨ls, ws, e, hparser, hls, hws, -, htokens⟩ := Parser.ofTokens_spec tokens source
  rw [hsplit, htokens] at ht
  obtain ⟨hfront, hend⟩ := List.append_inj' ht rfl
  have hgather := Leaf.gather_tokens (fun l hl => (hls l hl).1) hws
  rw [← hfront, Leaf.gather_tokens (fun l hl => (hleaves l hl).1) hleading] at hgather
  obtain ⟨rfl, rfl⟩ := Prod.mk.inj hgather
  obtain rfl := List.singleton_inj.1 hend
  have hdepth : ∀ f ∈ functions, f.ruleDepth ≤ 127 := fun f hm =>
    (Tree.ruleDepth_node_le_succ rfl).1 hd f (List.mem_append_left _ hm)
  have hrun : (Tree.functions 127).run (Tree.forestLeaves functions) = .ok (functions, []) := by
    simpa using Tree.run_functions hf hdepth (rfl : Tree.Reader.kindOfNext [] = .eof)
  rw [parse_eq_ok_iff_run, hparser]
  exact ⟨[], Parser.run_program_eq_ok.2 ⟨functions, hrun, rfl⟩⟩

/-- Token lists that parse are the tokens of well-formed trees of bounded depth. -/
theorem parse_eq_ok_iff {tokens : List Token} {source : Source} {t : Tree} :
    parse tokens source = .ok t ↔
      t.WellFormed ∧ t.ruleDepth ≤ maxDepth ∧ t.tokens = throughEnd source tokens :=
  ⟨wellFormed_of_parse_eq_ok, fun ⟨h, hd, ht⟩ => parse_eq_ok_of_wellFormed h hd ht⟩

theorem Tree.WellFormed.throughEnd_tokens {t : Tree} (h : t.WellFormed) (source : Source) :
    throughEnd source t.tokens = t.tokens := by
  obtain ⟨functions, leading, eof, -, -, he, hleading, hleaves, hsplit⟩ := h.split
  rw [hsplit, throughEnd_append_end source ?_ he]
  refine List.forall_mem_append.2 ⟨fun t ht => ?_, fun w hw => by simp [hleading w hw]⟩
  obtain ⟨l, hl, ht⟩ := List.mem_flatMap.1 ht
  rcases List.mem_append.1 ht with hblank | htoken
  · simp [(hleaves l hl).1.1 t hblank]
  · rw [List.mem_singleton.1 htoken]
    exact (hleaves l hl).2

/-- Parsing and writing out the tokens are inverse to each other: what parses to a tree are the
tokens of that tree, and every well-formed tree of bounded depth is parsed from its tokens. -/
theorem parse_tokens_inverse (source : Source) :
    (∀ tokens t, parse tokens source = .ok t →
      t.WellFormed ∧ t.ruleDepth ≤ maxDepth ∧ t.tokens = throughEnd source tokens) ∧
    ∀ t : Tree, t.WellFormed → t.ruleDepth ≤ maxDepth → parse t.tokens source = .ok t := by
  refine ⟨fun tokens t => wellFormed_of_parse_eq_ok, fun t h hd => ?_⟩
  exact parse_eq_ok_of_wellFormed h hd (h.throughEnd_tokens source).symm

namespace Tree

private def word (kind : Token.Kind) (text : String) : Tree :=
  ofLeaf ⟨[], ⟨kind, some text, default, "sample"⟩⟩

private def spacedWord (kind : Token.Kind) (text : String) : Tree :=
  ofLeaf ⟨[⟨.whitespace, some " ", default, "sample"⟩], ⟨kind, some text, default, "sample"⟩⟩

/-- The sum `1 + x` as an argument. -/
private def sampleSum : Tree :=
  node .blocklessExpression [node .term
    [node .factor [node .element [word .integer "1"]], spacedWord .plus "+",
      node .factor [node .element [spacedWord .identifier "x"]]]]

/-- The block ` { g(1 + x); }`. -/
private def sampleBlock : Tree :=
  node .blockExpression [spacedWord .leftBrace "\x7b",
    node .statement [node .blocklessExpression [node .term [node .factor
      [node .functionCall [spacedWord .identifier "g",
        node .argumentList [word .leftParen "(", sampleSum, word .rightParen ")"]]]]],
      word .semicolon ";"],
    spacedWord .rightBrace "\x7d"]

/-- The program `imp f(): void { g(1 + x); }`. -/
private def sample : Tree :=
  node .program [node .impureFunction [word .imp "imp", spacedWord .identifier "f",
    node .paramList [word .leftParen "(", word .rightParen ")"], word .colon ":",
    spacedWord .identifier "void", sampleBlock],
    ofLeaf ⟨[], ⟨.eof, none, default, "sample"⟩⟩]

private theorem isLeaf_word (kind : Token.Kind) (text : String) :
    IsLeaf [kind] (word kind text) :=
  ⟨_, rfl, List.mem_singleton.2 rfl⟩

private theorem isLeaf_spacedWord (kind : Token.Kind) (text : String) :
    IsLeaf [kind] (spacedWord kind text) :=
  ⟨_, rfl, List.mem_singleton.2 rfl⟩

private theorem fits_factor_singleton {element : Tree} (h : Fits .element element) :
    Fits .factor (node .factor [element]) :=
  @Fits.factor element [] h (by simp) (by simp)

private theorem fits_sampleSum : Fits .expression sampleSum := by
  have hone : Fits .element (node .element [word .integer "1"]) := .element ⟨_, rfl, by decide⟩
  have hx : Fits .element (node .element [spacedWord .identifier "x"]) :=
    .element ⟨_, rfl, by decide⟩
  have hplus : IsLeaf [.plus, .minus] (spacedWord .plus "+") := ⟨_, rfl, by decide⟩
  refine .bare (.blockless (@Fits.term _ [(_, _)] (fits_factor_singleton hone) ?_ ?_))
  · exact List.forall_mem_singleton.2 hplus
  · exact List.forall_mem_singleton.2 (fits_factor_singleton hx)

private theorem fits_sampleBlock : Fits .block sampleBlock := by
  have hlist : Fits .argumentList
      (node .argumentList [word .leftParen "(", sampleSum, word .rightParen ")"]) :=
    @Fits.arguments _ _ _ [] (isLeaf_word _ _) fits_sampleSum (by simp) (by simp) (isLeaf_word _ _)
  have hcall := fits_factor_singleton (.call (isLeaf_spacedWord .identifier "g") hlist)
  have hstatement := Fits.bare (.blockless (@Fits.term _ [] hcall (by simp) (by simp)))
  refine @Fits.block _ _ [(_, some (word .semicolon ";"))] (isLeaf_spacedWord _ _) ?_ ?_
    (isLeaf_spacedWord _ _)
  · exact List.forall_mem_singleton.2 hstatement
  · simpa using isLeaf_word .semicolon ";"

private theorem wellFormed_sample : sample.WellFormed where
  isProgram := by
    refine @IsProgram.mk [_] _ ?_ ⟨_, rfl, by decide⟩
    rw [List.forall_mem_singleton]
    exact .impure (isLeaf_word _ _) ⟨_, _, _, _, _, rfl, isLeaf_spacedWord _ _,
      .empty (isLeaf_word _ _) (isLeaf_word _ _), isLeaf_word _ _, isLeaf_spacedWord _ _,
      fits_sampleBlock⟩
  blanks := by decide

end Tree

theorem parse_tokens_inverse_sample :
    Tree.sample.WellFormed ∧ Tree.sample.ruleDepth ≤ maxDepth ∧
      parse Tree.sample.tokens ⟨"sample", ""⟩ = .ok Tree.sample ∧
      Tree.sample.tokens = throughEnd ⟨"sample", ""⟩ Tree.sample.tokens := by
  have hdepth : Tree.sample.ruleDepth ≤ maxDepth := by decide
  obtain ⟨htokens, htree⟩ := parse_tokens_inverse ⟨"sample", ""⟩
  have hparse := htree Tree.sample Tree.wellFormed_sample hdepth
  exact ⟨Tree.wellFormed_sample, hdepth, hparse, (htokens _ _ hparse).2.2⟩

end FunImp
