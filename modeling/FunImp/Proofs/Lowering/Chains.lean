import FunImp.Proofs.Lexing.Reads
import FunImp.Proofs.Lowering.Depth

/-! # Texts with long chains

A function whose body is a sum of `1` with itself can be written for any number of summands. Its
tree has seven rules open at the deepest place whatever that number is, and its program is as
deep as there are operators. -/

namespace FunImp

open Lexer

/-- The rest of the text behind the first summand, with so many operators. -/
def chainTail : Nat → List Char
  | 0 => ['\x7d']
  | n + 1 => '+' :: '1' :: chainTail n

/-- A text with so many operators in a row. -/
def chainSource (n : Nat) : Source :=
  ⟨"chain", .ofList ("f():int\x7b1".toList ++ chainTail n)⟩

def chainTailLexemes : Nat → List Lexeme
  | 0 => [⟨.rightBrace, ['\x7d']⟩]
  | n + 1 => ⟨.plus, ['+']⟩ :: ⟨.integer, ['1']⟩ :: chainTailLexemes n

def chainHeadLexemes : List Lexeme :=
  [⟨.identifier, ['f']⟩, ⟨.leftParen, ['(']⟩, ⟨.rightParen, [')']⟩, ⟨.colon, [':']⟩,
    ⟨.identifier, ['i', 'n', 't']⟩, ⟨.leftBrace, ['\x7b']⟩, ⟨.integer, ['1']⟩]

theorem munch_one_chainTail (n : Nat) :
    munch ('1' :: chainTail n) = some (⟨.integer, ['1']⟩, chainTail n) := by
  cases n with
  | zero => rfl
  | succ n => rfl

theorem reads_chainTail (n : Nat) : Reads (chainTail n) (chainTailLexemes n) := by
  induction n with
  | zero => exact .cons rfl .nil
  | succ n ih => exact .cons rfl (.cons (munch_one_chainTail n) ih)

theorem reads_chainSource (n : Nat) :
    Reads (chainSource n).chars (chainHeadLexemes ++ chainTailLexemes n) := by
  have hchars : (chainSource n).chars =
      'f' :: '(' :: ')' :: ':' :: 'i' :: 'n' :: 't' :: '\x7b' :: '1' :: chainTail n := by
    simp [chainSource, Source.chars]
  rw [hchars]
  have hone := Reads.cons (munch_one_chainTail n) (reads_chainTail n)
  refine .cons rfl (.cons rfl (.cons rfl (.cons rfl (.cons rfl (.cons rfl hone)))))

/-- A sign and the summand behind it. -/
abbrev Summand : Type := Token × Token

theorem exists_summands (id : String) (p : Position) (n : Nat) :
    ∃ (summands : List Summand) (closing eof : Token),
      place id p (chainTailLexemes n) = summands.flatMap (fun s => [s.1, s.2]) ++ [closing, eof] ∧
        summands.length = n ∧ (∀ s ∈ summands, s.1.kind = .plus ∧ s.2.kind = .integer) ∧
        closing.kind = .rightBrace ∧ eof.kind = .eof := by
  induction n generalizing p with
  | zero => exact ⟨[], _, _, rfl, rfl, by simp, rfl, rfl⟩
  | succ n ih =>
    obtain ⟨summands, closing, eof, hplace, hlength, hkinds, hclosing, heof⟩ :=
      ih ((p.after ['+']).after ['1'])
    let plus : Token := ⟨.plus, some (.ofList ['+']), .covering p ['+'], id⟩
    let one : Token :=
      ⟨.integer, some (.ofList ['1']), .covering (p.after ['+']) ['1'], id⟩
    refine ⟨(plus, one) :: summands, closing, eof, ?_, by simp [hlength], ?_, hclosing, heof⟩
    · rw [chainTailLexemes, place, place, hplace]
      rfl
    · exact List.forall_mem_cons.2 ⟨⟨rfl, rfl⟩, hkinds⟩

namespace Tree

/-- A token without white space. -/
def ofToken (t : Token) : Tree := ofLeaf ⟨[], t⟩

def operandTree (t : Token) : Tree := node .factor [node .element [ofToken t]]

def summandTrees (s : Summand) : Tree × Tree := (ofToken s.1, operandTree s.2)

/-- The sum of a first summand and others. -/
def sumTree (first : Token) (summands : List Summand) : Tree :=
  node .term (operandTree first :: (summands.map summandTrees).flatMap linkTrees)

theorem isLeaf_ofToken {kinds : List Token.Kind} {t : Token} (h : t.kind ∈ kinds) :
    IsLeaf kinds (ofToken t) :=
  ⟨_, rfl, h⟩

theorem fits_operandTree {t : Token} (h : t.kind = .integer) : Fits .factor (operandTree t) :=
  @Fits.factor _ [] (.element (isLeaf_ofToken (by simp [h]))) (by simp) (by simp)

theorem fits_sumTree {first : Token} {summands : List Summand} (hf : first.kind = .integer)
    (hs : ∀ s ∈ summands, s.1.kind = .plus ∧ s.2.kind = .integer) :
    Fits .term (sumTree first summands) := by
  refine .term (fits_operandTree hf) ?_ ?_
  · rw [List.forall_mem_map]
    exact fun s hm => isLeaf_ofToken (by simp [(hs s hm).1])
  · rw [List.forall_mem_map]
    exact fun s hm => fits_operandTree (hs s hm).2

theorem ruleDepth_operandTree (t : Token) : (operandTree t).ruleDepth = 2 := by
  simp [operandTree, ofToken, ruleDepth, forestRuleDepth, Rule.levels]

theorem ruleDepth_sumTree (first : Token) (summands : List Summand) :
    (sumTree first summands).ruleDepth ≤ 3 := by
  rw [sumTree, ruleDepth_node_le_succ rfl, List.forall_mem_cons]
  refine ⟨Nat.le_of_eq (ruleDepth_operandTree first), forall_mem_flatMap_linkTrees ?_ ?_⟩
  · rw [List.forall_mem_map]
    exact fun s _ => by simp [summandTrees, ofToken]
  · rw [List.forall_mem_map]
    exact fun s _ => Nat.le_of_eq (ruleDepth_operandTree s.2)

theorem longestChain_sumTree (first : Token) (summands : List Summand) :
    summands.length ≤ (sumTree first summands).longestChain := by
  have hlength : ((summands.map summandTrees).flatMap linkTrees).length = 2 * summands.length := by
    induction summands with
    | nil => rfl
    | cons s summands ih => simp [linkTrees, ih]; omega
  rw [sumTree, longestChain, Rule.operators, if_pos (.inl rfl), List.length_cons, hlength]
  omega

theorem leaves_sumTree (first : Token) (summands : List Summand) :
    (sumTree first summands).leaves =
      (first :: summands.flatMap fun s => [s.1, s.2]).map (Leaf.mk []) := by
  have hsummands : forestLeaves ((summands.map summandTrees).flatMap linkTrees) =
      (summands.flatMap fun s => [s.1, s.2]).map (Leaf.mk []) := by
    induction summands with
    | nil => rfl
    | cons s summands ih =>
      simp [linkTrees, summandTrees, operandTree, ofToken, forestLeaves, leaves, ih]
  simp [sumTree, operandTree, ofToken, leaves, forestLeaves, hsummands]

end Tree

/-- The tokens of `f():int{1+1}` with any number of summands. -/
structure ChainTokens where
  name : Token
  leftParen : Token
  rightParen : Token
  colon : Token
  type : Token
  leftBrace : Token
  first : Token
  summands : List Summand
  rightBrace : Token
  eof : Token
  name_kind : name.kind = .identifier
  leftParen_kind : leftParen.kind = .leftParen
  rightParen_kind : rightParen.kind = .rightParen
  colon_kind : colon.kind = .colon
  type_kind : type.kind = .identifier
  leftBrace_kind : leftBrace.kind = .leftBrace
  first_kind : first.kind = .integer
  summands_kinds : ∀ s ∈ summands, s.1.kind = .plus ∧ s.2.kind = .integer
  rightBrace_kind : rightBrace.kind = .rightBrace
  eof_kind : eof.kind = .eof

namespace ChainTokens

open FunImp.Tree

variable (c : ChainTokens)

def tokens : List Token :=
  [c.name, c.leftParen, c.rightParen, c.colon, c.type, c.leftBrace, c.first] ++
    (c.summands.flatMap (fun s => [s.1, s.2]) ++ [c.rightBrace, c.eof])

def body : Tree :=
  node .blockExpression [ofToken c.leftBrace,
    node .blocklessExpression [sumTree c.first c.summands], ofToken c.rightBrace]

def function : Tree :=
  node .pureFunction [ofToken c.name,
    node .paramList [ofToken c.leftParen, ofToken c.rightParen], ofToken c.colon, ofToken c.type,
    c.body]

def tree : Tree := node .program [c.function, ofToken c.eof]

theorem fits_body : Fits .block c.body := by
  have hsum := fits_sumTree c.first_kind c.summands_kinds
  exact @Fits.block _ _ [(_, none)] (isLeaf_ofToken (by simp [c.leftBrace_kind]))
    (List.forall_mem_singleton.2 (.bare (.blockless hsum))) (by simp)
    (isLeaf_ofToken (by simp [c.rightBrace_kind]))

theorem isFunction_function : IsFunction c.function := by
  refine @IsFunction.pure none _ (by simp) ⟨_, _, _, _, _, rfl, ?_, ?_, ?_, ?_, c.fits_body⟩
  · exact isLeaf_ofToken (by simp [c.name_kind])
  · exact .empty (isLeaf_ofToken (by simp [c.leftParen_kind]))
      (isLeaf_ofToken (by simp [c.rightParen_kind]))
  · exact isLeaf_ofToken (by simp [c.colon_kind])
  · exact isLeaf_ofToken (by simp [c.type_kind])

theorem leaves_tree : c.tree.leaves = c.tokens.map (Leaf.mk []) := by
  simp [tree, function, body, tokens, ofToken, leaves, forestLeaves, leaves_sumTree]

theorem wellFormed_tree : c.tree.WellFormed where
  isProgram := @IsProgram.mk [_] _ (List.forall_mem_singleton.2 c.isFunction_function)
    (isLeaf_ofToken (by simp [c.eof_kind]))
  blanks := by
    rw [leaves_tree, List.forall_mem_map]
    exact fun t _ => by simp

theorem tokens_tree : c.tree.tokens = c.tokens := by
  rw [c.wellFormed_tree.isProgram.tokens_eq, leaves_tree, List.flatMap_map]
  exact List.flatMap_singleton' _

theorem ruleDepth_tree : c.tree.ruleDepth ≤ maxDepth := by
  have hsum := ruleDepth_sumTree c.first c.summands
  simp only [tree, function, body, ofToken, ruleDepth, forestRuleDepth, ruleDepth_ofLeaf,
    Rule.levels, maxDepth]
  omega

theorem longestChain_tree : c.summands.length ≤ c.tree.longestChain := by
  calc c.summands.length
      ≤ (sumTree c.first c.summands).longestChain := longestChain_sumTree _ _
    _ ≤ (node .blocklessExpression [sumTree c.first c.summands]).longestChain :=
        longestChain_le_node List.mem_cons_self
    _ ≤ c.body.longestChain := longestChain_le_node (by simp)
    _ ≤ c.function.longestChain := longestChain_le_node (by simp)
    _ ≤ c.tree.longestChain := longestChain_le_node List.mem_cons_self

theorem parse_tokens (source : Source) : parse c.tokens source = .ok c.tree := by
  rw [parse_eq_ok_iff, ← c.tokens_tree, c.wellFormed_tree.throughEnd_tokens]
  exact ⟨c.wellFormed_tree, c.ruleDepth_tree, rfl⟩

end ChainTokens

theorem lex_chainSource (n : Nat) :
    ∃ c : ChainTokens, lex (chainSource n) = .ok c.tokens ∧ c.summands.length = n := by
  obtain ⟨f, l, r, d, t, b, first, p, hhead, hf, hl, hr, hd, ht, hb, hfirst⟩ :
      ∃ (f l r d t b first : Token) (p : Position),
        place "chain" .origin (chainHeadLexemes ++ chainTailLexemes n) =
          [f, l, r, d, t, b, first] ++ place "chain" p (chainTailLexemes n) ∧
        f.kind = .identifier ∧ l.kind = .leftParen ∧ r.kind = .rightParen ∧ d.kind = .colon ∧
        t.kind = .identifier ∧ b.kind = .leftBrace ∧ first.kind = .integer :=
    ⟨_, _, _, _, _, _, _, _, rfl, rfl, rfl, rfl, rfl, rfl, rfl, rfl⟩
  obtain ⟨summands, e, eof, htail, hlength, hsummands, he, heof⟩ := exists_summands "chain" p n
  rw [htail] at hhead
  refine ⟨⟨f, l, r, d, t, b, first, summands, e, eof, hf, hl, hr, hd, ht, hb, hfirst, hsummands,
    he, heof⟩, ?_, hlength⟩
  rw [lex_of_reads (reads_chainSource n)]
  exact congrArg Except.ok hhead

/-- Texts with any number of operators in a row have trees. -/
theorem exists_hasTree_longestChain (n : Nat) :
    ∃ (source : Source) (t : Tree), source.HasTree t ∧ n ≤ t.longestChain := by
  obtain ⟨c, hlex, rfl⟩ := lex_chainSource n
  exact ⟨_, c.tree, ⟨c.tokens, hlex, c.parse_tokens _⟩, c.longestChain_tree⟩

/-- No bound on depths holds of every text. -/
theorem not_exists_depth_bound :
    ¬ ∃ B, ∀ (source : Source) (t : Tree) (p : Program),
        source.HasTree t → lower t = .ok p → p.depth ≤ B := by
  rintro ⟨B, hB⟩
  obtain ⟨source, t, ht, hchain⟩ := exists_hasTree_longestChain (B + 1)
  have hprogram := ht.wellFormed.1.isProgram
  obtain ⟨p, hp⟩ := hprogram.lower_eq_ok
  have hdepth := (depth_of_lower hprogram hp).1
  have hbound := hB source t p ht hp
  omega

end FunImp
