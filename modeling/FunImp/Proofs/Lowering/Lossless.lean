import FunImp.Compile.Pipeline
import FunImp.Proofs.Lowering.Chains
import FunImp.Proofs.Program.Leaves

/-! # Lowering keeps every token

The program of a tree has the tokens of the tree, whatever the shape of the tree. A parsed tree is
always lowered, and can be parsed again from the tokens of its program. -/

namespace FunImp

namespace Tree

theorem flatMap_tokens_map_ofLeaf (ls : List Leaf) :
    (ls.map ofLeaf).flatMap tokens = ls.flatMap Leaf.tokens := by
  simp [List.flatMap_map]

theorem Becomes.tokens_eq {t : Tree} {e : Expr} {s s' : NodeId} (h : Becomes t s e s') :
    t.tokens = e.tokens := by
  induction h with
  | @block o c row s s' _ _ _ _ ih =>
    have hrow : row.flatMap (fun x => x.tree.tokens) = row.flatMap (fun x => x.value.tokens) :=
      List.flatMap_congr ih
    simp [Expr.tokens_block, List.flatMap_map, hrow]
  | bare _ ih => simp [Expr.tokens_bare, ih]
  | statement _ _ ih => simp [Expr.tokens_statement, ih]
  | operand _ _ ih => simpa using ih
  | link _ _ _ _ ihl ihr =>
    rw [tokens_node] at ihl
    simp [Expr.tokens_binary, ihl, ihr]
  | integer => simp [Expr.tokens_integer]
  | reference => simp [Expr.tokens_reference]
  | @call n o c row s s' _ _ _ _ _ _ _ ih =>
    have hrow : row.flatMap (fun x => (argumentTrees (x.1.tree, x.2)).flatMap tokens) =
        row.flatMap (fun x => x.1.value.tokens ++ x.2.toList.flatMap Leaf.tokens) :=
      List.flatMap_congr fun x hx => by
        rw [argumentTrees, List.flatMap_cons, flatMap_tokens_map_ofLeaf, ih x hx]
    simp [Expr.tokens_call, Separated.tokens, List.flatMap_map, List.flatMap_assoc, hrow]

theorem tokens_eq_of_toFunction {t : Tree} {f : FunctionDecl} {s s' : NodeId}
    (h : Returns t.toFunction s f s') : t.tokens = f.tokens := by
  obtain ⟨rule, body, rfl, -, -, -, hbody⟩ := returns_toFunction_iff.1 h
  have htokens : body.tokens = f.body.leaves.flatMap Leaf.tokens := hbody.tokens_eq
  simp [FunctionDecl.children, FunctionDecl.tokens, FunctionDecl.leaves, flatMap_tokens_map_ofLeaf,
    htokens]

theorem tokens_eq_of_lower {t : Tree} {p : Program} (h : lower t = .ok p) :
    t.tokens = p.tokens := by
  obtain ⟨s, h⟩ := lower_eq_ok_iff.1 h
  obtain ⟨row, rfl, hrow, -, hfunctions, -⟩ := returns_toProgram_iff.1 h
  have htokens : row.flatMap (fun x => x.tree.tokens) =
      row.flatMap (fun x => x.value.leaves.flatMap Leaf.tokens) :=
    List.flatMap_congr fun x hx => tokens_eq_of_toFunction (hrow x hx)
  simp [Program.tokens, Program.leaves, hfunctions, List.flatMap_map, List.flatMap_assoc, htokens]

end Tree

theorem Observed.phase_snd {α β : Type} (source : Source) (name : Phase) (result : Except Cause α)
    (told : α → Event) (next : α → Observed β) :
    (Observed.phase source name result told next).2 = result >>= fun a => (next a).2 := by
  cases result with
  | ok a => rfl
  | error cause => rfl

theorem compile_eq (options : Options) (source : Source) :
    compile options source = Except.mapError (fun cause => .single cause (some source)) (do
      let tokens ← (lex source).mapError Cause.lexing
      let tree ← (parse tokens source).mapError Cause.parsing
      let program ← (lower tree).mapError Cause.lowering
      (validate options program).mapError Cause.validation) := by
  have hphases : (allPhases options source).2 = (do
      let tokens ← (lex source).mapError Cause.lexing
      let tree ← (parse tokens source).mapError Cause.parsing
      let program ← (lower tree).mapError Cause.lowering
      (validate options program).mapError Cause.validation) := by
    simp only [allPhases, Observed.phase_snd]
    have hlast (program : Program) :
        ((validate options program).mapError Cause.validation >>= Except.ok) =
          (validate options program).mapError Cause.validation := bind_pure _
    simp only [hlast]
  rw [← hphases]
  rfl

theorem compile_eq_error_of_thrown {options : Options} {source : Source} {cause : Cause}
    (h : thrown? (allPhases options source).2 = some cause) :
    compile options source = .error (.single cause (some source)) :=
  mapError_eq_error_iff.2 ⟨cause, thrown?_eq_some_iff.1 h, rfl⟩

/-- One phase fails with this cause, and all phases before it succeed. -/
inductive FailsWith (options : Options) (source : Source) : Cause → Prop where
  | lexing {errors : LexErrors} (h : lex source = .error errors) :
      FailsWith options source (.lexing errors)
  | parsing {tokens : List Token} {e : SyntaxError} (hlex : lex source = .ok tokens)
      (h : parse tokens source = .error e) : FailsWith options source (.parsing e)
  | lowering {tokens : List Token} {t : Tree} {e : LoweringError} (hlex : lex source = .ok tokens)
      (hparse : parse tokens source = .ok t) (h : lower t = .error e) :
      FailsWith options source (.lowering e)
  | validation {tokens : List Token} {t : Tree} {p : Program} {errors : List SemanticError}
      (hlex : lex source = .ok tokens) (hparse : parse tokens source = .ok t)
      (hlower : lower t = .ok p) (h : validate options p = .error errors) :
      FailsWith options source (.validation errors)

theorem failsWith_of_compile {options : Options} {source : Source} {e : CompileError}
    (h : compile options source = .error e) :
    ∃ cause, e = .single cause (some source) ∧ FailsWith options source cause := by
  rw [compile_eq] at h
  simp only [mapError_eq_error_iff, mapError_eq_ok_iff, except_bind_eq_error_iff] at h
  obtain ⟨cause, h, rfl⟩ := h
  refine ⟨cause, rfl, ?_⟩
  rcases h with ⟨_, hlex, rfl⟩ | ⟨_, hlex, ⟨_, hparse, rfl⟩ | ⟨_, hparse, ⟨_, hlower, rfl⟩ |
    ⟨_, hlower, _, hvalidate, rfl⟩⟩⟩
  · exact .lexing hlex
  · exact .parsing hlex hparse
  · exact .lowering hlex hparse hlower
  · exact .validation hlex hparse hlower hvalidate

/-- If compilation fails to lower, some parsed tree is no program. -/
theorem exists_lower_eq_error {options : Options} {source : Source} {e : LoweringError}
    {origin : Option Source} (h : compile options source = .error (.single (.lowering e) origin)) :
    ∃ tokens t, parse tokens source = .ok t ∧ lower t = .error e := by
  obtain ⟨cause, heq, hfails⟩ := failsWith_of_compile h
  cases heq
  cases hfails with
  | lowering hlex hparse hlower => exact ⟨_, _, hparse, hlower⟩

/-- Lowering is total on parsed trees and loses nothing: every parsed tree is lowered, so that
compilation never fails to lower. The program of a tree, parsed or not, has its tokens and its
text, and a parsed tree is parsed again from the tokens of its program. -/
theorem lower_lossless :
    (∀ tokens source t, parse tokens source = .ok t → ∃ p, lower t = .ok p) ∧
    (∀ options source e origin, compile options source ≠ .error (.single (.lowering e) origin)) ∧
    (∀ t p, lower t = .ok p → p.tokens = t.tokens ∧ p.sourceText = t.sourceText) ∧
    ∀ tokens source t p, parse tokens source = .ok t → lower t = .ok p →
      ∀ source', parse p.tokens source' = .ok t := by
  have htotal : ∀ tokens source t, parse tokens source = .ok t → ∃ p, lower t = .ok p :=
    fun tokens source t h => (wellFormed_of_parse_eq_ok h).1.isProgram.lower_eq_ok
  refine ⟨htotal, fun options source e origin h => ?_, fun t p h => ?_,
    fun tokens source t p ht hp source' => ?_⟩
  · obtain ⟨tokens, t, ht, he⟩ := exists_lower_eq_error h
    obtain ⟨p, hp⟩ := htotal tokens source t ht
    rw [hp] at he
    cases he
  · have htokens := Tree.tokens_eq_of_lower h
    exact ⟨htokens.symm, by rw [Program.sourceText, Tree.sourceText, htokens]⟩
  · obtain ⟨hwf, hdepth, -⟩ := wellFormed_of_parse_eq_ok ht
    rw [← Tree.tokens_eq_of_lower hp]
    exact parse_eq_ok_of_wellFormed hwf hdepth (hwf.throughEnd_tokens source').symm

private def oddLeaf (kind : Token.Kind) (text : String) : Leaf :=
  ⟨[⟨.whitespace, some " ", default, "odd"⟩], ⟨kind, some text, default, "odd"⟩⟩

/-- A tree that no text has: ` fun f ( x : int y : int ) : int 1 ;` without a comma between the
parameters, and with a statement for a body. -/
private def oddTree : Tree :=
  .node .program [.node .impureFunction [.ofLeaf (oddLeaf .fn "fun"),
    .ofLeaf (oddLeaf .identifier "f"),
    .node .paramList [.ofLeaf (oddLeaf .leftParen "("), .ofLeaf (oddLeaf .identifier "x"),
      .ofLeaf (oddLeaf .colon ":"), .ofLeaf (oddLeaf .identifier "int"),
      .ofLeaf (oddLeaf .identifier "y"), .ofLeaf (oddLeaf .colon ":"),
      .ofLeaf (oddLeaf .identifier "int"), .ofLeaf (oddLeaf .rightParen ")")],
    .ofLeaf (oddLeaf .colon ":"), .ofLeaf (oddLeaf .identifier "int"),
    .node .blocklessExpression [.node .statement [
      .node .element [.ofLeaf (oddLeaf .integer "1")], .ofLeaf (oddLeaf .semicolon ";")]]],
    .ofLeaf (oddLeaf .eof "")]

private def oddProgram : Program where
  functions := [⟨some (oddLeaf .fn "fun"), oddLeaf .identifier "f",
    ⟨oddLeaf .leftParen "(",
      [⟨oddLeaf .identifier "x", ⟨oddLeaf .colon ":", oddLeaf .identifier "int"⟩, none⟩,
        ⟨oddLeaf .identifier "y", ⟨oddLeaf .colon ":", oddLeaf .identifier "int"⟩, none⟩],
      oddLeaf .rightParen ")"⟩,
    ⟨oddLeaf .colon ":", oddLeaf .identifier "int"⟩,
    .bare 2 (.statement 1 (.integer 0 (oddLeaf .integer "1")) (oddLeaf .semicolon ";"))⟩]
  eof := oddLeaf .eof ""

theorem lower_lossless_sample :
    (lower oddTree = .ok oddProgram ∧ oddProgram.tokens = oddTree.tokens ∧
      oddProgram.sourceText = oddTree.sourceText) ∧
    (∃ tokens t p, lex (chainSource 2) = .ok tokens ∧ parse tokens (chainSource 2) = .ok t ∧
      lower t = .ok p ∧ parse p.tokens (chainSource 2) = .ok t) ∧
    compile default (chainSource 2) ≠
      .error (.single (.lowering (.missingChild .program)) none) := by
  obtain ⟨htotal, hcompile, htokens, hparse⟩ := lower_lossless
  have hodd : lower oddTree = .ok oddProgram := rfl
  obtain ⟨c, hlex, -⟩ := lex_chainSource 2
  have ht := c.parse_tokens (chainSource 2)
  obtain ⟨p, hp⟩ := htotal _ _ _ ht
  exact ⟨⟨hodd, htokens _ _ hodd⟩, ⟨_, _, p, hlex, ht, hp, hparse _ _ _ _ ht hp _⟩,
    hcompile _ _ _ _⟩

end FunImp
