import FunImp.Proofs.Writing.Trees

/-! # The trees of functions and programs

Every function that can be written has a tree, with the keyword that it is written with, and so
has every program. -/

namespace FunImp

open Lexer FunImp.Tree

/-- The lexemes as leaves in a row. -/
theorem forest_tree (ls : List Lexeme) :
    forestLeaves (ls.map Lexeme.tree) = ls.map Lexeme.leaf ∧
      forestRuleDepth (ls.map Lexeme.tree) = 0 := by
  induction ls with
  | nil => exact ⟨rfl, rfl⟩
  | cons l ls ih => simp [forestLeaves, forestRuleDepth, ih]

namespace FunctionSketch

/-- The parameters as leaves. -/
def paramList (f : FunctionSketch) : ParamList where
  opening := (fixed .leftParen).leaf
  params := (separate f.parameters).map fun p =>
    ⟨(nameLexeme p.1.1).leaf, ⟨(fixed .colon).leaf, (nameLexeme p.1.2).leaf⟩, p.2⟩
  closing := (fixed .rightParen).leaf

theorem leaves_paramList (f : FunctionSketch) :
    f.paramList.leaves = f.writeParameters.map Lexeme.leaf := by
  have hparams : (separate f.parameters).flatMap
      (fun p => (writeParameter p.1).map Lexeme.leaf ++ p.2.toList.map id) =
      (commaSeparated (f.parameters.map writeParameter)).map Lexeme.leaf := by
    cases f.parameters with
    | nil => rfl
    | cons p ps =>
      rw [flatMap_separate (fun p => (writeParameter p).map Lexeme.leaf) id]
      simp [commaSeparated, List.flatMap_map, List.map_flatMap]
  simp only [List.map_id] at hparams
  simp [ParamList.leaves, paramList, List.flatMap_map, Param.leaves, TypeSpec.leaves,
    writeParameters, ← hparams, writeParameter]

theorem regular_paramList (f : FunctionSketch) : f.paramList.Regular where
  opening := rfl
  params := List.forall_mem_map.2 fun p hp => ⟨rfl, ⟨rfl, rfl⟩, kind_separate _ p hp⟩
  closing := rfl

theorem isParam_writeParameter (p : String × String) :
    IsParam ((writeParameter p).map Lexeme.tree) :=
  ⟨_, _, _, rfl, Lexeme.isLeaf_tree (by simp), Lexeme.isLeaf_tree (by simp),
    Lexeme.isLeaf_tree (by simp)⟩

theorem isParamList_writeParameters (f : FunctionSketch) :
    IsParamList (node .paramList (f.writeParameters.map Lexeme.tree)) := by
  have ho : IsLeaf [.leftParen] (fixed .leftParen).tree := Lexeme.isLeaf_tree (by simp)
  have hc : IsLeaf [.rightParen] (fixed .rightParen).tree := Lexeme.isLeaf_tree (by simp)
  unfold writeParameters
  cases f.parameters with
  | nil => exact .empty ho hc
  | cons p ps =>
    have hothers : ∀ ts ∈ ps.map (fun p => (fixed .comma).tree ::
        (writeParameter p).map Lexeme.tree), IsCommaParam ts :=
      List.forall_mem_map.2 fun p _ =>
        ⟨_, _, rfl, Lexeme.isLeaf_tree (by simp), isParam_writeParameter p⟩
    have hparams := IsParamList.params ho (isParam_writeParameter p) hothers hc
    simpa [commaSeparated, List.flatMap_def, Function.comp_def] using hparams

/-- The rule that the function is read by. -/
def rule (f : FunctionSketch) : Rule :=
  match f.purity with
  | .pure => .pureFunction
  | .impure => .impureFunction

theorem rule_mem (f : FunctionSketch) : f.rule ∈ [.pureFunction, .impureFunction] := by
  unfold rule
  cases f.purity <;> decide

theorem levels_rule (f : FunctionSketch) : f.rule.levels = 1 := by
  unfold rule
  cases f.purity <;> rfl

/-- The keyword as a leaf. -/
def keywordLeaf (f : FunctionSketch) (explicit : Bool) : Option Leaf :=
  (f.keyword explicit).map fun kind => (fixed kind).leaf

theorem isFunction_node (f : FunctionSketch) (explicit : Bool) {rest : List Tree}
    (hr : IsSignatureAndBody rest) :
    IsFunction (node f.rule ((f.keywordLeaf explicit).toList.map ofLeaf ++ rest)) := by
  unfold rule keywordLeaf keyword
  cases f.purity with
  | impure => exact .impure ((fixed .imp).isLeaf_tree (by simp)) hr
  | pure =>
    cases explicit with
    | true =>
      have hfn : IsLeaf [.fn] (fixed .fn).tree := Lexeme.isLeaf_tree (by simp)
      exact @IsFunction.pure (some (fixed .fn).tree) _ (by simpa using hfn) hr
    | false => exact @IsFunction.pure none _ (by simp) hr

theorem map_ofLeaf_keywordLeaf (f : FunctionSketch) (explicit : Bool) :
    (f.keywordLeaf explicit).toList.map ofLeaf =
      ((f.keyword explicit).toList.map fixed).map Lexeme.tree := by
  rw [keywordLeaf, Option.toList_map, List.map_map, List.map_map]
  rfl

theorem keywordLeaf_kind (f : FunctionSketch) (explicit : Bool) :
    ∀ l ∈ f.keywordLeaf explicit, l.kind = .fn ∨ l.kind = .imp := by
  unfold keywordLeaf keyword
  cases f.purity <;> cases explicit <;> simp

/-- A pure function is read as such, with a keyword or without. -/
theorem any_keywordLeaf (f : FunctionSketch) (explicit : Bool) :
    (if (f.keywordLeaf explicit).any (·.kind = .imp) then .impure else .pure) = f.purity := by
  unfold keywordLeaf keyword
  cases f.purity <;> cases explicit <;> simp

/-- The function whose body is the expression. -/
def decl (f : FunctionSketch) (explicit : Bool) (body : Expr) : FunctionDecl where
  keyword := f.keywordLeaf explicit
  name := (nameLexeme f.name).leaf
  parameters := f.paramList
  result := ⟨(fixed .colon).leaf, (nameLexeme f.result).leaf⟩
  body := body

theorem sketch_decl (f : FunctionSketch) (explicit : Bool) {body : Expr}
    (h : body.sketch = f.body) : (f.decl explicit body).sketch = f := by
  have hparams : f.paramList.params.map (fun p => (p.name.text, p.type.name.text)) =
      f.parameters := by
    simpa [paramList, Function.comp_def] using map_fst_separate f.parameters
  have hpurity : (f.decl explicit body).purity = f.purity := f.any_keywordLeaf explicit
  rw [FunctionDecl.sketch, hpurity]
  simp [decl, hparams, h]

theorem Writable.exists_bodyTree {f : FunctionSketch} (h : f.Writable) :
    ∃ t, Fits .block t ∧ t.Renders f.body f.body.depth := by
  obtain ⟨items, hblock⟩ := h.block
  have hbody := h.body
  rw [hblock] at hbody ⊢
  cases hbody with
  | block hitems => exact exists_blockTree fun k hk => (hitems k hk).hasTree

/-- A function that can be written has a tree with its lexemes and its depth, which becomes a
function with that sketch whatever the next number is. -/
theorem Writable.exists_tree {f : FunctionSketch} (h : f.Writable) (explicit : Bool) :
    ∃ t, IsFunction t ∧ t.leaves = (f.write explicit).map Lexeme.leaf ∧ t.ruleDepth = f.depth ∧
      ∀ s, ∃ d s', Returns t.toFunction s d s' ∧ d.sketch = f := by
  obtain ⟨body, hfits, hleaves, hdepth, hmeans⟩ := h.exists_bodyTree
  obtain ⟨hkeyword, hkeywordDepth⟩ := forest_tree ((f.keyword explicit).toList.map fixed)
  obtain ⟨hparameters, hparametersDepth⟩ := forest_tree f.writeParameters
  have hrest : IsSignatureAndBody [(nameLexeme f.name).tree,
      node .paramList (f.writeParameters.map Lexeme.tree), (fixed .colon).tree,
      (nameLexeme f.result).tree, body] :=
    ⟨_, _, _, _, _, rfl, Lexeme.isLeaf_tree (by simp), f.isParamList_writeParameters,
      Lexeme.isLeaf_tree (by simp), Lexeme.isLeaf_tree (by simp), hfits⟩
  refine ⟨_, f.isFunction_node explicit hrest, ?_, ?_, fun s => ?_⟩
  · rw [map_ofLeaf_keywordLeaf, leaves, forestLeaves_append, hkeyword]
    simp [forestLeaves, leaves, hparameters, hleaves, write]
  · rw [map_ofLeaf_keywordLeaf, ruleDepth, forestRuleDepth_append, hkeywordDepth, f.levels_rule]
    simp [forestRuleDepth, ruleDepth, hparametersDepth, hdepth, depth, Rule.levels]
  · obtain ⟨e, s', he, hsketch⟩ := hmeans s
    refine ⟨f.decl explicit e, s', returns_toFunction_iff.2 ?_, f.sketch_decl explicit hsketch⟩
    refine ⟨f.rule, body, ?_, f.rule_mem, ?_, hfits.braced.isBody, he⟩
    · simp [FunctionDecl.children, decl, leaves_paramList, TypeSpec.leaves, Lexeme.tree]
    · exact ⟨f.keywordLeaf_kind explicit, rfl, f.regular_paramList, ⟨rfl, rfl⟩⟩

end FunctionSketch

namespace Draft

/-- The end of the input as a leaf without white space and place. -/
def eofLeaf : Leaf := ⟨[], ⟨.eof, none, default, ""⟩⟩

/-- Functions whose trees become functions with the sketches are a program with the sketches. -/
theorem exists_lower {functions : List (Tree × FunctionSketch)}
    (h : ∀ x ∈ functions, ∀ s, ∃ f s', Returns x.1.toFunction s f s' ∧ f.sketch = x.2) :
    ∃ p, lower (node .program (functions.map Prod.fst ++ [ofLeaf eofLeaf])) = .ok p ∧
      p.sketch = functions.map Prod.snd := by
  obtain ⟨row, s', rfl, hx, hs⟩ := exists_row
    (fun t (k : FunctionSketch) s f s' => Returns t.toFunction s f s' ∧ f.sketch = k) h 0
  have hprogram : Returns (node .program ((row.map Prod.fst).map Lowered.tree ++
      [ofLeaf eofLeaf])).toProgram 0 ⟨(row.map Prod.fst).map Lowered.value, eofLeaf⟩ s' :=
    returns_toProgram_iff.2 ⟨row.map Prod.fst, rfl,
      List.forall_mem_map.2 fun x hm => (hx x hm).1, hs, rfl, rfl⟩
  refine ⟨_, lower_eq_ok_iff.2 ⟨s', by simpa [Function.comp_def] using hprogram⟩, ?_⟩
  simpa [Program.sketch] using fun x k hm => (hx (x, k) hm).2

/-- Every draft has a tree with its lexemes and its depth, which is lowered to a program with its
sketch. -/
theorem exists_tree {d : Draft} (h : ∀ f ∈ d, f.1.Writable) :
    ∃ t p, IsProgram t ∧ t.leaves = d.write.map Lexeme.leaf ++ [eofLeaf] ∧ t.ruleDepth = d.depth ∧
      lower t = .ok p ∧ p.sketch = d.map Prod.fst := by
  have hnonempty : Nonempty Tree := ⟨ofLeaf eofLeaf⟩
  have htrees : ∀ f ∈ d, ∃ t, IsFunction t ∧ t.leaves = (f.1.write f.2).map Lexeme.leaf ∧
      t.ruleDepth = f.1.depth ∧ ∀ s, ∃ d s', Returns t.toFunction s d s' ∧ d.sketch = f.1 :=
    fun f hf => (h f hf).exists_tree f.2
  choose! tree hfunction hleaves hdepth hreturns using htrees
  have hfunctions : ∀ x ∈ d.map (fun f => (tree f, f.1)),
      ∀ s, ∃ f s', Returns x.1.toFunction s f s' ∧ f.sketch = x.2 := List.forall_mem_map.2 hreturns
  obtain ⟨p, hlower, hsketch⟩ := exists_lower hfunctions
  rw [List.map_map] at hlower hsketch
  refine ⟨_, _, .mk (List.forall_mem_map.2 hfunction) ⟨eofLeaf, rfl, by simp [eofLeaf, Leaf.kind]⟩,
    ?_, ?_, hlower, ?_⟩
  · have hforest : d.flatMap (fun f => (tree f).leaves) =
        d.flatMap (fun f => (f.1.write f.2).map Lexeme.leaf) := List.flatMap_congr hleaves
    simp [leaves, forestLeaves_eq_flatMap, List.flatMap_map, hforest, write, List.map_flatMap]
  · have hdepths : d.map (fun f => (tree f).ruleDepth) = d.map fun f => f.1.depth :=
      List.map_congr_left hdepth
    rw [ruleDepth, forestRuleDepth_append, forestRuleDepth_eq_foldr, List.map_map]
    simp [forestRuleDepth, Function.comp_def, hdepths, depth, Rule.levels]
  · exact hsketch

end Draft

end FunImp
