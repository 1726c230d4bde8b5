import FunImp.Tree.Basic

/-! # The trees of the grammar

`Fits` states the rules for expressions on trees alone, without the readers that build them, and
`IsProgram` those for whole programs. `leaves` forgets the inner nodes of a tree, and `ruleDepth`
counts the rules that are open at once on the way to its deepest leaf. -/

namespace FunImp

/-- How many rules are open inside a node on its own account. A call stands in for its element,
and a statement is opened only once its semicolon is seen. -/
def Rule.levels : Rule → Nat
  | .statement => 0
  | _ => 1

namespace Tree

mutual

/-- The leaves of a tree from left to right. -/
def leaves : Tree → List Leaf
  | node _ children => forestLeaves children
  | leaf leading token => [⟨forestTokensOnto [] leading, token⟩]
  | blank _ => []

/-- The leaves of trees in a row. -/
def forestLeaves : List Tree → List Leaf
  | [] => []
  | t :: ts => leaves t ++ forestLeaves ts

end

mutual

/-- The greatest number of rules that are open at once. -/
def ruleDepth : Tree → Nat
  | node rule children => rule.levels + forestRuleDepth children
  | leaf _ _ => 0
  | blank _ => 0

/-- The greatest rule depth of trees in a row. -/
def forestRuleDepth : List Tree → Nat
  | [] => 0
  | t :: ts => max (ruleDepth t) (forestRuleDepth ts)

end

/-- A leaf of one of the kinds, with nothing but blanks in front of its token. -/
def IsLeaf (kinds : List Token.Kind) (t : Tree) : Prop :=
  ∃ l : Leaf, t = ofLeaf l ∧ l.kind ∈ kinds

/-- The places where the grammar asks for an expression or a part of one. -/
inductive Place where
  | block
  | blockless
  | expression
  | term
  | factor
  | element
  | argumentList
deriving DecidableEq

/-- A separator and the tree behind it, as neighbours among the children of a node. -/
def linkTrees (link : Tree × Tree) : List Tree := [link.1, link.2]

/-- An item of a block: an expression, which a semicolon makes a statement. -/
def itemTree : Tree × Option Tree → Tree
  | (expression, none) => expression
  | (expression, some semicolon) => node .statement [expression, semicolon]

/-- The tree may stand in the place. -/
inductive Fits : Place → Tree → Prop where
  | block {opening closing : Tree} {items : List (Tree × Option Tree)}
      (ho : IsLeaf [.leftBrace] opening) (hi : ∀ i ∈ items, Fits .expression i.1)
      (hs : ∀ i ∈ items, ∀ s ∈ i.2, IsLeaf [.semicolon] s) (hc : IsLeaf [.rightBrace] closing) :
      Fits .block (node .blockExpression (opening :: items.map itemTree ++ [closing]))
  | blockless {term : Tree} (ht : Fits .term term) :
      Fits .blockless (node .blocklessExpression [term])
  | braced {t : Tree} (h : Fits .block t) : Fits .expression t
  | bare {t : Tree} (h : Fits .blockless t) : Fits .expression t
  | term {first : Tree} {links : List (Tree × Tree)} (hf : Fits .factor first)
      (hs : ∀ l ∈ links, IsLeaf [.plus, .minus] l.1) (hl : ∀ l ∈ links, Fits .factor l.2) :
      Fits .term (node .term (first :: links.flatMap linkTrees))
  | factor {first : Tree} {links : List (Tree × Tree)} (hf : Fits .element first)
      (hs : ∀ l ∈ links, IsLeaf [.star, .slash] l.1) (hl : ∀ l ∈ links, Fits .element l.2) :
      Fits .factor (node .factor (first :: links.flatMap linkTrees))
  | element {head : Tree} (hh : IsLeaf [.integer, .identifier] head) :
      Fits .element (node .element [head])
  | call {name list : Tree} (hn : IsLeaf [.identifier] name) (hl : Fits .argumentList list) :
      Fits .element (node .functionCall [name, list])
  | noArguments {opening closing : Tree} (ho : IsLeaf [.leftParen] opening)
      (hc : IsLeaf [.rightParen] closing) :
      Fits .argumentList (node .argumentList [opening, closing])
  | arguments {opening first closing : Tree} {links : List (Tree × Tree)}
      (ho : IsLeaf [.leftParen] opening) (hf : Fits .expression first)
      (hs : ∀ l ∈ links, IsLeaf [.comma] l.1) (hl : ∀ l ∈ links, Fits .expression l.2)
      (hc : IsLeaf [.rightParen] closing) :
      Fits .argumentList
        (node .argumentList (opening :: first :: links.flatMap linkTrees ++ [closing]))

/-- In the place there are chains of operands, with signs of the kinds between them. -/
inductive IsChain : Place → Rule → List Token.Kind → Place → Prop where
  | term : IsChain .term .term [.plus, .minus] .factor
  | factor : IsChain .factor .factor [.star, .slash] .element

/-- The trees of a parameter: a name, a colon and a type name. -/
def IsParam (ts : List Tree) : Prop :=
  ∃ name colon type, ts = [name, colon, type] ∧
    IsLeaf [.identifier] name ∧ IsLeaf [.colon] colon ∧ IsLeaf [.identifier] type

/-- The trees of a parameter that is not the first, with the comma in front of it. -/
def IsCommaParam (ts : List Tree) : Prop :=
  ∃ comma param, ts = comma :: param ∧ IsLeaf [.comma] comma ∧ IsParam param

inductive IsParamList : Tree → Prop where
  | empty {opening closing : Tree} (ho : IsLeaf [.leftParen] opening)
      (hc : IsLeaf [.rightParen] closing) : IsParamList (node .paramList [opening, closing])
  | params {opening closing : Tree} {first : List Tree} {others : List (List Tree)}
      (ho : IsLeaf [.leftParen] opening) (hf : IsParam first) (hp : ∀ p ∈ others, IsCommaParam p)
      (hc : IsLeaf [.rightParen] closing) :
      IsParamList (node .paramList (opening :: first ++ others.flatten ++ [closing]))

/-- The trees of a function behind its keyword. -/
def IsSignatureAndBody (ts : List Tree) : Prop :=
  ∃ name params colon type body, ts = [name, params, colon, type, body] ∧
    IsLeaf [.identifier] name ∧ IsParamList params ∧ IsLeaf [.colon] colon ∧
    IsLeaf [.identifier] type ∧ Fits .block body

inductive IsFunction : Tree → Prop where
  | impure {keyword : Tree} {rest : List Tree} (hk : IsLeaf [.imp] keyword)
      (hr : IsSignatureAndBody rest) : IsFunction (node .impureFunction (keyword :: rest))
  | pure {keyword : Option Tree} {rest : List Tree} (hk : ∀ k ∈ keyword, IsLeaf [.fn] k)
      (hr : IsSignatureAndBody rest) : IsFunction (node .pureFunction (keyword.toList ++ rest))

inductive IsProgram : Tree → Prop where
  | mk {functions : List Tree} {eof : Tree} (hf : ∀ f ∈ functions, IsFunction f)
      (he : IsLeaf [.eof] eof) : IsProgram (node .program (functions ++ [eof]))

/-- The tree follows the grammar, and whatever stands in front of its tokens is white space. -/
structure WellFormed (t : Tree) : Prop where
  isProgram : IsProgram t
  blanks : ∀ l ∈ t.leaves, ∀ w ∈ l.leading, w.kind = .whitespace

@[simp] theorem forestLeaves_append (ts us : List Tree) :
    forestLeaves (ts ++ us) = forestLeaves ts ++ forestLeaves us := by
  induction ts with
  | nil => rfl
  | cons t ts ih => simp [forestLeaves, ih]

theorem forestLeaves_eq_flatMap (ts : List Tree) : forestLeaves ts = ts.flatMap leaves := by
  induction ts with
  | nil => rfl
  | cons t ts ih => rw [forestLeaves, ih, List.flatMap_cons]

theorem mem_forestLeaves {l : Leaf} {ts : List Tree} :
    l ∈ forestLeaves ts ↔ ∃ t ∈ ts, l ∈ t.leaves := by
  induction ts with
  | nil => simp [forestLeaves]
  | cons t ts ih => simp [forestLeaves, ih]

@[simp] theorem forestRuleDepth_le_iff {ts : List Tree} {n : Nat} :
    forestRuleDepth ts ≤ n ↔ ∀ t ∈ ts, t.ruleDepth ≤ n := by
  induction ts with
  | nil => simp [forestRuleDepth]
  | cons t ts ih => rw [forestRuleDepth, Nat.max_le, ih, List.forall_mem_cons]

theorem forestRuleDepth_eq_foldr (ts : List Tree) :
    forestRuleDepth ts = (ts.map ruleDepth).foldr max 0 := by
  induction ts with
  | nil => rfl
  | cons t ts ih => rw [forestRuleDepth, ih, List.map_cons, List.foldr_cons]

theorem forestRuleDepth_append (ts us : List Tree) :
    forestRuleDepth (ts ++ us) = max (forestRuleDepth ts) (forestRuleDepth us) := by
  induction ts with
  | nil => simp [forestRuleDepth]
  | cons t ts ih => simp [forestRuleDepth, ih, Nat.max_assoc]

@[simp] theorem forestRuleDepth_singleton (t : Tree) : forestRuleDepth [t] = t.ruleDepth := by
  simp [forestRuleDepth]

theorem ruleDepth_node_le_succ {rule : Rule} {children : List Tree} {n : Nat}
    (h : rule.levels = 1) :
    (node rule children).ruleDepth ≤ n + 1 ↔ ∀ t ∈ children, t.ruleDepth ≤ n := by
  rw [ruleDepth, h, Nat.add_comm, Nat.add_le_add_iff_right, forestRuleDepth_le_iff]

@[simp] theorem forestTokensOnto_blanks (following ws : List Token) :
    forestTokensOnto following (ws.map blank) = ws ++ following := by
  induction ws with
  | nil => rfl
  | cons w ws ih => simp [forestTokensOnto, tokensOnto, ih]

@[simp] theorem leaves_ofLeaf (l : Leaf) : (ofLeaf l).leaves = [l] := by
  simp [ofLeaf, leaves]

@[simp] theorem ruleDepth_ofLeaf (l : Leaf) : (ofLeaf l).ruleDepth = 0 := by
  simp [ofLeaf, ruleDepth]

theorem forestRuleDepth_enclosed (o c : Leaf) (ts : List Tree) :
    forestRuleDepth (ofLeaf o :: ts ++ [ofLeaf c]) = forestRuleDepth ts := by
  simp [forestRuleDepth, forestRuleDepth_append]

theorem forall_mem_enclosed {P : Tree → Prop} {opening closing : Tree} {ts : List Tree}
    (ho : P opening) (hts : ∀ t ∈ ts, P t) (hc : P closing) :
    ∀ t ∈ opening :: ts ++ [closing], P t :=
  List.forall_mem_append.2 ⟨List.forall_mem_cons.2 ⟨ho, hts⟩, List.forall_mem_singleton.2 hc⟩

theorem IsLeaf.ruleDepth_le {kinds : List Token.Kind} {t : Tree} (h : IsLeaf kinds t) (n : Nat) :
    t.ruleDepth ≤ n := by
  obtain ⟨l, rfl, -⟩ := h
  simp

/-- The kinds of the tokens in a parameter list. -/
def paramListKinds : List Token.Kind := [.leftParen, .identifier, .colon, .comma, .rightParen]

theorem IsLeaf.mono {kinds kinds' : List Token.Kind} {t : Tree} (h : IsLeaf kinds t)
    (hk : ∀ k ∈ kinds, k ∈ kinds') : IsLeaf kinds' t := by
  obtain ⟨l, rfl, hl⟩ := h
  exact ⟨l, rfl, hk _ hl⟩

theorem IsParam.isLeaf {ts : List Tree} (h : IsParam ts) :
    ∀ t ∈ ts, IsLeaf paramListKinds t := by
  obtain ⟨name, colon, type, rfl, hn, hc, ht⟩ := h
  simpa using ⟨hn.mono (by decide), hc.mono (by decide), ht.mono (by decide)⟩

/-- A parameter list is nothing but leaves in a row. -/
theorem IsParamList.exists_leaves {t : Tree} (h : IsParamList t) :
    ∃ ts, t = node .paramList ts ∧ ∀ t ∈ ts, IsLeaf paramListKinds t := by
  cases h with
  | empty ho hc =>
    exact ⟨_, rfl, by simpa using ⟨ho.mono (by decide), hc.mono (by decide)⟩⟩
  | @params opening closing first others ho hf hp hc =>
    have hothers : ∀ t ∈ others.flatten, IsLeaf paramListKinds t := by
      intro t ht
      obtain ⟨p, hm, ht⟩ := List.mem_flatten.1 ht
      obtain ⟨comma, param, rfl, hcomma, hparam⟩ := hp p hm
      exact List.forall_mem_cons.2 ⟨hcomma.mono (by decide), hparam.isLeaf⟩ t ht
    have hparams := List.forall_mem_append.2 ⟨hf.isLeaf, hothers⟩
    exact ⟨_, rfl, forall_mem_enclosed (ho.mono (by decide)) hparams (hc.mono (by decide))⟩

/-- A property of leaves inside functions that nodes take over from their children. -/
structure Hereditary (P : Tree → Prop) : Prop where
  leaf : ∀ l : Leaf, l.kind ≠ .eof → l.kind ≠ .whitespace → P (ofLeaf l)
  node : ∀ rule children, (∀ t ∈ children, P t) → P (.node rule children)

variable {P : Tree → Prop}

theorem IsLeaf.of_hereditary {kinds : List Token.Kind} {t : Tree} (h : IsLeaf kinds t)
    (hP : Hereditary P) (heof : .eof ∉ kinds := by decide)
    (hblank : .whitespace ∉ kinds := by decide) : P t := by
  obtain ⟨l, rfl, hl⟩ := h
  exact hP.leaf l (fun e => heof (e ▸ hl)) (fun e => hblank (e ▸ hl))

theorem forall_mem_flatMap_linkTrees {links : List (Tree × Tree)} (hs : ∀ l ∈ links, P l.1)
    (hl : ∀ l ∈ links, P l.2) : ∀ t ∈ links.flatMap linkTrees, P t := by
  intro t ht
  obtain ⟨l, hm, ht⟩ := List.mem_flatMap.1 ht
  have hpair : P l.1 ∧ P l.2 := ⟨hs l hm, hl l hm⟩
  exact List.forall_mem_cons.2 ⟨hpair.1, by simpa using hpair.2⟩ t ht

private theorem of_hereditary_itemTree {i : Tree × Option Tree} (hP : Hereditary P) (hi : P i.1)
    (hs : ∀ s ∈ i.2, P s) : P (itemTree i) := by
  obtain ⟨t, _ | s⟩ := i
  · exact hi
  · exact hP.node _ _ (by simpa using ⟨hi, hs s rfl⟩)

theorem Fits.of_hereditary {place : Place} {t : Tree} (h : Fits place t) (hP : Hereditary P) :
    P t := by
  induction h with
  | @block opening closing items ho _ hs hc ih =>
    have hitems : ∀ t ∈ items.map itemTree, P t := by
      intro t ht
      obtain ⟨i, hm, rfl⟩ := List.mem_map.1 ht
      exact of_hereditary_itemTree hP (ih i hm) fun s hm' => (hs i hm s hm').of_hereditary hP
    exact hP.node _ _
      (forall_mem_enclosed (ho.of_hereditary hP) hitems (hc.of_hereditary hP))
  | blockless _ ih => exact hP.node _ _ (by simpa using ih)
  | braced _ ih => exact ih
  | bare _ ih => exact ih
  | term _ hs _ ihf ihl =>
    exact hP.node _ _ (List.forall_mem_cons.2
      ⟨ihf, forall_mem_flatMap_linkTrees (fun l hm => (hs l hm).of_hereditary hP) ihl⟩)
  | factor _ hs _ ihf ihl =>
    exact hP.node _ _ (List.forall_mem_cons.2
      ⟨ihf, forall_mem_flatMap_linkTrees (fun l hm => (hs l hm).of_hereditary hP) ihl⟩)
  | element hh => exact hP.node _ _ (by simpa using hh.of_hereditary hP)
  | call hn _ ih => exact hP.node _ _ (by simpa using ⟨hn.of_hereditary hP, ih⟩)
  | noArguments ho hc =>
    exact hP.node _ _ (by simpa using ⟨ho.of_hereditary hP, hc.of_hereditary hP⟩)
  | arguments ho _ hs _ hc ihf ihl =>
    have hlinks := forall_mem_flatMap_linkTrees (fun l hm => (hs l hm).of_hereditary hP) ihl
    have harguments := List.forall_mem_cons.2 ⟨ihf, hlinks⟩
    exact hP.node _ _
      (forall_mem_enclosed (ho.of_hereditary hP) harguments (hc.of_hereditary hP))

theorem IsParamList.of_hereditary {t : Tree} (h : IsParamList t) (hP : Hereditary P) : P t := by
  obtain ⟨ts, rfl, hts⟩ := h.exists_leaves
  exact hP.node _ _ fun t ht => (hts t ht).of_hereditary hP

theorem IsSignatureAndBody.of_hereditary {ts : List Tree} (h : IsSignatureAndBody ts)
    (hP : Hereditary P) : ∀ t ∈ ts, P t := by
  obtain ⟨name, params, colon, type, body, rfl, hn, hp, hc, ht, hb⟩ := h
  simpa using ⟨hn.of_hereditary hP, hp.of_hereditary hP, hc.of_hereditary hP,
    ht.of_hereditary hP, hb.of_hereditary hP⟩

theorem IsFunction.of_hereditary {t : Tree} (h : IsFunction t) (hP : Hereditary P) : P t := by
  cases h with
  | impure hk hr =>
    exact hP.node _ _ (List.forall_mem_cons.2 ⟨hk.of_hereditary hP, hr.of_hereditary hP⟩)
  | pure hk hr =>
    refine hP.node _ _ (List.forall_mem_append.2 ⟨fun t ht => ?_, hr.of_hereditary hP⟩)
    exact (hk t (by simpa using ht)).of_hereditary hP

/-- Every token of the tree belongs to one of its leaves. -/
def Covered (t : Tree) : Prop :=
  ∀ following, t.tokensOnto following = t.leaves.flatMap Leaf.tokens ++ following

theorem covered_ofLeaf (l : Leaf) : (ofLeaf l).Covered := fun following => by
  simp [ofLeaf, tokensOnto, leaves, Leaf.tokens]

theorem covered_node {rule : Rule} {children : List Tree} (h : ∀ t ∈ children, t.Covered) :
    (node rule children).Covered := by
  intro following
  simp only [tokensOnto, leaves]
  induction children with
  | nil => rfl
  | cons t ts ih =>
    have ht := h t List.mem_cons_self
    have hts := ih fun u hu => h u (List.mem_cons_of_mem _ hu)
    simp [forestTokensOnto, forestLeaves, hts, ht _]

theorem hereditary_covered : Hereditary Covered :=
  ⟨fun l _ _ => covered_ofLeaf l, fun _ _ => covered_node⟩

theorem IsProgram.tokens_eq {t : Tree} (h : IsProgram t) :
    t.tokens = t.leaves.flatMap Leaf.tokens := by
  obtain @⟨functions, eof, hf, l, rfl, -⟩ := h
  have hcovered : (node .program (functions ++ [ofLeaf l])).Covered :=
    covered_node (List.forall_mem_append.2
      ⟨fun f hm => (hf f hm).of_hereditary hereditary_covered, by simpa using covered_ofLeaf l⟩)
  simpa [tokens] using hcovered []

/-- Only the last leaf of a program is an end of input, and no leaf is white space. -/
theorem hereditary_kinds :
    Hereditary fun t => ∀ l ∈ t.leaves, l.kind ≠ .eof ∧ l.kind ≠ .whitespace where
  leaf l heof hblank := by simpa using ⟨heof, hblank⟩
  node rule children h l hl := by
    obtain ⟨t, ht, hl⟩ := mem_forestLeaves.1 hl
    exact h t ht l hl

end Tree

end FunImp
