import FunImp.Proofs.Lowering.Lossless
import FunImp.Proofs.Typing.Rules

/-! # Where expressions may stand

The grammar again, for the expressions that its trees become. A chain of operators is an operand
with another one to the right of it, any number of times. The bare expressions of a program are
those that its tree has without braces. -/

namespace FunImp

open FunImp.Tree (IsChain)

namespace Expr

/-- The expression may stand in the place. A statement may stand where an expression may. -/
inductive Fits : Tree.Place → Expr → Prop where
  | block {id : NodeId} {o c : Leaf} {children : List Expr} (ho : o.kind = .leftBrace)
      (h : ∀ e ∈ children, Fits .expression e) (hc : c.kind = .rightBrace) :
      Fits .block (.block id o children c)
  | blockless {id : NodeId} {child : Expr} (h : Fits .term child) :
      Fits .blockless (.bare id child)
  | braced {e : Expr} (h : Fits .block e) : Fits .expression e
  | bare {e : Expr} (h : Fits .blockless e) : Fits .expression e
  | statement {id : NodeId} {child : Expr} {s : Leaf} (h : Fits .expression child)
      (hs : s.kind = .semicolon) : Fits .expression (.statement id child s)
  | operand {place operand : Tree.Place} {rule : Rule} {kinds : List Token.Kind} {e : Expr}
      (hc : IsChain place rule kinds operand) (h : Fits operand e) : Fits place e
  | link {place operand : Tree.Place} {rule : Rule} {kinds : List Token.Kind} {id : NodeId}
      {left right : Expr} {op : Operator} {sign : Leaf} (hc : IsChain place rule kinds operand)
      (hl : Fits place left) (hs : sign.kind ∈ kinds)
      (hop : Operator.ofKind? sign.kind = some op) (hr : Fits operand right) :
      Fits place (.binary id left op sign right)
  | integer {id : NodeId} {l : Leaf} (hl : l.kind = .integer) : Fits .element (.integer id l)
  | reference {id : NodeId} {l : Leaf} (hl : l.kind = .identifier) :
      Fits .element (.reference id l)
  | call {id : NodeId} {n o c : Leaf} {arguments : Separated Expr} (hn : n.kind = .identifier)
      (ho : o.kind = .leftParen) (ha : ∀ a ∈ arguments, Fits .expression a.1)
      (hcomma : ∀ a ∈ arguments, ∀ l ∈ a.2, l.kind = .comma) (hc : c.kind = .rightParen) :
      Fits .element (.call id n o arguments c)

theorem compositional_fits : Tree.Compositional fun place _ e => e.Fits place where
  block {o c items es} id ho hc h := by
    refine .block ho (fun e he => ?_) hc
    obtain ⟨t, -, hte⟩ := exists_mem_of_forall₂_right h he
    exact hte
  blockless id h := .blockless h
  braced h := .braced h
  bare h := .bare h
  statement id _ hs h := .statement h hs
  operand hc h := .operand hc h
  link id hc hl hs hop hr := .link hc hl hs hop hr
  integer id hl := .integer hl
  reference id hl := .reference hl
  call {n o c trees arguments} id hn ho hc hcomma h := by
    refine .call hn ho (fun a ha => ?_) (fun a ha => ?_) hc
    · obtain ⟨t, -, hta, -⟩ := exists_mem_of_forall₂_right h ha
      exact hta
    · obtain ⟨t, ht, -, hsame⟩ := exists_mem_of_forall₂_right h ha
      exact hsame ▸ hcomma t ht

variable {place : Tree.Place} {e n : Expr}

/-- What is inside an expression may stand somewhere. -/
theorem Fits.of_mem_nodes (h : e.Fits place) (hn : n ∈ e.nodes) : ∃ place, n.Fits place := by
  induction h with
  | @block id o c children ho h hc ih =>
    rcases List.mem_append.1 hn with hn | hn
    · obtain ⟨e, he, hn⟩ := mem_allNodes.1 hn
      exact ih e he hn
    · obtain rfl := List.mem_singleton.1 hn
      exact ⟨_, .block ho h hc⟩
  | blockless h ih =>
    rcases List.mem_append.1 hn with hn | hn
    · exact ih hn
    · obtain rfl := List.mem_singleton.1 hn
      exact ⟨_, .blockless h⟩
  | braced _ ih => exact ih hn
  | bare _ ih => exact ih hn
  | statement h hs ih =>
    rcases List.mem_append.1 hn with hn | hn
    · exact ih hn
    · obtain rfl := List.mem_singleton.1 hn
      exact ⟨_, .statement h hs⟩
  | operand _ _ ih => exact ih hn
  | link hc hl hs hop hr ihl ihr =>
    rcases List.mem_append.1 hn with hn | hn
    · exact (List.mem_append.1 hn).elim ihl ihr
    · obtain rfl := List.mem_singleton.1 hn
      exact ⟨_, .link hc hl hs hop hr⟩
  | integer hl =>
    obtain rfl := List.mem_singleton.1 hn
    exact ⟨_, .integer hl⟩
  | reference hl =>
    obtain rfl := List.mem_singleton.1 hn
    exact ⟨_, .reference hl⟩
  | call hname ho ha hcomma hc ih =>
    rcases List.mem_append.1 hn with hn | hn
    · obtain ⟨a, ha, hn⟩ := mem_argumentNodes.1 hn
      exact ih a ha hn
    · obtain rfl := List.mem_singleton.1 hn
      exact ⟨_, .call hname ho ha hcomma hc⟩

theorem Fits.child {id : NodeId} {child : Expr} (h : (Expr.bare id child).Fits place) :
    child.Fits .term := by
  generalize he : Expr.bare id child = e at h
  induction h with
  | blockless h =>
    cases he
    exact h
  | braced _ ih | bare _ ih | operand _ _ ih => exact ih he
  | _ => cases he

/-- An operator stands in a chain, with the chain in front of it to the left and an operand to the
right. -/
theorem Fits.sides {id : NodeId} {left right : Expr} {op : Operator} {sign : Leaf}
    (h : (Expr.binary id left op sign right).Fits place) :
    ∃ place rule kinds operand, IsChain place rule kinds operand ∧ left.Fits place ∧
      sign.kind ∈ kinds ∧ Operator.ofKind? sign.kind = some op ∧ right.Fits operand := by
  generalize he : Expr.binary id left op sign right = e at h
  induction h with
  | link hc hl hs hop hr =>
    cases he
    exact ⟨_, _, _, _, hc, hl, hs, hop, hr⟩
  | braced _ ih | bare _ ih | operand _ _ ih => exact ih he
  | _ => cases he

/-- The arguments of a call stand in parentheses. -/
theorem Fits.parentheses {id : NodeId} {n o c : Leaf} {arguments : Separated Expr}
    (h : (Expr.call id n o arguments c).Fits place) :
    o.kind = .leftParen ∧ c.kind = .rightParen := by
  generalize he : Expr.call id n o arguments c = e at h
  induction h with
  | call _ ho _ _ hc =>
    cases he
    exact ⟨ho, hc⟩
  | braced _ ih | bare _ ih | operand _ _ ih => exact ih he
  | _ => cases he

end Expr

theorem Tree.IsProgram.fits_of_mem_nodes {t : Tree} {p : Program} (ht : t.IsProgram)
    (hp : lower t = .ok p) {n : Expr} (hn : n ∈ p.nodes) : ∃ place, n.Fits place := by
  obtain ⟨f, hf, hn⟩ := List.mem_flatMap.1 hn
  obtain ⟨functions, eof, rfl, hbodies⟩ := ht.functionOf Expr.compositional_fits hp
  obtain ⟨t, -, _, _, _, -, -, -, hbody⟩ := exists_mem_of_forall₂_right hbodies hf
  exact Expr.Fits.of_mem_nodes hbody hn

namespace Tree

mutual

/-- The tree and everything in it, parts before wholes. -/
def nodes : Tree → List Tree
  | node rule children => forestNodes children ++ [node rule children]
  | leaf leading token => forestNodes leading ++ [leaf leading token]
  | blank token => [blank token]

/-- The nodes of trees in a row. -/
def forestNodes : List Tree → List Tree
  | [] => []
  | t :: ts => nodes t ++ forestNodes ts

end

/-- The expressions without braces in the tree. -/
def blockless (t : Tree) : List Tree := t.nodes.filter (·.head = .rule .blocklessExpression)

theorem forestNodes_eq_flatMap (ts : List Tree) : forestNodes ts = ts.flatMap nodes := by
  induction ts with
  | nil => rfl
  | cons t ts ih => rw [forestNodes, ih, List.flatMap_cons]

theorem flatMap_blockless (ts : List Tree) :
    ts.flatMap blockless = (forestNodes ts).filter (·.head = .rule .blocklessExpression) := by
  rw [forestNodes_eq_flatMap, List.filter_flatMap]
  rfl

theorem blockless_node (rule : Rule) (children : List Tree) :
    (node rule children).blockless = children.flatMap blockless ++
      if rule = .blocklessExpression then [node rule children] else [] := by
  simp [flatMap_blockless, blockless, nodes, List.filter_singleton, head]

@[simp] theorem blockless_ofLeaf (l : Leaf) : (ofLeaf l).blockless = [] := by
  have hleaf : (ofLeaf l).blockless = (l.leading.map blank).flatMap blockless := by
    simp [flatMap_blockless, ofLeaf, blockless, nodes, head]
  rw [hleaf, List.flatMap_map]
  exact List.flatMap_eq_nil_iff.2 fun w _ => rfl

theorem blockless_chain {rule : Rule} (h : rule = .term ∨ rule = .factor) (children : List Tree) :
    (node rule children).blockless = children.flatMap blockless := by
  rcases h with rfl | rfl <;> simp [blockless_node]

theorem flatMap_blockless_map_ofLeaf (ls : List Leaf) : (ls.map ofLeaf).flatMap blockless = [] := by
  simp [List.flatMap_map]

end Tree

/-- The expression that a bare one wraps. -/
def Expr.unwrap? : Expr → Option Expr
  | .bare _ child => some child
  | _ => none

theorem Expr.unwrap?_eq_some_iff {n child : Expr} :
    n.unwrap? = some child ↔ ∃ id, n = .bare id child := by
  cases n <;> simp [unwrap?]

/-- What the bare expressions in the expression wrap. -/
def Expr.unwrapped (e : Expr) : List Expr := e.nodes.filterMap Expr.unwrap?

namespace Expr

theorem unwrapped_block (id : NodeId) (o : Leaf) (children : List Expr) (c : Leaf) :
    (block id o children c).unwrapped = children.flatMap unwrapped := by
  have hunwrapped : unwrapped = fun e => e.nodes.filterMap unwrap? := rfl
  simp [hunwrapped, nodes, allNodes_eq_flatMap, List.filterMap_flatMap, unwrap?]

theorem unwrapped_bare (id : NodeId) (child : Expr) :
    (bare id child).unwrapped = child.unwrapped ++ [child] := by
  simp [unwrapped, nodes, unwrap?]

theorem unwrapped_statement (id : NodeId) (child : Expr) (s : Leaf) :
    (statement id child s).unwrapped = child.unwrapped := by
  simp [unwrapped, nodes, unwrap?]

theorem unwrapped_binary (id : NodeId) (left : Expr) (op : Operator) (s : Leaf) (right : Expr) :
    (binary id left op s right).unwrapped = left.unwrapped ++ right.unwrapped := by
  simp [unwrapped, nodes, unwrap?]

theorem unwrapped_call (id : NodeId) (n o : Leaf) (arguments : Separated Expr) (c : Leaf) :
    (call id n o arguments c).unwrapped = arguments.flatMap fun a => a.1.unwrapped := by
  simp [unwrapped, nodes, argumentNodes_eq_flatMap, List.filterMap_flatMap, unwrap?]

end Expr

/-- What the bare expressions of the program wrap. -/
def Program.unwrapped (p : Program) : List Expr := p.nodes.filterMap Expr.unwrap?

theorem Program.unwrapped_eq_flatMap (p : Program) :
    p.unwrapped = p.functions.flatMap (·.body.unwrapped) :=
  List.filterMap_flatMap

namespace Tree

variable {s s' : NodeId}

theorem Becomes.map_tokens_blockless {t : Tree} {e : Expr} (h : Becomes t s e s') :
    t.blockless.map tokens = e.unwrapped.map Expr.tokens := by
  induction h with
  | @block o c row s s' _ _ _ _ ih =>
    have hrow : row.flatMap (fun x => x.tree.blockless.map tokens) =
        row.flatMap (fun x => x.value.unwrapped.map Expr.tokens) := List.flatMap_congr ih
    simp [blockless_node, Expr.unwrapped_block, List.flatMap_map, List.map_flatMap, hrow]
  | bare h ih => simp [blockless_node, Expr.unwrapped_bare, ih, h.tokens_eq]
  | statement _ _ ih => simp [blockless_node, Expr.unwrapped_statement, ih]
  | operand hrule _ ih => simp [blockless_chain hrule, ih]
  | link hrule _ _ _ ihl ihr =>
    rw [blockless_chain hrule] at ihl
    simp [blockless_chain hrule, Expr.unwrapped_binary, ← ihl, ihr]
  | integer => simp [blockless_node, Expr.unwrapped, Expr.nodes, Expr.unwrap?]
  | reference => simp [blockless_node, Expr.unwrapped, Expr.nodes, Expr.unwrap?]
  | @call n o c row s s' _ _ _ _ _ _ _ ih =>
    have hrow : row.flatMap (fun x =>
          (argumentTrees (x.1.tree, x.2)).flatMap fun t => t.blockless.map tokens) =
        row.flatMap (fun x => x.1.value.unwrapped.map Expr.tokens) :=
      List.flatMap_congr fun x hx => by simp [argumentTrees, ih x hx, List.flatMap_map]
    simp [blockless_node, Expr.unwrapped_call, List.flatMap_map, List.flatMap_assoc,
      List.map_flatMap, hrow]

theorem map_tokens_blockless {t : Tree} {p : Program} (h : Returns t.toProgram s p s') :
    t.blockless.map tokens = p.unwrapped.map Expr.tokens := by
  obtain ⟨row, rfl, hrow, -, hfunctions, -⟩ := returns_toProgram_iff.1 h
  have hbodies : row.flatMap (fun x => x.tree.blockless.map tokens) =
      row.flatMap (fun x => x.value.body.unwrapped.map Expr.tokens) :=
    List.flatMap_congr fun x hx => by
      obtain ⟨rule, body, hx, hrule, -, -, hbody⟩ := returns_toFunction_iff.1 (hrow x hx)
      rw [hx, ← hbody.map_tokens_blockless]
      rcases List.mem_pair.1 hrule with rfl | rfl <;>
        simp [blockless_node, FunctionDecl.children, flatMap_blockless_map_ofLeaf]
  simp [blockless_node, Program.unwrapped_eq_flatMap, hfunctions, List.flatMap_map,
    List.map_flatMap, hbodies]

end Tree

end FunImp
