import Mathlib.Logic.Relation
import FunImp.Proofs.Program.Leaves
import FunImp.Proofs.Typing.Rules

/-! # The nodes of a program

A program as one tree of nodes of all sorts, down to single tokens. The leaves of a node are those
of its children one after the other, so that what is inside a program has a run of its leaves. -/

namespace FunImp

/-- A part of a program. -/
inductive Node where
  | program (p : Program)
  | function (f : FunctionDecl)
  | paramList (ps : ParamList)
  | param (q : Param)
  | typeSpec (ty : TypeSpec)
  | expr (e : Expr)
  | argumentList (opening : Leaf) (arguments : Separated Expr) (closing : Leaf)
  | leaf (l : Leaf)

namespace Node

def leaves : Node → List Leaf
  | program p => p.leaves
  | function f => f.leaves
  | paramList ps => ps.leaves
  | param q => q.leaves
  | typeSpec ty => ty.leaves
  | expr e => e.leaves
  | argumentList opening arguments closing =>
    opening :: Expr.argumentLeavesOnto [closing] arguments
  | leaf l => [l]

def tokens (n : Node) : List Token := n.leaves.flatMap Leaf.tokens

def sourceText (n : Node) : String := Token.sourceText n.tokens

/-- The span that the program tells for the node. -/
def span : Node → Span
  | program p => p.span
  | function f => f.span
  | paramList ps => ps.span
  | param q => q.span
  | typeSpec ty => ty.span
  | expr e => e.span
  | argumentList opening arguments closing => Expr.argumentListSpan opening arguments closing
  | leaf l => l.span

/-- The parts of a node from left to right. -/
def children : Node → List Node
  | program p => p.functions.map function ++ [leaf p.eof]
  | function f => f.keyword.toList.map leaf ++
      [leaf f.name, paramList f.parameters, typeSpec f.result, expr f.body]
  | paramList ps => leaf ps.opening :: ps.params.map param ++ [leaf ps.closing]
  | param q => leaf q.name :: typeSpec q.type :: q.comma.toList.map leaf
  | typeSpec ty => [leaf ty.colon, leaf ty.name]
  | expr (.block _ opening children closing) =>
    leaf opening :: children.map expr ++ [leaf closing]
  | expr (.bare _ child) => [expr child]
  | expr (.statement _ child semicolon) => [expr child, leaf semicolon]
  | expr (.binary _ left _ sign right) => [expr left, leaf sign, expr right]
  | expr (.integer _ literal) => [leaf literal]
  | expr (.reference _ name) => [leaf name]
  | expr (.call _ name opening arguments closing) =>
    [leaf name, argumentList opening arguments closing]
  | argumentList opening arguments closing =>
    leaf opening :: arguments.flatMap (fun a => expr a.1 :: a.2.toList.map leaf) ++ [leaf closing]
  | leaf _ => []

/-- The node is `root` or somewhere inside it. -/
def Within (root : Node) : Node → Prop :=
  Relation.ReflTransGen (fun parent child => child ∈ parent.children) root

theorem span_eq (n : Node) : n.span = Token.spanOf n.tokens := by
  cases n with
  | leaf l => exact congrArg Token.spanOf (List.flatMap_singleton Leaf.tokens l).symm
  | _ => rfl

theorem flatMap_leaves_map_leaf (ls : List Leaf) : (ls.map leaf).flatMap leaves = ls := by
  simp [List.flatMap_map, leaves]

theorem flatMap_leaves_children {n : Node} (h : ∀ l, n ≠ leaf l) :
    n.children.flatMap leaves = n.leaves := by
  cases n with
  | program p => simp [children, leaves, Program.leaves, List.flatMap_map]
  | function f => simp [children, leaves, FunctionDecl.leaves, flatMap_leaves_map_leaf]
  | paramList ps => simp [children, leaves, ParamList.leaves, List.flatMap_map]
  | param q => simp [children, leaves, Param.leaves, flatMap_leaves_map_leaf]
  | typeSpec ty => simp [children, leaves, TypeSpec.leaves]
  | expr e =>
    cases e with
    | block id o cs c => simp [children, leaves, Expr.leaves_block, List.flatMap_map]
    | bare id child => simp [children, leaves, Expr.leaves, Expr.leavesOnto]
    | statement id child s => simp [children, leaves, Expr.leaves_statement]
    | binary id l op s r => simp [children, leaves, Expr.leaves_binary]
    | integer id l => rfl
    | reference id l => rfl
    | call id n o arguments c =>
      simp [children, leaves, Expr.leaves_call, Expr.argumentLeavesOnto_eq]
  | argumentList o arguments c =>
    have harguments : arguments.flatMap (fun a => a.1.leaves ++ a.2.toList) =
        arguments.flatMap Expr.argumentLeaves := rfl
    simp [children, leaves, Expr.argumentLeavesOnto_eq, List.flatMap_assoc,
      flatMap_leaves_map_leaf, harguments]
  | leaf l => exact absurd rfl (h l)

theorem leaves_ne_nil (n : Node) : n.leaves ≠ [] := by
  cases n with
  | program p => simp [leaves, Program.leaves]
  | function f => simp [leaves, FunctionDecl.leaves]
  | expr e =>
    change e.leaves ≠ []
    induction e using Expr.induct with
    | block id o cs c => simp [Expr.leaves_block]
    | bare id child ih => exact ih
    | statement id child s => simp [Expr.leaves_statement]
    | binary id l op s r => simp [Expr.leaves_binary]
    | integer => exact List.cons_ne_nil _ _
    | reference => exact List.cons_ne_nil _ _
    | call => exact List.cons_ne_nil _ _
  | _ => exact List.cons_ne_nil _ _

/-- What is inside a node has a run of its leaves. -/
theorem Within.exists_leaves {root n : Node} (h : Within root n) :
    ∃ before behind, root.leaves = before ++ n.leaves ++ behind := by
  induction h with
  | refl => exact ⟨[], [], by simp⟩
  | @tail parent child _ hchild ih =>
    obtain ⟨before, behind, hroot⟩ := ih
    have hparent : ∀ l, parent ≠ leaf l := by
      rintro l rfl
      cases hchild
    obtain ⟨left, right, hchildren⟩ := List.append_of_mem hchild
    rw [← flatMap_leaves_children hparent, hchildren] at hroot
    exact ⟨before ++ left.flatMap leaves, right.flatMap leaves ++ behind, by simp [hroot]⟩

end Node

namespace Expr

/-- What is in an expression is inside its node. -/
theorem within_of_mem_nodes {e n : Expr} (h : n ∈ e.nodes) : (Node.expr e).Within (.expr n) := by
  induction e using induct with
  | block id o children c ih =>
    rcases List.mem_append.1 h with h | h
    · obtain ⟨child, hchild, hn⟩ := mem_allNodes.1 h
      exact .head (by simp [Node.children, hchild]) (ih child hchild hn)
    · obtain rfl := List.mem_singleton.1 h
      exact .refl
  | bare id child ih =>
    rcases List.mem_append.1 h with h | h
    · exact .head (by simp [Node.children]) (ih h)
    · obtain rfl := List.mem_singleton.1 h
      exact .refl
  | statement id child s ih =>
    rcases List.mem_append.1 h with h | h
    · exact .head (by simp [Node.children]) (ih h)
    · obtain rfl := List.mem_singleton.1 h
      exact .refl
  | binary id left op s right ihl ihr =>
    rcases List.mem_append.1 h with h | h
    · rcases List.mem_append.1 h with h | h
      · exact .head (by simp [Node.children]) (ihl h)
      · exact .head (by simp [Node.children]) (ihr h)
    · obtain rfl := List.mem_singleton.1 h
      exact .refl
  | integer id l =>
    obtain rfl := List.mem_singleton.1 h
    exact .refl
  | reference id l =>
    obtain rfl := List.mem_singleton.1 h
    exact .refl
  | call id name o arguments c ih =>
    rcases List.mem_append.1 h with h | h
    · obtain ⟨a, ha, hn⟩ := mem_argumentNodes.1 h
      have harguments : Node.expr a.1 ∈ (Node.argumentList o arguments c).children := by
        simp only [Node.children, List.mem_append, List.mem_cons, List.mem_flatMap]
        exact .inl (.inr ⟨a, ha, .inl rfl⟩)
      exact .head (by simp [Node.children]) (.head harguments (ih a ha hn))
    · obtain rfl := List.mem_singleton.1 h
      exact .refl

end Expr

theorem Program.within_of_mem_nodes {p : Program} {n : Expr} (h : n ∈ p.nodes) :
    (Node.program p).Within (.expr n) := by
  obtain ⟨f, hf, hn⟩ := List.mem_flatMap.1 h
  have hfunction : Node.function f ∈ (Node.program p).children := by simp [Node.children, hf]
  have hbody : Node.expr f.body ∈ (Node.function f).children := by simp [Node.children]
  exact .head hfunction (.head hbody (Expr.within_of_mem_nodes hn))

end FunImp
