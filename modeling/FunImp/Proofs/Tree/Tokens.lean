import FunImp.Tree.Basic

/-! # The tokens of a tree

A tree has the tokens of its children one after the other. -/

namespace FunImp.Tree

/-- Induction over trees, with all children of a node at once. -/
@[elab_as_elim]
theorem induct {P : Tree → Prop}
    (node : ∀ rule children, (∀ t ∈ children, P t) → P (.node rule children))
    (leaf : ∀ leading token, (∀ t ∈ leading, P t) → P (.leaf leading token))
    (blank : ∀ token, P (.blank token)) (t : Tree) : P t := by
  refine @Tree.rec P (fun ts => ∀ t ∈ ts, P t) node leaf blank ?_ ?_ t
  · exact List.forall_mem_nil P
  · exact fun t ts ht hts => List.forall_mem_cons.2 ⟨ht, hts⟩

private theorem forestTokensOnto_of_forall {ts : List Tree}
    (h : ∀ t ∈ ts, ∀ following, t.tokensOnto following = t.tokens ++ following)
    (following : List Token) : forestTokensOnto following ts = ts.flatMap tokens ++ following := by
  induction ts with
  | nil => rfl
  | cons t ts ih =>
    obtain ⟨ht, hts⟩ := List.forall_mem_cons.1 h
    rw [forestTokensOnto, ht, ih hts, List.flatMap_cons, List.append_assoc]

theorem tokensOnto_eq (t : Tree) (following : List Token) :
    t.tokensOnto following = t.tokens ++ following := by
  induction t using induct generalizing following with
  | node rule children ih =>
    simp only [tokens, tokensOnto, forestTokensOnto_of_forall ih, List.append_nil]
  | leaf leading token ih =>
    simp only [tokens, tokensOnto, forestTokensOnto_of_forall ih, List.append_assoc,
      List.singleton_append]
  | blank token => rfl

theorem forestTokensOnto_eq (ts : List Tree) (following : List Token) :
    forestTokensOnto following ts = ts.flatMap tokens ++ following :=
  forestTokensOnto_of_forall (fun t _ => tokensOnto_eq t) following

@[simp] theorem tokens_node (rule : Rule) (children : List Tree) :
    (node rule children).tokens = children.flatMap tokens := by
  simp [tokens, tokensOnto, forestTokensOnto_eq]

@[simp] theorem tokens_blank (token : Token) : (blank token).tokens = [token] := rfl

@[simp] theorem tokens_ofLeaf (l : Leaf) : (ofLeaf l).tokens = l.tokens := by
  have hblanks : (l.leading.map blank).flatMap tokens = l.leading := by
    simp [List.flatMap_map]
  simp [ofLeaf, tokens, tokensOnto, forestTokensOnto_eq, hblanks, Leaf.tokens]

end FunImp.Tree
