import FunImp.Token.Lexer
import FunImp.Proofs.Grammar.Parse
import FunImp.Proofs.Lowering.Total

/-! # How deep programs are

Passes over a program recurse once for every expression on the way to the deepest one. The parser
bounds how many rules are open at once, but reads a chain of operators in one rule, while the
program nests such a chain to the left. So programs are as deep as chains are long, and their
depth is bounded if and only if the lengths of the chains are. -/

namespace FunImp

namespace Expr

mutual

/-- The greatest number of expressions one inside the other. -/
def depth : Expr → Nat
  | block _ _ children _ => allDepth children + 1
  | bare _ child => depth child + 1
  | statement _ child _ => depth child + 1
  | binary _ left _ _ right => max (depth left) (depth right) + 1
  | integer _ _ => 1
  | reference _ _ => 1
  | call _ _ _ arguments _ => argumentDepth arguments + 1

/-- The greatest depth of expressions in a row. -/
def allDepth : List Expr → Nat
  | [] => 0
  | e :: es => max (depth e) (allDepth es)

/-- The greatest depth of arguments. -/
def argumentDepth : Separated Expr → Nat
  | [] => 0
  | (e, _) :: rest => max (depth e) (argumentDepth rest)

end

theorem allDepth_le_iff {es : List Expr} {n : Nat} :
    allDepth es ≤ n ↔ ∀ e ∈ es, e.depth ≤ n := by
  induction es with
  | nil => simp [allDepth]
  | cons e es ih => rw [allDepth, Nat.max_le, ih, List.forall_mem_cons]

theorem argumentDepth_le_iff {es : Separated Expr} {n : Nat} :
    argumentDepth es ≤ n ↔ ∀ e ∈ es, e.1.depth ≤ n := by
  induction es with
  | nil => simp [argumentDepth]
  | cons e es ih => rw [argumentDepth, Nat.max_le, ih, List.forall_mem_cons]

theorem depth_le_allDepth {e : Expr} {es : List Expr} (h : e ∈ es) : e.depth ≤ allDepth es :=
  allDepth_le_iff.1 (Nat.le_refl _) e h

theorem depth_le_argumentDepth {e : Expr × Option Leaf} {es : Separated Expr} (h : e ∈ es) :
    e.1.depth ≤ argumentDepth es :=
  argumentDepth_le_iff.1 (Nat.le_refl _) e h

end Expr

/-- The depth of the deepest body. -/
def Program.depth (p : Program) : Nat := Expr.allDepth (p.functions.map (·.body))

/-- How many operators stand side by side in a node with so many children. -/
def Rule.operators (rule : Rule) (children : Nat) : Nat :=
  if rule = .term ∨ rule = .factor then children / 2 else 0

theorem Rule.operators_add_two_le (rule : Rule) (children : Nat) :
    rule.operators (children + 2) ≤ rule.operators children + 1 := by
  unfold operators
  split <;> omega

namespace Tree

mutual

/-- The greatest number of operators side by side in one term or factor. -/
def longestChain : Tree → Nat
  | node rule children => max (rule.operators children.length) (forestLongestChain children)
  | leaf _ _ => 0
  | blank _ => 0

/-- The longest chain of trees in a row. -/
def forestLongestChain : List Tree → Nat
  | [] => 0
  | t :: ts => max (longestChain t) (forestLongestChain ts)

end

theorem forestLongestChain_le_iff {ts : List Tree} {n : Nat} :
    forestLongestChain ts ≤ n ↔ ∀ t ∈ ts, t.longestChain ≤ n := by
  induction ts with
  | nil => simp [forestLongestChain]
  | cons t ts ih => rw [forestLongestChain, Nat.max_le, ih, List.forall_mem_cons]

theorem longestChain_node_le_iff {rule : Rule} {children : List Tree} {n : Nat} :
    (node rule children).longestChain ≤ n ↔
      rule.operators children.length ≤ n ∧ ∀ t ∈ children, t.longestChain ≤ n := by
  rw [longestChain, Nat.max_le, forestLongestChain_le_iff]

theorem longestChain_le_node {t : Tree} {rule : Rule} {children : List Tree} (h : t ∈ children) :
    t.longestChain ≤ (node rule children).longestChain :=
  (longestChain_node_le_iff.1 (Nat.le_refl _)).2 t h

/-- Where no operators stand side by side a node adds nothing. -/
theorem longestChain_node_le {rule : Rule} {children : List Tree} {n : Nat}
    (hrule : ¬(rule = .term ∨ rule = .factor)) :
    (node rule children).longestChain ≤ n ↔ ∀ t ∈ children, t.longestChain ≤ n := by
  rw [longestChain_node_le_iff, Rule.operators, if_neg hrule]
  exact ⟨And.right, fun h => ⟨Nat.zero_le n, h⟩⟩

@[simp] theorem longestChain_ofLeaf (l : Leaf) : (ofLeaf l).longestChain = 0 := by
  simp [ofLeaf, longestChain]

theorem longestChain_enclosed_le {rule : Rule} {o c : Leaf} {ts : List Tree} {n : Nat}
    (hrule : ¬(rule = .term ∨ rule = .factor)) :
    (node rule (ofLeaf o :: ts ++ [ofLeaf c])).longestChain ≤ n ↔
      ∀ t ∈ ts, t.longestChain ≤ n := by
  rw [longestChain_node_le hrule, List.forall_mem_append]
  simp

private theorem longestChain_le_allDepth {ts : List Tree} {es : List Expr}
    (h : List.Forall₂ (fun t e => t.longestChain ≤ e.depth) ts es) :
    ∀ t ∈ ts, t.longestChain ≤ Expr.allDepth es := by
  intro t ht
  obtain ⟨e, he, hte⟩ := exists_mem_of_forall₂_left h ht
  exact Nat.le_trans hte (Expr.depth_le_allDepth he)

private theorem longestChain_le_argumentDepth {trees : List (Tree × Option Leaf)}
    {es : Separated Expr}
    (h : List.Forall₂ (fun t e => t.1.longestChain ≤ e.1.depth ∧ t.2 = e.2) trees es) :
    ∀ t ∈ trees.flatMap argumentTrees, t.longestChain ≤ Expr.argumentDepth es := by
  intro u hu
  obtain ⟨t, ht, hu⟩ := List.mem_flatMap.1 hu
  rcases List.mem_cons.1 hu with rfl | hu
  · obtain ⟨e, he, hte, -⟩ := exists_mem_of_forall₂_left h ht
    exact Nat.le_trans hte (Expr.depth_le_argumentDepth he)
  · obtain ⟨l, -, rfl⟩ := List.mem_map.1 hu
    simp

/-- An expression is at least as deep as the longest chain it was written with. -/
theorem compositional_longestChain : Compositional fun _ t e => t.longestChain ≤ e.depth where
  block id _ _ h := by
    have hitems := longestChain_le_allDepth h
    rw [longestChain_enclosed_le (by decide), Expr.depth]
    exact fun t ht => Nat.le_succ_of_le (hitems t ht)
  blockless id h := by
    rw [longestChain_node_le (by decide), List.forall_mem_singleton, Expr.depth]
    exact Nat.le_succ_of_le h
  braced := id
  bare := id
  statement id _ _ h := by
    rw [longestChain_node_le (by decide), Expr.depth]
    simpa using Nat.le_succ_of_le h
  operand _ h := by
    rw [longestChain_node_le_iff, List.forall_mem_singleton, Rule.operators]
    exact ⟨by split <;> simp, h⟩
  link {place rule kinds operand children left s t right op} id _ hl _ _ hr := by
    rw [longestChain_node_le_iff] at hl ⊢
    obtain ⟨hoperators, hchildren⟩ := hl
    have hdepth : (Expr.binary id left op s right).depth = max left.depth right.depth + 1 := by
      rw [Expr.depth]
    have hgrow := rule.operators_add_two_le children.length
    have hlength : (children ++ [ofLeaf s, t]).length = children.length + 2 := List.length_append
    rw [hdepth, hlength, List.forall_mem_append]
    refine ⟨by omega, fun u hu => ?_, ?_⟩
    · have := hchildren u hu
      omega
    · simp only [List.forall_mem_cons, longestChain_ofLeaf]
      exact ⟨by omega, by omega, by simp⟩
  integer id _ := by
    rw [longestChain_node_le (by decide)]
    simp
  reference id _ := by
    rw [longestChain_node_le (by decide)]
    simp
  call {n o c trees arguments} id _ _ _ _ h := by
    have hlist : (node .argumentList
        (ofLeaf o :: trees.flatMap argumentTrees ++ [ofLeaf c])).longestChain ≤
          Expr.argumentDepth arguments :=
      (longestChain_enclosed_le (by decide)).2 (longestChain_le_argumentDepth h)
    rw [longestChain_node_le (by decide), List.forall_mem_cons, List.forall_mem_singleton,
      Expr.depth]
    exact ⟨by simp, Nat.le_succ_of_le hlist⟩

/-- How deep the expression of a tree can be if no chain is longer than `K`. -/
def allowance (K : Nat) : Tree → Nat
  | node .statement children => forestRuleDepth children * (K + 3) + 1
  | node .term children => forestRuleDepth children * (K + 3) + children.length / 2 + 1
  | node .factor children => forestRuleDepth children * (K + 3) + children.length / 2 + 1
  | t => t.ruleDepth * (K + 3)

theorem ruleDepth_le_forestRuleDepth {t : Tree} {ts : List Tree} (h : t ∈ ts) :
    t.ruleDepth ≤ forestRuleDepth ts :=
  forestRuleDepth_le_iff.1 (Nat.le_refl _) t h

/-- Opening a rule makes room for a chain and three expressions more. -/
theorem ruleDepth_mul (rule : Rule) (h : rule.levels = 1) (children : List Tree) (K : Nat) :
    (node rule children).ruleDepth * (K + 3) = forestRuleDepth children * (K + 3) + K + 3 := by
  rw [ruleDepth, h, Nat.add_mul]
  omega

theorem allowance_le {K : Nat} {t : Tree} (h : t.longestChain ≤ K) :
    allowance K t ≤ t.ruleDepth * (K + 3) + 1 := by
  cases t with
  | node rule children =>
    have hoperators := (longestChain_node_le_iff.1 h).1
    by_cases hstatement : rule = .statement
    · simp [hstatement, allowance, ruleDepth, Rule.levels]
    · have hlevels : rule.levels = 1 := by cases rule <;> first | rfl | contradiction
      have hroom := ruleDepth_mul rule hlevels children K
      by_cases hchain : rule = .term ∨ rule = .factor
      · rw [Rule.operators, if_pos hchain] at hoperators
        rcases hchain with rfl | rfl <;> simp only [allowance] <;> omega
      · have hallowance : allowance K (node rule children) =
            (node rule children).ruleDepth * (K + 3) := by
          cases rule <;> first | rfl | simp at hchain hstatement
        omega
  | leaf => simp [allowance]
  | blank => simp [allowance]

theorem allowance_of_isBody {t : Tree} (h : t.isBody = true) (K : Nat) :
    allowance K t = t.ruleDepth * (K + 3) := by
  cases t with
  | node rule children =>
    have hrule : rule = .blockExpression ∨ rule = .blocklessExpression := by
      simpa [isBody, head] using h
    rcases hrule with rfl | rfl
    · rfl
    · rfl
  | leaf => rfl
  | blank => rfl

/-- The depth of the expression is in the allowance of the tree. -/
def Allowed (t : Tree) (e : Expr) : Prop :=
  ∀ K, t.longestChain ≤ K → e.depth ≤ allowance K t

theorem Allowed.depth_le {t : Tree} {e : Expr} (h : Allowed t e) {K D : Nat}
    (hK : t.longestChain ≤ K) (hD : t.ruleDepth ≤ D) : e.depth ≤ D * (K + 3) + 1 := by
  have hmono := Nat.mul_le_mul_right (K + 3) hD
  have hallowance := allowance_le hK
  have hdepth := h K hK
  omega

private theorem allDepth_le {ts : List Tree} {es : List Expr} (h : List.Forall₂ Allowed ts es)
    {K D : Nat} (hK : ∀ t ∈ ts, t.longestChain ≤ K) (hD : ∀ t ∈ ts, t.ruleDepth ≤ D) :
    Expr.allDepth es ≤ D * (K + 3) + 1 := by
  rw [Expr.allDepth_le_iff]
  intro e he
  obtain ⟨t, ht, hte⟩ := exists_mem_of_forall₂_right h he
  exact hte.depth_le (hK t ht) (hD t ht)

private theorem argumentDepth_le {trees : List (Tree × Option Leaf)} {es : Separated Expr}
    (h : List.Forall₂ (fun t e => Allowed t.1 e.1 ∧ t.2 = e.2) trees es) {K D : Nat}
    (hK : ∀ t ∈ trees.flatMap argumentTrees, t.longestChain ≤ K)
    (hD : ∀ t ∈ trees.flatMap argumentTrees, t.ruleDepth ≤ D) :
    Expr.argumentDepth es ≤ D * (K + 3) + 1 := by
  rw [Expr.argumentDepth_le_iff]
  intro e he
  obtain ⟨t, ht, hte, -⟩ := exists_mem_of_forall₂_right h he
  have hmem : t.1 ∈ trees.flatMap argumentTrees :=
    List.mem_flatMap.2 ⟨t, ht, List.mem_cons_self⟩
  exact hte.depth_le (hK _ hmem) (hD _ hmem)

theorem compositional_allowed : Compositional fun _ => Allowed where
  block {o c items es} id _ _ h K hK := by
    rw [longestChain_enclosed_le (by decide)] at hK
    have hitems := allDepth_le h hK fun t => ruleDepth_le_forestRuleDepth
    have hroom := ruleDepth_mul .blockExpression rfl (ofLeaf o :: items ++ [ofLeaf c]) K
    rw [forestRuleDepth_enclosed] at hroom
    simp only [Expr.depth, allowance]
    omega
  blockless {t e} id h K hK := by
    rw [longestChain_node_le (by decide), List.forall_mem_singleton] at hK
    have hchild := h.depth_le hK (Nat.le_refl _)
    have hroom := ruleDepth_mul .blocklessExpression rfl [t] K
    rw [forestRuleDepth_singleton] at hroom
    simp only [Expr.depth, allowance]
    omega
  braced := id
  bare := id
  statement {t e s} id hbody _ h K hK := by
    rw [longestChain_node_le (by decide), List.forall_mem_cons] at hK
    have hchild := h K hK.1
    rw [allowance_of_isBody hbody] at hchild
    simp only [Expr.depth, allowance, forestRuleDepth, ruleDepth_ofLeaf, Nat.max_zero]
    omega
  operand {place rule kinds operand t e} hchain h K hK := by
    rw [longestChain_node_le_iff, List.forall_mem_singleton] at hK
    have hchild := h.depth_le hK.2 (Nat.le_refl _)
    rcases hchain.rule_eq with rfl | rfl
    · simpa [allowance] using hchild
    · simpa [allowance] using hchild
  link {place rule kinds operand children left s t right op} id hchain hl _ _ hr K hK := by
    have hrule := hchain.rule_eq
    rw [longestChain_node_le_iff, List.forall_mem_append, Rule.operators, if_pos hrule,
      List.length_append] at hK
    obtain ⟨hlength, hchildren, hlink⟩ := hK
    have hoperators : children.length / 2 ≤ K :=
      Nat.le_trans (Nat.div_le_div_right (Nat.le_add_right _ _)) hlength
    have hleft := hl K (longestChain_node_le_iff.2
      ⟨by rwa [Rule.operators, if_pos hrule], hchildren⟩)
    have hright := hr.depth_le (hlink t (by simp)) (Nat.le_refl _)
    have hdepth : forestRuleDepth (children ++ [ofLeaf s, t]) =
        max (forestRuleDepth children) t.ruleDepth := by
      simp [forestRuleDepth_append, forestRuleDepth]
    have hmono := Nat.mul_le_mul_right (K + 3)
      (Nat.le_max_left (forestRuleDepth children) t.ruleDepth)
    have hmono' := Nat.mul_le_mul_right (K + 3)
      (Nat.le_max_right (forestRuleDepth children) t.ruleDepth)
    rcases hrule with rfl | rfl
    · simp only [Expr.depth, allowance, hdepth, List.length_append, List.length_cons,
        List.length_nil] at hleft ⊢
      omega
    · simp only [Expr.depth, allowance, hdepth, List.length_append, List.length_cons,
        List.length_nil] at hleft ⊢
      omega
  integer {l} id _ K _ := by
    have hroom := ruleDepth_mul .element rfl [ofLeaf l] K
    simp only [Expr.depth, allowance]
    omega
  reference {l} id _ K _ := by
    have hroom := ruleDepth_mul .element rfl [ofLeaf l] K
    simp only [Expr.depth, allowance]
    omega
  call {n o c trees arguments} id _ _ _ _ h K hK := by
    rw [longestChain_node_le (by decide), List.forall_mem_cons, List.forall_mem_singleton,
      longestChain_enclosed_le (by decide)] at hK
    have harguments := argumentDepth_le h hK.2 fun t => ruleDepth_le_forestRuleDepth
    have hlist (t : Tree) : forestRuleDepth [ofLeaf n, t] = t.ruleDepth := by
      simp [forestRuleDepth]
    have hroom := ruleDepth_mul .argumentList rfl
      (ofLeaf o :: trees.flatMap argumentTrees ++ [ofLeaf c]) K
    have hroom' := ruleDepth_mul .functionCall rfl
      [ofLeaf n, node .argumentList (ofLeaf o :: trees.flatMap argumentTrees ++ [ofLeaf c])] K
    rw [forestRuleDepth_enclosed] at hroom
    rw [hlist] at hroom'
    simp only [Expr.depth, allowance]
    omega

theorem IsLeaf.longestChain_le {kinds : List Token.Kind} {t : Tree} (h : IsLeaf kinds t)
    (n : Nat) : t.longestChain ≤ n := by
  obtain ⟨l, rfl, -⟩ := h
  simp

theorem IsParamList.longestChain_le {t : Tree} (h : IsParamList t) (n : Nat) :
    t.longestChain ≤ n := by
  obtain ⟨ts, rfl, hts⟩ := h.exists_leaves
  exact (longestChain_node_le (by decide)).2 fun t ht => (hts t ht).longestChain_le n

theorem FunctionOf.longestChain_le {t : Tree} {f : FunctionDecl}
    (h : FunctionOf (fun t e => t.longestChain ≤ e.depth) t f) : t.longestChain ≤ f.body.depth := by
  obtain ⟨rule, front, body, rfl, hrule, hfront, hbody⟩ := h
  rw [longestChain_node_le (by rintro (rfl | rfl) <;> simp at hrule), List.forall_mem_append]
  refine ⟨fun c hc => ?_, List.forall_mem_singleton.2 hbody⟩
  rcases hfront c hc with ⟨l, rfl⟩ | hparams
  · simp
  · exact hparams.longestChain_le _

theorem FunctionOf.depth_le {t : Tree} {f : FunctionDecl} (h : FunctionOf Allowed t f) {K D : Nat}
    (hK : t.longestChain ≤ K) (hD : t.ruleDepth ≤ D) : f.body.depth ≤ D * (K + 3) := by
  obtain ⟨rule, front, body, rfl, hrule, -, hbody⟩ := h
  have hmem : body ∈ front ++ [body] := by simp
  have hlevels : rule.levels = 1 := by
    rcases List.mem_pair.1 hrule with rfl | rfl <;> rfl
  have hdepth := hbody.depth_le ((longestChain_node_le_iff.1 hK).2 body hmem)
    (ruleDepth_le_forestRuleDepth hmem)
  have hroom := ruleDepth_mul rule hlevels (front ++ [body]) K
  have hmono := Nat.mul_le_mul_right (K + 3) hD
  omega

end Tree

/-- The program of a tree is as deep as chains are long, up to a factor that the parser bounds. -/
theorem depth_of_lower {t : Tree} {p : Program} (ht : t.IsProgram) (hp : lower t = .ok p) :
    t.longestChain ≤ p.depth ∧ p.depth ≤ t.ruleDepth * (t.longestChain + 3) := by
  constructor
  · obtain ⟨functions, eof, rfl, hbodies⟩ := ht.functionOf Tree.compositional_longestChain hp
    rw [Tree.longestChain_node_le (by decide), List.forall_mem_append]
    refine ⟨fun t ht => ?_, by simp⟩
    obtain ⟨f, hf, htf⟩ := exists_mem_of_forall₂_left hbodies ht
    exact Nat.le_trans htf.longestChain_le (Expr.depth_le_allDepth (List.mem_map_of_mem hf))
  · obtain ⟨functions, eof, rfl, hbodies⟩ := ht.functionOf Tree.compositional_allowed hp
    rw [Program.depth, Expr.allDepth_le_iff, List.forall_mem_map]
    intro f hf
    obtain ⟨t, ht, htf⟩ := exists_mem_of_forall₂_right hbodies hf
    have hmem : t ∈ functions ++ [Tree.ofLeaf eof] := List.mem_append_left _ ht
    refine htf.depth_le (Tree.longestChain_le_node hmem) ?_
    exact Nat.le_trans (Tree.ruleDepth_le_forestRuleDepth hmem) (Nat.le_add_left _ _)

/-- The source can be read as the tree. -/
def Source.HasTree (source : Source) (t : Tree) : Prop :=
  ∃ tokens, lex source = .ok tokens ∧ parse tokens source = .ok t

theorem Source.HasTree.wellFormed {source : Source} {t : Tree} (h : source.HasTree t) :
    t.WellFormed ∧ t.ruleDepth ≤ maxDepth := by
  obtain ⟨tokens, -, hparse⟩ := h
  obtain ⟨hwf, hdepth, -⟩ := parse_eq_ok_iff.1 hparse
  exact ⟨hwf, hdepth⟩

/-- What the source is read as. -/
def Source.read? (source : Source) : Option (Tree × Program) := do
  let ts ← (lex source).toOption
  let t ← (parse ts source).toOption
  let p ← (lower t).toOption
  return (t, p)

theorem Source.exists_of_map_read? {source : Source} {α : Type} {f : Tree × Program → α} {a : α}
    (h : source.read?.map f = some a) :
    ∃ ts t p, lex source = .ok ts ∧ parse ts source = .ok t ∧ lower t = .ok p ∧ f (t, p) = a := by
  rw [read?] at h
  obtain ⟨_, h, hf⟩ := Option.map_eq_some_iff.1 h
  obtain ⟨ts, hlex, h⟩ := Option.bind_eq_some_iff.1 h
  obtain ⟨t, hparse, h⟩ := Option.bind_eq_some_iff.1 h
  obtain ⟨p, hlower, h⟩ := Option.bind_eq_some_iff.1 h
  obtain rfl := Option.some.inj h
  have hok {ε β : Type} {x : Except ε β} {b : β} (h : x.toOption = some b) : x = .ok b := by
    cases x with
    | error => cases h
    | ok => exact congrArg Except.ok (Option.some.inj h)
  exact ⟨ts, t, p, hok hlex, hok hparse, hok hlower, hf⟩

/-- Among some texts, programs are of bounded depth if and only if chains of operators are of
bounded length. -/
theorem depth_bounded_iff_chains_bounded (texts : Source → Prop) :
    (∃ B, ∀ source t p, texts source → source.HasTree t → lower t = .ok p → p.depth ≤ B) ↔
      ∃ K, ∀ source t, texts source → source.HasTree t → t.longestChain ≤ K := by
  constructor
  · rintro ⟨B, hB⟩
    refine ⟨B, fun source t hs ht => ?_⟩
    have hprogram := ht.wellFormed.1.isProgram
    obtain ⟨p, hp⟩ := hprogram.lower_eq_ok
    exact Nat.le_trans (depth_of_lower hprogram hp).1 (hB source t p hs ht hp)
  · rintro ⟨K, hK⟩
    refine ⟨maxDepth * (K + 3), fun source t p hs ht hp => ?_⟩
    obtain ⟨hwf, hdepth⟩ := ht.wellFormed
    have hchain := hK source t hs ht
    calc p.depth ≤ t.ruleDepth * (t.longestChain + 3) := (depth_of_lower hwf.isProgram hp).2
      _ ≤ maxDepth * (K + 3) := Nat.mul_le_mul hdepth (Nat.add_le_add_right hchain 3)

end FunImp
