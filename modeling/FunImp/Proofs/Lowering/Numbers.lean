import Mathlib.Data.List.Nodup
import Mathlib.Data.List.Induction
import FunImp.Proofs.Lowering.Functions
import FunImp.Proofs.Typing.Rules

/-! # The numbers of nodes

Trees may be lowered one after the other, with numbers drawn from where the tree before stopped.
The nodes of a program then have the numbers from the first that was free to the last that was
drawn, parts before wholes. A tree that is no program wastes the numbers it has drawn, but gives
none back, so that no number is ever drawn twice. -/

namespace FunImp

/-- The nodes have the numbers from the first one up to the next that is free. -/
structure Numbered (s : NodeId) (nodes : List Expr) (s' : NodeId) : Prop where
  ids : nodes.map Expr.id = List.range' s nodes.length
  next : s' = s + nodes.length

namespace Numbered

theorem nil {s : NodeId} : Numbered s [] s := ⟨rfl, rfl⟩

theorem single {s : NodeId} {e : Expr} (h : e.id = s) : Numbered s [e] (s + 1) :=
  ⟨congrArg ([·]) h, rfl⟩

theorem append {s t u : NodeId} {ns ms : List Expr} (hn : Numbered s ns t)
    (hm : Numbered t ms u) : Numbered s (ns ++ ms) u where
  ids := by
    rw [List.map_append, hn.ids, hm.ids, hn.next, List.length_append, List.range'_append_1]
  next := by
    rw [hm.next, hn.next, List.length_append, Nat.add_assoc]

/-- The nodes of a row are those of its members one after the other. -/
theorem flatMap {α : Type} (nodes : α → List Expr) {row : List (Lowered α)} {s s' : NodeId}
    (h : ∀ x ∈ row, Numbered x.first (nodes x.value) x.next) (hs : Lowered.Linked s row s') :
    Numbered s (row.flatMap fun x => nodes x.value) s' := by
  induction row generalizing s with
  | nil =>
    obtain rfl : s = s' := hs
    exact nil
  | cons x row ih =>
    obtain ⟨hx, hrow⟩ := List.forall_mem_cons.1 h
    obtain ⟨rfl, hs⟩ := hs
    exact hx.append (ih hrow hs)

end Numbered

namespace Tree

variable {s s' : NodeId}

theorem Becomes.numbered {t : Tree} {e : Expr} (h : Becomes t s e s') :
    Numbered s e.nodes s' := by
  induction h with
  | @block o c row s s' _ _ hs _ ih =>
    rw [Expr.nodes, Expr.allNodes_eq_flatMap, List.flatMap_map]
    exact (Numbered.flatMap Expr.nodes ih hs).append (.single rfl)
  | bare _ ih =>
    rw [Expr.nodes]
    exact ih.append (.single rfl)
  | statement _ _ ih =>
    rw [Expr.nodes]
    exact ih.append (.single rfl)
  | operand _ _ ih => exact ih
  | link _ _ _ _ ihl ihr =>
    rw [Expr.nodes]
    exact (ihl.append ihr).append (.single rfl)
  | integer => exact .single rfl
  | reference => exact .single rfl
  | @call n o c row s s' _ _ _ _ _ hs _ ih =>
    have hrow := Numbered.flatMap Expr.nodes (List.forall_mem_map.2 ih) hs
    rw [List.flatMap_map] at hrow
    rw [Expr.nodes, Expr.argumentNodes_eq_flatMap, List.flatMap_map]
    exact hrow.append (.single rfl)

theorem numbered_of_returns_toProgram {t : Tree} {p : Program}
    (h : Returns t.toProgram s p s') : Numbered s p.nodes s' := by
  obtain ⟨row, -, hrow, hs, hfunctions, -⟩ := returns_toProgram_iff.1 h
  have hbodies : ∀ x ∈ row, Numbered x.first x.value.body.nodes x.next := by
    intro x hx
    obtain ⟨_, _, -, -, -, -, hbody⟩ := returns_toFunction_iff.1 (hrow x hx)
    exact hbody.numbered
  rw [Program.nodes, hfunctions, List.flatMap_map]
  exact .flatMap (fun f => f.body.nodes) hbodies hs

end Tree

/-- Whatever comes of the computation, the next number afterwards is not below the one before. -/
def Grows {α : Type} (m : Numbering α) : Prop := ∀ s : NodeId, s ≤ (m.run.run s).2

namespace Grows

variable {α β : Type} {m : Numbering α} {f : α → Numbering β}

theorem pure (a : α) : Grows (Pure.pure a) := fun s => Nat.le_refl s

theorem throw (e : LoweringError) : Grows (MonadExcept.throw e : Numbering α) :=
  fun s => Nat.le_refl s

theorem lift (x : Except LoweringError α) : Grows (liftM x) := fun s => Nat.le_refl s

theorem fresh : Grows Numbering.fresh := fun s => Nat.le_succ s

theorem bind (hm : Grows m) (hf : ∀ a, Grows (f a)) : Grows (m >>= f) := by
  intro s
  have hs := hm s
  rw [run_bind_eq]
  rcases hrun : m.run.run s with ⟨e | a, t⟩
  · rwa [hrun] at hs
  · rw [hrun] at hs
    exact Nat.le_trans hs (hf a t)

theorem lift_bind (x : Except LoweringError α) (hf : ∀ a, Grows (f a)) :
    Grows ((liftM x : Numbering α) >>= f) :=
  (lift x).bind hf

theorem ite {c : Prop} [Decidable c] {m m' : Numbering α} (h : Grows m) (h' : Grows m') :
    Grows (if c then m else m') := by
  split
  · exact h
  · exact h'

end Grows

namespace Tree

theorem grows_collect {α : Type} {f : Tree → Numbering α} {ts : List Tree}
    (h : ∀ t ∈ ts, Grows (f t)) (done : List α) : Grows (collect f done ts) := by
  induction ts generalizing done with
  | nil => exact .pure _
  | cons t ts ih =>
    obtain ⟨ht, hts⟩ := List.forall_mem_cons.1 h
    exact .ite (.pure _) (ht.bind fun a => ih hts (a :: done))

theorem grows_elementToExpr (ts : List Tree) : Grows (elementToExpr ts) := by
  cases ts with
  | nil => exact .throw _
  | cons t ts =>
    refine .lift_bind _ fun l => .lift_bind _ fun _ => ?_
    split
    · exact Grows.fresh.bind fun _ => .pure _
    · exact Grows.fresh.bind fun _ => .pure _
    · exact .throw _

section Children

variable {ts : List Tree}

theorem grows_blockToExpr (h : ∀ t ∈ ts, Grows t.toExpr) : Grows (blockToExpr ts) := by
  cases ts with
  | nil => exact .throw _
  | cons t ts =>
    have hitems : Grows (itemsToExprs [] ts) := by
      rw [itemsToExprs_eq_collect]
      exact grows_collect (List.forall_mem_cons.1 h).2 []
    rw [blockToExpr]
    refine .lift_bind _ fun o => hitems.bind fun r => .lift_bind _ fun c => .lift_bind _ fun _ => ?_
    exact Grows.fresh.bind fun _ => .pure _

theorem grows_blocklessToExpr (h : ∀ t ∈ ts, Grows t.toExpr) : Grows (blocklessToExpr ts) := by
  cases ts with
  | nil => exact .throw _
  | cons t ts =>
    rw [blocklessToExpr]
    refine (h t List.mem_cons_self).bind fun e => .lift_bind _ fun _ => ?_
    exact Grows.fresh.bind fun _ => .pure _

theorem grows_statementToExpr (h : ∀ t ∈ ts, Grows t.toExpr) : Grows (statementToExpr ts) := by
  cases ts with
  | nil => exact .throw _
  | cons t ts =>
    rw [statementToExpr]
    refine (h t List.mem_cons_self).bind fun e => .lift_bind _ fun r => .lift_bind _ fun _ => ?_
    exact Grows.fresh.bind fun _ => .pure _

theorem grows_linksToExpr {rule : Rule} (h : ∀ t ∈ ts, Grows t.toExpr) (left : Expr) :
    Grows (linksToExpr rule left ts) := by
  induction ts using List.twoStepInduction generalizing left with
  | nil => exact .pure left
  | singleton t =>
    rw [linksToExpr]
    exact .lift_bind _ fun sign => .lift_bind _ fun op => .throw _
  | cons_cons t u ts ih =>
    obtain ⟨-, hu, hts⟩ : Grows t.toExpr ∧ Grows u.toExpr ∧ ∀ v ∈ ts, Grows v.toExpr := by
      simpa only [List.forall_mem_cons] using h
    rw [linksToExpr]
    refine .lift_bind _ fun sign => .lift_bind _ fun op => hu.bind fun right => ?_
    exact Grows.fresh.bind fun id => ih hts _

theorem grows_chainToExpr {rule : Rule} (h : ∀ t ∈ ts, Grows t.toExpr) :
    Grows (chainToExpr rule ts) := by
  cases ts with
  | nil => exact .throw _
  | cons t ts =>
    obtain ⟨ht, hts⟩ := List.forall_mem_cons.1 h
    rw [chainToExpr]
    exact ht.bind fun left => grows_linksToExpr hts left

theorem grows_itemsToArguments (h : ∀ t ∈ ts, Grows t.toExpr) (done : Separated Expr) :
    Grows (itemsToArguments done ts) := by
  induction ts using List.twoStepInduction generalizing done with
  | nil => exact .pure _
  | singleton t =>
    have ht := h t List.mem_cons_self
    rw [itemsToArguments]
    exact .ite (.pure _) (.ite (ht.bind fun e => .pure _) (.throw _))
  | cons_cons t u ts ih ihu =>
    obtain ⟨ht, hrest⟩ := List.forall_mem_cons.1 h
    obtain ⟨-, hts⟩ := List.forall_mem_cons.1 hrest
    rw [itemsToArguments]
    refine .ite (.pure _) (.ite (ht.bind fun e => .ite ?_ ?_) (.throw _))
    · exact .lift_bind _ fun l => ih hts _
    · exact ihu u hrest _

theorem grows_toArguments {list : Tree} (h : ∀ t ∈ list.children, Grows t.toExpr) :
    Grows list.toArguments := by
  unfold toArguments
  split
  · rename_i children
    cases children with
    | nil => exact .throw _
    | cons t ts =>
      have hitems := grows_itemsToArguments (List.forall_mem_cons.1 h).2 []
      rw [argumentListToArguments]
      refine .lift_bind _ fun o => hitems.bind fun r => .lift_bind _ fun c => ?_
      exact .lift_bind _ fun _ => .pure _
  · exact .throw _

theorem grows_callToExpr (h : ∀ t ∈ ts, ∀ u ∈ t.children, Grows u.toExpr) :
    Grows (callToExpr ts) := by
  rcases ts with _ | ⟨t, _ | ⟨list, ts⟩⟩
  · exact .throw _
  · rw [callToExpr]
    exact .lift_bind _ fun n => .throw _
  · have hlist := grows_toArguments (h list (by simp))
    rw [callToExpr]
    refine .lift_bind _ fun n => hlist.bind fun r => .lift_bind _ fun _ => ?_
    exact Grows.fresh.bind fun _ => .pure _

end Children

theorem grows_toExpr (t : Tree) : Grows t.toExpr ∧ ∀ u ∈ t.children, Grows u.toExpr := by
  induction t using Tree.induct with
  | leaf leading token ih => exact ⟨.throw _, fun u hu => (ih u hu).1⟩
  | blank token => exact ⟨.throw _, by simp [children]⟩
  | node rule children ih =>
    have hts : ∀ t ∈ children, Grows t.toExpr := fun t ht => (ih t ht).1
    refine ⟨?_, hts⟩
    cases rule with
    | blockExpression => simpa only [toExpr] using grows_blockToExpr hts
    | blocklessExpression => simpa only [toExpr] using grows_blocklessToExpr hts
    | statement => simpa only [toExpr] using grows_statementToExpr hts
    | term => simpa only [toExpr] using grows_chainToExpr hts
    | factor => simpa only [toExpr] using grows_chainToExpr hts
    | element => simpa only [toExpr] using grows_elementToExpr children
    | functionCall => simpa only [toExpr] using grows_callToExpr fun t ht => (ih t ht).2
    | _ => exact .throw _

theorem grows_childrenToFunction (parent : Rule) (ts : List Tree) :
    Grows (childrenToFunction parent ts) := by
  have hbody (t : Tree) : Grows t.bodyToExpr := .ite (grows_toExpr t).1 (.throw _)
  rw [childrenToFunction]
  refine .lift_bind _ fun k => .lift_bind _ fun n => .lift_bind _ fun list => ?_
  refine .lift_bind _ fun ps => .lift_bind _ fun ty => .lift_bind _ fun body => ?_
  exact (hbody body.1).bind fun e => .lift_bind _ fun _ => .pure _

theorem grows_toFunction (t : Tree) : Grows t.toFunction := by
  unfold toFunction
  split
  · exact grows_childrenToFunction _ _
  · exact grows_childrenToFunction _ _
  · exact .throw _

theorem grows_toProgram (t : Tree) : Grows t.toProgram := by
  unfold toProgram
  split
  · rename_i children
    have hfunctions : Grows (toFunctions [] children) := by
      rw [toFunctions_eq_collect]
      exact grows_collect (fun t _ => grows_toFunction t) []
    exact hfunctions.bind fun r => .lift_bind _ fun eof => .lift_bind _ fun _ => .pure _
  · exact .throw _

end Tree

/-- What comes of lowering the tree with the numbers from `s` on. -/
def Tree.lowerFrom (t : Tree) (s : NodeId) : Lowered (Except LoweringError Program) where
  tree := t
  first := s
  value := (t.toProgram.run.run s).1
  next := (t.toProgram.run.run s).2

/-- Lowers trees one after the other, each with the numbers that the one before has left. -/
def lowerAll (s : NodeId) : List Tree → List (Lowered (Except LoweringError Program))
  | [] => []
  | t :: ts => t.lowerFrom s :: lowerAll (t.lowerFrom s).next ts

/-- The numbers of the nodes of the program, if there is one. -/
def Lowered.numbers (x : Lowered (Except LoweringError Program)) : List NodeId :=
  match x.value with
  | .ok p => p.nodes.map Expr.id
  | .error _ => []

namespace Tree

variable {t : Tree} {s : NodeId}

theorem first_le_next_lowerFrom : s ≤ (t.lowerFrom s).next := grows_toProgram t s

theorem ids_of_lowerFrom {p : Program} (h : (t.lowerFrom s).value = .ok p) :
    p.nodes.map Expr.id = List.range' s ((t.lowerFrom s).next - s) := by
  have hreturns : Returns t.toProgram s p (t.lowerFrom s).next := Prod.ext h rfl
  obtain ⟨hids, hnext⟩ := numbered_of_returns_toProgram hreturns
  rw [hids, hnext, Nat.add_sub_cancel_left]

/-- The numbers of a program are in order, and they lie between those before and those behind. -/
theorem numbers_lowerFrom (t : Tree) (s : NodeId) :
    (t.lowerFrom s).numbers.Pairwise (· < ·) ∧
      ∀ n ∈ (t.lowerFrom s).numbers, s ≤ n ∧ n < (t.lowerFrom s).next := by
  rw [Lowered.numbers]
  split
  · rename_i p hp
    have hle := first_le_next_lowerFrom (t := t) (s := s)
    rw [ids_of_lowerFrom hp]
    refine ⟨List.pairwise_lt_range', fun n hn => ?_⟩
    rwa [List.mem_range'_1, Nat.add_sub_cancel' hle] at hn
  · simp

end Tree

theorem numbers_lowerAll (s : NodeId) (ts : List Tree) :
    ((lowerAll s ts).flatMap Lowered.numbers).Pairwise (· < ·) ∧
      ∀ n ∈ (lowerAll s ts).flatMap Lowered.numbers, s ≤ n := by
  induction ts generalizing s with
  | nil => simp [lowerAll]
  | cons t ts ih =>
    have hle := Tree.first_le_next_lowerFrom (t := t) (s := s)
    obtain ⟨hfirst, hbetween⟩ := t.numbers_lowerFrom s
    obtain ⟨hrest, hbehind⟩ := ih (t.lowerFrom s).next
    rw [lowerAll, List.flatMap_cons, List.pairwise_append, List.forall_mem_append]
    refine ⟨⟨hfirst, hrest, fun n hn m hm => ?_⟩, fun n hn => (hbetween n hn).1, fun n hn => ?_⟩
    · exact Nat.lt_of_lt_of_le (hbetween n hn).2 (hbehind m hm)
    · exact Nat.le_trans hle (hbehind n hn)

/-- Over a whole session the nodes of each program have the numbers between the one that was free
before it and the one that is free behind it, parts before wholes; a tree that is no program gives
no number back; and no two nodes have the same number. -/
theorem lowerAll_dense (s : NodeId) (ts : List Tree) :
    (∀ x ∈ lowerAll s ts, x.first ≤ x.next ∧ ∀ p, x.value = .ok p →
        p.nodes.map Expr.id = List.range' x.first (x.next - x.first)) ∧
      ((lowerAll s ts).flatMap Lowered.numbers).Nodup := by
  refine ⟨?_, (numbers_lowerAll s ts).1.imp Nat.ne_of_lt⟩
  induction ts generalizing s with
  | nil => exact List.forall_mem_nil _
  | cons t ts ih =>
    refine List.forall_mem_cons.2 ⟨⟨Tree.first_le_next_lowerFrom, fun p hp => ?_⟩, ih _⟩
    exact Tree.ids_of_lowerFrom hp

/-- A program of one function, whose body has a number in front of the trees. -/
private def numberAnd (ts : List Tree) : Tree :=
  let l (kind : Token.Kind) : Tree := .ofLeaf ⟨[], ⟨kind, none, default, ""⟩⟩
  let body := l .leftBrace :: .node .element [l .integer] :: ts ++ [l .rightBrace]
  .node .program [.node .pureFunction [l .identifier,
    .node .paramList [l .leftParen, l .rightParen], l .colon, l .identifier,
    .node .blockExpression body], l .eof]

/-- The tree in the middle has an element without a token. The number drawn before is lost. -/
example :
    (lowerAll 0 [numberAnd [], numberAnd [.node .element []], numberAnd []]).map
        (fun x => (x.first, x.numbers, x.next)) =
      [(0, [0, 1], 2), (2, [], 3), (3, [3, 4], 5)] := by
  decide

end FunImp
