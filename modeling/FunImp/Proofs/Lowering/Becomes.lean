import Mathlib.Data.List.Induction
import FunImp.Program.OfTree
import FunImp.Proofs.Returns
import FunImp.Proofs.Rows
import FunImp.Proofs.Tree.Tokens

/-! # Which expression a tree becomes

`Becomes` states by rules on trees what lowering computes, with the numbers it draws. It covers
every tree that is lowered, also those that the grammar does not have: commas between arguments
may be missing, and statements may stand inside statements. -/

namespace FunImp

/-- A tree and what it was lowered to, with the next number before and after. -/
structure Lowered (α : Type) where
  tree : Tree
  first : NodeId
  value : α
  next : NodeId

/-- The trees of a row are lowered one after the other. -/
def Lowered.Linked {α : Type} (s : NodeId) : List (Lowered α) → NodeId → Prop
  | [], s' => s = s'
  | x :: row, s' => x.first = s ∧ Linked x.next row s'

theorem Lowered.Linked.append {α : Type} {row row' : List (Lowered α)} {s t u : NodeId}
    (h : Linked s row t) (h' : Linked t row' u) : Linked s (row ++ row') u := by
  induction row generalizing s with
  | nil =>
    obtain rfl : s = t := h
    exact h'
  | cons x row ih => exact ⟨h.1, ih h.2⟩

namespace Tree

theorem blankToken_eq_ok_iff {t : Tree} {w : Token} : t.blankToken = .ok w ↔ t = blank w := by
  cases t <;> simp [blankToken]

theorem toLeaf_eq_ok_iff {t : Tree} {l : Leaf} : t.toLeaf = .ok l ↔ t = ofLeaf l := by
  have hblanks {ts : List Tree} {ws : List Token} :
      ts.mapM blankToken = .ok ws ↔ ts = ws.map blank := by
    simp only [mapM_eq_ok_iff, blankToken_eq_ok_iff, ← List.forall₂_map_right_iff,
      List.forall₂_eq_eq_eq]
  cases t with
  | node => simp [toLeaf, ofLeaf]
  | blank => simp [toLeaf, ofLeaf]
  | leaf leading token =>
    simp only [toLeaf, except_bind_eq_ok_iff, hblanks, ofLeaf, leaf.injEq]
    constructor
    · rintro ⟨ws, rfl, h⟩
      cases h
      exact ⟨rfl, rfl⟩
    · rintro ⟨rfl, rfl⟩
      exact ⟨_, rfl, rfl⟩

theorem toLeafOf_eq_ok_iff {kind : Token.Kind} {t : Tree} {l : Leaf} :
    t.toLeafOf kind = .ok l ↔ t = ofLeaf l ∧ l.kind = kind := by
  simp only [toLeafOf, except_bind_eq_ok_iff, toLeaf_eq_ok_iff]
  constructor
  · rintro ⟨l', rfl, h⟩
    split at h
    · cases h
      exact ⟨rfl, ‹_›⟩
    · cases h
  · rintro ⟨rfl, rfl⟩
    exact ⟨l, rfl, if_pos rfl⟩

theorem takeLeaf_eq_ok_iff {parent : Rule} {kind : Token.Kind} {ts rest : List Tree} {l : Leaf} :
    takeLeaf parent kind ts = .ok (l, rest) ↔ ts = ofLeaf l :: rest ∧ l.kind = kind := by
  cases ts with
  | nil => simp [takeLeaf]
  | cons t ts =>
    simp only [takeLeaf, except_bind_eq_ok_iff, toLeafOf_eq_ok_iff]
    constructor
    · rintro ⟨l', ⟨rfl, hkind⟩, h⟩
      cases h
      exact ⟨rfl, hkind⟩
    · rintro ⟨h, hkind⟩
      obtain ⟨rfl, rfl⟩ := List.cons.inj h
      exact ⟨l, ⟨rfl, hkind⟩, rfl⟩

theorem finish_eq_ok_iff {parent : Rule} {ts : List Tree} {u : Unit} :
    finish parent ts = .ok u ↔ ts = [] := by
  cases ts <;> simp [finish]

theorem toOperator_eq_ok_iff {sign : Leaf} {op : Operator} :
    toOperator sign = .ok op ↔ Operator.ofKind? sign.kind = some op := by
  unfold toOperator
  split <;> simp [*]

@[simp] theorem ofLeaf_isLeaf (l : Leaf) : (ofLeaf l).isLeaf = true := rfl

theorem isLeafOf_ofLeaf (l : Leaf) (kind : Token.Kind) :
    (ofLeaf l).isLeafOf kind = decide (l.kind = kind) := rfl

theorem isLeaf_of_isLeafOf {t : Tree} {kind : Token.Kind} (h : t.isLeafOf kind = true) :
    t.isLeaf = true := by
  cases t with
  | leaf => rfl
  | node => cases h
  | blank => cases h

theorem isLeaf_of_isBody {t : Tree} (h : t.isBody = true) : t.isLeaf = false := by
  cases t with
  | node => rfl
  | leaf => cases h
  | blank => cases h

/-- An argument and the separator behind it, as neighbours among the children of a node. -/
def argumentTrees (argument : Tree × Option Leaf) : List Tree :=
  argument.1 :: argument.2.toList.map ofLeaf

/-- The tree becomes the expression where the next number is the first one, and leaves the second
one as the next. -/
inductive Becomes : Tree → NodeId → Expr → NodeId → Prop where
  | block {o c : Leaf} {row : List (Lowered Expr)} {s s' : NodeId} (ho : o.kind = .leftBrace)
      (hrow : ∀ x ∈ row, Becomes x.tree x.first x.value x.next) (hs : Lowered.Linked s row s')
      (hc : c.kind = .rightBrace) :
      Becomes (node .blockExpression (ofLeaf o :: row.map Lowered.tree ++ [ofLeaf c])) s
        (.block s' o (row.map Lowered.value) c) (s' + 1)
  | bare {t : Tree} {e : Expr} {s s' : NodeId} (h : Becomes t s e s') :
      Becomes (node .blocklessExpression [t]) s (.bare s' e) (s' + 1)
  | statement {t : Tree} {e : Expr} {l : Leaf} {s s' : NodeId} (h : Becomes t s e s')
      (hl : l.kind = .semicolon) :
      Becomes (node .statement [t, ofLeaf l]) s (.statement s' e l) (s' + 1)
  | operand {rule : Rule} {t : Tree} {e : Expr} {s s' : NodeId}
      (hrule : rule = .term ∨ rule = .factor) (h : Becomes t s e s') :
      Becomes (node rule [t]) s e s'
  | link {rule : Rule} {children : List Tree} {t : Tree} {left right : Expr} {op : Operator}
      {sign : Leaf} {s s' s'' : NodeId} (hrule : rule = .term ∨ rule = .factor)
      (hleft : Becomes (node rule children) s left s')
      (hop : Operator.ofKind? sign.kind = some op) (hright : Becomes t s' right s'') :
      Becomes (node rule (children ++ [ofLeaf sign, t])) s (.binary s'' left op sign right)
        (s'' + 1)
  | integer {l : Leaf} {s : NodeId} (hl : l.kind = .integer) :
      Becomes (node .element [ofLeaf l]) s (.integer s l) (s + 1)
  | reference {l : Leaf} {s : NodeId} (hl : l.kind = .identifier) :
      Becomes (node .element [ofLeaf l]) s (.reference s l) (s + 1)
  | call {n o c : Leaf} {row : List (Lowered Expr × Option Leaf)} {s s' : NodeId}
      (hn : n.kind = .identifier) (ho : o.kind = .leftParen)
      (hbody : ∀ x ∈ row, x.1.tree.isBody = true) (hcomma : ∀ x ∈ row, ∀ l ∈ x.2, l.kind = .comma)
      (hrow : ∀ x ∈ row, Becomes x.1.tree x.1.first x.1.value x.1.next)
      (hs : Lowered.Linked s (row.map Prod.fst) s') (hc : c.kind = .rightParen) :
      Becomes (node .functionCall [ofLeaf n, node .argumentList
          (ofLeaf o :: row.flatMap (fun x => argumentTrees (x.1.tree, x.2)) ++ [ofLeaf c])]) s
        (.call s' n o (row.map fun x => (x.1.value, x.2)) c) (s' + 1)

theorem Becomes.isLeaf {t : Tree} {e : Expr} {s s' : NodeId} (h : Becomes t s e s') :
    t.isLeaf = false := by
  cases h <;> rfl

section Returns

variable {α : Type} {s s' : NodeId} {c : Leaf}

/-- The results of trees up to the next leaf, behind those already `done`, which are in reverse. -/
def collect (f : Tree → Numbering α) (done : List α) : List Tree → Numbering (List α × List Tree)
  | [] => return (done.reverse, [])
  | t :: rest =>
    if t.isLeaf then return (done.reverse, t :: rest)
    else do
      let a ← f t
      collect f (a :: done) rest

/-- Rows can be lowered if each tree can, whatever the next number is. What stands beside a tree
stays beside it, and may tell what the tree is to become. -/
theorem exists_row {β : Type} (Q : Tree → β → NodeId → α → NodeId → Prop) {ts : List (Tree × β)}
    (h : ∀ t ∈ ts, ∀ s, ∃ a s', Q t.1 t.2 s a s') (s : NodeId) :
    ∃ (row : List (Lowered α × β)) (s' : NodeId), row.map (fun x => (x.1.tree, x.2)) = ts ∧
      (∀ x ∈ row, Q x.1.tree x.2 x.1.first x.1.value x.1.next) ∧
      Lowered.Linked s (row.map Prod.fst) s' := by
  induction ts generalizing s with
  | nil => exact ⟨[], s, rfl, by simp, rfl⟩
  | cons t ts ih =>
    obtain ⟨ht, hts⟩ := List.forall_mem_cons.1 h
    obtain ⟨a, u, ha⟩ := ht s
    obtain ⟨row, s', rfl, hrow, hs⟩ := ih hts u
    exact ⟨(⟨t.1, s, a, u⟩, t.2) :: row, s', rfl, List.forall_mem_cons.2 ⟨ha, hrow⟩, rfl, hs⟩

theorem exists_row_of_trees (Q : Tree → NodeId → α → NodeId → Prop) {ts : List Tree}
    (h : ∀ t ∈ ts, ∀ s, ∃ a s', Q t s a s') (s : NodeId) :
    ∃ (row : List (Lowered α)) (s' : NodeId), row.map Lowered.tree = ts ∧
      (∀ x ∈ row, Q x.tree x.first x.value x.next) ∧ Lowered.Linked s row s' := by
  have hpairs : ∀ t ∈ ts.map (·, ()), ∀ s, ∃ a s', Q t.1 s a s' := List.forall_mem_map.2 h
  obtain ⟨row, s', htrees, hrow, hs⟩ := exists_row (fun t _ => Q t) hpairs s
  refine ⟨row.map Prod.fst, s', ?_, List.forall_mem_map.2 hrow, hs⟩
  simpa [Function.comp_def] using congrArg (List.map Prod.fst) htrees

theorem itemsToExprs_eq_collect (done : List Expr) (ts : List Tree) :
    itemsToExprs done ts = collect toExpr done ts := by
  induction ts generalizing done with
  | nil => rfl
  | cons t ts ih => simp only [itemsToExprs, collect, ih]

theorem toFunctions_eq_collect (done : List FunctionDecl) (ts : List Tree) :
    toFunctions done ts = collect toFunction done ts := by
  induction ts generalizing done with
  | nil => rfl
  | cons t ts ih => simp only [toFunctions, collect, ih]

theorem returns_collect_iff {f : Tree → Numbering α} {done : List α} {ts : List Tree}
    {r : List α × List Tree} :
    Returns (collect f done ts) s r s' ↔
      ∃ (row : List (Lowered α)) (rest : List Tree), ts = row.map Lowered.tree ++ rest ∧
        (∀ x ∈ row, x.tree.isLeaf = false ∧ Returns (f x.tree) x.first x.value x.next) ∧
        (∀ t ∈ rest.head?, t.isLeaf = true) ∧ Lowered.Linked s row s' ∧
        r = (done.reverse ++ row.map Lowered.value, rest) := by
  induction ts generalizing done s with
  | nil =>
    rw [collect, returns_pure]
    constructor
    · rintro ⟨rfl, rfl⟩
      exact ⟨[], [], rfl, by simp, by simp, rfl, by simp⟩
    · rintro ⟨row, rest, hts, -, -, hs, rfl⟩
      obtain ⟨hrow, rfl⟩ := List.append_eq_nil_iff.1 hts.symm
      obtain rfl := List.map_eq_nil_iff.1 hrow
      exact ⟨by simp, hs⟩
  | cons t ts ih =>
    rw [collect]
    cases hleaf : t.isLeaf with
    | true =>
      rw [if_pos rfl, returns_pure]
      constructor
      · rintro ⟨rfl, rfl⟩
        exact ⟨[], t :: ts, rfl, by simp, by simpa using hleaf, rfl, by simp⟩
      · rintro ⟨_ | ⟨x, row⟩, rest, hts, hrow, -, hs, rfl⟩
        · exact ⟨by simp [hts], hs⟩
        · obtain ⟨rfl, -⟩ := List.cons.inj hts
          simp [hleaf] at hrow
    | false =>
      rw [if_neg (by simp), returns_bind]
      constructor
      · rintro ⟨a, u, ha, h⟩
        obtain ⟨row, rest, rfl, hrow, hrest, hs, rfl⟩ := ih.1 h
        exact ⟨⟨t, s, a, u⟩ :: row, rest, rfl, List.forall_mem_cons.2 ⟨⟨hleaf, ha⟩, hrow⟩, hrest,
          ⟨rfl, hs⟩, by simp⟩
      · rintro ⟨_ | ⟨x, row⟩, rest, hts, hrow, hrest, hs, rfl⟩
        · obtain rfl : t :: ts = rest := hts
          simp [hleaf] at hrest
        · obtain ⟨rfl, rfl⟩ := List.cons.inj hts
          obtain ⟨⟨-, ha⟩, hrow⟩ := List.forall_mem_cons.1 hrow
          obtain ⟨rfl, hs⟩ := hs
          exact ⟨x.value, x.next, ha, ih.2 ⟨row, rest, rfl, hrow, hrest, hs, by simp⟩⟩

theorem returns_fresh {id : NodeId} :
    Returns Numbering.fresh s id s' ↔ id = s ∧ s' = s + 1 := by
  change ((.ok s, s + 1) : Except LoweringError NodeId × NodeId) = (.ok id, s') ↔ _
  simp [eq_comm]

theorem returns_bind_fresh {α : Type} {f : NodeId → Numbering α} {a : α}
    (h : Returns (f s) (s + 1) a s') : Returns (Numbering.fresh >>= f) s a s' :=
  (returns_fresh.2 ⟨rfl, rfl⟩).bind h

theorem returns_pure_self {α : Type} {a : α} : Returns (pure a : Numbering α) s a s :=
  returns_pure.2 ⟨rfl, rfl⟩

/-- Another operator and operand behind a chain take the chain as their left side. -/
theorem returns_linksToExpr_append {rule : Rule} {ts : List Tree} {first left right : Expr}
    {sign : Leaf} {t : Tree} {op : Operator} {s'' : NodeId}
    (hleft : Returns (linksToExpr rule first ts) s left s')
    (hop : Operator.ofKind? sign.kind = some op) (hright : Returns t.toExpr s' right s'') :
    Returns (linksToExpr rule first (ts ++ [ofLeaf sign, t])) s
      (.binary s'' left op sign right) (s'' + 1) := by
  induction ts using List.twoStepInduction generalizing first s with
  | nil =>
    obtain ⟨rfl, rfl⟩ : first = left ∧ s = s' := by simpa [linksToExpr] using hleft
    refine .bind_lift (toLeaf_eq_ok_iff.2 rfl) (.bind_lift (toOperator_eq_ok_iff.2 hop) ?_)
    exact hright.bind (returns_bind_fresh (by simp [linksToExpr]))
  | singleton u => simp [linksToExpr] at hleft
  | cons_cons u v ts ih =>
    simp only [linksToExpr, returns_bind, returns_lift, List.cons_append] at hleft ⊢
    obtain ⟨sign', _, hsign', op', _, hop', right', t', hright', id, u', hid, hleft⟩ := hleft
    exact ⟨sign', _, hsign', op', _, hop', right', t', hright', id, u', hid, ih hleft⟩

theorem returns_itemsToArguments {row : List (Lowered Expr × Option Leaf)}
    (hbody : ∀ x ∈ row, x.1.tree.isBody = true) (hcomma : ∀ x ∈ row, ∀ l ∈ x.2, l.kind = .comma)
    (h : ∀ x ∈ row, Returns x.1.tree.toExpr x.1.first x.1.value x.1.next)
    (hs : Lowered.Linked s (row.map Prod.fst) s') (hc : c.kind = .rightParen)
    (done : Separated Expr) :
    Returns (itemsToArguments done
        (row.flatMap (fun x => argumentTrees (x.1.tree, x.2)) ++ [ofLeaf c])) s
      (done.reverse ++ row.map (fun x => (x.1.value, x.2)), [ofLeaf c]) s' := by
  induction row generalizing done s with
  | nil =>
    obtain rfl : s = s' := hs
    simp [itemsToArguments]
  | cons x row ih =>
    obtain ⟨hx, hbodies⟩ := List.forall_mem_cons.1 hbody
    obtain ⟨hseparator, hcommas⟩ := List.forall_mem_cons.1 hcomma
    obtain ⟨hexpr, hexprs⟩ := List.forall_mem_cons.1 h
    obtain ⟨rfl, hs⟩ := hs
    obtain ⟨x, separator⟩ := x
    have hrest := ih hbodies hcommas hexprs hs ((x.value, separator) :: done)
    rw [List.reverse_cons, List.append_assoc] at hrest
    have hleaf : ¬x.tree.isLeaf = true := by simp [isLeaf_of_isBody hx]
    cases separator with
    | some l =>
      have hl : (ofLeaf l).isLeafOf .comma = true := decide_eq_true (hseparator l rfl)
      simp only [List.flatMap_cons, argumentTrees, Option.toList_some, List.map_cons, List.map_nil,
        List.cons_append, List.nil_append]
      rw [itemsToArguments, if_neg hleaf, if_pos hx]
      refine hexpr.bind ?_
      simp only [hl, if_true]
      exact .bind_lift (toLeaf_eq_ok_iff.2 rfl) hrest
    | none =>
      obtain ⟨u, us, hu, hnot⟩ : ∃ u us,
          row.flatMap (fun x => argumentTrees (x.1.tree, x.2)) ++ [ofLeaf c] = u :: us ∧
            ¬u.isLeafOf .comma = true := by
        cases row with
        | nil => exact ⟨_, _, rfl, by simp [isLeafOf_ofLeaf, hc]⟩
        | cons y row =>
          have hy := isLeaf_of_isBody (hbodies y List.mem_cons_self)
          exact ⟨_, _, rfl, fun h => by simp [isLeaf_of_isLeafOf h] at hy⟩
      rw [hu] at hrest
      rw [List.flatMap_cons, List.append_assoc, hu]
      change Returns (itemsToArguments done (x.tree :: u :: us)) _ _ _
      rw [itemsToArguments, if_neg hleaf, if_pos hx]
      refine hexpr.bind ?_
      simp only [if_neg hnot]
      exact hrest

theorem Becomes.returns {t : Tree} {e : Expr} (h : Becomes t s e s') :
    Returns t.toExpr s e s' := by
  induction h with
  | @block o c row s s' ho hrow hs hc ih =>
    have hitems : Returns (itemsToExprs [] (row.map Lowered.tree ++ [ofLeaf c])) s
        (row.map Lowered.value, [ofLeaf c]) s' := by
      rw [itemsToExprs_eq_collect, returns_collect_iff]
      exact ⟨row, _, rfl, fun x hx => ⟨(hrow x hx).isLeaf, ih x hx⟩, by simp, hs, by simp⟩
    rw [toExpr, List.cons_append, blockToExpr]
    refine .bind_lift (toLeafOf_eq_ok_iff.2 ⟨rfl, ho⟩) (hitems.bind ?_)
    refine .bind_lift (takeLeaf_eq_ok_iff.2 ⟨rfl, hc⟩) (.bind_lift rfl ?_)
    exact returns_bind_fresh returns_pure_self
  | bare _ ih =>
    rw [toExpr, blocklessToExpr]
    exact ih.bind (.bind_lift rfl (returns_bind_fresh returns_pure_self))
  | statement _ hl ih =>
    rw [toExpr, statementToExpr]
    refine ih.bind (.bind_lift (takeLeaf_eq_ok_iff.2 ⟨rfl, hl⟩) (.bind_lift rfl ?_))
    exact returns_bind_fresh returns_pure_self
  | operand hrule _ ih =>
    rcases hrule with rfl | rfl
    · simpa [toExpr, chainToExpr, linksToExpr] using ih
    · simpa [toExpr, chainToExpr, linksToExpr] using ih
  | @link rule children t left right op sign s s' s'' hrule hleft hop _ ihl ihr =>
    cases children with
    | nil => rcases hrule with rfl | rfl <;> simp [toExpr, chainToExpr] at ihl
    | cons u ts =>
      rcases hrule with rfl | rfl
      · simp only [toExpr, chainToExpr, List.cons_append, returns_bind] at ihl ⊢
        obtain ⟨first, t, hfirst, hlinks⟩ := ihl
        exact ⟨first, t, hfirst, returns_linksToExpr_append hlinks hop ihr⟩
      · simp only [toExpr, chainToExpr, List.cons_append, returns_bind] at ihl ⊢
        obtain ⟨first, t, hfirst, hlinks⟩ := ihl
        exact ⟨first, t, hfirst, returns_linksToExpr_append hlinks hop ihr⟩
  | integer hl =>
    rw [toExpr, elementToExpr]
    refine .bind_lift (toLeaf_eq_ok_iff.2 rfl) (.bind_lift rfl ?_)
    rw [hl]
    exact returns_bind_fresh returns_pure_self
  | reference hl =>
    rw [toExpr, elementToExpr]
    refine .bind_lift (toLeaf_eq_ok_iff.2 rfl) (.bind_lift rfl ?_)
    rw [hl]
    exact returns_bind_fresh returns_pure_self
  | @call n o c row s s' hn ho hbody hcomma _ hs hc ih =>
    have hitems := returns_itemsToArguments hbody hcomma ih hs hc []
    have hlist : Returns (toArguments (node .argumentList
        (ofLeaf o :: row.flatMap (fun x => argumentTrees (x.1.tree, x.2)) ++ [ofLeaf c]))) s
        (o, row.map fun x => (x.1.value, x.2), c) s' := by
      rw [toArguments, List.cons_append, argumentListToArguments]
      refine .bind_lift (toLeafOf_eq_ok_iff.2 ⟨rfl, ho⟩) (hitems.bind ?_)
      exact .bind_lift (takeLeaf_eq_ok_iff.2 ⟨rfl, hc⟩) (.bind_lift rfl returns_pure_self)
    rw [toExpr, callToExpr]
    refine .bind_lift (toLeafOf_eq_ok_iff.2 ⟨rfl, hn⟩) (hlist.bind ?_)
    exact .bind_lift rfl (returns_bind_fresh returns_pure_self)

variable {ts : List Tree}

theorem becomes_of_linksToExpr {rule : Rule} (hrule : rule = .term ∨ rule = .factor)
    {children : List Tree} {first e : Expr} {s₀ : NodeId}
    (hfirst : Becomes (node rule children) s₀ first s)
    (hts : ∀ t ∈ ts, ∀ {s e s'}, Returns t.toExpr s e s' → Becomes t s e s')
    (h : Returns (linksToExpr rule first ts) s e s') :
    Becomes (node rule (children ++ ts)) s₀ e s' := by
  induction ts using List.twoStepInduction generalizing children first s with
  | nil =>
    obtain ⟨rfl, rfl⟩ : first = e ∧ s = s' := by simpa [linksToExpr] using h
    simpa using hfirst
  | singleton u => simp [linksToExpr] at h
  | cons_cons u v ts ih =>
    simp only [linksToExpr, returns_bind, returns_lift, returns_fresh, toLeaf_eq_ok_iff,
      toOperator_eq_ok_iff] at h
    obtain ⟨sign, _, ⟨rfl, rfl⟩, op, _, ⟨hop, rfl⟩, right, t, hright, _, _, ⟨rfl, rfl⟩, h⟩ := h
    simp only [List.forall_mem_cons] at hts
    obtain ⟨-, hv, hts⟩ := hts
    simpa using ih (.link hrule hfirst hop (hv hright)) hts h

/-- A step through arguments takes an argument and the comma behind it, if there is one. -/
theorem returns_itemsToArguments_cons {done : Separated Expr} {r : Separated Expr × List Tree}
    {t : Tree} (ht : t.isLeaf = false) (h : Returns (itemsToArguments done (t :: ts)) s r s') :
    t.isBody = true ∧ ∃ e u separator rest, ts = separator.toList.map ofLeaf ++ rest ∧
      (∀ l ∈ separator, l.kind = .comma) ∧ Returns t.toExpr s e u ∧
      Returns (itemsToArguments ((e, separator) :: done) rest) u r s' := by
  rw [itemsToArguments, if_neg (by simp [ht]), returns_ite_throw] at h
  obtain ⟨hbody, h⟩ := h
  obtain ⟨e, u, he, h⟩ := returns_bind.1 h
  refine ⟨hbody, e, u, ?_⟩
  cases ts with
  | nil => exact ⟨none, [], rfl, by simp, he, h⟩
  | cons comma others =>
    simp only at h
    split at h
    · rename_i hcomma
      simp only [returns_bind, returns_lift, toLeaf_eq_ok_iff] at h
      obtain ⟨l, _, ⟨rfl, rfl⟩, h⟩ := h
      have hkind : l.kind = .comma := of_decide_eq_true hcomma
      exact ⟨some l, others, rfl, by simpa using hkind, he, h⟩
    · exact ⟨none, comma :: others, rfl, by simp, he, h⟩

theorem exists_row_of_itemsToArguments {done : Separated Expr} {r : Separated Expr × List Tree}
    (hts : ∀ t ∈ ts, ∀ {s e s'}, Returns t.toExpr s e s' → Becomes t s e s')
    (h : Returns (itemsToArguments done ts) s r s') :
    ∃ (row : List (Lowered Expr × Option Leaf)) (rest : List Tree),
      ts = row.flatMap (fun x => argumentTrees (x.1.tree, x.2)) ++ rest ∧
      (∀ x ∈ row, x.1.tree.isBody = true) ∧ (∀ x ∈ row, ∀ l ∈ x.2, l.kind = .comma) ∧
      (∀ x ∈ row, Becomes x.1.tree x.1.first x.1.value x.1.next) ∧
      Lowered.Linked s (row.map Prod.fst) s' ∧
      r = (done.reverse ++ row.map (fun x => (x.1.value, x.2)), rest) := by
  induction hn : ts.length using Nat.strongRecOn generalizing ts done s with
  | _ n ih =>
    cases ts with
    | nil =>
      obtain ⟨rfl, rfl⟩ := returns_pure.1 h
      exact ⟨[], [], rfl, by simp, by simp, by simp, rfl, by simp⟩
    | cons t ts =>
      obtain ⟨ht, hts⟩ := List.forall_mem_cons.1 hts
      cases hleaf : t.isLeaf with
      | true =>
        rw [itemsToArguments, if_pos hleaf] at h
        obtain ⟨rfl, rfl⟩ := returns_pure.1 h
        exact ⟨[], t :: ts, rfl, by simp, by simp, by simp, rfl, by simp⟩
      | false =>
        obtain ⟨hbody, e, u, separator, rest, rfl, hcomma, he, h⟩ :=
          returns_itemsToArguments_cons hleaf h
        have hlength : rest.length < n := by
          rw [← hn, List.length_cons, List.length_append]
          omega
        obtain ⟨row, rest, rfl, hbodies, hcommas, hrow, hs, rfl⟩ :=
          ih _ hlength (fun t ht => hts t (List.mem_append_right _ ht)) h rfl
        refine ⟨(⟨t, s, e, u⟩, separator) :: row, rest, by simp [argumentTrees],
          List.forall_mem_cons.2 ⟨hbody, hbodies⟩, List.forall_mem_cons.2 ⟨hcomma, hcommas⟩,
          List.forall_mem_cons.2 ⟨ht he, hrow⟩, ⟨rfl, hs⟩, by simp⟩

/-- An argument list that is lowered: arguments with commas behind some of them, between
parentheses. -/
theorem exists_row_of_toArguments {list : Tree} {o : Leaf} {arguments : Separated Expr}
    (hts : ∀ t ∈ list.children, ∀ {s e s'}, Returns t.toExpr s e s' → Becomes t s e s')
    (h : Returns list.toArguments s (o, arguments, c) s') :
    ∃ row : List (Lowered Expr × Option Leaf),
      list = node .argumentList (ofLeaf o ::
        row.flatMap (fun x => argumentTrees (x.1.tree, x.2)) ++ [ofLeaf c]) ∧
      arguments = row.map (fun x => (x.1.value, x.2)) ∧
      o.kind = .leftParen ∧ c.kind = .rightParen ∧
      (∀ x ∈ row, x.1.tree.isBody = true) ∧ (∀ x ∈ row, ∀ l ∈ x.2, l.kind = .comma) ∧
      (∀ x ∈ row, Becomes x.1.tree x.1.first x.1.value x.1.next) ∧
      Lowered.Linked s (row.map Prod.fst) s' := by
  unfold toArguments at h
  split at h
  · rename_i children
    cases children with
    | nil => simp [argumentListToArguments] at h
    | cons t ts =>
      simp only [argumentListToArguments, returns_bind, returns_lift, returns_pure,
        Prod.exists, toLeafOf_eq_ok_iff, takeLeaf_eq_ok_iff, finish_eq_ok_iff] at h
      obtain ⟨o', _, ⟨⟨rfl, ho⟩, rfl⟩, _, _, u, hitems, closing, _, _, ⟨⟨rfl, hc⟩, rfl⟩,
        _, _, ⟨rfl, rfl⟩, heq, rfl⟩ := h
      obtain ⟨row, rest, rfl, hbody, hcomma, hrow, hs, hr⟩ :=
        exists_row_of_itemsToArguments (List.forall_mem_cons.1 hts).2 hitems
      cases hr
      cases heq
      exact ⟨row, by simp, by simp, ho, hc, hbody, hcomma, hrow, hs⟩
  · simp at h

variable {e : Expr}

theorem becomes_of_blockToExpr
    (hts : ∀ t ∈ ts, ∀ {s e s'}, Returns t.toExpr s e s' → Becomes t s e s')
    (h : Returns (blockToExpr ts) s e s') : Becomes (node .blockExpression ts) s e s' := by
  cases ts with
  | nil => simp [blockToExpr] at h
  | cons t ts =>
    simp only [blockToExpr, returns_bind, returns_lift, returns_pure, returns_fresh, Prod.exists,
      toLeafOf_eq_ok_iff, takeLeaf_eq_ok_iff, finish_eq_ok_iff] at h
    obtain ⟨o, _, ⟨⟨rfl, ho⟩, rfl⟩, _, _, u, hitems, c, _, _, ⟨⟨rfl, hc⟩, rfl⟩, _, _, ⟨rfl, rfl⟩,
      _, _, ⟨rfl, rfl⟩, rfl, rfl⟩ := h
    rw [itemsToExprs_eq_collect, returns_collect_iff] at hitems
    obtain ⟨row, rest, rfl, hrow, -, hs, hr⟩ := hitems
    cases hr
    refine .block ho (fun x hx => hts x.tree ?_ (hrow x hx).2) hs hc
    simp [List.mem_map_of_mem hx]

theorem becomes_of_blocklessToExpr
    (hts : ∀ t ∈ ts, ∀ {s e s'}, Returns t.toExpr s e s' → Becomes t s e s')
    (h : Returns (blocklessToExpr ts) s e s') :
    Becomes (node .blocklessExpression ts) s e s' := by
  cases ts with
  | nil => simp [blocklessToExpr] at h
  | cons t ts =>
    simp only [blocklessToExpr, returns_bind, returns_lift, returns_pure, returns_fresh,
      finish_eq_ok_iff] at h
    obtain ⟨child, u, hchild, _, _, ⟨rfl, rfl⟩, _, _, ⟨rfl, rfl⟩, rfl, rfl⟩ := h
    exact .bare (hts t List.mem_cons_self hchild)

theorem becomes_of_statementToExpr
    (hts : ∀ t ∈ ts, ∀ {s e s'}, Returns t.toExpr s e s' → Becomes t s e s')
    (h : Returns (statementToExpr ts) s e s') : Becomes (node .statement ts) s e s' := by
  cases ts with
  | nil => simp [statementToExpr] at h
  | cons t ts =>
    simp only [statementToExpr, returns_bind, returns_lift, returns_pure, returns_fresh,
      Prod.exists, takeLeaf_eq_ok_iff, finish_eq_ok_iff] at h
    obtain ⟨child, u, hchild, l, _, _, ⟨⟨rfl, hl⟩, rfl⟩, _, _, ⟨rfl, rfl⟩, _, _, ⟨rfl, rfl⟩,
      rfl, rfl⟩ := h
    exact .statement (hts t List.mem_cons_self hchild) hl

theorem becomes_of_chainToExpr {rule : Rule} (hrule : rule = .term ∨ rule = .factor)
    (hts : ∀ t ∈ ts, ∀ {s e s'}, Returns t.toExpr s e s' → Becomes t s e s')
    (h : Returns (chainToExpr rule ts) s e s') : Becomes (node rule ts) s e s' := by
  cases ts with
  | nil => simp [chainToExpr] at h
  | cons t ts =>
    rw [chainToExpr] at h
    obtain ⟨first, u, hfirst, h⟩ := returns_bind.1 h
    obtain ⟨ht, hts⟩ := List.forall_mem_cons.1 hts
    exact becomes_of_linksToExpr hrule (.operand hrule (ht hfirst)) hts h

theorem becomes_of_elementToExpr (h : Returns (elementToExpr ts) s e s') :
    Becomes (node .element ts) s e s' := by
  cases ts with
  | nil => simp [elementToExpr] at h
  | cons t ts =>
    simp only [elementToExpr, returns_bind, returns_lift, toLeaf_eq_ok_iff, finish_eq_ok_iff] at h
    obtain ⟨l, _, ⟨rfl, rfl⟩, _, _, ⟨rfl, rfl⟩, h⟩ := h
    split at h
    · simp only [returns_bind, returns_fresh, returns_pure] at h
      obtain ⟨_, _, ⟨rfl, rfl⟩, rfl, rfl⟩ := h
      exact .integer ‹_›
    · simp only [returns_bind, returns_fresh, returns_pure] at h
      obtain ⟨_, _, ⟨rfl, rfl⟩, rfl, rfl⟩ := h
      exact .reference ‹_›
    · simp at h

theorem becomes_of_callToExpr
    (hts : ∀ t ∈ ts, ∀ u ∈ t.children, ∀ {s e s'}, Returns u.toExpr s e s' → Becomes u s e s')
    (h : Returns (callToExpr ts) s e s') : Becomes (node .functionCall ts) s e s' := by
  rcases ts with _ | ⟨t, _ | ⟨list, ts⟩⟩
  · simp [callToExpr] at h
  · simp [callToExpr] at h
  · simp only [callToExpr, returns_bind, returns_lift, returns_pure, returns_fresh, Prod.exists,
      toLeafOf_eq_ok_iff, finish_eq_ok_iff] at h
    obtain ⟨n, _, ⟨⟨rfl, hn⟩, rfl⟩, o, arguments, c, u, hlist, _, _, ⟨rfl, rfl⟩, _, _, ⟨rfl, rfl⟩,
      rfl, rfl⟩ := h
    obtain ⟨row, rfl, rfl, ho, hc, hbody, hcomma, hrow, hs⟩ :=
      exists_row_of_toArguments (hts list (by simp)) hlist
    exact .call hn ho hbody hcomma hrow hs hc

theorem becomes_of_returns (t : Tree) :
    (∀ {s e s'}, Returns t.toExpr s e s' → Becomes t s e s') ∧
      ∀ u ∈ t.children, ∀ {s e s'}, Returns u.toExpr s e s' → Becomes u s e s' := by
  -- A call takes its arguments from below its child, so the induction is about both levels.
  induction t using Tree.induct with
  | leaf leading token ih => exact ⟨fun h => by simp [toExpr] at h, fun u hu => (ih u hu).1⟩
  | blank token => exact ⟨fun h => by simp [toExpr] at h, by simp [children]⟩
  | node rule children ih =>
    have hts : ∀ t ∈ children, ∀ {s e s'}, Returns t.toExpr s e s' → Becomes t s e s' :=
      fun t ht => (ih t ht).1
    refine ⟨fun {s e s'} h => ?_, hts⟩
    cases rule with
    | blockExpression => exact becomes_of_blockToExpr hts (by simpa only [toExpr] using h)
    | blocklessExpression => exact becomes_of_blocklessToExpr hts (by simpa only [toExpr] using h)
    | statement => exact becomes_of_statementToExpr hts (by simpa only [toExpr] using h)
    | term => exact becomes_of_chainToExpr (.inl rfl) hts (by simpa only [toExpr] using h)
    | factor => exact becomes_of_chainToExpr (.inr rfl) hts (by simpa only [toExpr] using h)
    | element => exact becomes_of_elementToExpr (by simpa only [toExpr] using h)
    | functionCall =>
      exact becomes_of_callToExpr (fun t ht => (ih t ht).2) (by simpa only [toExpr] using h)
    | _ => simp [toExpr] at h

theorem returns_toExpr_iff {t : Tree} : Returns t.toExpr s e s' ↔ Becomes t s e s' :=
  ⟨(becomes_of_returns t).1, Becomes.returns⟩

end Returns

end Tree

end FunImp
