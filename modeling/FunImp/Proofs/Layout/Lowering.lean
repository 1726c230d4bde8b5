import FunImp.Proofs.Layout.Reading
import FunImp.Proofs.Lowering.Functions
import FunImp.Proofs.Program.Leaves

/-! # Lowering without layout

The tree with bare leaves is lowered to the program with bare leaves, and with the same numbers. -/

namespace FunImp

/-- The tree and the result with bare leaves. -/
def Lowered.bare {α : Type} (g : α → α) (x : Lowered α) : Lowered α :=
  ⟨x.tree.bare, x.first, g x.value, x.next⟩

theorem Lowered.Linked.bare {α : Type} (g : α → α) {row : List (Lowered α)} {s s' : NodeId}
    (h : Linked s row s') : Linked s (row.map (Lowered.bare g)) s' := by
  induction row generalizing s with
  | nil => exact h
  | cons x row ih => exact ⟨h.1, ih h.2⟩

namespace Tree

theorem isBody_bare (t : Tree) : t.bare.isBody = t.isBody := by
  cases t with
  | node => simp [isBody, head]
  | leaf => rfl
  | blank => rfl

theorem becomes_bare {t : Tree} {e : Expr} {s s' : NodeId} (h : Becomes t s e s') :
    Becomes t.bare s (e.mapLeaves Leaf.bare) s' := by
  induction h with
  | @block o c row s s' ho _ hs hc ih =>
    have hblock := Becomes.block (o := o.bare) (c := c.bare) ho (List.forall_mem_map.2 ih)
      (hs.bare (Expr.mapLeaves Leaf.bare)) hc
    simpa [Expr.mapLeaves, Expr.mapAllLeaves_eq, Lowered.bare, Function.comp_def] using hblock
  | bare _ ih => simpa [Expr.mapLeaves] using Becomes.bare ih
  | @statement t e l s s' _ hl ih =>
    simpa [Expr.mapLeaves] using Becomes.statement (l := l.bare) ih hl
  | operand hrule _ ih => simpa using Becomes.operand hrule ih
  | @link rule children t left right op sign s s' s'' hrule _ hop _ ihl ihr =>
    rw [bare_node] at ihl
    have hop' : Operator.ofKind? sign.bare.kind = some op := hop
    simpa [Expr.mapLeaves] using Becomes.link hrule ihl hop' ihr
  | @integer l s hl => exact Becomes.integer (l := l.bare) hl
  | @reference l s hl => exact Becomes.reference (l := l.bare) hl
  | @call n o c row s s' hn ho hbody hcomma _ hs hc ih =>
    let bareRow := row.map fun x => (x.1.bare (Expr.mapLeaves Leaf.bare), x.2.map Leaf.bare)
    have hcommas : ∀ x ∈ bareRow, ∀ l ∈ x.2, l.kind = .comma := by
      refine List.forall_mem_map.2 fun x hx l hl => ?_
      obtain ⟨comma, hmem, rfl⟩ := Option.map_eq_some_iff.1 hl
      exact hcomma x hx comma hmem
    have hlinked : Lowered.Linked s (bareRow.map Prod.fst) s' := by
      simpa [bareRow, Function.comp_def] using hs.bare (Expr.mapLeaves Leaf.bare)
    have hbodies : ∀ x ∈ bareRow, x.1.tree.isBody = true :=
      List.forall_mem_map.2 fun x hx => (isBody_bare _).trans (hbody x hx)
    have hcall := Becomes.call (n := n.bare) (o := o.bare) (c := c.bare) hn ho hbodies hcommas
      (List.forall_mem_map.2 ih) hlinked hc
    have htrees : (row.flatMap fun x => argumentTrees (x.1.tree, x.2)).map Tree.bare =
        bareRow.flatMap fun x => argumentTrees (x.1.tree, x.2) := by
      rw [List.map_flatMap, List.flatMap_map]
      refine List.flatMap_congr fun x _ => ?_
      simp [argumentTrees, Lowered.bare, Option.toList_map, Function.comp_def]
    simpa [Expr.mapLeaves, Expr.mapArgumentLeaves_eq, htrees, bareRow, Lowered.bare,
      Function.comp_def] using hcall

end Tree

theorem TypeSpec.leaves_mapLeaves (f : Leaf → Leaf) (ty : TypeSpec) :
    (ty.mapLeaves f).leaves = ty.leaves.map f := rfl

theorem Param.leaves_mapLeaves (f : Leaf → Leaf) (p : Param) :
    (p.mapLeaves f).leaves = p.leaves.map f := by
  simp [leaves, mapLeaves, TypeSpec.leaves_mapLeaves, Option.toList_map]

theorem ParamList.leaves_mapLeaves (f : Leaf → Leaf) (ps : ParamList) :
    (ps.mapLeaves f).leaves = ps.leaves.map f := by
  simp [leaves, mapLeaves, List.flatMap_map, List.map_flatMap, Param.leaves_mapLeaves]

theorem FunctionDecl.bare_children (f : FunctionDecl) (body : Tree) :
    (f.children body).map Tree.bare = (f.mapLeaves Leaf.bare).children body.bare := by
  have hmap (ls : List Leaf) : (ls.map Tree.ofLeaf).map Tree.bare =
      (ls.map Leaf.bare).map Tree.ofLeaf := by simp
  simp only [children, mapLeaves, List.map_append, List.map_cons, hmap, Tree.bare_node,
    Tree.bare_ofLeaf, ParamList.leaves_mapLeaves, TypeSpec.leaves_mapLeaves, Option.toList_map,
    List.map_nil]

theorem Param.Regular.bare {p : Param} (h : p.Regular) : (p.mapLeaves Leaf.bare).Regular where
  name := h.name
  type := ⟨h.type.colon, h.type.name⟩
  comma l hl := by
    obtain ⟨comma, hmem, rfl⟩ := Option.map_eq_some_iff.1 hl
    exact h.comma comma hmem

theorem FunctionDecl.Regular.bare {f : FunctionDecl} (h : f.Regular) :
    (f.mapLeaves Leaf.bare).Regular where
  keyword l hl := by
    obtain ⟨keyword, hmem, rfl⟩ := Option.map_eq_some_iff.1 hl
    exact h.keyword keyword hmem
  name := h.name
  parameters := ⟨h.parameters.opening,
    List.forall_mem_map.2 fun p hp => (h.parameters.params p hp).bare, h.parameters.closing⟩
  result := ⟨h.result.colon, h.result.name⟩

namespace Tree

theorem toFunction_bare {t : Tree} {f : FunctionDecl} {s s' : NodeId}
    (h : Returns t.toFunction s f s') :
    Returns t.bare.toFunction s (f.mapLeaves Leaf.bare) s' := by
  obtain ⟨rule, body, rfl, hrule, hf, hbody, h⟩ := returns_toFunction_iff.1 h
  refine returns_toFunction_iff.2 ⟨rule, body.bare, ?_, hrule, hf.bare, ?_, becomes_bare h⟩
  · rw [bare_node, FunctionDecl.bare_children]
  · rw [isBody_bare, hbody]

theorem toProgram_bare {t : Tree} {p : Program} {s s' : NodeId}
    (h : Returns t.toProgram s p s') :
    Returns t.bare.toProgram s (p.mapLeaves Leaf.bare) s' := by
  obtain ⟨row, rfl, hrow, hs, hfunctions, heof⟩ := returns_toProgram_iff.1 h
  refine returns_toProgram_iff.2
    ⟨row.map (Lowered.bare (FunctionDecl.mapLeaves Leaf.bare)), ?_,
      List.forall_mem_map.2 fun x hx => toFunction_bare (hrow x hx), hs.bare _, ?_, heof⟩
  · simp [Lowered.bare, Program.mapLeaves, Function.comp_def]
  · simp [Lowered.bare, Program.mapLeaves, hfunctions, Function.comp_def]

end Tree

theorem lower_bare {t : Tree} {p : Program} (h : lower t = .ok p) :
    lower t.bare = .ok (p.mapLeaves Leaf.bare) := by
  obtain ⟨s, h⟩ := lower_eq_ok_iff.1 h
  exact lower_eq_ok_iff.2 ⟨s, Tree.toProgram_bare h⟩

end FunImp
