import FunImp.Proofs.Grammar.Parse
import FunImp.Proofs.Lowering.Functions
import FunImp.Proofs.Program.Leaves

/-! # Lowering keeps every leaf

The leaves of a program are those of its tree, in the same order and with the same white space in
front of them. -/

namespace FunImp.Tree

theorem leaves_node (rule : Rule) (children : List Tree) :
    (node rule children).leaves = children.flatMap leaves := by
  rw [leaves, forestLeaves_eq_flatMap]

theorem flatMap_leaves_map_ofLeaf (ls : List Leaf) : (ls.map ofLeaf).flatMap leaves = ls := by
  simp [List.flatMap_map]

theorem Becomes.leaves_eq {t : Tree} {e : Expr} {s s' : NodeId} (h : Becomes t s e s') :
    t.leaves = e.leaves := by
  induction h with
  | @block o c row s s' _ _ _ _ ih =>
    have hrow : row.flatMap (fun x => x.tree.leaves) = row.flatMap (fun x => x.value.leaves) :=
      List.flatMap_congr ih
    simp [leaves_node, Expr.leaves_block, List.flatMap_map, hrow]
  | bare _ ih =>
    rw [leaves_node, List.flatMap_singleton]
    exact ih
  | statement _ _ ih => simp [leaves_node, Expr.leaves_statement, ih]
  | operand _ _ ih => simpa [leaves_node] using ih
  | link _ _ _ _ ihl ihr =>
    rw [leaves_node] at ihl
    simp [leaves_node, Expr.leaves_binary, ihl, ihr]
  | integer => simp [leaves_node, Expr.leaves, Expr.leavesOnto]
  | reference => simp [leaves_node, Expr.leaves, Expr.leavesOnto]
  | @call n o c row s s' _ _ _ _ _ _ _ ih =>
    have hrow : row.flatMap (fun x => (argumentTrees (x.1.tree, x.2)).flatMap leaves) =
        row.flatMap (fun x => Expr.argumentLeaves (x.1.value, x.2)) :=
      List.flatMap_congr fun x hx => by
        rw [argumentTrees, List.flatMap_cons, flatMap_leaves_map_ofLeaf, ih x hx]
        rfl
    simp [leaves_node, Expr.leaves_call, List.flatMap_map, List.flatMap_assoc, hrow]

theorem leaves_eq_of_toFunction {t : Tree} {f : FunctionDecl} {s s' : NodeId}
    (h : Returns t.toFunction s f s') : t.leaves = f.leaves := by
  obtain ⟨rule, body, rfl, -, -, -, hbody⟩ := returns_toFunction_iff.1 h
  simp [leaves_node, FunctionDecl.children, FunctionDecl.leaves, flatMap_leaves_map_ofLeaf,
    hbody.leaves_eq]

theorem leaves_eq_of_lower {t : Tree} {p : Program} (h : lower t = .ok p) :
    t.leaves = p.leaves := by
  obtain ⟨s, h⟩ := lower_eq_ok_iff.1 h
  obtain ⟨row, rfl, hrow, -, hfunctions, -⟩ := returns_toProgram_iff.1 h
  have hleaves : row.flatMap (fun x => x.tree.leaves) = row.flatMap (fun x => x.value.leaves) :=
    List.flatMap_congr fun x hx => leaves_eq_of_toFunction (hrow x hx)
  simp [leaves_node, Program.leaves, hfunctions, List.flatMap_map, hleaves]

/-- The leaves of a well-formed tree are tidy. -/
theorem WellFormed.tidy {t : Tree} (h : t.WellFormed) : ∀ l ∈ t.leaves, l.Tidy := by
  obtain ⟨functions, leading, eof, rfl, -, heof, hleading, hleaves, -⟩ := h.split
  intro l hl
  rw [leaves_node, List.flatMap_append, ← forestLeaves_eq_flatMap] at hl
  rcases List.mem_append.1 hl with hl | hl
  · exact (hleaves l hl).1
  · obtain rfl : l = ⟨leading, eof⟩ := by simpa using hl
    exact ⟨hleading, fun hkind => by simp [Leaf.kind, heof] at hkind⟩

end FunImp.Tree
