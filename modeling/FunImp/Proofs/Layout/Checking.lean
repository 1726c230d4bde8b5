import FunImp.Proofs.Typing.Relabelling

/-! # Validation without layout

Functions and variables know where they were declared, and errors where they are. On bare leaves
all these places are the same one, and nothing else about a verdict changes: names and types are
kept. -/

namespace FunImp

theorem Span.joinAll_of_default {spans : List Span} (h : ∀ s ∈ spans, s = default) :
    joinAll spans = default := by
  have hjoin : (default : Span).join default = default := rfl
  have hfold (rest : List Span) (hrest : ∀ s ∈ rest, s = default) :
      rest.foldl join default = default := by
    induction rest with
    | nil => rfl
    | cons s rest ih =>
      obtain ⟨hs, hrest⟩ := List.forall_mem_cons.1 hrest
      rw [List.foldl_cons, hs, hjoin, ih hrest]
  cases spans with
  | nil => rfl
  | cons s rest =>
    obtain ⟨rfl, hrest⟩ := List.forall_mem_cons.1 h
    exact hfold rest hrest

/-- Bare leaves have no place, neither alone nor together. -/
theorem Token.spanOf_bare (ls : List Leaf) :
    spanOf ((ls.map Leaf.bare).flatMap Leaf.tokens) = default := by
  refine Span.joinAll_of_default fun s hs => ?_
  obtain ⟨t, ht, rfl⟩ := List.mem_map.1 hs
  obtain ⟨l, hl, ht⟩ := List.mem_flatMap.1 (List.mem_filter.1 ht).1
  obtain ⟨l, -, rfl⟩ := List.mem_map.1 hl
  obtain rfl : t = l.token.unplaced := by simpa [Leaf.tokens, Leaf.bare] using ht
  rfl

/-- The place of a bare token for every place in a source. -/
def Place.bare : Place → Place
  | builtin module => builtin module
  | source _ _ => source "" default

def SemanticError.bare (e : SemanticError) : SemanticError := ⟨e.fault, default⟩

/-- Leaves are made bare. -/
def Relabelling.bare : Relabelling where
  leaf := Leaf.bare
  name := id
  type := id
  place := Place.bare
  span _ := default
  kind_leaf _ := rfl
  place_leaf _ := rfl
  span_leaves := Token.spanOf_bare
  name_injective := Function.injective_id
  type_injective := Function.injective_id
  name_type _ := rfl
  place_builtin _ := rfl
  type_int := rfl
  type_void := rfl
  name_print := rfl

namespace Relabelling

theorem readsFunction_bare (f : FunctionDecl) : bare.ReadsFunction f :=
  ⟨rfl, fun _ _ => ⟨rfl, rfl⟩, rfl, fun _ _ _ _ => rfl⟩

theorem types_bare (types : TypeTable) : bare.types types = types := by
  refine Std.ExtTreeMap.ext_getElem? fun id => ?_
  rw [Relabelling.types, Std.ExtTreeMap.getElem?_map]
  exact Option.map_id'

theorem error_bare (e : SemanticError) : bare.error e = e.bare := by
  obtain ⟨fault, span⟩ := e
  cases fault <;> rfl

end Relabelling

/-- Bare leaves change nothing about a verdict but the places of its errors. -/
theorem validate_bare (options : Options) (p : Program) :
    validate options (p.mapLeaves Leaf.bare) =
      match validate options p with
      | .ok typed => .ok ⟨p.mapLeaves Leaf.bare, typed.types⟩
      | .error errors => .error (errors.map SemanticError.bare) := by
  have hverdict := Relabelling.validate_mapLeaves (p := p)
    (fun f _ => Relabelling.readsFunction_bare f) options
  have herror : Relabelling.bare.error = SemanticError.bare := funext Relabelling.error_bare
  simp only [Relabelling.types_bare, herror] at hverdict
  exact hverdict

end FunImp
