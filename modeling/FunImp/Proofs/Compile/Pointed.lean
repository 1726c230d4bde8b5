import FunImp.Proofs.Compile.Located
import FunImp.Proofs.Lowering.Shape

/-! # What semantic errors show

The text under the span of a semantic error is what its message speaks of: the name that it tells,
the sign between two operands, the arguments of a call or one of them, or a child of a block. -/

namespace FunImp

/-- What is written at the place of a fault. -/
def Fault.IsReadIn (text : String) : Fault → Prop
  | unknownType name | alreadyDeclared _ name | undeclaredSymbol name | notAValue _ name
  | notAFunction name | impureCallInPureContext name | returnTypeMismatch name _ => text = name
  | operandTypeMismatch _ _ => text ∈ ["+", "-", "*", "/"]
  | argumentCountMismatch _ _ _ => ∃ inner, text = "(" ++ inner ++ ")"
  | argumentTypeMismatch _ _ _ _ | unexpectedStatementAfterExpression => True

variable {source : Source} {ts : List Token} {t : Tree} {p : Program}

theorem Node.shownText_leaf {l : Leaf} (h : l.Tidy) : (leaf l).shownText = l.text := by
  rw [shownText_eq (n := leaf l) rfl h]
  simp [Leaf.charsOf, Token.chars, Leaf.text]

theorem Node.shownText_argumentList {o : Leaf} (h : o.Tidy) (c : Leaf)
    (arguments : Separated Expr) :
    ∃ inner, (argumentList o arguments c).shownText = o.text ++ inner ++ c.text := by
  let inner := Leaf.charsOf (arguments.flatMap Expr.argumentLeaves) ++
    c.leading.flatMap Token.chars
  have hleaves : (argumentList o arguments c).leaves =
      o :: (arguments.flatMap Expr.argumentLeaves ++ [c]) := by
    simp [leaves, Expr.argumentLeavesOnto_eq]
  have hrest : Leaf.charsOf (arguments.flatMap Expr.argumentLeaves ++ [c]) =
      inner ++ c.token.chars := by
    simp [inner, Leaf.charsOf, Leaf.tokens]
  refine ⟨.ofList inner, ?_⟩
  rw [shownText_eq hleaves h, hrest, ← List.append_assoc, String.ofList_append,
    String.ofList_append, Token.chars, Token.chars, String.ofList_toList, String.ofList_toList]
  rfl

theorem Node.spelt_leaves (hlex : lex source = .ok ts) (hparse : parse ts source = .ok t)
    (hlower : lower t = .ok p) {m : Node} (hm : (Node.program p).Within m) :
    ∀ l ∈ m.leaves, l.Tidy ∧ (l.kind ≠ .eof → l.kind.Spells l.text.toList) := by
  intro l hl
  obtain ⟨before, behind, hleaves⟩ := hm.exists_leaves
  have hmem : l ∈ p.leaves := by
    change p.leaves = _ at hleaves
    simp [hleaves, hl]
  have htoken : l.token ∈ ts := by
    rw [← flatMap_tokens_leaves_of_lower hlex hparse hlower]
    exact List.mem_flatMap.2 ⟨l, hmem, by simp [Leaf.tokens]⟩
  obtain ⟨hlaid, -⟩ := laidOut_of_lower hlex hparse hlower
  refine ⟨hlaid.tidy l hmem, fun hkind => ?_⟩
  exact (Lexer.spells_of_mem_lex hlex htoken).resolve_left fun heof => hkind heof.1

theorem Token.Kind.Spells.sign {kind : Kind} {text : String} (h : kind.Spells text.toList)
    (hkind : kind ∈ [plus, minus, star, slash]) : text ∈ ["+", "-", "*", "/"] := by
  rw [← @String.ofList_toList text]
  simp only [List.mem_cons, List.not_mem_nil, or_false] at hkind
  rcases hkind with rfl | rfl | rfl | rfl
  all_goals
    rw [show text.toList = _ from h]
    decide

/-- What is written at the place of a fault follows from what the fault is about. -/
theorem isReadIn_of_isAbout (ht : t.IsProgram) (hlower : lower t = .ok p) {fault : Fault} {m : Node}
    (h : fault.IsAbout p.nodes m)
    (hm : ∀ l ∈ m.leaves, l.Tidy ∧ (l.kind ≠ .eof → l.kind.Spells l.text.toList)) :
    fault.IsReadIn m.shownText := by
  cases fault with
  | operandTypeMismatch =>
    obtain ⟨id, left, operator, sign, right, hmem, rfl⟩ := h
    obtain ⟨htidy, hspells⟩ := hm sign (List.mem_singleton_self _)
    obtain ⟨place, hfits⟩ := ht.fits_of_mem_nodes hlower hmem
    obtain ⟨_, rule, kinds, _, hchain, -, hsign, -⟩ := hfits.sides
    have hkinds : kinds ⊆ [.plus, .minus, .star, .slash] := by cases hchain <;> simp
    have hkind := hkinds hsign
    have heof : sign.kind ≠ .eof := fun heof => by simp [heof] at hkind
    rw [Node.shownText_leaf htidy]
    exact (hspells heof).sign hkind
  | argumentCountMismatch =>
    obtain ⟨id, callee, o, arguments, c, hmem, -, -, rfl⟩ := h
    obtain ⟨place, hfits⟩ := ht.fits_of_mem_nodes hlower hmem
    obtain ⟨ho, hc⟩ := hfits.parentheses
    obtain ⟨hoTidy, hoSpells⟩ := hm o (by simp [Node.leaves])
    obtain ⟨-, hcSpells⟩ := hm c (by simp [Node.leaves, Expr.argumentLeavesOnto_eq])
    rw [ho] at hoSpells
    rw [hc] at hcSpells
    have hoText : o.text = "(" := String.toList_inj.1 (hoSpells (by decide))
    have hcText : c.text = ")" := String.toList_inj.1 (hcSpells (by decide))
    obtain ⟨inner, hshown⟩ := Node.shownText_argumentList hoTidy c arguments
    exact ⟨inner, by rw [hshown, hoText, hcText]⟩
  | argumentTypeMismatch | unexpectedStatementAfterExpression => trivial
  | _ =>
    obtain ⟨l, rfl, rfl⟩ := h
    exact Node.shownText_leaf (hm l (List.mem_singleton_self _)).1

/-- The place of a semantic error is that of the node it is about, in the text and in the program:
the text under its span is that of the node, and is the name, the sign or the arguments in
parentheses that the error speaks of. -/
theorem slice_of_validate_eq_error {options : Options} {errors : List SemanticError}
    (hlex : lex source = .ok ts) (hparse : parse ts source = .ok t) (hlower : lower t = .ok p)
    (hvalidate : validate options p = .error errors) :
    ∀ e ∈ errors, ∃ m, (Node.program p).Within m ∧ e.span = m.span ∧
      source.slice e.span = some m.shownText ∧ source.Marks e.span m.shownText.toList ∧
      e.fault.IsAbout p.nodes m ∧ e.fault.IsReadIn m.shownText := by
  intro e he
  obtain ⟨f, hf, hblames⟩ := blames_of_validate hvalidate e he
  obtain ⟨m, hm, hspan, habout⟩ := hblames.exists_about
  have hfunction : Node.function f ∈ (Node.program p).children := by simp [Node.children, hf]
  have hwithin : (Node.program p).Within m := .head hfunction hm
  have hnodes : f.body.nodes ⊆ p.nodes := fun n hn => List.mem_flatMap.2 ⟨f, hf, hn⟩
  have habout := habout.mono hnodes
  have hspelt := Node.spelt_leaves hlex hparse hlower hwithin
  obtain ⟨hmarks, -⟩ := Node.marks_shownText hlex hparse hlower hf hm
  rw [hspan] at hmarks
  obtain ⟨-, before, behind, hchars, hstart, hstop⟩ := id hmarks
  have hslice := Source.slice_eq_some hchars hstart hstop
  rw [String.ofList_toList] at hslice
  exact ⟨m, hwithin, hspan.symm, hslice, hmarks, habout,
    isReadIn_of_isAbout (wellFormed_of_parse_eq_ok hparse).1.isProgram hlower habout hspelt⟩

private def pointedSample : Source := ⟨"sample", "f(a: int): int { f( ) }\nh(): bool { 1 }"⟩

/-- The name of no type, and an argument too few. -/
private def pointedErrors : List SemanticError :=
  [⟨.unknownType "bool", .covering ⟨29, 2, 6⟩ "bool".toList⟩,
    ⟨.argumentCountMismatch "f" 1 0, .covering ⟨18, 1, 19⟩ "( )".toList⟩]

private theorem compile_pointedSample :
    compile ⟨true⟩ pointedSample =
      .error (.single (.validation pointedErrors) (some pointedSample)) :=
  compile_eq_error_of_thrown (by decide +kernel)

theorem slice_of_validate_eq_error_sample :
    compile ⟨true⟩ pointedSample =
        .error (.single (.validation pointedErrors) (some pointedSample)) ∧
      pointedErrors.map (fun e => pointedSample.slice e.span) = [some "bool", some "( )"] ∧
      ∀ e ∈ pointedErrors, ∃ text, pointedSample.slice e.span = some text ∧
        e.fault.IsReadIn text := by
  obtain ⟨cause, heq, hfails⟩ := failsWith_of_compile compile_pointedSample
  cases heq
  cases hfails with
  | validation hlex hparse hlower hvalidate =>
    refine ⟨compile_pointedSample, by decide +kernel, fun e he => ?_⟩
    obtain ⟨m, -, -, hslice, -, -, hread⟩ :=
      slice_of_validate_eq_error hlex hparse hlower hvalidate e he
    exact ⟨_, hslice, hread⟩

end FunImp
