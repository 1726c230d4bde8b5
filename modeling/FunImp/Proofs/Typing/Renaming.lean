import Mathlib.SetTheory.Cardinal.Arithmetic
import FunImp.Proofs.Lowering.Numbers
import FunImp.Proofs.Typing.Relabelling
import FunImp.Proofs.Typing.Validate

/-! # Validation up to consistent renaming

A renaming is consistent if it gives different names to the different names of a program, the
built-in ones included, and leaves these as they are. It agrees with a permutation of all names on
them. Permutations relabel programs, and what they leave alone a verdict cannot mention. -/

namespace FunImp

/-- The leaf with another name, if it is one. -/
def Leaf.rename (r : String → String) (l : Leaf) : Leaf :=
  if l.kind = .identifier then { l with token := { l.token with text := some (r l.text) } } else l

namespace Program

/-- The program with all its names replaced: those of functions, parameters and types, and those
that are mentioned or called in bodies. -/
def rename (r : String → String) (p : Program) : Program := p.mapLeaves (Leaf.rename r)

/-- The names of the program and the built-in ones. -/
def names (p : Program) : List String :=
  ["int", "void", "print"] ++ (p.leaves.filter (·.kind = .identifier)).map Leaf.text

end Program

/-- The error with its names replaced. -/
def SemanticError.rename (r : String → String) (e : SemanticError) : SemanticError :=
  ⟨e.fault.rename r, e.span⟩

/-- The names that a fault mentions. -/
def Fault.names : Fault → List String
  | unknownType name | alreadyDeclared _ name | undeclaredSymbol name | notAValue _ name
  | notAFunction name | impureCallInPureContext name | argumentCountMismatch name _ _ => [name]
  | returnTypeMismatch expected actual => [expected, actual]
  | operandTypeMismatch left right => [left, right]
  | argumentTypeMismatch name _ expected actual => [name, expected, actual]
  | unexpectedStatementAfterExpression => []

theorem Fault.rename_eq_rename_iff {r r' : String → String} (fault : Fault) :
    fault.rename r = fault.rename r' ↔ ∀ n ∈ fault.names, r n = r' n := by
  cases fault <;> simp [rename, names]

namespace Leaf

variable {r r' : String → String}

theorem kind_rename (l : Leaf) : (l.rename r).kind = l.kind := by
  unfold rename
  split <;> rfl

theorem text_rename {l : Leaf} (h : l.kind = .identifier) : (l.rename r).text = r l.text := by
  rw [rename, if_pos h]
  rfl

theorem rename_eq_rename {l : Leaf} (h : l.kind = .identifier → r l.text = r' l.text) :
    l.rename r = l.rename r' := by
  by_cases hl : l.kind = .identifier
  · rw [rename, rename, if_pos hl, if_pos hl, h hl]
  · rw [rename, rename, if_neg hl, if_neg hl]

theorem spans_rename (l : Leaf) :
    ((l.rename r).tokens.filter (!·.isWhitespace)).map Token.span =
      (l.tokens.filter (!·.isWhitespace)).map Token.span := by
  by_cases hl : l.kind = .identifier
  · have hkind : l.token.kind = .identifier := hl
    simp [rename, hl, tokens, Token.isWhitespace, hkind]
  · rw [rename, if_neg hl]

theorem spanOf_rename (ls : List Leaf) :
    Token.spanOf ((ls.map (rename r)).flatMap tokens) = Token.spanOf (ls.flatMap tokens) := by
  have hspans : ((ls.map (rename r)).flatMap tokens |>.filter (!·.isWhitespace)).map Token.span =
      ((ls.flatMap tokens).filter (!·.isWhitespace)).map Token.span := by
    simp only [List.flatMap_map, List.filter_flatMap, List.map_flatMap, spans_rename]
  rw [Token.spanOf, Token.spanOf, hspans]

end Leaf

/-- An injective renaming that leaves the built-in names alone relabels programs. -/
def Relabelling.renaming (r : String → String) (hr : Function.Injective r)
    (hint : r "int" = "int") (hvoid : r "void" = "void") (hprint : r "print" = "print") :
    Relabelling where
  leaf := Leaf.rename r
  name := r
  type ty := ⟨r ty.name, ty.place⟩
  place := id
  span := id
  kind_leaf l := l.kind_rename
  place_leaf l := by
    unfold Leaf.rename
    split <;> rfl
  span_leaves := Leaf.spanOf_rename
  name_injective := hr
  type_injective ty ty' h := by
    obtain ⟨name, place⟩ := ty
    obtain ⟨name', place'⟩ := ty'
    simpa [hr.eq_iff] using h
  name_type _ := rfl
  place_builtin _ := rfl
  type_int := congrArg Ty.builtin hint
  type_void := congrArg Ty.builtin hvoid
  name_print := hprint

theorem Tree.Becomes.kind_name {t : Tree} {e : Expr} {s s' : NodeId} (h : Becomes t s e s') :
    ∀ n ∈ e.nodes, ∀ l ∈ n.name?, l.kind = .identifier := by
  have hself {e : Expr} {below : List Expr}
      (hbelow : ∀ n ∈ below, ∀ l ∈ n.name?, l.kind = .identifier)
      (he : ∀ l ∈ e.name?, l.kind = .identifier) :
      ∀ n ∈ below ++ [e], ∀ l ∈ n.name?, l.kind = .identifier :=
    List.forall_mem_append.2 ⟨hbelow, List.forall_mem_singleton.2 he⟩
  have hnone : ∀ n ∈ ([] : List Expr), ∀ l ∈ n.name?, l.kind = .identifier :=
    List.forall_mem_nil _
  induction h with
  | block _ _ _ _ ih =>
    refine hself (fun n hn => ?_) nofun
    obtain ⟨e, he, hn⟩ := Expr.mem_allNodes.1 hn
    obtain ⟨x, hx, rfl⟩ := List.mem_map.1 he
    exact ih x hx n hn
  | bare _ ih => exact hself ih nofun
  | statement _ _ ih => exact hself ih nofun
  | operand _ _ ih => exact ih
  | link _ _ _ _ ihl ihr => exact hself (List.forall_mem_append.2 ⟨ihl, ihr⟩) nofun
  | integer => exact hself hnone nofun
  | reference hl =>
    refine hself hnone ?_
    rintro l ⟨⟩
    exact hl
  | call hn _ _ _ _ _ _ ih =>
    refine hself (fun n hmem => ?_) ?_
    · obtain ⟨a, ha, hmem⟩ := Expr.mem_argumentNodes.1 hmem
      obtain ⟨x, hx, rfl⟩ := List.mem_map.1 ha
      exact ih x hx n hmem
    · rintro l ⟨⟩
      exact hn

/-- A renaming reaches all names of a function that was lowered. -/
theorem readsFunction_of_toFunction {ρ : Relabelling} {t : Tree} {f : FunctionDecl}
    {s s' : NodeId} (hρ : ∀ l : Leaf, l.kind = .identifier → ρ.Reads l)
    (h : Returns t.toFunction s f s') : ρ.ReadsFunction f := by
  obtain ⟨rule, body, -, -, hf, -, hbody⟩ := Tree.returns_toFunction_iff.1 h
  exact ⟨hρ _ hf.name,
    fun q hq => ⟨hρ _ (hf.parameters.params q hq).name, hρ _ (hf.parameters.params q hq).type.name⟩,
    hρ _ hf.result.name, fun n hn l hl => hρ _ (hbody.kind_name n hn l hl)⟩

section Lowered

variable {t : Tree} {p : Program} (hlower : lower t = .ok p)
include hlower

theorem readsFunction_of_lower {ρ : Relabelling}
    (hρ : ∀ l : Leaf, l.kind = .identifier → ρ.Reads l) :
    ∀ f ∈ p.functions, ρ.ReadsFunction f := by
  intro f hf
  obtain ⟨u, s, s', hu⟩ := exists_toFunction_of_lower hlower hf
  exact readsFunction_of_toFunction hρ hu

theorem nodup_ids_of_lower : (p.nodes.map Expr.id).Nodup := by
  have hids := Tree.ids_of_lowerFrom (t := t) (s := 0) (p := p) hlower
  rw [hids]
  exact List.nodup_range'

end Lowered

theorem HasType.denotes {p : Program} {f : FunctionDecl} {e : Expr} {ty : Ty}
    (h : HasType (p.envOf f) e ty) : ∃ name, Denotes name ty := by
  have hint : ∃ name, Denotes name .int := ⟨"int", .inl ⟨rfl, rfl⟩⟩
  have hvoid : ∃ name, Denotes name .void := ⟨"void", .inr ⟨rfl, rfl⟩⟩
  induction h with
  | integer => exact hint
  | reference h =>
    obtain ⟨q, -, -, hq⟩ := h
    exact ⟨_, hq⟩
  | call _ hf _ _ _ _ =>
    cases hf with
    | print _ _ hr _ =>
      rw [hr]
      exact hvoid
    | function _ _ _ hr _ => exact ⟨_, hr⟩
  | binary _ _ ihl _ => exact ihl
  | statement _ _ => exact hvoid
  | bare _ ih => exact ih
  | statements _ _ _ => exact hvoid
  | value _ _ _ _ _ ih => exact ih

/-- Only built-in types are recorded. -/
theorem denotes_of_validate {options : Options} {p : Program} {typed : TypedProgram}
    (h : validate options p = .ok typed) (hids : (p.nodes.map Expr.id).Nodup) {id : NodeId}
    {ty : Ty} (hty : typed.types[id]? = some ty) : ∃ name, Denotes name ty := by
  obtain ⟨-, -, -, hrecorded⟩ := sound_validate h
  by_cases hid : id ∈ p.nodes.map Expr.id
  · obtain ⟨n, hn, rfl⟩ := List.mem_map.1 hid
    obtain ⟨ty', ⟨f, -, -, hty'⟩, hget⟩ := hrecorded.types hids n hn
    obtain rfl : ty' = ty := Option.some.inj (hget.symm.trans hty)
    exact hty'.denotes
  · rw [hrecorded.others id hid] at hty
    simp at hty

theorem Program.rename_congr {p : Program} {r r' : String → String}
    (h : ∀ n ∈ p.names, r n = r' n) : p.rename r = p.rename r' := by
  refine p.mapLeaves_congr fun l hl => Leaf.rename_eq_rename fun hkind => h _ ?_
  exact List.mem_append_right _ (List.mem_map_of_mem (List.mem_filter.2 ⟨hl, by simpa using hkind⟩))

/-- What is injective on the names of a program is a permutation of all names there. -/
theorem Program.exists_perm {p : Program} {r : String → String}
    (hr : ∀ a ∈ p.names, ∀ b ∈ p.names, r a = r b → a = b) :
    ∃ σ : Equiv.Perm String, ∀ n ∈ p.names, σ n = r n := by
  have hfinite : {n | n ∈ p.names}.Finite := List.finite_toSet p.names
  have hinj : Set.InjOn r {n | n ∈ p.names} := fun a ha b hb hab => hr a ha b hb hab
  have hcard : Cardinal.mk {n | n ∈ p.names} < Cardinal.mk String :=
    (Cardinal.lt_aleph0_iff_set_finite.2 hfinite).trans_le (Cardinal.aleph0_le_mk String)
  obtain ⟨σ, hσ⟩ := Cardinal.extend_function_of_lt ⟨Set.domRestrict _ r, hinj.injective⟩ hcard
    ⟨Equiv.refl String⟩
  exact ⟨σ, fun n hn => hσ ⟨n, hn⟩⟩

section Verdict

variable {t : Tree} {p : Program} (hlower : lower t = .ok p) {r : String → String}
  (hint : r "int" = "int") (hvoid : r "void" = "void") (hprint : r "print" = "print")
  (options : Options)
include hlower

section Injective

variable (hr : Function.Injective r)
include hr hint hvoid hprint

theorem validate_rename_ok {typed : TypedProgram} (h : validate options p = .ok typed) :
    validate options (p.rename r) = .ok ⟨p.rename r, typed.types⟩ := by
  let ρ := Relabelling.renaming r hr hint hvoid hprint
  have hreads : ∀ f ∈ p.functions, ρ.ReadsFunction f :=
    readsFunction_of_lower hlower fun _ => Leaf.text_rename
  have htypes : ρ.types typed.types = typed.types := by
    refine Std.ExtTreeMap.ext_getElem? fun id => ?_
    rw [Relabelling.types, Std.ExtTreeMap.getElem?_map]
    cases hty : typed.types[id]? with
    | none => rfl
    | some ty =>
      obtain ⟨name, ⟨-, rfl⟩ | ⟨-, rfl⟩⟩ := denotes_of_validate h (nodup_ids_of_lower hlower) hty
      · exact congrArg some ρ.type_int
      · exact congrArg some ρ.type_void
  have hverdict := ρ.validate_mapLeaves hreads options
  rw [h] at hverdict
  rw [← htypes]
  exact hverdict

theorem validate_rename_error {errors : List SemanticError}
    (h : validate options p = .error errors) :
    validate options (p.rename r) = .error (errors.map (SemanticError.rename r)) := by
  let ρ := Relabelling.renaming r hr hint hvoid hprint
  have hreads : ∀ f ∈ p.functions, ρ.ReadsFunction f :=
    readsFunction_of_lower hlower fun _ => Leaf.text_rename
  have hverdict := ρ.validate_mapLeaves hreads options
  rwa [h] at hverdict

end Injective

/-- Errors mention names of the program only. -/
theorem mem_names_of_validate {errors : List SemanticError}
    (h : validate options p = .error errors) {e : SemanticError} (he : e ∈ errors) {n : String}
    (hn : n ∈ e.fault.names) : n ∈ p.names := by
  by_contra hout
  obtain ⟨m, hm⟩ := Infinite.exists_notMem_finset (n :: p.names).toFinset
  rw [List.mem_toFinset, List.mem_cons, not_or] at hm
  -- The program does not change if the two names it does not have are swapped.
  have hfixed : ∀ a ∈ p.names, Equiv.swap n m a = id a := fun a ha =>
    Equiv.swap_apply_of_ne_of_ne (ne_of_mem_of_not_mem ha hout) (ne_of_mem_of_not_mem ha hm.2)
  have hbuiltin : ∀ a ∈ ["int", "void", "print"], Equiv.swap n m a = a := fun a ha =>
    hfixed a (List.mem_append_left _ ha)
  have hswap := validate_rename_error hlower (hbuiltin "int" (by simp)) (hbuiltin "void" (by simp))
    (hbuiltin "print" (by simp)) options (Equiv.swap n m).injective h
  have hid := validate_rename_error hlower (r := id) rfl rfl rfl options Function.injective_id h
  rw [Program.rename_congr hfixed, hid, Except.error.injEq, List.map_inj_left] at hswap
  have hfault := congrArg SemanticError.fault (hswap e he)
  have hmoved : n = Equiv.swap n m n := (Fault.rename_eq_rename_iff e.fault).1 hfault n hn
  rw [Equiv.swap_apply_left] at hmoved
  exact hm.1 hmoved.symm

include hint hvoid hprint in
/-- A verdict depends on names up to consistent renaming only. -/
theorem validate_rename (hr : ∀ a ∈ p.names, ∀ b ∈ p.names, r a = r b → a = b) :
    validate options (p.rename r) =
      match validate options p with
      | .ok typed => .ok ⟨p.rename r, typed.types⟩
      | .error errors => .error (errors.map (SemanticError.rename r)) := by
  obtain ⟨σ, hσ⟩ := Program.exists_perm hr
  have hbuiltin : ∀ a ∈ ["int", "void", "print"], σ a = r a := fun a ha =>
    hσ a (List.mem_append_left _ ha)
  have hint' : σ "int" = "int" := (hbuiltin "int" (by simp)).trans hint
  have hvoid' : σ "void" = "void" := (hbuiltin "void" (by simp)).trans hvoid
  have hprint' : σ "print" = "print" := (hbuiltin "print" (by simp)).trans hprint
  rw [← Program.rename_congr hσ]
  cases h : validate options p with
  | ok typed => exact validate_rename_ok hlower hint' hvoid' hprint' options σ.injective h
  | error errors =>
    have herrors : errors.map (SemanticError.rename σ) = errors.map (SemanticError.rename r) := by
      refine List.map_congr_left fun e he => ?_
      have hfault : e.fault.rename σ = e.fault.rename r :=
        (Fault.rename_eq_rename_iff e.fault).2 fun n hn =>
          hσ n (mem_names_of_validate hlower options h he hn)
      rw [SemanticError.rename, SemanticError.rename, hfault]
    rw [validate_rename_error hlower hint' hvoid' hprint' options σ.injective h, herrors]

end Verdict

private def leafAs (kind : Token.Kind) (text : String) : Leaf :=
  ⟨[], ⟨kind, some text, default, "hiding"⟩⟩

/-- The tree of `fun f(f: int): int f()`, where the parameter hides the function. -/
private def hidingTree : Tree :=
  .node .program [.node .impureFunction [.ofLeaf (leafAs .fn "fun"),
    .ofLeaf (leafAs .identifier "f"),
    .node .paramList [.ofLeaf (leafAs .leftParen "("), .ofLeaf (leafAs .identifier "f"),
      .ofLeaf (leafAs .colon ":"), .ofLeaf (leafAs .identifier "int"),
      .ofLeaf (leafAs .rightParen ")")],
    .ofLeaf (leafAs .colon ":"), .ofLeaf (leafAs .identifier "int"),
    .node .blocklessExpression [.node .functionCall [.ofLeaf (leafAs .identifier "f"),
      .node .argumentList [.ofLeaf (leafAs .leftParen "("), .ofLeaf (leafAs .rightParen ")")]]]],
    .ofLeaf (leafAs .eof "")]

private def hidingProgram : Program where
  functions := [⟨some (leafAs .fn "fun"), leafAs .identifier "f",
    ⟨leafAs .leftParen "(",
      [⟨leafAs .identifier "f", ⟨leafAs .colon ":", leafAs .identifier "int"⟩, none⟩],
      leafAs .rightParen ")"⟩,
    ⟨leafAs .colon ":", leafAs .identifier "int"⟩,
    .bare 1 (.call 0 (leafAs .identifier "f") (leafAs .leftParen "(") []
      (leafAs .rightParen ")"))⟩]
  eof := leafAs .eof ""

/-- A renaming that is injective on the names of the program, and on no more. -/
private def fToG (n : String) : String := if n = "f" then "g" else n

theorem validate_rename_sample :
    lower hidingTree = .ok hidingProgram ∧
    hidingProgram.names = ["int", "void", "print", "f", "f", "int", "int", "f"] ∧
    (∀ a ∈ hidingProgram.names, ∀ b ∈ hidingProgram.names, fToG a = fToG b → a = b) ∧
    (fToG "int" = "int" ∧ fToG "void" = "void" ∧ fToG "print" = "print") ∧
    validate default hidingProgram = .error [⟨.notAFunction "f", default⟩] ∧
    validate default (hidingProgram.rename fToG) = .error [⟨.notAFunction "g", default⟩] := by
  have hlower : lower hidingTree = .ok hidingProgram := rfl
  have hnames : hidingProgram.names = ["int", "void", "print", "f", "f", "int", "int", "f"] := rfl
  have hr : ∀ a ∈ hidingProgram.names, ∀ b ∈ hidingProgram.names, fToG a = fToG b → a = b := by
    rw [hnames]
    decide
  have hverdict : validate default hidingProgram = .error [⟨.notAFunction "f", default⟩] := rfl
  refine ⟨hlower, hnames, hr, ⟨rfl, rfl, rfl⟩, hverdict, ?_⟩
  rw [validate_rename hlower rfl rfl rfl default hr, hverdict]
  rfl

end FunImp
