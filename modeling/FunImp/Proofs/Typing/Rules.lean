import Mathlib.Data.List.Forall2
import FunImp.Typing.Validate

/-! # Typing rules

What it means for a program to be well typed, without symbol tables and without any order of
checking. Expressions are typed in an environment, which says what the parameters of a function
are and which functions there are. -/

namespace FunImp

def Denotes (name : String) (ty : Ty) : Prop :=
  name = "int" ∧ ty = .int ∨ name = "void" ∧ ty = .void

theorem Denotes.unique {name : String} {s t : Ty} (hs : Denotes name s) (ht : Denotes name t) :
    s = t := by
  rcases hs with ⟨rfl, rfl⟩ | ⟨rfl, rfl⟩
  · rcases ht with ⟨-, rfl⟩ | ⟨h, -⟩
    · rfl
    · exact absurd h (by decide)
  · rcases ht with ⟨h, -⟩ | ⟨-, rfl⟩
    · exact absurd h (by decide)
    · rfl

theorem exists_denotes_iff {name : String} :
    (∃ ty, Denotes name ty) ↔ name ∈ ["int", "void"] := by
  simp [Denotes, exists_or]

/-- What names stand for in the body of a function of some purity. -/
structure Env where
  purity : Purity
  value : String → Ty → Prop
  function : String → List Ty → Ty → Purity → Prop

inductive HasType (Γ : Env) : Expr → Ty → Prop where
  | integer {id : NodeId} {literal : Leaf} : HasType Γ (.integer id literal) .int
  | reference {id : NodeId} {name : Leaf} {ty : Ty} (h : Γ.value name.text ty) :
      HasType Γ (.reference id name) ty
  | call {id : NodeId} {name opening closing : Leaf} {arguments : Separated Expr}
      {parameters : List Ty} {result : Ty} {purity : Purity}
      (hv : ∀ ty, ¬Γ.value name.text ty) (hf : Γ.function name.text parameters result purity)
      (hp : Γ.purity = .pure → purity = .pure) (hl : arguments.length = parameters.length)
      (ha : ∀ a ∈ arguments.zip parameters, HasType Γ a.1.1 a.2) :
      HasType Γ (.call id name opening arguments closing) result
  | binary {id : NodeId} {left right : Expr} {operator : Operator} {sign : Leaf} {ty : Ty}
      (hl : HasType Γ left ty) (hr : HasType Γ right ty) :
      HasType Γ (.binary id left operator sign right) ty
  | statement {id : NodeId} {child : Expr} {semicolon : Leaf} {ty : Ty} (h : HasType Γ child ty) :
      HasType Γ (.statement id child semicolon) .void
  | bare {id : NodeId} {child : Expr} {ty : Ty} (h : HasType Γ child ty) :
      HasType Γ (.bare id child) ty
  | statements {id : NodeId} {opening closing : Leaf} {children : List Expr}
      (hs : ∀ e ∈ children, e.isStatement) (h : ∀ e ∈ children, HasType Γ e .void) :
      HasType Γ (.block id opening children closing) .void
  | value {id : NodeId} {opening closing : Leaf} {front : List Expr} {last : Expr} {ty : Ty}
      (hs : ∀ e ∈ front, e.isStatement) (h : ∀ e ∈ front, HasType Γ e .void)
      (hn : last.isStatement = false) (hl : HasType Γ last ty) :
      HasType Γ (.block id opening (front ++ [last]) closing) ty

namespace Expr

mutual

/-- The expression and everything in it, parts before wholes. -/
def nodes : Expr → List Expr
  | block id opening children closing =>
    allNodes children ++ [block id opening children closing]
  | bare id child => nodes child ++ [bare id child]
  | statement id child semicolon => nodes child ++ [statement id child semicolon]
  | binary id left operator sign right =>
    nodes left ++ nodes right ++ [binary id left operator sign right]
  | integer id literal => [integer id literal]
  | reference id name => [reference id name]
  | call id name opening arguments closing =>
    argumentNodes arguments ++ [call id name opening arguments closing]

def allNodes : List Expr → List Expr
  | [] => []
  | e :: es => nodes e ++ allNodes es

def argumentNodes : Separated Expr → List Expr
  | [] => []
  | (e, _) :: rest => nodes e ++ argumentNodes rest

end

theorem allNodes_eq_flatMap (es : List Expr) : allNodes es = es.flatMap nodes := by
  induction es with
  | nil => rfl
  | cons e es ih => rw [allNodes, ih, List.flatMap_cons]

theorem argumentNodes_eq_flatMap (arguments : Separated Expr) :
    argumentNodes arguments = arguments.flatMap fun a => a.1.nodes := by
  induction arguments with
  | nil => rfl
  | cons a arguments ih => rw [argumentNodes, ih, List.flatMap_cons]

theorem mem_allNodes {n : Expr} {es : List Expr} : n ∈ allNodes es ↔ ∃ e ∈ es, n ∈ e.nodes := by
  rw [allNodes_eq_flatMap, List.mem_flatMap]

theorem mem_argumentNodes {n : Expr} {arguments : Separated Expr} :
    n ∈ argumentNodes arguments ↔ ∃ a ∈ arguments, n ∈ a.1.nodes := by
  rw [argumentNodes_eq_flatMap, List.mem_flatMap]

end Expr

def Param.HasType (p : Param) (ty : Ty) : Prop := Denotes p.type.name.text ty

/-- Every type written in the signature of the function is one. -/
structure FunctionDecl.TypesKnown (f : FunctionDecl) : Prop where
  params : ∀ q ∈ f.parameters.params, q.type.name.text ∈ ["int", "void"]
  result : f.result.name.text ∈ ["int", "void"]

namespace Program

/-- The functions of the program and the built-in one. -/
inductive Declares (p : Program) (name : String) (parameters : List Ty) (result : Ty)
    (purity : Purity) : Prop where
  | print (hn : name = "print") (hp : parameters = [.int]) (hr : result = .void)
      (hu : purity = .impure)
  | function {f : FunctionDecl} (hf : f ∈ p.functions) (hn : f.name.text = name)
      (hp : List.Forall₂ Param.HasType f.parameters.params parameters)
      (hr : Denotes f.result.name.text result) (hu : f.purity = purity)

/-- What names stand for in the body of one of the functions. -/
def envOf (p : Program) (f : FunctionDecl) : Env where
  purity := f.purity
  value name ty := ∃ q ∈ f.parameters.params, q.name.text = name ∧ q.HasType ty
  function := p.Declares

/-- Types are known, and no name is declared twice in one place. -/
structure WellDeclared (p : Program) : Prop where
  types : ∀ f ∈ p.functions, f.TypesKnown
  names : (p.functions.map (·.name.text)).Nodup
  builtins : ∀ f ∈ p.functions, f.name.text ∉ ["int", "void", "print"]
  paramNames : ∀ f ∈ p.functions, (f.parameters.params.map (·.name.text)).Nodup

/-- The body of the function has the type that is written for its result. -/
def TypesBody (p : Program) (f : FunctionDecl) : Prop :=
  ∃ ty, Denotes f.result.name.text ty ∧ HasType (p.envOf f) f.body ty

def WellTyped (p : Program) : Prop := ∀ f ∈ p.functions, p.TypesBody f

def nodes (p : Program) : List Expr := p.functions.flatMap (·.body.nodes)

end Program

end FunImp
