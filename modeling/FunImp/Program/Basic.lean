import FunImp.Program.Expr

/-!
# Programs

A program is a row of functions. A function is pure or impure, has parameters and a result of
named types, and a body.
-/

namespace FunImp

inductive Purity where
  | pure
  | impure
deriving DecidableEq

namespace Purity

def keyword : Purity → String
  | pure => "fun"
  | impure => "imp"

end Purity

/-- A type name behind its colon. -/
structure TypeSpec where
  colon : Leaf
  name : Leaf
deriving DecidableEq

namespace TypeSpec

def leaves (ty : TypeSpec) : List Leaf := [ty.colon, ty.name]

def span (ty : TypeSpec) : Span := Token.spanOf (ty.leaves.flatMap Leaf.tokens)

def mapLeaves (f : Leaf → Leaf) (ty : TypeSpec) : TypeSpec := ⟨f ty.colon, f ty.name⟩

end TypeSpec

/-- A parameter and the comma behind it, if there is one. -/
structure Param where
  name : Leaf
  type : TypeSpec
  comma : Option Leaf
deriving DecidableEq

namespace Param

def leaves (p : Param) : List Leaf := p.name :: p.type.leaves ++ p.comma.toList

def span (p : Param) : Span := Token.spanOf (p.leaves.flatMap Leaf.tokens)

def mapLeaves (f : Leaf → Leaf) (p : Param) : Param :=
  ⟨f p.name, p.type.mapLeaves f, p.comma.map f⟩

end Param

structure ParamList where
  opening : Leaf
  params : List Param
  closing : Leaf
deriving DecidableEq

namespace ParamList

def leaves (ps : ParamList) : List Leaf :=
  ps.opening :: ps.params.flatMap Param.leaves ++ [ps.closing]

def span (ps : ParamList) : Span := Token.spanOf (ps.leaves.flatMap Leaf.tokens)

def mapLeaves (f : Leaf → Leaf) (ps : ParamList) : ParamList :=
  ⟨f ps.opening, ps.params.map (Param.mapLeaves f), f ps.closing⟩

end ParamList

/-- A function with its keyword, if one was written. -/
structure FunctionDecl where
  keyword : Option Leaf
  name : Leaf
  parameters : ParamList
  result : TypeSpec
  body : Expr

namespace FunctionDecl

/-- A function is pure unless its keyword says otherwise. -/
def purity (f : FunctionDecl) : Purity :=
  if f.keyword.any (·.kind = .imp) then .impure else .pure

def leaves (f : FunctionDecl) : List Leaf :=
  f.keyword.toList ++ f.name :: f.parameters.leaves ++ f.result.leaves ++ f.body.leaves

def tokens (f : FunctionDecl) : List Token := f.leaves.flatMap Leaf.tokens

def span (f : FunctionDecl) : Span := Token.spanOf f.tokens

def mapLeaves (g : Leaf → Leaf) (f : FunctionDecl) : FunctionDecl where
  keyword := f.keyword.map g
  name := g f.name
  parameters := f.parameters.mapLeaves g
  result := f.result.mapLeaves g
  body := f.body.mapLeaves g

/-- Whether two functions are equal but for the places of their tokens. -/
def alike (f g : FunctionDecl) : Bool :=
  f.keyword.map Leaf.unplaced = g.keyword.map Leaf.unplaced &&
    f.name.unplaced = g.name.unplaced &&
    f.parameters.mapLeaves Leaf.unplaced = g.parameters.mapLeaves Leaf.unplaced &&
    f.result.mapLeaves Leaf.unplaced = g.result.mapLeaves Leaf.unplaced &&
    f.body.alike g.body

end FunctionDecl

structure Program where
  functions : List FunctionDecl
  eof : Leaf

namespace Program

def leaves (p : Program) : List Leaf := p.functions.flatMap FunctionDecl.leaves ++ [p.eof]

def tokens (p : Program) : List Token := p.leaves.flatMap Leaf.tokens

def sourceText (p : Program) : String := Token.sourceText p.tokens

def span (p : Program) : Span := Token.spanOf p.tokens

def mapLeaves (f : Leaf → Leaf) (p : Program) : Program :=
  ⟨p.functions.map (FunctionDecl.mapLeaves f), f p.eof⟩

/-- Whether two programs are equal but for the places of their tokens. -/
def alike (p q : Program) : Bool :=
  p.functions.length = q.functions.length &&
    (p.functions.zip q.functions).all (fun (f, g) => f.alike g) && p.eof.unplaced = q.eof.unplaced

end Program

end FunImp
