import FunImp.Outline
import FunImp.Program.Basic

/-!
# Outlines of programs

What a program means without how it is laid out: functions with their signatures, and below each
the shape of its body. Parentheses, separators and white space are gone.
-/

namespace FunImp

namespace Expr

mutual

def outline (last : Bool) : Expr → Outline
  | block _ _ children _ => .node "Expression \x7b\x7d" last (allOutlines children)
  | bare _ child => .node "Expression" last [outline true child]
  | statement _ child _ => .node "Statement" last [outline true child]
  | binary _ left operator _ right =>
    .node operator.symbol last [outline false left, outline true right]
  | integer _ literal => .node ("Integer " ++ literal.text) last []
  | reference _ name => .node ("Identifier " ++ name.text) last []
  | call _ name _ arguments _ => .node ("Call " ++ name.text) last (argumentOutlines arguments)

def allOutlines : List Expr → List Outline
  | [] => []
  | e :: es => outline es.isEmpty e :: allOutlines es

def argumentOutlines : Separated Expr → List Outline
  | [] => []
  | (e, _) :: rest => outline rest.isEmpty e :: argumentOutlines rest

end

end Expr

namespace FunctionDecl

/-- The signature in one line. -/
def heading (f : FunctionDecl) : String :=
  let params := f.parameters.params.map fun p => p.name.text ++ ": " ++ p.type.name.text
  f.purity.keyword ++ " " ++ f.name.text ++ "(" ++ ", ".intercalate params ++ "): " ++
    f.result.name.text

def outline (last : Bool) (f : FunctionDecl) : Outline :=
  .node f.heading last [f.body.outline true]

def outlines : List FunctionDecl → List Outline
  | [] => []
  | f :: fs => f.outline fs.isEmpty :: outlines fs

end FunctionDecl

namespace Program

def outline (p : Program) : Outline :=
  .node "Program" true (FunctionDecl.outlines p.functions)

def print (p : Program) : String := Outline.render [p.outline]

end Program

end FunImp
