import FunImp.Tree.Basic

/-!
# Syntax errors

Reading a program ends at the first token that does not fit, or where rules would be nested too
deeply. The error keeps that token and the rules that were open.
-/

namespace FunImp

/-- How many rules of the grammar may be open at once. -/
def maxDepth : Nat := 128

inductive Obstacle where
  | unexpected (expected : List Token.Kind)
  | tooDeep
deriving DecidableEq

/-- Why no tree could be built. `rules` are the open rules, the outermost first. -/
structure SyntaxError where
  obstacle : Obstacle
  found : Token
  rules : List Rule
deriving DecidableEq

namespace SyntaxError

def expected (e : SyntaxError) : List Token.Kind :=
  match e.obstacle with
  | .unexpected kinds => kinds
  | .tooDeep => []

def depthLimit (e : SyntaxError) : Option Nat :=
  match e.obstacle with
  | .unexpected _ => none
  | .tooDeep => some maxDepth

def message (e : SyntaxError) : String :=
  match e.obstacle with
  | .unexpected kinds =>
    "expected " ++ Token.Kind.alternatives kinds ++ ", found " ++ e.found.kind.description
  | .tooDeep =>
    "expression nested more than " ++ toString maxDepth ++ " rules deep at " ++
      e.found.kind.description

def span (e : SyntaxError) : Span := e.found.span

/-- The open rules one per line, numbered from the outermost. -/
def ruleStack (e : SyntaxError) : String :=
  String.join ("non terminal stack:" ::
    e.rules.mapIdx fun i rule => "\n  " ++ toString i ++ ": " ++ rule.name)

end SyntaxError

end FunImp
