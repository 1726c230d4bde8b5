import FunImp.Tree.Basic

/-!
# Trees that stand for no program

A tree that was not built by parsing can have any shape. These are the ways in which its shape
is not the one that a program has.
-/

namespace FunImp

/-- What a place in a tree is for. -/
inductive Part where
  | program
  | function
  | parameterList
  | expression
  | argumentList
  | token
  | whitespace
deriving DecidableEq

namespace Part

def name : Part → String
  | program => "program"
  | function => "function"
  | parameterList => "parameter list"
  | expression => "expression"
  | argumentList => "argument list"
  | token => "token"
  | whitespace => "whitespace"

end Part

inductive LoweringError where
  | unexpectedNode (expected : Part) (found : Tree.Head)
  | unexpectedToken (expected found : Token.Kind)
  | notAnOperator (found : Token.Kind)
  | missingChild (parent : Rule)
  | trailingChildren (parent : Rule)
deriving DecidableEq

namespace LoweringError

def message : LoweringError → String
  | unexpectedNode expected found =>
    "expected " ++ expected.name ++ ", found " ++ found.name ++ " node"
  | unexpectedToken expected found =>
    "expected " ++ expected.description ++ " token, found " ++ found.description
  | notAnOperator found => found.description ++ " is not a binary operator"
  | missingChild parent => parent.name ++ " node ended early"
  | trailingChildren parent => parent.name ++ " node has unexpected trailing children"

end LoweringError

end FunImp
