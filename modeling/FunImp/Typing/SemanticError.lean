import FunImp.Symbol.Basic

/-!
# Semantic errors

What is wrong with a program that can be read, and where.
-/

namespace FunImp

/-- What is wrong. Types are given by their names. -/
inductive Fault where
  | unknownType (name : String)
  | alreadyDeclared (sort : SymbolSort) (name : String)
  | undeclaredSymbol (name : String)
  | notAValue (sort : SymbolSort) (name : String)
  | notAFunction (name : String)
  | impureCallInPureContext (name : String)
  | returnTypeMismatch (expected actual : String)
  | operandTypeMismatch (left right : String)
  | argumentCountMismatch (name : String) (expected found : Nat)
  | argumentTypeMismatch (name : String) (position : Nat) (expected actual : String)
  | unexpectedStatementAfterExpression
deriving DecidableEq

namespace Fault

def message : Fault → String
  | unknownType name => "Unknown type " ++ name
  | alreadyDeclared sort name => sort.alreadyDeclared name
  | undeclaredSymbol name => "Use of undeclared symbol " ++ name
  | notAValue sort name => sort.description ++ " " ++ name ++ " can not be used as a value"
  | notAFunction name => "Could not find function '" ++ name ++ "'"
  | impureCallInPureContext name =>
    "Can't invoke impure function '" ++ name ++ "' from pure context"
  | returnTypeMismatch expected actual =>
    "Function body return type " ++ actual ++ " does not match declared return type " ++ expected
  | operandTypeMismatch left right =>
    "Operands have different types: " ++ left ++ " and " ++ right
  | argumentCountMismatch name expected found =>
    "Function '" ++ name ++ "' expects " ++ toString expected ++ " argument(s) but " ++
      toString found ++ " were given"
  | argumentTypeMismatch name position expected actual =>
    "Argument " ++ toString position ++ " of '" ++ name ++ "' should be " ++ expected ++
      " but was " ++ actual
  | unexpectedStatementAfterExpression => "Unexpected statement after expression"

end Fault

structure SemanticError where
  fault : Fault
  span : Span
deriving DecidableEq

namespace SemanticError

/-- The message and the place where the span starts. -/
def render (e : SemanticError) : String :=
  e.fault.message ++ " at " ++ e.span.start.render

end SemanticError

end FunImp
