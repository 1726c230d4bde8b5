import FunImp.Typing.Bodies

/-!
# Validation

A program is valid if all its functions can be declared and all their bodies have the types
that they promise.
-/

namespace FunImp

structure TypedProgram where
  program : Program
  types : TypeTable

structure Options where
  /-- Whether bodies are checked even if some function could not be declared. -/
  keepGoing : Bool
deriving DecidableEq

instance : Inhabited Options := ⟨⟨false⟩⟩

/-- The types of a valid program, or its errors: those of declarations in front of those of
bodies, each in the order of the functions. -/
def validate (options : Options) (program : Program) : Except (List SemanticError) TypedProgram :=
  let (declarationErrors, table) := program.declareIn .new
  if declarationErrors.isEmpty || options.keepGoing then
    let (bodyErrors, types) := program.checkIn table ∅
    let errors := declarationErrors ++ bodyErrors
    if errors.isEmpty then .ok ⟨program, types⟩ else .error errors
  else .error declarationErrors

end FunImp
