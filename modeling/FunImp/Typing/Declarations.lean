import FunImp.Symbol.Table
import FunImp.Typing.SemanticError

/-!
# Declarations

Before any body is checked every function is declared, so that functions may call each other
whatever their order. A function whose types are not all known is not declared.
-/

namespace FunImp

def TypeSpec.typeIn (ty : TypeSpec) (table : SymbolTable) : Except SemanticError Ty :=
  match table.lookupType ty.name.text with
  | some t => .ok t
  | none => .error ⟨.unknownType ty.name.text, ty.name.span⟩

/-- The signature of a function, its parameters resolved before its result. -/
def FunctionDecl.signatureIn (f : FunctionDecl) (table : SymbolTable) :
    Except SemanticError Signature := do
  let parameters ← f.parameters.params.mapM (·.type.typeIn table)
  let result ← f.result.typeIn table
  return ⟨f.name.text, .ofToken f.name.token, parameters, result, f.purity⟩

/-- Declares the symbol; `name` is where its name was written. -/
def SymbolTable.declare (table : SymbolTable) (s : Symbol) (name : Leaf) :
    Except SemanticError SymbolTable :=
  match table.insert s with
  | .ok table => .ok table
  | .error rejected => .error ⟨.alreadyDeclared rejected.sort rejected.name, name.span⟩

def FunctionDecl.declareIn (f : FunctionDecl) (table : SymbolTable) :
    Except SemanticError SymbolTable := do
  let signature ← f.signatureIn table
  table.declare (.function signature) f.name

/-- Declares functions in order. A function that cannot be declared is passed over. -/
def declareFunctions (table : SymbolTable) : List FunctionDecl → List SemanticError × SymbolTable
  | [] => ([], table)
  | f :: fs =>
    match f.declareIn table with
    | .ok table => declareFunctions table fs
    | .error e =>
      let (errors, table) := declareFunctions table fs
      (e :: errors, table)

/-- Declares the functions of a program in the innermost scope of the table. -/
def Program.declareIn (p : Program) (table : SymbolTable) : List SemanticError × SymbolTable :=
  declareFunctions table p.functions

end FunImp
