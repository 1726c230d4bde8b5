import Std.Data.ExtTreeMap
import FunImp.Typing.Declarations

/-!
# Function bodies

Every expression of a body gets a type, which is recorded under its number. A body is checked up
to its first error; what was recorded until then stays. The value of a block is its last child if
that is no statement, and nothing may follow a child that is none.
-/

namespace FunImp

abbrev TypeTable : Type := Std.ExtTreeMap NodeId Ty

/-- A check that may fail and that records types. -/
abbrev Checking : Type → Type := ExceptT SemanticError (StateM TypeTable)

/-- What is known where an expression stands: the symbols, and the purity of the function. -/
structure Context where
  table : SymbolTable
  purity : Purity

namespace Checking

def record (id : NodeId) (ty : Ty) : Checking Ty := do
  modify (·.insert id ty)
  return ty

end Checking

namespace Context

def valueType (ctx : Context) (name : Leaf) : Except SemanticError Ty :=
  match ctx.table.lookup name.text with
  | some (.value v) => .ok v.type
  | some s => .error ⟨.notAValue s.sort name.text, name.span⟩
  | none => .error ⟨.undeclaredSymbol name.text, name.span⟩

/-- The function that a name stands for, if it may be called here. -/
def callee (ctx : Context) (name : Leaf) : Except SemanticError Signature :=
  match ctx.table.lookup name.text with
  | some (.function f) =>
    if ctx.purity = .pure ∧ f.purity = .impure then
      .error ⟨.impureCallInPureContext f.name, name.span⟩
    else .ok f
  | _ => .error ⟨.notAFunction name.text, name.span⟩

end Context

namespace Expr

open Checking

def argumentListSpan (opening : Leaf) (arguments : Separated Expr) (closing : Leaf) : Span :=
  Token.spanOf ((opening :: argumentLeavesOnto [closing] arguments).flatMap Leaf.tokens)

mutual

def typeIn (ctx : Context) : Expr → Checking Ty
  | block id _ children _ => do
    let value ← valueOf ctx none children
    record id (value.getD .void)
  | bare id child => do
    let ty ← typeIn ctx child
    record id (if child.isStatement then .void else ty)
  | statement id child _ => do
    let _ ← typeIn ctx child
    record id .void
  | binary id left _ sign right => do
    let leftType ← typeIn ctx left
    let rightType ← typeIn ctx right
    if leftType = rightType then record id leftType
    else throw ⟨.operandTypeMismatch leftType.name rightType.name, sign.span⟩
  | integer id _ => record id .int
  | reference id name => do
    let ty ← ctx.valueType name
    record id ty
  | call id name opening arguments closing => do
    let f ← ctx.callee name
    if arguments.length = f.parameters.length then
      checkArguments ctx f.name 1 f.parameters arguments
      record id f.result
    else
      throw ⟨.argumentCountMismatch f.name f.parameters.length arguments.length,
        argumentListSpan opening arguments closing⟩

/-- The value of children in a row, given the value of those before them. -/
def valueOf (ctx : Context) (value : Option Ty) : List Expr → Checking (Option Ty)
  | [] => return value
  | e :: es => do
    if value.isSome then throw ⟨.unexpectedStatementAfterExpression, e.span⟩
    let ty ← typeIn ctx e
    valueOf ctx (if e.isStatement then none else some ty) es

/-- Checks arguments against parameters, the first of which is at `position`. -/
def checkArguments (ctx : Context) (name : String) (position : Nat) (parameters : List Ty) :
    Separated Expr → Checking Unit
  | [] => return ()
  | (e, _) :: rest =>
    match parameters with
    | [] => return ()
    | expected :: parameters => do
      let actual ← typeIn ctx e
      if actual = expected then checkArguments ctx name (position + 1) parameters rest
      else throw ⟨.argumentTypeMismatch name position expected.name actual.name, e.span⟩

end

end Expr

def bindParams (table : SymbolTable) : List (Param × Ty) → Except SemanticError SymbolTable
  | [] => .ok table
  | (p, ty) :: rest => do
    let table ← table.declare (.value ⟨p.name.text, .ofToken p.name.token, ty⟩) p.name
    bindParams table rest

/-- Checks the body of a function in a scope of its own, which holds its parameters. -/
def FunctionDecl.checkIn (f : FunctionDecl) (table : SymbolTable) (signature : Signature) :
    Checking Unit := do
  let table ← bindParams table.push (f.parameters.params.zip signature.parameters)
  let actual ← f.body.typeIn ⟨table, signature.purity⟩
  if actual ≠ signature.result then
    throw ⟨.returnTypeMismatch signature.result.name actual.name, f.result.name.span⟩

/-- Checks the bodies of functions in order. A function whose signature cannot be resolved is
passed over: its declaration has been reported. -/
def checkFunctions (table : SymbolTable) (types : TypeTable) :
    List FunctionDecl → List SemanticError × TypeTable
  | [] => ([], types)
  | f :: fs =>
    match f.signatureIn table with
    | .error _ => checkFunctions table types fs
    | .ok signature =>
      match (f.checkIn table signature).run.run types with
      | (.ok (), types) => checkFunctions table types fs
      | (.error e, types) =>
        let (errors, types) := checkFunctions table types fs
        (e :: errors, types)

def Program.checkIn (p : Program) (table : SymbolTable) (types : TypeTable) :
    List SemanticError × TypeTable :=
  checkFunctions table types p.functions

end FunImp
