import FunImp.Proofs.Program.Leaves
import FunImp.Proofs.Returns
import FunImp.Typing.Bodies

/-! # Bodies on one symbol table

Here all bodies are checked on one symbol table, which is changed on the way: each function opens a
scope, declares its parameters in it one by one, and closes it again wherever its check has
stopped. `check_eq` says that the table is then as it was, and that the outcome is the same as if
every body were checked on a table of its own. -/

namespace FunImp

/-- One symbol table and one type table for everything that is checked. -/
structure Session where
  table : SymbolTable
  types : TypeTable

/-- A check that may fail, and that changes the tables whether it fails or not. -/
abbrev SessionCheck : Type → Type := ExceptT SemanticError (StateM Session)

namespace SessionCheck

def record (id : NodeId) (ty : Ty) : SessionCheck Ty := do
  modify fun s => { s with types := s.types.insert id ty }
  return ty

def context (purity : Purity) : SessionCheck Context := do
  return ⟨(← get).table, purity⟩

/-- Declares the symbol in the innermost scope; if it is rejected the table stays. -/
def declare (symbol : Symbol) (name : Leaf) : SessionCheck Unit := do
  let table ← liftM ((← get).table.declare symbol name)
  modify ({ · with table })

end SessionCheck

namespace Expr

open SessionCheck

mutual

def typeOn (purity : Purity) : Expr → SessionCheck Ty
  | block id _ children _ => do
    let value ← valueOn purity none children
    record id (value.getD .void)
  | bare id child => do
    let ty ← typeOn purity child
    record id (if child.isStatement then .void else ty)
  | statement id child _ => do
    let _ ← typeOn purity child
    record id .void
  | binary id left _ sign right => do
    let leftType ← typeOn purity left
    let rightType ← typeOn purity right
    if leftType = rightType then record id leftType
    else throw ⟨.operandTypeMismatch leftType.name rightType.name, sign.span⟩
  | integer id _ => record id .int
  | reference id name => do
    let ctx ← context purity
    let ty ← ctx.valueType name
    record id ty
  | call id name opening arguments closing => do
    let ctx ← context purity
    let f ← ctx.callee name
    if arguments.length = f.parameters.length then
      checkArgumentsOn purity f.name 1 f.parameters arguments
      record id f.result
    else
      throw ⟨.argumentCountMismatch f.name f.parameters.length arguments.length,
        argumentListSpan opening arguments closing⟩

def valueOn (purity : Purity) (value : Option Ty) : List Expr → SessionCheck (Option Ty)
  | [] => return value
  | e :: es => do
    if value.isSome then throw ⟨.unexpectedStatementAfterExpression, e.span⟩
    let ty ← typeOn purity e
    valueOn purity (if e.isStatement then none else some ty) es

/-- Checks arguments against parameters, the first of which is at `position`. -/
def checkArgumentsOn (purity : Purity) (name : String) (position : Nat) (parameters : List Ty) :
    Separated Expr → SessionCheck Unit
  | [] => return ()
  | (e, _) :: rest =>
    match parameters with
    | [] => return ()
    | expected :: parameters => do
      let actual ← typeOn purity e
      if actual = expected then checkArgumentsOn purity name (position + 1) parameters rest
      else throw ⟨.argumentTypeMismatch name position expected.name actual.name, e.span⟩

end

end Expr

def bindParamsOn : List (Param × Ty) → SessionCheck Unit
  | [] => return ()
  | (p, ty) :: rest => do
    SessionCheck.declare (.value ⟨p.name.text, .ofToken p.name.token, ty⟩) p.name
    bindParamsOn rest

def FunctionDecl.checkOn (f : FunctionDecl) (signature : Signature) : SessionCheck Unit := do
  bindParamsOn (f.parameters.params.zip signature.parameters)
  let actual ← f.body.typeOn signature.purity
  if actual ≠ signature.result then
    throw ⟨.returnTypeMismatch signature.result.name actual.name, f.result.name.span⟩

namespace Session

def openScope (s : Session) : Session := { s with table := s.table.push }

/-- Closes the innermost scope; the global one stays open. -/
def closeScope (s : Session) : Session := { s with table := s.table.pop?.getD s.table }

/-- Checks the bodies of functions in order, each in a scope that is opened for it and closed
behind it. -/
def checkFunctions (s : Session) : List FunctionDecl → List SemanticError × Session
  | [] => ([], s)
  | f :: fs =>
    match f.signatureIn s.table with
    | .error _ => checkFunctions s fs
    | .ok signature =>
      match (f.checkOn signature).run.run s.openScope with
      | (.ok (), s) => checkFunctions s.closeScope fs
      | (.error e, s) =>
        let (errors, s) := checkFunctions s.closeScope fs
        (e :: errors, s)

def check (s : Session) (p : Program) : List SemanticError × Session :=
  s.checkFunctions p.functions

end Session

/-- With this symbol table the first check does what the second one does, and keeps the table. -/
def Keeps {α : Type} (table : SymbolTable) (m : SessionCheck α) (n : Checking α) : Prop :=
  ∀ types, m.run.run ⟨table, types⟩ = ((n.run.run types).1, ⟨table, (n.run.run types).2⟩)

section Keeps

variable {α β : Type} {table : SymbolTable}

theorem keeps_pure (a : α) : Keeps table (pure a) (pure a) := fun _ => rfl

theorem keeps_throw (e : SemanticError) : Keeps (α := α) table (throw e) (throw e) := fun _ => rfl

theorem keeps_record (id : NodeId) (ty : Ty) :
    Keeps table (SessionCheck.record id ty) (Checking.record id ty) := fun _ => rfl

theorem keeps_lift (x : Except SemanticError α) : Keeps table (liftM x) (liftM x) := fun _ => rfl

theorem Keeps.bind {m : SessionCheck α} {n : Checking α} {f : α → SessionCheck β}
    {g : α → Checking β} (hm : Keeps table m n) (hf : ∀ a, Keeps table (f a) (g a)) :
    Keeps table (m >>= f) (n >>= g) := by
  intro types
  rw [run_bind_eq, run_bind_eq, hm]
  rcases n.run.run types with ⟨e | a, types'⟩
  · rfl
  · exact hf a types'

theorem keeps_ite {c : Prop} [Decidable c] {m m' : SessionCheck α} {n n' : Checking α}
    (h : Keeps table m n) (h' : Keeps table m' n') :
    Keeps table (if c then m else m') (if c then n else n') := by
  split
  · exact h
  · exact h'

theorem keeps_context_bind {purity : Purity} {f : Context → SessionCheck α} {n : Checking α}
    (h : Keeps table (f ⟨table, purity⟩) n) : Keeps table (SessionCheck.context purity >>= f) n :=
  fun types => h types

end Keeps

namespace Expr

variable {table : SymbolTable} {purity : Purity}

theorem keeps_valueOn {es : List Expr}
    (h : ∀ e ∈ es, Keeps table (e.typeOn purity) (e.typeIn ⟨table, purity⟩)) (value : Option Ty) :
    Keeps table (valueOn purity value es) (valueOf ⟨table, purity⟩ value es) := by
  induction es generalizing value with
  | nil =>
    rw [valueOn, valueOf]
    exact keeps_pure _
  | cons e es ih =>
    obtain ⟨he, hes⟩ := List.forall_mem_cons.1 h
    rw [valueOn, valueOf]
    exact keeps_ite (keeps_throw _) (he.bind fun ty => ih hes _)

theorem keeps_checkArgumentsOn {arguments : Separated Expr}
    (h : ∀ a ∈ arguments, Keeps table (a.1.typeOn purity) (a.1.typeIn ⟨table, purity⟩))
    (name : String) (position : Nat) (parameters : List Ty) :
    Keeps table (checkArgumentsOn purity name position parameters arguments)
      (checkArguments ⟨table, purity⟩ name position parameters arguments) := by
  induction arguments generalizing position parameters with
  | nil =>
    rw [checkArgumentsOn, checkArguments]
    exact keeps_pure _
  | cons a arguments ih =>
    obtain ⟨ha, has⟩ := List.forall_mem_cons.1 h
    cases parameters with
    | nil =>
      rw [checkArgumentsOn, checkArguments]
      exact keeps_pure _
    | cons expected parameters =>
      rw [checkArgumentsOn, checkArguments]
      exact ha.bind fun actual => keeps_ite (ih has _ _) (keeps_throw _)

/-- Wherever the check of an expression stops, the symbol table is as it was. -/
theorem keeps_typeOn (table : SymbolTable) (purity : Purity) (e : Expr) :
    Keeps table (e.typeOn purity) (e.typeIn ⟨table, purity⟩) := by
  induction e using induct with
  | block id o children c ih =>
    rw [typeOn, typeIn]
    exact (keeps_valueOn ih none).bind fun value => keeps_record _ _
  | bare id child ih =>
    rw [typeOn, typeIn]
    exact ih.bind fun ty => keeps_record _ _
  | statement id child s ih =>
    rw [typeOn, typeIn]
    exact ih.bind fun ty => keeps_record _ _
  | binary id left op s right ihl ihr =>
    rw [typeOn, typeIn]
    exact ihl.bind fun l => ihr.bind fun r => keeps_ite (keeps_record _ _) (keeps_throw _)
  | integer id l =>
    rw [typeOn, typeIn]
    exact keeps_record _ _
  | reference id name =>
    rw [typeOn, typeIn]
    exact keeps_context_bind ((keeps_lift _).bind fun ty => keeps_record _ _)
  | call id n o arguments c ih =>
    rw [typeOn, typeIn]
    refine keeps_context_bind ((keeps_lift _).bind fun f => keeps_ite ?_ (keeps_throw _))
    exact (keeps_checkArgumentsOn ih _ _ _).bind fun _ => keeps_record _ _

end Expr

theorem run_declare (symbol : Symbol) (name : Leaf) (table : SymbolTable) (types : TypeTable) :
    (SessionCheck.declare symbol name).run.run ⟨table, types⟩ =
      match table.declare symbol name with
      | .ok table => (.ok (), ⟨table, types⟩)
      | .error e => (.error e, ⟨table, types⟩) := by
  change ((liftM (table.declare symbol name) >>= fun table => modify ({ · with table }) :
    SessionCheck Unit).run.run ⟨table, types⟩) = _
  rw [run_bind_eq]
  cases table.declare symbol name <;> rfl

/-- A table with a scope on top of another one. -/
def SymbolTable.under (outer : SymbolTable) (scope : Scope) : SymbolTable :=
  ⟨scope :: outer.inner, outer.globals⟩

theorem exists_under_of_declare {outer table : SymbolTable} {scope : Scope} {symbol : Symbol}
    {name : Leaf} (h : (outer.under scope).declare symbol name = .ok table) :
    ∃ scope', table = outer.under scope' := by
  unfold SymbolTable.declare SymbolTable.insert at h
  split at h
  · rename_i hinsert
    obtain rfl := Except.ok.inj h
    split at hinsert
    · cases hinsert
    · exact ⟨_, (Except.ok.inj hinsert).symm⟩
  · cases h

/-- Declaring parameters one by one changes the innermost scope only, also if one of them is
rejected. -/
theorem exists_bindParamsOn (outer : SymbolTable) (scope : Scope) (types : TypeTable)
    (params : List (Param × Ty)) :
    ∃ scope',
      ((bindParamsOn params).run.run ⟨outer.under scope, types⟩).2 = ⟨outer.under scope', types⟩ ∧
      bindParams (outer.under scope) params =
        ((bindParamsOn params).run.run ⟨outer.under scope, types⟩).1.map
          fun _ => outer.under scope' := by
  induction params generalizing scope with
  | nil => exact ⟨scope, rfl, rfl⟩
  | cons q params ih =>
    obtain ⟨q, ty⟩ := q
    rw [bindParams, bindParamsOn, run_bind_eq, run_declare]
    cases h : (outer.under scope).declare (.value ⟨q.name.text, .ofToken q.name.token, ty⟩) q.name
      with
    | error e => exact ⟨scope, rfl, rfl⟩
    | ok table =>
      obtain ⟨scope', rfl⟩ := exists_under_of_declare h
      exact ih scope'

namespace FunctionDecl

/-- Checking a body in a new scope does what the check on a table of its own does, and once the
scope is closed nothing of it is left. -/
theorem run_checkOn (f : FunctionDecl) (signature : Signature) (table : SymbolTable)
    (types : TypeTable) :
    ∃ scope,
      (f.checkOn signature).run.run (Session.openScope ⟨table, types⟩) =
        (((f.checkIn table signature).run.run types).1,
          ⟨table.under scope, ((f.checkIn table signature).run.run types).2⟩) := by
  obtain ⟨scope, hstate, hbind⟩ :=
    exists_bindParamsOn table [] types (f.parameters.params.zip signature.parameters)
  refine ⟨scope, ?_⟩
  have hrest : Keeps (table.under scope)
      (f.body.typeOn signature.purity >>= fun actual =>
        if actual ≠ signature.result then
          throw ⟨.returnTypeMismatch signature.result.name actual.name, f.result.name.span⟩
        else pure ())
      (f.body.typeIn ⟨table.under scope, signature.purity⟩ >>= fun actual =>
        if actual ≠ signature.result then
          throw ⟨.returnTypeMismatch signature.result.name actual.name, f.result.name.span⟩
        else pure ()) :=
    (Expr.keeps_typeOn _ _ _).bind fun actual => keeps_ite (keeps_throw _) (keeps_pure _)
  have hopen : Session.openScope ⟨table, types⟩ = ⟨table.under [], types⟩ := rfl
  have hpush : table.push = table.under [] := rfl
  rw [checkOn, checkIn, hopen, hpush, hbind, run_bind_eq, run_bind_eq]
  cases h : (bindParamsOn (f.parameters.params.zip signature.parameters)).run.run
    ⟨table.under [], types⟩ with
  | mk r s =>
    rw [h] at hstate
    subst hstate
    cases r with
    | error e => rfl
    | ok u => exact hrest types

end FunctionDecl

namespace Session

theorem closeScope_under (table : SymbolTable) (scope : Scope) (types : TypeTable) :
    closeScope ⟨table.under scope, types⟩ = ⟨table, types⟩ := rfl

theorem checkFunctions_eq (table : SymbolTable) (types : TypeTable) (fs : List FunctionDecl) :
    checkFunctions ⟨table, types⟩ fs =
      ((FunImp.checkFunctions table types fs).1,
        ⟨table, (FunImp.checkFunctions table types fs).2⟩) := by
  induction fs generalizing types with
  | nil => rfl
  | cons f fs ih =>
    rw [checkFunctions, FunImp.checkFunctions]
    cases f.signatureIn table with
    | error e => exact ih types
    | ok signature =>
      obtain ⟨scope, hrun⟩ := f.run_checkOn signature table types
      simp only [hrun]
      rcases (f.checkIn table signature).run.run types with ⟨e | u, types'⟩
      · simp only [closeScope_under, ih]
      · exact ih types'

/-- The symbol table is at the end what it was, and the errors and types are those of bodies that
are checked on tables of their own. -/
theorem check_eq (table : SymbolTable) (types : TypeTable) (p : Program) :
    check ⟨table, types⟩ p = ((p.checkIn table types).1, ⟨table, (p.checkIn table types).2⟩) :=
  checkFunctions_eq table types p.functions

end Session

end FunImp
