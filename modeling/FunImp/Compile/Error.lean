import FunImp.Diagnostic.Basic
import FunImp.Token.Lexer
import FunImp.Tree.SyntaxError
import FunImp.Program.LoweringError
import FunImp.Typing.SemanticError

/-!
# Compilation errors

A source fails in one phase of compilation. The errors of several sources are collected in one.
An error that knows its source can show where in the text it is.
-/

namespace FunImp

inductive Cause where
  | lexing (errors : LexErrors)
  | parsing (error : SyntaxError)
  | lowering (error : LoweringError)
  | validation (errors : List SemanticError)
deriving DecidableEq

namespace Cause

def message : Cause → String
  | lexing errors => errors.message
  | parsing error => error.message
  | lowering error => error.message
  | validation errors => "\n".intercalate (errors.map SemanticError.render)

/-- What to show of the cause in the source. A tree of the wrong shape has no place in it. -/
def diagnostics (source : Source) : Cause → List Diagnostic
  | lexing errors => errors.toList.map fun e => .locate source e.message e.span
  | parsing error => [.locate source error.message error.span]
  | lowering error => [.locate source error.message default]
  | validation errors => errors.map fun e => .locate source e.fault.message e.span

end Cause

inductive CompileError where
  | single (cause : Cause) (origin : Option Source)
  | multi (errors : List CompileError) (origin : Option Source)

namespace CompileError

def origin : CompileError → Option Source
  | single _ origin => origin
  | multi _ origin => origin

def foundIn (source : Source) : CompileError → CompileError
  | single cause _ => single cause (some source)
  | multi errors _ => multi errors (some source)

mutual

/-- The message, behind the name of the source if it is known. A collection has the messages of
its errors one per line. -/
def message : CompileError → String
  | single cause (some source) => source.id ++ ": " ++ cause.message
  | single cause none => cause.message
  | multi errors _ => "\n".intercalate (messages errors)

def messages : List CompileError → List String
  | [] => []
  | e :: es => message e :: messages es

end

mutual

/-- What to show of the error. A collection shows what its errors show. -/
def diagnostics : CompileError → List Diagnostic
  | single cause (some source) => cause.diagnostics source
  | single _ none => []
  | multi errors _ => allDiagnostics errors

def allDiagnostics : List CompileError → List Diagnostic
  | [] => []
  | e :: es => diagnostics e ++ allDiagnostics es

end

end CompileError

end FunImp
