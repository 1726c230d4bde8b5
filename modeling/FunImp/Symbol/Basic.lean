import FunImp.Program.Basic

/-!
# Symbols

What a name can stand for: a function, a type or a variable. Every symbol knows where it was
declared, and two types are the same only if they were declared in the same place.
-/

namespace FunImp

/-- Where a symbol comes from: a built-in module or a place in a source. -/
inductive Place where
  | builtin (module : String)
  | source (id : String) (span : Span)
deriving DecidableEq

namespace Place

def ofToken (t : Token) : Place := source t.source t.span

/-- The module, or `source:row:column`. -/
def render : Place → String
  | builtin module => module
  | source id span => id ++ ":" ++ span.start.render

end Place

structure Ty where
  name : String
  place : Place
deriving DecidableEq

namespace Ty

def builtin (name : String) : Ty := ⟨name, .builtin "builtin"⟩

def int : Ty := builtin "int"

def void : Ty := builtin "void"

end Ty

structure Signature where
  name : String
  place : Place
  parameters : List Ty
  result : Ty
  purity : Purity
deriving DecidableEq

namespace Signature

/-- The one built-in function, which writes a number. -/
def print : Signature := ⟨"print", .builtin "std.io", [.int], .void, .impure⟩

end Signature

structure Variable where
  name : String
  place : Place
  type : Ty
deriving DecidableEq

inductive SymbolSort where
  | function
  | type
  | value
deriving DecidableEq

namespace SymbolSort

def description : SymbolSort → String
  | function => "fun"
  | type => "type"
  | value => "variable"

/-- Why a symbol of the sort could not be declared where its name was taken. -/
def alreadyDeclared (sort : SymbolSort) (name : String) : String :=
  sort.description ++ " " ++ name ++ " is already declared in scope"

end SymbolSort

inductive Symbol where
  | function (signature : Signature)
  | type (type : Ty)
  | value (binding : Variable)
deriving DecidableEq

namespace Symbol

def name : Symbol → String
  | function f => f.name
  | type t => t.name
  | value v => v.name

def place : Symbol → Place
  | function f => f.place
  | type t => t.place
  | value v => v.place

def sort : Symbol → SymbolSort
  | function _ => .function
  | type _ => .type
  | value _ => .value

end Symbol

end FunImp
