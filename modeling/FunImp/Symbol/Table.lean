import FunImp.Symbol.Basic

/-!
# Symbol tables

A table is a stack of scopes above the global one, which starts with the built-in symbols and
cannot be left. Names are declared in the innermost scope, once each, and looked up from the
innermost scope outwards.
-/

namespace FunImp

/-- The symbols of one scope, the latest first. -/
abbrev Scope : Type := List Symbol

namespace Scope

def find? (scope : Scope) (name : String) : Option Symbol :=
  List.find? (·.name = name) scope

end Scope

/-- The scopes that are open, the innermost first, and the global scope. -/
structure SymbolTable where
  inner : List Scope
  globals : Scope
deriving DecidableEq

namespace SymbolTable

/-- The global scope alone, with the built-in symbols. -/
def new : SymbolTable := ⟨[], [.function .print, .type .void, .type .int]⟩

instance : Inhabited SymbolTable := ⟨new⟩

def scopes (t : SymbolTable) : List Scope := t.inner ++ [t.globals]

def depth (t : SymbolTable) : Nat := t.scopes.length

def lookup (t : SymbolTable) (name : String) : Option Symbol :=
  t.scopes.findSome? (Scope.find? · name)

def lookupInnermost (t : SymbolTable) (name : String) : Option Symbol :=
  match t.inner with
  | [] => t.globals.find? name
  | scope :: _ => scope.find? name

def lookupGlobal (t : SymbolTable) (name : String) : Option Symbol :=
  t.globals.find? name

def lookupType (t : SymbolTable) (name : String) : Option Ty :=
  match t.lookup name with
  | some (.type ty) => some ty
  | _ => none

def lookupFunction (t : SymbolTable) (name : String) : Option Signature :=
  match t.lookup name with
  | some (.function f) => some f
  | _ => none

/-- Declares the symbol in the innermost scope. If its name is taken there, the symbol is
rejected. -/
def insert (t : SymbolTable) (s : Symbol) : Except Symbol SymbolTable :=
  if (t.lookupInnermost s.name).isSome then .error s
  else
    match t.inner with
    | [] => .ok { t with globals := s :: t.globals }
    | scope :: outer => .ok { t with inner := (s :: scope) :: outer }

def push (t : SymbolTable) : SymbolTable := { t with inner := [] :: t.inner }

/-- Closes the innermost scope, unless it is the global one. -/
def pop? (t : SymbolTable) : Option SymbolTable :=
  match t.inner with
  | [] => none
  | _ :: outer => some { t with inner := outer }

end SymbolTable

end FunImp
