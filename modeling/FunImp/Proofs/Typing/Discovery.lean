import Mathlib.Data.List.Induction
import FunImp.Proofs.Typing.Declarations

/-! # What declaring functions reports and keeps

Functions are declared one behind the other in the table that their signatures are read from. Only
names that are not taken are added, and none of them is a type, so that what a type name stands
for never changes. A function is faulty by what is written in it and in front of it, and a name
stands for the first function that could use it. -/

namespace FunImp

def TypeSpec.unknown? (ty : TypeSpec) : Option SemanticError :=
  if ty.name.text ∈ ["int", "void"] then none
  else some ⟨.unknownType ty.name.text, ty.name.span⟩

namespace FunctionDecl

def typeSpecs (f : FunctionDecl) : List TypeSpec := f.parameters.params.map Param.type ++ [f.result]

def unknownType? (f : FunctionDecl) : Option SemanticError :=
  f.typeSpecs.findSome? TypeSpec.unknown?

def signature (f : FunctionDecl) : Signature where
  name := f.name.text
  place := .ofToken f.name.token
  parameters := f.parameters.params.map fun q => .builtin q.type.name.text
  result := .builtin f.result.name.text
  purity := f.purity

def resolution (f : FunctionDecl) : Except SemanticError Signature :=
  match f.unknownType? with
  | some e => .error e
  | none => .ok f.signature

/-- The function has the name, and all its types are known. -/
def Provides (f : FunctionDecl) (name : String) : Prop :=
  f.unknownType? = none ∧ f.name.text = name

instance (f : FunctionDecl) (name : String) : Decidable (f.Provides name) :=
  inferInstanceAs (Decidable (f.unknownType? = none ∧ f.name.text = name))

/-- The error for the function behind those `earlier`. -/
def declarationError? (earlier : List FunctionDecl) (f : FunctionDecl) : Option SemanticError :=
  f.unknownType?.or <|
    if f.name.text ∈ ["int", "void", "print"] ∨ ∃ g ∈ earlier, g.Provides f.name.text then
      some ⟨.alreadyDeclared .function f.name.text, f.name.span⟩
    else none

end FunctionDecl

/-- What a name stands for once the functions have been declared. -/
def symbolOf (functions : List FunctionDecl) (name : String) : Option Symbol :=
  (SymbolTable.new.lookup name).or
    ((functions.find? (·.Provides name)).map fun f => .function f.signature)

/-- The built-in types are known in the table, and no others are. -/
def SymbolTable.KnowsBuiltins (table : SymbolTable) : Prop :=
  ∀ name, table.lookupType name = if name ∈ ["int", "void"] then some (.builtin name) else none

section Signatures

variable {table : SymbolTable}

theorem TypeSpec.typeIn_eq (h : table.KnowsBuiltins) (ty : TypeSpec) :
    ty.typeIn table = match ty.unknown? with
      | some e => .error e
      | none => .ok (.builtin ty.name.text) := by
  rw [typeIn, unknown?, h]
  split_ifs <;> rfl

theorem typesIn_eq (h : table.KnowsBuiltins) (params : List Param) :
    params.mapM (·.type.typeIn table) =
      match (params.map Param.type).findSome? TypeSpec.unknown? with
      | some e => .error e
      | none => .ok (params.map fun q => .builtin q.type.name.text) := by
  induction params with
  | nil => rfl
  | cons q params ih =>
    rw [List.mapM_cons, TypeSpec.typeIn_eq h, ih, List.map_cons, List.findSome?_cons]
    cases q.type.unknown? with
    | some e => rfl
    | none => cases (params.map Param.type).findSome? TypeSpec.unknown? <;> rfl

/-- A signature is what is written, whatever functions have been declared. -/
theorem FunctionDecl.signatureIn_eq (h : table.KnowsBuiltins) (f : FunctionDecl) :
    f.signatureIn table = f.resolution := by
  rw [signatureIn, typesIn_eq h, TypeSpec.typeIn_eq h, resolution, unknownType?, typeSpecs,
    List.findSome?_append, List.findSome?_singleton]
  cases (f.parameters.params.map Param.type).findSome? TypeSpec.unknown? with
  | some e => rfl
  | none => cases f.result.unknown? <;> rfl

end Signatures

theorem isSome_symbolOf_iff {functions : List FunctionDecl} {name : String} :
    (symbolOf functions name).isSome ↔
      name ∈ ["int", "void", "print"] ∨ ∃ g ∈ functions, g.Provides name := by
  have hnew : (SymbolTable.new.lookup name).isSome ↔ name ∈ ["int", "void", "print"] := by
    rw [SymbolTable.lookup_new]
    split_ifs <;> simp_all [eq_comm]
  rw [symbolOf, Option.isSome_or, Bool.or_eq_true, hnew]
  simp [-List.mem_cons]

/-- A function behind others gives a name a meaning only if it had none. -/
theorem symbolOf_append_singleton (earlier : List FunctionDecl) (f : FunctionDecl)
    (name : String) :
    symbolOf (earlier ++ [f]) name =
      (symbolOf earlier name).or
        (if f.Provides name then some (.function f.signature) else none) := by
  have hlast : List.find? (·.Provides name) [f] = if f.Provides name then some f else none := by
    split_ifs <;> simp [*]
  rw [symbolOf, symbolOf, List.find?_append, hlast, Option.or_assoc, Option.map_or]
  split_ifs <;> rfl

theorem FunctionDecl.declarationError?_of_known {f : FunctionDecl} (h : f.unknownType? = none)
    (earlier : List FunctionDecl) :
    f.declarationError? earlier =
      if (symbolOf earlier f.name.text).isSome then
        some ⟨.alreadyDeclared .function f.name.text, f.name.span⟩
      else none := by
  rw [declarationError?, h, Option.none_or]
  simp only [isSome_symbolOf_iff]

namespace SymbolTable

/-- The table has one scope, in which names stand for what the functions make of them. -/
structure Discovered (table : SymbolTable) (functions : List FunctionDecl) : Prop where
  inner : table.inner = []
  lookup_eq : ∀ name, table.lookup name = symbolOf functions name

theorem declare_of_inner_eq_nil {table : SymbolTable} (h : table.inner = []) (s : Symbol)
    (name : Leaf) :
    table.declare s name =
      if (table.lookup s.name).isSome then .error ⟨.alreadyDeclared s.sort s.name, name.span⟩
      else .ok { table with globals := s :: table.globals } := by
  rw [declare, insert, h, lookup_of_inner_eq_nil h]
  split_ifs <;> rfl

theorem lookup_cons_globals {table : SymbolTable} (h : table.inner = []) (s : Symbol)
    (name : String) :
    ({ table with globals := s :: table.globals } : SymbolTable).lookup name =
      if s.name = name then some s else table.lookup name := by
  obtain ⟨inner, globals⟩ := table
  obtain rfl : inner = [] := h
  rw [lookup_of_inner_eq_nil rfl, lookup_of_inner_eq_nil rfl]
  exact Scope.find?_cons s globals name

theorem discovered_new : new.Discovered [] where
  inner := rfl
  lookup_eq _ := Option.or_none.symm

namespace Discovered

variable {table table' : SymbolTable} {earlier : List FunctionDecl} {f : FunctionDecl}

theorem knowsBuiltins (h : table.Discovered earlier) : table.KnowsBuiltins := by
  intro name
  rw [lookupType, h.lookup_eq, symbolOf, lookup_new]
  by_cases hprint : "print" = name
  · subst name
    simp
  by_cases hvoid : "void" = name
  · subst name
    simp [Ty.void]
  by_cases hint : "int" = name
  · subst name
    simp [Ty.int]
  have hname : name ∉ ["int", "void"] := by simp [Ne.symm hint, Ne.symm hvoid]
  rw [if_neg hprint, if_neg hvoid, if_neg hint, if_neg hname, Option.none_or]
  cases earlier.find? (·.Provides name) <;> rfl

theorem declareIn_eq (h : table.Discovered earlier) (f : FunctionDecl) :
    f.declareIn table = match f.declarationError? earlier with
      | some e => .error e
      | none => .ok { table with globals := .function f.signature :: table.globals } := by
  rw [FunctionDecl.declareIn, FunctionDecl.signatureIn_eq h.knowsBuiltins,
    FunctionDecl.resolution]
  cases hunknown : f.unknownType? with
  | some e => simp only [FunctionDecl.declarationError?, hunknown, Option.some_or]; rfl
  | none =>
    change table.declare (.function f.signature) f.name = _
    rw [declare_of_inner_eq_nil h.inner, FunctionDecl.declarationError?_of_known hunknown]
    change (if (table.lookup f.name.text).isSome then _ else _) = _
    rw [h.lookup_eq]
    split_ifs <;> rfl

theorem after_faulty (h : table.Discovered earlier) {e : SemanticError}
    (he : f.declarationError? earlier = some e) : table.Discovered (earlier ++ [f]) where
  inner := h.inner
  lookup_eq name := by
    rw [h.lookup_eq, symbolOf_append_singleton]
    by_cases hf : f.Provides name
    · obtain ⟨hknown, rfl⟩ := hf
      rw [FunctionDecl.declarationError?_of_known hknown] at he
      have htaken : (symbolOf earlier f.name.text).isSome := by
        by_contra hfree
        rw [if_neg hfree] at he
        cases he
      obtain ⟨s, hs⟩ := Option.isSome_iff_exists.1 htaken
      rw [hs, Option.some_or]
    · rw [if_neg hf, Option.or_none]

/-- A function that is declared gives its name a meaning, and no other name. -/
theorem after_sound (h : table.Discovered earlier) (he : f.declarationError? earlier = none) :
    SymbolTable.Discovered { table with globals := .function f.signature :: table.globals }
      (earlier ++ [f]) where
  inner := h.inner
  lookup_eq name := by
    obtain ⟨hknown, hfree⟩ : f.unknownType? = none ∧ symbolOf earlier f.name.text = none := by
      have hknown := (Option.or_eq_none_iff.1 he).1
      rw [FunctionDecl.declarationError?_of_known hknown] at he
      simpa [hknown] using he
    rw [lookup_cons_globals h.inner, h.lookup_eq, symbolOf_append_singleton]
    by_cases hname : f.name.text = name
    · subst hname
      have hprovides : f.Provides f.name.text := ⟨hknown, rfl⟩
      rw [hfree, Option.none_or, if_pos hprovides]
      exact if_pos rfl
    · have hother : ¬f.Provides name := fun hf => hname hf.2
      rw [if_neg hother, Option.or_none]
      exact if_neg hname

theorem after_one (h : table.Discovered earlier) (f : FunctionDecl) :
    (declareFunctions table [f]).1 = (f.declarationError? earlier).toList ∧
      (declareFunctions table [f]).2.Discovered (earlier ++ [f]) := by
  rw [declareFunctions, h.declareIn_eq]
  cases he : f.declarationError? earlier with
  | some e => exact ⟨rfl, h.after_faulty he⟩
  | none => exact ⟨rfl, h.after_sound he⟩

end Discovered

end SymbolTable

theorem declareFunctions_append (table : SymbolTable) (fs gs : List FunctionDecl) :
    declareFunctions table (fs ++ gs) =
      ((declareFunctions table fs).1 ++
          (declareFunctions (declareFunctions table fs).2 gs).1,
        (declareFunctions (declareFunctions table fs).2 gs).2) := by
  induction fs generalizing table with
  | nil => rfl
  | cons f fs ih =>
    rw [List.cons_append, declareFunctions, declareFunctions]
    cases f.declareIn table with
    | error e => simp only [ih, List.cons_append]
    | ok table' => exact ih table'

/-- The errors of functions in order, each judged by those in front of it. -/
def declarationErrors (fs : List FunctionDecl) : List SemanticError :=
  fs.zipIdx.filterMap fun (f, i) => f.declarationError? (fs.take i)

theorem declarationErrors_append_singleton (fs : List FunctionDecl) (f : FunctionDecl) :
    declarationErrors (fs ++ [f]) = declarationErrors fs ++ (f.declarationError? fs).toList := by
  have hfront : (fs.zipIdx.filterMap fun (g, i) => g.declarationError? ((fs ++ [f]).take i)) =
      declarationErrors fs := by
    refine List.filterMap_congr fun ⟨g, i⟩ hi => ?_
    have hle : i ≤ fs.length := Nat.le_of_lt (List.snd_lt_of_mem_zipIdx hi)
    simp only [List.take_append_of_le_length hle]
  rw [declarationErrors, List.zipIdx_append, List.filterMap_append, hfront]
  congr 1
  cases he : f.declarationError? fs <;> simp [he]

theorem discovered_declareFunctions (fs : List FunctionDecl) :
    (declareFunctions .new fs).1 = declarationErrors fs ∧
      (declareFunctions .new fs).2.Discovered fs := by
  induction fs using List.reverseRecOn with
  | nil => exact ⟨rfl, SymbolTable.discovered_new⟩
  | append_singleton fs f ih =>
    obtain ⟨herrors, htable⟩ := ih
    rw [declareFunctions_append, declarationErrors_append_singleton, herrors,
      (htable.after_one f).1]
    exact ⟨rfl, (htable.after_one f).2⟩

/-- Each function of a program reports the first unknown type of its signature, or else that its
name is taken, or else nothing. A name stands for what is built in, or else for the first function
of the name whose types are all known. Signatures are the same in front of all declarations,
between any two of them and behind them all. -/
theorem declareIn_new_first_wins (p : Program) :
    (p.declareIn .new).1 =
        p.functions.zipIdx.filterMap (fun (f, i) => f.declarationError? (p.functions.take i)) ∧
      (p.declareIn .new).2.inner = [] ∧
      (∀ name, (p.declareIn .new).2.lookup name = symbolOf p.functions name) ∧
      ∀ f : FunctionDecl, f.signatureIn .new = f.resolution ∧
        (∀ i, f.signatureIn (declareFunctions .new (p.functions.take i)).2 = f.resolution) ∧
        f.signatureIn (p.declareIn .new).2 = f.resolution := by
  have hsignature (fs : List FunctionDecl) (f : FunctionDecl) :
      f.signatureIn (declareFunctions .new fs).2 = f.resolution :=
    f.signatureIn_eq (discovered_declareFunctions fs).2.knowsBuiltins
  obtain ⟨herrors, htable⟩ := discovered_declareFunctions p.functions
  exact ⟨herrors, htable.inner, htable.lookup_eq, fun f =>
    ⟨hsignature [] f, fun i => hsignature (p.functions.take i) f, hsignature p.functions f⟩⟩

end FunImp
