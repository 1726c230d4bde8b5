import FunImp.Proofs.Program.Leaves
import FunImp.Proofs.Returns
import FunImp.Proofs.Typing.Rules

/-! # Checks of relabelled programs

The leaves of a program can be exchanged so that equal names stay equal and different names stay
different. Whatever a check looks up, compares, records or reports is exchanged with them, and
nothing else about the check changes. -/

namespace FunImp

/-- The fault with its names replaced, those of types included. -/
def Fault.rename (r : String → String) : Fault → Fault
  | unknownType name => unknownType (r name)
  | alreadyDeclared sort name => alreadyDeclared sort (r name)
  | undeclaredSymbol name => undeclaredSymbol (r name)
  | notAValue sort name => notAValue sort (r name)
  | notAFunction name => notAFunction (r name)
  | impureCallInPureContext name => impureCallInPureContext (r name)
  | returnTypeMismatch expected actual => returnTypeMismatch (r expected) (r actual)
  | operandTypeMismatch left right => operandTypeMismatch (r left) (r right)
  | argumentCountMismatch name expected found => argumentCountMismatch (r name) expected found
  | argumentTypeMismatch name position expected actual =>
    argumentTypeMismatch (r name) position (r expected) (r actual)
  | unexpectedStatementAfterExpression => unexpectedStatementAfterExpression

/-- The leaf that a node mentions as a name. -/
def Expr.name? : Expr → Option Leaf
  | reference _ name => some name
  | call _ name .. => some name
  | _ => none

/-- An exchange of leaves, and what it makes of the names, types, places and spans that are read
from them. What is built in is not exchanged. -/
structure Relabelling where
  leaf : Leaf → Leaf
  name : String → String
  type : Ty → Ty
  place : Place → Place
  span : Span → Span
  kind_leaf : ∀ l, (leaf l).kind = l.kind
  place_leaf : ∀ l, Place.ofToken (leaf l).token = place (.ofToken l.token)
  span_leaves : ∀ ls : List Leaf, Token.spanOf ((ls.map leaf).flatMap Leaf.tokens) =
    span (Token.spanOf (ls.flatMap Leaf.tokens))
  name_injective : Function.Injective name
  type_injective : Function.Injective type
  name_type : ∀ ty, (type ty).name = name ty.name
  place_builtin : ∀ module, place (.builtin module) = .builtin module
  type_int : type .int = .int
  type_void : type .void = .void
  name_print : name "print" = "print"

namespace Relabelling

variable (ρ : Relabelling)

def signature (f : Signature) : Signature :=
  ⟨ρ.name f.name, ρ.place f.place, f.parameters.map ρ.type, ρ.type f.result, f.purity⟩

def symbol : Symbol → Symbol
  | .function f => .function (ρ.signature f)
  | .type t => .type (ρ.type t)
  | .value v => .value ⟨ρ.name v.name, ρ.place v.place, ρ.type v.type⟩

def table (t : SymbolTable) : SymbolTable :=
  ⟨t.inner.map (List.map ρ.symbol), t.globals.map ρ.symbol⟩

def context (ctx : Context) : Context := ⟨ρ.table ctx.table, ctx.purity⟩

def types (types : TypeTable) : TypeTable := types.map fun _ => ρ.type

def error (e : SemanticError) : SemanticError := ⟨e.fault.rename ρ.name, ρ.span e.span⟩

/-- A result after the exchange; `g` exchanges an answer. -/
def result {α β : Type} (g : α → β) : Except SemanticError α → Except SemanticError β
  | .ok a => .ok (g a)
  | .error e => .error (ρ.error e)

/-- The leaf is a name, and its text is exchanged with it. -/
def Reads (l : Leaf) : Prop := (ρ.leaf l).text = ρ.name l.text

/-- Every name in the function is exchanged. -/
structure ReadsFunction (f : FunctionDecl) : Prop where
  name : ρ.Reads f.name
  params : ∀ q ∈ f.parameters.params, ρ.Reads q.name ∧ ρ.Reads q.type.name
  result : ρ.Reads f.result.name
  body : ∀ n ∈ f.body.nodes, ∀ l ∈ n.name?, ρ.Reads l

variable {ρ}

theorem span_leaf (l : Leaf) : (ρ.leaf l).span = ρ.span l.span := by
  have hspan := ρ.span_leaves [l]
  simpa [Leaf.span] using hspan

theorem span_expr (e : Expr) : (e.mapLeaves ρ.leaf).span = ρ.span e.span := by
  rw [Expr.span, Expr.tokens, Expr.leaves_mapLeaves, ρ.span_leaves]
  rfl

theorem span_argumentList (o : Leaf) (arguments : Separated Expr) (c : Leaf) :
    Expr.argumentListSpan (ρ.leaf o)
        (arguments.map fun a => (a.1.mapLeaves ρ.leaf, a.2.map ρ.leaf)) (ρ.leaf c) =
      ρ.span (Expr.argumentListSpan o arguments c) := by
  have hleaves : ρ.leaf o :: Expr.argumentLeavesOnto [ρ.leaf c]
      (arguments.map fun a => (a.1.mapLeaves ρ.leaf, a.2.map ρ.leaf)) =
      (o :: Expr.argumentLeavesOnto [c] arguments).map ρ.leaf := by
    simp [Expr.argumentLeavesOnto_eq, Expr.argumentLeaves_mapLeaves]
  rw [Expr.argumentListSpan, hleaves, ρ.span_leaves]
  rfl

section Result

variable {α α' β β' : Type} {g : α → α'} {h : β → β'}

theorem result_bind {x : Except SemanticError α} {x' : Except SemanticError α'}
    {k : α → Except SemanticError β} {k' : α' → Except SemanticError β'} (hx : x' = ρ.result g x)
    (hk : ∀ a, k' (g a) = ρ.result h (k a)) : (x' >>= k') = ρ.result h (x >>= k) := by
  rw [hx]
  cases x with
  | ok a => exact hk a
  | error e => rfl

theorem result_mapM {γ γ' : Type} {f : γ → Except SemanticError α}
    {f' : γ' → Except SemanticError α'} {φ : γ → γ'} {as : List γ}
    (hf : ∀ a ∈ as, f' (φ a) = ρ.result g (f a)) :
    (as.map φ).mapM f' = ρ.result (List.map g) (as.mapM f) := by
  induction as with
  | nil => rfl
  | cons a as ih =>
    obtain ⟨ha, has⟩ := List.forall_mem_cons.1 hf
    rw [List.map_cons, List.mapM_cons, List.mapM_cons]
    exact result_bind ha fun b => result_bind (ih has) fun bs => rfl

end Result

@[simp] theorem name_symbol (s : Symbol) : (ρ.symbol s).name = ρ.name s.name := by
  cases s with
  | function => rfl
  | type t => exact ρ.name_type t
  | value => rfl

@[simp] theorem sort_symbol (s : Symbol) : (ρ.symbol s).sort = s.sort := by
  cases s <;> rfl

theorem find?_scope (scope : Scope) (name : String) :
    Scope.find? (scope.map ρ.symbol) (ρ.name name) = (scope.find? name).map ρ.symbol := by
  have hname : (fun s => decide (s.name = ρ.name name)) ∘ ρ.symbol =
      fun s => decide (s.name = name) := by
    funext s
    simp [ρ.name_injective.eq_iff]
  rw [Scope.find?, Scope.find?, List.find?_map, hname]

section Table

variable (t : SymbolTable) (name : String)

theorem lookup_table : (ρ.table t).lookup (ρ.name name) = (t.lookup name).map ρ.symbol := by
  have hscopes : (ρ.table t).scopes = t.scopes.map (List.map ρ.symbol) := by
    simp [SymbolTable.scopes, table]
  rw [SymbolTable.lookup, SymbolTable.lookup, hscopes]
  induction t.scopes with
  | nil => rfl
  | cons scope scopes ih =>
    rw [List.map_cons, List.findSome?_cons, List.findSome?_cons, find?_scope, ih]
    cases scope.find? name with
    | none => rfl
    | some s => rfl

theorem lookupInnermost_table :
    (ρ.table t).lookupInnermost (ρ.name name) = (t.lookupInnermost name).map ρ.symbol := by
  obtain ⟨_ | ⟨scope, inner⟩, globals⟩ := t
  · exact find?_scope globals name
  · exact find?_scope scope name

theorem lookupType_table :
    (ρ.table t).lookupType (ρ.name name) = (t.lookupType name).map ρ.type := by
  rw [SymbolTable.lookupType, SymbolTable.lookupType, lookup_table]
  rcases t.lookup name with _ | _ | _ | _
  · rfl
  · rfl
  · rfl
  · rfl

theorem table_new : ρ.table .new = .new := by
  have hprint : ρ.signature .print = .print := by
    simp [signature, Signature.print, ρ.name_print, ρ.place_builtin, ρ.type_int, ρ.type_void]
  simp [table, SymbolTable.new, symbol, hprint, ρ.type_int, ρ.type_void]

theorem declare_table (s : Symbol) (l : Leaf) :
    (ρ.table t).declare (ρ.symbol s) (ρ.leaf l) = ρ.result ρ.table (t.declare s l) := by
  rw [SymbolTable.declare, SymbolTable.declare, SymbolTable.insert, SymbolTable.insert,
    name_symbol, lookupInnermost_table, Option.isSome_map]
  cases (t.lookupInnermost s.name).isSome with
  | true => simp [result, error, Fault.rename, span_leaf]
  | false =>
    obtain ⟨_ | ⟨scope, inner⟩, globals⟩ := t
    · rfl
    · rfl

end Table

theorem typeIn_typeSpec {ty : TypeSpec} (h : ρ.Reads ty.name) (t : SymbolTable) :
    (ty.mapLeaves ρ.leaf).typeIn (ρ.table t) = ρ.result ρ.type (ty.typeIn t) := by
  have hname : (ty.mapLeaves ρ.leaf).name.text = ρ.name ty.name.text := h
  have hspan : (ty.mapLeaves ρ.leaf).name.span = ρ.span ty.name.span := span_leaf ty.name
  rw [TypeSpec.typeIn, TypeSpec.typeIn, hname, hspan, lookupType_table]
  cases t.lookupType ty.name.text with
  | none => rfl
  | some ty => rfl

theorem purity_function (f : FunctionDecl) : (f.mapLeaves ρ.leaf).purity = f.purity := by
  obtain ⟨_ | k, name, parameters, result, body⟩ := f
  · rfl
  · simp [FunctionDecl.purity, FunctionDecl.mapLeaves, ρ.kind_leaf]

section Function

variable {f : FunctionDecl} (h : ρ.ReadsFunction f) (t : SymbolTable)
include h

theorem signatureIn_function :
    (f.mapLeaves ρ.leaf).signatureIn (ρ.table t) = ρ.result ρ.signature (f.signatureIn t) := by
  refine result_bind (result_mapM fun q hq => typeIn_typeSpec (h.params q hq).2 t)
    fun parameters => ?_
  refine result_bind (typeIn_typeSpec h.result t) fun result => ?_
  have hname : (f.mapLeaves ρ.leaf).name.text = ρ.name f.name.text := h.name
  have hplace : Place.ofToken (f.mapLeaves ρ.leaf).name.token = ρ.place (.ofToken f.name.token) :=
    ρ.place_leaf f.name
  rw [hname, hplace, purity_function]
  rfl

theorem declareIn_function :
    (f.mapLeaves ρ.leaf).declareIn (ρ.table t) = ρ.result ρ.table (f.declareIn t) :=
  result_bind (signatureIn_function h t) fun signature =>
    declare_table t (.function signature) f.name

end Function

theorem declareFunctions_functions {fs : List FunctionDecl} (h : ∀ f ∈ fs, ρ.ReadsFunction f)
    (t : SymbolTable) :
    declareFunctions (ρ.table t) (fs.map (FunctionDecl.mapLeaves ρ.leaf)) =
      ((declareFunctions t fs).1.map ρ.error, ρ.table (declareFunctions t fs).2) := by
  induction fs generalizing t with
  | nil => rfl
  | cons f fs ih =>
    obtain ⟨hf, hfs⟩ := List.forall_mem_cons.1 h
    rw [List.map_cons, declareFunctions, declareFunctions, declareIn_function hf]
    cases f.declareIn t with
    | ok t' => exact ih hfs t'
    | error e => simp only [result, ih hfs, List.map_cons]

theorem bindParams_params {params : List Param} (h : ∀ q ∈ params, ρ.Reads q.name)
    (t : SymbolTable) (tys : List Ty) :
    bindParams (ρ.table t) ((params.map (Param.mapLeaves ρ.leaf)).zip (tys.map ρ.type)) =
      ρ.result ρ.table (bindParams t (params.zip tys)) := by
  induction params generalizing t tys with
  | nil => rfl
  | cons q params ih =>
    obtain ⟨hq, hparams⟩ := List.forall_mem_cons.1 h
    cases tys with
    | nil => rfl
    | cons ty tys =>
      have hvalue : (⟨(q.mapLeaves ρ.leaf).name.text, .ofToken (q.mapLeaves ρ.leaf).name.token,
          ρ.type ty⟩ : Variable) =
          ⟨ρ.name q.name.text, ρ.place (.ofToken q.name.token), ρ.type ty⟩ := by
        rw [← ρ.place_leaf, ← hq]
        rfl
      simp only [List.map_cons, List.zip_cons_cons, bindParams, hvalue]
      exact result_bind (declare_table t (.value ⟨q.name.text, .ofToken q.name.token, ty⟩) q.name)
        fun t' => ih hparams t' tys

theorem valueType_context {l : Leaf} (h : ρ.Reads l) (ctx : Context) :
    (ρ.context ctx).valueType (ρ.leaf l) = ρ.result ρ.type (ctx.valueType l) := by
  rw [Context.valueType, Context.valueType, h, context, lookup_table, span_leaf]
  rcases ctx.table.lookup l.text with _ | _ | _ | _
  · rfl
  · rfl
  · rfl
  · rfl

theorem callee_context {l : Leaf} (h : ρ.Reads l) (ctx : Context) :
    (ρ.context ctx).callee (ρ.leaf l) = ρ.result ρ.signature (ctx.callee l) := by
  rw [Context.callee, Context.callee, h, context, lookup_table, span_leaf]
  rcases ctx.table.lookup l.text with _ | f | _ | _
  · rfl
  · simp only [Option.map_some, symbol, signature]
    split
    · rfl
    · rfl
  · rfl
  · rfl

/-- The second check is the first one after the exchange; `g` exchanges an answer. -/
def Matches {α β : Type} (ρ : Relabelling) (g : α → β) (m : Checking α) (m' : Checking β) : Prop :=
  ∀ types, m'.run.run (ρ.types types) =
    (ρ.result g (m.run.run types).1, ρ.types (m.run.run types).2)

section Matches

variable {α α' β β' : Type} {g : α → α'} {h : β → β'}

theorem matches_pure (a : α) : ρ.Matches g (pure a) (pure (g a)) := fun _ => rfl

theorem matches_throw (e : SemanticError) : ρ.Matches g (throw e) (throw (ρ.error e)) :=
  fun _ => rfl

theorem matches_lift (x : Except SemanticError α) :
    ρ.Matches g (liftM x) (liftM (ρ.result g x)) := fun _ => rfl

theorem types_insert (types : TypeTable) (id : NodeId) (ty : Ty) :
    ρ.types (types.insert id ty) = (ρ.types types).insert id (ρ.type ty) := by
  refine Std.ExtTreeMap.ext_getElem? fun n => ?_
  simp only [Relabelling.types, Std.ExtTreeMap.getElem?_map, Std.ExtTreeMap.getElem?_insert]
  split <;> rfl

theorem matches_record (id : NodeId) (ty : Ty) :
    ρ.Matches ρ.type (Checking.record id ty) (Checking.record id (ρ.type ty)) := fun types =>
  Prod.ext rfl (types_insert types id ty).symm

theorem Matches.bind {m : Checking α} {m' : Checking α'} {k : α → Checking β}
    {k' : α' → Checking β'} (hm : ρ.Matches g m m') (hk : ∀ a, ρ.Matches h (k a) (k' (g a))) :
    ρ.Matches h (m >>= k) (m' >>= k') := by
  intro types
  rw [run_bind_eq, run_bind_eq, hm]
  rcases m.run.run types with ⟨e | a, types'⟩
  · rfl
  · exact hk a types'

theorem matches_ite {c c' : Prop} [Decidable c] [Decidable c'] {m n : Checking α}
    {m' n' : Checking α'} (hc : c' ↔ c) (hm : ρ.Matches g m m') (hn : ρ.Matches g n n') :
    ρ.Matches g (if c then m else n) (if c' then m' else n') := by
  by_cases h : c
  · rwa [if_pos h, if_pos (hc.2 h)]
  · rwa [if_neg h, if_neg (mt hc.1 h)]

end Matches

theorem isStatement_mapLeaves (f : Leaf → Leaf) (e : Expr) :
    (e.mapLeaves f).isStatement = e.isStatement := by
  cases e <;> rfl

section Expr

variable {ctx : Context}

theorem matches_valueOf {es : List Expr}
    (h : ∀ e ∈ es,
      ρ.Matches ρ.type (e.typeIn ctx) ((e.mapLeaves ρ.leaf).typeIn (ρ.context ctx)))
    (value : Option Ty) :
    ρ.Matches (Option.map ρ.type) (Expr.valueOf ctx value es)
      (Expr.valueOf (ρ.context ctx) (value.map ρ.type) (es.map (Expr.mapLeaves ρ.leaf))) := by
  induction es generalizing value with
  | nil =>
    rw [List.map_nil, Expr.valueOf, Expr.valueOf]
    exact matches_pure value
  | cons e es ih =>
    obtain ⟨he, hes⟩ := List.forall_mem_cons.1 h
    rw [List.map_cons, Expr.valueOf, Expr.valueOf, span_expr, isStatement_mapLeaves]
    refine matches_ite (by rw [Option.isSome_map]) (matches_throw _) (he.bind fun ty => ?_)
    have hnext := ih hes (if e.isStatement then none else some ty)
    rwa [apply_ite (Option.map ρ.type)] at hnext

theorem matches_checkArguments {arguments : Separated Expr}
    (h : ∀ a ∈ arguments,
      ρ.Matches ρ.type (a.1.typeIn ctx) ((a.1.mapLeaves ρ.leaf).typeIn (ρ.context ctx)))
    (name : String) (position : Nat) (parameters : List Ty) :
    ρ.Matches id (Expr.checkArguments ctx name position parameters arguments)
      (Expr.checkArguments (ρ.context ctx) (ρ.name name) position (parameters.map ρ.type)
        (arguments.map fun a => (a.1.mapLeaves ρ.leaf, a.2.map ρ.leaf))) := by
  induction arguments generalizing position parameters with
  | nil =>
    rw [List.map_nil, Expr.checkArguments, Expr.checkArguments]
    exact matches_pure ()
  | cons a arguments ih =>
    obtain ⟨ha, has⟩ := List.forall_mem_cons.1 h
    cases parameters with
    | nil =>
      rw [List.map_cons, List.map_nil, Expr.checkArguments, Expr.checkArguments]
      exact matches_pure ()
    | cons expected parameters =>
      rw [List.map_cons, List.map_cons, Expr.checkArguments, Expr.checkArguments]
      refine ha.bind fun actual => matches_ite ρ.type_injective.eq_iff (ih has _ _) ?_
      have hthrow := matches_throw (ρ := ρ) (g := id (α := Unit))
        ⟨.argumentTypeMismatch name position expected.name actual.name, a.1.span⟩
      rwa [error, Fault.rename, ← ρ.name_type, ← ρ.name_type, ← span_expr] at hthrow

/-- Checking a relabelled expression is checking the expression, after the exchange. -/
theorem matches_typeIn (ctx : Context) (e : Expr) (h : ∀ n ∈ e.nodes, ∀ l ∈ n.name?, ρ.Reads l) :
    ρ.Matches ρ.type (e.typeIn ctx) ((e.mapLeaves ρ.leaf).typeIn (ρ.context ctx)) := by
  induction e using Expr.induct with
  | block id o children c ih =>
    have hchildren : ∀ e ∈ children,
        ρ.Matches ρ.type (e.typeIn ctx) ((e.mapLeaves ρ.leaf).typeIn (ρ.context ctx)) :=
      fun e he => ih e he fun n hn =>
        h n (List.mem_append_left _ (Expr.mem_allNodes.2 ⟨e, he, hn⟩))
    rw [Expr.mapLeaves, Expr.mapAllLeaves_eq, Expr.typeIn, Expr.typeIn]
    refine (matches_valueOf hchildren none).bind fun value => ?_
    have hvoid : (value.map ρ.type).getD .void = ρ.type (value.getD .void) := by
      cases value with
      | none => exact ρ.type_void.symm
      | some ty => rfl
    rw [hvoid]
    exact matches_record _ _
  | bare id child ih =>
    have hchild := ih fun n hn => h n (List.mem_append_left _ hn)
    rw [Expr.mapLeaves, Expr.typeIn, Expr.typeIn, isStatement_mapLeaves]
    refine hchild.bind fun ty => ?_
    have hrecord := matches_record (ρ := ρ) id (if child.isStatement then .void else ty)
    rwa [apply_ite ρ.type, ρ.type_void] at hrecord
  | statement id child s ih =>
    have hchild := ih fun n hn => h n (List.mem_append_left _ hn)
    rw [Expr.mapLeaves, Expr.typeIn, Expr.typeIn]
    refine hchild.bind fun _ => ?_
    have hrecord := matches_record (ρ := ρ) id .void
    rwa [ρ.type_void] at hrecord
  | binary id left op s right ihl ihr =>
    have hl := ihl fun n hn => h n (List.mem_append_left _ (List.mem_append_left _ hn))
    have hr := ihr fun n hn => h n (List.mem_append_left _ (List.mem_append_right _ hn))
    rw [Expr.mapLeaves, Expr.typeIn, Expr.typeIn]
    refine hl.bind fun l => hr.bind fun r =>
      matches_ite ρ.type_injective.eq_iff (matches_record _ _) ?_
    have hthrow := matches_throw (ρ := ρ) (g := ρ.type) ⟨.operandTypeMismatch l.name r.name, s.span⟩
    rwa [error, Fault.rename, ← ρ.name_type, ← ρ.name_type, ← span_leaf] at hthrow
  | integer id l =>
    rw [Expr.mapLeaves, Expr.typeIn, Expr.typeIn]
    have hrecord := matches_record (ρ := ρ) id .int
    rwa [ρ.type_int] at hrecord
  | reference id l =>
    have hl : ρ.Reads l := h _ (List.mem_singleton_self _) l rfl
    rw [Expr.mapLeaves, Expr.typeIn, Expr.typeIn, valueType_context hl]
    exact (matches_lift _).bind fun ty => matches_record _ _
  | call id l o arguments c ih =>
    have hl : ρ.Reads l := h _ (List.mem_append_right _ (List.mem_singleton_self _)) l rfl
    have harguments : ∀ a ∈ arguments,
        ρ.Matches ρ.type (a.1.typeIn ctx) ((a.1.mapLeaves ρ.leaf).typeIn (ρ.context ctx)) :=
      fun a ha => ih a ha fun n hn =>
        h n (List.mem_append_left _ (Expr.mem_argumentNodes.2 ⟨a, ha, hn⟩))
    rw [Expr.mapLeaves, Expr.mapArgumentLeaves_eq, Expr.typeIn, Expr.typeIn, callee_context hl]
    refine (matches_lift _).bind fun f => matches_ite (by simp [signature]) ?_ ?_
    · exact (matches_checkArguments harguments _ _ _).bind fun _ => matches_record _ _
    · have hthrow := matches_throw (ρ := ρ) (g := ρ.type)
        ⟨.argumentCountMismatch f.name f.parameters.length arguments.length,
          Expr.argumentListSpan o arguments c⟩
      simpa [error, Fault.rename, signature, span_argumentList] using hthrow

end Expr

theorem matches_checkIn {f : FunctionDecl} (h : ρ.ReadsFunction f) (t : SymbolTable)
    (signature : Signature) :
    ρ.Matches id (f.checkIn t signature)
      ((f.mapLeaves ρ.leaf).checkIn (ρ.table t) (ρ.signature signature)) := by
  have hparams : bindParams (ρ.table t).push
      ((f.mapLeaves ρ.leaf).parameters.params.zip (ρ.signature signature).parameters) =
      ρ.result ρ.table (bindParams t.push (f.parameters.params.zip signature.parameters)) :=
    bindParams_params (fun q hq => (h.params q hq).1) t.push signature.parameters
  rw [FunctionDecl.checkIn, FunctionDecl.checkIn, hparams]
  refine (matches_lift _).bind fun table => ?_
  refine (matches_typeIn ⟨table, signature.purity⟩ f.body h.body).bind fun actual => ?_
  refine matches_ite ρ.type_injective.ne_iff ?_ (matches_pure ())
  have hthrow := matches_throw (ρ := ρ) (g := id (α := Unit))
    ⟨.returnTypeMismatch signature.result.name actual.name, f.result.name.span⟩
  rwa [error, Fault.rename, ← ρ.name_type, ← ρ.name_type, ← span_leaf] at hthrow

theorem checkFunctions_functions {fs : List FunctionDecl} (h : ∀ f ∈ fs, ρ.ReadsFunction f)
    (t : SymbolTable) (types : TypeTable) :
    checkFunctions (ρ.table t) (ρ.types types) (fs.map (FunctionDecl.mapLeaves ρ.leaf)) =
      ((checkFunctions t types fs).1.map ρ.error, ρ.types (checkFunctions t types fs).2) := by
  induction fs generalizing types with
  | nil => rfl
  | cons f fs ih =>
    obtain ⟨hf, hfs⟩ := List.forall_mem_cons.1 h
    rw [List.map_cons, checkFunctions, checkFunctions, signatureIn_function hf]
    cases f.signatureIn t with
    | error e => exact ih hfs types
    | ok signature =>
      simp only [result, matches_checkIn hf t signature types]
      rcases (f.checkIn t signature).run.run types with ⟨e | _, types'⟩
      · simp only [ih hfs, List.map_cons]
      · exact ih hfs types'

/-- A relabelled program has the relabelled verdict. -/
theorem validate_mapLeaves {p : Program} (h : ∀ f ∈ p.functions, ρ.ReadsFunction f)
    (options : Options) :
    validate options (p.mapLeaves ρ.leaf) =
      match validate options p with
      | .ok typed => .ok ⟨p.mapLeaves ρ.leaf, ρ.types typed.types⟩
      | .error errors => .error (errors.map ρ.error) := by
  have hdeclare : (p.mapLeaves ρ.leaf).declareIn .new =
      ((p.declareIn .new).1.map ρ.error, ρ.table (p.declareIn .new).2) := by
    have hfunctions := declareFunctions_functions h .new
    rwa [table_new] at hfunctions
  have hempty : ρ.types ∅ = ∅ := rfl
  have hcheck (t : SymbolTable) : (p.mapLeaves ρ.leaf).checkIn (ρ.table t) ∅ =
      ((p.checkIn t ∅).1.map ρ.error, ρ.types (p.checkIn t ∅).2) :=
    hempty ▸ checkFunctions_functions h t ∅
  simp only [validate, hdeclare, hcheck, List.isEmpty_map, ← List.map_append]
  split
  · split
    · rfl
    · rfl
  · rfl

end Relabelling

end FunImp
