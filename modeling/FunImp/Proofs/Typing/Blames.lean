import FunImp.Proofs.Program.Nodes
import FunImp.Proofs.Returns
import FunImp.Proofs.Rows
import FunImp.Proofs.Symbol.Table
import FunImp.Proofs.Typing.Rules

/-! # What semantic errors are about

Every error of validation is about one place in one function: a name that is declared, a type that
is written, or something that is wrong with a single node of the body. -/

namespace FunImp

/-- The errors that a node is to blame for. -/
inductive Expr.Blames : Expr → SemanticError → Prop where
  | undeclaredSymbol {id : NodeId} {name : Leaf} :
      Blames (.reference id name) ⟨.undeclaredSymbol name.text, name.span⟩
  | notAValue {id : NodeId} {name : Leaf} {sort : SymbolSort} :
      Blames (.reference id name) ⟨.notAValue sort name.text, name.span⟩
  | notAFunction {id : NodeId} {name opening closing : Leaf} {arguments : Separated Expr} :
      Blames (.call id name opening arguments closing) ⟨.notAFunction name.text, name.span⟩
  | impureCall {id : NodeId} {name opening closing : Leaf} {arguments : Separated Expr} :
      Blames (.call id name opening arguments closing)
        ⟨.impureCallInPureContext name.text, name.span⟩
  | argumentCount {id : NodeId} {name opening closing : Leaf} {arguments : Separated Expr}
      {expected : Nat} :
      Blames (.call id name opening arguments closing)
        ⟨.argumentCountMismatch name.text expected arguments.length,
          argumentListSpan opening arguments closing⟩
  | argumentType {id : NodeId} {name opening closing : Leaf} {front behind : Separated Expr}
      {a : Expr × Option Leaf} {expected actual : String} :
      Blames (.call id name opening (front ++ a :: behind) closing)
        ⟨.argumentTypeMismatch name.text (front.length + 1) expected actual, a.1.span⟩
  | operands {id : NodeId} {left right : Expr} {operator : Operator} {sign : Leaf}
      {leftType rightType : String} :
      Blames (.binary id left operator sign right)
        ⟨.operandTypeMismatch leftType rightType, sign.span⟩
  | unexpected {id : NodeId} {opening closing : Leaf} {front behind : List Expr}
      {previous e : Expr} (h : previous.isStatement = false) :
      Blames (.block id opening (front ++ previous :: e :: behind) closing)
        ⟨.unexpectedStatementAfterExpression, e.span⟩

/-- The errors that a function is to blame for. -/
inductive FunctionDecl.Blames (f : FunctionDecl) : SemanticError → Prop where
  | unknownType {ty : TypeSpec} (h : ty ∈ f.parameters.params.map (·.type) ++ [f.result]) :
      Blames f ⟨.unknownType ty.name.text, ty.name.span⟩
  | name : Blames f ⟨.alreadyDeclared .function f.name.text, f.name.span⟩
  | parameter {q : Param} (h : q ∈ f.parameters.params) :
      Blames f ⟨.alreadyDeclared .value q.name.text, q.name.span⟩
  | result {actual : String} :
      Blames f ⟨.returnTypeMismatch f.result.name.text actual, f.result.name.span⟩
  | body {n : Expr} {e : SemanticError} (hn : n ∈ f.body.nodes) (h : n.Blames e) : Blames f e

namespace Context

variable {ctx : Context} {name : Leaf} {e : SemanticError}

theorem valueType_eq_error (h : ctx.valueType name = .error e) :
    e = ⟨.undeclaredSymbol name.text, name.span⟩ ∨
      ∃ sort, e = ⟨.notAValue sort name.text, name.span⟩ := by
  unfold valueType at h
  split at h
  · cases h
  · cases h
    exact .inr ⟨_, rfl⟩
  · cases h
    exact .inl rfl

theorem name_of_callee {f : Signature} (h : ctx.callee name = .ok f) : f.name = name.text := by
  unfold callee at h
  split at h
  · rename_i g hlookup
    split at h
    · cases h
    · cases h
      exact SymbolTable.name_of_lookup hlookup
  · cases h

theorem callee_eq_error (h : ctx.callee name = .error e) :
    e = ⟨.notAFunction name.text, name.span⟩ ∨
      e = ⟨.impureCallInPureContext name.text, name.span⟩ := by
  unfold callee at h
  split at h
  · rename_i g hlookup
    have hname : g.name = name.text := SymbolTable.name_of_lookup hlookup
    split at h
    · cases h
      exact .inr (by rw [hname])
    · cases h
  · cases h
    exact .inl rfl

end Context

namespace Expr

variable {ctx : Context} {P : SemanticError → Prop}

theorem throws_record (id : NodeId) (ty : Ty) : Throws P (Checking.record id ty) :=
  throws_of_returns fun s => ⟨ty, s.insert id ty, rfl⟩

/-- A child is unexpected only behind one that has a value. -/
theorem throws_valueOf (front : List Expr) {es : List Expr} {value : Option Ty}
    (h : ∀ e ∈ es, Throws P (e.typeIn ctx))
    (hvalue : value.isSome → ∃ (front' : List Expr) (previous : Expr),
      front = front' ++ [previous] ∧ previous.isStatement = false)
    (hP : ∀ (front' : List Expr) (previous e : Expr) (behind : List Expr),
      front ++ es = front' ++ previous :: e :: behind → previous.isStatement = false →
        P ⟨.unexpectedStatementAfterExpression, e.span⟩) :
    Throws P (valueOf ctx value es) := by
  induction es generalizing front value with
  | nil =>
    rw [valueOf]
    exact throws_pure _
  | cons e es ih =>
    obtain ⟨he, hes⟩ := List.forall_mem_cons.1 h
    rw [valueOf]
    refine throws_ite (fun hsome => throws_throw ?_) fun _ => he.bind fun ty => ?_
    · obtain ⟨front', previous, rfl, hprevious⟩ := hvalue hsome
      exact hP front' previous e es (by simp) hprevious
    · refine ih (front ++ [e]) hes (fun hsome => ⟨front, e, rfl, ?_⟩) ?_
      · by_contra hstatement
        simp [hstatement] at hsome
      · simpa using hP

theorem throws_checkArguments (front : Separated Expr) {rest : Separated Expr} {name : String}
    (h : ∀ a ∈ rest, Throws P (a.1.typeIn ctx))
    (hP : ∀ front' a behind expected actual, front ++ rest = front' ++ a :: behind →
      P ⟨.argumentTypeMismatch name (front'.length + 1) expected actual, a.1.span⟩)
    (parameters : List Ty) :
    Throws P (checkArguments ctx name (front.length + 1) parameters rest) := by
  induction rest generalizing front parameters with
  | nil =>
    rw [checkArguments]
    exact throws_pure _
  | cons a rest ih =>
    obtain ⟨ha, hrest⟩ := List.forall_mem_cons.1 h
    cases parameters with
    | nil =>
      rw [checkArguments]
      exact throws_pure _
    | cons expected parameters =>
      rw [checkArguments]
      refine ha.bind fun actual => throws_ite (fun _ => ?_) fun _ => throws_throw ?_
      · have hnext := ih (front ++ [a]) hrest (by simpa using hP) parameters
        simpa using hnext
      · exact hP front a rest _ _ rfl

/-- One of the nodes of the expression is to blame. -/
def BlamesIn (e : Expr) (err : SemanticError) : Prop := ∃ n ∈ e.nodes, n.Blames err

theorem Blames.blamesIn {e : Expr} {err : SemanticError} (h : e.Blames err) : e.BlamesIn err :=
  ⟨e, by cases e <;> simp [nodes], h⟩

theorem BlamesIn.mono {e e' : Expr} (h : e.nodes ⊆ e'.nodes) (err : SemanticError)
    (herr : e.BlamesIn err) : e'.BlamesIn err := by
  obtain ⟨n, hn, hblames⟩ := herr
  exact ⟨n, h hn, hblames⟩

/-- Every error of an expression is that of one of its nodes. -/
theorem throws_typeIn (ctx : Context) (e : Expr) : Throws e.BlamesIn (e.typeIn ctx) := by
  induction e using induct with
  | block id o children c ih =>
    rw [typeIn]
    refine Throws.bind (throws_valueOf [] (fun e he => (ih e he).mono ?_) nofun ?_)
      fun value => throws_record _ _
    · exact BlamesIn.mono fun n hn => List.mem_append_left _ (mem_allNodes.2 ⟨e, he, hn⟩)
    · rintro front previous e behind rfl hprevious
      exact (Blames.unexpected hprevious).blamesIn
  | bare id child ih =>
    rw [typeIn]
    refine Throws.bind (ih.mono (BlamesIn.mono ?_)) fun ty => throws_record _ _
    exact List.subset_append_left _ _
  | statement id child s ih =>
    rw [typeIn]
    refine Throws.bind (ih.mono (BlamesIn.mono ?_)) fun ty => throws_record _ _
    exact List.subset_append_left _ _
  | binary id left op s right ihl ihr =>
    rw [typeIn]
    refine Throws.bind (ihl.mono (BlamesIn.mono ?_)) fun l =>
      Throws.bind (ihr.mono (BlamesIn.mono ?_)) fun r =>
        throws_ite (fun _ => throws_record _ _) fun _ => throws_throw Blames.operands.blamesIn
    · exact fun n hn => List.mem_append_left _ (List.mem_append_left _ hn)
    · exact fun n hn => List.mem_append_left _ (List.mem_append_right _ hn)
  | integer id l =>
    rw [typeIn]
    exact throws_record _ _
  | reference id name =>
    rw [typeIn]
    refine throws_lift_bind (fun e he => ?_) fun ty _ => throws_record _ _
    rcases Context.valueType_eq_error he with rfl | ⟨sort, rfl⟩
    · exact Blames.undeclaredSymbol.blamesIn
    · exact Blames.notAValue.blamesIn
  | call id n o arguments c ih =>
    rw [typeIn]
    refine throws_lift_bind (fun e he => ?_) fun f hf => ?_
    · rcases Context.callee_eq_error he with rfl | rfl
      · exact Blames.notAFunction.blamesIn
      · exact Blames.impureCall.blamesIn
    · rw [Context.name_of_callee hf]
      refine throws_ite (fun _ => Throws.bind ?_ fun _ => throws_record _ _) fun _ =>
        throws_throw Blames.argumentCount.blamesIn
      refine throws_checkArguments [] (fun a ha => (ih a ha).mono ?_) ?_ _
      · exact BlamesIn.mono fun n hn => List.mem_append_left _ (mem_argumentNodes.2 ⟨a, ha, hn⟩)
      · rintro front a behind expected actual rfl
        exact Blames.argumentType.blamesIn

end Expr

theorem SymbolTable.name_of_lookupType {table : SymbolTable} {name : String} {ty : Ty}
    (h : table.lookupType name = some ty) : ty.name = name := by
  unfold lookupType at h
  split at h
  · rename_i hlookup
    cases h
    exact name_of_lookup hlookup
  · cases h

theorem SymbolTable.declare_eq_error {table : SymbolTable} {s : Symbol} {name : Leaf}
    {e : SemanticError} (h : table.declare s name = .error e) :
    e = ⟨.alreadyDeclared s.sort s.name, name.span⟩ := by
  unfold declare insert at h
  split at h
  · cases h
  · rename_i hinsert
    split at hinsert
    · cases hinsert
      cases h
      rfl
    · split at hinsert <;> cases hinsert

theorem TypeSpec.typeIn_eq_error {ty : TypeSpec} {table : SymbolTable} {e : SemanticError}
    (h : ty.typeIn table = .error e) : e = ⟨.unknownType ty.name.text, ty.name.span⟩ := by
  unfold typeIn at h
  split at h
  · cases h
  · cases h
    rfl

theorem TypeSpec.name_of_typeIn {ty : TypeSpec} {table : SymbolTable} {t : Ty}
    (h : ty.typeIn table = .ok t) : t.name = ty.name.text := by
  unfold typeIn at h
  split at h
  · rename_i hlookup
    cases h
    exact SymbolTable.name_of_lookupType hlookup
  · cases h

namespace FunctionDecl

variable {f : FunctionDecl} {table : SymbolTable} {signature : Signature} {e : SemanticError}

theorem blames_of_signatureIn (h : f.signatureIn table = .error e) : f.Blames e := by
  unfold signatureIn at h
  simp only [except_bind_eq_error_iff] at h
  rcases h with h | ⟨_, -, h | ⟨_, -, h⟩⟩
  · obtain ⟨q, hq, h⟩ := exists_mem_of_mapM_eq_error h
    rw [TypeSpec.typeIn_eq_error h]
    exact .unknownType (List.mem_append_left _ (List.mem_map_of_mem hq))
  · rw [TypeSpec.typeIn_eq_error h]
    exact .unknownType (List.mem_append_right _ (List.mem_singleton_self _))
  · cases h

theorem name_of_signatureIn (h : f.signatureIn table = .ok signature) :
    signature.name = f.name.text ∧ signature.result.name = f.result.name.text := by
  unfold signatureIn at h
  simp only [except_bind_eq_ok_iff] at h
  obtain ⟨_, -, result, hresult, h⟩ := h
  cases h
  exact ⟨rfl, TypeSpec.name_of_typeIn hresult⟩

theorem blames_of_declareIn (h : f.declareIn table = .error e) : f.Blames e := by
  unfold declareIn at h
  rw [except_bind_eq_error_iff] at h
  rcases h with h | ⟨signature, hsignature, h⟩
  · exact blames_of_signatureIn h
  · have hname : (Symbol.function signature).name = f.name.text :=
      (name_of_signatureIn hsignature).1
    rw [SymbolTable.declare_eq_error h, hname]
    exact .name

theorem blames_of_bindParams {params : List (Param × Ty)}
    (hparams : ∀ q ∈ params, q.1 ∈ f.parameters.params)
    (h : bindParams table params = .error e) : f.Blames e := by
  induction params generalizing table with
  | nil => cases h
  | cons q params ih =>
    obtain ⟨hq, hparams⟩ := List.forall_mem_cons.1 hparams
    rw [bindParams, except_bind_eq_error_iff] at h
    rcases h with h | ⟨between, -, h⟩
    · rw [SymbolTable.declare_eq_error h]
      exact .parameter hq
    · exact ih hparams h

theorem throws_checkIn (h : f.signatureIn table = .ok signature) :
    Throws f.Blames (f.checkIn table signature) := by
  rw [checkIn]
  refine throws_lift_bind (fun e he => blames_of_bindParams (fun q hq => ?_) he) fun _ _ => ?_
  · exact (List.of_mem_zip hq).1
  · refine Throws.bind ((Expr.throws_typeIn _ _).mono fun e he => ?_) fun actual =>
      throws_ite (fun _ => throws_throw ?_) fun _ => throws_pure _
    · obtain ⟨n, hn, hblames⟩ := he
      exact .body hn hblames
    · rw [(name_of_signatureIn h).2]
      exact .result

end FunctionDecl

theorem blames_of_mem_declareFunctions {table : SymbolTable} {fs : List FunctionDecl}
    {e : SemanticError} (h : e ∈ (declareFunctions table fs).1) : ∃ f ∈ fs, f.Blames e := by
  induction fs generalizing table with
  | nil => cases h
  | cons f fs ih =>
    have hrest {table : SymbolTable} (h : e ∈ (declareFunctions table fs).1) :
        ∃ g ∈ f :: fs, g.Blames e := by
      obtain ⟨g, hg, hblames⟩ := ih h
      exact ⟨g, List.mem_cons_of_mem _ hg, hblames⟩
    rw [declareFunctions] at h
    cases hdeclare : f.declareIn table with
    | ok table' =>
      rw [hdeclare] at h
      exact hrest h
    | error d =>
      rw [hdeclare] at h
      rcases List.mem_cons.1 h with rfl | h
      · exact ⟨f, List.mem_cons_self, FunctionDecl.blames_of_declareIn hdeclare⟩
      · exact hrest h

theorem blames_of_mem_checkFunctions {table : SymbolTable} {types : TypeTable}
    {fs : List FunctionDecl} {e : SemanticError} (h : e ∈ (checkFunctions table types fs).1) :
    ∃ f ∈ fs, f.Blames e := by
  induction fs generalizing types with
  | nil => cases h
  | cons f fs ih =>
    have hrest {types : TypeTable} (h : e ∈ (checkFunctions table types fs).1) :
        ∃ g ∈ f :: fs, g.Blames e := by
      obtain ⟨g, hg, hblames⟩ := ih h
      exact ⟨g, List.mem_cons_of_mem _ hg, hblames⟩
    rw [checkFunctions] at h
    cases hsignature : f.signatureIn table with
    | error d =>
      rw [hsignature] at h
      exact hrest h
    | ok signature =>
      rw [hsignature] at h
      dsimp only at h
      rcases hrun : (f.checkIn table signature).run.run types with ⟨d | u, types'⟩
      · rw [hrun] at h
        rcases List.mem_cons.1 h with rfl | h
        · exact ⟨f, List.mem_cons_self, FunctionDecl.throws_checkIn hsignature _ _ _ hrun⟩
        · exact hrest h
      · rw [hrun] at h
        exact hrest h

/-- Every error of validation is that of one function. -/
theorem blames_of_validate {options : Options} {p : Program} {errors : List SemanticError}
    (h : validate options p = .error errors) : ∀ e ∈ errors, ∃ f ∈ p.functions, f.Blames e := by
  intro e he
  unfold validate at h
  simp only at h
  split at h
  · split at h
    · cases h
    · cases h
      rcases List.mem_append.1 he with he | he
      · exact blames_of_mem_declareFunctions he
      · exact blames_of_mem_checkFunctions he
  · cases h
    exact blames_of_mem_declareFunctions he

/-- The node is what the fault is about: a name, the sign of an operator, the arguments of a call or
one of them, or a child of a block. -/
def Fault.IsAbout (nodes : List Expr) (m : Node) : Fault → Prop
  | unknownType name | alreadyDeclared _ name | undeclaredSymbol name | notAValue _ name
  | notAFunction name | impureCallInPureContext name | returnTypeMismatch name _ =>
    ∃ l : Leaf, m = .leaf l ∧ l.text = name
  | operandTypeMismatch _ _ =>
    ∃ (id : NodeId) (left : Expr) (operator : Operator) (sign : Leaf) (right : Expr),
      .binary id left operator sign right ∈ nodes ∧ m = .leaf sign
  | argumentCountMismatch name _ found =>
    ∃ (id : NodeId) (callee opening : Leaf) (arguments : Separated Expr) (closing : Leaf),
      .call id callee opening arguments closing ∈ nodes ∧ callee.text = name ∧
        arguments.length = found ∧ m = .argumentList opening arguments closing
  | argumentTypeMismatch name position _ _ =>
    ∃ (id : NodeId) (callee opening : Leaf) (front : Separated Expr) (a : Expr × Option Leaf)
        (behind : Separated Expr) (closing : Leaf),
      .call id callee opening (front ++ a :: behind) closing ∈ nodes ∧ callee.text = name ∧
        front.length + 1 = position ∧ m = .expr a.1
  | unexpectedStatementAfterExpression =>
    ∃ (id : NodeId) (opening : Leaf) (front : List Expr) (previous child : Expr)
        (behind : List Expr) (closing : Leaf),
      .block id opening (front ++ previous :: child :: behind) closing ∈ nodes ∧
        previous.isStatement = false ∧ m = .expr child

theorem Fault.IsAbout.mono {fault : Fault} {nodes nodes' : List Expr} {m : Node}
    (h : fault.IsAbout nodes m) (hsub : nodes ⊆ nodes') : fault.IsAbout nodes' m := by
  cases fault with
  | operandTypeMismatch =>
    obtain ⟨id, left, operator, sign, right, hmem, hm⟩ := h
    exact ⟨id, left, operator, sign, right, hsub hmem, hm⟩
  | argumentCountMismatch =>
    obtain ⟨id, callee, opening, arguments, closing, hmem, h⟩ := h
    exact ⟨id, callee, opening, arguments, closing, hsub hmem, h⟩
  | argumentTypeMismatch =>
    obtain ⟨id, callee, opening, front, a, behind, closing, hmem, h⟩ := h
    exact ⟨id, callee, opening, front, a, behind, closing, hsub hmem, h⟩
  | unexpectedStatementAfterExpression =>
    obtain ⟨id, opening, front, previous, child, behind, closing, hmem, h⟩ := h
    exact ⟨id, opening, front, previous, child, behind, closing, hsub hmem, h⟩
  | _ => exact h

namespace Expr

/-- The place of an error is that of the node that is to blame, or of a part of it. -/
theorem Blames.exists_about {n : Expr} {e : SemanticError} (h : n.Blames e) :
    ∃ m, (Node.expr n).Within m ∧ m.span = e.span ∧ e.fault.IsAbout [n] m := by
  cases h with
  | @undeclaredSymbol _ name | @notAValue _ name =>
    exact ⟨.leaf name, .single (by simp [Node.children]), rfl, name, rfl, rfl⟩
  | @notAFunction _ name | @impureCall _ name =>
    exact ⟨.leaf name, .single (by simp [Node.children]), rfl, name, rfl, rfl⟩
  | @argumentCount _ _ o c arguments =>
    exact ⟨.argumentList o arguments c, .single (by simp [Node.children]), rfl,
      _, _, _, _, _, List.mem_singleton_self _, rfl, rfl, rfl⟩
  | @argumentType _ _ o c front behind a =>
    have hargument :
        Node.expr a.1 ∈ (Node.argumentList o (front ++ a :: behind) c).children := by
      simp [Node.children]
    exact ⟨.expr a.1, .head (by simp [Node.children]) (.single hargument), rfl,
      _, _, _, _, _, _, _, List.mem_singleton_self _, rfl, rfl, rfl⟩
  | @operands _ _ _ _ sign =>
    exact ⟨.leaf sign, .single (by simp [Node.children]), rfl,
      _, _, _, _, _, List.mem_singleton_self _, rfl⟩
  | @unexpected _ _ _ _ _ _ e hprevious =>
    exact ⟨.expr e, .single (by simp [Node.children]), rfl,
      _, _, _, _, _, _, _, List.mem_singleton_self _, hprevious, rfl⟩

end Expr

theorem FunctionDecl.Blames.exists_about {f : FunctionDecl} {e : SemanticError}
    (h : f.Blames e) :
    ∃ m, (Node.function f).Within m ∧ m.span = e.span ∧ e.fault.IsAbout f.body.nodes m := by
  have hparam {q : Param} (hq : q ∈ f.parameters.params) :
      (Node.function f).Within (.param q) := by
    have hlist : Node.paramList f.parameters ∈ (Node.function f).children := by
      simp [Node.children]
    exact .head hlist (.single (by simp [Node.children, hq]))
  have hname (ty : TypeSpec) : Node.leaf ty.name ∈ (Node.typeSpec ty).children := by
    simp [Node.children]
  have hresult : (Node.function f).Within (.typeSpec f.result) :=
    .single (by simp [Node.children])
  cases h with
  | @unknownType ty h =>
    refine ⟨.leaf ty.name, Relation.ReflTransGen.tail ?_ (hname ty), rfl, _, rfl, rfl⟩
    rcases List.mem_append.1 h with h | h
    · obtain ⟨q, hq, rfl⟩ := List.mem_map.1 h
      exact (hparam hq).tail (by simp [Node.children])
    · obtain rfl := List.mem_singleton.1 h
      exact hresult
  | name => exact ⟨.leaf f.name, .single (by simp [Node.children]), rfl, _, rfl, rfl⟩
  | @parameter q hq =>
    exact ⟨.leaf q.name, (hparam hq).tail (by simp [Node.children]), rfl, _, rfl, rfl⟩
  | result => exact ⟨.leaf f.result.name, hresult.tail (hname _), rfl, _, rfl, rfl⟩
  | @body n e hn h =>
    obtain ⟨m, hm, hspan, habout⟩ := h.exists_about
    have hbody : Node.expr f.body ∈ (Node.function f).children := by simp [Node.children]
    exact ⟨m, .head hbody ((Expr.within_of_mem_nodes hn).trans hm), hspan,
      habout.mono (by simpa using hn)⟩

theorem FunctionDecl.Blames.exists_within {f : FunctionDecl} {e : SemanticError}
    (h : f.Blames e) : ∃ m, (Node.function f).Within m ∧ m.span = e.span := by
  obtain ⟨m, hm, hspan, -⟩ := h.exists_about
  exact ⟨m, hm, hspan⟩

end FunImp
