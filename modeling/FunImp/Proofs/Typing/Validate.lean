import Mathlib.Data.List.Nodup
import Mathlib.Data.List.Pairwise
import FunImp.Proofs.Typing.Checker
import FunImp.Proofs.Typing.Declarations

/-! # Validation decides typing

Validation accepts a program if and only if it is well declared and well typed, and then every
expression is recorded with its type. -/

namespace FunImp

section Parameters

variable {table table' : SymbolTable} {q : Param} {ty : Ty} {rest params : List (Param × Ty)}

theorem bindParams_cons_eq_ok_iff :
    bindParams table ((q, ty) :: rest) = .ok table' ↔
      ∃ between, table.insert (.value ⟨q.name.text, .ofToken q.name.token, ty⟩) = .ok between ∧
        bindParams between rest = .ok table' := by
  rw [bindParams]
  simp only [except_bind_eq_ok_iff, SymbolTable.declare_eq_ok_iff]

theorem exists_bindParams_iff (table : SymbolTable) (params : List (Param × Ty)) :
    (∃ table', bindParams table params = .ok table') ↔
      (∀ q ∈ params, table.lookupInnermost q.1.name.text = none) ∧
        (params.map (·.1.name.text)).Nodup := by
  induction params generalizing table with
  | nil => simp [bindParams]
  | cons q params ih =>
    obtain ⟨q, ty⟩ := q
    let v : Variable := ⟨q.name.text, .ofToken q.name.token, ty⟩
    have hlookup {between : SymbolTable} (h : table.insert (.value v) = .ok between)
        (name : String) : between.lookupInnermost name =
          if q.name.text = name then some (.value v) else table.lookupInnermost name :=
      SymbolTable.lookupInnermost_insert h name
    have hinsert := SymbolTable.exists_insert_eq_ok_iff table (.value v)
    rw [List.forall_mem_cons, List.map_cons, List.nodup_cons]
    constructor
    · rintro ⟨table', h⟩
      obtain ⟨between, hq, hrest⟩ := bindParams_cons_eq_ok_iff.1 h
      obtain ⟨hfresh, hnodup⟩ := (ih between).1 ⟨table', hrest⟩
      have hne : ∀ r ∈ params, q.name.text ≠ r.1.name.text := by
        intro r hr heq
        have hnone := hfresh r hr
        rw [hlookup hq, if_pos heq] at hnone
        cases hnone
      refine ⟨⟨hinsert.1 ⟨between, hq⟩, fun r hr => ?_⟩, ?_, hnodup⟩
      · have hnone := hfresh r hr
        rwa [hlookup hq, if_neg (hne r hr)] at hnone
      · simpa using fun r ty hr => (hne (r, ty) hr).symm
    · rintro ⟨⟨hq, hrest⟩, hnew, hnodup⟩
      obtain ⟨between, hok⟩ := hinsert.2 hq
      have hfresh : ∀ r ∈ params, between.lookupInnermost r.1.name.text = none := by
        intro r hr
        have hne : q.name.text ≠ r.1.name.text := fun heq =>
          hnew (List.mem_map.2 ⟨r, hr, heq.symm⟩)
        rw [hlookup hok, if_neg hne, hrest r hr]
      obtain ⟨table', h⟩ := (ih between).2 ⟨hfresh, hnodup⟩
      exact ⟨table', bindParams_cons_eq_ok_iff.2 ⟨between, hok, h⟩⟩

theorem lookup_bindParams (h : bindParams table params = .ok table') :
    (∀ q ∈ params, ∃ v, table'.lookup q.1.name.text = some (.value v) ∧ v.type = q.2) ∧
      ∀ name, name ∉ params.map (·.1.name.text) → table'.lookup name = table.lookup name := by
  induction params generalizing table with
  | nil =>
    rw [bindParams] at h
    cases h
    simp
  | cons q params ih =>
    have hnodup := ((exists_bindParams_iff _ _).1 ⟨table', h⟩).2
    obtain ⟨hnew, -⟩ := List.nodup_cons.1 hnodup
    obtain ⟨q, ty⟩ := q
    obtain ⟨between, hinsert, hrest⟩ := bindParams_cons_eq_ok_iff.1 h
    obtain ⟨hbound, hothers⟩ := ih hrest
    let v : Variable := ⟨q.name.text, .ofToken q.name.token, ty⟩
    have hlookup (name : String) : between.lookup name =
        if q.name.text = name then some (.value v) else table.lookup name :=
      SymbolTable.lookup_insert hinsert name
    constructor
    · refine List.forall_mem_cons.2 ⟨⟨v, ?_, rfl⟩, hbound⟩
      rw [hothers _ hnew, hlookup, if_pos rfl]
    · intro name hname
      rw [List.map_cons, List.mem_cons, not_or] at hname
      rw [hothers name hname.2, hlookup, if_neg (Ne.symm hname.1)]

end Parameters

section Bodies

variable {p : Program} {table table' : SymbolTable} {f : FunctionDecl} {signature : Signature}

theorem map_fst_zip_parameters (hs : f.HasSignature signature) :
    (f.parameters.params.zip signature.parameters).map Prod.fst = f.parameters.params :=
  List.map_fst_zip (Nat.le_of_eq hs.parameters.length_eq)

theorem map_name_zip_parameters (hs : f.HasSignature signature) :
    (f.parameters.params.zip signature.parameters).map (·.1.name.text) =
      f.parameters.params.map (·.name.text) := by
  conv_rhs => rw [← map_fst_zip_parameters hs, List.map_map]
  rfl

theorem lookup_param (hs : f.HasSignature signature)
    (hb : bindParams table.push (f.parameters.params.zip signature.parameters) = .ok table')
    {q : Param} (hq : q ∈ f.parameters.params) :
    ∃ v, table'.lookup q.name.text = some (.value v) ∧ q.HasType v.type := by
  rw [← map_fst_zip_parameters hs] at hq
  obtain ⟨⟨q, ty⟩, hmem, rfl⟩ := List.mem_map.1 hq
  obtain ⟨v, hlookup, rfl⟩ := (lookup_bindParams hb).1 _ hmem
  exact ⟨v, hlookup, List.forall₂_zip hs.parameters hmem⟩

theorem lookup_of_not_param (hs : f.HasSignature signature)
    (hb : bindParams table.push (f.parameters.params.zip signature.parameters) = .ok table')
    {name : String} (hname : name ∉ f.parameters.params.map (·.name.text)) :
    table'.lookup name = table.lookup name := by
  rw [← map_name_zip_parameters hs] at hname
  rw [(lookup_bindParams hb).2 name hname, SymbolTable.lookup_push]

theorem value_envOf_iff (h : table.Holds p.functions) (hs : f.HasSignature signature)
    (hb : bindParams table.push (f.parameters.params.zip signature.parameters) = .ok table')
    (name : String) (ty : Ty) :
    (p.envOf f).value name ty ↔ ∃ v, table'.lookup name = some (.value v) ∧ v.type = ty := by
  constructor
  · rintro ⟨q, hq, rfl, hty⟩
    obtain ⟨v, hlookup, hv⟩ := lookup_param hs hb hq
    exact ⟨v, hlookup, hv.unique hty⟩
  · rintro ⟨v, hlookup, rfl⟩
    by_cases hname : name ∈ f.parameters.params.map (·.name.text)
    · obtain ⟨q, hq, rfl⟩ := List.mem_map.1 hname
      obtain ⟨v', hlookup', hv'⟩ := lookup_param hs hb hq
      obtain rfl : v' = v := by simpa [hlookup'] using hlookup
      exact ⟨q, hq, rfl, hv'⟩
    · rw [lookup_of_not_param hs hb hname] at hlookup
      exact absurd hlookup (h.lookup_ne_value name v)

theorem agrees_envOf (h : table.Holds p.functions) (hs : f.HasSignature signature)
    (hb : bindParams table.push (f.parameters.params.zip signature.parameters) = .ok table') :
    Context.Agrees ⟨table', signature.purity⟩ (p.envOf f) := by
  constructor
  · exact hs.purity.symm
  · exact value_envOf_iff h hs hb
  · intro name parameters result purity
    by_cases hname : name ∈ f.parameters.params.map (·.name.text)
    · -- A parameter hides a function of its name from the body.
      obtain ⟨q, hq, rfl⟩ := List.mem_map.1 hname
      obtain ⟨v, hlookup, hv⟩ := lookup_param hs hb hq
      constructor
      · rintro ⟨hnone, -⟩
        exact absurd ⟨q, hq, rfl, hv⟩ (hnone v.type)
      · rintro ⟨g, hg, -⟩
        simp [hlookup] at hg
    · have hnone : ∀ ty, ¬(p.envOf f).value name ty := by
        rintro ty ⟨q, hq, rfl, -⟩
        exact hname (List.mem_map_of_mem hq)
      rw [lookup_of_not_param hs hb hname, ← h.declares_iff]
      exact and_iff_right hnone

theorem exists_bindParams_push_iff (hs : f.HasSignature signature) (table : SymbolTable) :
    (∃ table', bindParams table.push (f.parameters.params.zip signature.parameters) = .ok table') ↔
      (f.parameters.params.map (·.name.text)).Nodup := by
  rw [exists_bindParams_iff, map_name_zip_parameters hs]
  simp

theorem returns_checkIn {s s' : TypeTable} :
    Returns (f.checkIn table signature) s () s' ↔
      ∃ table', bindParams table.push (f.parameters.params.zip signature.parameters) = .ok table' ∧
        Returns (f.body.typeIn ⟨table', signature.purity⟩) s signature.result s' := by
  rw [FunctionDecl.checkIn]
  simp

theorem sound_checkIn (h : table.Holds p.functions) (hs : f.HasSignature signature)
    {s s' : TypeTable} (hr : Returns (f.checkIn table signature) s () s') :
    (f.parameters.params.map (·.name.text)).Nodup ∧ p.TypesBody f ∧
      Recorded (HasType (p.envOf f)) f.body.nodes s s' := by
  obtain ⟨table', hb, hbody⟩ := returns_checkIn.1 hr
  obtain ⟨hty, hrecorded⟩ := (Expr.decides (agrees_envOf h hs hb) f.body).sound hbody
  exact ⟨(exists_bindParams_push_iff hs table).1 ⟨table', hb⟩, ⟨_, hs.result, hty⟩, hrecorded⟩

theorem complete_checkIn (h : table.Holds p.functions) (hs : f.HasSignature signature)
    (hn : (f.parameters.params.map (·.name.text)).Nodup) (ht : p.TypesBody f) (s : TypeTable) :
    ∃ s', Returns (f.checkIn table signature) s () s' := by
  obtain ⟨table', hb⟩ := (exists_bindParams_push_iff hs table).2 hn
  obtain ⟨ty, hty, hbody⟩ := ht
  obtain rfl := hty.unique hs.result
  obtain ⟨s', hs'⟩ := (Expr.decides (agrees_envOf h hs hb) f.body).complete hbody s
  exact ⟨s', returns_checkIn.2 ⟨table', hb, hs'⟩⟩

/-- The node has the type in one of the bodies it is part of. -/
def Program.NodeHasType (p : Program) (n : Expr) (ty : Ty) : Prop :=
  ∃ f ∈ p.functions, n ∈ f.body.nodes ∧ HasType (p.envOf f) n ty

theorem checkFunctions_of_returns {fs : List FunctionDecl} {s t : TypeTable}
    (hs : f.signatureIn table = .ok signature) (hr : Returns (f.checkIn table signature) s () t) :
    checkFunctions table s (f :: fs) = checkFunctions table t fs := by
  rw [checkFunctions, hs]
  dsimp only
  rw [hr]

theorem exists_returns_of_checkFunctions {fs : List FunctionDecl} {s : TypeTable}
    (hs : f.signatureIn table = .ok signature) (h : (checkFunctions table s (f :: fs)).1 = []) :
    ∃ t, Returns (f.checkIn table signature) s () t := by
  rw [checkFunctions, hs] at h
  dsimp only at h
  cases hrun : (f.checkIn table signature).run.run s with
  | mk r t =>
    cases r with
    | ok u => exact ⟨t, hrun⟩
    | error e =>
      rw [hrun] at h
      cases h

theorem sound_checkFunctions (h : table.Holds p.functions) {fs : List FunctionDecl}
    (hfs : ∀ f ∈ fs, f ∈ p.functions) (ht : ∀ f ∈ fs, f.TypesKnown) {s : TypeTable}
    (hr : (checkFunctions table s fs).1 = []) :
    (∀ f ∈ fs, (f.parameters.params.map (·.name.text)).Nodup ∧ p.TypesBody f) ∧
      Recorded p.NodeHasType (fs.flatMap (·.body.nodes)) s (checkFunctions table s fs).2 := by
  induction fs generalizing s with
  | nil => exact ⟨by simp, .nil⟩
  | cons f fs ih =>
    obtain ⟨hf, hfs⟩ := List.forall_mem_cons.1 hfs
    obtain ⟨hft, ht⟩ := List.forall_mem_cons.1 ht
    obtain ⟨signature, hsig⟩ := (FunctionDecl.exists_signatureIn_iff h).2 hft
    have hs := FunctionDecl.hasSignature_of_signatureIn h hsig
    obtain ⟨t, hreturns⟩ := exists_returns_of_checkFunctions hsig hr
    obtain ⟨hnodup, hbody, hrecorded⟩ := sound_checkIn h hs hreturns
    rw [checkFunctions_of_returns hsig hreturns] at hr ⊢
    obtain ⟨hbodies, hrecorded'⟩ := ih hfs ht hr
    refine ⟨List.forall_mem_cons.2 ⟨⟨hnodup, hbody⟩, hbodies⟩, ?_⟩
    exact (hrecorded.mono fun n hn ty hty => ⟨f, hf, hn, hty⟩).append hrecorded'

theorem complete_checkFunctions (h : table.Holds p.functions) {fs : List FunctionDecl}
    (ht : ∀ f ∈ fs, f.TypesKnown)
    (hb : ∀ f ∈ fs, (f.parameters.params.map (·.name.text)).Nodup ∧ p.TypesBody f)
    (s : TypeTable) : (checkFunctions table s fs).1 = [] := by
  induction fs generalizing s with
  | nil => rfl
  | cons f fs ih =>
    obtain ⟨hft, ht⟩ := List.forall_mem_cons.1 ht
    obtain ⟨⟨hnodup, hbody⟩, hb⟩ := List.forall_mem_cons.1 hb
    obtain ⟨signature, hsig⟩ := (FunctionDecl.exists_signatureIn_iff h).2 hft
    have hs := FunctionDecl.hasSignature_of_signatureIn h hsig
    obtain ⟨t, hreturns⟩ := complete_checkIn h hs hnodup hbody s
    rw [checkFunctions_of_returns hsig hreturns]
    exact ih ht hb t

theorem hasType_unique (h : table.Holds p.functions) (hs : f.HasSignature signature)
    (hn : (f.parameters.params.map (·.name.text)).Nodup) {e : Expr} {ty ty' : Ty}
    (ht : HasType (p.envOf f) e ty) (ht' : HasType (p.envOf f) e ty') : ty = ty' := by
  obtain ⟨table', hb⟩ := (exists_bindParams_push_iff hs table).2 hn
  have hdecides := Expr.decides (agrees_envOf h hs hb) e
  obtain ⟨s, hs⟩ := hdecides.complete ht ∅
  obtain ⟨s', hs'⟩ := hdecides.complete ht' ∅
  exact (hs.unique hs').1

end Bodies

theorem validate_eq_ok_iff {options : Options} {p : Program} {typed : TypedProgram} :
    validate options p = .ok typed ↔
      (p.declareIn .new).1 = [] ∧ (p.checkIn (p.declareIn .new).2 ∅).1 = [] ∧
        ⟨p, (p.checkIn (p.declareIn .new).2 ∅).2⟩ = typed := by
  unfold validate
  obtain ⟨errors, table⟩ := p.declareIn .new
  cases errors with
  | nil =>
    simp only [List.isEmpty_nil, Bool.true_or, if_true, List.nil_append, true_and]
    obtain ⟨errors, types⟩ := p.checkIn table ∅
    cases errors with
    | nil => simp
    | cons e errors => simp
  | cons e errors =>
    cases options.keepGoing with
    | true => simp
    | false => simp

theorem declareIn_eq_nil_iff (p : Program) :
    (p.declareIn .new).1 = [] ↔
      (∀ f ∈ p.functions, f.TypesKnown) ∧
        (∀ f ∈ p.functions, f.name.text ∉ ["int", "void", "print"]) ∧
        (p.functions.map (·.name.text)).Nodup := by
  rw [Program.declareIn, SymbolTable.holds_new.declareFunctions_eq_nil_iff]
  simp

theorem holds_of_declareIn_eq_nil {p : Program} (h : (p.declareIn .new).1 = []) :
    (p.declareIn .new).2.Holds p.functions :=
  SymbolTable.holds_new.after_declareFunctions h

/-- What is true of a program that was accepted. -/
theorem sound_validate {options : Options} {p : Program} {typed : TypedProgram}
    (h : validate options p = .ok typed) :
    p.WellDeclared ∧ p.WellTyped ∧ typed.program = p ∧
      Recorded p.NodeHasType p.nodes ∅ typed.types := by
  obtain ⟨hdeclared, hchecked, rfl⟩ := validate_eq_ok_iff.1 h
  obtain ⟨htypes, hbuiltins, hnames⟩ := (declareIn_eq_nil_iff p).1 hdeclared
  obtain ⟨hbodies, hrecorded⟩ :=
    sound_checkFunctions (holds_of_declareIn_eq_nil hdeclared) (fun _ h => h) htypes hchecked
  exact ⟨⟨htypes, hnames, hbuiltins, fun f hf => (hbodies f hf).1⟩,
    fun f hf => (hbodies f hf).2, rfl, hrecorded⟩

theorem complete_validate {p : Program} (hd : p.WellDeclared) (ht : p.WellTyped)
    (options : Options) : ∃ typed, validate options p = .ok typed := by
  have hdeclared := (declareIn_eq_nil_iff p).2 ⟨hd.types, hd.builtins, hd.names⟩
  have hchecked := complete_checkFunctions (holds_of_declareIn_eq_nil hdeclared) hd.types
    (fun f hf => ⟨hd.paramNames f hf, ht f hf⟩) ∅
  exact ⟨_, validate_eq_ok_iff.2 ⟨hdeclared, hchecked, rfl⟩⟩

theorem Program.WellDeclared.hasType_unique {p : Program} (h : p.WellDeclared) {f : FunctionDecl}
    (hf : f ∈ p.functions) {e : Expr} {ty ty' : Ty} (ht : HasType (p.envOf f) e ty)
    (ht' : HasType (p.envOf f) e ty') : ty = ty' := by
  have hholds := holds_of_declareIn_eq_nil
    ((declareIn_eq_nil_iff p).2 ⟨h.types, h.builtins, h.names⟩)
  obtain ⟨signature, -, hs⟩ := hholds.declared f hf
  exact FunImp.hasType_unique hholds hs (h.paramNames f hf) ht ht'

/-- If numbers differ, a node is part of one body only. -/
theorem eq_of_mem_nodes {p : Program} (h : (p.nodes.map Expr.id).Nodup) {f g : FunctionDecl}
    (hf : f ∈ p.functions) (hg : g ∈ p.functions) {n : Expr} (hnf : n ∈ f.body.nodes)
    (hng : n ∈ g.body.nodes) : f = g := by
  have hpairwise := (List.nodup_flatMap.1 h.of_map).2
  have hsymm : Std.Symm (Function.onFun List.Disjoint fun f : FunctionDecl => f.body.nodes) :=
    ⟨fun _ _ hdisjoint _ ha hb => hdisjoint hb ha⟩
  by_contra hne
  exact hpairwise.forall hf hg hne hnf hng

/-- Validation decides the typing rules, whether or not it keeps going, and an accepted program
comes with the type of every node and of nothing else. -/
theorem validate_decides_typing (options : Options) (p : Program)
    (h : (p.nodes.map Expr.id).Nodup) :
    ((∃ typed, validate options p = .ok typed) ↔ p.WellDeclared ∧ p.WellTyped) ∧
      ∀ typed, validate options p = .ok typed → typed.program = p ∧
        ∀ (id : NodeId) (ty : Ty), typed.types[id]? = some ty ↔
          ∃ f ∈ p.functions, ∃ n ∈ f.body.nodes, n.id = id ∧ HasType (p.envOf f) n ty := by
  constructor
  · constructor
    · rintro ⟨typed, hok⟩
      obtain ⟨hd, ht, -⟩ := sound_validate hok
      exact ⟨hd, ht⟩
    · rintro ⟨hd, ht⟩
      exact complete_validate hd ht options
  · intro typed hok
    obtain ⟨hd, -, hprogram, hrecorded⟩ := sound_validate hok
    refine ⟨hprogram, fun id ty => ?_⟩
    constructor
    · intro hty
      by_cases hid : id ∈ p.nodes.map Expr.id
      · obtain ⟨n, hn, rfl⟩ := List.mem_map.1 hid
        obtain ⟨ty', ⟨f, hf, hnf, hty'⟩, hget⟩ := hrecorded.types h n hn
        obtain rfl : ty' = ty := Option.some.inj (hget.symm.trans hty)
        exact ⟨f, hf, n, hnf, rfl, hty'⟩
      · rw [hrecorded.others id hid] at hty
        simp at hty
    · rintro ⟨f, hf, n, hn, rfl, hty⟩
      have hmem : n ∈ p.nodes := List.mem_flatMap.2 ⟨f, hf, hn⟩
      obtain ⟨ty', ⟨g, hg, hng, hty'⟩, hget⟩ := hrecorded.types h n hmem
      obtain rfl := eq_of_mem_nodes h hf hg hn hng
      rw [hget, hd.hasType_unique hf hty hty']

namespace Program

private def leafOf (kind : Token.Kind) (text : String) : Leaf :=
  ⟨[], ⟨kind, some text, default, "sample"⟩⟩

private def callOf (id : NodeId) (name : String) (argument : Expr) : Expr :=
  .call id (leafOf .identifier name) (leafOf .leftParen "(") [(argument, none)]
    (leafOf .rightParen ")")

private def functionOf (keyword : Leaf) (name : String) (params : List Param) (result : String)
    (body : Expr) : FunctionDecl :=
  ⟨some keyword, leafOf .identifier name, ⟨leafOf .leftParen "(", params, leafOf .rightParen ")"⟩,
    ⟨leafOf .colon ":", leafOf .identifier result⟩, body⟩

private def blockOf (id : NodeId) (children : List Expr) : Expr :=
  .block id (leafOf .leftBrace "\x7b") children (leafOf .rightBrace "\x7d")

/-- The function `fun same(x:int):int{x}`. -/
def sampleSame : FunctionDecl :=
  functionOf (leafOf .fn "fun") "same"
    [⟨leafOf .identifier "x", ⟨leafOf .colon ":", leafOf .identifier "int"⟩, none⟩] "int"
    (blockOf 2 [.bare 1 (.reference 0 (leafOf .identifier "x"))])

def sampleCall : Expr := callOf 5 "same" (.bare 4 (.integer 3 (leafOf .integer "1")))

/-- The function `imp main():void{print(same(1));}`. -/
def sampleMain : FunctionDecl :=
  functionOf (leafOf .imp "imp") "main" [] "void" (blockOf 10
    [.statement 9 (.bare 8 (callOf 7 "print" (.bare 6 sampleCall))) (leafOf .semicolon ";")])

def sample : Program := ⟨[sampleSame, sampleMain], leafOf .eof ""⟩

theorem wellDeclared_sample : sample.WellDeclared where
  types := by
    rw [sample, List.forall_mem_cons, List.forall_mem_singleton]
    exact ⟨⟨by decide, by decide⟩, ⟨by decide, by decide⟩⟩
  names := by decide
  builtins := by decide
  paramNames := by decide

theorem hasType_sampleCall : HasType (sample.envOf sampleMain) sampleCall .int := by
  refine @HasType.call _ _ _ _ _ _ [.int] .int .pure ?_ ?_ (fun _ => rfl) rfl ?_
  · rintro ty ⟨q, hq, -⟩
    cases hq
  · have hx : Param.HasType ⟨leafOf .identifier "x",
        ⟨leafOf .colon ":", leafOf .identifier "int"⟩, none⟩ .int := .inl ⟨rfl, rfl⟩
    exact .function (f := sampleSame) List.mem_cons_self rfl (.cons hx .nil) (.inl ⟨rfl, rfl⟩) rfl
  · exact List.forall_mem_singleton.2 (.bare .integer)

theorem hasType_print {id : NodeId} {argument : Expr}
    (h : HasType (sample.envOf sampleMain) argument .int) :
    HasType (sample.envOf sampleMain) (callOf id "print" argument) .void := by
  refine @HasType.call _ _ _ _ _ _ [.int] .void .impure ?_ (.print rfl rfl rfl rfl)
    (fun hpure => absurd hpure (by decide)) rfl (List.forall_mem_singleton.2 h)
  rintro ty ⟨q, hq, -⟩
  cases hq

theorem wellTyped_sample : sample.WellTyped := by
  rw [WellTyped, sample, List.forall_mem_cons, List.forall_mem_singleton]
  constructor
  · refine ⟨.int, .inl ⟨rfl, rfl⟩, ?_⟩
    have hx : HasType (sample.envOf sampleSame) (.reference 0 (leafOf .identifier "x")) .int :=
      .reference ⟨_, List.mem_cons_self, rfl, .inl ⟨rfl, rfl⟩⟩
    exact @HasType.value _ _ _ _ [] _ _ (by simp) (by simp) rfl (.bare hx)
  · refine ⟨.void, .inr ⟨rfl, rfl⟩, .statements (by simp [Expr.isStatement]) ?_⟩
    rw [List.forall_mem_singleton]
    exact .statement (.bare (hasType_print (.bare hasType_sampleCall)))

end Program

theorem validate_decides_typing_sample :
    (Program.sample.nodes.map Expr.id).Nodup ∧
      ∃ typed, validate default Program.sample = .ok typed ∧ typed.types[5]? = some .int := by
  have hnodup : (Program.sample.nodes.map Expr.id).Nodup := by decide
  have hdecides := validate_decides_typing default Program.sample hnodup
  obtain ⟨typed, hok⟩ := hdecides.1.2 ⟨Program.wellDeclared_sample, Program.wellTyped_sample⟩
  refine ⟨hnodup, typed, hok, ((hdecides.2 typed hok).2 5 .int).2 ?_⟩
  have hmem : Program.sampleCall ∈ Program.sampleMain.body.nodes := by
    simp [Program.sampleMain, Program.functionOf, Program.blockOf, Program.callOf,
      Program.sampleCall, Expr.nodes, Expr.allNodes, Expr.argumentNodes]
  exact ⟨Program.sampleMain, by simp [Program.sample], Program.sampleCall, hmem, rfl,
    Program.hasType_sampleCall⟩

end FunImp
