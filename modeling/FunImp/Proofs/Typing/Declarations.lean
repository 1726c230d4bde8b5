import FunImp.Proofs.Rows
import FunImp.Proofs.Symbol.Table
import FunImp.Proofs.Typing.Rules

/-! # Declaring functions

All functions of a program can be declared if and only if it is well declared, and the table then
holds the built-in symbols and the signatures of the functions. -/

namespace FunImp

/-- The signature is the one that is written for the function. -/
structure FunctionDecl.HasSignature (f : FunctionDecl) (signature : Signature) : Prop where
  name : f.name.text = signature.name
  parameters : List.Forall₂ Param.HasType f.parameters.params signature.parameters
  result : Denotes f.result.name.text signature.result
  purity : f.purity = signature.purity

theorem FunctionDecl.HasSignature.unique {f : FunctionDecl} {parameters : List Ty} {result : Ty}
    {signature : Signature} (hs : f.HasSignature signature)
    (hp : List.Forall₂ Param.HasType f.parameters.params parameters)
    (hr : Denotes f.result.name.text result) :
    signature.parameters = parameters ∧ signature.result = result := by
  have hunique : Relator.RightUnique Param.HasType := fun _ _ _ => Denotes.unique
  exact ⟨List.right_unique_forall₂' hunique hs.parameters hp, hs.result.unique hr⟩

namespace SymbolTable

/-- One scope with the built-in symbols and the functions, and nothing else. -/
structure Holds (table : SymbolTable) (functions : List FunctionDecl) : Prop where
  inner : table.inner = []
  types : ∀ name ty, table.lookup name = some (.type ty) ↔ Denotes name ty
  print : table.lookup "print" = some (.function .print)
  declared : ∀ f ∈ functions, ∃ signature,
    table.lookup f.name.text = some (.function signature) ∧ f.HasSignature signature
  others : ∀ name, name ∉ ["int", "void", "print"] → name ∉ functions.map (·.name.text) →
    table.lookup name = none

theorem lookup_new (name : String) :
    new.lookup name = if "print" = name then some (.function .print)
      else if "void" = name then some (.type .void)
      else if "int" = name then some (.type .int) else none := by
  rw [lookup_of_inner_eq_nil rfl]
  simp only [new, lookupInnermost, Scope.find?_cons, Symbol.name, Signature.print, Ty.void,
    Ty.int, Ty.builtin]
  rfl

theorem holds_new : Holds new [] where
  inner := rfl
  types name ty := by
    rw [lookup_new]
    split
    · subst name
      simp [Denotes]
    · split
      · subst name
        simpa [Denotes] using eq_comm
      · split
        · subst name
          simpa [Denotes] using eq_comm
        · simp_all [Denotes, eq_comm]
  print := rfl
  declared := by simp
  others name hname _ := by
    rw [lookup_new]
    simp_all [eq_comm]

namespace Holds

variable {table : SymbolTable} {functions : List FunctionDecl}

/-- A name stands for a type, for a function or for nothing. -/
theorem lookup_cases (h : table.Holds functions) (name : String) :
    (∃ ty, table.lookup name = some (.type ty) ∧ Denotes name ty) ∨
      (table.lookup name = some (.function .print) ∧ name = "print") ∨
      (∃ f ∈ functions, ∃ signature, table.lookup name = some (.function signature) ∧
        f.name.text = name ∧ f.HasSignature signature) ∨
      table.lookup name = none := by
  by_cases hname : name ∈ functions.map (·.name.text)
  · obtain ⟨f, hf, rfl⟩ := List.mem_map.1 hname
    obtain ⟨signature, hlookup, hsignature⟩ := h.declared f hf
    exact .inr (.inr (.inl ⟨f, hf, signature, hlookup, rfl, hsignature⟩))
  · by_cases hbuiltin : name ∈ ["int", "void", "print"]
    · have hcases : name ∈ ["int", "void"] ∨ name = "print" := by simpa [or_assoc] using hbuiltin
      rcases hcases with htype | rfl
      · obtain ⟨ty, hty⟩ := exists_denotes_iff.2 htype
        exact .inl ⟨ty, (h.types name ty).2 hty, hty⟩
      · exact .inr (.inl ⟨h.print, rfl⟩)
    · exact .inr (.inr (.inr (h.others name hbuiltin hname)))

theorem lookup_eq_none_iff (h : table.Holds functions) (name : String) :
    table.lookup name = none ↔
      name ∉ ["int", "void", "print"] ∧ name ∉ functions.map (·.name.text) := by
  constructor
  · intro hnone
    refine ⟨fun hbuiltin => ?_, fun hmem => ?_⟩
    · have hcases : name ∈ ["int", "void"] ∨ name = "print" := by simpa [or_assoc] using hbuiltin
      rcases hcases with htype | rfl
      · obtain ⟨ty, hty⟩ := exists_denotes_iff.2 htype
        simp [(h.types name ty).2 hty] at hnone
      · simp [h.print] at hnone
    · obtain ⟨f, hf, rfl⟩ := List.mem_map.1 hmem
      obtain ⟨signature, hlookup, -⟩ := h.declared f hf
      simp [hlookup] at hnone
  · rintro ⟨hbuiltin, hname⟩
    exact h.others name hbuiltin hname

theorem lookup_ne_value (h : table.Holds functions) (name : String) (v : Variable) :
    table.lookup name ≠ some (.value v) := by
  rcases h.lookup_cases name with ⟨_, hl, -⟩ | ⟨hl, -⟩ | ⟨_, -, _, hl, -⟩ | hl <;> simp [hl]

/-- The functions that can be looked up are those that a program declares. -/
theorem declares_iff {p : Program} (h : table.Holds p.functions) {name : String}
    {parameters : List Ty} {result : Ty} {purity : Purity} :
    p.Declares name parameters result purity ↔
      ∃ signature, table.lookup name = some (.function signature) ∧
        signature.parameters = parameters ∧ signature.result = result ∧
        signature.purity = purity := by
  constructor
  · rintro (⟨rfl, rfl, rfl, rfl⟩ | ⟨hf, rfl, hp, hr, rfl⟩)
    · exact ⟨.print, h.print, rfl, rfl, rfl⟩
    · obtain ⟨signature, hlookup, hs⟩ := h.declared _ hf
      obtain ⟨hparams, hresult⟩ := hs.unique hp hr
      exact ⟨signature, hlookup, hparams, hresult, hs.purity.symm⟩
  · rintro ⟨signature, hlookup, rfl, rfl, rfl⟩
    rcases h.lookup_cases name with ⟨_, hl, -⟩ | ⟨hl, hname⟩ | ⟨f, hf, _, hl, hname, hs⟩ | hl
    · simp [hl] at hlookup
    · obtain rfl := Symbol.function.inj (Option.some.inj (hl.symm.trans hlookup))
      exact .print hname rfl rfl rfl
    · obtain rfl := Symbol.function.inj (Option.some.inj (hl.symm.trans hlookup))
      exact .function hf hname hs.parameters hs.result hs.purity
    · simp [hl] at hlookup

theorem lookupType_eq_some_iff (h : table.Holds functions) {name : String} {ty : Ty} :
    table.lookupType name = some ty ↔ Denotes name ty := by
  rw [← h.types, lookupType]
  split <;> simp_all

end Holds

end SymbolTable

theorem TypeSpec.typeIn_eq_ok_iff {table : SymbolTable} {functions : List FunctionDecl}
    (h : table.Holds functions) {spec : TypeSpec} {ty : Ty} :
    spec.typeIn table = .ok ty ↔ Denotes spec.name.text ty := by
  rw [← h.lookupType_eq_some_iff, typeIn]
  split <;> simp_all

namespace FunctionDecl

variable {table : SymbolTable} {functions : List FunctionDecl} {f : FunctionDecl}

theorem signatureIn_eq_ok_iff (h : table.Holds functions) {signature : Signature} :
    f.signatureIn table = .ok signature ↔
      ∃ parameters result, List.Forall₂ Param.HasType f.parameters.params parameters ∧
        Denotes f.result.name.text result ∧
        ⟨f.name.text, .ofToken f.name.token, parameters, result, f.purity⟩ = signature := by
  have hparams {parameters : List Ty} :
      f.parameters.params.mapM (fun q => q.type.typeIn table) = .ok parameters ↔
        List.Forall₂ Param.HasType f.parameters.params parameters := by
    simp only [mapM_eq_ok_iff, TypeSpec.typeIn_eq_ok_iff h]
    rfl
  rw [signatureIn]
  simp only [except_bind_eq_ok_iff, hparams, TypeSpec.typeIn_eq_ok_iff h]
  simp [pure, Except.pure]

theorem hasSignature_of_signatureIn (h : table.Holds functions) {signature : Signature}
    (hs : f.signatureIn table = .ok signature) : f.HasSignature signature := by
  obtain ⟨parameters, result, hparams, hresult, rfl⟩ := (signatureIn_eq_ok_iff h).1 hs
  exact ⟨rfl, hparams, hresult, rfl⟩

theorem exists_signatureIn_iff (h : table.Holds functions) :
    (∃ signature, f.signatureIn table = .ok signature) ↔ f.TypesKnown := by
  constructor
  · rintro ⟨signature, hs⟩
    obtain ⟨parameters, result, hparams, hresult, -⟩ := (signatureIn_eq_ok_iff h).1 hs
    refine ⟨fun q hq => ?_, exists_denotes_iff.1 ⟨result, hresult⟩⟩
    obtain ⟨ty, -, hty⟩ := exists_mem_of_forall₂_left hparams hq
    exact exists_denotes_iff.1 ⟨ty, hty⟩
  · rintro ⟨hparams, hresult⟩
    obtain ⟨result, hresult⟩ := exists_denotes_iff.2 hresult
    obtain ⟨parameters, hparams⟩ :=
      exists_forall₂ fun q hq => exists_denotes_iff.2 (hparams q hq)
    exact ⟨_, (signatureIn_eq_ok_iff h).2 ⟨parameters, result, hparams, hresult, rfl⟩⟩

end FunctionDecl

theorem SymbolTable.declare_eq_ok_iff {table table' : SymbolTable} {s : Symbol} {name : Leaf} :
    table.declare s name = .ok table' ↔ table.insert s = .ok table' := by
  unfold declare
  split <;> simp_all

theorem FunctionDecl.declareIn_eq_ok_iff {table table' : SymbolTable} {f : FunctionDecl} :
    f.declareIn table = .ok table' ↔
      ∃ signature, f.signatureIn table = .ok signature ∧
        table.insert (.function signature) = .ok table' := by
  rw [declareIn]
  simp only [except_bind_eq_ok_iff, SymbolTable.declare_eq_ok_iff]

namespace SymbolTable.Holds

variable {table table' : SymbolTable} {functions : List FunctionDecl} {f : FunctionDecl}

theorem exists_declareIn_iff (h : table.Holds functions) (f : FunctionDecl) :
    (∃ table', f.declareIn table = .ok table') ↔
      f.TypesKnown ∧ f.name.text ∉ ["int", "void", "print"] ∧
        f.name.text ∉ functions.map (·.name.text) := by
  have hinsert {signature : Signature} (hs : f.HasSignature signature) :
      (∃ table', table.insert (.function signature) = .ok table') ↔
        f.name.text ∉ ["int", "void", "print"] ∧ f.name.text ∉ functions.map (·.name.text) := by
    rw [exists_insert_eq_ok_iff, ← lookup_of_inner_eq_nil h.inner, ← h.lookup_eq_none_iff, hs.name]
    rfl
  constructor
  · rintro ⟨table', hd⟩
    obtain ⟨signature, hs, hd⟩ := FunctionDecl.declareIn_eq_ok_iff.1 hd
    exact ⟨(FunctionDecl.exists_signatureIn_iff h).1 ⟨signature, hs⟩,
      (hinsert (FunctionDecl.hasSignature_of_signatureIn h hs)).1 ⟨table', hd⟩⟩
  · rintro ⟨htypes, hname⟩
    obtain ⟨signature, hs⟩ := (FunctionDecl.exists_signatureIn_iff h).2 htypes
    obtain ⟨table', hd⟩ := (hinsert (FunctionDecl.hasSignature_of_signatureIn h hs)).2 hname
    exact ⟨table', FunctionDecl.declareIn_eq_ok_iff.2 ⟨signature, hs, hd⟩⟩

theorem after_declareIn (h : table.Holds functions) (hd : f.declareIn table = .ok table') :
    table'.Holds (functions ++ [f]) := by
  obtain ⟨-, hbuiltin, hname⟩ := (h.exists_declareIn_iff f).1 ⟨table', hd⟩
  obtain ⟨signature, hs, hd⟩ := FunctionDecl.declareIn_eq_ok_iff.1 hd
  have hsignature := FunctionDecl.hasSignature_of_signatureIn h hs
  have hlookup (name : String) : table'.lookup name =
      if f.name.text = name then some (.function signature) else table.lookup name := by
    rw [hsignature.name]
    exact lookup_insert hd name
  constructor
  · exact inner_insert_eq_nil hd h.inner
  · intro name ty
    rw [hlookup, ← h.types]
    split
    · subst name
      simp [(h.lookup_eq_none_iff _).2 ⟨hbuiltin, hname⟩]
    · rfl
  · rw [hlookup, if_neg (by rintro h; simp [h] at hbuiltin), h.print]
  · intro g hg
    rw [hlookup]
    rcases List.mem_append.1 hg with hg | hg
    · have hne : f.name.text ≠ g.name.text := fun heq =>
        hname (heq ▸ List.mem_map_of_mem hg)
      rw [if_neg hne]
      exact h.declared g hg
    · obtain rfl := List.mem_singleton.1 hg
      rw [if_pos rfl]
      exact ⟨signature, rfl, hsignature⟩
  · intro name hb hn
    rw [List.map_append, List.mem_append, not_or] at hn
    rw [hlookup, if_neg (fun hf => hn.2 (by simp [hf])), h.others name hb hn.1]

/-- Declaring all functions of a list fails nowhere if and only if their types are known and their
names are new and distinct. -/
theorem declareFunctions_eq_nil_iff (h : table.Holds functions) (fs : List FunctionDecl) :
    (declareFunctions table fs).1 = [] ↔
      (∀ f ∈ fs, f.TypesKnown) ∧ (∀ f ∈ fs, f.name.text ∉ ["int", "void", "print"]) ∧
        (∀ f ∈ fs, f.name.text ∉ functions.map (·.name.text)) ∧ (fs.map (·.name.text)).Nodup := by
  induction fs generalizing table functions with
  | nil => simp [declareFunctions]
  | cons f fs ih =>
    rw [declareFunctions]
    cases hd : f.declareIn table with
    | error e =>
      constructor
      · intro hnil
        cases hnil
      · rintro ⟨htypes, hbuiltins, hnames, -⟩
        obtain ⟨table', hok⟩ := (h.exists_declareIn_iff f).2
          ⟨htypes f List.mem_cons_self, hbuiltins f List.mem_cons_self,
            hnames f List.mem_cons_self⟩
        rw [hd] at hok
        cases hok
    | ok table' =>
      obtain ⟨htypes, hbuiltin, hname⟩ := (h.exists_declareIn_iff f).1 ⟨table', hd⟩
      have hfresh : f.name.text ∉ fs.map (·.name.text) ↔ ∀ g ∈ fs, g.name.text ≠ f.name.text := by
        simp
      simp only [ih (h.after_declareIn hd), List.forall_mem_cons, List.map_cons, List.nodup_cons,
        List.map_append, List.mem_append, List.map_nil, List.mem_singleton, not_or, hfresh,
        forall_and]
      constructor
      · rintro ⟨hts, hbs, ⟨hns, hne⟩, hnodup⟩
        exact ⟨⟨htypes, hts⟩, ⟨hbuiltin, hbs⟩, ⟨hname, hns⟩, hne, hnodup⟩
      · rintro ⟨⟨-, hts⟩, ⟨-, hbs⟩, ⟨-, hns⟩, hne, hnodup⟩
        exact ⟨hts, hbs, ⟨hns, hne⟩, hnodup⟩

theorem after_declareFunctions (h : table.Holds functions) {fs : List FunctionDecl}
    (he : (declareFunctions table fs).1 = []) :
    (declareFunctions table fs).2.Holds (functions ++ fs) := by
  induction fs generalizing table functions with
  | nil => simpa [declareFunctions] using h
  | cons f fs ih =>
    rw [declareFunctions] at he ⊢
    cases hd : f.declareIn table with
    | error e => simp [hd] at he
    | ok table' =>
      rw [hd] at he
      simpa using ih (h.after_declareIn hd) he

end SymbolTable.Holds

end FunImp
