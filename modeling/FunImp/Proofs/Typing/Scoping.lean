import FunImp.Proofs.Symbol.Runs
import FunImp.Proofs.Typing.Blames
import FunImp.Proofs.Typing.Discovery

/-! # The scope that functions are declared in

Functions are declared in the innermost scope of a table, as all symbols are. That is the global
scope as long as no other one is open. Behind an open scope a program that declares anything
leaves the global scope as it was. -/

namespace FunImp

/-- The function has its turn: those in front of it have been declared, which gave the table
`u`. -/
def Program.Turn (p : Program) (t : SymbolTable) (f : FunctionDecl) (u : SymbolTable) : Prop :=
  ∃ before behind, p.functions = before ++ f :: behind ∧ u = (declareFunctions t before).2

/-- The functions of a program are declared where `look` finds a name: a function that reports no
error is found there, the scopes that `others` gives are kept, and a function whose types are all
known is reported if its name is taken there. -/
structure Program.DeclaresWhere (look : SymbolTable → String → Option Symbol)
    (others : SymbolTable → List Scope) (t : SymbolTable) (p : Program) : Prop where
  found : ∀ f u u', p.Turn t f u → f.declareIn u = .ok u' →
    ∃ signature, f.signatureIn u = .ok signature ∧
      look (p.declareIn t).2 f.name.text = some (.function signature)
  others : others (p.declareIn t).2 = others t
  reported : ∀ f u signature, p.Turn t f u → f.signatureIn u = .ok signature →
    (look u f.name.text).isSome →
    ∃ e, e = ⟨.alreadyDeclared .function f.name.text, f.name.span⟩ ∧ f.declareIn u = .error e ∧
      e ∈ (p.declareIn t).1

namespace SymbolTable

/-- The number of symbols in all scopes. -/
def size (t : SymbolTable) : Nat := t.scopes.flatten.length

/-- The second table has symbols in its innermost scope that the first one has not, and none of
them for a name that was taken there. -/
structure Grown (t t' : SymbolTable) : Prop where
  outer : t'.scopes.tail = t.scopes.tail
  kept : ∀ name s, t.lookupInnermost name = some s → t'.lookupInnermost name = some s
  size_le : t.size ≤ t'.size

variable {t t' t'' : SymbolTable} {s : Symbol}

theorem Grown.refl (t : SymbolTable) : Grown t t := ⟨rfl, fun _ _ h => h, Nat.le_refl _⟩

theorem Grown.trans (h : Grown t t') (h' : Grown t' t'') : Grown t t'' where
  outer := h'.outer.trans h.outer
  kept name s hs := h'.kept name s (h.kept name s hs)
  size_le := Nat.le_trans h.size_le h'.size_le

theorem scopes_insert (h : t.insert s = .ok t') :
    ∃ top outer, t.scopes = top :: outer ∧ t'.scopes = (s :: top) :: outer := by
  obtain ⟨top, outer, hscopes⟩ := t.exists_scopes_eq_cons
  have hfree : t.lookupInnermost s.name = none := (exists_insert_eq_ok_iff t s).1 ⟨t', h⟩
  have hcall := (call_insert_of_free hscopes hfree).1
  rw [call, h] at hcall
  exact ⟨top, outer, hscopes, hcall⟩

theorem size_insert (h : t.insert s = .ok t') : t'.size = t.size + 1 := by
  obtain ⟨top, outer, hscopes, hscopes'⟩ := scopes_insert h
  rw [size, size, hscopes, hscopes']
  simp only [List.flatten_cons, List.length_append, List.length_cons]
  omega

theorem grown_insert (h : t.insert s = .ok t') : Grown t t' where
  outer := by
    obtain ⟨top, outer, hscopes, hscopes'⟩ := scopes_insert h
    rw [hscopes, hscopes']
    rfl
  kept name r hr := by
    have hne : s.name ≠ name := by
      rintro rfl
      rw [(exists_insert_eq_ok_iff t s).1 ⟨t', h⟩] at hr
      cases hr
    rw [lookupInnermost_insert h, if_neg hne, hr]
  size_le := by
    rw [size_insert h]
    exact Nat.le_succ _

theorem grown_declareIn {f : FunctionDecl} (h : f.declareIn t = .ok t') : Grown t t' := by
  obtain ⟨signature, -, hinsert⟩ := FunctionDecl.declareIn_eq_ok_iff.1 h
  exact grown_insert hinsert

theorem grown_declareFunctions (t : SymbolTable) (fs : List FunctionDecl) :
    Grown t (declareFunctions t fs).2 := by
  induction fs generalizing t with
  | nil => exact .refl t
  | cons f fs ih =>
    rw [declareFunctions]
    cases h : f.declareIn t with
    | ok t' => exact (grown_declareIn h).trans (ih t')
    | error e => exact ih t

theorem inner_eq_nil_iff (t : SymbolTable) : t.inner = [] ↔ t.scopes.tail = [] := by
  obtain ⟨_ | ⟨scope, inner⟩, globals⟩ := t
  · simp [scopes]
  · simp [scopes]

theorem Grown.inner_eq_nil (h : Grown t t') (hnil : t.inner = []) : t'.inner = [] :=
  (inner_eq_nil_iff t').2 (h.outer.trans ((inner_eq_nil_iff t).1 hnil))

/-- Behind an open scope nothing but that scope can grow. -/
theorem Grown.eq_of_inner_eq (h : Grown t t') (hopen : t.inner ≠ []) (hinner : t'.inner = t.inner) :
    t' = t := by
  obtain ⟨inner, globals⟩ := t
  obtain ⟨inner', globals'⟩ := t'
  obtain rfl : inner' = inner := hinner
  cases inner' with
  | nil => exact absurd rfl hopen
  | cons scope rest =>
    have hglobals : rest ++ [globals'] = rest ++ [globals] := h.outer
    obtain rfl := List.singleton_inj.1 (List.append_cancel_left hglobals)
    rfl

theorem lookupGlobal_of_inner_eq_nil (h : t.inner = []) (name : String) :
    t.lookupGlobal name = t.lookupInnermost name := by
  rw [lookupGlobal, lookupInnermost, h]

end SymbolTable

section Turn

variable {p : Program} {t u u' : SymbolTable} {f : FunctionDecl}

theorem Program.Turn.grown_before (h : p.Turn t f u) : SymbolTable.Grown t u := by
  obtain ⟨before, behind, -, rfl⟩ := h
  exact SymbolTable.grown_declareFunctions t before

theorem Program.Turn.grown_behind (h : p.Turn t f u) (hok : f.declareIn u = .ok u') :
    SymbolTable.Grown u' (p.declareIn t).2 := by
  obtain ⟨before, behind, hfunctions, rfl⟩ := h
  rw [Program.declareIn, hfunctions, declareFunctions_append, declareFunctions, hok]
  exact SymbolTable.grown_declareFunctions u' behind

/-- Errors of functions are errors of the program. -/
theorem Program.Turn.mem_errors (h : p.Turn t f u) {e : SemanticError}
    (he : f.declareIn u = .error e) : e ∈ (p.declareIn t).1 := by
  obtain ⟨before, behind, hfunctions, rfl⟩ := h
  rw [Program.declareIn, hfunctions, declareFunctions_append, declareFunctions, he]
  exact List.mem_append_right _ List.mem_cons_self

/-- A function whose types are known is declared unless its name is taken. -/
theorem FunctionDecl.exists_declareIn_of_free {signature : Signature}
    (h : f.signatureIn u = .ok signature) (hfree : u.lookupInnermost f.name.text = none) :
    ∃ u', f.declareIn u = .ok u' := by
  have hname : (Symbol.function signature).name = f.name.text := (name_of_signatureIn h).1
  rw [← hname] at hfree
  obtain ⟨u', hinsert⟩ := (SymbolTable.exists_insert_eq_ok_iff u _).2 hfree
  exact ⟨u', declareIn_eq_ok_iff.2 ⟨signature, h, hinsert⟩⟩

theorem FunctionDecl.declareIn_of_taken {signature : Signature}
    (h : f.signatureIn u = .ok signature) (htaken : (u.lookupInnermost f.name.text).isSome) :
    f.declareIn u = .error ⟨.alreadyDeclared .function f.name.text, f.name.span⟩ := by
  have hname : (Symbol.function signature).name = f.name.text := (name_of_signatureIn h).1
  rw [← hname] at htaken ⊢
  have hdeclare : f.declareIn u = u.declare (.function signature) f.name := by
    rw [declareIn, h]
    rfl
  rw [hdeclare, SymbolTable.declare, SymbolTable.insert, if_pos htaken]
  rfl

end Turn

section DeclaresWhere

open SymbolTable

variable (t : SymbolTable) (p : Program)

/-- Every program declares its functions in the innermost scope. -/
theorem declaresWhere_innermost : p.DeclaresWhere lookupInnermost (List.tail ∘ scopes) t where
  found f u u' hturn hok := by
    obtain ⟨signature, hsignature, hinsert⟩ := FunctionDecl.declareIn_eq_ok_iff.1 hok
    refine ⟨signature, hsignature, (hturn.grown_behind hok).kept _ _ ?_⟩
    have hname : (Symbol.function signature).name = f.name.text :=
      (FunctionDecl.name_of_signatureIn hsignature).1
    rw [lookupInnermost_insert hinsert, if_pos hname]
  others := (grown_declareFunctions t p.functions).outer
  reported f u signature hturn hsignature htaken :=
    have herror := FunctionDecl.declareIn_of_taken hsignature htaken
    ⟨_, rfl, herror, hturn.mem_errors herror⟩

/-- Functions are declared in the global scope if and only if no other one is open or nothing is
declared at all. -/
theorem declaresWhere_global_iff :
    p.DeclaresWhere lookupGlobal inner t ↔ t.inner = [] ∨ (p.declareIn t).2 = t := by
  have hgrown : Grown t (p.declareIn t).2 := grown_declareFunctions t p.functions
  constructor
  · intro h
    by_cases hinner : t.inner = []
    · exact .inl hinner
    · exact .inr (hgrown.eq_of_inner_eq hinner h.others)
  · rintro (hinner | hnothing)
    · have hinnermost := declaresWhere_innermost t p
      refine ⟨fun f u u' hturn hok => ?_, ?_, fun f u signature hturn hsignature htaken => ?_⟩
      · obtain ⟨signature, hsignature, hfound⟩ := hinnermost.found f u u' hturn hok
        rw [← lookupGlobal_of_inner_eq_nil (hgrown.inner_eq_nil hinner)] at hfound
        exact ⟨signature, hsignature, hfound⟩
      · rw [hinner, hgrown.inner_eq_nil hinner]
      · rw [lookupGlobal_of_inner_eq_nil (hturn.grown_before.inner_eq_nil hinner)] at htaken
        exact hinnermost.reported f u signature hturn hsignature htaken
    · -- A declaration would have made the table larger.
      have hfails (f : FunctionDecl) (u u' : SymbolTable) (hturn : p.Turn t f u) :
          f.declareIn u ≠ .ok u' := by
        intro hok
        obtain ⟨_, -, hinsert⟩ := FunctionDecl.declareIn_eq_ok_iff.1 hok
        have hbefore := hturn.grown_before.size_le
        have hbehind := (hturn.grown_behind hok).size_le
        rw [hnothing, size_insert hinsert] at hbehind
        omega
      refine ⟨fun f u u' hturn hok => absurd hok (hfails f u u' hturn), congrArg inner hnothing,
        fun f u signature hturn hsignature _ => ?_⟩
      cases htaken : u.lookupInnermost f.name.text with
      | some s =>
        have herror := FunctionDecl.declareIn_of_taken hsignature (by rw [htaken]; rfl)
        exact ⟨_, rfl, herror, hturn.mem_errors herror⟩
      | none =>
        obtain ⟨u', hok⟩ := FunctionDecl.exists_declareIn_of_free hsignature htaken
        exact absurd hok (hfails f u u' hturn)

end DeclaresWhere

namespace SymbolTable

/-- After any run a program declares its functions in the innermost scope, and in the global one
if and only if every scope that was opened has been closed or nothing is declared. -/
theorem declaresWhere_run (calls : List Call) (p : Program) :
    p.DeclaresWhere lookupInnermost (List.tail ∘ scopes) (new.run calls) ∧
      (p.DeclaresWhere lookupGlobal inner (new.run calls) ↔
        openPushes calls = 0 ∨ (p.declareIn (new.run calls)).2 = new.run calls) := by
  refine ⟨declaresWhere_innermost _ p, ?_⟩
  have hclosed : (new.run calls).inner = [] ↔ openPushes calls = 0 := by
    have hdepth := depth_run calls
    rw [depth_eq] at hdepth
    rw [← List.length_eq_zero_iff]
    omega
  rw [declaresWhere_global_iff, hclosed]

private def spelled (kind : Token.Kind) (text : String) : Leaf :=
  ⟨[], ⟨kind, some text, default, "printing"⟩⟩

/-- The functions `fun f(): int { 1 }` and `fun print(): int { 1 }`. -/
private def printing : Program :=
  have functionOf (name : String) (id : NodeId) : FunctionDecl :=
    ⟨some (spelled .fn "fun"), spelled .identifier name,
      ⟨spelled .leftParen "(", [], spelled .rightParen ")"⟩,
      ⟨spelled .colon ":", spelled .identifier "int"⟩,
      .block (id + 2) (spelled .leftBrace "\x7b")
        [.bare (id + 1) (.integer id (spelled .integer "1"))] (spelled .rightBrace "\x7d")⟩
  ⟨[functionOf "f" 0, functionOf "print" 3], spelled .eof ""⟩

/-- Behind an open scope functions are not declared globally: none of them is found in the global
scope, the built-in `print` is hidden without a report, and the open scope has changed. -/
theorem not_declaresWhere_global :
    (printing.declareIn (new.run [.push])).1 = [] ∧
      (printing.declareIn (new.run [.push])).2.lookupGlobal "f" = none ∧
      (printing.declareIn (new.run [.push])).2.lookupGlobal "print" = some (.function .print) ∧
      (printing.declareIn (new.run [.push])).2.inner ≠ (new.run [.push]).inner ∧
      ¬printing.DeclaresWhere lookupGlobal inner (new.run [.push]) := by
  have hchanged : (printing.declareIn (new.run [.push])).2.inner ≠ (new.run [.push]).inner := by
    decide
  exact ⟨rfl, rfl, rfl, hchanged, fun h => hchanged h.others⟩

end SymbolTable

end FunImp
