import Mathlib.Logic.Relation
import FunImp.Proofs.Typing.Validate

/-! # Purity of calls

The checker looks at one call at a time. What it establishes for every function of an accepted
program carries over to calls of calls: a pure function never gets to an impure one. -/

namespace FunImp

namespace Expr

def callee? : Expr → Option String
  | call _ name _ _ _ => some name.text
  | _ => none

end Expr

theorem HasType.nodes {Γ : Env} {e : Expr} {ty : Ty} (h : HasType Γ e ty) :
    ∀ n ∈ e.nodes, ∃ ty, HasType Γ n ty := by
  have hself := h
  induction h with
  | integer => simpa [Expr.nodes] using ⟨_, hself⟩
  | reference => simpa [Expr.nodes] using ⟨_, hself⟩
  | @call id name o c arguments parameters _ _ _ _ _ hl ha ih =>
    rw [Expr.nodes, List.forall_mem_append, List.forall_mem_singleton]
    refine ⟨fun n hn => ?_, _, hself⟩
    obtain ⟨a, hmem, hna⟩ := Expr.mem_argumentNodes.1 hn
    rw [← List.map_fst_zip (Nat.le_of_eq hl)] at hmem
    obtain ⟨b, hb, rfl⟩ := List.mem_map.1 hmem
    exact ih b hb (ha b hb) n hna
  | binary hl hr ihl ihr =>
    rw [Expr.nodes, List.forall_mem_append, List.forall_mem_append, List.forall_mem_singleton]
    exact ⟨⟨ihl hl, ihr hr⟩, _, hself⟩
  | statement h ih =>
    rw [Expr.nodes, List.forall_mem_append, List.forall_mem_singleton]
    exact ⟨ih h, _, hself⟩
  | bare h ih =>
    rw [Expr.nodes, List.forall_mem_append, List.forall_mem_singleton]
    exact ⟨ih h, _, hself⟩
  | statements _ h ih =>
    rw [Expr.nodes, List.forall_mem_append, List.forall_mem_singleton]
    refine ⟨fun n hn => ?_, _, hself⟩
    obtain ⟨e, hmem, hne⟩ := Expr.mem_allNodes.1 hn
    exact ih e hmem (h e hmem) n hne
  | @value _ _ _ front last _ _ h _ hl ih ihl =>
    rw [Expr.nodes, List.forall_mem_append, List.forall_mem_singleton]
    refine ⟨fun n hn => ?_, _, hself⟩
    obtain ⟨e, hmem, hne⟩ := Expr.mem_allNodes.1 hn
    rcases List.mem_append.1 hmem with hfront | hlast
    · exact ih e hfront (h e hfront) n hne
    · obtain rfl := List.mem_singleton.1 hlast
      exact ihl hl n hne

def FunctionDecl.calls (f : FunctionDecl) : List String := f.body.nodes.filterMap Expr.callee?

namespace Program

/-- A function of the one name calls the other name. -/
def Calls (p : Program) (caller callee : String) : Prop :=
  ∃ f ∈ p.functions, f.name.text = caller ∧ callee ∈ f.calls

/-- The name is that of the built-in function or of a function with the keyword `imp`. -/
def Impure (p : Program) (name : String) : Prop :=
  name = "print" ∨ ∃ f ∈ p.functions, f.name.text = name ∧ f.purity = .impure

/-- The name is that of one function exactly: the built-in one, or one of the program. -/
def Resolves (p : Program) (name : String) : Prop :=
  name = "print" ∧ p.functions.filter (·.name.text = name) = [] ∨
    name ≠ "print" ∧ ∃ f, p.functions.filter (·.name.text = name) = [f]

/-- A called name is no parameter and is declared, and it is pure in a pure function. -/
theorem WellTyped.declares {p : Program} (h : p.WellTyped) {f : FunctionDecl}
    (hf : f ∈ p.functions) {name : String} (hn : name ∈ f.calls) :
    (∀ q ∈ f.parameters.params, ∀ ty, q.HasType ty → q.name.text ≠ name) ∧
      ∃ parameters result purity, p.Declares name parameters result purity ∧
        (f.purity = .pure → purity = .pure) := by
  obtain ⟨n, hmem, hname⟩ := List.mem_filterMap.1 hn
  obtain ⟨_, -, hbody⟩ := h f hf
  obtain ⟨ty, hty⟩ := hbody.nodes n hmem
  cases hty with
  | call hv hd hp _ _ =>
    obtain rfl := Option.some.inj hname
    exact ⟨fun q hq ty hty heq => hv ty ⟨q, hq, heq, hty⟩, _, _, _, hd, hp⟩
  | _ => cases hname

theorem WellDeclared.eq_of_name_eq {p : Program} (h : p.WellDeclared) {f g : FunctionDecl}
    (hf : f ∈ p.functions) (hg : g ∈ p.functions) (hname : f.name.text = g.name.text) : f = g :=
  List.inj_on_of_nodup_map h.names hf hg hname

/-- A name that pure functions may have is no name of an impure function. -/
theorem WellDeclared.not_impure {p : Program} (h : p.WellDeclared) {f : FunctionDecl}
    (hf : f ∈ p.functions) (hpure : f.purity = .pure) : ¬p.Impure f.name.text := by
  rintro (hprint | ⟨g, hg, hname, himpure⟩)
  · exact h.builtins f hf (by simp [hprint])
  · obtain rfl := h.eq_of_name_eq hf hg hname.symm
    rw [hpure] at himpure
    cases himpure

theorem exists_pure_of_calls {p : Program} (hd : p.WellDeclared) (ht : p.WellTyped)
    {f : FunctionDecl} (hf : f ∈ p.functions) (hpure : f.purity = .pure) {name : String}
    (hc : p.Calls f.name.text name) :
    ∃ g ∈ p.functions, g.name.text = name ∧ g.purity = .pure := by
  obtain ⟨f', hf', hname, hcall⟩ := hc
  obtain rfl := hd.eq_of_name_eq hf' hf hname
  obtain ⟨-, _, _, _, hdeclares, hp⟩ := ht.declares hf' hcall
  cases hdeclares with
  | print _ _ _ hu => simp [hp hpure] at hu
  | @function g hg hn _ _ hu => exact ⟨g, hg, hn, hu.trans (hp hpure)⟩

theorem exists_pure_of_reaches {p : Program} (hd : p.WellDeclared) (ht : p.WellTyped)
    {f : FunctionDecl} (hf : f ∈ p.functions) (hpure : f.purity = .pure) {name : String}
    (hr : Relation.ReflTransGen p.Calls f.name.text name) :
    ∃ g ∈ p.functions, g.name.text = name ∧ g.purity = .pure := by
  induction hr with
  | refl => exact ⟨f, hf, rfl, hpure⟩
  | tail _ hcall ih =>
    obtain ⟨g, hg, rfl, hgpure⟩ := ih
    exact exists_pure_of_calls hd ht hg hgpure hcall

theorem filter_name_eq_singleton {fs : List FunctionDecl} (h : (fs.map (·.name.text)).Nodup)
    {g : FunctionDecl} (hg : g ∈ fs) : fs.filter (·.name.text = g.name.text) = [g] := by
  induction fs with
  | nil => cases hg
  | cons f fs ih =>
    obtain ⟨hnew, hnodup⟩ := List.nodup_cons.1 h
    rcases List.mem_cons.1 hg with rfl | hmem
    · have hnone : fs.filter (·.name.text = g.name.text) = [] := by
        rw [List.filter_eq_nil_iff]
        intro f hf heq
        exact hnew (List.mem_map.2 ⟨f, hf, by simpa using heq⟩)
      rw [List.filter_cons_of_pos (by simp), hnone]
    · have hne : f.name.text ≠ g.name.text := fun heq =>
        hnew (List.mem_map.2 ⟨g, hmem, heq.symm⟩)
      rw [List.filter_cons_of_neg (by simpa using hne), ih hnodup hmem]

theorem resolves_of_mem_calls {p : Program} (hd : p.WellDeclared) (ht : p.WellTyped)
    {f : FunctionDecl} (hf : f ∈ p.functions) {name : String} (hn : name ∈ f.calls) :
    p.Resolves name := by
  obtain ⟨-, _, _, _, hdeclares, -⟩ := ht.declares hf hn
  cases hdeclares with
  | print hprint _ _ _ =>
    refine .inl ⟨hprint, List.filter_eq_nil_iff.2 fun g hg => ?_⟩
    have hbuiltin := hd.builtins g hg
    simp_all
  | @function g hg hname _ _ _ =>
    subst hname
    refine .inr ⟨fun hprint => hd.builtins g hg (by simp [hprint]), g, ?_⟩
    exact filter_name_eq_singleton hd.names hg

end Program

/-- In an accepted program no pure function gets to an impure one by any number of calls, and
every called name stands for one function, whatever the parameters are called. -/
theorem purity_transitive {options : Options} {p : Program} {typed : TypedProgram}
    (h : validate options p = .ok typed) :
    (∀ f ∈ p.functions, f.purity = .pure → ∀ name,
      Relation.ReflTransGen p.Calls f.name.text name → ¬p.Impure name) ∧
    ∀ f ∈ p.functions, ∀ name ∈ f.calls,
      p.Resolves name ∧ ∀ q ∈ f.parameters.params, q.name.text ≠ name := by
  obtain ⟨hd, ht, -⟩ := sound_validate h
  constructor
  · intro f hf hpure name hr
    obtain ⟨g, hg, rfl, hgpure⟩ := Program.exists_pure_of_reaches hd ht hf hpure hr
    exact hd.not_impure hg hgpure
  · intro f hf name hn
    refine ⟨Program.resolves_of_mem_calls hd ht hf hn, fun q hq => ?_⟩
    obtain ⟨ty, hty⟩ := exists_denotes_iff.2 ((hd.types f hf).params q hq)
    exact (ht.declares hf hn).1 q hq ty hty

theorem purity_transitive_sample :
    ∃ typed, validate default Program.sample = .ok typed ∧
      ¬Relation.ReflTransGen Program.sample.Calls "same" "print" ∧
      Program.sample.Resolves "same" := by
  obtain ⟨typed, hok⟩ :=
    complete_validate Program.wellDeclared_sample Program.wellTyped_sample default
  obtain ⟨hpure, hresolves⟩ := purity_transitive hok
  have hcall : "same" ∈ Program.sampleMain.calls := by decide
  refine ⟨typed, hok, fun hreaches => ?_, ?_⟩
  · exact hpure Program.sampleSame List.mem_cons_self rfl "print" hreaches (.inl rfl)
  · exact (hresolves Program.sampleMain (by simp [Program.sample]) "same" hcall).1

end FunImp
