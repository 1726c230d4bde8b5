import Mathlib.Data.List.Induction
import FunImp.Proofs.Symbol.Table

/-! # Runs of a symbol table

A symbol table is changed by calls that declare a symbol, open a scope or close one. After any run
of such calls its scopes hold the declarations that are in force, and `run_reflects` says what that
means for every way of asking. Scopes are numbered from the global one, which is number 0. -/

namespace FunImp

namespace SymbolTable

/-- What can be done to a table. -/
inductive Call where
  | insert (s : Symbol)
  | push
  | pop
deriving DecidableEq

/-- What is answered: a symbol is handed back if its name is taken, and the global scope is not
closed. -/
inductive Answer where
  | done
  | rejected (s : Symbol)
  | refused
deriving DecidableEq

/-- The table after a call, and the answer to it. -/
def call (t : SymbolTable) : Call → SymbolTable × Answer
  | .insert s =>
    match t.insert s with
    | .ok t' => (t', .done)
    | .error rejected => (t, .rejected rejected)
  | .push => (t.push, .done)
  | .pop =>
    match t.pop? with
    | some t' => (t', .done)
    | none => (t, .refused)

/-- The table after calls one after the other. -/
def run (t : SymbolTable) (calls : List Call) : SymbolTable :=
  calls.foldl (fun t c => (t.call c).1) t

/-- How many scopes were opened and not closed since. With none open there is nothing to close. -/
def openPushes (calls : List Call) : Nat :=
  calls.foldl
    (fun n c => match c with
      | .insert _ => n
      | .push => n + 1
      | .pop => n - 1) 0

/-- The symbol is declared in scope `n` after the calls: it is built-in, or it was accepted while
`n` scopes were open, and there were as many ever since. -/
def InForce (calls : List Call) (n : Nat) (s : Symbol) : Prop :=
  (n = 0 ∧ s ∈ [.type .int, .type .void, .function .print]) ∨
    ∃ before behind, calls = before ++ .insert s :: behind ∧ n = openPushes before ∧
      ((new.run before).call (.insert s)).2 = .done ∧
      ∀ front, front <+: behind → n ≤ openPushes (before ++ .insert s :: front)

theorem run_append (t : SymbolTable) (calls more : List Call) :
    t.run (calls ++ more) = (t.run calls).run more := List.foldl_append

theorem run_concat (t : SymbolTable) (calls : List Call) (c : Call) :
    t.run (calls ++ [c]) = ((t.run calls).call c).1 := run_append t calls [c]

section Call

variable {t : SymbolTable} {s : Symbol} {top : Scope} {outer : List Scope}

theorem exists_scopes_eq_cons (t : SymbolTable) : ∃ top outer, t.scopes = top :: outer := by
  obtain ⟨_ | ⟨scope, outer⟩, globals⟩ := t
  · exact ⟨globals, [], rfl⟩
  · exact ⟨scope, outer ++ [globals], rfl⟩

theorem lookupInnermost_eq (h : t.scopes = top :: outer) (name : String) :
    t.lookupInnermost name = top.find? name := by
  obtain ⟨_ | ⟨scope, inner⟩, globals⟩ := t
  · obtain ⟨rfl, -⟩ := List.cons.inj h
    rfl
  · obtain ⟨rfl, -⟩ := List.cons.inj h
    rfl

theorem call_insert_of_taken (h : (t.lookupInnermost s.name).isSome) :
    t.call (.insert s) = (t, .rejected s) := by
  rw [call, insert, if_pos h]

theorem call_insert_of_free (hscopes : t.scopes = top :: outer)
    (h : t.lookupInnermost s.name = none) :
    (t.call (.insert s)).1.scopes = (s :: top) :: outer ∧ (t.call (.insert s)).2 = .done := by
  have hfree : ¬(t.lookupInnermost s.name).isSome := by simp [h]
  rw [call, insert, if_neg hfree]
  obtain ⟨_ | ⟨scope, inner⟩, globals⟩ := t
  · obtain ⟨rfl, rfl⟩ := List.cons.inj hscopes
    exact ⟨rfl, rfl⟩
  · obtain ⟨rfl, rfl⟩ := List.cons.inj hscopes
    exact ⟨rfl, rfl⟩

theorem call_pop_of_inner_eq_nil (h : t.inner = []) : t.call .pop = (t, .refused) := by
  rw [call, pop?, h]

theorem call_pop_of_inner_eq_cons {scope : Scope} {inner : List Scope}
    (h : t.inner = scope :: inner) : t.call .pop = (⟨inner, t.globals⟩, .done) := by
  rw [call, pop?, h]

theorem depth_eq (t : SymbolTable) : t.depth = t.inner.length + 1 := by simp [depth, scopes]

end Call

/-- What a call makes of the scopes, the innermost one first, and what is answered. -/
inductive Step : List Scope → Call → List Scope → Answer → Prop where
  | declared {top : Scope} {outer : List Scope} {s : Symbol} (h : top.find? s.name = none) :
      Step (top :: outer) (.insert s) ((s :: top) :: outer) .done
  | rejected {top : Scope} {outer : List Scope} {s : Symbol} (h : (top.find? s.name).isSome) :
      Step (top :: outer) (.insert s) (top :: outer) (.rejected s)
  | opened {scopes : List Scope} : Step scopes .push ([] :: scopes) .done
  | closed {top : Scope} {outer : List Scope} (h : outer ≠ []) :
      Step (top :: outer) .pop outer .done
  | refused {globals : Scope} : Step [globals] .pop [globals] .refused

theorem step_call (t : SymbolTable) (c : Call) :
    Step t.scopes c (t.call c).1.scopes (t.call c).2 := by
  cases c with
  | insert s =>
    obtain ⟨top, outer, hscopes⟩ := t.exists_scopes_eq_cons
    have hinnermost := lookupInnermost_eq hscopes s.name
    cases hs : t.lookupInnermost s.name with
    | some r =>
      rw [call_insert_of_taken (by simp [hs]), hscopes]
      exact .rejected (by simp [← hinnermost, hs])
    | none =>
      obtain ⟨hcall, hdone⟩ := call_insert_of_free hscopes hs
      rw [hcall, hdone, hscopes]
      exact .declared (hinnermost.symm.trans hs)
  | push => exact .opened
  | pop =>
    cases hinner : t.inner with
    | nil =>
      rw [call_pop_of_inner_eq_nil hinner, scopes, hinner]
      exact .refused
    | cons scope inner =>
      rw [call_pop_of_inner_eq_cons hinner, scopes, hinner]
      exact .closed (List.append_ne_nil_of_right_ne_nil _ (List.cons_ne_nil _ _))

/-- The symbol is in the scope with `n` scopes around it. -/
def StoredIn (n : Nat) (s : Symbol) : List Scope → Prop
  | [] => False
  | scope :: outer => n = outer.length ∧ s ∈ scope ∨ StoredIn n s outer

/-- In no scope two symbols have one name. -/
def Distinct (scopes : List Scope) : Prop :=
  ∀ scope ∈ scopes, (scope.map Symbol.name).Nodup

section StoredIn

variable {n : Nat} {s : Symbol} {name : String} {scope : Scope} {scopes : List Scope}

theorem StoredIn.lt_length (h : StoredIn n s scopes) : n < scopes.length := by
  induction scopes with
  | nil => exact h.elim
  | cons scope outer ih =>
    rcases h with ⟨rfl, -⟩ | h
    · exact Nat.lt_succ_self _
    · exact Nat.lt_succ_of_lt (ih h)

theorem find?_eq_some_iff (h : (scope.map Symbol.name).Nodup) :
    scope.find? name = some s ↔ s ∈ scope ∧ s.name = name := by
  induction scope with
  | nil => simp [Scope.find?]
  | cons r scope ih =>
    obtain ⟨hnew, hnodup⟩ := List.nodup_cons.1 h
    rw [Scope.find?_cons, List.mem_cons]
    split
    · rename_i hr
      constructor
      · intro hs
        obtain rfl := Option.some.inj hs
        exact ⟨.inl rfl, hr⟩
      · rintro ⟨rfl | hmem, hs⟩
        · rfl
        · exact absurd (List.mem_map.2 ⟨s, hmem, hs.trans hr.symm⟩) hnew
    · rename_i hr
      rw [ih hnodup]
      constructor
      · rintro ⟨hmem, hs⟩
        exact ⟨.inr hmem, hs⟩
      · rintro ⟨rfl | hmem, hs⟩
        · exact absurd hs hr
        · exact ⟨hmem, hs⟩

/-- Looking from the innermost scope outwards finds what is in the scope with the greatest
number. -/
theorem findSome?_eq_some_iff (h : Distinct scopes) :
    scopes.findSome? (Scope.find? · name) = some s ↔
      ∃ n, StoredIn n s scopes ∧ s.name = name ∧
        ∀ m r, StoredIn m r scopes → r.name = name → m ≤ n := by
  induction scopes with
  | nil => simp [StoredIn]
  | cons scope outer ih =>
    obtain ⟨hnodup, houter⟩ := List.forall_mem_cons.1 h
    rw [List.findSome?_cons]
    cases hfind : scope.find? name with
    | some r =>
      obtain ⟨hmem, hname⟩ := (find?_eq_some_iff hnodup).1 hfind
      constructor
      · intro hs
        obtain rfl := Option.some.inj hs
        refine ⟨outer.length, .inl ⟨rfl, hmem⟩, hname, fun m q hq _ => ?_⟩
        exact Nat.le_of_lt_succ (hq.lt_length)
      · rintro ⟨n, hs, hsname, hmax⟩
        have hle := hmax outer.length r (.inl ⟨rfl, hmem⟩) hname
        rcases hs with ⟨-, hs⟩ | hs
        · rw [← (find?_eq_some_iff hnodup).2 ⟨hs, hsname⟩, hfind]
        · exact absurd hs.lt_length (Nat.not_lt.2 hle)
    | none =>
      have hnone : ∀ q ∈ scope, q.name ≠ name := by
        intro q hq hqname
        rw [(find?_eq_some_iff hnodup).2 ⟨hq, hqname⟩] at hfind
        cases hfind
      have hin {m : Nat} {q : Symbol} (hqname : q.name = name) :
          StoredIn m q (scope :: outer) ↔ StoredIn m q outer :=
        ⟨fun hq => hq.resolve_left fun hq => hnone q hq.2 hqname, .inr⟩
      simp only [ih houter]
      constructor
      · rintro ⟨n, hs, hsname, hmax⟩
        exact ⟨n, .inr hs, hsname, fun m q hq hqname => hmax m q ((hin hqname).1 hq) hqname⟩
      · rintro ⟨n, hs, hsname, hmax⟩
        exact ⟨n, (hin hsname).1 hs, hsname, fun m q hq => hmax m q (.inr hq)⟩

end StoredIn

namespace Step

variable {scopes scopes' kept : List Scope} {c : Call} {a : Answer} {n : Nat} {s : Symbol}

/-- A step takes away what was in a scope that it closes, and adds what it declares. -/
theorem storedIn_iff (h : Step scopes c scopes' a) :
    StoredIn n s scopes' ↔
      (StoredIn n s scopes ∧ n < scopes'.length) ∨
        (c = .insert s ∧ a = .done ∧ n + 1 = scopes.length) := by
  cases h with
  | declared hfree =>
    simp only [StoredIn, List.mem_cons, Call.insert.injEq, List.length_cons]
    constructor
    · rintro (⟨rfl, rfl | hs⟩ | hs)
      · exact .inr ⟨rfl, trivial, rfl⟩
      · exact .inl ⟨.inl ⟨rfl, hs⟩, Nat.lt_succ_self _⟩
      · exact .inl ⟨.inr hs, Nat.lt_succ_of_lt hs.lt_length⟩
    · rintro (⟨⟨rfl, hs⟩ | hs, -⟩ | ⟨rfl, -, hn⟩)
      · exact .inl ⟨rfl, .inr hs⟩
      · exact .inr hs
      · exact .inl ⟨Nat.succ.inj hn, .inl rfl⟩
  | rejected =>
    exact ⟨fun hs => .inl ⟨hs, hs.lt_length⟩, fun hs => (hs.resolve_right (by simp)).1⟩
  | opened =>
    simp only [StoredIn, List.not_mem_nil, and_false, false_or, reduceCtorEq, false_and, or_false,
      List.length_cons]
    exact ⟨fun hs => ⟨hs, Nat.lt_succ_of_lt hs.lt_length⟩, And.left⟩
  | closed hne =>
    simp only [StoredIn, reduceCtorEq, false_and, or_false]
    constructor
    · exact fun hs => ⟨.inr hs, hs.lt_length⟩
    · rintro ⟨⟨rfl, -⟩ | hs, hlt⟩
      · exact absurd hlt (Nat.lt_irrefl _)
      · exact hs
  | refused =>
    exact ⟨fun hs => .inl ⟨hs, hs.lt_length⟩, fun hs => (hs.resolve_right (by simp)).1⟩

theorem distinct (h : Step scopes c scopes' a) (hd : Distinct scopes) : Distinct scopes' := by
  cases h with
  | @declared top outer s hfree =>
    obtain ⟨htop, houter⟩ := List.forall_mem_cons.1 hd
    refine List.forall_mem_cons.2 ⟨List.nodup_cons.2 ⟨fun hmem => ?_, htop⟩, houter⟩
    obtain ⟨r, hr, hname⟩ := List.mem_map.1 hmem
    rw [(find?_eq_some_iff htop).2 ⟨hr, hname⟩] at hfree
    cases hfree
  | rejected => exact hd
  | opened => exact List.forall_mem_cons.2 ⟨List.nodup_nil, hd⟩
  | closed => exact (List.forall_mem_cons.1 hd).2
  | refused => exact hd

theorem length_eq (h : Step scopes c scopes' a) :
    scopes'.length =
      match c with
      | .insert _ => scopes.length
      | .push => scopes.length + 1
      | .pop => max 1 (scopes.length - 1) := by
  cases h with
  | declared => rfl
  | rejected => rfl
  | opened => rfl
  | closed hne =>
    have hpos := List.length_pos_iff.2 hne
    simp only [List.length_cons]
    omega
  | refused => rfl

/-- A step reaches no further than the innermost scope. -/
theorem suffix (h : Step scopes c scopes' a) (hkept : kept <:+ scopes)
    (hlt : kept.length < scopes.length) : kept <:+ scopes' := by
  have hbelow {top : Scope} {outer : List Scope} (hkept : kept <:+ top :: outer)
      (hlt : kept.length < (top :: outer).length) : kept <:+ outer := by
    rcases List.suffix_cons_iff.1 hkept with rfl | hkept
    · exact absurd hlt (Nat.lt_irrefl _)
    · exact hkept
  cases h with
  | declared => exact (hbelow hkept hlt).trans (List.suffix_cons _ _)
  | rejected => exact hkept
  | opened => exact hkept.trans (List.suffix_cons _ _)
  | closed => exact hbelow hkept hlt
  | refused => exact hkept

end Step

section Run

variable {calls : List Call} {n : Nat} {s : Symbol}

theorem openPushes_concat (calls : List Call) (c : Call) :
    openPushes (calls ++ [c]) =
      match c with
      | .insert _ => openPushes calls
      | .push => openPushes calls + 1
      | .pop => openPushes calls - 1 := by
  rw [openPushes, List.foldl_append]
  rfl

theorem depth_run (calls : List Call) : (new.run calls).depth = 1 + openPushes calls := by
  induction calls using List.reverseRecOn with
  | nil => rfl
  | append_singleton calls c ih =>
    rw [run_concat, depth, (step_call _ c).length_eq, ← depth, openPushes_concat, ih]
    cases c with
    | insert s => rfl
    | push => rfl
    | pop => simp only; omega

/-- One more call ends what was declared in a scope that it closes, and may declare a symbol. -/
theorem inForce_concat {c : Call} :
    InForce (calls ++ [c]) n s ↔
      (InForce calls n s ∧ n ≤ openPushes (calls ++ [c])) ∨
        (c = .insert s ∧ ((new.run calls).call c).2 = .done ∧ n = openPushes calls) := by
  constructor
  · rintro (⟨rfl, hs⟩ | ⟨before, behind, hcalls, rfl, hdone, hopen⟩)
    · exact .inl ⟨.inl ⟨rfl, hs⟩, Nat.zero_le _⟩
    · cases behind using List.reverseRecOn with
      | nil =>
        obtain ⟨rfl, hc⟩ := List.append_inj' hcalls rfl
        obtain rfl := List.singleton_inj.1 hc
        exact .inr ⟨rfl, hdone, rfl⟩
      | append_singleton behind d =>
        rw [← List.cons_append, ← List.append_assoc] at hcalls
        obtain ⟨rfl, hc⟩ := List.append_inj' hcalls rfl
        obtain rfl := List.singleton_inj.1 hc
        refine .inl ⟨.inr ⟨before, behind, rfl, rfl, hdone, fun front hfront => ?_⟩, ?_⟩
        · exact hopen front (hfront.trans (List.prefix_append _ _))
        · simpa using hopen (behind ++ [c]) List.prefix_rfl
  · rintro (⟨⟨rfl, hs⟩ | ⟨before, behind, rfl, rfl, hdone, hopen⟩, hn⟩ | ⟨rfl, hdone, rfl⟩)
    · exact .inl ⟨rfl, hs⟩
    · refine .inr ⟨before, behind ++ [c], by simp, rfl, hdone, fun front hfront => ?_⟩
      rcases List.prefix_concat_iff.1 hfront with rfl | hfront
      · simpa using hn
      · exact hopen front hfront
    · refine .inr ⟨calls, [], rfl, rfl, hdone, fun front hfront => ?_⟩
      obtain rfl := List.prefix_nil.1 hfront
      exact Nat.le_of_eq (openPushes_concat calls (.insert s)).symm

/-- The scopes of a table hold what is in force. -/
theorem storedIn_run : StoredIn n s (new.run calls).scopes ↔ InForce calls n s := by
  induction calls using List.reverseRecOn generalizing n s with
  | nil =>
    have hnew : StoredIn n s new.scopes ↔ n = 0 ∧ s ∈ new.globals := by
      simp [scopes, new, StoredIn]
    have hnil : InForce [] n s ↔ n = 0 ∧ s ∈ [.type .int, .type .void, .function .print] := by
      simp [InForce]
    have hmem : s ∈ new.globals ↔ s ∈ [.type .int, .type .void, .function .print] := by
      simp [new]
      tauto
    exact hnew.trans (hnil.trans (and_congr_right' hmem.symm)).symm
  | append_singleton calls c ih =>
    have hdepth := depth_run (calls ++ [c])
    rw [run_concat] at hdepth
    rw [run_concat, (step_call _ c).storedIn_iff, inForce_concat, ih, ← depth, ← depth, hdepth,
      depth_run, Nat.add_comm 1, Nat.lt_succ_iff, Nat.add_comm 1, Nat.succ_inj]

theorem distinct_run (calls : List Call) : Distinct (new.run calls).scopes := by
  induction calls using List.reverseRecOn with
  | nil => exact List.forall_mem_singleton.2 (by decide)
  | append_singleton calls c ih =>
    rw [run_concat]
    exact (step_call _ c).distinct ih

/-- As long as a scope that was opened on a table stays open, the table is kept below it. -/
theorem suffix_run (t : SymbolTable) {more : List Call}
    (h : ∀ front, front <+: more → t.depth < (t.run (.push :: front)).depth) :
    t.scopes <:+ (t.run (.push :: more)).scopes := by
  induction more using List.reverseRecOn with
  | nil => exact List.suffix_cons [] t.scopes
  | append_singleton more c ih =>
    have hmore := ih fun front hfront => h front (hfront.trans (List.prefix_append _ _))
    rw [← List.cons_append, run_concat]
    exact (step_call _ c).suffix hmore (h more (List.prefix_append _ _))

theorem eq_of_scopes_eq {t t' : SymbolTable} (h : t.scopes = t'.scopes) : t = t' := by
  obtain ⟨inner, globals⟩ := t
  obtain ⟨inner', globals'⟩ := t'
  obtain ⟨rfl, hglobals⟩ := List.append_inj' h rfl
  obtain rfl := List.singleton_inj.1 hglobals
  rfl

end Run

/-- The table answers by the declarations that are in force after the calls. -/
structure Reflects (t : SymbolTable) (calls : List Call) : Prop where
  depth : t.depth = 1 + openPushes calls
  named : ∀ scope ∈ t.scopes, ∀ name s, scope.find? name = some s ↔ s ∈ scope ∧ s.name = name
  int : t.lookupGlobal "int" = some (.type .int)
  void : t.lookupGlobal "void" = some (.type .void)
  print : t.lookupGlobal "print" = some (.function .print)
  rejects : ∀ s, (∃ r, InForce calls (openPushes calls) r ∧ r.name = s.name) →
    t.call (.insert s) = (t, .rejected s)
  accepts : ∀ s, (∀ r, InForce calls (openPushes calls) r → r.name ≠ s.name) →
    (t.call (.insert s)).2 = .done
  refuses : openPushes calls = 0 → t.call .pop = (t, .refused)
  closes : openPushes calls ≠ 0 → (t.call .pop).2 = .done
  lookup : ∀ name s, t.lookup name = some s ↔
    ∃ n, InForce calls n s ∧ s.name = name ∧ ∀ m r, InForce calls m r → r.name = name → m ≤ n
  innermost : ∀ name s, t.lookupInnermost name = some s ↔
    InForce calls (openPushes calls) s ∧ s.name = name
  global : ∀ name s, t.lookupGlobal name = some s ↔ InForce calls 0 s ∧ s.name = name
  type : ∀ name ty, t.lookupType name = some ty ↔ t.lookup name = some (.type ty)
  function : ∀ name f, t.lookupFunction name = some f ↔ t.lookup name = some (.function f)

section Reflects

variable {name : String} {s : Symbol}

theorem lookup_run_iff (calls : List Call) : (new.run calls).lookup name = some s ↔
    ∃ n, InForce calls n s ∧ s.name = name ∧ ∀ m r, InForce calls m r → r.name = name → m ≤ n := by
  simp only [lookup, findSome?_eq_some_iff (distinct_run calls), storedIn_run]

theorem lookupInnermost_run_iff (calls : List Call) :
    (new.run calls).lookupInnermost name = some s ↔
      InForce calls (openPushes calls) s ∧ s.name = name := by
  obtain ⟨top, outer, hscopes⟩ := (new.run calls).exists_scopes_eq_cons
  have htop := distinct_run calls top (by simp [hscopes])
  have hdepth : outer.length = openPushes calls := by
    have hlength := depth_run calls
    rw [depth, hscopes, List.length_cons] at hlength
    omega
  rw [lookupInnermost_eq hscopes, find?_eq_some_iff htop, ← storedIn_run, hscopes]
  constructor
  · rintro ⟨hmem, hname⟩
    exact ⟨.inl ⟨hdepth.symm, hmem⟩, hname⟩
  · rintro ⟨⟨-, hmem⟩ | hs, hname⟩
    · exact ⟨hmem, hname⟩
    · exact absurd hs.lt_length (by omega)

theorem storedIn_zero_iff (t : SymbolTable) : StoredIn 0 s t.scopes ↔ s ∈ t.globals := by
  obtain ⟨inner, globals⟩ := t
  induction inner with
  | nil => simp [scopes, StoredIn]
  | cons scope inner ih =>
    have hscopes : (⟨scope :: inner, globals⟩ : SymbolTable).scopes =
        scope :: (⟨inner, globals⟩ : SymbolTable).scopes := rfl
    rw [hscopes, StoredIn, ih]
    simp [scopes]

theorem lookupGlobal_run_iff (calls : List Call) :
    (new.run calls).lookupGlobal name = some s ↔ InForce calls 0 s ∧ s.name = name := by
  have hglobals := distinct_run calls (new.run calls).globals (by simp [scopes])
  rw [lookupGlobal, find?_eq_some_iff hglobals, ← storedIn_zero_iff, storedIn_run]

theorem lookupType_eq_some_iff (t : SymbolTable) {ty : Ty} :
    t.lookupType name = some ty ↔ t.lookup name = some (.type ty) := by
  unfold lookupType
  split <;> simp_all

theorem lookupFunction_eq_some_iff (t : SymbolTable) {f : Signature} :
    t.lookupFunction name = some f ↔ t.lookup name = some (.function f) := by
  unfold lookupFunction
  split <;> simp_all

theorem reflects_run (calls : List Call) : (new.run calls).Reflects calls where
  depth := depth_run calls
  named scope hscope name s := find?_eq_some_iff (distinct_run calls scope hscope)
  int := (lookupGlobal_run_iff calls).2 ⟨.inl ⟨rfl, by simp⟩, rfl⟩
  void := (lookupGlobal_run_iff calls).2 ⟨.inl ⟨rfl, by simp⟩, rfl⟩
  print := (lookupGlobal_run_iff calls).2 ⟨.inl ⟨rfl, by simp⟩, rfl⟩
  rejects := by
    rintro s ⟨r, hr⟩
    rw [call_insert_of_taken (by simp [(lookupInnermost_run_iff calls).2 hr])]
  accepts s hs := by
    cases hfind : (new.run calls).lookupInnermost s.name with
    | none =>
      obtain ⟨top, outer, hscopes⟩ := (new.run calls).exists_scopes_eq_cons
      exact (call_insert_of_free hscopes hfind).2
    | some r =>
      obtain ⟨hr, hname⟩ := (lookupInnermost_run_iff calls).1 hfind
      exact absurd hname (hs r hr)
  refuses hopen := by
    have hdepth := depth_run calls
    rw [depth_eq, hopen] at hdepth
    exact call_pop_of_inner_eq_nil (List.length_eq_zero_iff.1 (by omega))
  closes hopen := by
    have hdepth := depth_run calls
    rw [depth_eq] at hdepth
    obtain ⟨scope, outer, hinner⟩ : ∃ scope outer, (new.run calls).inner = scope :: outer := by
      refine List.exists_cons_of_ne_nil fun hnil => hopen ?_
      rw [hnil, List.length_nil] at hdepth
      omega
    rw [call_pop_of_inner_eq_cons hinner]
  lookup name s := lookup_run_iff calls
  innermost name s := lookupInnermost_run_iff calls
  global name s := lookupGlobal_run_iff calls
  type name ty := lookupType_eq_some_iff _
  function name f := lookupFunction_eq_some_iff _

end Reflects

/-- After any calls a table answers by the declarations in force. Calls that open a scope, keep it
open and close it in the end leave the table as it was. -/
theorem run_reflects (calls : List Call) :
    (new.run calls).Reflects calls ∧
      ∀ more, (∀ front, front <+: more → openPushes calls < openPushes (calls ++ .push :: front)) →
        openPushes (calls ++ .push :: more ++ [.pop]) = openPushes calls →
        new.run (calls ++ .push :: more ++ [.pop]) = new.run calls := by
  refine ⟨reflects_run calls, fun more hopen hclosed => ?_⟩
  have hdepth (front : List Call) :
      ((new.run calls).run (.push :: front)).depth = 1 + openPushes (calls ++ .push :: front) := by
    rw [← run_append, depth_run]
  have habove : ∀ front, front <+: more →
      (new.run calls).depth < ((new.run calls).run (.push :: front)).depth := by
    intro front hfront
    rw [hdepth, depth_run]
    exact Nat.add_lt_add_left (hopen front hfront) 1
  have hsuffix := (step_call _ .pop).suffix (suffix_run _ habove) (habove more List.prefix_rfl)
  rw [← run_concat, ← run_append, List.cons_append, ← List.cons_append, ← List.append_assoc]
    at hsuffix
  refine eq_of_scopes_eq (hsuffix.eq_of_length ?_).symm
  change (new.run calls).depth = (new.run (calls ++ .push :: more ++ [.pop])).depth
  rw [depth_run, depth_run, hclosed]

/-- A function declared in a scope shadows a built-in type until the scope is closed. -/
theorem run_reflects_sample :
    let shadow := Symbol.function { Signature.print with name := "int" }
    (new.run [.push, .insert shadow]).lookup "int" = some shadow ∧
      (new.run [.push, .insert shadow]).lookupType "int" = none ∧
      ((new.run [.push, .insert shadow]).call (.insert shadow)).2 = .rejected shadow ∧
      new.run [.push, .insert shadow, .pop] = new.run [] := by
  intro shadow
  have hshadow : InForce [.push, .insert shadow] 1 shadow :=
    .inr ⟨[.push], [], rfl, rfl, rfl, fun front hfront => by
      obtain rfl := List.prefix_nil.1 hfront
      exact Nat.le_refl 1⟩
  have hinside := (run_reflects [.push, .insert shadow]).1
  have hlookup : (new.run [.push, .insert shadow]).lookup "int" = some shadow := by
    refine (hinside.lookup "int" shadow).2 ⟨1, hshadow, rfl, fun m r hr _ => ?_⟩
    exact Nat.le_of_lt_succ (storedIn_run.2 hr).lt_length
  refine ⟨hlookup, ?_, ?_, ?_⟩
  · refine Option.eq_none_iff_forall_ne_some.2 fun ty hty => ?_
    have hty' := hlookup.symm.trans ((hinside.type "int" ty).1 hty)
    simp [shadow] at hty'
  · rw [hinside.rejects shadow ⟨shadow, hshadow, rfl⟩]
  · refine (run_reflects []).2 [.insert shadow] (fun front hfront => ?_) rfl
    have hfront : front <+: [] ++ [.insert shadow] := hfront
    rcases List.prefix_concat_iff.1 hfront with rfl | hfront
    · exact Nat.zero_lt_one
    · obtain rfl := List.prefix_nil.1 hfront
      exact Nat.zero_lt_one

end SymbolTable

end FunImp
