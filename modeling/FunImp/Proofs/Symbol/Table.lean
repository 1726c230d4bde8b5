import FunImp.Symbol.Table

/-! # Lookup in symbol tables

What declaring a symbol and opening a scope do to lookup. -/

namespace FunImp

theorem Scope.find?_cons (s : Symbol) (scope : Scope) (name : String) :
    Scope.find? (s :: scope) name = if s.name = name then some s else scope.find? name := by
  by_cases h : s.name = name
  · simp [Scope.find?, h]
  · simp [Scope.find?, h]

namespace SymbolTable

variable {t t' : SymbolTable} {s : Symbol}

theorem lookup_eq_innermost_or (t : SymbolTable) (name : String) :
    t.lookup name = (t.lookupInnermost name).or
      (match t.inner with
        | [] => none
        | _ :: outer => (⟨outer, t.globals⟩ : SymbolTable).lookup name) := by
  obtain ⟨_ | ⟨scope, outer⟩, globals⟩ := t
  · simp [lookup, scopes, lookupInnermost]
  · simp only [lookup, scopes, lookupInnermost, List.cons_append, List.findSome?_cons]
    cases scope.find? name <;> rfl

theorem lookup_of_inner_eq_nil (h : t.inner = []) (name : String) :
    t.lookup name = t.lookupInnermost name := by
  rw [lookup_eq_innermost_or, h, Option.or_none]

theorem exists_insert_eq_ok_iff (t : SymbolTable) (s : Symbol) :
    (∃ t', t.insert s = .ok t') ↔ t.lookupInnermost s.name = none := by
  unfold insert
  split
  · rename_i h
    simp [Option.isSome_iff_ne_none.1 h]
  · rename_i h
    have hnone : t.lookupInnermost s.name = none := by simpa using h
    cases t.inner with
    | nil => simp [hnone]
    | cons scope outer => simp [hnone]

theorem lookupInnermost_insert (h : t.insert s = .ok t') (name : String) :
    t'.lookupInnermost name = if s.name = name then some s else t.lookupInnermost name := by
  unfold insert at h
  split at h
  · cases h
  · obtain ⟨_ | ⟨scope, outer⟩, globals⟩ := t
    · cases h
      exact Scope.find?_cons s globals name
    · cases h
      exact Scope.find?_cons s scope name

theorem lookup_insert (h : t.insert s = .ok t') (name : String) :
    t'.lookup name = if s.name = name then some s else t.lookup name := by
  have hinnermost := lookupInnermost_insert h name
  rw [lookup_eq_innermost_or t', lookup_eq_innermost_or t, hinnermost]
  unfold insert at h
  split at h
  · cases h
  · obtain ⟨_ | ⟨scope, outer⟩, globals⟩ := t
    · cases h
      split <;> simp
    · cases h
      split <;> simp

theorem inner_insert_eq_nil (h : t.insert s = .ok t') (hnil : t.inner = []) : t'.inner = [] := by
  unfold insert at h
  split at h
  · cases h
  · rw [hnil] at h
    cases h
    rfl

theorem name_of_lookup {name : String} (h : t.lookup name = some s) : s.name = name := by
  obtain ⟨scope, -, hfind⟩ := List.exists_of_findSome?_eq_some h
  simpa using List.find?_some hfind

@[simp] theorem lookup_push (t : SymbolTable) (name : String) :
    t.push.lookup name = t.lookup name := rfl

@[simp] theorem lookupInnermost_push (t : SymbolTable) (name : String) :
    t.push.lookupInnermost name = none := rfl

end SymbolTable

end FunImp
