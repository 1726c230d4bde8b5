import Mathlib.Data.List.Forall2

/-! # Lists related item by item, and how computations end -/

namespace FunImp

variable {α β ε : Type} {R : α → β → Prop}

theorem exists_mem_of_forall₂_left {as : List α} {bs : List β}
    (h : List.Forall₂ R as bs) {a : α} (ha : a ∈ as) : ∃ b ∈ bs, R a b := by
  induction h with
  | nil => cases ha
  | cons hab _ ih =>
    rcases List.mem_cons.1 ha with rfl | ha
    · exact ⟨_, List.mem_cons_self, hab⟩
    · obtain ⟨b, hb, hab⟩ := ih ha
      exact ⟨b, List.mem_cons_of_mem _ hb, hab⟩

theorem exists_mem_of_forall₂_right {as : List α} {bs : List β}
    (h : List.Forall₂ R as bs) {b : β} (hb : b ∈ bs) : ∃ a ∈ as, R a b :=
  exists_mem_of_forall₂_left (List.Forall₂.flip h) hb

theorem exists_forall₂ {as : List α} (h : ∀ a ∈ as, ∃ b, R a b) : ∃ bs, List.Forall₂ R as bs := by
  induction as with
  | nil => exact ⟨[], .nil⟩
  | cons a as ih =>
    obtain ⟨⟨b, hb⟩, has⟩ := List.forall_mem_cons.1 h
    obtain ⟨bs, hbs⟩ := ih has
    exact ⟨b :: bs, .cons hb hbs⟩

theorem except_bind_eq_ok_iff {x : Except ε α} {f : α → Except ε β} {b : β} :
    x >>= f = .ok b ↔ ∃ a, x = .ok a ∧ f a = .ok b := by
  cases x with
  | error e => simp [bind, Except.bind]
  | ok a => simp [bind, Except.bind]

theorem except_bind_eq_error_iff {x : Except ε α} {f : α → Except ε β} {e : ε} :
    x >>= f = .error e ↔ x = .error e ∨ ∃ a, x = .ok a ∧ f a = .error e := by
  cases x with
  | error d => simp [bind, Except.bind]
  | ok a => simp [bind, Except.bind]

theorem mapError_eq_ok_iff {δ : Type} {f : δ → ε} {x : Except δ α} {a : α} :
    x.mapError f = .ok a ↔ x = .ok a := by
  cases x with
  | error d => simp [Except.mapError]
  | ok a => simp [Except.mapError]

theorem mapError_eq_error_iff {δ : Type} {f : δ → ε} {x : Except δ α} {e : ε} :
    x.mapError f = .error e ↔ ∃ d, x = .error d ∧ f d = e := by
  cases x with
  | error d => simp [Except.mapError]
  | ok a => simp [Except.mapError]

/-- The error that a computation ends with. -/
def thrown? : Except ε α → Option ε
  | .ok _ => none
  | .error e => some e

theorem thrown?_eq_none_iff {x : Except ε α} : thrown? x = none ↔ ∃ a, x = .ok a := by
  cases x with
  | ok a => simp [thrown?]
  | error e => simp [thrown?]

theorem thrown?_eq_some_iff {x : Except ε α} {e : ε} : thrown? x = some e ↔ x = .error e := by
  cases x with
  | ok a => simp [thrown?]
  | error d => simp [thrown?]

theorem mapM_eq_ok_iff {f : α → Except ε β} {as : List α} {bs : List β} :
    as.mapM f = .ok bs ↔ List.Forall₂ (fun a b => f a = .ok b) as bs := by
  induction as generalizing bs with
  | nil => simp [pure, Except.pure, eq_comm]
  | cons a as ih =>
    simp only [List.mapM_cons, except_bind_eq_ok_iff, ih, List.forall₂_cons_left_iff]
    simp [pure, Except.pure, eq_comm]

theorem exists_mem_of_mapM_eq_error {f : α → Except ε β} {as : List α} {e : ε}
    (h : as.mapM f = .error e) : ∃ a ∈ as, f a = .error e := by
  induction as with
  | nil => cases h
  | cons a as ih =>
    simp only [List.mapM_cons, except_bind_eq_error_iff] at h
    rcases h with h | ⟨b, -, h | ⟨bs, -, h⟩⟩
    · exact ⟨a, List.mem_cons_self, h⟩
    · obtain ⟨a', ha', h⟩ := ih h
      exact ⟨a', List.mem_cons_of_mem _ ha', h⟩
    · cases h

end FunImp
