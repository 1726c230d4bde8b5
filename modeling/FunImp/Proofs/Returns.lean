/-! # Computations that may fail and keep a state

`Returns m s a s'` says that `m` succeeds in the state `s`, with which answer and which state
after it. Each way of building computations has an equation for it. -/

namespace FunImp

variable {ε σ α β : Type}

/-- The computation succeeds from `s` with the answer `a` and leaves `s'`. -/
def Returns (m : ExceptT ε (StateM σ) α) (s : σ) (a : α) (s' : σ) : Prop :=
  m.run.run s = (.ok a, s')

@[simp] theorem returns_pure {a b : α} {s s' : σ} :
    Returns (pure a : ExceptT ε (StateM σ) α) s b s' ↔ a = b ∧ s = s' := by
  change ((.ok a, s) : Except ε α × σ) = (.ok b, s') ↔ _
  simp

theorem run_bind_eq (m : ExceptT ε (StateM σ) α) (f : α → ExceptT ε (StateM σ) β) (s : σ) :
    (m >>= f).run.run s =
      match m.run.run s with
      | (.ok a, t) => (f a).run.run t
      | (.error e, t) => (.error e, t) := by
  simp only [ExceptT.run_bind, StateT.run_bind]
  cases h : m.run.run s with
  | mk r t => cases r <;> rfl

@[simp] theorem returns_bind {m : ExceptT ε (StateM σ) α} {f : α → ExceptT ε (StateM σ) β}
    {b : β} {s s' : σ} :
    Returns (m >>= f) s b s' ↔ ∃ a t, Returns m s a t ∧ Returns (f a) t b s' := by
  unfold Returns
  rw [run_bind_eq]
  cases h : m.run.run s with
  | mk r t =>
    cases r with
    | error e =>
      constructor
      · intro h
        cases h
      · rintro ⟨_, _, h, -⟩
        cases h
    | ok a =>
      constructor
      · exact fun h => ⟨a, t, rfl, h⟩
      · rintro ⟨_, _, h, hf⟩
        cases h
        exact hf

theorem Returns.bind {m : ExceptT ε (StateM σ) α} {f : α → ExceptT ε (StateM σ) β} {a : α} {b : β}
    {s t s' : σ} (hm : Returns m s a t) (hf : Returns (f a) t b s') :
    Returns (m >>= f) s b s' :=
  returns_bind.2 ⟨a, t, hm, hf⟩

@[simp] theorem not_returns_throw {e : ε} {a : α} {s s' : σ} :
    ¬ Returns (throw e : ExceptT ε (StateM σ) α) s a s' := by
  change ¬ ((.error e, s) : Except ε α × σ) = (.ok a, s')
  simp

@[simp] theorem returns_lift {x : Except ε α} {a : α} {s s' : σ} :
    Returns (liftM x : ExceptT ε (StateM σ) α) s a s' ↔ x = .ok a ∧ s = s' := by
  change ((x, s) : Except ε α × σ) = (.ok a, s') ↔ _
  simp

theorem Returns.bind_lift {x : Except ε α} {f : α → ExceptT ε (StateM σ) β} {a : α} {b : β}
    {s s' : σ} (hx : x = .ok a) (hf : Returns (f a) s b s') :
    Returns (liftM x >>= f) s b s' :=
  (returns_lift.2 ⟨hx, rfl⟩).bind hf

@[simp] theorem returns_ite_throw {c : Prop} [Decidable c] {m : ExceptT ε (StateM σ) α} {e : ε}
    {a : α} {s s' : σ} : Returns (if c then m else throw e) s a s' ↔ c ∧ Returns m s a s' := by
  split <;> simp [*]

@[simp] theorem returns_throw_ite {c : Prop} [Decidable c] {m : ExceptT ε (StateM σ) α} {e : ε}
    {a : α} {s s' : σ} : Returns (if c then throw e else m) s a s' ↔ ¬c ∧ Returns m s a s' := by
  split <;> simp [*]

/-- A computation has one outcome. -/
theorem Returns.unique {m : ExceptT ε (StateM σ) α} {a b : α} {s t u : σ} (h : Returns m s a t)
    (h' : Returns m s b u) : a = b ∧ t = u := by
  have heq : ((.ok a, t) : Except ε α × σ) = (.ok b, u) := h.symm.trans h'
  cases heq
  exact ⟨rfl, rfl⟩

/-- Whatever the computation throws, in whatever state, has the property. -/
def Throws (P : ε → Prop) (m : ExceptT ε (StateM σ) α) : Prop :=
  ∀ s e s', m.run.run s = (.error e, s') → P e

section Throws

variable {P : ε → Prop} {m m' : ExceptT ε (StateM σ) α} {f : α → ExceptT ε (StateM σ) β}

theorem throws_of_returns (h : ∀ s, ∃ a s', Returns m s a s') : Throws P m := by
  intro s e s' he
  obtain ⟨a, t, hr⟩ := h s
  cases hr.symm.trans he

theorem throws_pure (a : α) : Throws P (pure a : ExceptT ε (StateM σ) α) :=
  throws_of_returns fun s => ⟨a, s, rfl⟩

theorem throws_throw {e : ε} (h : P e) : Throws P (throw e : ExceptT ε (StateM σ) α) := by
  rintro s _ _ ⟨⟩
  exact h

theorem Throws.bind (hm : Throws P m) (hf : ∀ a, Throws P (f a)) : Throws P (m >>= f) := by
  intro s e s' he
  rw [run_bind_eq] at he
  rcases hrun : m.run.run s with ⟨d | a, t⟩
  · rw [hrun] at he
    cases he
    exact hm s _ _ hrun
  · rw [hrun] at he
    exact hf a t _ _ he

theorem throws_lift_bind {x : Except ε α} (hx : ∀ e, x = .error e → P e)
    (hf : ∀ a, x = .ok a → Throws P (f a)) :
    Throws P ((liftM x : ExceptT ε (StateM σ) α) >>= f) := by
  cases x with
  | error e => exact throws_throw (hx e rfl)
  | ok a => exact hf a rfl

theorem throws_ite {c : Prop} [Decidable c] (h : c → Throws P m) (h' : ¬c → Throws P m') :
    Throws P (if c then m else m') := by
  split
  · exact h ‹_›
  · exact h' ‹_›

theorem Throws.mono {Q : ε → Prop} (h : Throws P m) (hPQ : ∀ e, P e → Q e) : Throws Q m :=
  fun s e s' he => hPQ e (h s e s' he)

end Throws

end FunImp
