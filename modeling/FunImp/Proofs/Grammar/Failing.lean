import FunImp.Proofs.Grammar.Soundness

/-! # Failing readers

When a reader fails, and how: one equation for each way of building readers. -/

namespace FunImp.Tree.Reader

variable {α β : Type} {ls : List Leaf} {e : Failure}

@[simp] theorem run_pure_ne_error {a : α} : (pure a : Reader α).run ls ≠ .error e := by
  simp

@[simp] theorem run_peek_ne_error : peek.run ls ≠ .error e := by
  simp [peek]

@[simp] theorem run_fail_eq_error {obstacle : Obstacle} :
    (fail obstacle : Reader α).run ls = .error e ↔ e = ⟨obstacle, [], ls⟩ := by
  simp [fail, eq_comm]

@[simp] theorem run_bind_eq_error {p : Reader α} {q : α → Reader β} :
    (p >>= q).run ls = .error e ↔
      p.run ls = .error e ∨ ∃ a between, p.run ls = .ok (a, between) ∧
        (q a).run between = .error e := by
  rw [run_bind]
  cases p.run ls with
  | error e' => simp
  | ok r =>
    constructor
    · exact fun h => .inr ⟨r.1, r.2, rfl, h⟩
    · rintro (h | ⟨a, between, hr, h⟩)
      · cases h
      · cases hr
        exact h

theorem run_require_eq_error (kinds : List Token.Kind) {expected : List Token.Kind}
    (heof : .eof ∉ kinds) :
    (require kinds expected).run ls = .error e ↔
      kindOfNext ls ∉ kinds ∧ e = ⟨.unexpected expected, [], ls⟩ := by
  cases ls with
  | nil => simp [require, kindOfNext, heof, eq_comm]
  | cons l ls => by_cases h : l.kind ∈ kinds <;> simp [require, h, eq_comm]

theorem run_expect_eq_error (kinds : List Token.Kind) (heof : .eof ∉ kinds) :
    (expect kinds).run ls = .error e ↔
      kindOfNext ls ∉ kinds ∧ e = ⟨.unexpected kinds, [], ls⟩ :=
  run_require_eq_error kinds heof

@[simp] theorem run_within_eq_error {rule : Rule} {p : Reader α} :
    (within rule p).run ls = .error e ↔
      ∃ inner, p.run ls = .error inner ∧ e = { inner with rules := rule :: inner.rules } := by
  simp only [within]
  cases p.run ls <;> simp [eq_comm]

theorem run_many_eq_error {more : Token.Kind → Bool} {p : Reader (List Tree)} {hp : p.Strict} :
    (many more p hp).run ls = .error e ↔
      more (kindOfNext ls) = true ∧ (p.run ls = .error e ∨
        ∃ us between, p.run ls = .ok (us, between) ∧ (many more p hp).run between = .error e) := by
  rw [many_run]
  split
  · rename_i hmore
    cases p.run ls with
    | error e' => simp [hmore]
    | ok r =>
      have hstep : (∃ us between, Except.ok (ε := Failure) r = .ok (us, between) ∧
          (many more p hp).run between = .error e) ↔ (many more p hp).run r.2 = .error e := by
        constructor
        · rintro ⟨us, between, hr, h⟩
          cases hr
          exact h
        · exact fun h => ⟨r.1, r.2, rfl, h⟩
      rw [hstep]
      cases hvs : (many more p hp).run r.2 <;> simp [hmore, hvs]
  · simp [*]

/-- All failures of the reader have the property. -/
def FailsOnly (P : Failure → Prop) (p : Reader α) : Prop :=
  ∀ ls e, p.run ls = .error e → P e

section FailsOnly

variable {P : Failure → Prop}

theorem failsOnly_pure (a : α) : (pure a : Reader α).FailsOnly P := fun _ _ h =>
  absurd h run_pure_ne_error

theorem failsOnly_peek : peek.FailsOnly P := fun _ _ h => absurd h run_peek_ne_error

theorem failsOnly_fail {obstacle : Obstacle} (hP : ∀ ls, P ⟨obstacle, [], ls⟩) :
    (fail obstacle : Reader α).FailsOnly P := by
  intro ls e h
  rw [run_fail_eq_error.1 h]
  exact hP ls

theorem failsOnly_require {kinds expected : List Token.Kind} (heof : .eof ∉ kinds)
    (hP : ∀ ls, P ⟨.unexpected expected, [], ls⟩) : (require kinds expected).FailsOnly P := by
  intro ls e h
  obtain ⟨-, rfl⟩ := (run_require_eq_error kinds heof).1 h
  exact hP ls

theorem FailsOnly.bind {p : Reader α} {q : α → Reader β} (hp : p.FailsOnly P)
    (hq : ∀ a, (q a).FailsOnly P) : (p >>= q).FailsOnly P := by
  intro ls e h
  rcases run_bind_eq_error.1 h with h | ⟨a, between, -, h⟩
  · exact hp _ _ h
  · exact hq a _ _ h

theorem FailsOnly.ite {c : Prop} [Decidable c] {p q : Reader α} (hp : p.FailsOnly P)
    (hq : q.FailsOnly P) : (if c then p else q).FailsOnly P := by
  split
  · exact hp
  · exact hq

theorem FailsOnly.many {p : Reader (List Tree)} (hp : p.FailsOnly P) (more : Token.Kind → Bool)
    (hs : p.Strict) : (many more p hs).FailsOnly P := by
  intro ls e h
  induction hn : ls.length using Nat.strongRecOn generalizing ls with
  | _ m ih =>
    subst hn
    obtain ⟨-, hfail | ⟨us, between, hus, hrest⟩⟩ := run_many_eq_error.1 h
    · exact hp _ _ hfail
    · exact ih _ (hs _ _ _ hus) _ hrest rfl

theorem FailsOnly.within {Q : Failure → Prop} {p : Reader α} (hp : p.FailsOnly Q) {rule : Rule}
    (hQ : ∀ e, Q e → P { e with rules := rule :: e.rules }) : (within rule p).FailsOnly P := by
  intro ls e h
  obtain ⟨inner, hinner, rfl⟩ := run_within_eq_error.1 h
  exact hQ inner (hp _ _ hinner)

end FailsOnly

/-- Repeating stops in front of a leaf that starts no further row. -/
theorem more_of_run_many_eq_ok {more : Token.Kind → Bool} {p : Reader (List Tree)} {hp : p.Strict}
    {ts : List Tree} {rest : List Leaf} (h : (many more p hp).run ls = .ok (ts, rest)) :
    more (kindOfNext rest) = false := by
  induction hn : ls.length using Nat.strongRecOn generalizing ls ts with
  | _ n ih =>
    subst hn
    rw [run_many_eq_ok] at h
    split at h
    · obtain ⟨us, between, vs, hus, hvs, -⟩ := h
      exact ih _ (hp _ _ _ hus) hvs rfl
    · rename_i hmore
      obtain ⟨-, rfl⟩ := h
      simpa using hmore

/-- Repeating fails behind some rows, where another row is begun. -/
theorem rows_of_run_many_eq_error {more : Token.Kind → Bool} {p : Reader (List Tree)}
    {hp : p.Strict} (trees : β → List Tree) {Q : β → Prop}
    (hread : ∀ ls ts rest, p.run ls = .ok (ts, rest) →
      ∃ row, ts = trees row ∧ Q row ∧ ls = forestLeaves ts ++ rest)
    (h : (many more p hp).run ls = .error e) :
    ∃ (rows : List β) (rest : List Leaf), ls = forestLeaves (rows.flatMap trees) ++ rest ∧
      (∀ row ∈ rows, Q row) ∧ more (kindOfNext rest) = true ∧ p.run rest = .error e := by
  induction hn : ls.length using Nat.strongRecOn generalizing ls with
  | _ n ih =>
    subst hn
    obtain ⟨hmore, hfail | ⟨us, between, hus, hrest⟩⟩ := run_many_eq_error.1 h
    · exact ⟨[], ls, by simp [forestLeaves], List.forall_mem_nil _, hmore, hfail⟩
    · obtain ⟨row, rfl, hrow, rfl⟩ := hread _ _ _ hus
      obtain ⟨rows, rest, rfl, hrows, hmore, hfail⟩ := ih _ (hp _ _ _ hus) hrest rfl
      exact ⟨row :: rows, rest, by simp, List.forall_mem_cons.2 ⟨hrow, hrows⟩, hmore, hfail⟩

end FunImp.Tree.Reader
