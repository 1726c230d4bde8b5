import FunImp.Proofs.Grammar.WellFormed
import FunImp.Tree.Grammar

/-! # Successful readers

When a reader succeeds, and with what: one equation for each way of building readers. Repeating
is described by rows of trees, one row for each repetition. -/

namespace FunImp.Tree.Reader

variable {α β : Type} {ls rest : List Leaf}

@[simp] theorem kindOfNext_cons (l : Leaf) (ls : List Leaf) : kindOfNext (l :: ls) = l.kind := rfl

@[simp] theorem run_bind_eq_ok {p : Reader α} {q : α → Reader β} {b : β} :
    (p >>= q).run ls = .ok (b, rest) ↔
      ∃ a between, p.run ls = .ok (a, between) ∧ (q a).run between = .ok (b, rest) := by
  rw [run_bind]
  cases p.run ls with
  | error e => simp
  | ok r =>
    constructor
    · exact fun h => ⟨r.1, r.2, rfl, h⟩
    · rintro ⟨a, between, hr, h⟩
      cases hr
      exact h

@[simp] theorem run_pure_eq_ok {a b : α} :
    (pure a : Reader α).run ls = .ok (b, rest) ↔ a = b ∧ ls = rest := by
  simp

@[simp] theorem run_peek_eq_ok {kind : Token.Kind} :
    peek.run ls = .ok (kind, rest) ↔ kindOfNext ls = kind ∧ ls = rest := by
  simp [peek]

@[simp] theorem run_fail_ne_ok {obstacle : Obstacle} {a : α} :
    (fail obstacle : Reader α).run ls ≠ .ok (a, rest) := by
  simp [fail]

@[simp] theorem run_within_eq_ok {rule : Rule} {p : Reader α} {a : α} :
    (within rule p).run ls = .ok (a, rest) ↔ p.run ls = .ok (a, rest) := by
  simp only [within]
  cases p.run ls <;> simp

@[simp] theorem run_require_eq_ok {kinds expected : List Token.Kind} {t : Tree} :
    (require kinds expected).run ls = .ok (t, rest) ↔
      ∃ l, ls = l :: rest ∧ l.kind ∈ kinds ∧ t = ofLeaf l := by
  cases ls with
  | nil => simp [require]
  | cons l ls =>
    by_cases h : l.kind ∈ kinds
    · constructor
      · intro he
        simp only [require, h, if_true, Except.ok.injEq, Prod.mk.injEq] at he
        obtain ⟨rfl, rfl⟩ := he
        exact ⟨l, rfl, h, rfl⟩
      · rintro ⟨_, he, -, rfl⟩
        cases he
        simp [require, h]
    · constructor
      · simp [require, h]
      · rintro ⟨_, he, hk, -⟩
        cases he
        exact absurd hk h

@[simp] theorem run_expect_eq_ok {kinds : List Token.Kind} {t : Tree} :
    (expect kinds).run ls = .ok (t, rest) ↔
      ∃ l, ls = l :: rest ∧ l.kind ∈ kinds ∧ t = ofLeaf l := run_require_eq_ok

theorem run_expect_cons {kinds : List Token.Kind} {l : Leaf} (h : l.kind ∈ kinds)
    (ls : List Leaf) : (expect kinds).run (l :: ls) = .ok (ofLeaf l, ls) :=
  run_expect_eq_ok.2 ⟨l, rfl, h, rfl⟩

theorem run_many_eq_ok {more : Token.Kind → Bool} {p : Reader (List Tree)} {hp : p.Strict}
    {ts : List Tree} :
    (many more p hp).run ls = .ok (ts, rest) ↔
      if more (kindOfNext ls) then
        ∃ us between vs, p.run ls = .ok (us, between) ∧
          (many more p hp).run between = .ok (vs, rest) ∧ ts = us ++ vs
      else ts = [] ∧ ls = rest := by
  rw [many_run]
  split
  · cases p.run ls with
    | error e => simp
    | ok r =>
      obtain ⟨us, between⟩ := r
      constructor
      · intro h
        cases hvs : (many more p hp).run between with
        | error e => simp [hvs] at h
        | ok r =>
          simp only [hvs, Except.ok.injEq, Prod.mk.injEq] at h
          obtain ⟨rfl, rfl⟩ := h
          exact ⟨us, between, r.1, rfl, hvs, rfl⟩
      · rintro ⟨_, _, vs, h, hvs, rfl⟩
        cases h
        simp [hvs]
  · simp [eq_comm]

/-- If one repetition answers the trees of some row and takes their leaves, then all of them
together answer the trees of rows and take the leaves of these. -/
theorem rows_of_run_many {more : Token.Kind → Bool} {p : Reader (List Tree)} {hp : p.Strict}
    (trees : β → List Tree) {Q : β → Prop}
    (hread : ∀ ls ts rest, p.run ls = .ok (ts, rest) →
      ∃ row, ts = trees row ∧ Q row ∧ ls = forestLeaves ts ++ rest)
    {ts : List Tree} (h : (many more p hp).run ls = .ok (ts, rest)) :
    ∃ rows : List β, ts = rows.flatMap trees ∧ (∀ row ∈ rows, Q row) ∧
      ls = forestLeaves ts ++ rest := by
  induction hn : ls.length using Nat.strongRecOn generalizing ls ts with
  | _ n ih =>
    subst hn
    rw [run_many_eq_ok] at h
    split at h
    · obtain ⟨us, between, vs, hus, hvs, rfl⟩ := h
      obtain ⟨row, rfl, hrow, rfl⟩ := hread _ _ _ hus
      obtain ⟨rows, rfl, hrows, rfl⟩ := ih _ (hp _ _ _ hus) hvs rfl
      exact ⟨row :: rows, by simp, List.forall_mem_cons.2 ⟨hrow, hrows⟩, by simp⟩
    · obtain ⟨rfl, rfl⟩ := h
      exact ⟨[], by simp, by simp, by simp [forestLeaves]⟩

/-- Rows are read back if each of them is, wherever it is followed by what may stand behind all
of them or by the start of another row. -/
theorem run_many_of_rows {more : Token.Kind → Bool} {p : Reader (List Tree)} {hp : p.Strict}
    (trees : β → List Tree) (rows : List β) (follows : Token.Kind → Prop)
    (hread : ∀ row ∈ rows, ∀ rest, follows (kindOfNext rest) →
      p.run (forestLeaves (trees row) ++ rest) = .ok (trees row, rest))
    (hstart : ∀ row ∈ rows, ∀ rest,
      more (kindOfNext (forestLeaves (trees row) ++ rest)) = true ∧
        follows (kindOfNext (forestLeaves (trees row) ++ rest)))
    (hstop : more (kindOfNext rest) = false) (hrest : follows (kindOfNext rest)) :
    (many more p hp).run (forestLeaves (rows.flatMap trees) ++ rest) =
      .ok (rows.flatMap trees, rest) := by
  induction rows with
  | nil =>
    rw [run_many_eq_ok]
    simp [forestLeaves, hstop]
  | cons row rows ih =>
    have hrows := ih (fun r hr => hread r (List.mem_cons_of_mem _ hr))
      (fun r hr => hstart r (List.mem_cons_of_mem _ hr))
    have hfollows : follows (kindOfNext (forestLeaves (rows.flatMap trees) ++ rest)) := by
      cases rows with
      | nil => simpa [forestLeaves] using hrest
      | cons next rows =>
        have hnext := (hstart next (by simp) (forestLeaves (rows.flatMap trees) ++ rest)).2
        simpa using hnext
    have hrow := hread row List.mem_cons_self _ hfollows
    have hmore := (hstart row List.mem_cons_self (forestLeaves (rows.flatMap trees) ++ rest)).1
    rw [run_many_eq_ok]
    simp only [List.flatMap_cons, forestLeaves_append, List.append_assoc, hmore, if_true]
    exact ⟨_, _, _, hrow, hrows, rfl⟩

end FunImp.Tree.Reader
