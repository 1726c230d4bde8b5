import FunImp.Proofs.Grammar.Closure
import FunImp.Proofs.Grammar.Failing

/-! # Logs of readers

A log tells how a reader comes to its answer: which leaves it takes, how often it goes round a loop
and which rules it opens on the way. It says so step by step and takes for granted neither that
loops end nor that anything is taken. Followed with a stack of open rules, it leaves on the stack
just the rules of the failure. Every reader of the grammar has a log. -/

namespace FunImp.Tree

open Reader

/-- How a reader goes through leaves. An error breaks off the turn of a loop. -/
inductive Log where
  | nothing
  | took (l : Leaf)
  | both (first second : Log)
  | turn (inner : Log)
  | broken (inner : Log)
  | inside (rule : Rule) (inner : Log)

namespace Log

def taken : Log → List Leaf
  | nothing => []
  | took l => [l]
  | both first second => first.taken ++ second.taken
  | turn inner => inner.taken
  | broken inner => inner.taken
  | inside _ inner => inner.taken

/-- The turns of loops that came to their end, also those inside others. -/
def turns : Log → List Log
  | nothing => []
  | took _ => []
  | both first second => first.turns ++ second.turns
  | turn inner => inner :: inner.turns
  | broken inner => inner.turns
  | inside _ inner => inner.turns

def depth : Log → Nat
  | nothing => 0
  | took _ => 0
  | both first second => max first.depth second.depth
  | turn inner => inner.depth
  | broken inner => inner.depth
  | inside _ inner => inner.depth + 1

/-- The open rules at the end of a way through leaves, the innermost one last, if they were `stack`
at its start. A rule is pushed where it is entered. It is popped when it has been read, and where
reading it fails it stays. -/
def stackAfter : Log → (done : Bool) → (stack : List Rule) → List Rule
  | nothing, _, stack => stack
  | took _, _, stack => stack
  | both first second, done, stack => second.stackAfter done (first.stackAfter true stack)
  | turn inner, _, stack => inner.stackAfter true stack
  | broken inner, _, stack => inner.stackAfter false stack
  | inside rule inner, done, stack =>
    let pushed := inner.stackAfter done (stack ++ [rule])
    if done then pushed.dropLast else pushed

end Log

/-- The way of a reader through leaves, and its answer. A loop asks for the next leaf before each
turn, and a rule that is entered is open until its end. -/
inductive Logs :
    {α : Type} → Reader α → List Leaf → Log → Except Failure (α × List Leaf) → Prop where
  | pure {α : Type} (a : α) (ls : List Leaf) :
      Logs (pure a : Reader α) ls .nothing (.ok (a, ls))
  | peek (ls : List Leaf) : Logs peek ls .nothing (.ok (kindOfNext ls, ls))
  | fail {α : Type} (obstacle : Obstacle) (ls : List Leaf) :
      Logs (fail obstacle : Reader α) ls .nothing (.error ⟨obstacle, [], ls⟩)
  | take {kinds expected l ls} (hl : l.kind ∈ kinds) :
      Logs (require kinds expected) (l :: ls) (.took l) (.ok (ofLeaf l, ls))
  | refuse {kinds expected ls} (hnext : kindOfNext ls ∉ kinds) :
      Logs (require kinds expected) ls .nothing (.error ⟨.unexpected expected, [], ls⟩)
  | bind {α β : Type} {p : Reader α} {q : α → Reader β} {ls first a between second answer}
      (hp : Logs p ls first (.ok (a, between))) (hq : Logs (q a) between second answer) :
      Logs (p >>= q) ls (.both first second) answer
  | bindError {α β : Type} {p : Reader α} (q : α → Reader β) {ls log e}
      (hp : Logs p ls log (.error e)) : Logs (p >>= q) ls log (.error e)
  | stop {more p} {hs : p.Strict} {ls} (hnext : more (kindOfNext ls) = false) :
      Logs (many more p hs) ls .nothing (.ok ([], ls))
  | turn {more p} {hs : p.Strict} {ls inner ts between rest us remaining}
      (hnext : more (kindOfNext ls) = true) (hp : Logs p ls inner (.ok (ts, between)))
      (hrest : Logs (many more p hs) between rest (.ok (us, remaining))) :
      Logs (many more p hs) ls (.both (.turn inner) rest) (.ok (ts ++ us, remaining))
  | turnError {more p} {hs : p.Strict} {ls inner ts between rest e}
      (hnext : more (kindOfNext ls) = true) (hp : Logs p ls inner (.ok (ts, between)))
      (hrest : Logs (many more p hs) between rest (.error e)) :
      Logs (many more p hs) ls (.both (.turn inner) rest) (.error e)
  | broken {more p} {hs : p.Strict} {ls inner e} (hnext : more (kindOfNext ls) = true)
      (hp : Logs p ls inner (.error e)) :
      Logs (many more p hs) ls (.broken inner) (.error e)
  | within {α : Type} {p : Reader α} (rule : Rule) {ls inner r} (hp : Logs p ls inner (.ok r)) :
      Logs (within rule p) ls (.inside rule inner) (.ok r)
  | withinError {α : Type} {p : Reader α} (rule : Rule) {ls inner e}
      (hp : Logs p ls inner (.error e)) :
      Logs (within rule p) ls (.inside rule inner) (.error { e with rules := rule :: e.rules })

namespace Logs

variable {α : Type} {p : Reader α} {ls : List Leaf} {log : Log}
  {answer : Except Failure (α × List Leaf)}

theorem run_eq (h : Logs p ls log answer) : p.run ls = answer := by
  induction h with
  | pure | peek | fail => rfl
  | take hl => exact run_require_eq_ok.2 ⟨_, rfl, hl, rfl⟩
  | @refuse kinds expected ls hnext =>
    cases ls with
    | nil => rfl
    | cons l ls => exact if_neg hnext
  | bind _ _ ihp ihq => rw [run_bind, ihp, ← ihq]
  | bindError q _ ih => rw [run_bind, ih]
  | stop hnext => exact run_many_eq_ok.2 (by simp [hnext])
  | turn hnext _ _ ihp ihrest =>
    rw [run_many_eq_ok, if_pos hnext]
    exact ⟨_, _, _, ihp, ihrest, rfl⟩
  | turnError hnext _ _ ihp ihrest =>
    exact run_many_eq_error.2 ⟨hnext, .inr ⟨_, _, ihp, ihrest⟩⟩
  | broken hnext _ ih => exact run_many_eq_error.2 ⟨hnext, .inl ih⟩
  | within _ _ ih => exact run_within_eq_ok.2 ih
  | withinError _ _ ih => exact run_within_eq_error.2 ⟨_, ih, rfl⟩

def remaining : Except Failure (α × List Leaf) → List Leaf
  | .ok (_, rest) => rest
  | .error e => e.remaining

/-- What is taken is gone, in order, and nothing else is. -/
theorem eq_taken_append (h : Logs p ls log answer) : ls = log.taken ++ remaining answer := by
  induction h with
  | pure | peek | fail | take | refuse | stop => rfl
  | bind _ _ ihp ihq =>
    rw [Log.taken, List.append_assoc, ← ihq]
    exact ihp
  | bindError _ _ ih => exact ih
  | turn _ _ _ ihp ihrest | turnError _ _ _ ihp ihrest =>
    rw [Log.taken, Log.taken, List.append_assoc]
    exact ihp.trans (congrArg _ ihrest)
  | broken _ _ ih | within _ _ ih | withinError _ _ ih => exact ih

def leftOpen : Except Failure (α × List Leaf) → List Rule
  | .ok _ => []
  | .error e => e.rules

/-- Whatever is entered on the way is popped again but for the rules of the failure. -/
theorem stackAfter_eq (h : Logs p ls log answer) (stack : List Rule) :
    log.stackAfter answer.toBool stack = stack ++ leftOpen answer := by
  -- For any stack, since what is read inside a rule is read with that rule on top.
  induction h generalizing stack with
  | pure | peek | fail | take | refuse | stop => exact (List.append_nil stack).symm
  | bind _ _ ihp ihq =>
    have hfirst := ihp stack
    rw [leftOpen, List.append_nil] at hfirst
    rw [Log.stackAfter, ← ihq stack]
    exact congrArg _ hfirst
  | bindError _ _ ih => exact ih stack
  | turn _ _ _ ihp ihrest | turnError _ _ _ ihp ihrest =>
    have hturn := ihp stack
    rw [leftOpen, List.append_nil] at hturn
    exact (congrArg _ hturn).trans (ihrest stack)
  | broken _ _ ih => exact ih stack
  | within rule _ ih =>
    have hinner := ih (stack ++ [rule])
    rw [leftOpen, List.append_nil] at hinner
    rw [leftOpen, List.append_nil]
    exact (congrArg List.dropLast hinner).trans List.dropLast_concat
  | withinError rule _ ih =>
    rw [leftOpen, List.append_cons]
    exact ih (stack ++ [rule])

end Logs

/-- The reader has a log, wherever it starts: it comes to its answer, with so many rules open at
most, and without the end of the input. -/
def Reader.Logged (n : Nat) {α : Type} (p : Reader α) : Prop :=
  ∀ ls, ∃ log, Logs p ls log (p.run ls) ∧ log.depth ≤ n ∧ ∀ l ∈ log.taken, l.kind ≠ .eof

section Logged

variable {n : Nat} {α β : Type}

theorem logged_require (n : Nat) {kinds : List Token.Kind} (expected : List Token.Kind)
    (heof : .eof ∉ kinds) : (require kinds expected).Logged n := by
  intro ls
  by_cases hnext : kindOfNext ls ∈ kinds
  · cases ls with
    | nil => exact absurd hnext heof
    | cons l ls =>
      have hrun : (require kinds expected).run (l :: ls) = .ok (ofLeaf l, ls) :=
        run_require_eq_ok.2 ⟨l, rfl, hnext, rfl⟩
      have hkind : l.kind ≠ .eof := fun hl => heof (hl ▸ hnext)
      rw [hrun]
      exact ⟨.took l, .take hnext, Nat.zero_le n, List.forall_mem_singleton.2 hkind⟩
  · rw [(run_require_eq_error kinds heof).2 ⟨hnext, rfl⟩]
    exact ⟨.nothing, .refuse hnext, Nat.zero_le n, List.forall_mem_nil _⟩

theorem logged_bind {p : Reader α} {q : α → Reader β} (hp : p.Logged n)
    (hq : ∀ a, (q a).Logged n) : (p >>= q).Logged n := by
  intro ls
  obtain ⟨first, hfirst, hdepth, htaken⟩ := hp ls
  rw [run_bind]
  cases hrun : p.run ls with
  | error e => exact ⟨first, .bindError q (hrun ▸ hfirst), hdepth, htaken⟩
  | ok r =>
    obtain ⟨second, hsecond, hdepths, htakens⟩ := hq r.1 r.2
    exact ⟨_, .bind (hrun ▸ hfirst) hsecond, Nat.max_le.2 ⟨hdepth, hdepths⟩,
      List.forall_mem_append.2 ⟨htaken, htakens⟩⟩

/-- A loop comes to its end because each turn leaves less. -/
theorem logged_many {p : Reader (List Tree)} (hp : p.Logged n) (more : Token.Kind → Bool)
    (hs : p.Strict) : (many more p hs).Logged n := by
  intro ls
  induction hn : ls.length using Nat.strongRecOn generalizing ls with
  | _ m ih =>
    subst hn
    obtain ⟨inner, hinner, hdepth, htaken⟩ := hp ls
    rw [many_run]
    by_cases hnext : more (kindOfNext ls) = true
    · rw [if_pos hnext]
      cases hrun : p.run ls with
      | error e => exact ⟨.broken inner, .broken hnext (hrun ▸ hinner), hdepth, htaken⟩
      | ok r =>
        obtain ⟨rest, hrest, hdepths, htakens⟩ := ih _ (hs _ _ _ hrun) r.2 rfl
        refine ⟨.both (.turn inner) rest, ?_, Nat.max_le.2 ⟨hdepth, hdepths⟩,
          List.forall_mem_append.2 ⟨htaken, htakens⟩⟩
        rw [hrun] at hinner
        cases hmany : (many more p hs).run r.2 with
        | error e =>
          rw [hmany] at hrest
          simp only [hmany]
          exact .turnError hnext hinner hrest
        | ok s =>
          rw [hmany] at hrest
          simp only [hmany]
          exact .turn hnext hinner hrest
    · rw [if_neg hnext]
      exact ⟨.nothing, .stop (Bool.eq_false_iff.2 hnext), Nat.zero_le n, List.forall_mem_nil _⟩

theorem exists_logs_within {p : Reader α} (hp : p.Logged n) (rule : Rule) (ls : List Leaf) :
    ∃ inner, Logs (within rule p) ls (.inside rule inner) ((within rule p).run ls) ∧
      inner.depth ≤ n ∧ ∀ l ∈ inner.taken, l.kind ≠ .eof := by
  obtain ⟨inner, hinner, hinside⟩ := hp ls
  refine ⟨inner, ?_, hinside⟩
  cases hrun : p.run ls with
  | error e =>
    rw [run_within_eq_error.2 ⟨e, hrun, rfl⟩]
    exact .withinError rule (hrun ▸ hinner)
  | ok r =>
    rw [run_within_eq_ok.2 hrun]
    exact .within rule (hrun ▸ hinner)

theorem logged_within {p : Reader α} (hp : p.Logged n) (rule : Rule) :
    (within rule p).Logged (n + 1) := by
  intro ls
  obtain ⟨inner, hinner, hdepth, htaken⟩ := exists_logs_within hp rule ls
  exact ⟨.inside rule inner, hinner, Nat.succ_le_succ hdepth, htaken⟩

end Logged

theorem passed_logged : Passed fun n {_} p => p.Logged n where
  pure n a ls := ⟨.nothing, .pure a ls, Nat.zero_le n, List.forall_mem_nil _⟩
  peek n ls := ⟨.nothing, .peek ls, Nat.zero_le n, List.forall_mem_nil _⟩
  unexpected n _ ls := ⟨.nothing, .fail _ ls, Nat.zero_le n, List.forall_mem_nil _⟩
  tooDeep ls := ⟨.nothing, .fail _ ls, Nat.zero_le 0, List.forall_mem_nil _⟩
  require n _ expected heof := logged_require n expected heof
  bind := logged_bind
  many := logged_many
  within := logged_within

end FunImp.Tree
