import FunImp.Tree.SyntaxError

/-!
# Reading trees from leaves

A reader takes leaves off the front of a list. What it leaves is never longer, and a reader
that always takes something can be repeated without end. `many_run` says what repeating does.
-/

namespace FunImp.Tree

/-- Why a reader stopped: the obstacle, the rules it had open, and the leaves from the one that
did not fit. -/
structure Failure where
  obstacle : Obstacle
  rules : List Rule
  remaining : List Leaf
deriving DecidableEq

/-- A step through a list of leaves, which it never makes longer. -/
structure Reader (α : Type) where
  run : List Leaf → Except Failure (α × List Leaf)
  le_of_run : ∀ {ls a remaining}, run ls = .ok (a, remaining) → remaining.length ≤ ls.length

namespace Reader

variable {α β : Type}

def kindOfNext : List Leaf → Token.Kind
  | [] => .eof
  | l :: _ => l.kind

def andThen (p : Reader α) (q : α → Reader β) : Reader β where
  run ls :=
    match p.run ls with
    | .ok (a, remaining) => (q a).run remaining
    | .error e => .error e
  le_of_run {ls b remaining} h := by
    split at h
    · rename_i a between hp
      exact Nat.le_trans ((q a).le_of_run h) (p.le_of_run hp)
    · cases h

def succeed (a : α) : Reader α where
  run ls := .ok (a, ls)
  le_of_run h := by cases h; exact Nat.le_refl _

instance : Monad Reader where
  pure := succeed
  bind := andThen

@[simp] theorem run_pure (a : α) (ls : List Leaf) : (pure a : Reader α).run ls = .ok (a, ls) := rfl

@[simp] theorem run_bind (p : Reader α) (q : α → Reader β) (ls : List Leaf) :
    (p >>= q).run ls =
      match p.run ls with
      | .ok (a, remaining) => (q a).run remaining
      | .error e => .error e := rfl

/-- The reader uses up at least one leaf whenever it succeeds. -/
def Strict (p : Reader α) : Prop :=
  ∀ ls a remaining, p.run ls = .ok (a, remaining) → remaining.length < ls.length

theorem Strict.bind {p : Reader α} (hp : p.Strict) (q : α → Reader β) : (p >>= q).Strict := by
  intro ls b remaining h
  rw [run_bind] at h
  split at h
  · rename_i a between hr
    exact Nat.lt_of_le_of_lt ((q a).le_of_run h) (hp _ _ _ hr)
  · cases h

theorem strict_bind_of {p : Reader α} {q : α → Reader β} (hq : ∀ a, (q a).Strict) :
    (p >>= q).Strict := by
  intro ls b remaining h
  rw [run_bind] at h
  split at h
  · rename_i a between hr
    exact Nat.lt_of_lt_of_le (hq a _ _ _ h) (p.le_of_run hr)
  · cases h

def fail (obstacle : Obstacle) : Reader α where
  run ls := .error ⟨obstacle, [], ls⟩
  le_of_run h := by cases h

theorem strict_fail (obstacle : Obstacle) : (fail obstacle : Reader α).Strict := by
  intro _ _ _ h; cases h

def peek : Reader Token.Kind where
  run ls := .ok (kindOfNext ls, ls)
  le_of_run h := by cases h; exact Nat.le_refl _

/-- Takes the next leaf if it is of one of the kinds; otherwise `expected` would have done. -/
def require (kinds expected : List Token.Kind) : Reader Tree where
  run
    | [] => .error ⟨.unexpected expected, [], []⟩
    | l :: ls =>
      if l.kind ∈ kinds then .ok (ofLeaf l, ls)
      else .error ⟨.unexpected expected, [], l :: ls⟩
  le_of_run {ls a remaining} h := by
    split at h
    · cases h
    · split at h
      · cases h; simp
      · cases h

theorem strict_require (kinds expected : List Token.Kind) : (require kinds expected).Strict := by
  intro ls a remaining h
  simp only [require] at h
  split at h
  · cases h
  · split at h
    · cases h; simp
    · cases h

def expect (kinds : List Token.Kind) : Reader Tree := require kinds kinds

theorem strict_expect (kinds : List Token.Kind) : (expect kinds).Strict :=
  strict_require kinds kinds

/-- Opens a rule: whatever fails inside fails in the rule. -/
def within (rule : Rule) (p : Reader α) : Reader α where
  run ls :=
    match p.run ls with
    | .ok r => .ok r
    | .error e => .error { e with rules := rule :: e.rules }
  le_of_run h := by
    split at h
    · cases h; exact p.le_of_run ‹_›
    · cases h

theorem strict_within {p : Reader α} (rule : Rule) (hp : p.Strict) : (within rule p).Strict := by
  intro ls a remaining h
  simp only [within] at h
  split at h
  · cases h; exact hp _ _ _ ‹_›
  · cases h

/-- `many` as a function of the leaves. -/
def runMany (more : Token.Kind → Bool) (p : Reader (List Tree)) (hp : p.Strict)
    (ls : List Leaf) : Except Failure (List Tree × List Leaf) :=
  if more (kindOfNext ls) then
    match _taken : p.run ls with
    | .ok (ts, between) =>
      match runMany more p hp between with
      | .ok (us, remaining) => .ok (ts ++ us, remaining)
      | .error e => .error e
    | .error e => .error e
  else .ok ([], ls)
termination_by ls.length
decreasing_by exact hp _ _ _ _taken

theorem le_of_runMany {more : Token.Kind → Bool} {p : Reader (List Tree)} {hp : p.Strict}
    {ls remaining : List Leaf} {ts : List Tree}
    (h : runMany more p hp ls = .ok (ts, remaining)) : remaining.length ≤ ls.length := by
  fun_induction runMany more p hp ls generalizing ts with
  | case1 ls _ ts between hp us remaining' hus ih =>
    cases h
    exact Nat.le_trans (ih hus) (p.le_of_run hp)
  | case2 => cases h
  | case3 => cases h
  | case4 => cases h; exact Nat.le_refl _

/-- Repeats the reader as long as `more` holds of the next leaf. -/
def many (more : Token.Kind → Bool) (p : Reader (List Tree)) (hp : p.Strict) :
    Reader (List Tree) :=
  ⟨runMany more p hp, le_of_runMany⟩

theorem many_run (more : Token.Kind → Bool) (p : Reader (List Tree)) (hp : p.Strict)
    (ls : List Leaf) :
    (many more p hp).run ls =
      if more (kindOfNext ls) then
        match p.run ls with
        | .ok (ts, between) =>
          match (many more p hp).run between with
          | .ok (us, remaining) => .ok (ts ++ us, remaining)
          | .error e => .error e
        | .error e => .error e
      else .ok ([], ls) := by
  simp only [many]
  rw [runMany]
  split
  · split <;> simp_all
  · rfl

end Reader

end FunImp.Tree
