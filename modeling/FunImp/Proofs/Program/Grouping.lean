import FunImp.Proofs.Program.Leaves

/-! # How operators group

The tokens of an expression read without a grammar. They are taken apart at the last `+` or `-`
outside all parentheses and braces, or where there is none at the last `*` or `/` there, and either
side is read in the same way. -/

namespace FunImp

namespace Token

/-- How many parentheses and braces stand open behind the token, where `depth` of them do in front
of it. -/
def nesting (depth : Nat) (t : Token) : Nat :=
  match t.kind with
  | .leftParen | .leftBrace => depth + 1
  | .rightParen | .rightBrace => depth - 1
  | _ => depth

theorem nesting_eq_self {t : Token} {kind : Token.Kind} (h : t.kind = kind)
    (hkind : kind ∉ [.leftParen, .leftBrace, .rightParen, .rightBrace]) (depth : Nat) :
    t.nesting depth = depth := by
  unfold nesting
  split <;> simp_all

theorem nesting_of_ofKind? {t : Token} {op : Operator}
    (h : Operator.ofKind? t.kind = some op) (depth : Nat) : t.nesting depth = depth := by
  refine nesting_eq_self rfl (fun hkind => ?_) depth
  simp only [List.mem_cons, List.not_mem_nil, or_false] at hkind
  rcases hkind with hkind | hkind | hkind | hkind <;> simp [hkind, Operator.ofKind?] at h

theorem nesting_opening {t : Token} (h : t.kind = .leftParen ∨ t.kind = .leftBrace)
    (depth : Nat) : t.nesting depth = depth + 1 := by
  rcases h with h | h <;> simp [nesting, h]

theorem nesting_closing {t : Token} (h : t.kind = .rightParen ∨ t.kind = .rightBrace)
    (depth : Nat) : t.nesting depth = depth - 1 := by
  rcases h with h | h <;> simp [nesting, h]

end Token

/-- Tokens taken apart at one of them. -/
structure Split where
  left : List Token
  sign : Token
  right : List Token
deriving DecidableEq

namespace Split

def prepend (front : List Token) (s : Split) : Split := ⟨front ++ s.left, s.sign, s.right⟩

def append (behind : List Token) (s : Split) : Split := ⟨s.left, s.sign, s.right ++ behind⟩

/-- The tokens taken apart at the last one of the kinds outside all parentheses and braces, where
`depth` of them stand open in front. -/
def last? (kinds : List Token.Kind) (depth : Nat) : List Token → Option Split
  | [] => none
  | t :: ts =>
    ((last? kinds (t.nesting depth) ts).map (prepend [t])).or
      (if depth = 0 ∧ t.kind ∈ kinds then some ⟨[], t, ts⟩ else none)

/-- The tokens taken apart at the operator that binds last. -/
def outermost? (ts : List Token) : Option Split :=
  (last? [.plus, .minus] 0 ts).or (last? [.star, .slash] 0 ts)

variable {kinds : List Token.Kind} {depth : Nat} {t : Token} {ts xs ys : List Token} {s : Split}

theorem last?_append :
    last? kinds depth (xs ++ ys) =
      ((last? kinds (xs.foldl Token.nesting depth) ys).map (prepend xs)).or
        ((last? kinds depth xs).map (append ys)) := by
  induction xs generalizing depth with
  | nil =>
    have hprepend : prepend [] = id := rfl
    simp [last?, hprepend]
  | cons x xs ih =>
    have hprepend : prepend [x] ∘ prepend xs = prepend (x :: xs) := rfl
    have hcommute : prepend [x] ∘ append ys = append ys ∘ prepend [x] := rfl
    simp only [List.cons_append, last?, ih, List.foldl_cons, Option.map_or, Option.map_map,
      hprepend, hcommute, Option.or_assoc]
    split <;> rfl

theorem eq_of_last? (h : last? kinds depth ts = some s) : ts = s.left ++ s.sign :: s.right := by
  induction ts generalizing depth s with
  | nil => cases h
  | cons t ts ih =>
    rcases Option.or_eq_some_iff.1 h with h | ⟨-, h⟩
    · obtain ⟨s', hs', rfl⟩ := Option.map_eq_some_iff.1 h
      exact congrArg (t :: ·) (ih hs')
    · split at h
      · cases h
        rfl
      · cases h

theorem eq_of_outermost? (h : outermost? ts = some s) : ts = s.left ++ s.sign :: s.right := by
  rcases Option.or_eq_some_iff.1 h with h | ⟨-, h⟩
  · exact eq_of_last? h
  · exact eq_of_last? h

theorem last?_cons_eq_none (ht : depth = 0 → t.kind ∉ kinds)
    (hts : last? kinds (t.nesting depth) ts = none) : last? kinds depth (t :: ts) = none := by
  simpa [last?, hts] using ht

theorem last?_eq_none (h : ∀ t ∈ ts, t.kind ∉ kinds) : last? kinds depth ts = none := by
  induction ts generalizing depth with
  | nil => rfl
  | cons t ts ih =>
    obtain ⟨ht, hts⟩ := List.forall_mem_cons.1 h
    exact last?_cons_eq_none (fun _ => ht) (ih hts)

end Split

open Split (last?)

/-- Behind the tokens as many parentheses and braces stand open as in front of them, and where some
do, nothing in the tokens is outside them. -/
structure Balanced (ts : List Token) : Prop where
  closed : ∀ depth, ts.foldl Token.nesting depth = depth
  hidden : ∀ kinds depth, last? kinds (depth + 1) ts = none

namespace Balanced

variable {kinds : List Token.Kind} {depth : Nat} {o c t : Token} {ts xs ys : List Token}

theorem nil : Balanced [] := ⟨fun _ => rfl, fun _ _ => rfl⟩

theorem single (h : ∀ depth, t.nesting depth = depth) : Balanced [t] :=
  ⟨h, fun _ _ => by simp [last?]⟩

theorem append (hx : Balanced xs) (hy : Balanced ys) : Balanced (xs ++ ys) where
  closed depth := by rw [List.foldl_append, hx.closed, hy.closed]
  hidden kinds depth := by
    rw [Split.last?_append, hx.closed, hy.hidden, hx.hidden]
    rfl

theorem cons (h : ∀ depth, t.nesting depth = depth) (hts : Balanced ts) : Balanced (t :: ts) :=
  (single h).append hts

theorem flatMap {α : Type} {f : α → List Token} {row : List α} (h : ∀ x ∈ row, Balanced (f x)) :
    Balanced (row.flatMap f) := by
  induction row with
  | nil => exact nil
  | cons x row ih =>
    obtain ⟨hx, hrow⟩ := List.forall_mem_cons.1 h
    exact hx.append (ih hrow)

/-- What an opening token and a closing one enclose is not outside of them. -/
theorem last?_enclosed (ho : ∀ depth, o.nesting depth = depth + 1) (h : Balanced ts)
    (hkind : depth = 0 → o.kind ∉ kinds) : last? kinds depth (o :: (ts ++ [c])) = none := by
  refine Split.last?_cons_eq_none hkind ?_
  rw [ho, Split.last?_append, h.closed, h.hidden]
  simp [last?]

theorem enclosed (ho : ∀ depth, o.nesting depth = depth + 1) (h : Balanced ts)
    (hc : ∀ depth, c.nesting depth = depth - 1) : Balanced (o :: (ts ++ [c])) where
  closed depth := by
    rw [List.foldl_cons, List.foldl_append, ho, h.closed]
    exact hc (depth + 1)
  hidden kinds depth := last?_enclosed ho h fun hzero => absurd hzero depth.succ_ne_zero

section Link

variable {sign : Token} {right : List Token}

theorem last?_link (h : Balanced ts) (hs : sign.nesting 0 = 0)
    (hr : last? kinds 0 right = none) (hkind : sign.kind ∈ kinds) :
    last? kinds 0 (ts ++ sign :: right) = some ⟨ts, sign, right⟩ := by
  simp [Split.last?_append, h.closed, last?, hs, hr, hkind, Split.prepend]

theorem last?_link_eq_none (h : Balanced ts) (hs : sign.nesting 0 = 0)
    (hl : last? kinds 0 ts = none) (hr : last? kinds 0 right = none) (hkind : sign.kind ∉ kinds) :
    last? kinds 0 (ts ++ sign :: right) = none := by
  simp [Split.last?_append, h.closed, last?, hs, hl, hr, hkind]

end Link

end Balanced

/-- An expression as operators and what stands between them. Calls keep their arguments as
tokens. -/
inductive Grouping where
  | integer (literal : Token)
  | reference (name : Token)
  | call (name : Token) (arguments : List Token)
  | binary (left : Grouping) (operator : Operator) (sign : Token) (right : Grouping)
deriving DecidableEq

namespace Grouping

/-- Tokens that are not taken apart: an integer, a name, or a name and what is in parentheses. -/
def ofOperand? : List Token → Option Grouping
  | [] => none
  | [t] =>
    match t.kind with
    | .integer => some (.integer t)
    | .identifier => some (.reference t)
    | _ => none
  | name :: opening :: ts =>
    if name.kind = .identifier ∧ opening.kind = .leftParen then some (.call name (opening :: ts))
    else none

/-- Tokens other than white space as operators and what stands between them. -/
def read (ts : List Token) : Option Grouping :=
  match _split : Split.outermost? ts with
  | some s => do
    let left ← read s.left
    let op ← Operator.ofKind? s.sign.kind
    let right ← read s.right
    return .binary left op s.sign right
  | none => ofOperand? ts
termination_by ts.length
decreasing_by
  all_goals
    have hlength := congrArg List.length (Split.eq_of_outermost? _split)
    rw [List.length_append, List.length_cons] at hlength
    omega

variable {ts : List Token}

theorem read_of_outermost? {s : Split} {left right : Grouping} {op : Operator}
    (h : Split.outermost? ts = some s) (hl : read s.left = some left)
    (hop : Operator.ofKind? s.sign.kind = some op) (hr : read s.right = some right) :
    read ts = some (.binary left op s.sign right) := by
  rw [read]
  split
  · obtain rfl := Option.some.inj (h.symm.trans ‹_›)
    simp [hl, hop, hr]
  · simp_all

theorem read_of_outermost?_eq_none (h : Split.outermost? ts = none) : read ts = ofOperand? ts := by
  rw [read]
  split
  · simp_all
  · rfl

example :
    let token (kind : Token.Kind) : Token := ⟨kind, none, default, ""⟩
    let one : Grouping := .integer (token .integer)
    read ([.integer, .minus, .integer, .star, .integer, .minus, .integer].map token) =
      some (.binary (.binary one .subtract (token .minus) (.binary one .multiply (token .star) one))
        .subtract (token .minus) one) := by
  cbv

end Grouping

/-- The grouping of an operand or of operators with their operands. -/
def Expr.grouping? : Expr → Option Grouping
  | .binary _ left op sign right => do
    let left ← left.grouping?
    let right ← right.grouping?
    return .binary left op sign.token right
  | .integer _ literal => some (.integer literal.token)
  | .reference _ name => some (.reference name.token)
  | .call _ name opening arguments closing =>
    some (.call name.token ((opening :: argumentLeavesOnto [closing] arguments).map Leaf.token))
  | .block .. | .bare .. | .statement .. => none

end FunImp
