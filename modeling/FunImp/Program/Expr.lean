import FunImp.Program.Separated

/-!
# Expressions

An expression keeps every token it was written with and a number of its own, by which types are
looked up. A function body and an argument is a block or a bare expression; the latter wraps the
one expression that stands there without braces.
-/

namespace FunImp

/-- The number of an expression. -/
abbrev NodeId : Type := Nat

inductive Operator where
  | add
  | subtract
  | multiply
  | divide
deriving DecidableEq

namespace Operator

def symbol : Operator → String
  | add => "+"
  | subtract => "-"
  | multiply => "*"
  | divide => "/"

def ofKind? : Token.Kind → Option Operator
  | .plus => some add
  | .minus => some subtract
  | .star => some multiply
  | .slash => some divide
  | _ => none

end Operator

inductive Expr where
  | block (id : NodeId) (opening : Leaf) (children : List Expr) (closing : Leaf)
  | bare (id : NodeId) (child : Expr)
  | statement (id : NodeId) (child : Expr) (semicolon : Leaf)
  | binary (id : NodeId) (left : Expr) (operator : Operator) (sign : Leaf) (right : Expr)
  | integer (id : NodeId) (literal : Leaf)
  | reference (id : NodeId) (name : Leaf)
  | call (id : NodeId) (name : Leaf) (opening : Leaf) (arguments : List (Expr × Option Leaf))
      (closing : Leaf)

namespace Expr

def id : Expr → NodeId
  | block id .. => id
  | bare id _ => id
  | statement id .. => id
  | binary id .. => id
  | integer id _ => id
  | reference id _ => id
  | call id .. => id

def isStatement : Expr → Bool
  | statement .. => true
  | _ => false

mutual

/-- The leaves of an expression in front of those that follow it. -/
def leavesOnto (following : List Leaf) : Expr → List Leaf
  | block _ opening children closing => opening :: allLeavesOnto (closing :: following) children
  | bare _ child => leavesOnto following child
  | statement _ child semicolon => leavesOnto (semicolon :: following) child
  | binary _ left _ sign right => leavesOnto (sign :: leavesOnto following right) left
  | integer _ literal => literal :: following
  | reference _ name => name :: following
  | call _ name opening arguments closing =>
    name :: opening :: argumentLeavesOnto (closing :: following) arguments

def allLeavesOnto (following : List Leaf) : List Expr → List Leaf
  | [] => following
  | e :: es => leavesOnto (allLeavesOnto following es) e

def argumentLeavesOnto (following : List Leaf) : Separated Expr → List Leaf
  | [] => following
  | (e, separator) :: rest =>
    leavesOnto (separator.toList ++ argumentLeavesOnto following rest) e

end

def leaves (e : Expr) : List Leaf := leavesOnto [] e

def tokens (e : Expr) : List Token := e.leaves.flatMap Leaf.tokens

def sourceText (e : Expr) : String := Token.sourceText e.tokens

def span (e : Expr) : Span := Token.spanOf e.tokens

mutual

/-- The expression with its leaves replaced one by one. -/
def mapLeaves (f : Leaf → Leaf) : Expr → Expr
  | block id opening children closing =>
    block id (f opening) (mapAllLeaves f children) (f closing)
  | bare id child => bare id (mapLeaves f child)
  | statement id child semicolon => statement id (mapLeaves f child) (f semicolon)
  | binary id left operator sign right =>
    binary id (mapLeaves f left) operator (f sign) (mapLeaves f right)
  | integer id literal => integer id (f literal)
  | reference id name => reference id (f name)
  | call id name opening arguments closing =>
    call id (f name) (f opening) (mapArgumentLeaves f arguments) (f closing)

def mapAllLeaves (f : Leaf → Leaf) : List Expr → List Expr
  | [] => []
  | e :: es => mapLeaves f e :: mapAllLeaves f es

def mapArgumentLeaves (f : Leaf → Leaf) : Separated Expr → Separated Expr
  | [] => []
  | (e, separator) :: rest => (mapLeaves f e, separator.map f) :: mapArgumentLeaves f rest

end

mutual

/-- Whether two expressions have the same shape, numbers and leaves, wherever they stand. -/
def alike : Expr → Expr → Bool
  | block i o cs c, block i' o' cs' c' =>
    i = i' && o.unplaced = o'.unplaced && allAlike cs cs' && c.unplaced = c'.unplaced
  | bare i e, bare i' e' => i = i' && alike e e'
  | statement i e s, statement i' e' s' => i = i' && alike e e' && s.unplaced = s'.unplaced
  | binary i l op s r, binary i' l' op' s' r' =>
    i = i' && alike l l' && op = op' && s.unplaced = s'.unplaced && alike r r'
  | integer i l, integer i' l' => i = i' && l.unplaced = l'.unplaced
  | reference i l, reference i' l' => i = i' && l.unplaced = l'.unplaced
  | call i n o xs c, call i' n' o' xs' c' =>
    i = i' && n.unplaced = n'.unplaced && o.unplaced = o'.unplaced && argumentsAlike xs xs' &&
      c.unplaced = c'.unplaced
  | _, _ => false

def allAlike : List Expr → List Expr → Bool
  | [], [] => true
  | e :: es, e' :: es' => alike e e' && allAlike es es'
  | _, _ => false

def argumentsAlike : Separated Expr → Separated Expr → Bool
  | [], [] => true
  | (e, s) :: rest, (e', s') :: rest' =>
    alike e e' && s.map Leaf.unplaced = s'.map Leaf.unplaced && argumentsAlike rest rest'
  | _, _ => false

end

end Expr

end FunImp
