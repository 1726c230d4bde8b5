import FunImp.Token.Basic

/-!
# Leaves

The grammar does not speak of white space. `Leaf.gather` therefore hangs each run of it onto
the token that follows, and what stands behind the last token is handed back on its own.
-/

namespace FunImp

/-- A token and the white space right before it. -/
structure Leaf where
  leading : List Token
  token : Token
deriving DecidableEq

namespace Leaf

def kind (l : Leaf) : Token.Kind := l.token.kind

def text (l : Leaf) : String := l.token.text.getD ""

def tokens (l : Leaf) : List Token := l.leading ++ [l.token]

def span (l : Leaf) : Span := Token.spanOf l.tokens

def bare (l : Leaf) : Leaf := ⟨[], l.token.unplaced⟩

/-- The same leaf wherever it stands; white space before it still counts. -/
def unplaced (l : Leaf) : Leaf := ⟨l.leading.map Token.unplaced, l.token.unplaced⟩

/-- `gather` in the middle of its work: `leading` and `done` are in reverse. -/
def gatherOnto (leading : List Token) (done : List Leaf) : List Token → List Leaf × List Token
  | [] => (done.reverse, leading.reverse)
  | t :: ts =>
    if t.isWhitespace then gatherOnto (t :: leading) done ts
    else gatherOnto [] (⟨leading.reverse, t⟩ :: done) ts

/-- The tokens as leaves, and the white space behind the last leaf. -/
def gather (ts : List Token) : List Leaf × List Token :=
  gatherOnto [] [] ts

end Leaf

end FunImp
