import FunImp.Token.Leaf

/-!
# Separated lists

Things in a row, each with the separator that follows it, if one does. A separator may be
missing anywhere, and one may stand behind the last thing.
-/

namespace FunImp

/-- Things and the separators behind them. -/
abbrev Separated (α : Type) : Type := List (α × Option Leaf)

namespace Separated

variable {α : Type}

def items (xs : Separated α) : List α := xs.map (·.1)

def tokens (tokensOf : α → List Token) (xs : Separated α) : List Token :=
  xs.flatMap fun (x, separator) => tokensOf x ++ separator.toList.flatMap Leaf.tokens

end Separated

end FunImp
