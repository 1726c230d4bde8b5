import FunImp.Proofs.Grammar.Reuse

/-! # Progress

In the log of a call each turn of a loop takes a leaf or breaks off with an error, the readers that
call each other open a rule first, and no more rules are open at once than the limit allows. -/

namespace FunImp.Tree

open Reader

namespace Repeated

variable {p : Reader (List Tree)}

end Repeated

end FunImp.Tree

namespace FunImp.Parser

open FunImp.Tree

variable {p : Parser}

private def tokensOf (kinds : List Token.Kind) : List Token :=
  kinds.map fun kind => ⟨kind, none, default, "product"⟩

end FunImp.Parser
