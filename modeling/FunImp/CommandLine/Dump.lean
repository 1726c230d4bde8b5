import FunImp.CommandLine.Output
import FunImp.Program.Outline
import FunImp.Tree.Outline

/-!
# Dumps

Intermediate results are written as they come, each under a heading, and below the name of the
source that they belong to. Timings go to the error output.
-/

namespace FunImp.CommandLine

variable [Console]

def heading (terminal : Terminal) (dump : Dump) : Chunk :=
  .outLine (Painter.paint terminal.colors .cyan ("== " ++ dump.name ++ " =="))

def dumped (terminal : Terminal) (arguments : Arguments) (dump : Dump) (lines : List Chunk) :
    List Chunk :=
  if dump ∈ arguments.dumps then heading terminal dump :: lines else []

def tokenLine (t : Token) : Chunk :=
  .outLine (alignRight 8 t.span.start.render ++ " " ++ t.describe)

def functionLine (types : TypeTable) (f : FunctionDecl) : Chunk :=
  .outLine (f.purity.keyword ++ " " ++ f.name.text ++ ": " ++
    (types[f.body.id]?.map (·.name)).getD "")

def typeLine (id : NodeId) (ty : Ty) : Chunk :=
  .outLine ("  " ++ alignRight 5 ("#" ++ toString id) ++ " " ++ ty.name)

def timingLine (terminal : Terminal) (source : Source) (phase : Phase) : Chunk :=
  .errLine (Painter.paint terminal.colors .dimmed
    (alignRight 10 phase.name ++ " took " ++ terminal.elapsed source phase))

/-- What is written for an event. -/
def showEvent (terminal : Terminal) (arguments : Arguments) : Event → List Chunk
  | .started source =>
    if arguments.dumps ≠ [] ∨ arguments.time then
      [.outLine (Painter.paint terminal.colors .bold source.id)]
    else []
  | .finished source phase =>
    if arguments.time then [timingLine terminal source phase] else []
  | .tokens tokens => dumped terminal arguments .tokens (tokens.map tokenLine)
  | .tree tree => dumped terminal arguments .cst [.outLine tree.print]
  | .program program => dumped terminal arguments .ast [.outLine program.print]
  | .typed typed =>
    dumped terminal arguments .types
      (typed.program.functions.map (functionLine typed.types) ++
        typed.types.toList.map fun (id, ty) => typeLine id ty)

def showEvents (terminal : Terminal) (arguments : Arguments) (events : List Event) : List Chunk :=
  events.flatMap (showEvent terminal arguments)

end FunImp.CommandLine
