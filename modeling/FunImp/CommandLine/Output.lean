import FunImp.CommandLine.Arguments
import FunImp.CommandLine.Console
import FunImp.Compile.Pipeline

/-!
# Output

What the program writes, piece by piece, each to one of its two streams.
-/

namespace FunImp.CommandLine

inductive Stream where
  | out
  | err
deriving DecidableEq

structure Chunk where
  stream : Stream
  text : String
deriving DecidableEq

namespace Chunk

def written (stream : Stream) (chunks : List Chunk) : String :=
  String.join ((chunks.filter (·.stream = stream)).map (·.text))

def outLine (text : String) : Chunk := ⟨.out, text ++ "\n"⟩

def errLine (text : String) : Chunk := ⟨.err, text ++ "\n"⟩

end Chunk

/-- How the program writes: in color or not, and how long the phases of a source took. -/
structure Terminal where
  colors : Bool
  elapsed : Source → Phase → String

def alignRight (width : Nat) (text : String) : String :=
  .ofList (List.replicate (width - text.length) ' ') ++ text

variable [Console]

def logResult (terminal : Terminal) (arguments : Arguments) (message : String) : List Chunk :=
  if arguments.level.logsInfo then [.outLine (Console.log terminal.colors message)] else []

/-- The diagnostics of an error, or its message if it has none. -/
def report (terminal : Terminal) (error : CompileError) : List Chunk :=
  match error.diagnostics with
  | [] => [.errLine error.message]
  | diagnostics => diagnostics.map fun d => .errLine (d.colored terminal.colors ++ "\n")

end FunImp.CommandLine
