import FunImp.Compile.Error
import FunImp.Program.OfTree
import FunImp.Tree.Parser
import FunImp.Typing.Validate

/-!
# Compilation

A source passes through four phases, each of which needs the result of the one before. What
happens on the way is told as a list of events: the end of each phase, and its result if it has
one.
-/

namespace FunImp

inductive Phase where
  | lexing
  | parsing
  | lowering
  | validation
deriving DecidableEq

namespace Phase

def name : Phase → String
  | lexing => "lexing"
  | parsing => "parsing"
  | lowering => "lowering"
  | validation => "validation"

end Phase

inductive Event where
  | started (source : Source)
  | finished (source : Source) (phase : Phase)
  | tokens (tokens : List Token)
  | tree (tree : Tree)
  | program (program : Program)
  | typed (program : TypedProgram)

/-- A computation that tells what happens and may fail. -/
abbrev Observed (α : Type) : Type := List Event × Except Cause α

namespace Observed

variable {α β : Type}

/-- The end of a phase. Its result, if there is one, is told and passed on. -/
def phase (source : Source) (phase : Phase) (result : Except Cause α) (told : α → Event)
    (next : α → Observed β) : Observed β :=
  match result with
  | .ok a =>
    let (events, outcome) := next a
    (.finished source phase :: told a :: events, outcome)
  | .error cause => ([.finished source phase], .error cause)

end Observed

def allPhases (options : Options) (source : Source) : Observed TypedProgram :=
  .phase source .lexing ((lex source).mapError .lexing) .tokens fun tokens =>
  .phase source .parsing ((parse tokens source).mapError .parsing) .tree fun tree =>
  .phase source .lowering ((lower tree).mapError .lowering) .program fun program =>
  .phase source .validation ((validate options program).mapError .validation) .typed fun typed =>
  ([], .ok typed)

def compileWithEvents (options : Options) (source : Source) :
    List Event × Except CompileError TypedProgram :=
  let (events, outcome) := allPhases options source
  (.started source :: events, outcome.mapError fun cause => .single cause (some source))

def compile (options : Options) (source : Source) : Except CompileError TypedProgram :=
  (compileWithEvents options source).2

/-- The programs and the errors of sources in order, and what happened. -/
def compileEach (options : Options) :
    List Source → List Event × List TypedProgram × List CompileError
  | [] => ([], [], [])
  | source :: sources =>
    let (events, outcome) := compileWithEvents options source
    let (moreEvents, programs, errors) := compileEach options sources
    match outcome with
    | .ok program => (events ++ moreEvents, program :: programs, errors)
    | .error error => (events ++ moreEvents, programs, error :: errors)

/-- Compiles every source, whether those before it failed or not. One error stands for itself;
several are collected. -/
def compileAll (options : Options) (sources : List Source) :
    List Event × Except CompileError (List TypedProgram) :=
  let (events, programs, errors) := compileEach options sources
  match errors with
  | [] => (events, .ok programs)
  | [error] => (events, .error error)
  | errors => (events, .error (.multi errors none))

end FunImp
