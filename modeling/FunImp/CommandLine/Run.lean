import FunImp.CommandLine.Dump
import FunImp.CommandLine.Files
import FunImp.CommandLine.Input
import FunImp.CommandLine.Interactive

/-!
# Runs of the program

What a run writes and how it ends, given its arguments, the files it can read and the bytes of its
input. All sources are read before the first one is compiled.
-/

namespace FunImp.CommandLine

/-- How a run ends. A fatal error is a chain of messages, the outermost first. -/
structure Outcome where
  chunks : List Chunk
  code : Nat
  fatal : List String
deriving DecidableEq

/-- What a run can see: the bytes of a file, or why it cannot be read, and the input. -/
structure World where
  file : String → Except FileError ByteArray
  stdin : ByteArray

def notText : String := "stream did not contain valid UTF-8"

def Arguments.options (a : Arguments) : Options := ⟨a.keepGoing⟩

def readFile (world : World) (name : String) : Except (List String) Source :=
  let failure (reason : String) := Except.error ["could not read " ++ Quoted.encode name, reason]
  match world.file name with
  | .error e => failure e.message
  | .ok bytes =>
    match decode? bytes with
    | some text => .ok ⟨name, text⟩
    | none => failure notText

/-- The sources in the files, or the input if there are none. -/
def readSources (world : World) : List String → Except (List String) (List Source)
  | [] =>
    match decode? world.stdin with
    | some text => .ok [⟨"<stdin>", text⟩]
    | none => .error ["could not read source from stdin", notText]
  | names => names.mapM (readFile world)

variable [Console]

def compileSources (terminal : Terminal) (arguments : Arguments) (sources : List Source) :
    Outcome :=
  let (events, outcome) := compileAll arguments.options sources
  let shown := showEvents terminal arguments events
  match outcome with
  | .ok programs =>
    let message := toString programs.length ++ " source(s) are valid"
    ⟨shown ++ logResult terminal arguments message, 0, []⟩
  | .error error => ⟨shown ++ report terminal error, 1, []⟩

def takeTurn (terminal : Terminal) (arguments : Arguments) : Turn → List Chunk
  | .prompt => [.outLine "Enter a program, followed by an empty line:"]
  | .compile text =>
    let (events, outcome) := compileWithEvents arguments.options ⟨"input", text⟩
    let shown := showEvents terminal arguments events
    match outcome with
    | .ok typed =>
      let message := toString typed.program.functions.length ++ " function(s) are valid"
      shown ++ logResult terminal arguments message
    | .error error => shown ++ report terminal error

/-- Takes the turns that the input leads to. Errors in programs are no errors of the run. -/
def interact (terminal : Terminal) (arguments : Arguments) (stdin : ByteArray) : Outcome :=
  let (lines, complete) := decodeLines (splitLines stdin)
  if complete then
    ⟨(Turn.ofLines lines).flatMap (takeTurn terminal arguments), 0, []⟩
  else
    ⟨(Turn.ofBrokenLines lines).flatMap (takeTurn terminal arguments), 1, [notText]⟩

def run (terminal : Terminal) (arguments : Arguments) (world : World) : Outcome :=
  if arguments.interactive then interact terminal arguments world.stdin
  else
    match readSources world arguments.files with
    | .ok sources => compileSources terminal arguments sources
    | .error messages => ⟨[], 1, messages⟩

end FunImp.CommandLine
