import FunImp.CommandLine.Run

/-!
# The program

Reads files and the input, lets `CommandLine.run` decide what is to be written, and writes it. An
interactive run is answered line by line.
-/

namespace FunImp.CommandLine

def usage : String :=
  "Checks plume source files\n\nUsage: plumec [OPTIONS] [source file]...\n\nOptions:\n" ++
    "  -v             log more\n  -q             log less\n  -i, --interactive\n" ++
    "      --dump <tokens,cst,ast,types>\n      --time\n      --keep-going\n" ++
    "  -h, --help\n  -V, --version\n"

def emit (chunks : List Chunk) : IO Unit := do
  let out ← IO.getStdout
  let err ← IO.getStderr
  for chunk in chunks do
    match chunk.stream with
    | .out => out.putStr chunk.text
    | .err => err.putStr chunk.text
  out.flush

def emitFatal (messages : List String) : IO Unit := do
  let lines := messages.mapIdx fun i message => "   " ++ toString i ++ ": " ++ message ++ "\n"
  unless messages.isEmpty do
    (← IO.getStderr).putStr ("Error:\n" ++ String.join lines)

def fileError : IO.Error → FileError
  | .noFileOrDirectory .. => .missing
  | .permissionDenied _ code details => coded code details
  | .inappropriateType _ code details => coded code details
  | .invalidArgument _ code details => coded code details
  | e => .other (toString e)
where
  /-- The system numbers its errors, some layers of it below zero. -/
  coded (code : UInt32) (details : String) : FileError :=
    match min code (0 - code) with
    | 2 => .missing
    | 20 => .notDirectory
    | 21 => .isDirectory
    | 36 => .nameTooLong
    | number => .other (details ++ " (os error " ++ toString number ++ ")")

def tryRead (name : String) : IO (Except FileError ByteArray) := do
  try
    return .ok (← IO.FS.readBinFile name)
  catch e => return .error (fileError e)

/-- The value of `f` and the text of how long it took to compute. -/
def timed {α : Type} (f : Unit → α) : IO (α × String) := do
  let before ← IO.monoNanosNow
  let a ← IO.lazyPure f
  let after ← IO.monoNanosNow
  return (a, toString ((after - before) / 1000) ++ "µs")

def measure (options : Options) (source : Source) : IO (List (Phase × String)) := do
  let (tokens, lexing) ← timed fun _ => lex source
  let .ok tokens := tokens | return [(.lexing, lexing)]
  let (tree, parsing) ← timed fun _ => parse tokens source
  let .ok tree := tree | return [(.lexing, lexing), (.parsing, parsing)]
  let (program, lowering) ← timed fun _ => lower tree
  let .ok program := program
    | return [(.lexing, lexing), (.parsing, parsing), (.lowering, lowering)]
  let (_, validation) ← timed fun _ => validate options program
  return [(.lexing, lexing), (.parsing, parsing), (.lowering, lowering),
    (.validation, validation)]

/-- A terminal that knows how long the phases of the sources take, if anyone asks. -/
def terminalFor (colors : Bool) (arguments : Arguments) (sources : List Source) :
    IO Terminal := do
  let mut measured : List (Source × List (Phase × String)) := []
  if arguments.time then
    for source in sources do
      measured := (source, ← measure arguments.options source) :: measured
  let table := measured
  return ⟨colors, fun source phase =>
    ((table.lookup source).bind (·.lookup phase)).getD ""⟩

/-- The bytes up to the next line feed or the end of the input, behind those already `read`. -/
partial def readLine (stdin : IO.FS.Stream) (read : ByteArray) : IO ByteArray := do
  let next ← stdin.read 1
  if next.isEmpty then return read
  else if next.toList = [10] then return read ++ next
  else readLine stdin (read ++ next)

/-- Answers an interactive input line by line; `text` has been entered and not compiled. -/
partial def converse (colors : Bool) (arguments : Arguments) (text : String) : IO UInt32 := do
  let take (turns : List Turn) : IO Unit := do
    for turn in turns do
      let sources : List Source := match turn with
        | .prompt => []
        | .compile text => [⟨"input", text⟩]
      emit (takeTurn (← terminalFor colors arguments sources) arguments turn)
  let line ← readLine (← IO.getStdin) .empty
  let (lines, complete) := decodeLines (splitLines line)
  if !complete then
    emitFatal [notText]
    return 1
  else if lines.isEmpty then
    take (Turn.entered text)
    return 0
  else
    let (turns, text) := Turn.follow text lines
    take turns
    converse colors arguments text

/-- Reads what the arguments name and runs on it. -/
def runSources (colors : Bool) (arguments : Arguments) : IO UInt32 := do
  let mut files : List (String × Except FileError ByteArray) := []
  for name in arguments.files do
    files := (name, ← tryRead name) :: files
  let table := files
  let stdin ← if arguments.files.isEmpty then (← IO.getStdin).readBinToEnd else pure .empty
  let world : World :=
    ⟨fun name => (table.lookup name).getD (.error .missing), stdin⟩
  let sources := match readSources world arguments.files with
    | .ok sources => sources
    | .error _ => []
  let outcome := run (← terminalFor colors arguments sources) arguments world
  emit outcome.chunks
  emitFatal outcome.fatal
  return outcome.code.toUInt32

end FunImp.CommandLine

open FunImp.CommandLine in
def main (args : List String) : IO UInt32 := do
  match Arguments.parse args with
  | .error .displayHelp =>
    emit [⟨.out, usage⟩]
    return 0
  | .error .displayVersion =>
    emit [.outLine "plumec 0.0.0"]
    return 0
  | .error e =>
    emit [.errLine ("error: " ++ e.name), ⟨.err, "\n" ++ usage⟩]
    return e.exitCode.toUInt32
  | .ok arguments =>
    let colors ← (← IO.getStdout).isTty
    if arguments.interactive then
      emit (takeTurn ⟨colors, fun _ _ => ""⟩ arguments .prompt)
      converse colors arguments ""
    else runSources colors arguments
