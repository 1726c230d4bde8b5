/-!
# Command line arguments

Arguments are read from left to right. A value is checked when the next option that is known is
met, or at the end, so that an unknown option is reported before a wrong value right in front
of it. Which options exclude each other is checked last.
-/

namespace FunImp.CommandLine

inductive Dump where
  | tokens
  | cst
  | ast
  | types
deriving DecidableEq

namespace Dump

def name : Dump → String
  | tokens => "Tokens"
  | cst => "Cst"
  | ast => "Ast"
  | types => "Types"

def ofValue? : String → Option Dump
  | "tokens" => some tokens
  | "cst" => some cst
  | "ast" => some ast
  | "types" => some types
  | _ => none

end Dump

inductive Level where
  | off
  | error
  | info
  | debug
  | trace
deriving DecidableEq

namespace Level

def name : Level → String
  | off => "off"
  | error => "error"
  | info => "info"
  | debug => "debug"
  | trace => "trace"

def ofCounts (verbose quiet : Nat) : Level :=
  match verbose - quiet, quiet - verbose with
  | 0, 0 => info
  | 0, 1 => error
  | 0, _ => off
  | 1, _ => debug
  | _, _ => trace

def logsInfo : Level → Bool
  | off => false
  | error => false
  | _ => true

end Level

structure Arguments where
  files : List String
  interactive : Bool
  time : Bool
  keepGoing : Bool
  dumps : List Dump
  verbose : Nat
  quiet : Nat
deriving DecidableEq

namespace Arguments

def none : Arguments := ⟨[], false, false, false, [], 0, 0⟩

def level (a : Arguments) : Level := .ofCounts a.verbose a.quiet

end Arguments

inductive ArgumentError where
  | displayHelp
  | displayVersion
  | invalidValue
  | unknownArgument
  | tooManyValues
  | valueValidation
  | argumentConflict
deriving DecidableEq

namespace ArgumentError

def name : ArgumentError → String
  | displayHelp => "DisplayHelp"
  | displayVersion => "DisplayVersion"
  | invalidValue => "InvalidValue"
  | unknownArgument => "UnknownArgument"
  | tooManyValues => "TooManyValues"
  | valueValidation => "ValueValidation"
  | argumentConflict => "ArgumentConflict"

/-- How the program ends. Who asks for help or for the version gets what they asked for. -/
def exitCode : ArgumentError → Nat
  | displayHelp => 0
  | displayVersion => 0
  | _ => 2

end ArgumentError

inductive Flag where
  | help
  | version
  | interactive
  | time
  | keepGoing
  | verbose
  | quiet
deriving DecidableEq

namespace Flag

def ofLong? : String → Option Flag
  | "help" => some help
  | "version" => some version
  | "interactive" => some interactive
  | "time" => some time
  | "keep-going" => some keepGoing
  | _ => none

def ofShort? : Char → Option Flag
  | 'h' => some help
  | 'V' => some version
  | 'i' => some interactive
  | 'v' => some verbose
  | 'q' => some quiet
  | _ => none

/-- Raises the flag. The counted ones count to two; the others are raised once. -/
def raise (a : Arguments) : Flag → Except ArgumentError Arguments
  | help => .error .displayHelp
  | version => .error .displayVersion
  | interactive =>
    if a.interactive then .error .argumentConflict else .ok { a with interactive := true }
  | time => if a.time then .error .argumentConflict else .ok { a with time := true }
  | keepGoing =>
    if a.keepGoing then .error .argumentConflict else .ok { a with keepGoing := true }
  | verbose =>
    if a.verbose = 2 then .error .valueValidation else .ok { a with verbose := a.verbose + 1 }
  | quiet => if a.quiet = 2 then .error .valueValidation else .ok { a with quiet := a.quiet + 1 }

end Flag

/-- Values that have been met but not checked: those of a dump option, which needs one, or
files. -/
inductive Pending where
  | nothing
  | dump (value : Option String)
  | files (names : List String)
deriving DecidableEq

structure Progress where
  arguments : Arguments
  pending : Pending
deriving DecidableEq

namespace Progress

def addDumps (a : Arguments) (value : String) : Except ArgumentError Arguments := do
  let dumps ← (value.splitOn ",").mapM fun v =>
    match Dump.ofValue? v with
    | some d => Except.ok d
    | none => .error .invalidValue
  return { a with dumps := a.dumps ++ dumps }

/-- Checks the pending values and takes them in. -/
def settle (p : Progress) : Except ArgumentError Arguments :=
  match p.pending with
  | .nothing => .ok p.arguments
  | .dump none => .error .invalidValue
  | .dump (some value) => addDumps p.arguments value
  | .files names =>
    if "" ∈ names then .error .invalidValue
    else .ok { p.arguments with files := p.arguments.files ++ names }

def raise (p : Progress) (flag : Flag) : Except ArgumentError Progress := do
  let arguments ← p.settle
  return ⟨← flag.raise arguments, .nothing⟩

/-- An option that starts with two dashes, behind them. -/
def long (p : Progress) (option : List Char) : Except ArgumentError Progress :=
  let name := String.ofList (option.takeWhile (· ≠ '='))
  let value :=
    match option.dropWhile (· ≠ '=') with
    | [] => none
    | _ :: value => some (String.ofList value)
  if name = "dump" then do
    let arguments ← p.settle
    match value with
    | some value => return ⟨← addDumps arguments value, .nothing⟩
    | none => return ⟨arguments, .dump none⟩
  else
    match Flag.ofLong? name, value with
    | none, _ => .error .unknownArgument
    | some _, some _ => .error .tooManyValues
    | some flag, none => p.raise flag

/-- Options of one letter each behind a single dash. -/
def short (p : Progress) : List Char → Except ArgumentError Progress
  | [] => .ok p
  | c :: cs =>
    match Flag.ofShort? c with
    | none => .error .unknownArgument
    | some flag => do
      let p ← p.raise flag
      p.short cs

def value (p : Progress) (v : String) : Except ArgumentError Progress :=
  match p.pending with
  | .dump none => .ok { p with pending := .dump (some v) }
  | .files names => .ok { p with pending := .files (names ++ [v]) }
  | _ => do
    let arguments ← p.settle
    return ⟨arguments, .files [v]⟩

/-- A file, even where an option waits for a value. -/
def file (p : Progress) (name : String) : Except ArgumentError Progress :=
  match p.pending with
  | .files names => .ok { p with pending := .files (names ++ [name]) }
  | _ => do
    let arguments ← p.settle
    return ⟨arguments, .files [name]⟩

def readFiles (p : Progress) : List String → Except ArgumentError Progress
  | [] => .ok p
  | name :: rest => do
    let p ← p.file name
    p.readFiles rest

/-- Options and files; behind two dashes alone there are files only. -/
def read (p : Progress) : List String → Except ArgumentError Progress
  | [] => .ok p
  | arg :: rest =>
    match arg.toList with
    | ['-', '-'] => p.readFiles rest
    | '-' :: '-' :: option => do
      let p ← p.long option
      p.read rest
    | '-' :: c :: cs => do
      let p ← p.short (c :: cs)
      p.read rest
    | _ => do
      let p ← p.value arg
      p.read rest

end Progress

namespace Arguments

def parse (args : List String) : Except ArgumentError Arguments := do
  let progress ← Progress.read ⟨none, .nothing⟩ args
  let a ← progress.settle
  if (a.verbose ≠ 0 ∧ a.quiet ≠ 0) ∨ (a.interactive ∧ a.files ≠ []) then
    throw .argumentConflict
  return a

end Arguments

end FunImp.CommandLine
