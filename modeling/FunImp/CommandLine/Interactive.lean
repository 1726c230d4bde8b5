import FunImp.Text.WhiteSpace

/-!
# Interactive input

Programs are entered line by line. A blank line ends a program, and so does the end of the input;
the program asks for the next one after each blank line, even if nothing stood before it.
-/

namespace FunImp.CommandLine

/-- What the program does in turn: ask for a program, or compile the one that was entered. -/
inductive Turn where
  | prompt
  | compile (text : String)
deriving DecidableEq

namespace Turn

def entered (text : String) : List Turn :=
  if text = "" then [] else [compile text]

def ofLine (text line : String) : List Turn × String :=
  if isBlankLine line then (entered text ++ [prompt], "") else ([], text ++ line ++ "\n")

/-- What the lines lead to, behind the text entered before them, and the text that is left. -/
def follow (text : String) : List String → List Turn × String
  | [] => ([], text)
  | line :: lines =>
    let (turns, text) := ofLine text line
    let (more, text) := follow text lines
    (turns ++ more, text)

/-- The turns of an input that breaks off behind the lines, in the middle of another one. -/
def ofBrokenLines (lines : List String) : List Turn :=
  prompt :: (follow "" lines).1

/-- The turns of an input that ends behind the lines. What was entered last is compiled. -/
def ofLines (lines : List String) : List Turn :=
  let (turns, text) := follow "" lines
  prompt :: turns ++ entered text

end Turn

end FunImp.CommandLine
