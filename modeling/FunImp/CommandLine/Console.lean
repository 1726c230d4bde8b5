import FunImp.Diagnostic.Colored

/-!
# Consoles

Painting texts and logging results is left to a console, and nothing in the program depends on how
it is done. The one it runs on by default is a terminal with escape sequences.
-/

namespace FunImp

/-- Characters that a terminal obeys and does not show. They end with the first `m`. -/
structure EscapeSequence where
  parameters : List Char
  closed : 'm' ∉ parameters := by decide

def EscapeSequence.text (e : EscapeSequence) : String :=
  .ofList ('\x1b' :: '[' :: e.parameters ++ ['m'])

namespace CommandLine

/-- A painter that also writes the log line of a result. -/
class Console extends Painter where
  log : (colors : Bool) → (message : String) → String

namespace Console

def opening : Style → EscapeSequence
  | .redBold => { parameters := ['9', '1', ';', '1'] }
  | .blueBold => { parameters := ['9', '4', ';', '1'] }
  | .bold => { parameters := ['1'] }
  | .dimmed => { parameters := ['2'] }
  | .cyan => { parameters := ['9', '6'] }

/-- Takes a style back; of cyan, only the color. -/
def reset : Style → EscapeSequence
  | .cyan => { parameters := ['3', '9'] }
  | _ => { parameters := ['0'] }

instance : Console where
  paint colors style text :=
    if colors then (opening style).text ++ text ++ (reset style).text else text
  log colors message :=
    if colors then "\x1b[32m INFO\x1b[0m \x1b[2mplumec\x1b[0m\x1b[2m:\x1b[0m " ++ message
    else " INFO plumec: " ++ message

end Console

end CommandLine

end FunImp
