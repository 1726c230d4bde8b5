import FunImp.Text.Span
import FunImp.Text.Quoted
import FunImp.Token.Kind

/-!
# Tokens

A token has a kind, mostly a text, and the place it was read from. Everything that is made of
tokens has a text, the texts of its tokens one after the other, and a span, which leaves white
space out.
-/

namespace FunImp

structure Token where
  kind : Token.Kind
  text : Option String
  span : Span
  source : String
deriving DecidableEq

namespace Token

def isWhitespace (t : Token) : Bool := t.kind = .whitespace

/-- The kind, with the text in quotes where texts of that kind differ. -/
def describe (t : Token) : String :=
  match t.text with
  | some text =>
    if t.kind.textVaries then t.kind.name ++ "(" ++ Quoted.encode text ++ ")" else t.kind.name
  | none => t.kind.name

/-- The token without its place: equal tokens of two texts agree in this. -/
def unplaced (t : Token) : Token :=
  ⟨t.kind, t.text, default, ""⟩

def sourceText (ts : List Token) : String :=
  String.join (ts.filterMap (·.text))

/-- The stretch from the first to the last of the tokens, white space left out. -/
def spanOf (ts : List Token) : Span :=
  Span.joinAll ((ts.filter (!·.isWhitespace)).map (·.span))

end Token

end FunImp
