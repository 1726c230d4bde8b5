import FunImp.Outline
import FunImp.Tree.Basic

/-!
# Outlines of syntax trees

A node is labelled by its rule and a leaf by its token. White space is left out, in front of
tokens as well as between nodes.
-/

namespace FunImp.Tree

/-- The label of a leaf: the kind of its token and its text, if it has one. -/
def tokenLabel (t : Token) : String :=
  match t.text with
  | some text => "Token " ++ t.kind.name ++ " " ++ text
  | none => "Token " ++ t.kind.name

mutual

def outline (last : Bool) : Tree → List Outline
  | node rule children => [.node rule.name last (forestOutline children)]
  | leaf _ token => [.node (tokenLabel token) last []]
  | blank _ => []

/-- The outlines of children. The last one is the last that is more than white space. -/
def forestOutline : List Tree → List Outline
  | [] => []
  | t :: ts => outline (ts.all isBlank) t ++ forestOutline ts

end

def print (t : Tree) : String := Outline.render (t.outline true)

end FunImp.Tree
