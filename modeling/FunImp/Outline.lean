/-!
# Outlines

A tree written one node per line. Each line is drawn behind the strokes of the nodes around it:
`|` where the branch of a node goes on below, nothing where its last child was reached. Whether
a node is the last one is its own label, so that a list of roots can be drawn as well.
-/

namespace FunImp

/-- A node to be drawn: its label, whether it is drawn as a last child, and its children. -/
inductive Outline where
  | node (label : String) (last : Bool) (children : List Outline)

namespace Outline

def branch (last : Bool) : String := if last then "\\-" else "|-"

/-- What the stroke leaves in front of the lines below it. -/
def margin (last : Bool) : String := if last then "  " else "| "

mutual

/-- The lines of a node behind `indent`, in front of the lines `below` it. -/
def linesOnto (indent : String) (below : List String) : Outline → List String
  | node label last children =>
    (indent ++ branch last ++ label) ::
      forestLinesOnto (indent ++ margin last) below children

/-- The lines of the nodes behind `indent`, in front of the lines `below` them. -/
def forestLinesOnto (indent : String) (below : List String) : List Outline → List String
  | [] => below
  | o :: os => linesOnto indent (forestLinesOnto indent below os) o

end

/-- One line per node, each node before its children. -/
def lines (roots : List Outline) : List String :=
  forestLinesOnto "" [] roots

def render (roots : List Outline) : String :=
  String.join ((lines roots).map (· ++ "\n"))

end Outline

end FunImp
