import FunImp.Diagnostic.Basic

/-!
# Diagnostics in color

The same drawing as a sequence of fragments, some of which have a style. How a text is shown in a
style is a matter of the painter.
-/

namespace FunImp

inductive Style where
  | redBold
  | blueBold
  | bold
  | dimmed
  | cyan
deriving DecidableEq

/-- What shows a text in a style, where colors are on and where they are off. -/
class Painter where
  paint : (colors : Bool) → Style → String → String

structure Fragment where
  style : Option Style
  text : String
deriving DecidableEq

namespace Fragment

def unstyled (text : String) : Fragment := ⟨none, text⟩

def styled (style : Style) (text : String) : Fragment := ⟨some style, text⟩

variable [Painter]

def render (colors : Bool) (f : Fragment) : String :=
  match f.style with
  | some style => Painter.paint colors style f.text
  | none => f.text

def renderAll (colors : Bool) (fs : List Fragment) : String :=
  String.join (fs.map (render colors))

end Fragment

namespace Diagnostic

open Fragment

/-- The drawing of the diagnostic, piece by piece. -/
def fragments (d : Diagnostic) : List Fragment :=
  let row := toString d.span.start.row
  let gutter := repeated row.length ' ' ++ " |"
  [styled .redBold "error", styled .bold (": " ++ d.message), unstyled "\n",
   unstyled "  ", styled .blueBold "->", unstyled (" " ++ d.location ++ "\n"),
   styled .blueBold gutter, unstyled "\n",
   styled .blueBold (row ++ " |"), unstyled (" " ++ trimEnd d.line ++ "\n"),
   styled .blueBold gutter, unstyled " ", styled .redBold d.underline]

def colored [Painter] (d : Diagnostic) (colors : Bool) : String :=
  Fragment.renderAll colors d.fragments

end Diagnostic

end FunImp
