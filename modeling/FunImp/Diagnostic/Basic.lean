import FunImp.Text.Source
import FunImp.Text.WhiteSpace

/-!
# Diagnostics

What is wrong, where, and the line it is wrong in. The plain rendering draws the line with the
faulty stretch underlined; a stretch of no width gets an arrow to its place instead.
-/

namespace FunImp

structure Diagnostic where
  message : String
  source : String
  line : String
  span : Span
deriving DecidableEq

namespace Diagnostic

/-- The diagnostic of `message` at `span`, which is looked up in `source`. -/
def locate (source : Source) (message : String) (span : Span) : Diagnostic :=
  ⟨message, source.id, source.lineAt span.start.offset, span⟩

/-- How many characters are underlined. A stretch of several rows is underlined to the end of
its first line, for at least one character. -/
def underlineLength (d : Diagnostic) : Nat :=
  if d.span.start.row = d.span.stop.row then d.span.stop.column - d.span.start.column
  else max 1 (d.line.toList.length - (d.span.start.column - 1))

def repeated (n : Nat) (c : Char) : String := .ofList (List.replicate n c)

/-- What stands under the line: strokes up to an arrow, or blanks up to the underlined part. -/
def underline (d : Diagnostic) : String :=
  let skipped := d.span.start.column - 1
  match d.underlineLength with
  | 0 => repeated skipped '-' ++ "^"
  | width => repeated skipped ' ' ++ repeated width '~'

def location (d : Diagnostic) : String :=
  d.source ++ ":" ++ d.span.start.render

def plainLines (d : Diagnostic) : List String :=
  let row := toString d.span.start.row
  let gutter := repeated row.length ' '
  ["error: " ++ d.message,
   "  -> " ++ d.location,
   gutter ++ " |",
   row ++ " | " ++ trimEnd d.line,
   gutter ++ " | " ++ d.underline]

def plain (d : Diagnostic) : String :=
  "\n".intercalate d.plainLines

end Diagnostic

end FunImp
