import FunImp.Text.Quoted
import FunImp.Text.Span

/-!
# Sources

A source is a text under a name. Offsets into it count bytes of UTF-8, and an offset may fall
inside a character: `seek` then stops in front of that character.
-/

namespace FunImp

/-- Moves the characters that lie wholly in the next `n` bytes from the front of the second list
to the front of the first, which thus holds what was passed in reverse. -/
def seek : Nat → List Char → List Char → List Char × List Char
  | _, passed, [] => (passed, [])
  | n, passed, c :: cs =>
    if c.utf8Size ≤ n then seek (n - c.utf8Size) (c :: passed) cs else (passed, c :: cs)

/-- A text and the name that messages call it by. -/
structure Source where
  id : String
  text : String
deriving DecidableEq

namespace Source

def chars (s : Source) : List Char := s.text.toList

def finish (s : Source) : Span := .point (.ofText s.chars)

/-- The line that holds the offset, without its line feed, which belongs to the line it ends.
An offset behind the text is in the last line. -/
def lineAt (s : Source) (offset : Nat) : String :=
  let (passed, coming) := seek offset [] s.chars
  .ofList ((passed.takeWhile (· ≠ '\n')).reverse ++ coming.takeWhile (· ≠ '\n'))

/-- The characters of a span, if it lies in the text and splits no character. -/
def slice (s : Source) (span : Span) : Option String :=
  let (passed, coming) := seek span.start.offset [] s.chars
  let (covered, _) := seek span.length [] coming
  if byteLength passed = span.start.offset ∧ byteLength covered = span.length then
    some (.ofList covered.reverse)
  else none

def describe (s : Source) : String :=
  "Source \x7b id: " ++ Quoted.encode s.id ++ ", len: " ++ toString (byteLength s.chars) ++ " \x7d"

end Source

end FunImp
