/-!
# Input

Bytes are text if they are UTF-8. An input that is read line by line is decoded line by line:
lines in front of one that is no text are still read.
-/

namespace FunImp.CommandLine

def decode? (bytes : ByteArray) : Option String := String.fromUTF8? bytes

/-- The lines of bytes behind those of `line`, which are in reverse. A line feed ends a line, and
a carriage return right before it is part of the ending. -/
def splitLinesFrom (line : List UInt8) : List UInt8 → List (List UInt8)
  | [] => if line.isEmpty then [] else [line.reverse]
  | b :: bs =>
    if b = 10 then
      let content := if line.head? = some 13 then line.tail else line
      content.reverse :: splitLinesFrom [] bs
    else splitLinesFrom (b :: line) bs

/-- The lines of an input. The last one may end with the input instead of a line feed. -/
def splitLines (bytes : ByteArray) : List ByteArray :=
  (splitLinesFrom [] bytes.toList).map fun line => ⟨line.toArray⟩

/-- The lines up to the first one that is no text, and whether these are all. -/
def decodeLines : List ByteArray → List String × Bool
  | [] => ([], true)
  | line :: lines =>
    match decode? line with
    | none => ([], false)
    | some text =>
      let (texts, complete) := decodeLines lines
      (text :: texts, complete)

end FunImp.CommandLine
