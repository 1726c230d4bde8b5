/-!
# White space

The characters with the Unicode property White_Space, and what is left of a line once they are
taken off its end.
-/

namespace FunImp

/-- The characters with the Unicode property White_Space: 25 in all. -/
def isWhiteSpace (c : Char) : Bool :=
  let n := c.toNat
  (9 ≤ n && n ≤ 13) || n == 0x20 || n == 0x85 || n == 0xa0 || n == 0x1680 ||
    (0x2000 ≤ n && n ≤ 0x200a) || n == 0x2028 || n == 0x2029 || n == 0x202f || n == 0x205f ||
    n == 0x3000

def trimEnd (line : String) : String :=
  .ofList (line.toList.reverse.dropWhile isWhiteSpace).reverse

def isBlankLine (line : String) : Bool :=
  line.toList.all isWhiteSpace

end FunImp
