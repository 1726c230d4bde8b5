import FunImp.Text.Source
import FunImp.Token.Basic

/-!
# Tokens of a text

The longest word, number or run of white space at the front of the text is its next token, and
so is a single character of punctuation. Any other character is a stray: it is reported, and
reading goes on behind it. At the end stands one token that has no text.
-/

namespace FunImp

structure StrayCharacter where
  character : Char
  span : Span
deriving DecidableEq

namespace StrayCharacter

def message (e : StrayCharacter) : String :=
  "Unrecognized character: '" ++ e.character.toString ++ "'"

end StrayCharacter

namespace Lexer

/-- The white space between tokens. -/
def isBlank (c : Char) : Bool := c = ' ' || c = '\n'

/-- A token as the characters it is made of. -/
structure Lexeme where
  kind : Token.Kind
  chars : List Char
deriving DecidableEq

/-- The longest token at the front and what is left behind it. Letters and digits are those of
ASCII. -/
def munch : List Char → Option (Lexeme × List Char)
  | [] => none
  | c :: cs =>
    if isBlank c then
      some (⟨.whitespace, c :: cs.takeWhile isBlank⟩, cs.dropWhile isBlank)
    else if c.isAlpha then
      let word := c :: cs.takeWhile Char.isAlphanum
      some (⟨(Token.Kind.ofKeyword? (.ofList word)).getD .identifier, word⟩,
        cs.dropWhile Char.isAlphanum)
    else if c.isDigit then
      some (⟨.integer, c :: cs.takeWhile Char.isDigit⟩, cs.dropWhile Char.isDigit)
    else
      (Token.Kind.ofPunctuation? c).map fun kind => (⟨kind, [c]⟩, cs)

theorem length_dropWhile_le (p : Char → Bool) (cs : List Char) :
    (cs.dropWhile p).length ≤ cs.length :=
  (List.dropWhile_suffix p).length_le

theorem munch_shorter {cs rest : List Char} {l : Lexeme} (h : munch cs = some (l, rest)) :
    rest.length < cs.length := by
  cases cs with
  | nil => simp [munch] at h
  | cons c cs =>
    have drop (p : Char → Bool) : (cs.dropWhile p).length < (c :: cs).length :=
      Nat.lt_succ_of_le (length_dropWhile_le p cs)
    simp only [munch] at h
    split at h
    · cases h; exact drop _
    · split at h
      · cases h; exact drop _
      · split at h
        · cases h; exact drop _
        · obtain ⟨kind, -, h⟩ := Option.map_eq_some_iff.1 h
          cases h; simp

inductive Item where
  | token (token : Token)
  | stray (error : StrayCharacter)
deriving DecidableEq

namespace Item

def span : Item → Span
  | token t => t.span
  | stray e => e.span

def token? : Item → Option Token
  | token t => some t
  | stray _ => none

def stray? : Item → Option StrayCharacter
  | token _ => none
  | stray e => some e

end Item

/-- The items of the characters that start at `p`. -/
def itemsFrom (id : String) (p : Position) (cs : List Char) : List Item :=
  match _munched : munch cs with
  | some (l, rest) =>
    .token ⟨l.kind, some (.ofList l.chars), .covering p l.chars, id⟩ ::
      itemsFrom id (p.after l.chars) rest
  | none =>
    match cs with
    | [] => [.token ⟨.eof, none, .point p, id⟩]
    | c :: rest => .stray ⟨c, .covering p [c]⟩ :: itemsFrom id (p.advance c) rest
termination_by cs.length
decreasing_by
  · exact munch_shorter _munched
  · simp

def items (source : Source) : List Item :=
  itemsFrom source.id .origin source.chars

end Lexer

/-- Why a source could not be split into tokens: `first` and the stray characters after it. -/
structure LexErrors where
  first : StrayCharacter
  others : List StrayCharacter
deriving DecidableEq

namespace LexErrors

def toList (e : LexErrors) : List StrayCharacter := e.first :: e.others

def message (e : LexErrors) : String :=
  toString e.toList.length ++ " unrecognized character(s), first " ++ e.first.message ++ " at " ++
    e.first.span.start.render

end LexErrors

/-- The tokens of a source, white space and the end included, or all its stray characters. -/
def lex (source : Source) : Except LexErrors (List Token) :=
  let items := Lexer.items source
  match items.filterMap Lexer.Item.stray? with
  | [] => .ok (items.filterMap Lexer.Item.token?)
  | first :: others => .error ⟨first, others⟩

end FunImp
