/-!
# Kinds of tokens

What a token can be, how messages speak of it, and how a character or a word decides it.
-/

namespace FunImp.Token

inductive Kind where
  | identifier
  | integer
  | eof
  | plus
  | minus
  | star
  | slash
  | leftParen
  | rightParen
  | leftBrace
  | rightBrace
  | assign
  | semicolon
  | comma
  | colon
  | imp
  | fn
  | whitespace
deriving DecidableEq

namespace Kind

def name : Kind → String
  | identifier => "Identifier"
  | integer => "Integer"
  | eof => "Eof"
  | plus => "Plus"
  | minus => "Minus"
  | star => "Star"
  | slash => "Div"
  | leftParen => "LParen"
  | rightParen => "RParen"
  | leftBrace => "LCurly"
  | rightBrace => "RCurly"
  | assign => "Assign"
  | semicolon => "SemiColon"
  | comma => "Comma"
  | colon => "Colon"
  | imp => "Imp"
  | fn => "Fun"
  | whitespace => "Whitespace"

def description : Kind → String
  | identifier => "identifier"
  | integer => "integer"
  | eof => "end of input"
  | plus => "'+'"
  | minus => "'-'"
  | star => "'*'"
  | slash => "'/'"
  | leftParen => "'('"
  | rightParen => "')'"
  | leftBrace => "'\x7b'"
  | rightBrace => "'\x7d'"
  | assign => "'='"
  | semicolon => "';'"
  | comma => "','"
  | colon => "':'"
  | imp => "'imp'"
  | fn => "'fun'"
  | whitespace => "whitespace"

/-- The kind of the token that the character alone makes up. -/
def ofPunctuation? : Char → Option Kind
  | '+' => some plus
  | '-' => some minus
  | '*' => some star
  | '/' => some slash
  | '(' => some leftParen
  | ')' => some rightParen
  | '\x7b' => some leftBrace
  | '\x7d' => some rightBrace
  | '=' => some assign
  | ';' => some semicolon
  | ',' => some comma
  | ':' => some colon
  | _ => none

/-- The keyword that the word is. Any other word is an identifier. -/
def ofKeyword? (word : String) : Option Kind :=
  if word = "imp" then some imp else if word = "fun" then some fn else none

def textVaries (kind : Kind) : Bool :=
  kind = identifier || kind = integer || kind = whitespace

/-- The kinds as one phrase: nothing, one, two with "or" between, or a list with "or" before the
last. -/
def alternatives : List Kind → String
  | [] => ""
  | [only] => only.description
  | [first, second] => first.description ++ " or " ++ second.description
  | kinds =>
    ", ".intercalate (kinds.dropLast.map description) ++ ", or " ++
      (kinds.getLast?.map description).getD ""

end Kind

end FunImp.Token
