import FunImp.Token.Leaf

/-!
# Syntax trees

A tree keeps every token of the text it stands for. Its inner nodes are named after the rules of
the grammar. White space stands in front of the token it precedes, but the type does not insist:
a tree may be built by hand, of any shape.
-/

namespace FunImp

inductive Rule where
  | program
  | blockExpression
  | blocklessExpression
  | statement
  | pureFunction
  | impureFunction
  | paramList
  | argumentList
  | functionCall
  | term
  | factor
  | element
deriving DecidableEq

namespace Rule

def name : Rule → String
  | program => "Program"
  | blockExpression => "BlockExpression"
  | blocklessExpression => "BlocklessExpression"
  | statement => "Statement"
  | pureFunction => "PureFunction"
  | impureFunction => "ImpureFunction"
  | paramList => "ParamList"
  | argumentList => "ArgumentList"
  | functionCall => "FunctionCall"
  | term => "Term"
  | factor => "Factor"
  | element => "Element"

end Rule

/-- A tree over tokens. A leaf comes with the trees in front of its token. -/
inductive Tree where
  | node (rule : Rule) (children : List Tree)
  | leaf (leading : List Tree) (token : Token)
  | blank (token : Token)

namespace Tree

inductive Head where
  | rule (rule : Rule)
  | token
  | whitespace
deriving DecidableEq

namespace Head

def name : Head → String
  | rule r => r.name
  | token => "Token"
  | whitespace => "Whitespace"

end Head

def head : Tree → Head
  | node rule _ => .rule rule
  | leaf _ _ => .token
  | blank _ => .whitespace

def isLeaf (t : Tree) : Bool := t.head = .token

def isBlank (t : Tree) : Bool := t.head = .whitespace

/-- The children of a node; those of a leaf are the trees in front of its token. -/
def children : Tree → List Tree
  | node _ children => children
  | leaf leading _ => leading
  | blank _ => []

/-- The leaf as a tree, its white space as blanks in front of it. -/
def ofLeaf (l : Leaf) : Tree := leaf (l.leading.map blank) l.token

mutual

/-- The tokens of a tree in front of those that follow it. -/
def tokensOnto (following : List Token) : Tree → List Token
  | node _ children => forestTokensOnto following children
  | leaf leading token => forestTokensOnto (token :: following) leading
  | blank token => token :: following

def forestTokensOnto (following : List Token) : List Tree → List Token
  | [] => following
  | t :: ts => tokensOnto (forestTokensOnto following ts) t

end

/-- Every token of the tree from left to right, white space included. -/
def tokens (t : Tree) : List Token := tokensOnto [] t

def sourceText (t : Tree) : String := Token.sourceText t.tokens

def span (t : Tree) : Span := Token.spanOf t.tokens

mutual

/-- Whether two trees have the same shape over tokens of the same kinds and texts. -/
def alike : Tree → Tree → Bool
  | node r cs, node r' cs' => r = r' && alikeAll cs cs'
  | leaf cs t, leaf cs' t' => alikeAll cs cs' && t.unplaced = t'.unplaced
  | blank t, blank t' => t.unplaced = t'.unplaced
  | _, _ => false

def alikeAll : List Tree → List Tree → Bool
  | [], [] => true
  | t :: ts, t' :: ts' => alike t t' && alikeAll ts ts'
  | _, _ => false

end

end Tree

end FunImp
