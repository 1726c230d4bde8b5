import FunImp.Program.Basic
import FunImp.Program.LoweringError

/-!
# Programs of syntax trees

A tree is read as a program child by child. Expressions are numbered as they are completed, so
that every number is greater than those inside the expression; a tree that turns out to be no
program keeps the numbers it has used.
-/

namespace FunImp

/-- A computation that may fail and that draws numbers; the state is the next one. -/
abbrev Numbering : Type → Type := ExceptT LoweringError (StateM NodeId)

namespace Numbering

def fresh : Numbering NodeId := do
  let id ← get
  set (id + 1)
  return id

end Numbering

namespace Tree

def blankToken : Tree → Except LoweringError Token
  | blank token => .ok token
  | t => .error (.unexpectedNode .whitespace t.head)

/-- A leaf whose token may be of any kind. In front of it only white space may stand. -/
def toLeaf : Tree → Except LoweringError Leaf
  | leaf leading token => do
    let leading ← leading.mapM blankToken
    return ⟨leading, token⟩
  | t => .error (.unexpectedNode .token t.head)

def toLeafOf (kind : Token.Kind) (t : Tree) : Except LoweringError Leaf := do
  let leaf ← t.toLeaf
  if leaf.kind = kind then return leaf else throw (.unexpectedToken kind leaf.kind)

/-- The next child of `parent`, which must be a leaf of the kind, and the children behind it. -/
def takeLeaf (parent : Rule) (kind : Token.Kind) :
    List Tree → Except LoweringError (Leaf × List Tree)
  | [] => .error (.missingChild parent)
  | t :: rest => do
    let leaf ← t.toLeafOf kind
    return (leaf, rest)

def finish (parent : Rule) : List Tree → Except LoweringError Unit
  | [] => .ok ()
  | _ :: _ => .error (.trailingChildren parent)

def isLeafOf (kind : Token.Kind) : Tree → Bool
  | leaf _ token => token.kind = kind
  | _ => false

def isBody (t : Tree) : Bool :=
  t.head = .rule .blockExpression || t.head = .rule .blocklessExpression

def toOperator (sign : Leaf) : Except LoweringError Operator :=
  match Operator.ofKind? sign.kind with
  | some operator => .ok operator
  | none => .error (.notAnOperator sign.kind)

def elementToExpr : List Tree → Numbering Expr
  | [] => throw (.missingChild .element)
  | t :: rest => do
    let leaf ← t.toLeaf
    finish .element rest
    match leaf.kind with
    | .integer => return .integer (← .fresh) leaf
    | .identifier => return .reference (← .fresh) leaf
    | found => throw (.unexpectedToken .identifier found)

mutual

def toExpr : Tree → Numbering Expr
  | node .blockExpression children => blockToExpr children
  | node .blocklessExpression children => blocklessToExpr children
  | node .statement children => statementToExpr children
  | node .term children => chainToExpr .term children
  | node .factor children => chainToExpr .factor children
  | node .element children => elementToExpr children
  | node .functionCall children => callToExpr children
  | t => throw (.unexpectedNode .expression t.head)

def blockToExpr : List Tree → Numbering Expr
  | [] => throw (.missingChild .blockExpression)
  | t :: rest => do
    let opening ← t.toLeafOf .leftBrace
    let (children, rest) ← itemsToExprs [] rest
    let (closing, rest) ← takeLeaf .blockExpression .rightBrace rest
    finish .blockExpression rest
    return .block (← .fresh) opening children closing

/-- The expressions up to the next leaf, behind those already `done`, which are in reverse, and
the trees from that leaf on. -/
def itemsToExprs (done : List Expr) : List Tree → Numbering (List Expr × List Tree)
  | [] => return (done.reverse, [])
  | t :: rest =>
    if t.isLeaf then return (done.reverse, t :: rest)
    else do
      let e ← toExpr t
      itemsToExprs (e :: done) rest

def blocklessToExpr : List Tree → Numbering Expr
  | [] => throw (.missingChild .blocklessExpression)
  | t :: rest => do
    let child ← toExpr t
    finish .blocklessExpression rest
    return .bare (← .fresh) child

def statementToExpr : List Tree → Numbering Expr
  | [] => throw (.missingChild .statement)
  | t :: rest => do
    let child ← toExpr t
    let (semicolon, rest) ← takeLeaf .statement .semicolon rest
    finish .statement rest
    return .statement (← .fresh) child semicolon

/-- A chain of operators, which groups to the left. -/
def chainToExpr (parent : Rule) : List Tree → Numbering Expr
  | [] => throw (.missingChild parent)
  | t :: rest => do
    let left ← toExpr t
    linksToExpr parent left rest

def linksToExpr (parent : Rule) (left : Expr) : List Tree → Numbering Expr
  | [] => return left
  | t :: rest => do
    let sign ← t.toLeaf
    let operator ← toOperator sign
    match rest with
    | [] => throw (.missingChild parent)
    | operand :: rest =>
      let right ← toExpr operand
      linksToExpr parent (.binary (← .fresh) left operator sign right) rest

def callToExpr : List Tree → Numbering Expr
  | [] => throw (.missingChild .functionCall)
  | t :: rest => do
    let name ← t.toLeafOf .identifier
    match rest with
    | [] => throw (.missingChild .functionCall)
    | list :: rest =>
      let (opening, arguments, closing) ← toArguments list
      finish .functionCall rest
      return .call (← .fresh) name opening arguments closing

def toArguments : Tree → Numbering (Leaf × Separated Expr × Leaf)
  | node .argumentList children => argumentListToArguments children
  | t => throw (.unexpectedNode .argumentList t.head)

def argumentListToArguments : List Tree → Numbering (Leaf × Separated Expr × Leaf)
  | [] => throw (.missingChild .argumentList)
  | t :: rest => do
    let opening ← t.toLeafOf .leftParen
    let (arguments, rest) ← itemsToArguments [] rest
    let (closing, rest) ← takeLeaf .argumentList .rightParen rest
    finish .argumentList rest
    return (opening, arguments, closing)

/-- The arguments up to the next leaf that is no comma behind one, behind those already `done`,
which are in reverse, and the trees from that leaf on. -/
def itemsToArguments (done : Separated Expr) :
    List Tree → Numbering (Separated Expr × List Tree)
  | [] => return (done.reverse, [])
  | t :: rest =>
    if t.isLeaf then return (done.reverse, t :: rest)
    else if t.isBody then do
      let e ← toExpr t
      match rest with
      | [] => return (((e, none) :: done).reverse, [])
      | comma :: others =>
        if comma.isLeafOf .comma then
          let separator ← comma.toLeaf
          itemsToArguments ((e, some separator) :: done) others
        else itemsToArguments ((e, none) :: done) (comma :: others)
    else throw (.unexpectedNode .expression t.head)

end

/-- The expression that a function body or an argument stands for. -/
def bodyToExpr (t : Tree) : Numbering Expr :=
  if t.isBody then t.toExpr else throw (.unexpectedNode .expression t.head)

def takeTypeSpec (parent : Rule) (children : List Tree) :
    Except LoweringError (TypeSpec × List Tree) := do
  let (colon, children) ← takeLeaf parent .colon children
  let (name, children) ← takeLeaf parent .identifier children
  return (⟨colon, name⟩, children)

/-- The parameters up to the next tree that is no name, behind those already `done`, which are
in reverse, and the trees from that one on. -/
def takeParams (done : List Param) : List Tree → Except LoweringError (List Param × List Tree)
  | name :: colon :: type :: rest =>
    if name.isLeafOf .identifier then do
      let name ← name.toLeaf
      let colon ← colon.toLeafOf .colon
      let type ← type.toLeafOf .identifier
      match rest with
      | [] => return ((⟨name, ⟨colon, type⟩, none⟩ :: done).reverse, [])
      | comma :: others =>
        if comma.isLeafOf .comma then do
          let comma ← comma.toLeaf
          takeParams (⟨name, ⟨colon, type⟩, some comma⟩ :: done) others
        else takeParams (⟨name, ⟨colon, type⟩, none⟩ :: done) (comma :: others)
    else return (done.reverse, name :: colon :: type :: rest)
  | name :: rest =>
    if name.isLeafOf .identifier then do
      let name ← name.toLeaf
      let (type, rest) ← takeTypeSpec .paramList rest
      return ((⟨name, type, none⟩ :: done).reverse, rest)
    else return (done.reverse, name :: rest)
  | [] => return (done.reverse, [])

def toParamList : Tree → Except LoweringError ParamList
  | node .paramList children => do
    let (opening, children) ← takeLeaf .paramList .leftParen children
    let (params, children) ← takeParams [] children
    let (closing, children) ← takeLeaf .paramList .rightParen children
    finish .paramList children
    return ⟨opening, params, closing⟩
  | t => throw (.unexpectedNode .parameterList t.head)

def takeKeyword : List Tree → Except LoweringError (Option Leaf × List Tree)
  | [] => return (none, [])
  | t :: rest =>
    if t.isLeafOf .fn || t.isLeafOf .imp then do
      let keyword ← t.toLeaf
      return (some keyword, rest)
    else return (none, t :: rest)

def takeChild (parent : Rule) : List Tree → Except LoweringError (Tree × List Tree)
  | [] => .error (.missingChild parent)
  | t :: rest => .ok (t, rest)

def childrenToFunction (parent : Rule) (children : List Tree) : Numbering FunctionDecl := do
  let (keyword, children) ← takeKeyword children
  let (name, children) ← takeLeaf parent .identifier children
  let (list, children) ← takeChild parent children
  let parameters ← list.toParamList
  let (result, children) ← takeTypeSpec parent children
  let (body, children) ← takeChild parent children
  let body ← body.bodyToExpr
  finish parent children
  return ⟨keyword, name, parameters, result, body⟩

def toFunction : Tree → Numbering FunctionDecl
  | node .pureFunction children => childrenToFunction .pureFunction children
  | node .impureFunction children => childrenToFunction .impureFunction children
  | t => throw (.unexpectedNode .function t.head)

/-- The functions up to the next leaf, behind those already `done`, which are in reverse, and
the trees from that leaf on. -/
def toFunctions (done : List FunctionDecl) :
    List Tree → Numbering (List FunctionDecl × List Tree)
  | [] => return (done.reverse, [])
  | t :: rest =>
    if t.isLeaf then return (done.reverse, t :: rest)
    else do
      let f ← t.toFunction
      toFunctions (f :: done) rest

def toProgram : Tree → Numbering Program
  | node .program children => do
    let (functions, children) ← toFunctions [] children
    let (eof, children) ← takeLeaf .program .eof children
    finish .program children
    return ⟨functions, eof⟩
  | t => throw (.unexpectedNode .program t.head)

end Tree

/-- The program of a tree, with its expressions numbered from zero. -/
def lower (tree : Tree) : Except LoweringError Program :=
  (tree.toProgram.run.run 0).1

end FunImp
