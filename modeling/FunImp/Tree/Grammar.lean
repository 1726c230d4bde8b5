import FunImp.Tree.Reader

/-!
# The grammar

    Program       ::= Function* end
    Function      ::= ("imp" | "fun"?) name ParamList ":" name Block
    ParamList     ::= "(" (Param ("," Param)*)? ")"
    Param         ::= name ":" name
    Block         ::= braces around (Expression ";"?)*
    Expression    ::= Block | Blockless
    Blockless     ::= Term
    Term          ::= Factor (("+" | "-") Factor)*
    Factor        ::= Element (("*" | "/") Element)*
    Element       ::= integer | name | name ArgumentList
    ArgumentList  ::= "(" (Expression ("," Expression)*)? ")"

Every rule is a reader over the readers of the rules inside it. Opening a rule takes one level
of a budget, and where the budget is used up reading fails, so the readers are defined by
recursion on the budget: `Rules.upTo n` are the rules that may open `n` levels, themselves
included.
-/

namespace FunImp.Tree

open Reader

/-- A reader that takes at least one leaf. -/
def Phrase : Type := { p : Reader Tree // p.Strict }

structure Rules where
  block : Phrase
  blockless : Phrase
  term : Phrase
  factor : Phrase
  element : Phrase
  argumentList : Phrase

namespace Rules

/-- Braces open a block; anything else is a blockless expression. -/
def expression (rules : Rules) : Reader Tree := do
  let next ← peek
  if next = .leftBrace then rules.block.1 else rules.blockless.1

theorem strict_expression (rules : Rules) : rules.expression.Strict :=
  strict_bind_of fun next => by
    by_cases h : next = .leftBrace
    · simpa [h] using rules.block.2
    · simpa [h] using rules.blockless.2

def item (rules : Rules) : Reader (List Tree) := do
  let expression ← rules.expression
  let next ← peek
  if next = .semicolon then
    let semicolon ← expect [.semicolon]
    return [.node .statement [expression, semicolon]]
  else return [expression]

/-- A separator of one of the kinds and a phrase behind it. -/
def separated (kinds : List Token.Kind) (p : Reader Tree) : Reader (List Tree) := do
  let separator ← expect kinds
  let tree ← p
  return [separator, tree]

/-- Phrases with separators of the kinds between them, at least one. -/
def chain (rule : Rule) (kinds : List Token.Kind) (p : Reader Tree) : Reader Tree := do
  let first ← p
  let others ← many (· ∈ kinds) (separated kinds p) (.bind (strict_expect _) _)
  return .node rule (first :: others)

def blockBody (rules : Rules) : Reader Tree := do
  let opening ← expect [.leftBrace]
  let items ← many (· ≠ .rightBrace) rules.item (.bind rules.strict_expression _)
  let closing ← expect [.rightBrace]
  return .node .blockExpression (opening :: items ++ [closing])

def blocklessBody (rules : Rules) : Reader Tree := do
  let term ← rules.term.1
  return .node .blocklessExpression [term]

def termBody (rules : Rules) : Reader Tree :=
  chain .term [.plus, .minus] rules.factor.1

def factorBody (rules : Rules) : Reader Tree :=
  chain .factor [.star, .slash] rules.element.1

/-- A name with an argument list behind it is a call, which stands in the place of the
element. -/
def elementBody (rules : Rules) : Reader Tree := do
  let first ← peek
  let head ← expect [.integer, .identifier]
  let next ← peek
  if first = .identifier ∧ next = .leftParen then
    let arguments ← rules.argumentList.1
    return .node .functionCall [head, arguments]
  else return .node .element [head]

def argumentListBody (rules : Rules) : Reader Tree := do
  let opening ← expect [.leftParen]
  let next ← peek
  if next = .rightParen then
    let closing ← expect [.rightParen]
    return .node .argumentList [opening, closing]
  else
    let first ← rules.expression
    let others ← many (· = .comma) (separated [.comma] rules.expression)
      (.bind (strict_expect _) _)
    let closing ← require [.rightParen] [.comma, .rightParen]
    return .node .argumentList (opening :: first :: others ++ [closing])

/-- A rule with its body, one level inside the rules around it. -/
def phrase (rule : Rule) (body : Reader Tree) (h : body.Strict) : Phrase :=
  ⟨within rule body, strict_within rule h⟩

def tooDeep : Phrase := ⟨fail .tooDeep, strict_fail _⟩

/-- The rules that may open `budget` levels of rules, themselves included. -/
def upTo : Nat → Rules
  | 0 => ⟨tooDeep, tooDeep, tooDeep, tooDeep, tooDeep, tooDeep⟩
  | budget + 1 =>
    let inner := upTo budget
    { block := phrase .blockExpression inner.blockBody (.bind (strict_expect _) _)
      blockless := phrase .blocklessExpression inner.blocklessBody (.bind inner.term.2 _)
      term := phrase .term inner.termBody (.bind inner.factor.2 _)
      factor := phrase .factor inner.factorBody (.bind inner.element.2 _)
      element := phrase .element inner.elementBody
        (strict_bind_of fun _ => .bind (strict_expect _) _)
      argumentList := phrase .argumentList inner.argumentListBody (.bind (strict_expect _) _) }

end Rules

/-- One level of the budget for a rule. -/
def opened {α : Type} (rule : Rule) (body : Nat → Reader α) : Nat → Reader α
  | 0 => fail .tooDeep
  | budget + 1 => Reader.within rule (body budget)

def param : Reader (List Tree) := do
  let name ← expect [.identifier]
  let colon ← expect [.colon]
  let type ← expect [.identifier]
  return [name, colon, type]

def commaParam : Reader (List Tree) := do
  let comma ← expect [.comma]
  let param ← param
  return comma :: param

def paramListBody : Reader Tree := do
  let opening ← expect [.leftParen]
  let next ← peek
  if next = .identifier then
    let first ← param
    let others ← many (· = .comma) commaParam (.bind (strict_expect _) _)
    let closing ← require [.rightParen] [.comma, .rightParen]
    return .node .paramList (opening :: first ++ others ++ [closing])
  else
    let closing ← require [.rightParen] [.identifier, .rightParen]
    return .node .paramList [opening, closing]

def paramList (budget : Nat) : Reader Tree :=
  opened .paramList (fun _ => paramListBody) budget

/-- What follows the keyword of a function. -/
def signatureAndBody (budget : Nat) : Reader (List Tree) := do
  let name ← expect [.identifier]
  let params ← paramList budget
  let colon ← expect [.colon]
  let type ← expect [.identifier]
  let body ← (Rules.upTo budget).block.1
  return [name, params, colon, type, body]

theorem strict_signatureAndBody (budget : Nat) : (signatureAndBody budget).Strict :=
  .bind (strict_expect _) _

def impureFunctionBody (budget : Nat) : Reader Tree := do
  let keyword ← expect [.imp]
  let rest ← signatureAndBody budget
  return .node .impureFunction (keyword :: rest)

theorem strict_impureFunctionBody (budget : Nat) : (impureFunctionBody budget).Strict :=
  .bind (strict_expect _) _

/-- The keyword of a pure function may be left out. -/
def pureFunctionBody (budget : Nat) : Reader Tree := do
  let next ← peek
  if next = .fn then
    let keyword ← expect [.fn]
    let rest ← signatureAndBody budget
    return .node .pureFunction (keyword :: rest)
  else
    let rest ← signatureAndBody budget
    return .node .pureFunction rest

theorem strict_pureFunctionBody (budget : Nat) : (pureFunctionBody budget).Strict :=
  strict_bind_of fun next => by
    by_cases h : next = .fn
    · simpa [h] using Strict.bind (strict_expect _) _
    · simpa [h] using Strict.bind (strict_signatureAndBody budget) _

theorem strict_opened {α : Type} (rule : Rule) {body : Nat → Reader α}
    (h : ∀ budget, (body budget).Strict) (budget : Nat) : (opened rule body budget).Strict := by
  cases budget with
  | zero => exact strict_fail _
  | succ budget => exact strict_within rule (h budget)

def function (budget : Nat) : Reader (List Tree) := do
  let next ← peek
  if next = .imp then
    let tree ← opened .impureFunction impureFunctionBody budget
    return [tree]
  else
    let tree ← opened .pureFunction pureFunctionBody budget
    return [tree]

theorem strict_function (budget : Nat) : (function budget).Strict :=
  strict_bind_of fun next => by
    by_cases h : next = .imp
    · simpa [h] using Strict.bind (strict_opened _ strict_impureFunctionBody budget) _
    · simpa [h] using Strict.bind (strict_opened _ strict_pureFunctionBody budget) _

def startsFunction (kind : Token.Kind) : Bool :=
  kind = .imp || kind = .fn || kind = .identifier

/-- The functions of a program, which must reach the last leaf. -/
def functions (budget : Nat) : Reader (List Tree) := do
  let trees ← many startsFunction (function budget) (strict_function budget)
  let next ← peek
  if next = .eof then return trees
  else fail (.unexpected [.fn, .imp, .identifier, .eof])

end FunImp.Tree
