import FunImp.Text.Source
import FunImp.Tree.Grammar

/-!
# Parsing

A parser can be asked for a program more than once. A program takes all leaves and the end; an
error takes the leaves in front of the token that did not fit and leaves the rules that were open
as they are, so that the next attempt starts inside them with the rest of the budget.
-/

namespace FunImp

/-- What is left to be parsed: leaves, white space behind them, and the token for the end. The
`opened` rules are those that earlier errors left open, the outermost first. -/
structure Parser where
  opened : List Rule
  leaves : List Leaf
  trailing : List Token
  eof : Token
deriving DecidableEq

namespace Parser

/-- A parser of the tokens up to the first end of input. If there is none, the input ends where
the source ends. -/
def ofTokens (tokens : List Token) (source : Source) : Parser :=
  let (leaves, trailing) := Leaf.gather (tokens.takeWhile (·.kind ≠ .eof))
  let eof := (tokens.find? (·.kind = .eof)).getD ⟨.eof, none, source.finish, source.id⟩
  ⟨[], leaves, trailing, eof⟩

/-- Everything up to the end, which comes as a leaf of its own, with up to `limit` open rules. -/
def programUpTo (limit : Nat) (p : Parser) : Tree.Reader Tree :=
  Tree.opened .program (fun budget => do
    let functions ← Tree.functions budget
    return .node .program (functions ++ [Tree.ofLeaf ⟨p.trailing, p.eof⟩]))
    (limit - p.opened.length)

/-- Asks for a program. The limit counts the rules that are open already. -/
def readProgramUpTo (limit : Nat) (p : Parser) : Except SyntaxError Tree × Parser :=
  match (p.programUpTo limit).run p.leaves with
  | .ok (tree, remaining) => (.ok tree, { p with leaves := remaining, trailing := [] })
  | .error e =>
    let rules := p.opened ++ e.rules
    let found := (e.remaining.head?.map (·.token)).getD p.eof
    (.error ⟨e.obstacle, found, rules⟩, { p with opened := rules, leaves := e.remaining })

def program (p : Parser) : Tree.Reader Tree := p.programUpTo maxDepth

def readProgram (p : Parser) : Except SyntaxError Tree × Parser := p.readProgramUpTo maxDepth

theorem readProgram_eq (p : Parser) :
    p.readProgram =
      match p.program.run p.leaves with
      | .ok (tree, remaining) => (.ok tree, { p with leaves := remaining, trailing := [] })
      | .error e =>
        (.error ⟨e.obstacle, (e.remaining.head?.map (·.token)).getD p.eof, p.opened ++ e.rules⟩,
          { p with opened := p.opened ++ e.rules, leaves := e.remaining }) := rfl

def parseTimes : Nat → Parser → List (Except SyntaxError Tree)
  | 0, _ => []
  | n + 1, p =>
    let (answer, next) := p.readProgram
    answer :: parseTimes n next

end Parser

def parse (tokens : List Token) (source : Source) : Except SyntaxError Tree :=
  (Parser.ofTokens tokens source).readProgram.1

end FunImp
