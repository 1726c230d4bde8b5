import Mathlib.Data.List.Basic
import FunImp.Program.Basic
import FunImp.Proofs.Lexing.Normal

/-! # Abstract programs and how they are written

A sketch is what a programmer has in mind before there is a text: an expression or a function
without tokens and numbers. Every program has a list of sketches, and the sketches that follow the
grammar can be written. -/

namespace FunImp

/-- An expression without its tokens and its number. -/
inductive Sketch where
  | block (items : List Sketch)
  | bare (child : Sketch)
  | statement (child : Sketch)
  | binary (left : Sketch) (op : Operator) (right : Sketch)
  | integer (digits : String)
  | reference (name : String)
  | call (name : String) (arguments : List Sketch)

/-- A function without its tokens. A parameter is its name and that of its type. -/
structure FunctionSketch where
  purity : Purity
  name : String
  parameters : List (String × String)
  result : String
  body : Sketch

namespace Expr

mutual

/-- What is left of an expression without its tokens and numbers. -/
def sketch : Expr → Sketch
  | block _ _ children _ => .block (allSketches children)
  | bare _ child => .bare (sketch child)
  | statement _ child _ => .statement (sketch child)
  | binary _ left op _ right => .binary (sketch left) op (sketch right)
  | integer _ literal => .integer literal.text
  | reference _ name => .reference name.text
  | call _ name _ arguments _ => .call name.text (argumentSketches arguments)

def allSketches : List Expr → List Sketch
  | [] => []
  | e :: es => sketch e :: allSketches es

def argumentSketches : Separated Expr → List Sketch
  | [] => []
  | (e, _) :: rest => sketch e :: argumentSketches rest

end

theorem allSketches_eq (es : List Expr) : allSketches es = es.map sketch := by
  induction es with
  | nil => rfl
  | cons e es ih => rw [allSketches, ih, List.map_cons]

theorem argumentSketches_eq (arguments : Separated Expr) :
    argumentSketches arguments = arguments.items.map sketch := by
  induction arguments with
  | nil => rfl
  | cons a arguments ih =>
    rw [argumentSketches, ih]
    rfl

end Expr

def FunctionDecl.sketch (f : FunctionDecl) : FunctionSketch where
  purity := f.purity
  name := f.name.text
  parameters := f.parameters.params.map fun p => (p.name.text, p.type.name.text)
  result := f.result.name.text
  body := f.body.sketch

def Program.sketch (p : Program) : List FunctionSketch := p.functions.map FunctionDecl.sketch

def Operator.tier : Operator → Nat
  | add | subtract => 0
  | multiply | divide => 1

namespace Sketch

/-- How tightly a term is bound together: that of its outermost operator, if it has one. -/
def tier : Sketch → Nat
  | binary _ op _ => op.tier
  | _ => 2

/-- What is asked of an expression where it stands: to be a body or an argument, an item of a
block, or a term. -/
inductive Role where
  | body
  | item
  | term

/-- The sketch can be written in the role. -/
inductive Writable : Role → Sketch → Prop where
  | block {items : List Sketch} (h : ∀ k ∈ items, Writable .item k) : Writable .body (block items)
  | bare {k : Sketch} (h : Writable .term k) : Writable .body (bare k)
  | unterminated {k : Sketch} (h : Writable .body k) : Writable .item k
  | terminated {k : Sketch} (h : Writable .body k) : Writable .item (statement k)
  | integer {digits : String} (h : Token.Kind.integer.Spells digits.toList) :
      Writable .term (integer digits)
  | reference {name : String} (h : Token.Kind.identifier.Spells name.toList) :
      Writable .term (reference name)
  | call {name : String} {arguments : List Sketch}
      (hn : Token.Kind.identifier.Spells name.toList) (h : ∀ k ∈ arguments, Writable .body k) :
      Writable .term (call name arguments)
  | binary {left right : Sketch} {op : Operator} (hl : Writable .term left)
      (hr : Writable .term right) (hleft : op.tier ≤ left.tier) (hright : op.tier < right.tier) :
      Writable .term (binary left op right)

theorem tier_le (k : Sketch) : k.tier ≤ 2 := by
  unfold tier
  split
  · rename_i op _
    cases op <;> decide
  · exact Nat.le_refl 2

end Sketch

structure FunctionSketch.Writable (f : FunctionSketch) : Prop where
  name : Token.Kind.identifier.Spells f.name.toList
  parameters : ∀ p ∈ f.parameters,
    Token.Kind.identifier.Spells p.1.toList ∧ Token.Kind.identifier.Spells p.2.toList
  result : Token.Kind.identifier.Spells f.result.toList
  block : ∃ items, f.body = .block items
  body : f.body.Writable .body

/-- The text of the kinds whose tokens all have the same. -/
def Token.Kind.fixedText : Kind → List Char
  | imp => ['i', 'm', 'p']
  | fn => ['f', 'u', 'n']
  | plus => ['+']
  | minus => ['-']
  | star => ['*']
  | slash => ['/']
  | leftParen => ['(']
  | rightParen => [')']
  | leftBrace => ['\x7b']
  | rightBrace => ['\x7d']
  | assign => ['=']
  | semicolon => [';']
  | comma => [',']
  | colon => [':']
  | identifier | integer | whitespace | eof => []

namespace Operator

def kind : Operator → Token.Kind
  | add => .plus
  | subtract => .minus
  | multiply => .star
  | divide => .slash

@[simp] theorem ofKind?_kind (op : Operator) : ofKind? op.kind = some op := by
  cases op <;> rfl

end Operator

open Lexer

/-- The lexeme of a kind whose tokens all have the same text. -/
def fixed (kind : Token.Kind) : Lexeme := ⟨kind, kind.fixedText⟩

def nameLexeme (name : String) : Lexeme := ⟨.identifier, name.toList⟩

/-- Rows of lexemes with a comma between each and the next. -/
def commaSeparated : List (List Lexeme) → List Lexeme
  | [] => []
  | x :: xs => x ++ xs.flatMap (fixed .comma :: ·)

namespace Sketch

mutual

def write : Sketch → List Lexeme
  | block items => fixed .leftBrace :: (writeEach items).flatten ++ [fixed .rightBrace]
  | bare child => write child
  | statement child => write child ++ [fixed .semicolon]
  | binary left op right => write left ++ fixed op.kind :: write right
  | integer digits => [⟨.integer, digits.toList⟩]
  | reference name => [nameLexeme name]
  | call name arguments =>
    nameLexeme name :: fixed .leftParen :: commaSeparated (writeEach arguments) ++
      [fixed .rightParen]

def writeEach : List Sketch → List (List Lexeme)
  | [] => []
  | k :: ks => write k :: writeEach ks

end

theorem writeEach_eq (ks : List Sketch) : writeEach ks = ks.map write := by
  induction ks with
  | nil => rfl
  | cons k ks ih => rw [writeEach, ih, List.map_cons]

theorem write_block (items : List Sketch) :
    (block items).write = fixed .leftBrace :: items.flatMap write ++ [fixed .rightBrace] := by
  rw [write, writeEach_eq, ← List.flatMap_def]

theorem write_call (name : String) (arguments : List Sketch) :
    (call name arguments).write = nameLexeme name :: fixed .leftParen ::
      commaSeparated (arguments.map write) ++ [fixed .rightParen] := by
  rw [write, writeEach_eq]

mutual

/-- How many rules are open at once inside the text of a sketch. Those that every term of a
chain opens are counted for the bare expression around it: the rules for blockless expressions,
terms, factors and elements. -/
def depth : Sketch → Nat
  | block items => 1 + greatestDepth items
  | bare child => 4 + depth child
  | statement child => depth child
  | binary left _ right => max (depth left) (depth right)
  | integer _ => 0
  | reference _ => 0
  | call _ arguments => 1 + greatestDepth arguments

def greatestDepth : List Sketch → Nat
  | [] => 0
  | k :: ks => max (depth k) (greatestDepth ks)

end

end Sketch

namespace FunctionSketch

/-- The keyword of the function. A pure function may be written with one or without. -/
def keyword (f : FunctionSketch) (explicit : Bool) : Option Token.Kind :=
  match f.purity with
  | .impure => some .imp
  | .pure => if explicit then some .fn else none

def writeParameter (p : String × String) : List Lexeme :=
  [nameLexeme p.1, fixed .colon, nameLexeme p.2]

def writeParameters (f : FunctionSketch) : List Lexeme :=
  fixed .leftParen :: commaSeparated (f.parameters.map writeParameter) ++ [fixed .rightParen]

def write (f : FunctionSketch) (explicit : Bool) : List Lexeme :=
  (f.keyword explicit).toList.map fixed ++ nameLexeme f.name ::
    (f.writeParameters ++ fixed .colon :: nameLexeme f.result :: f.body.write)

/-- How many rules are open at once inside the text of the function. Its parameter list is one. -/
def depth (f : FunctionSketch) : Nat := 1 + max 1 f.body.depth

end FunctionSketch

/-- Functions, each with whether `fun` is written in front of it if it is pure. -/
abbrev Draft : Type := List (FunctionSketch × Bool)

namespace Draft

def write (d : Draft) : List Lexeme := d.flatMap fun f => f.1.write f.2

/-- The text of the functions, with a space between each lexeme and the next. -/
def text (d : Draft) : String := .ofList (written (d.write.intersperse ⟨.whitespace, [' ']⟩))

def depth (d : Draft) : Nat := 1 + (d.map fun f => f.1.depth).foldr max 0

end Draft

/-- The lexeme is a token other than white space. -/
def Lexer.Lexeme.Proper (x : Lexeme) : Prop := x.kind.Spells x.chars ∧ x.kind ≠ .whitespace

theorem proper_fixed {kind : Token.Kind}
    (h : kind ∉ [.identifier, .integer, .whitespace, .eof]) : (fixed kind).Proper := by
  cases kind <;> first | exact ⟨rfl, by decide⟩ | simp at h

theorem proper_nameLexeme {name : String} (h : Token.Kind.identifier.Spells name.toList) :
    (nameLexeme name).Proper :=
  ⟨h, nofun⟩

theorem proper_kind (op : Operator) : (fixed op.kind).Proper :=
  proper_fixed (by cases op <;> decide)

theorem proper_commaSeparated {xs : List (List Lexeme)} (h : ∀ x ∈ xs, ∀ l ∈ x, l.Proper) :
    ∀ l ∈ commaSeparated xs, l.Proper := by
  cases xs with
  | nil => simp [commaSeparated]
  | cons x xs =>
    obtain ⟨hx, hxs⟩ := List.forall_mem_cons.1 h
    refine List.forall_mem_append.2 ⟨hx, fun l hl => ?_⟩
    obtain ⟨y, hy, hl⟩ := List.mem_flatMap.1 hl
    exact List.forall_mem_cons.2 ⟨proper_fixed (by decide), hxs y hy⟩ l hl

theorem proper_enclosed {o c : Token.Kind} {ls : List Lexeme} (ho : (fixed o).Proper)
    (h : ∀ l ∈ ls, l.Proper) (hc : (fixed c).Proper) :
    ∀ l ∈ fixed o :: ls ++ [fixed c], l.Proper :=
  List.forall_mem_append.2 ⟨List.forall_mem_cons.2 ⟨ho, h⟩, List.forall_mem_singleton.2 hc⟩

theorem Sketch.Writable.proper {role : Sketch.Role} {k : Sketch} (h : k.Writable role) :
    ∀ l ∈ k.write, l.Proper := by
  induction h with
  | block _ ih =>
    rw [write_block]
    refine proper_enclosed (proper_fixed (by decide)) (fun l hl => ?_) (proper_fixed (by decide))
    obtain ⟨k, hk, hl⟩ := List.mem_flatMap.1 hl
    exact ih k hk l hl
  | bare _ ih => exact ih
  | unterminated _ ih => exact ih
  | terminated _ ih =>
    exact List.forall_mem_append.2 ⟨ih, List.forall_mem_singleton.2 (proper_fixed (by decide))⟩
  | integer h => exact List.forall_mem_singleton.2 ⟨h, nofun⟩
  | reference h => exact List.forall_mem_singleton.2 (proper_nameLexeme h)
  | call hn _ ih =>
    rw [write_call]
    refine List.forall_mem_cons.2 ⟨proper_nameLexeme hn, proper_enclosed (proper_fixed (by decide))
      (proper_commaSeparated (List.forall_mem_map.2 ih)) (proper_fixed (by decide))⟩
  | @binary _ _ op _ _ _ _ ihl ihr =>
    exact List.forall_mem_append.2 ⟨ihl, List.forall_mem_cons.2 ⟨proper_kind op, ihr⟩⟩

theorem FunctionSketch.Writable.proper {f : FunctionSketch} (h : f.Writable) (explicit : Bool) :
    ∀ l ∈ f.write explicit, l.Proper := by
  have hkeyword : ∀ l ∈ (f.keyword explicit).toList.map fixed, l.Proper := by
    refine List.forall_mem_map.2 fun kind hkind => proper_fixed ?_
    unfold keyword at hkind
    split at hkind
    · simp_all
    · split at hkind <;> simp_all
  have hparameters : ∀ l ∈ f.writeParameters, l.Proper := by
    refine proper_enclosed (proper_fixed (by decide))
      (proper_commaSeparated (List.forall_mem_map.2 fun p hp => ?_)) (proper_fixed (by decide))
    obtain ⟨hname, htype⟩ := h.parameters p hp
    simpa [writeParameter] using
      ⟨proper_nameLexeme hname, proper_fixed (by decide), proper_nameLexeme htype⟩
  simp only [write, List.forall_mem_append, List.forall_mem_cons]
  exact ⟨hkeyword, proper_nameLexeme h.name, hparameters, proper_fixed (by decide),
    proper_nameLexeme h.result, h.body.proper⟩

theorem not_merges_of_ne_whitespace {kind : Token.Kind} (h : kind ≠ .whitespace) :
    ¬kind.Merges .whitespace ∧ ¬Token.Kind.Merges .whitespace kind := by
  refine ⟨?_, h⟩
  cases kind <;> first | exact absurd rfl h | decide

/-- With spaces between them no two lexemes would be read as one. -/
theorem normal_intersperse {ls : List Lexeme} (h : ∀ l ∈ ls, l.Proper) :
    Normal (ls.intersperse ⟨.whitespace, [' ']⟩) := by
  have hspace : Token.Kind.whitespace.Spells [' '] := by decide
  induction ls with
  | nil => exact ⟨by simp, .nil⟩
  | cons l ls ih =>
    obtain ⟨hl, hls⟩ := List.forall_mem_cons.1 h
    cases ls with
    | nil => exact ⟨by simpa using hl.1, .singleton l⟩
    | cons next ls =>
      obtain ⟨hspelt, hapart⟩ := ih hls
      have hnext := (List.forall_mem_cons.1 hls).1
      rw [List.intersperse_cons_cons]
      refine ⟨List.forall_mem_cons.2 ⟨hl.1, List.forall_mem_cons.2 ⟨hspace, hspelt⟩⟩, ?_⟩
      refine .cons_cons (not_merges_of_ne_whitespace hl.2).1 (List.isChain_cons.2 ⟨?_, hapart⟩)
      have hmerges := (not_merges_of_ne_whitespace hnext.2).2
      cases ls <;> simpa using hmerges

end FunImp
