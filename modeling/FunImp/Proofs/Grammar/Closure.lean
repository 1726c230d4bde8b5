import FunImp.Proofs.Grammar.Soundness

/-! # Properties of all readers of the grammar

The readers of the grammar are built in a few ways. What holds of the parts and is passed on by
each of these ways holds of all of them, with the rules they may open counted. -/

namespace FunImp.Tree

open Reader

/-- A property of readers that may open so many levels of rules. It is passed on by every way of
building readers, and a rule takes a level of its own. -/
structure Passed (P : Nat → ∀ {α : Type}, Reader α → Prop) : Prop where
  pure {α : Type} (n : Nat) (a : α) : P n (pure a : Reader α)
  peek (n : Nat) : P n peek
  unexpected {α : Type} (n : Nat) (kinds : List Token.Kind) :
    P n (fail (.unexpected kinds) : Reader α)
  tooDeep {α : Type} : P 0 (fail .tooDeep : Reader α)
  require (n : Nat) {kinds : List Token.Kind} (expected : List Token.Kind) (heof : .eof ∉ kinds) :
    P n (require kinds expected)
  bind {n : Nat} {α β : Type} {p : Reader α} {q : α → Reader β} (hp : P n p)
    (hq : ∀ a, P n (q a)) : P n (p >>= q)
  many {n : Nat} {p : Reader (List Tree)} (hp : P n p) (more : Token.Kind → Bool)
    (hs : p.Strict) : P n (many more p hs)
  within {n : Nat} {α : Type} {p : Reader α} (hp : P n p) (rule : Rule) :
    P (n + 1) (within rule p)

namespace Passed

variable {P : Nat → ∀ {α : Type}, Reader α → Prop} {n : Nat} {rules : Rules}

theorem ite (_ : Passed P) {α : Type} {c : Prop} [Decidable c] {p q : Reader α} (hp : P n p)
    (hq : P n q) : P n (if c then p else q) := by
  split
  · exact hp
  · exact hq

theorem peek_bind (h : Passed P) {α : Type} {q : Token.Kind → Reader α}
    (hq : ∀ kind, P n (q kind)) : P n (Reader.peek >>= q) :=
  h.bind (h.peek n) hq

theorem expect_bind (h : Passed P) {α : Type} {kinds : List Token.Kind} (heof : .eof ∉ kinds)
    {q : Tree → Reader α} (hq : ∀ t, P n (q t)) : P n (expect kinds >>= q) :=
  h.bind (h.require n kinds heof) hq

theorem opened (h : Passed P) {α : Type} (rule : Rule) {body : Nat → Reader α}
    (hbody : ∀ n, P n (body n)) (n : Nat) : P n (Tree.opened rule body n) := by
  cases n with
  | zero => exact h.tooDeep
  | succ n => exact h.within (hbody n) rule

theorem separated (h : Passed P) {kinds : List Token.Kind} (heof : .eof ∉ kinds) {p : Reader Tree}
    (hp : P n p) : P n (Rules.separated kinds p) :=
  h.expect_bind heof fun _ => h.bind hp fun _ => h.pure n _

theorem chain (h : Passed P) (rule : Rule) {kinds : List Token.Kind} (heof : .eof ∉ kinds)
    {p : Reader Tree} (hp : P n p) : P n (Rules.chain rule kinds p) :=
  h.bind hp fun _ => h.bind (h.many (h.separated heof hp) _ _) fun _ => h.pure n _

theorem expression (h : Passed P) (hblock : P n rules.block.1) (hbare : P n rules.blockless.1) :
    P n rules.expression :=
  h.peek_bind fun _ => h.ite hblock hbare

section Bodies

variable (hr : ∀ place, P n (rules.readerOf place))
include hr

theorem item (h : Passed P) : P n rules.item :=
  h.bind (hr .expression) fun _ => h.peek_bind fun _ =>
    h.ite (h.expect_bind (by decide) fun _ => h.pure n _) (h.pure n _)

theorem blockBody (h : Passed P) : P n rules.blockBody :=
  h.expect_bind (by decide) fun _ => h.bind (h.many (h.item hr) _ _) fun _ =>
    h.expect_bind (by decide) fun _ => h.pure n _

theorem elementBody (h : Passed P) : P n rules.elementBody :=
  h.peek_bind fun _ => h.expect_bind (by decide) fun _ => h.peek_bind fun _ =>
    h.ite (h.bind (hr .argumentList) fun _ => h.pure n _) (h.pure n _)

theorem argumentListBody (h : Passed P) : P n rules.argumentListBody := by
  have hothers : P n (Rules.separated [.comma] rules.expression) :=
    h.separated (by decide) (hr .expression)
  refine h.expect_bind (by decide) fun _ => h.peek_bind fun _ => h.ite ?_ ?_
  · exact h.expect_bind (by decide) fun _ => h.pure n _
  · exact h.bind (hr .expression) fun _ => h.bind (h.many hothers _ _) fun _ =>
      h.bind (h.require n _ (by decide)) fun _ => h.pure n _

end Bodies

theorem upTo (h : Passed P) (n : Nat) : ∀ place, P n ((Rules.upTo n).readerOf place) := by
  induction n with
  | zero =>
    intro place
    cases place with
    | expression => exact h.expression h.tooDeep h.tooDeep
    | _ => exact h.tooDeep
  | succ n ih =>
    have hblock : P (n + 1) (Rules.upTo (n + 1)).block.1 := h.within (h.blockBody ih) _
    have hbare : P (n + 1) (Rules.upTo (n + 1)).blockless.1 :=
      h.within (h.bind (ih .term) fun _ => h.pure n _) _
    intro place
    cases place with
    | block => exact hblock
    | blockless => exact hbare
    | expression => exact h.expression hblock hbare
    | term => exact h.within (h.chain _ (by decide) (ih .factor)) _
    | factor => exact h.within (h.chain _ (by decide) (ih .element)) _
    | element => exact h.within (h.elementBody ih) _
    | argumentList => exact h.within (h.argumentListBody ih) _

theorem param (h : Passed P) (n : Nat) : P n Tree.param :=
  h.expect_bind (by decide) fun _ => h.expect_bind (by decide) fun _ =>
    h.expect_bind (by decide) fun _ => h.pure n _

theorem paramListBody (h : Passed P) (n : Nat) : P n Tree.paramListBody := by
  have hothers : P n commaParam :=
    h.expect_bind (by decide) fun _ => h.bind (h.param n) fun _ => h.pure n _
  refine h.expect_bind (by decide) fun _ => h.peek_bind fun _ => h.ite ?_ ?_
  · exact h.bind (h.param n) fun _ => h.bind (h.many hothers _ _) fun _ =>
      h.bind (h.require n _ (by decide)) fun _ => h.pure n _
  · exact h.bind (h.require n _ (by decide)) fun _ => h.pure n _

theorem signatureAndBody (h : Passed P) (n : Nat) : P n (Tree.signatureAndBody n) :=
  h.expect_bind (by decide) fun _ => h.bind (h.opened _ h.paramListBody n) fun _ =>
    h.expect_bind (by decide) fun _ => h.expect_bind (by decide) fun _ =>
      h.bind (h.upTo n .block) fun _ => h.pure n _

theorem impureFunctionBody (h : Passed P) (n : Nat) : P n (Tree.impureFunctionBody n) :=
  h.expect_bind (by decide) fun _ => h.bind (h.signatureAndBody n) fun _ => h.pure n _

theorem pureFunctionBody (h : Passed P) (n : Nat) : P n (Tree.pureFunctionBody n) := by
  have hsignature := h.signatureAndBody n
  refine h.peek_bind fun _ => h.ite ?_ ?_
  · exact h.expect_bind (by decide) fun _ => h.bind hsignature fun _ => h.pure n _
  · exact h.bind hsignature fun _ => h.pure n _

theorem function (h : Passed P) (n : Nat) : P n (Tree.function n) := by
  refine h.peek_bind fun _ => h.ite ?_ ?_
  · exact h.bind (h.opened _ h.impureFunctionBody n) fun _ => h.pure n _
  · exact h.bind (h.opened _ h.pureFunctionBody n) fun _ => h.pure n _

theorem functions (h : Passed P) (n : Nat) : P n (Tree.functions n) :=
  h.bind (h.many (h.function n) _ _) fun _ => h.peek_bind fun _ =>
    h.ite (h.pure n _) (h.unexpected n _)

end Passed

end FunImp.Tree
