import FunImp.Proofs.Lowering.Shape
import FunImp.Proofs.Program.Grouping
import FunImp.Proofs.Program.Spans

/-! # Precedence

Lowering groups operators as their tokens say. In front of the last sign that binds weakest there
is the whole left operand and behind it the whole right one: what is further inside stands in
parentheses or braces, or binds more tightly. -/

namespace FunImp

open FunImp.Tree (IsChain)
open FunImp.Split (last? outermost?)

namespace Tree

/-- The operators outside all parentheses and braces of an expression in the place. -/
def Place.operators : Place → List Operator
  | .block | .element | .argumentList => []
  | .factor => [.multiply, .divide]
  | .term | .blockless | .expression => [.add, .subtract, .multiply, .divide]

/-- The kinds are those of operators that are not in the place. -/
def Place.Lacks (place : Place) (kinds : List Token.Kind) : Prop :=
  ∀ k ∈ kinds, (Operator.ofKind? k).any (· ∉ place.operators)

instance Place.decidableLacks (place : Place) (kinds : List Token.Kind) :
    Decidable (place.Lacks kinds) :=
  inferInstanceAs (Decidable (∀ k ∈ kinds, (Operator.ofKind? k).any (· ∉ place.operators)))

namespace Place.Lacks

variable {place operand : Place} {kinds : List Token.Kind}

theorem exists_operator (h : place.Lacks kinds) {k : Token.Kind} (hk : k ∈ kinds) :
    ∃ op, Operator.ofKind? k = some op ∧ op ∉ place.operators := by
  obtain ⟨op, hop, hnot⟩ := (Option.any_eq_true _ _).1 (h k hk)
  exact ⟨op, hop, of_decide_eq_true hnot⟩

theorem not_mem (h : place.Lacks kinds) {t : Token} {k : Token.Kind} (ht : t.kind = k)
    (hk : ∀ op ∈ Operator.ofKind? k, op ∈ place.operators) : t.kind ∉ kinds := by
  intro hmem
  obtain ⟨op, hop, hnot⟩ := h.exists_operator (ht ▸ hmem)
  exact hnot (hk op hop)

theorem mono (h : place.Lacks kinds) (hsub : operand.operators ⊆ place.operators) :
    operand.Lacks kinds := by
  intro k hk
  obtain ⟨op, hop, hnot⟩ := h.exists_operator hk
  exact (Option.any_eq_true _ _).2 ⟨op, hop, decide_eq_true fun hmem => hnot (hsub hmem)⟩

/-- Where all operators may be, there are no kinds to lack. -/
theorem eq_nil (h : place.Lacks kinds) (hplace : place = .blockless ∨ place = .expression) :
    kinds = [] := by
  refine List.eq_nil_iff_forall_not_mem.2 fun k hk => ?_
  obtain ⟨op, -, hnot⟩ := h.exists_operator hk
  rcases hplace with rfl | rfl <;> cases op <;> exact hnot (by decide)

end Place.Lacks

namespace IsChain

variable {place operand : Place} {rule : Rule} {kinds : List Token.Kind}

theorem mem_places (h : IsChain place rule kinds operand) :
    place ∈ [.term, .factor, .element] ∧ operand ∈ [.term, .factor, .element] := by
  cases h <;> decide

/-- An operand of a chain has none of the operators of the chain. -/
theorem lacks (h : IsChain place rule kinds operand) : operand.Lacks kinds := by
  cases h <;> decide

theorem operators_subset (h : IsChain place rule kinds operand) :
    operand.operators ⊆ place.operators := by
  cases h <;> decide

theorem mem_operators (h : IsChain place rule kinds operand) {k : Token.Kind} (hk : k ∈ kinds)
    {op : Operator} (hop : Operator.ofKind? k = some op) : op ∈ place.operators := by
  cases h <;> rcases List.mem_pair.1 hk with rfl | rfl <;> cases hop <;> decide

end IsChain

end Tree

namespace Expr

/-- The tokens of the expression without white space. -/
def significant (e : Expr) : List Token := e.leaves.map Leaf.token

theorem significant_block (id : NodeId) (o : Leaf) (children : List Expr) (c : Leaf) :
    (block id o children c).significant =
      o.token :: (children.flatMap significant ++ [c.token]) := by
  have hsignificant : significant = fun e => e.leaves.map Leaf.token := rfl
  simp [hsignificant, leaves_block, List.map_flatMap]

theorem significant_statement (id : NodeId) (child : Expr) (s : Leaf) :
    (statement id child s).significant = child.significant ++ [s.token] := by
  simp [significant, leaves_statement]

theorem significant_binary (id : NodeId) (left : Expr) (op : Operator) (s : Leaf) (right : Expr) :
    (binary id left op s right).significant =
      left.significant ++ s.token :: right.significant := by
  simp [significant, leaves_binary]

theorem significant_call (id : NodeId) (n o : Leaf) (arguments : Separated Expr) (c : Leaf) :
    (call id n o arguments c).significant = n.token :: o.token ::
      (arguments.flatMap (fun a => a.1.significant ++ a.2.toList.map Leaf.token) ++
        [c.token]) := by
  simp [significant, leaves_call, argumentLeaves, List.map_flatMap]

variable {place : Tree.Place} {e : Expr}

theorem balanced_arguments {arguments : Separated Expr}
    (h : ∀ a ∈ arguments, Balanced a.1.significant)
    (hcomma : ∀ a ∈ arguments, ∀ l ∈ a.2, l.kind = .comma) :
    Balanced (arguments.flatMap fun a => a.1.significant ++ a.2.toList.map Leaf.token) := by
  refine .flatMap fun a ha => (h a ha).append ?_
  cases hseparator : a.2 with
  | none => exact .nil
  | some l => exact .single (Token.nesting_eq_self (hcomma a ha l hseparator) (by decide))

theorem Fits.balanced (h : e.Fits place) : Balanced e.significant := by
  induction h with
  | block ho _ hc ih =>
    rw [significant_block]
    exact .enclosed (Token.nesting_opening (.inr ho)) (.flatMap ih)
      (Token.nesting_closing (.inr hc))
  | blockless _ ih | braced _ ih | bare _ ih | operand _ _ ih => exact ih
  | statement _ hs ih =>
    rw [significant_statement]
    exact ih.append (.single (Token.nesting_eq_self hs (by decide)))
  | link _ _ _ hop _ ihl ihr =>
    rw [significant_binary]
    exact ihl.append (.cons (Token.nesting_of_ofKind? hop) ihr)
  | integer hl => exact .single (Token.nesting_eq_self hl (by decide))
  | reference hl => exact .single (Token.nesting_eq_self hl (by decide))
  | call hn ho _ hcomma hc ih =>
    rw [significant_call]
    exact .cons (Token.nesting_eq_self hn (by decide)) (.enclosed
      (Token.nesting_opening (.inl ho)) (balanced_arguments ih hcomma)
      (Token.nesting_closing (.inl hc)))

variable {kinds : List Token.Kind}

/-- No operator that the place lacks is outside all parentheses and braces. -/
theorem Fits.last?_eq_none (h : e.Fits place) (hk : place.Lacks kinds) :
    last? kinds 0 e.significant = none := by
  induction h with
  | block ho h _ =>
    rw [significant_block]
    exact Balanced.last?_enclosed (Token.nesting_opening (.inr ho))
      (.flatMap fun e he => (h e he).balanced) fun _ => hk.not_mem ho nofun
  | blockless | braced | bare | statement =>
    obtain rfl := hk.eq_nil (by simp)
    exact Split.last?_eq_none fun _ _ => List.not_mem_nil
  | operand hc _ ih => exact ih (hk.mono hc.operators_subset)
  | link hc hl hs hop _ ihl ihr =>
    rw [significant_binary]
    exact hl.balanced.last?_link_eq_none (Token.nesting_of_ofKind? hop 0) (ihl hk)
      (ihr (hk.mono hc.operators_subset)) (hk.not_mem rfl fun _ => hc.mem_operators hs)
  | integer hl => exact Split.last?_cons_eq_none (fun _ => hk.not_mem hl nofun) rfl
  | reference hl => exact Split.last?_cons_eq_none (fun _ => hk.not_mem hl nofun) rfl
  | call hn ho h hcomma _ =>
    rw [significant_call]
    refine Split.last?_cons_eq_none (fun _ => hk.not_mem hn nofun) ?_
    exact Balanced.last?_enclosed (Token.nesting_opening (.inl ho))
      (balanced_arguments (fun a ha => (h a ha).balanced) hcomma) fun _ => hk.not_mem ho nofun

/-- A chain is taken apart at its last sign. -/
theorem Fits.outermost?_binary {operand : Tree.Place} {rule : Rule} {kinds : List Token.Kind}
    {id : NodeId} {left right : Expr} {op : Operator} {sign : Leaf}
    (hc : IsChain place rule kinds operand) (hl : left.Fits place) (hs : sign.kind ∈ kinds)
    (hop : Operator.ofKind? sign.kind = some op) (hr : right.Fits operand) :
    outermost? (binary id left op sign right).significant =
      some ⟨left.significant, sign.token, right.significant⟩ := by
  have hlast : last? kinds 0 (binary id left op sign right).significant =
      some ⟨left.significant, sign.token, right.significant⟩ := by
    rw [significant_binary]
    exact hl.balanced.last?_link (Token.nesting_of_ofKind? hop 0) (hr.last?_eq_none hc.lacks) hs
  have hfits : (binary id left op sign right).Fits place := .link hc hl hs hop hr
  cases hc with
  | term => simp [outermost?, hlast]
  | factor =>
    have hsums : last? [.plus, .minus] 0 (binary id left op sign right).significant = none :=
      hfits.last?_eq_none (by decide)
    simp [outermost?, hsums, hlast]

theorem Fits.read_eq_ofOperand? (h : e.Fits .element) :
    Grouping.read e.significant = Grouping.ofOperand? e.significant := by
  have hsums : last? [.plus, .minus] 0 e.significant = none := h.last?_eq_none (by decide)
  have hproducts : last? [.star, .slash] 0 e.significant = none := h.last?_eq_none (by decide)
  exact Grouping.read_of_outermost?_eq_none (by simp [outermost?, hsums, hproducts])

/-- The tokens of a chain or of an operand say how it is grouped. -/
theorem Fits.read (h : e.Fits place) (hplace : place ∈ [.term, .factor, .element]) :
    ∃ g, Grouping.read e.significant = some g ∧ e.grouping? = some g := by
  induction h with
  | block | blockless | braced | bare | statement => simp at hplace
  | operand hc _ ih => exact ih hc.mem_places.2
  | @link place operand rule kinds id left right op sign hc hl hs hop hr ihl ihr =>
    obtain ⟨l, hreadl, hgroupl⟩ := ihl hplace
    obtain ⟨r, hreadr, hgroupr⟩ := ihr hc.mem_places.2
    refine ⟨.binary l op sign.token r, ?_, by simp [grouping?, hgroupl, hgroupr]⟩
    exact Grouping.read_of_outermost? (Fits.outermost?_binary hc hl hs hop hr) hreadl hop hreadr
  | @integer id l hl =>
    have hkind : l.token.kind = .integer := hl
    refine ⟨.integer l.token, ?_, rfl⟩
    rw [(Fits.integer hl).read_eq_ofOperand?]
    simp [significant, leaves, leavesOnto, Grouping.ofOperand?, hkind]
  | @reference id l hl =>
    have hkind : l.token.kind = .identifier := hl
    refine ⟨.reference l.token, ?_, rfl⟩
    rw [(Fits.reference hl).read_eq_ofOperand?]
    simp [significant, leaves, leavesOnto, Grouping.ofOperand?, hkind]
  | @call id n o c arguments hn ho h hcomma hc =>
    have hname : n.token.kind = .identifier := hn
    have hopening : o.token.kind = .leftParen := ho
    refine ⟨_, ?_, rfl⟩
    rw [(Fits.call hn ho h hcomma hc).read_eq_ofOperand?]
    simp [significant, leaves, leavesOnto, Grouping.ofOperand?, hname, hopening]

def operator? : Expr → Option Operator
  | binary _ _ op _ _ => some op
  | _ => none

/-- Whether the expression is one that needs no braces and no semicolon. -/
def isOperand : Expr → Bool
  | block .. | bare .. | statement .. => false
  | binary .. | integer .. | reference .. | call .. => true

theorem Fits.mem_operators (h : e.Fits place) : ∀ op ∈ e.operator?, op ∈ place.operators := by
  induction h with
  | operand hc _ ih => exact fun op hop => hc.operators_subset (ih op hop)
  | link hc _ hs hop _ _ _ =>
    intro op' hop'
    cases hop'
    exact hc.mem_operators hs hop
  | braced _ ih => exact fun op hop => absurd (ih op hop) List.not_mem_nil
  | bare _ ih => exact ih
  | _ => nofun

theorem Fits.isOperand (h : e.Fits place) (hplace : place ∈ [.term, .factor, .element]) :
    e.isOperand = true := by
  induction h with
  | block | blockless | braced | bare | statement => simp at hplace
  | operand hc _ ih => exact ih hc.mem_places.2
  | link | integer | reference | call => rfl

/-- What stands to the right of an operator binds more tightly than it, and so does what stands to
the left, up to operators that bind alike. -/
structure Ranked (left : Expr) (op : Operator) (right : Expr) : Prop where
  sum : op ∈ [.add, .subtract] → ∀ o ∈ right.operator?, o ∈ [.multiply, .divide]
  product_left : op ∈ [.multiply, .divide] → ∀ o ∈ left.operator?, o ∈ [.multiply, .divide]
  product_right : op ∈ [.multiply, .divide] → right.operator? = none
  isOperand_left : left.isOperand = true
  isOperand_right : right.isOperand = true

theorem Fits.ranked {id : NodeId} {left right : Expr} {op : Operator} {sign : Leaf}
    (h : (binary id left op sign right).Fits place) : Ranked left op right := by
  obtain ⟨place, rule, kinds, operand, hc, hl, hs, hop, hr⟩ := h.sides
  have hleft := hl.mem_operators
  have hright := hr.mem_operators
  have hoperands : left.isOperand = true ∧ right.isOperand = true :=
    ⟨hl.isOperand hc.mem_places.1, hr.isOperand hc.mem_places.2⟩
  cases hc with
  | term =>
    obtain ⟨op', hop', hnot⟩ := IsChain.term.lacks.exists_operator hs
    obtain rfl : op = op' := Option.some.inj (hop.symm.trans hop')
    exact ⟨fun _ => hright, fun hmem => absurd hmem hnot, fun hmem => absurd hmem hnot,
      hoperands.1, hoperands.2⟩
  | factor =>
    have hnot : op ∉ [.add, .subtract] := by
      have hproduct : op ∈ [.multiply, .divide] := IsChain.factor.mem_operators hs hop
      rcases List.mem_pair.1 hproduct with rfl | rfl <;> decide
    have hnone : right.operator? = none :=
      Option.eq_none_iff_forall_not_mem.2 fun o ho => List.not_mem_nil (hright o ho)
    exact ⟨fun hmem => absurd hmem hnot, fun _ => hleft, fun _ => hnone, hoperands.1, hoperands.2⟩

end Expr

/-- What a bare expression wraps is grouped as its tokens say. -/
theorem exists_grouping_of_mem_unwrapped {t : Tree} {p : Program} (ht : t.WellFormed)
    (hp : lower t = .ok p) {child : Expr} (hchild : child ∈ p.unwrapped) :
    ∃ g, Grouping.read (child.tokens.filter (!·.isWhitespace)) = some g ∧
      child.grouping? = some g := by
  obtain ⟨n, hn, hwrap⟩ := List.mem_filterMap.1 hchild
  obtain ⟨id, rfl⟩ := Expr.unwrap?_eq_some_iff.1 hwrap
  obtain ⟨place, hfits⟩ := ht.isProgram.fits_of_mem_nodes hp hn
  obtain ⟨before, behind, hleaves⟩ := (Program.within_of_mem_nodes hn).exists_leaves
  change p.leaves = before ++ child.leaves ++ behind at hleaves
  have htidy : ∀ l ∈ child.leaves, l.Tidy := by
    intro l hl
    refine ht.tidy l ?_
    rw [Tree.leaves_eq_of_lower hp, hleaves]
    exact List.mem_append_left _ (List.mem_append_right _ hl)
  rw [Expr.tokens, Leaf.filter_tokens htidy]
  exact hfits.child.read (by simp)

/-- Precedence and associativity hold of chains of any length. Every tree that is read is lowered,
and each of its expressions without braces is grouped as its own tokens say, white space left out:
around the last `+` or `-` outside all parentheses and braces, or where there is none around the
last `*` or `/` there. -/
theorem grouping_of_parse {source : Source} {ts : List Token} {t : Tree}
    (hparse : parse ts source = .ok t) :
    ∃ p, lower t = .ok p ∧
      (t.blockless.map fun b => Grouping.read (b.tokens.filter (!·.isWhitespace))) =
        p.unwrapped.map Expr.grouping? ∧
      (∀ child ∈ p.unwrapped, child.grouping?.isSome) ∧
      ∀ id left op sign right, .binary id left op sign right ∈ p.nodes →
        Expr.Ranked left op right := by
  obtain ⟨hwf, -, -⟩ := wellFormed_of_parse_eq_ok hparse
  obtain ⟨p, hp⟩ := hwf.isProgram.lower_eq_ok
  obtain ⟨s, hreturns⟩ := lower_eq_ok_iff.1 hp
  refine ⟨p, hp, ?_, fun child hchild => ?_, fun id left op sign right hn => ?_⟩
  · calc t.blockless.map (fun b => Grouping.read (b.tokens.filter (!·.isWhitespace)))
        = (t.blockless.map Tree.tokens).map
            (fun tokens => Grouping.read (tokens.filter (!·.isWhitespace))) := by
          rw [List.map_map]
          rfl
      _ = p.unwrapped.map
            (fun child => Grouping.read (child.tokens.filter (!·.isWhitespace))) := by
          rw [Tree.map_tokens_blockless hreturns, List.map_map]
          rfl
      _ = p.unwrapped.map Expr.grouping? := by
          refine List.map_congr_left fun child hchild => ?_
          obtain ⟨g, hread, hgrouping⟩ := exists_grouping_of_mem_unwrapped hwf hp hchild
          rw [hread, hgrouping]
  · obtain ⟨g, -, hgrouping⟩ := exists_grouping_of_mem_unwrapped hwf hp hchild
    simp [hgrouping]
  · obtain ⟨place, hfits⟩ := hwf.isProgram.fits_of_mem_nodes hp hn
    exact hfits.ranked

/-- Both tiers of operators, arguments and a block. -/
private def mixedSource : Source :=
  ⟨"mixed", "f(a: int): int \x7b 8 - g(a * 2, \x7b 1 - 2 * 3 - a \x7d) * 4 \x7d"⟩

/-- The grouping with all its parentheses. -/
private def shown : Grouping → String
  | .integer t | .reference t => t.text.getD ""
  | .call name _ => name.text.getD "" ++ "(..)"
  | .binary left op _ right => "(" ++ shown left ++ op.symbol ++ shown right ++ ")"

theorem grouping_of_parse_sample :
    ∃ ts t p, lex mixedSource = .ok ts ∧ parse ts mixedSource = .ok t ∧ lower t = .ok p ∧
      (t.blockless.map fun b =>
          (Grouping.read (b.tokens.filter (!·.isWhitespace))).map shown) =
        ["(a*2)", "((1-(2*3))-a)", "(8-(g(..)*4))"].map some ∧
      (t.blockless.map fun b => Grouping.read (b.tokens.filter (!·.isWhitespace))) =
        p.unwrapped.map Expr.grouping? ∧
      (∀ child ∈ p.unwrapped, child.grouping?.isSome) ∧
      ∀ id left op sign right, .binary id left op sign right ∈ p.nodes →
        Expr.Ranked left op right := by
  have hread : mixedSource.read?.map
      (fun r => r.2.unwrapped.map fun child => child.grouping?.map shown) =
        some (["(a*2)", "((1-(2*3))-a)", "(8-(g(..)*4))"].map some) := by decide +kernel
  obtain ⟨ts, t, p, hlex, hparse, hlower, hshown⟩ := Source.exists_of_map_read? hread
  obtain ⟨q, hq, hgrouping, hsome, hranked⟩ := grouping_of_parse hparse
  obtain rfl := Except.ok.inj (hlower.symm.trans hq)
  refine ⟨ts, t, p, hlex, hparse, hlower, ?_, hgrouping, hsome, hranked⟩
  have hall := congrArg (List.map (Option.map shown)) hgrouping
  rw [List.map_map, List.map_map] at hall
  exact hall.trans hshown

end FunImp
