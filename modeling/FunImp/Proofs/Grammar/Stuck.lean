import FunImp.Proofs.Grammar.Failing

/-! # Where readers get stuck

`Stuck` says by rules on leaves alone how far a reader for a place can come before it fails: which
leaves it has taken, and what it then asks for. The rules follow the open rules of the grammar from
the outermost inwards, and whatever is complete in front of the innermost one is given by trees. -/

namespace FunImp.Tree

open Reader

/-- What a reader asks for where it is stuck. -/
inductive Site where
  /-- A number or a name, where an expression or an operand should start. -/
  | operand
  /-- What may stand behind an argument. -/
  | argumentEnd
  /-- One of some kinds, where nothing else may stand. -/
  | fixed (expected : List Token.Kind)
  /-- Fewer open rules. -/
  | tooDeep

namespace Site

/-- The kinds that are asked for. -/
def expected : Site → List Token.Kind
  | operand => [.integer, .identifier]
  | argumentEnd => [.comma, .rightParen]
  | fixed kinds => kinds
  | tooDeep => []

def obstacle : Site → Obstacle
  | tooDeep => .tooDeep
  | s => .unexpected s.expected

/-- The innermost of the open rules asks for this. -/
def AskedIn (rules : List Rule) : Site → Prop
  | operand => rules.getLast? = some .element
  | argumentEnd => rules.getLast? = some .argumentList
  | fixed _ => ∃ rule ∈ rules.getLast?, rule ≠ .element ∧ rule ≠ .argumentList
  | tooDeep => True

theorem AskedIn.cons {rules : List Rule} {s : Site} (h : s.AskedIn rules) (rule : Rule) :
    s.AskedIn (rule :: rules) := by
  cases s with
  | tooDeep => trivial
  | _ =>
    cases rules with
    | nil => simp [AskedIn] at h
    | cons inner rules => simpa [AskedIn] using h

/-- The failure is of this sort. -/
structure Explains (s : Site) (e : Failure) : Prop where
  obstacle : e.obstacle = s.obstacle
  asked : s.AskedIn e.rules
  unexpected : kindOfNext e.remaining ∉ s.expected

theorem Explains.within {s : Site} {e : Failure} (h : s.Explains e) (rule : Rule) :
    s.Explains { e with rules := rule :: e.rules } :=
  ⟨h.obstacle, h.asked.cons rule, h.unexpected⟩

end Site

/-- An item of a block with so many levels of rules. -/
structure IsItem (budget : Nat) (i : Tree × Option Tree) : Prop where
  fits : Fits .expression i.1
  semicolon : ∀ s ∈ i.2, IsLeaf [.semicolon] s
  depth : (itemTree i).ruleDepth ≤ budget

/-- With so many levels of rules, a reader for the place takes these leaves and is then stuck. -/
inductive Stuck : Place → Nat → List Leaf → Site → Prop where
  | tooDeep {place : Place} : Stuck place 0 [] .tooDeep
  | brace {n : Nat} : Stuck .block (n + 1) [] (.fixed [.leftBrace])
  | item {n : Nat} {o : Leaf} {items : List (Tree × Option Tree)} {pre : List Leaf} {s : Site}
      (ho : o.kind = .leftBrace) (hi : ∀ i ∈ items, IsItem n i) (h : Stuck .expression n pre s) :
      Stuck .block (n + 1) (o :: forestLeaves (items.map itemTree) ++ pre) s
  | braced {n : Nat} {pre : List Leaf} {s : Site} (h : Stuck .block n pre s) (hpre : pre ≠ []) :
      Stuck .expression n pre s
  | bare {n : Nat} {pre : List Leaf} {s : Site} (h : Stuck .blockless n pre s) :
      Stuck .expression n pre s
  | blockless {n : Nat} {pre : List Leaf} {s : Site} (h : Stuck .term n pre s) :
      Stuck .blockless (n + 1) pre s
  | first {place operand : Place} {rule : Rule} {kinds : List Token.Kind} {n : Nat}
      {pre : List Leaf} {s : Site} (hc : IsChain place rule kinds operand)
      (h : Stuck operand n pre s) : Stuck place (n + 1) pre s
  | link {place operand : Place} {rule : Rule} {kinds : List Token.Kind} {n : Nat} {first : Tree}
      {links : List (Tree × Tree)} {sign : Leaf} {pre : List Leaf} {s : Site}
      (hc : IsChain place rule kinds operand) (hf : Fits operand first) (hd : first.ruleDepth ≤ n)
      (hl : ∀ l ∈ links, Rules.IsLink operand n kinds l) (hs : sign.kind ∈ kinds)
      (h : Stuck operand n pre s) :
      Stuck place (n + 1)
        (first.leaves ++ forestLeaves (links.flatMap linkTrees) ++ sign :: pre) s
  | operand {n : Nat} : Stuck .element (n + 1) [] .operand
  | call {n : Nat} {name : Leaf} {pre : List Leaf} {s : Site} (hn : name.kind = .identifier)
      (h : Stuck .argumentList n pre s) : Stuck .element (n + 1) (name :: pre) s
  | firstArgument {n : Nat} {o : Leaf} {pre : List Leaf} {s : Site} (ho : o.kind = .leftParen)
      (h : Stuck .expression n pre s) : Stuck .argumentList (n + 1) (o :: pre) s
  | argument {n : Nat} {o comma : Leaf} {first : Tree} {links : List (Tree × Tree)}
      {pre : List Leaf} {s : Site} (ho : o.kind = .leftParen) (hf : Fits .expression first)
      (hd : first.ruleDepth ≤ n) (hl : ∀ l ∈ links, Rules.IsLink .expression n [.comma] l)
      (hc : comma.kind = .comma) (h : Stuck .expression n pre s) :
      Stuck .argumentList (n + 1)
        (o :: (first.leaves ++ forestLeaves (links.flatMap linkTrees) ++ comma :: pre)) s
  | argumentEnd {n : Nat} {o : Leaf} {first : Tree} {links : List (Tree × Tree)}
      (ho : o.kind = .leftParen) (hf : Fits .expression first) (hd : first.ruleDepth ≤ n)
      (hl : ∀ l ∈ links, Rules.IsLink .expression n [.comma] l) :
      Stuck .argumentList (n + 1)
        (o :: (first.leaves ++ forestLeaves (links.flatMap linkTrees))) .argumentEnd

/-- The failure says where the reader is stuck. -/
def StuckAt (place : Place) (budget : Nat) (ls : List Leaf) (e : Failure) : Prop :=
  ∃ taken s, ls = taken ++ e.remaining ∧ Stuck place budget taken s ∧ s.Explains e

namespace Rules

/-- Readers that fail are stuck. One for argument lists is asked only where one is opened. -/
def Honest (rules : Rules) (budget : Nat) : Prop :=
  ∀ place {ls e}, (place = .argumentList → kindOfNext ls = .leftParen) →
    (rules.readerOf place).run ls = .error e → StuckAt place budget ls e

variable {rules : Rules} {budget : Nat} {ls : List Leaf} {e : Failure}

theorem Honest.stuckAt (hr : rules.Honest budget) (place : Place) (hplace : place ≠ .argumentList)
    (h : (rules.readerOf place).run ls = .error e) : StuckAt place budget ls e :=
  hr place (fun hargs => absurd hargs hplace) h

theorem expression_of_item_eq_error (h : rules.item.run ls = .error e) :
    rules.expression.run ls = .error e := by
  simp only [item, run_bind_eq_error, run_peek_eq_ok, run_peek_ne_error, false_or] at h
  obtain h | ⟨t, between, -, next, _, ⟨hnext, rfl⟩, h⟩ := h
  · exact h
  · split at h
    · rename_i hsemicolon
      simp only [run_bind_eq_error, run_expect_eq_error [.semicolon] (by decide),
        run_pure_ne_error, and_false, exists_false, or_false] at h
      exact absurd (by simpa [hnext] using hsemicolon) h.1
    · exact absurd h run_pure_ne_error

theorem operand_of_separated_eq_error {kinds : List Token.Kind} {p : Reader Tree}
    (hnext : kindOfNext ls ∈ kinds) (heof : .eof ∉ kinds)
    (h : (separated kinds p).run ls = .error e) :
    ∃ sign rest, ls = sign :: rest ∧ sign.kind ∈ kinds ∧ p.run rest = .error e := by
  simp only [separated, run_bind_eq_error, run_expect_eq_error kinds heof, run_expect_eq_ok,
    run_pure_ne_error, and_false, exists_false, or_false] at h
  obtain ⟨hnot, -⟩ | ⟨_, rest, ⟨sign, rfl, hsign, -⟩, h⟩ := h
  · exact absurd hnext hnot
  · exact ⟨sign, rest, rfl, hsign, h⟩

/-- Repeating a separated phrase fails in a phrase behind a separator. -/
theorem links_of_run_eq_error (hs : rules.Sound budget) (place : Place) {kinds : List Token.Kind}
    {more : Token.Kind → Bool} {hp : (separated kinds (rules.readerOf place)).Strict}
    (hmore : ∀ k, more k = true → k ∈ kinds) (heof : .eof ∉ kinds)
    (h : (many more (separated kinds (rules.readerOf place)) hp).run ls = .error e) :
    ∃ (links : List (Tree × Tree)) (sign : Leaf) (rest : List Leaf),
      ls = forestLeaves (links.flatMap linkTrees) ++ sign :: rest ∧
      (∀ l ∈ links, IsLink place budget kinds l) ∧ sign.kind ∈ kinds ∧
      (rules.readerOf place).run rest = .error e := by
  obtain ⟨links, rest, rfl, hlinks, hnext, hfail⟩ :=
    rows_of_run_many_eq_error linkTrees (fun _ _ _ => link_of_run hs place) h
  obtain ⟨sign, rest, rfl, hsign, hfail⟩ := operand_of_separated_eq_error (hmore _ hnext) heof hfail
  exact ⟨links, sign, rest, rfl, hlinks, hsign, hfail⟩

theorem stuckAt_chain (hs : rules.Sound budget) (hr : rules.Honest budget)
    {place operand : Place} {rule : Rule} {kinds : List Token.Kind}
    (hc : IsChain place rule kinds operand)
    (h : (within rule (chain rule kinds (rules.readerOf operand))).run ls = .error e) :
    StuckAt place (budget + 1) ls e := by
  obtain ⟨inner, hinner, rfl⟩ := run_within_eq_error.1 h
  have hoperand : operand ≠ .argumentList ∧ .eof ∉ kinds := by cases hc <;> decide
  simp only [chain, run_bind_eq_error, run_pure_ne_error, and_false, exists_false, or_false]
    at hinner
  obtain hfail | ⟨first, _, hfirst, hfail⟩ := hinner
  · obtain ⟨taken, s, hls, hstuck, hs⟩ := hr operand (fun h => absurd h hoperand.1) hfail
    exact ⟨taken, s, hls, .first hc hstuck, hs.within rule⟩
  · obtain ⟨fits, depth, rfl⟩ := hs operand _ _ _ hfirst
    obtain ⟨links, sign, rest, rfl, hlinks, hsign, hfail⟩ :=
      links_of_run_eq_error hs operand (fun k hk => by simpa using hk) hoperand.2 hfail
    obtain ⟨taken, s, rfl, hstuck, hs⟩ := hr operand (fun h => absurd h hoperand.1) hfail
    exact ⟨_, s, by simp, .link hc fits depth hlinks hsign hstuck, hs.within rule⟩

theorem stuckAt_block (hs : rules.Sound budget) (hr : rules.Honest budget)
    (h : (within .blockExpression rules.blockBody).run ls = .error e) :
    StuckAt .block (budget + 1) ls e := by
  obtain ⟨inner, hinner, rfl⟩ := run_within_eq_error.1 h
  simp only [blockBody, run_bind_eq_error, run_expect_eq_error [.leftBrace] (by decide),
    run_expect_eq_error [.rightBrace] (by decide), run_expect_eq_ok, run_pure_ne_error,
    and_false, exists_false, or_false] at hinner
  obtain ⟨hnext, rfl⟩ | ⟨_, _, ⟨o, rfl, ho, -⟩, hfail | ⟨items, _, hitems, hnext, -⟩⟩ := hinner
  · exact ⟨[], _, rfl, .brace, rfl, ⟨.blockExpression, rfl, by decide⟩, hnext⟩
  · obtain ⟨items, rest, rfl, hitems, -, hfail⟩ :=
      rows_of_run_many_eq_error (fun i => [itemTree i]) (fun _ _ _ => item_of_run hs) hfail
    obtain ⟨taken, s, rfl, hstuck, hs⟩ :=
      hr.stuckAt .expression (by decide) (expression_of_item_eq_error hfail)
    rw [← List.map_eq_flatMap]
    have hi : ∀ i ∈ items, IsItem budget i := fun i hm =>
      ⟨(hitems i hm).1, (hitems i hm).2.1, (hitems i hm).2.2⟩
    have ho : o.kind = .leftBrace := by simpa using ho
    exact ⟨_, s, by simp, .item ho hi hstuck, hs.within _⟩
  · have hstop := more_of_run_many_eq_ok hitems
    exact absurd (by simpa using hstop) hnext

theorem stuckAt_blockless (hr : rules.Honest budget)
    (h : (within .blocklessExpression rules.blocklessBody).run ls = .error e) :
    StuckAt .blockless (budget + 1) ls e := by
  obtain ⟨inner, hinner, rfl⟩ := run_within_eq_error.1 h
  simp only [blocklessBody, run_bind_eq_error, run_pure_ne_error, and_false, exists_false,
    or_false] at hinner
  obtain ⟨taken, s, hls, hstuck, hs⟩ := hr.stuckAt .term (by decide) hinner
  exact ⟨taken, s, hls, .blockless hstuck, hs.within _⟩

theorem stuckAt_element (hr : rules.Honest budget)
    (h : (within .element rules.elementBody).run ls = .error e) :
    StuckAt .element (budget + 1) ls e := by
  obtain ⟨inner, hinner, rfl⟩ := run_within_eq_error.1 h
  simp only [elementBody, run_bind_eq_error, run_peek_eq_ok, run_peek_ne_error,
    run_expect_eq_error [.integer, .identifier] (by decide), run_expect_eq_ok,
    false_or] at hinner
  obtain ⟨first, _, ⟨hfirst, rfl⟩, ⟨hnot, rfl⟩ | ⟨_, between, ⟨l, rfl, hl, rfl⟩, next, _,
    ⟨hnext, rfl⟩, hfail⟩⟩ := hinner
  · exact ⟨[], _, rfl, .operand, rfl, rfl, hnot⟩
  · split at hfail
    · rename_i hcall
      have hname : l.kind = .identifier := hfirst.trans hcall.1
      simp only [run_bind_eq_error, run_pure_ne_error, and_false, exists_false, or_false] at hfail
      obtain ⟨taken, s, rfl, hstuck, hs⟩ :=
        hr .argumentList (fun _ => hnext.trans hcall.2) hfail
      exact ⟨_, s, rfl, .call hname hstuck, hs.within _⟩
    · exact absurd hfail run_pure_ne_error

theorem stuckAt_argumentList (hs : rules.Sound budget) (hr : rules.Honest budget)
    (hparen : kindOfNext ls = .leftParen)
    (h : (within .argumentList rules.argumentListBody).run ls = .error e) :
    StuckAt .argumentList (budget + 1) ls e := by
  obtain ⟨inner, hinner, rfl⟩ := run_within_eq_error.1 h
  simp only [argumentListBody, run_bind_eq_error, run_peek_eq_ok, run_peek_ne_error,
    run_expect_eq_error [.leftParen] (by decide), run_expect_eq_ok,
    false_or] at hinner
  obtain ⟨hnot, -⟩ | ⟨_, _, ⟨o, rfl, ho, rfl⟩, next, _, ⟨hnext, rfl⟩, hfail⟩ := hinner
  · exact absurd hparen (by simpa using hnot)
  have ho : o.kind = .leftParen := hparen
  split at hfail
  · rename_i hclosing
    simp only [run_bind_eq_error, run_expect_eq_error [.rightParen] (by decide),
      run_pure_ne_error, and_false, exists_false, or_false] at hfail
    exact absurd (hnext.trans hclosing) (by simpa using hfail.1)
  · simp only [run_bind_eq_error, run_require_eq_error [.rightParen] (by decide),
      run_pure_ne_error, and_false, exists_false, or_false] at hfail
    obtain hfail | ⟨first, _, hfirst, hfail⟩ := hfail
    · obtain ⟨taken, s, rfl, hstuck, hs⟩ := hr.stuckAt .expression (by decide) hfail
      exact ⟨_, s, rfl, .firstArgument ho hstuck, hs.within _⟩
    obtain ⟨fits, depth, rfl⟩ := hs .expression _ _ _ hfirst
    obtain hfail | ⟨others, _, hothers, hnot, rfl⟩ := hfail
    · obtain ⟨links, comma, rest, rfl, hlinks, hcomma, hfail⟩ :=
        links_of_run_eq_error hs .expression (fun k hk => by simpa using hk) (by decide) hfail
      obtain ⟨taken, s, rfl, hstuck, hs⟩ := hr.stuckAt .expression (by decide) hfail
      have hcomma : comma.kind = .comma := by simpa using hcomma
      exact ⟨_, s, by simp, .argument ho fits depth hlinks hcomma hstuck, hs.within _⟩
    · have hcomma := of_decide_eq_false (more_of_run_many_eq_ok hothers)
      obtain ⟨links, rfl, hlinks, rfl⟩ :=
        rows_of_run_many linkTrees (fun _ _ _ => link_of_run hs .expression) hothers
      refine ⟨_, _, by simp, .argumentEnd ho fits depth hlinks, rfl, rfl, ?_⟩
      simpa [Site.expected, hcomma] using hnot

theorem stuckAt_expression
    (hblock : rules.block.1.run ls = .error e → StuckAt .block budget ls e)
    (hbare : rules.blockless.1.run ls = .error e → StuckAt .blockless budget ls e)
    (h : rules.expression.run ls = .error e) : StuckAt .expression budget ls e := by
  simp only [expression, run_bind_eq_error, run_peek_eq_ok, run_peek_ne_error, false_or] at h
  obtain ⟨next, _, ⟨hnext, rfl⟩, h⟩ := h
  split at h
  · rename_i hbrace
    obtain ⟨taken, s, hls, hstuck, hs⟩ := hblock h
    refine ⟨taken, s, hls, ?_, hs⟩
    cases hstuck with
    | tooDeep => exact .tooDeep
    | brace =>
      rw [hls] at hnext
      exact absurd (List.mem_singleton.2 (hnext.trans hbrace)) hs.unexpected
    | item ho hi hexpression => exact .braced (.item ho hi hexpression) (List.cons_ne_nil _ _)
    | first hc => cases hc
    | link hc => cases hc
  · obtain ⟨taken, s, hls, hstuck, hs⟩ := hbare h
    exact ⟨taken, s, hls, .bare hstuck, hs⟩

theorem honest_upTo (budget : Nat) : (upTo budget).Honest budget := by
  intro place ls e hparen h
  induction budget generalizing place ls e with
  | zero =>
    have htooDeep (h : (fail .tooDeep : Reader Tree).run ls = .error e) (place : Place) :
        StuckAt place 0 ls e := by
      obtain rfl := run_fail_eq_error.1 h
      exact ⟨[], _, rfl, .tooDeep, rfl, trivial, by simp [Site.expected]⟩
    cases place with
    | expression => exact stuckAt_expression (htooDeep · _) (htooDeep · _) h
    | _ => exact htooDeep h _
  | succ n ih =>
    have hs := sound_upTo n
    have hr : (upTo n).Honest n := ih
    have hblock (h : (upTo (n + 1)).block.1.run ls = .error e) : StuckAt .block (n + 1) ls e :=
      stuckAt_block hs hr h
    have hbare (h : (upTo (n + 1)).blockless.1.run ls = .error e) :
        StuckAt .blockless (n + 1) ls e := stuckAt_blockless hr h
    cases place with
    | block => exact hblock h
    | blockless => exact hbare h
    | expression => exact stuckAt_expression hblock hbare h
    | term => exact stuckAt_chain hs hr .term h
    | factor => exact stuckAt_chain hs hr .factor h
    | element => exact stuckAt_element hr h
    | argumentList => exact stuckAt_argumentList hs hr (hparen rfl) h

end Rules

/-- Leaves of a parameter, and the kinds of which one must come next. -/
inductive StuckParam : List Leaf → List Token.Kind → Prop where
  | name : StuckParam [] [.identifier]
  | colon {name : Leaf} (hn : name.kind = .identifier) : StuckParam [name] [.colon]
  | type {name colon : Leaf} (hn : name.kind = .identifier) (hc : colon.kind = .colon) :
      StuckParam [name, colon] [.identifier]

/-- Leaves of a parameter list, and the kinds of which one must come next. -/
inductive StuckParams : List Leaf → List Token.Kind → Prop where
  | opening : StuckParams [] [.leftParen]
  | start {o : Leaf} (ho : o.kind = .leftParen) : StuckParams [o] [.identifier, .rightParen]
  | first {o : Leaf} {pre : List Leaf} {kinds : List Token.Kind} (ho : o.kind = .leftParen)
      (h : StuckParam pre kinds) (hpre : pre ≠ []) : StuckParams (o :: pre) kinds
  | other {o comma : Leaf} {first : List Tree} {others : List (List Tree)} {pre : List Leaf}
      {kinds : List Token.Kind} (ho : o.kind = .leftParen) (hf : IsParam first)
      (hp : ∀ p ∈ others, IsCommaParam p) (hc : comma.kind = .comma) (h : StuckParam pre kinds) :
      StuckParams (o :: (forestLeaves first ++ forestLeaves others.flatten ++ comma :: pre)) kinds
  | paramEnd {o : Leaf} {first : List Tree} {others : List (List Tree)} (ho : o.kind = .leftParen)
      (hf : IsParam first) (hp : ∀ p ∈ others, IsCommaParam p) :
      StuckParams (o :: (forestLeaves first ++ forestLeaves others.flatten)) [.comma, .rightParen]

/-- Leaves of a function behind its keyword, and what is asked for next. -/
inductive StuckSignature (n : Nat) : List Leaf → Site → Prop where
  | name : StuckSignature n [] (.fixed [.identifier])
  | params {name : Leaf} {pre : List Leaf} {kinds : List Token.Kind}
      (hn : name.kind = .identifier) (h : StuckParams pre kinds) :
      StuckSignature n (name :: pre) (.fixed kinds)
  | colon {name : Leaf} {list : Tree} (hn : name.kind = .identifier) (hp : IsParamList list) :
      StuckSignature n (name :: list.leaves) (.fixed [.colon])
  | type {name colon : Leaf} {list : Tree} (hn : name.kind = .identifier) (hp : IsParamList list)
      (hc : colon.kind = .colon) :
      StuckSignature n (name :: (list.leaves ++ [colon])) (.fixed [.identifier])
  | body {name colon type : Leaf} {list : Tree} {pre : List Leaf} {s : Site}
      (hn : name.kind = .identifier) (hp : IsParamList list) (hc : colon.kind = .colon)
      (ht : type.kind = .identifier) (h : Stuck .block n pre s) :
      StuckSignature n (name :: (list.leaves ++ colon :: type :: pre)) s

/-- Leaves of a function that has begun, and what is asked for next. -/
inductive StuckFunction : Nat → List Leaf → Site → Prop where
  | impure {n : Nat} {keyword : Leaf} {pre : List Leaf} {s : Site} (hk : keyword.kind = .imp)
      (h : StuckSignature n pre s) : StuckFunction (n + 1) (keyword :: pre) s
  | pure {n : Nat} {keyword : Leaf} {pre : List Leaf} {s : Site} (hk : keyword.kind = .fn)
      (h : StuckSignature n pre s) : StuckFunction (n + 1) (keyword :: pre) s
  | bare {n : Nat} {pre : List Leaf} {s : Site} (h : StuckSignature n pre s) (hpre : pre ≠ []) :
      StuckFunction (n + 1) pre s

/-- Leaves of functions in a row, and what is asked for next. -/
inductive StuckProgram (n : Nat) : List Leaf → Site → Prop where
  | function {fs : List Tree} {pre : List Leaf} {s : Site}
      (hf : ∀ f ∈ fs, IsFunction f ∧ f.ruleDepth ≤ n) (h : StuckFunction n pre s) :
      StuckProgram n (forestLeaves fs ++ pre) s
  | functionEnd {fs : List Tree} (hf : ∀ f ∈ fs, IsFunction f ∧ f.ruleDepth ≤ n) :
      StuckProgram n (forestLeaves fs) (.fixed [.fn, .imp, .identifier, .eof])

variable {ls : List Leaf} {e : Failure} {n : Nat}

theorem stuck_param (h : param.run ls = .error e) :
    ∃ taken kinds, ls = taken ++ e.remaining ∧ StuckParam taken kinds ∧
      e.obstacle = .unexpected kinds ∧ e.rules = [] ∧ kindOfNext e.remaining ∉ kinds := by
  simp only [param, run_bind_eq_error, run_expect_eq_error [.identifier] (by decide),
    run_expect_eq_error [.colon] (by decide), run_expect_eq_ok, run_pure_ne_error,
    and_false, exists_false, or_false, List.mem_singleton] at h
  obtain ⟨hnot, rfl⟩ | ⟨_, _, ⟨name, rfl, hn, -⟩, ⟨hnot, rfl⟩ | ⟨_, _, ⟨colon, rfl, hc, -⟩,
    hnot, rfl⟩⟩ := h
  · exact ⟨[], _, rfl, .name, rfl, rfl, by simpa using hnot⟩
  · exact ⟨[name], _, rfl, .colon hn, rfl, rfl, by simpa using hnot⟩
  · exact ⟨[name, colon], _, rfl, .type hn hc, rfl, rfl, by simpa using hnot⟩

theorem param_of_commaParam_eq_error (hnext : kindOfNext ls = .comma)
    (h : commaParam.run ls = .error e) :
    ∃ comma rest, ls = comma :: rest ∧ comma.kind = .comma ∧ param.run rest = .error e := by
  simp only [commaParam, run_bind_eq_error, run_expect_eq_error [.comma] (by decide),
    run_expect_eq_ok, run_pure_ne_error, and_false, exists_false, or_false,
    List.mem_singleton] at h
  obtain ⟨hnot, -⟩ | ⟨_, rest, ⟨comma, rfl, hc, -⟩, h⟩ := h
  · exact absurd hnext hnot
  · exact ⟨comma, rest, rfl, hc, h⟩

theorem stuck_paramListBody (h : paramListBody.run ls = .error e) :
    ∃ taken kinds, ls = taken ++ e.remaining ∧ StuckParams taken kinds ∧
      e.obstacle = .unexpected kinds ∧ e.rules = [] ∧ kindOfNext e.remaining ∉ kinds := by
  simp only [paramListBody, run_bind_eq_error, run_peek_eq_ok, run_peek_ne_error,
    run_expect_eq_error [.leftParen] (by decide), run_expect_eq_ok, false_or,
    List.mem_singleton] at h
  obtain ⟨hnot, rfl⟩ | ⟨_, _, ⟨o, rfl, ho, rfl⟩, next, _, ⟨hnext, rfl⟩, h⟩ := h
  · exact ⟨[], _, rfl, .opening, rfl, rfl, by simpa using hnot⟩
  split at h
  · rename_i hname
    simp only [run_bind_eq_error, run_require_eq_error [.rightParen] (by decide),
      run_pure_ne_error, and_false, exists_false, or_false] at h
    obtain h | ⟨first, _, hfirst, h⟩ := h
    · obtain ⟨taken, kinds, rfl, hstuck, hobstacle, hrules, hnot⟩ := stuck_param h
      have htaken : taken ≠ [] := by
        rintro rfl
        cases hstuck
        exact hnot (List.mem_singleton.2 (hnext.trans hname))
      exact ⟨o :: taken, kinds, rfl, .first ho hstuck htaken, hobstacle, hrules, hnot⟩
    obtain ⟨hparam, rfl⟩ := param_of_run hfirst
    obtain h | ⟨others, _, hothers, hnot, rfl⟩ := h
    · obtain ⟨rows, rest, rfl, hrows, hmore, h⟩ := rows_of_run_many_eq_error id
        (fun _ ts _ h => ⟨ts, rfl, commaParam_of_run h⟩) h
      obtain ⟨comma, rest, rfl, hc, h⟩ := param_of_commaParam_eq_error (of_decide_eq_true hmore) h
      obtain ⟨taken, kinds, rfl, hstuck, hobstacle, hrules, hnot⟩ := stuck_param h
      rw [List.flatMap_id]
      exact ⟨_, kinds, by simp, .other ho hparam hrows hc hstuck, hobstacle, hrules, hnot⟩
    · have hcomma := of_decide_eq_false (more_of_run_many_eq_ok hothers)
      obtain ⟨rows, rfl, hrows, rfl⟩ := rows_of_run_many id
        (fun _ ts _ h => ⟨ts, rfl, commaParam_of_run h⟩) hothers
      rw [List.flatMap_id]
      refine ⟨_, _, by simp, .paramEnd ho hparam hrows, rfl, rfl, ?_⟩
      simpa [hcomma] using hnot
  · rename_i hname
    simp only [run_bind_eq_error, run_require_eq_error [.rightParen] (by decide),
      run_pure_ne_error, and_false, exists_false, or_false] at h
    obtain ⟨hnot, rfl⟩ := h
    refine ⟨[o], _, rfl, .start ho, rfl, rfl, ?_⟩
    rw [← hnext] at hname
    simpa [hname] using hnot

theorem stuck_paramList (h : (paramList (n + 1)).run ls = .error e) :
    ∃ taken kinds, ls = taken ++ e.remaining ∧ StuckParams taken kinds ∧
      (Site.fixed kinds).Explains e := by
  obtain ⟨inner, hinner, rfl⟩ := run_within_eq_error.1 h
  obtain ⟨taken, kinds, rfl, hstuck, hobstacle, hrules, hnot⟩ := stuck_paramListBody hinner
  refine ⟨taken, kinds, rfl, hstuck, hobstacle, ⟨.paramList, ?_, by decide⟩, hnot⟩
  rw [hrules]
  rfl

/-- The rule around a signature is that of the function. -/
theorem stuck_signatureAndBody {rule : Rule} (hrule : rule ≠ .element ∧ rule ≠ .argumentList)
    (h : (within rule (signatureAndBody (n + 1))).run ls = .error e) :
    ∃ taken s, ls = taken ++ e.remaining ∧ StuckSignature (n + 1) taken s ∧ s.Explains e := by
  obtain ⟨inner, hinner, rfl⟩ := run_within_eq_error.1 h
  have hfixed {kinds : List Token.Kind} {rest : List Leaf} (hnot : kindOfNext rest ∉ kinds) :
      (Site.fixed kinds).Explains ⟨.unexpected kinds, [rule], rest⟩ :=
    ⟨rfl, ⟨rule, rfl, hrule⟩, hnot⟩
  simp only [signatureAndBody, run_bind_eq_error,
    run_expect_eq_error [.identifier] (by decide),
    run_expect_eq_error [.colon] (by decide), run_expect_eq_ok, run_pure_ne_error,
    and_false, exists_false, or_false, List.mem_singleton] at hinner
  obtain ⟨hnot, rfl⟩ | ⟨_, _, ⟨name, rfl, hn, -⟩, hinner⟩ := hinner
  · exact ⟨[], _, rfl, .name, hfixed (by simpa using hnot)⟩
  obtain hinner | ⟨list, _, hlist, hinner⟩ := hinner
  · obtain ⟨taken, kinds, rfl, hstuck, hs⟩ := stuck_paramList hinner
    exact ⟨name :: taken, _, rfl, .params hn hstuck, hs.within rule⟩
  obtain ⟨m, -, hbody⟩ := opened_of_run hlist
  obtain ⟨hparams, rfl⟩ := paramListBody_of_run hbody
  obtain ⟨hnot, rfl⟩ | ⟨_, _, ⟨colon, rfl, hc, -⟩, hinner⟩ := hinner
  · exact ⟨_, _, rfl, .colon hn hparams, hfixed (by simpa using hnot)⟩
  obtain ⟨hnot, rfl⟩ | ⟨_, _, ⟨type, rfl, ht, -⟩, hinner⟩ := hinner
  · exact ⟨_, _, by simp, .type hn hparams hc, hfixed (by simpa using hnot)⟩
  · obtain ⟨taken, s, rfl, hstuck, hs⟩ :=
      (Rules.honest_upTo (n + 1)).stuckAt .block (by decide) hinner
    exact ⟨_, s, by simp, .body hn hparams hc ht hstuck, hs.within rule⟩

theorem signature_of_keyword_eq_error {kind : Token.Kind} (rule : Rule) (heof : kind ≠ .eof)
    (hnext : kindOfNext ls = kind)
    (h : (within rule (do
      let keyword ← expect [kind]
      let rest ← signatureAndBody n
      return Tree.node rule (keyword :: rest))).run ls = .error e) :
    ∃ keyword rest, ls = keyword :: rest ∧ keyword.kind = kind ∧
      (within rule (signatureAndBody n)).run rest = .error e := by
  obtain ⟨inner, hinner, rfl⟩ := run_within_eq_error.1 h
  simp only [run_bind_eq_error, run_expect_eq_error [kind] (by simpa using heof.symm),
    run_expect_eq_ok, run_pure_ne_error, and_false, exists_false, or_false,
    List.mem_singleton] at hinner
  obtain ⟨hnot, -⟩ | ⟨_, rest, ⟨keyword, rfl, hk, -⟩, hinner⟩ := hinner
  · exact absurd hnext hnot
  · exact ⟨keyword, rest, rfl, hk, run_within_eq_error.2 ⟨inner, hinner, rfl⟩⟩

theorem stuck_pureFunction (hnext : kindOfNext ls = .fn ∨ kindOfNext ls = .identifier)
    (h : (opened .pureFunction pureFunctionBody (n + 2)).run ls = .error e) :
    ∃ taken s, ls = taken ++ e.remaining ∧ StuckFunction (n + 2) taken s ∧ s.Explains e := by
  obtain ⟨inner, hinner, rfl⟩ := run_within_eq_error.1 h
  simp only [pureFunctionBody, run_bind_eq_error (p := peek), run_peek_eq_ok, run_peek_ne_error,
    false_or] at hinner
  obtain ⟨next, _, ⟨hkind, rfl⟩, hinner⟩ := hinner
  split at hinner
  · rename_i hfn
    obtain ⟨keyword, rest, rfl, hk, hrest⟩ := signature_of_keyword_eq_error .pureFunction
      (by decide) (hkind.trans hfn) (run_within_eq_error.2 ⟨inner, hinner, rfl⟩)
    obtain ⟨taken, s, hls, hstuck, hs⟩ := stuck_signatureAndBody (by decide) hrest
    exact ⟨keyword :: taken, s, congrArg (keyword :: ·) hls, .pure hk hstuck, hs⟩
  · rename_i hfn
    simp only [run_bind_eq_error, run_pure_ne_error, and_false, exists_false, or_false] at hinner
    have hrest : (within .pureFunction (signatureAndBody (n + 1))).run ls = .error _ :=
      run_within_eq_error.2 ⟨inner, hinner, rfl⟩
    obtain ⟨taken, s, hls, hstuck, hs⟩ := stuck_signatureAndBody (by decide) hrest
    have hname : kindOfNext ls = .identifier := hnext.resolve_left fun h => hfn (hkind ▸ h)
    have htaken : taken ≠ [] := by
      rintro rfl
      cases hstuck
      rw [hls] at hname
      exact hs.unexpected (List.mem_singleton.2 hname)
    exact ⟨taken, s, hls, .bare hstuck htaken, hs⟩

theorem stuck_function (hnext : startsFunction (kindOfNext ls) = true)
    (h : (function (n + 2)).run ls = .error e) :
    ∃ taken s, ls = taken ++ e.remaining ∧ StuckFunction (n + 2) taken s ∧ s.Explains e := by
  simp only [function, run_bind_eq_error (p := peek), run_peek_eq_ok, run_peek_ne_error,
    false_or] at h
  obtain ⟨next, _, ⟨hkind, rfl⟩, h⟩ := h
  split at h
  · rename_i himp
    simp only [run_bind_eq_error, run_pure_ne_error, and_false, exists_false, or_false] at h
    obtain ⟨keyword, rest, rfl, hk, hrest⟩ :=
      signature_of_keyword_eq_error .impureFunction (by decide) (hkind.trans himp) h
    obtain ⟨taken, s, hls, hstuck, hs⟩ := stuck_signatureAndBody (by decide) hrest
    exact ⟨keyword :: taken, s, congrArg (keyword :: ·) hls, .impure hk hstuck, hs⟩
  · rename_i himp
    simp only [run_bind_eq_error, run_pure_ne_error, and_false, exists_false, or_false] at h
    rw [← hkind] at himp
    refine stuck_pureFunction ?_ h
    simpa [startsFunction, himp] using hnext

/-- Functions that cannot be read are stuck in one of them or behind the last one. The rule around
them is that of the program. -/
theorem stuck_functions (h : (within .program (functions (n + 2))).run ls = .error e) :
    ∃ taken s, ls = taken ++ e.remaining ∧ StuckProgram (n + 2) taken s ∧ s.Explains e := by
  obtain ⟨inner, hinner, rfl⟩ := run_within_eq_error.1 h
  simp only [functions, run_bind_eq_error, run_peek_eq_ok, run_peek_ne_error, false_or] at hinner
  obtain hinner | ⟨trees, _, htrees, next, _, ⟨hkind, rfl⟩, hinner⟩ := hinner
  · obtain ⟨fs, rest, rfl, hfs, hmore, hfail⟩ :=
      rows_of_run_many_eq_error (fun f => [f]) (fun _ _ _ => function_of_run) hinner
    obtain ⟨taken, s, rfl, hstuck, hs⟩ := stuck_function hmore hfail
    rw [List.flatMap_singleton']
    exact ⟨_, s, by simp, .function hfs hstuck, hs.within _⟩
  · have hstop := more_of_run_many_eq_ok htrees
    obtain ⟨fs, rfl, hfs, rfl⟩ :=
      rows_of_run_many (fun f => [f]) (fun _ _ _ => function_of_run) htrees
    split at hinner
    · exact absurd hinner run_pure_ne_error
    · rename_i heof
      obtain rfl := run_fail_eq_error.1 hinner
      rw [List.flatMap_singleton']
      refine ⟨_, _, rfl, .functionEnd hfs, rfl, ⟨.program, rfl, by decide⟩, ?_⟩
      rw [← hkind] at heof
      simp [startsFunction] at hstop
      simpa [Site.expected, heof, and_assoc, and_left_comm] using hstop

end FunImp.Tree
