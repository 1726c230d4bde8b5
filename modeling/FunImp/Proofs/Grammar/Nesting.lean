import FunImp.Proofs.Grammar.Progress

/-! # Rules inside rules

A rule is open from where it is entered until it has been read, and an error leaves open whatever
is open where it arises. Each of these rules may be entered right inside the one before it: what
follows inwards by one step for each rule holds with any number of levels by induction on these. -/

namespace FunImp

open FunImp.Tree FunImp.Tree.Reader

namespace Rule

/-- The rules that may be entered right inside a rule. Statements and calls are none of them: only
what has been read is made a statement or a call. -/
def inside : Rule → List Rule
  | program => [pureFunction, impureFunction]
  | pureFunction | impureFunction => [paramList, blockExpression]
  | blockExpression | argumentList => [blockExpression, blocklessExpression]
  | blocklessExpression => [term]
  | term => [factor]
  | factor => [element]
  | element => [argumentList]
  | paramList | statement | functionCall => []

/-- The second rule may be entered right inside the first one. -/
def Encloses (outer inner : Rule) : Prop := inner ∈ outer.inside

instance : DecidableRel Encloses := fun outer inner =>
  inferInstanceAs (Decidable (inner ∈ outer.inside))

/-- What is read inside a rule that may open so many levels of further rules; of a program, what
stands in front of its end. Nothing enters statements and calls. -/
def body : Rule → Nat → Reader Tree
  | program, n => do
    let trees ← functions n
    return .node .program trees
  | pureFunction, n => pureFunctionBody n
  | impureFunction, n => impureFunctionBody n
  | paramList, _ => paramListBody
  | blockExpression, n => (Rules.upTo n).blockBody
  | blocklessExpression, n => (Rules.upTo n).blocklessBody
  | term, n => (Rules.upTo n).termBody
  | factor, n => (Rules.upTo n).factorBody
  | element, n => (Rules.upTo n).elementBody
  | argumentList, n => (Rules.upTo n).argumentListBody
  | statement, _ | functionCall, _ => fail .tooDeep

/-- The reader that enters a rule, one of so many levels. -/
def reader (rule : Rule) : Nat → Reader Tree := opened rule rule.body

end Rule

/-- The rule that is entered in a place, where there is only one. -/
def Tree.Place.rule? : Tree.Place → Option Rule
  | block => some .blockExpression
  | blockless => some .blocklessExpression
  | expression => none
  | term => some .term
  | factor => some .factor
  | element => some .element
  | argumentList => some .argumentList

theorem Tree.readerOf_upTo {place : Tree.Place} {rule : Rule} (h : place.rule? = some rule)
    (n : Nat) : (Rules.upTo n).readerOf place = rule.reader n := by
  cases place <;> cases h <;> cases n <;> rfl

/-- Where the reader fails inside the rule, the rules that it has open lead on from that one. -/
def Tree.Reader.Nests (outer : Rule) {α : Type} (p : Reader α) : Prop :=
  p.FailsOnly fun e => (outer :: e.rules).IsChain Rule.Encloses

section Nests

variable {α : Type} {outer : Rule} {n : Nat}

theorem nests_pure (a : α) : (pure a : Reader α).Nests outer := failsOnly_pure a

theorem nests_fail (obstacle : Obstacle) : (fail obstacle : Reader α).Nests outer :=
  failsOnly_fail fun _ => .singleton outer

theorem nests_require {kinds : List Token.Kind} (expected : List Token.Kind)
    (heof : .eof ∉ kinds) : (require kinds expected).Nests outer :=
  failsOnly_require heof fun _ => .singleton outer

theorem nests_expect_bind {kinds : List Token.Kind} (heof : .eof ∉ kinds) {q : Tree → Reader α}
    (hq : ∀ t, (q t).Nests outer) : (expect kinds >>= q).Nests outer :=
  .bind (nests_require kinds heof) hq

theorem nests_peek_bind {q : Token.Kind → Reader α} (hq : ∀ kind, (q kind).Nests outer) :
    (peek >>= q).Nests outer :=
  .bind failsOnly_peek hq

theorem nests_within {inner : Rule} (h : outer.Encloses inner) {p : Reader α}
    (hp : p.Nests inner) : (within inner p).Nests outer :=
  hp.within fun _ hchain => .cons_cons h hchain

/-- Everything that the rule may enter leads on from it. -/
def Rule.Leads (outer : Rule) (n : Nat) : Prop :=
  ∀ inner, outer.Encloses inner → (inner.reader n).Nests outer

theorem Rule.Leads.nests (h : outer.Leads n) (place : Tree.Place) {inner : Rule}
    (hplace : place.rule? = some inner) (hinner : outer.Encloses inner) :
    ((Rules.upTo n).readerOf place).Nests outer :=
  readerOf_upTo hplace n ▸ h inner hinner

theorem nests_expression (h : outer.Leads n) (hblock : outer.Encloses .blockExpression)
    (hbare : outer.Encloses .blocklessExpression) : (Rules.upTo n).expression.Nests outer :=
  nests_peek_bind fun _ => .ite (h.nests .block rfl hblock) (h.nests .blockless rfl hbare)

theorem nests_separated {kinds : List Token.Kind} (heof : .eof ∉ kinds) {p : Reader Tree}
    (hp : p.Nests outer) : (Rules.separated kinds p).Nests outer :=
  nests_expect_bind heof fun _ => .bind hp fun _ => nests_pure _

theorem nests_chain {kinds : List Token.Kind} (heof : .eof ∉ kinds) {p : Reader Tree}
    (hp : p.Nests outer) : (Rules.chain outer kinds p).Nests outer :=
  .bind hp fun _ => .bind (.many (nests_separated heof hp) _ _) fun _ => nests_pure _

theorem nests_blockBody (h : Rule.blockExpression.Leads n) :
    (Rules.upTo n).blockBody.Nests .blockExpression := by
  have hitem : (Rules.upTo n).item.Nests .blockExpression :=
    .bind (nests_expression h (by decide) (by decide)) fun _ => nests_peek_bind fun _ =>
      .ite (nests_expect_bind (by decide) fun _ => nests_pure _) (nests_pure _)
  exact nests_expect_bind (by decide) fun _ => .bind (.many hitem _ _) fun _ =>
    nests_expect_bind (by decide) fun _ => nests_pure _

theorem nests_elementBody (h : Rule.element.Leads n) :
    (Rules.upTo n).elementBody.Nests .element :=
  nests_peek_bind fun _ => nests_expect_bind (by decide) fun _ => nests_peek_bind fun _ =>
    .ite (.bind (h.nests .argumentList rfl (by decide)) fun _ => nests_pure _) (nests_pure _)

theorem nests_argumentListBody (h : Rule.argumentList.Leads n) :
    (Rules.upTo n).argumentListBody.Nests .argumentList := by
  have hargument : (Rules.upTo n).expression.Nests .argumentList :=
    nests_expression h (by decide) (by decide)
  refine nests_expect_bind (by decide) fun _ => nests_peek_bind fun _ => .ite ?_ ?_
  · exact nests_expect_bind (by decide) fun _ => nests_pure _
  · exact .bind hargument fun _ =>
      .bind (.many (nests_separated (by decide) hargument) _ _) fun _ =>
        .bind (nests_require _ (by decide)) fun _ => nests_pure _

theorem nests_paramListBody : paramListBody.Nests .paramList := by
  have hparam : param.Nests .paramList :=
    nests_expect_bind (by decide) fun _ => nests_expect_bind (by decide) fun _ =>
      nests_expect_bind (by decide) fun _ => nests_pure _
  have hcommaParam : commaParam.Nests .paramList :=
    nests_expect_bind (by decide) fun _ => .bind hparam fun _ => nests_pure _
  refine nests_expect_bind (by decide) fun _ => nests_peek_bind fun _ => .ite ?_ ?_
  · exact .bind hparam fun _ => .bind (.many hcommaParam _ _) fun _ =>
      .bind (nests_require _ (by decide)) fun _ => nests_pure _
  · exact .bind (nests_require _ (by decide)) fun _ => nests_pure _

theorem nests_signatureAndBody (h : outer.Leads n) (hparams : outer.Encloses .paramList)
    (hbody : outer.Encloses .blockExpression) : (signatureAndBody n).Nests outer :=
  nests_expect_bind (by decide) fun _ => .bind (h _ hparams) fun _ =>
    nests_expect_bind (by decide) fun _ => nests_expect_bind (by decide) fun _ =>
      .bind (h.nests .block rfl hbody) fun _ => nests_pure _

theorem nests_pureFunctionBody (h : Rule.pureFunction.Leads n) :
    (pureFunctionBody n).Nests .pureFunction := by
  have hsignature : (signatureAndBody n).Nests .pureFunction :=
    nests_signatureAndBody h (by decide) (by decide)
  refine nests_peek_bind fun _ => .ite ?_ (.bind hsignature fun _ => nests_pure _)
  exact nests_expect_bind (by decide) fun _ => .bind hsignature fun _ => nests_pure _

theorem nests_functions (h : Rule.program.Leads n) : (functions n).Nests .program := by
  have hfunction : (function n).Nests .program := nests_peek_bind fun _ =>
    .ite (.bind (h .impureFunction (by decide)) fun _ => nests_pure _)
      (.bind (h .pureFunction (by decide)) fun _ => nests_pure _)
  exact .bind (.many hfunction _ _) fun _ => nests_peek_bind fun _ =>
    .ite (nests_pure _) (nests_fail _)

/-- One step inwards: a rule leads on if those do that it may enter. -/
theorem nests_body (rule : Rule) (h : rule.Leads n) : (rule.body n).Nests rule := by
  cases rule with
  | program => exact .bind (nests_functions h) fun _ => nests_pure _
  | pureFunction => exact nests_pureFunctionBody h
  | impureFunction =>
    exact nests_expect_bind (by decide) fun _ =>
      .bind (nests_signatureAndBody h (by decide) (by decide)) fun _ => nests_pure _
  | paramList => exact nests_paramListBody
  | blockExpression => exact nests_blockBody h
  | blocklessExpression => exact .bind (h.nests .term rfl (by decide)) fun _ => nests_pure _
  | term => exact nests_chain (by decide) (h.nests .factor rfl (by decide))
  | factor => exact nests_chain (by decide) (h.nests .element rfl (by decide))
  | element => exact nests_elementBody h
  | argumentList => exact nests_argumentListBody h
  | statement | functionCall => exact nests_fail .tooDeep

/-- Wherever a rule is entered that may be, a failure leads on from the rule around it. -/
theorem leads (n : Nat) (outer : Rule) : outer.Leads n := by
  intro inner h
  induction n generalizing outer inner with
  | zero => exact nests_fail .tooDeep
  | succ n ih => exact nests_within h (nests_body inner (ih inner))

end Nests

namespace Parser

/-- A new parser fails as the rule of programs does. -/
theorem readProgram_eq_error_iff {ls : List Leaf} {ws : List Token} {eof : Token}
    {e : SyntaxError} :
    (readProgram ⟨[], ls, ws, eof⟩).1 = .error e ↔
      ∃ f, (Rule.program.reader maxDepth).run ls = .error f ∧
        e = ⟨f.obstacle, (f.remaining.head?.map (·.token)).getD eof, f.rules⟩ := by
  have hrun (f : Failure) : (program ⟨[], ls, ws, eof⟩).run ls = .error f ↔
      (Rule.program.reader maxDepth).run ls = .error f := by
    simp only [run_program_eq_error, Rule.reader, maxDepth, Tree.opened, Rule.body,
      run_within_eq_error, run_bind_eq_error, run_pure_ne_error, and_false, exists_false, or_false]
  simp only [readProgram_eq_error, hrun, List.nil_append]

/-- The rules of an error of a new parser start at the program. -/
theorem exists_path_of_readProgram {tokens : List Token} {source : Source} {e : SyntaxError}
    (h : (ofTokens tokens source).readProgram.1 = .error e) :
    ∃ rules, e.rules = .program :: rules ∧ (.program :: rules).IsChain Rule.Encloses := by
  obtain ⟨ls, ws, eof, hparser, -⟩ := ofTokens_spec tokens source
  rw [hparser, readProgram_eq_error_iff] at h
  obtain ⟨f, hrun, rfl⟩ := h
  obtain ⟨inner, hinner, rfl⟩ := run_within_eq_error.1 hrun
  exact ⟨inner.rules, rfl, nests_body .program (leads 127 .program) _ _ hinner⟩

/-- An error of a new parser tells no more rules than may be open, and all of these where the limit
is reached. -/
theorem length_rules_of_readProgram {tokens : List Token} {source : Source} {e : SyntaxError}
    (h : (ofTokens tokens source).readProgram.1 = .error e) :
    e.rules.length ≤ maxDepth ∧
      ∀ limit, e.depthLimit = some limit → e.rules.length = maxDepth := by
  have hp := regular_ofTokens tokens source
  obtain ⟨hopened, htooDeep⟩ := hp.opened_of_error h
  refine ⟨hopened ▸ hp.next.opened, fun limit hlimit => htooDeep ?_⟩
  rw [SyntaxError.depthLimit] at hlimit
  split at hlimit
  · cases hlimit
  · assumption

end Parser

end FunImp
