import FunImp.Proofs.Grammar.Nesting

/-! # Open rules

The rules that an error tells are a path of the grammar from the program on. There are tokens that
lead a parser along any such path: those that enter one rule after the other, and then a sign that
no rule takes. So the paths are just the beginnings of what errors leave open. -/

namespace FunImp

open FunImp.Tree FunImp.Tree.Reader

/-- On leaves of these kinds the reader fails, and the rules that it has open begin with these. -/
def Tree.Reader.FailsOn (kinds : List Token.Kind) (rules : List Rule) {α : Type}
    (p : Reader α) : Prop :=
  ∀ ls : List Leaf, ls.map Leaf.kind = kinds → ∃ e, p.run ls = .error e ∧ rules <+: e.rules

section FailsOn

variable {α β : Type} {kinds : List Token.Kind} {rules : List Rule}

theorem kindOfNext_eq_headD (ls : List Leaf) :
    kindOfNext ls = (ls.map Leaf.kind).headD .eof := by
  cases ls with
  | nil => rfl
  | cons l ls => rfl

theorem failsOn_fail (obstacle : Obstacle) : (fail obstacle : Reader α).FailsOn kinds [] :=
  fun _ _ => ⟨_, rfl, ⟨_, rfl⟩⟩

theorem failsOn_expect {expected : List Token.Kind} (heof : .eof ∉ expected)
    (hnext : kinds.headD .eof ∉ expected) : (expect expected).FailsOn kinds [] := by
  rintro ls rfl
  rw [← kindOfNext_eq_headD] at hnext
  exact ⟨_, (run_expect_eq_error expected heof).2 ⟨hnext, rfl⟩, ⟨_, rfl⟩⟩

theorem failsOn_bind {p : Reader α} (hp : p.FailsOn kinds rules) (q : α → Reader β) :
    (p >>= q).FailsOn kinds rules := by
  intro ls hls
  obtain ⟨e, he, hrules⟩ := hp ls hls
  exact ⟨e, run_bind_eq_error.2 (.inl he), hrules⟩

theorem failsOn_expect_bind {expected : List Token.Kind} {kind : Token.Kind}
    (hkind : kind ∈ expected) {q : Tree → Reader α} (hq : ∀ t, (q t).FailsOn kinds rules) :
    (expect expected >>= q).FailsOn (kind :: kinds) rules := by
  intro ls hls
  obtain ⟨l, rest, rfl, rfl, hrest⟩ := List.map_eq_cons_iff.1 hls
  obtain ⟨e, he, hrules⟩ := hq (ofLeaf l) rest hrest
  exact ⟨e, run_bind_eq_error.2 (.inr ⟨_, rest, run_expect_cons hkind rest, he⟩), hrules⟩

theorem failsOn_peek_bind {q : Token.Kind → Reader α}
    (hq : (q (kinds.headD .eof)).FailsOn kinds rules) : (peek >>= q).FailsOn kinds rules := by
  rintro ls rfl
  rw [← kindOfNext_eq_headD] at hq
  obtain ⟨e, he, hrules⟩ := hq ls rfl
  exact ⟨e, run_bind_eq_error.2 (.inr ⟨_, ls, run_peek_eq_ok.2 ⟨rfl, rfl⟩, he⟩), hrules⟩

theorem failsOn_many {more : Token.Kind → Bool} {p : Reader (List Tree)} {hs : p.Strict}
    (hmore : more (kinds.headD .eof) = true) (hp : p.FailsOn kinds rules) :
    (many more p hs).FailsOn kinds rules := by
  rintro ls rfl
  rw [← kindOfNext_eq_headD] at hmore
  obtain ⟨e, he, hrules⟩ := hp ls rfl
  exact ⟨e, run_many_eq_error.2 ⟨hmore, .inl he⟩, hrules⟩

theorem failsOn_stop_bind {more : Token.Kind → Bool} {p : Reader (List Tree)} {hs : p.Strict}
    (hstop : more (kinds.headD .eof) = false) {q : List Tree → Reader α}
    (hq : (q []).FailsOn kinds rules) : (many more p hs >>= q).FailsOn kinds rules := by
  rintro ls rfl
  rw [← kindOfNext_eq_headD] at hstop
  obtain ⟨e, he, hrules⟩ := hq ls rfl
  exact ⟨e, run_bind_eq_error.2 (.inr ⟨[], ls, run_many_eq_ok.2 (by simp [hstop]), he⟩), hrules⟩

theorem failsOn_within {p : Reader α} (hp : p.FailsOn kinds rules) (rule : Rule) :
    (within rule p).FailsOn kinds (rule :: rules) := by
  intro ls hls
  obtain ⟨e, he, hrules⟩ := hp ls hls
  exact ⟨_, run_within_eq_error.2 ⟨e, he, rfl⟩, List.cons_prefix_cons.2 ⟨rfl, hrules⟩⟩

theorem Tree.Reader.FailsOn.mono {p : Reader α} {front : List Rule} (hp : p.FailsOn kinds rules)
    (h : front <+: rules) : p.FailsOn kinds front := by
  intro ls hls
  obtain ⟨e, he, hrules⟩ := hp ls hls
  exact ⟨e, he, h.trans hrules⟩

/-- Behind an empty parameter list the reader goes on. -/
theorem failsOn_paramList_bind {n : Nat} (hn : 0 < n) {q : Tree → Reader α}
    (hq : ∀ t, (q t).FailsOn kinds rules) :
    (paramList n >>= q).FailsOn (.leftParen :: .rightParen :: kinds) rules := by
  intro ls hls
  obtain ⟨o, between, rfl, ho, hbetween⟩ := List.map_eq_cons_iff.1 hls
  obtain ⟨c, rest, rfl, hc, hrest⟩ := List.map_eq_cons_iff.1 hbetween
  obtain ⟨m, rfl⟩ := Nat.exists_eq_succ_of_ne_zero hn.ne'
  have hlist : IsParamList (node .paramList [ofLeaf o, ofLeaf c]) :=
    .empty (isLeaf_ofLeaf (by simp [ho])) (isLeaf_ofLeaf (by simp [hc]))
  have hrun : (paramList (m + 1)).run (o :: c :: rest) = .ok (_, rest) :=
    run_within_eq_ok.2 (by simpa [leaves, forestLeaves] using run_paramListBody hlist rest)
  obtain ⟨e, he, hrules⟩ := hq _ rest hrest
  exact ⟨e, run_bind_eq_error.2 (.inr ⟨_, _, hrun, he⟩), hrules⟩

end FailsOn

namespace Rule

/-- The kind of the token at which a reader enters the rule, where there is only one. -/
def start : Rule → List Token.Kind
  | pureFunction => [.fn]
  | impureFunction => [.imp]
  | blockExpression => [.leftBrace]
  | argumentList => [.leftParen]
  | _ => []

/-- What the outer rule takes behind its start before it enters the inner one. -/
def lead : (outer inner : Rule) → List Token.Kind
  | pureFunction, inner | impureFunction, inner =>
    match inner with
    | paramList => [.identifier]
    | _ => [.identifier, .leftParen, .rightParen, .colon, .identifier]
  | element, _ => [.identifier]
  | _, _ => []

/-- The kinds of tokens that lead along a path and no further, for no rule takes the last one. -/
def probe : List Rule → List Token.Kind
  | [] => [.assign]
  | [rule] => rule.start ++ [.assign]
  | outer :: inner :: rules => outer.start ++ outer.lead inner ++ probe (inner :: rules)

/-- Every token on the way is one that parsers see. -/
theorem ne_of_mem_probe (rules : List Rule) :
    ∀ kind ∈ probe rules, kind ≠ .eof ∧ kind ≠ .whitespace := by
  fun_induction probe rules with
  | case1 => decide
  | case2 rule => cases rule <;> decide
  | case3 outer inner rules ih =>
    have hstart : ∀ kind ∈ outer.start, kind ≠ .eof ∧ kind ≠ .whitespace := by
      cases outer <;> decide
    have hlead : ∀ kind ∈ outer.lead inner, kind ≠ .eof ∧ kind ≠ .whitespace := by
      cases outer <;> cases inner <;> decide
    exact List.forall_mem_append.2 ⟨List.forall_mem_append.2 ⟨hstart, hlead⟩, ih⟩

theorem headD_probe_start {rule : Rule} {kind : Token.Kind} (h : rule.start = [kind])
    (rest : List Rule) : (probe (rule :: rest)).headD .eof = kind := by
  cases rest with
  | nil => rw [probe, h, List.singleton_append, List.headD_cons]
  | cons inner rest => rw [probe, h, List.singleton_append, List.cons_append, List.headD_cons]

/-- Nothing is taken on the way down to an operand. -/
theorem headD_probe_operand {rule : Rule} {rest : List Rule}
    (h : (rule :: rest).IsChain Encloses)
    (hrule : rule ∈ [blocklessExpression, term, factor, element]) :
    (probe (rule :: rest)).headD .eof ∈ ([.identifier, .assign] : List Token.Kind) := by
  simp only [List.mem_cons, List.not_mem_nil, or_false] at hrule
  induction rest generalizing rule with
  | nil => rcases hrule with rfl | rfl | rfl | rfl <;> decide
  | cons inner rest ih =>
    obtain ⟨hinner, hrest⟩ := List.isChain_cons_cons.1 h
    rcases hrule with rfl | rfl | rfl | rfl <;> obtain rfl := List.mem_singleton.1 hinner
    · exact ih hrest (by decide)
    · exact ih hrest (by decide)
    · exact ih hrest (by decide)
    · exact List.mem_cons_self

/-- An expression starts with no closing sign, and its start tells whether it is a block. -/
theorem headD_probe_expression {rule : Rule} {rest : List Rule}
    (h : (rule :: rest).IsChain Encloses) (hrule : rule ∈ [blockExpression, blocklessExpression]) :
    (probe (rule :: rest)).headD .eof ≠ .rightBrace ∧
      (probe (rule :: rest)).headD .eof ≠ .rightParen ∧
      ((probe (rule :: rest)).headD .eof = .leftBrace ↔ rule = blockExpression) := by
  have hhead : rule = blockExpression ∧ (probe (rule :: rest)).headD .eof = .leftBrace ∨
      rule = blocklessExpression ∧
        (probe (rule :: rest)).headD .eof ∈ ([.identifier, .assign] : List Token.Kind) := by
    simp only [List.mem_cons, List.not_mem_nil, or_false] at hrule
    rcases hrule with rfl | rfl
    · exact .inl ⟨rfl, headD_probe_start rfl rest⟩
    · exact .inr ⟨rfl, headD_probe_operand h (by decide)⟩
  simp only [List.mem_cons, List.not_mem_nil, or_false] at hhead
  rcases hhead with ⟨rfl, hhead⟩ | ⟨rfl, hhead | hhead⟩ <;> rw [hhead] <;> decide

end Rule

open Rule

section Probes

variable {n : Nat} {outer inner : Rule} {rest rules : List Rule}

theorem failsOn_place {kinds : List Token.Kind} (place : Tree.Place)
    (hplace : place.rule? = some inner) (h : (inner.reader n).FailsOn kinds rules) :
    ((Rules.upTo n).readerOf place).FailsOn kinds rules :=
  readerOf_upTo hplace n ▸ h

/-- Every rule fails at the sign that none takes if the rules inside do. -/
theorem failsOn_stray_body (rule : Rule)
    (h : ∀ inner : Rule, (inner.reader n).FailsOn [.assign] []) :
    (rule.body n).FailsOn [.assign] [] := by
  have hexpect {expected : List Token.Kind} (heof : .eof ∉ expected) (hsign : .assign ∉ expected) :
      (expect expected).FailsOn [.assign] [] := failsOn_expect heof hsign
  cases rule with
  | program => exact failsOn_bind (failsOn_stop_bind rfl (failsOn_peek_bind (failsOn_fail _))) _
  | pureFunction =>
    exact failsOn_peek_bind (failsOn_bind (failsOn_bind (hexpect (by decide) (by decide)) _) _)
  | element => exact failsOn_peek_bind (failsOn_bind (hexpect (by decide) (by decide)) _)
  | blocklessExpression => exact failsOn_bind (failsOn_place .term rfl (h .term)) _
  | term => exact failsOn_bind (failsOn_place .factor rfl (h .factor)) _
  | factor => exact failsOn_bind (failsOn_place .element rfl (h .element)) _
  | impureFunction | paramList | blockExpression | argumentList =>
    exact failsOn_bind (hexpect (by decide) (by decide)) _
  | statement | functionCall => exact failsOn_fail .tooDeep

theorem failsOn_stray (rule : Rule) (n : Nat) : (rule.reader n).FailsOn [.assign] [] := by
  induction n generalizing rule with
  | zero => exact failsOn_fail .tooDeep
  | succ n ih => exact (failsOn_within (failsOn_stray_body rule ih) rule).mono ⟨_, rfl⟩

/-- An expression is what its first token tells. -/
theorem failsOn_expression (hinner : inner ∈ [blockExpression, blocklessExpression])
    (hpath : (inner :: rest).IsChain Encloses)
    (h : (inner.reader n).FailsOn (probe (inner :: rest)) rules) :
    (Rules.upTo n).expression.FailsOn (probe (inner :: rest)) rules := by
  obtain ⟨-, -, hbrace⟩ := headD_probe_expression hpath hinner
  refine failsOn_peek_bind ?_
  simp only [List.mem_cons, List.not_mem_nil, or_false] at hinner
  rcases hinner with rfl | rfl
  · rw [if_pos (hbrace.2 rfl)]
    exact failsOn_place .block rfl h
  · rw [if_neg (mt hbrace.1 (by decide))]
    exact failsOn_place .blockless rfl h

theorem failsOn_blockBody (hinner : inner ∈ [blockExpression, blocklessExpression])
    (hpath : (inner :: rest).IsChain Encloses)
    (h : (inner.reader n).FailsOn (probe (inner :: rest)) rules) :
    (Rules.upTo n).blockBody.FailsOn (.leftBrace :: probe (inner :: rest)) rules := by
  obtain ⟨hmore, -⟩ := headD_probe_expression hpath hinner
  exact failsOn_expect_bind (by decide) fun _ => failsOn_bind
    (failsOn_many (decide_eq_true hmore) (failsOn_bind (failsOn_expression hinner hpath h) _)) _

theorem failsOn_argumentListBody (hinner : inner ∈ [blockExpression, blocklessExpression])
    (hpath : (inner :: rest).IsChain Encloses)
    (h : (inner.reader n).FailsOn (probe (inner :: rest)) rules) :
    (Rules.upTo n).argumentListBody.FailsOn (.leftParen :: probe (inner :: rest)) rules := by
  obtain ⟨-, hmore, -⟩ := headD_probe_expression hpath hinner
  refine failsOn_expect_bind (by decide) fun _ => failsOn_peek_bind ?_
  rw [if_neg hmore]
  exact failsOn_bind (failsOn_expression hinner hpath h) _

theorem failsOn_elementBody
    (h : (Rule.argumentList.reader n).FailsOn (probe (argumentList :: rest)) rules) :
    (Rules.upTo n).elementBody.FailsOn (.identifier :: probe (argumentList :: rest)) rules := by
  refine failsOn_peek_bind (failsOn_expect_bind (by decide) fun _ => failsOn_peek_bind ?_)
  rw [if_pos ⟨rfl, headD_probe_start rfl rest⟩]
  exact failsOn_bind (failsOn_place .argumentList rfl h) _

theorem failsOn_signatureAndBody (hn : 0 < n) (hinner : inner ∈ [Rule.paramList, .blockExpression])
    (h : (inner.reader n).FailsOn (probe (inner :: rest)) rules) :
    (signatureAndBody n).FailsOn (pureFunction.lead inner ++ probe (inner :: rest)) rules := by
  simp only [List.mem_cons, List.not_mem_nil, or_false] at hinner
  rcases hinner with rfl | rfl
  · exact failsOn_expect_bind (by decide) fun _ => failsOn_bind h _
  · exact failsOn_expect_bind (by decide) fun _ => failsOn_paramList_bind hn fun _ =>
      failsOn_expect_bind (by decide) fun _ => failsOn_expect_bind (by decide) fun _ =>
        failsOn_bind (failsOn_place .block rfl h) _

theorem failsOn_functions (hinner : inner ∈ [pureFunction, impureFunction])
    (h : (inner.reader n).FailsOn (probe (inner :: rest)) rules) :
    (functions n).FailsOn (probe (inner :: rest)) rules := by
  simp only [List.mem_cons, List.not_mem_nil, or_false] at hinner
  rcases hinner with rfl | rfl
  · have hnext := headD_probe_start (rfl : pureFunction.start = [.fn]) rest
    refine failsOn_bind (failsOn_many (by rw [hnext]; rfl) (failsOn_peek_bind ?_)) _
    rw [hnext, if_neg (by decide)]
    exact failsOn_bind h _
  · have hnext := headD_probe_start (rfl : impureFunction.start = [.imp]) rest
    refine failsOn_bind (failsOn_many (by rw [hnext]; rfl) (failsOn_peek_bind ?_)) _
    rw [hnext, if_pos rfl]
    exact failsOn_bind h _

/-- One step inwards: a rule takes what leads to the inner one, enters it and fails inside. -/
theorem failsOn_body (hn : 0 < n) (hinner : outer.Encloses inner)
    (hpath : (inner :: rest).IsChain Encloses)
    (h : (inner.reader n).FailsOn (probe (inner :: rest)) rules) :
    (outer.body n).FailsOn (probe (outer :: inner :: rest)) rules := by
  cases outer with
  | pureFunction =>
    exact failsOn_peek_bind (failsOn_expect_bind (by decide) fun _ =>
      failsOn_bind (failsOn_signatureAndBody hn hinner h) _)
  | impureFunction =>
    exact failsOn_expect_bind (by decide) fun _ =>
      failsOn_bind (failsOn_signatureAndBody hn hinner h) _
  | blockExpression => exact failsOn_blockBody hinner hpath h
  | argumentList => exact failsOn_argumentListBody hinner hpath h
  | blocklessExpression =>
    obtain rfl := List.mem_singleton.1 hinner
    exact failsOn_bind (failsOn_place .term rfl h) _
  | term =>
    obtain rfl := List.mem_singleton.1 hinner
    exact failsOn_bind (failsOn_place .factor rfl h) _
  | factor =>
    obtain rfl := List.mem_singleton.1 hinner
    exact failsOn_bind (failsOn_place .element rfl h) _
  | element =>
    obtain rfl := List.mem_singleton.1 hinner
    exact failsOn_elementBody h
  | program => exact failsOn_bind (failsOn_functions hinner h) _
  | paramList | statement | functionCall => cases hinner

/-- At the end of a path the last rule fails. -/
theorem failsOn_body_last (rule : Rule) (n : Nat) : (rule.body n).FailsOn (probe [rule]) [] := by
  have hbare : (Rule.blocklessExpression.reader n).FailsOn (probe [blocklessExpression]) [] :=
    failsOn_stray _ n
  cases rule with
  | pureFunction =>
    exact failsOn_peek_bind (failsOn_expect_bind (by decide) fun _ =>
      failsOn_bind (failsOn_bind (failsOn_expect (by decide) (by decide)) _) _)
  | impureFunction =>
    exact failsOn_expect_bind (by decide) fun _ =>
      failsOn_bind (failsOn_bind (failsOn_expect (by decide) (by decide)) _) _
  | blockExpression => exact failsOn_blockBody (by decide) (.singleton _) hbare
  | argumentList => exact failsOn_argumentListBody (by decide) (.singleton _) hbare
  | _ => exact failsOn_stray_body _ fun inner => failsOn_stray inner n

/-- With as many levels as the path has rules they are all entered and left open. -/
theorem failsOn_probe (rule : Rule) (hpath : (rule :: rest).IsChain Encloses)
    (hn : rest.length < n) : (rule.reader n).FailsOn (probe (rule :: rest)) (rule :: rest) := by
  obtain ⟨n, rfl⟩ := Nat.exists_eq_succ_of_ne_zero (Nat.ne_zero_of_lt hn)
  induction rest generalizing rule n with
  | nil => exact failsOn_within (failsOn_body_last rule n) rule
  | cons inner rest ih =>
    obtain ⟨hinner, hrest⟩ := List.isChain_cons_cons.1 hpath
    -- A function reads its parameters before its body, so that a level must be left for them.
    have hlength : rest.length < n := Nat.lt_of_succ_lt_succ hn
    obtain ⟨n, rfl⟩ := Nat.exists_eq_succ_of_ne_zero (Nat.ne_zero_of_lt hlength)
    exact failsOn_within
      (failsOn_body (Nat.succ_pos n) hinner hrest (ih inner hrest n hlength)) rule

end Probes

namespace Parser

/-- A parser of the tokens along a path goes that way and fails. -/
theorem exists_error_of_path {rest : List Rule} (hpath : (Rule.program :: rest).IsChain Encloses)
    (hlength : rest.length < maxDepth) (source : Source) :
    ∃ tokens e, (ofTokens tokens source).readProgram.1 = .error e ∧
      (.program :: rest) <+: e.rules := by
  let ls : List Leaf := (probe (.program :: rest)).map fun kind =>
    ⟨[], ⟨kind, none, default, source.id⟩⟩
  have hkinds : ls.map Leaf.kind = probe (.program :: rest) := by
    simp [ls, Leaf.kind, Function.comp_def]
  have hls : ∀ l ∈ ls, l.Tidy ∧ l.kind ≠ .eof := List.forall_mem_map.2 fun kind hkind =>
    ⟨⟨List.forall_mem_nil _, (ne_of_mem_probe _ kind hkind).2⟩, (ne_of_mem_probe _ kind hkind).1⟩
  have hparser : ofTokens (ls.flatMap Leaf.tokens ++ []) source =
      ⟨[], ls, [], source.endToken⟩ := by
    rw [ofTokens_append hls, ofTokens_blanks (List.forall_mem_nil _), List.append_nil]
  obtain ⟨f, hrun, hrules⟩ := failsOn_probe .program hpath hlength ls hkinds
  have hread : (readProgram ⟨[], ls, [], source.endToken⟩).1 =
      .error ⟨f.obstacle, _, f.rules⟩ := readProgram_eq_error_iff.2 ⟨f, hrun, rfl⟩
  rw [← hparser] at hread
  exact ⟨_, _, hread, hrules⟩

/-- The rules that an error of a new parser tells are those on the stack where it arises, and they
stay open. They are a path of the grammar from the program on, of 128 rules at most and of just as
many where the limit is reached. Every path of 128 rules at most is what some error leaves open, or
its beginning. -/
theorem open_rules_path :
    (∀ (tokens : List Token) (source : Source) (e : SyntaxError),
      let p := ofTokens tokens source
      p.readProgram.1 = .error e →
        e.rules ≠ [] ∧ e.rules.head? = some .program ∧ e.rules.IsChain Encloses ∧
        e.rules.length ≤ 128 ∧ (∀ limit, e.depthLimit = some limit → e.rules.length = 128) ∧
        p.readProgram.2.opened = e.rules ∧
        ∀ log answer, Logs p.program p.leaves log answer → log.stackAfter false [] = e.rules) ∧
    ∀ (path : List Rule) (source : Source), path.head? = some .program → path.IsChain Encloses →
      path.length ≤ 128 →
        ∃ tokens e, (ofTokens tokens source).readProgram.1 = .error e ∧ path <+: e.rules := by
  constructor
  · intro tokens source e p h
    obtain ⟨rules, hrules, hpath⟩ := exists_path_of_readProgram h
    obtain ⟨hle, hlimit⟩ := length_rules_of_readProgram h
    have hopened := ((regular_ofTokens tokens source).opened_of_error h).1
    refine ⟨?_, ?_, hrules ▸ hpath, hle, hlimit, hopened, fun log answer hlog => ?_⟩
    · rw [hrules]
      exact List.cons_ne_nil _ _
    · rw [hrules, List.head?_cons]
    · have hstack := stackAfter_readProgram hlog
      rw [h, hopened] at hstack
      exact hstack
  · intro path source hhead hpath hlength
    obtain ⟨rest, rfl⟩ := List.head?_eq_some_iff.1 hhead
    exact exists_error_of_path hpath hlength source

/-- The tokens of `f(): t` and of many opening braces behind it. -/
private def braces : List Token :=
  let word (kind : Token.Kind) : Token := ⟨kind, none, default, "braces"⟩
  ([.identifier, .leftParen, .rightParen, .colon, .identifier] : List Token.Kind).map word ++
    List.replicate 130 (word .leftBrace)

theorem open_rules_path_sample :
    let p := ofTokens braces ⟨"braces", ""⟩
    (∃ e log, p.readProgram.1 = .error e ∧ e.depthLimit = some 128 ∧ e.rules ≠ [] ∧
      e.rules.head? = some .program ∧ e.rules.IsChain Encloses ∧ e.rules.length = 128 ∧
      p.readProgram.2.opened = e.rules ∧ Logs p.program p.leaves log (p.program.run p.leaves) ∧
      log.stackAfter false [] = e.rules) ∧
    ∃ tokens e, (ofTokens tokens ⟨"call", ""⟩).readProgram.1 = .error e ∧
      [.program, .impureFunction, .blockExpression, .blocklessExpression, .term, .factor,
        .element, .argumentList, .blockExpression] <+: e.rules := by
  intro p
  obtain ⟨herror, hpath⟩ := open_rules_path
  refine ⟨?_, hpath _ _ rfl (by decide) (by decide)⟩
  obtain ⟨log, hlog, -⟩ := passed_program passed_logged p p.leaves
  obtain ⟨e, he, hdeep⟩ := Option.bind_eq_some_iff.1 (by decide +kernel :
    (thrown? p.readProgram.1).bind SyntaxError.depthLimit = some 128)
  have hfailed : p.readProgram.1 = .error e := thrown?_eq_some_iff.1 he
  obtain ⟨hne, hhead, hchain, -, hlength, hopened, hstack⟩ := herror braces ⟨"braces", ""⟩ e hfailed
  exact ⟨e, log, hfailed, hdeep, hne, hhead, hchain, hlength 128 hdeep, hopened, hlog,
    hstack log _ hlog⟩

end Parser

end FunImp
