import FunImp.Proofs.Grammar.Soundness

/-! # Whatever follows the grammar is read

The grammar can be read with one token of foresight: the first token of a tree tells what the tree
is, and `Place.extendedBy` lists the tokens behind a tree that would make the reader go on. Where
none of them follows, the reader answers the very tree whose leaves it is given. -/

namespace FunImp.Tree

open Reader

namespace Place

/-- The kinds of tokens that a tree in the place can start with. -/
def startedBy : Place → List Token.Kind
  | block => [.leftBrace]
  | expression => [.leftBrace, .integer, .identifier]
  | blockless | term | factor | element => [.integer, .identifier]
  | argumentList => [.leftParen]

/-- The kinds of tokens that can carry on a tree that could end in the place. -/
def extendedBy : Place → List Token.Kind
  | block | argumentList => []
  | element => [.leftParen]
  | factor => [.leftParen, .star, .slash]
  | expression | blockless | term => [.leftParen, .star, .slash, .plus, .minus]

end Place

theorem IsLeaf.starts {kinds : List Token.Kind} {t : Tree} (h : IsLeaf kinds t)
    (rest : List Leaf) : kindOfNext (t.leaves ++ rest) ∈ kinds := by
  obtain ⟨l, rfl, hl⟩ := h
  simpa using hl

/-- A node starts where its first child starts. -/
theorem kindOfNext_node {rule : Rule} {t : Tree} {children : List Tree} {kinds : List Token.Kind}
    (h : ∀ rest, kindOfNext (t.leaves ++ rest) ∈ kinds) (rest : List Leaf) :
    kindOfNext ((node rule (t :: children)).leaves ++ rest) ∈ kinds := by
  simpa [leaves, forestLeaves] using h (forestLeaves children ++ rest)

theorem Fits.starts {place : Place} {t : Tree} (h : Fits place t) (rest : List Leaf) :
    kindOfNext (t.leaves ++ rest) ∈ place.startedBy := by
  induction h generalizing rest with
  | block ho | noArguments ho | arguments ho => exact kindOfNext_node ho.starts rest
  | blockless _ ih => exact kindOfNext_node ih rest
  | braced _ ih =>
    rw [List.mem_singleton.1 (ih rest)]
    decide
  | bare _ ih => exact List.mem_cons_of_mem _ (ih rest)
  | term _ _ _ ih => exact kindOfNext_node ih rest
  | factor _ _ _ ih => exact kindOfNext_node ih rest
  | element hh => exact kindOfNext_node hh.starts rest
  | call hn => exact List.mem_cons_of_mem _ (kindOfNext_node hn.starts rest)

/-- All the readers read back what fits their places. -/
def Rules.Complete (rules : Rules) (budget : Nat) : Prop :=
  ∀ place t rest, Fits place t → t.ruleDepth ≤ budget → kindOfNext rest ∉ place.extendedBy →
    (rules.readerOf place).run (t.leaves ++ rest) = .ok (t, rest)

theorem kindOfNext_forestLeaves {kinds : List Token.Kind} {t : Tree} {ts : List Tree}
    (h : ∀ rest, kindOfNext (t.leaves ++ rest) ∈ kinds) (rest : List Leaf) :
    kindOfNext (forestLeaves (t :: ts) ++ rest) ∈ kinds := by
  simpa [forestLeaves] using h (forestLeaves ts ++ rest)

theorem Fits.itemTree_starts {i : Tree × Option Tree} (h : Fits .expression i.1)
    (rest : List Leaf) : kindOfNext ((itemTree i).leaves ++ rest) ∈ Place.expression.startedBy := by
  obtain ⟨t, _ | s⟩ := i
  · exact h.starts rest
  · exact kindOfNext_node h.starts rest

theorem Fits.ruleDepth_pos {place : Place} {t : Tree} (h : Fits place t) : 0 < t.ruleDepth := by
  induction h with
  | braced _ ih => exact ih
  | bare _ ih => exact ih
  | _ => simp only [ruleDepth, Rule.levels]; omega

namespace Rules

variable {rules : Rules} {budget : Nat} {rest : List Leaf}

theorem run_item (hr : rules.Complete budget) {i : Tree × Option Tree} (hi : Fits .expression i.1)
    (hs : ∀ s ∈ i.2, IsLeaf [.semicolon] s) (hd : (itemTree i).ruleDepth ≤ budget)
    (hrest : kindOfNext rest ∉ .semicolon :: Place.expression.extendedBy) :
    rules.item.run (forestLeaves [itemTree i] ++ rest) = .ok ([itemTree i], rest) := by
  obtain ⟨hsemicolon, hextended⟩ := not_or.1 fun h => hrest (List.mem_cons.2 h)
  obtain ⟨t, _ | s⟩ := i
  · have ht : rules.expression.run (t.leaves ++ rest) = .ok (t, rest) :=
      hr .expression t rest hi hd hextended
    refine run_bind_eq_ok.2 ⟨t, rest, by simpa [forestLeaves, itemTree] using ht, ?_⟩
    refine run_bind_eq_ok.2 ⟨_, _, run_peek_eq_ok.2 ⟨rfl, rfl⟩, ?_⟩
    simp [hsemicolon, itemTree]
  · obtain ⟨l, rfl, hl⟩ := hs s rfl
    have hd : t.ruleDepth ≤ budget := by
      simpa [itemTree, ruleDepth, Rule.levels, forestRuleDepth] using hd
    have hkind : l.kind = .semicolon := by simpa using hl
    have ht : rules.expression.run (t.leaves ++ l :: rest) = .ok (t, l :: rest) :=
      hr .expression t (l :: rest) hi hd (by simp [hkind, Place.extendedBy])
    refine run_bind_eq_ok.2 ⟨t, l :: rest, by simpa [forestLeaves, itemTree, leaves] using ht, ?_⟩
    refine run_bind_eq_ok.2 ⟨_, _, run_peek_eq_ok.2 ⟨rfl, rfl⟩, ?_⟩
    simp [hkind, itemTree, run_expect_cons hl]

theorem run_link (hr : rules.Complete budget) {place : Place} {kinds : List Token.Kind}
    {l : Tree × Tree} (hl : IsLink place budget kinds l)
    (hrest : kindOfNext rest ∉ place.extendedBy) :
    (separated kinds (rules.readerOf place)).run (forestLeaves (linkTrees l) ++ rest) =
      .ok (linkTrees l, rest) := by
  obtain ⟨⟨s, hs, hkind⟩, fits, depth⟩ := hl
  have ht := hr place l.2 rest fits depth hrest
  refine run_bind_eq_ok.2 ⟨ofLeaf s, l.2.leaves ++ rest, ?_, ?_⟩
  · exact run_expect_eq_ok.2 ⟨s, by simp [linkTrees, forestLeaves, hs], hkind, rfl⟩
  · exact run_bind_eq_ok.2 ⟨l.2, rest, ht, by simp [linkTrees, hs]⟩

theorem run_links (hr : rules.Complete budget) {place : Place} {kinds : List Token.Kind}
    {more : Token.Kind → Bool} {links : List (Tree × Tree)}
    (hp : (separated kinds (rules.readerOf place)).Strict)
    (hl : ∀ l ∈ links, IsLink place budget kinds l)
    (hkinds : ∀ k ∈ kinds, more k = true ∧ k ∉ place.extendedBy)
    (hstop : more (kindOfNext rest) = false) (hrest : kindOfNext rest ∉ place.extendedBy) :
    (many more (separated kinds (rules.readerOf place)) hp).run
      (forestLeaves (links.flatMap linkTrees) ++ rest) = .ok (links.flatMap linkTrees, rest) := by
  refine run_many_of_rows linkTrees links (· ∉ place.extendedBy) ?_ ?_ hstop hrest
  · exact fun l hm _ h => run_link hr (hl l hm) h
  · exact fun l hm rest => hkinds _ (kindOfNext_forestLeaves (hl l hm).1.starts rest)

theorem kindOfNext_links {place : Place} {kinds : List Token.Kind} {links : List (Tree × Tree)}
    (hl : ∀ l ∈ links, IsLink place budget kinds l) (hkinds : ∀ k ∈ kinds, k ∉ place.extendedBy)
    (hrest : kindOfNext rest ∉ place.extendedBy) :
    kindOfNext (forestLeaves (links.flatMap linkTrees) ++ rest) ∉ place.extendedBy := by
  cases links with
  | nil => simpa [forestLeaves] using hrest
  | cons l links =>
    have hstart := (hl l List.mem_cons_self).1.starts
    exact hkinds _ (kindOfNext_forestLeaves hstart rest)

theorem run_chain (hr : rules.Complete budget) {place : Place} {rule : Rule}
    {kinds : List Token.Kind} {first : Tree} {links : List (Tree × Tree)} (hf : Fits place first)
    (hd : first.ruleDepth ≤ budget) (hl : ∀ l ∈ links, IsLink place budget kinds l)
    (hkinds : ∀ k ∈ kinds, k ∉ place.extendedBy) (hstop : kindOfNext rest ∉ kinds)
    (hrest : kindOfNext rest ∉ place.extendedBy) :
    (chain rule kinds (rules.readerOf place)).run
        ((node rule (first :: links.flatMap linkTrees)).leaves ++ rest) =
      .ok (node rule (first :: links.flatMap linkTrees), rest) := by
  have hlinks : (many (· ∈ kinds) (separated kinds (rules.readerOf place))
      (.bind (strict_expect _) _)).run (forestLeaves (links.flatMap linkTrees) ++ rest) =
        .ok (links.flatMap linkTrees, rest) :=
    run_links hr _ hl (fun k hk => ⟨by simpa using hk, hkinds k hk⟩) (by simpa using hstop) hrest
  have hfirst := hr place first _ hf hd (kindOfNext_links hl hkinds hrest)
  refine run_bind_eq_ok.2 ⟨first, _, by simpa [leaves, forestLeaves] using hfirst, ?_⟩
  exact run_bind_eq_ok.2 ⟨_, rest, hlinks, by simp⟩

theorem run_blockBody (hr : rules.Complete budget) {t : Tree} (h : Fits .block t)
    (hd : t.ruleDepth ≤ budget + 1) :
    rules.blockBody.run (t.leaves ++ rest) = .ok (t, rest) := by
  cases h with
  | @block _ _ items ho hi hs hc =>
    obtain ⟨o, rfl, ho⟩ := ho
    obtain ⟨c, rfl, hc⟩ := hc
    have hkind : c.kind = .rightBrace := by simpa using hc
    rw [ruleDepth_node_le_succ rfl] at hd
    have depth : ∀ i ∈ items, (itemTree i).ruleDepth ≤ budget := fun i hm =>
      hd _ (List.mem_append_left _ (List.mem_cons_of_mem _ (List.mem_map_of_mem hm)))
    have hitems : (many (· ≠ .rightBrace) rules.item (.bind rules.strict_expression _)).run
        (forestLeaves (items.flatMap fun i => [itemTree i]) ++ c :: rest) =
          .ok (items.flatMap fun i => [itemTree i], c :: rest) := by
      -- Items may stand side by side, since no token that starts one carries on another.
      have hstarts : ∀ k ∈ Place.expression.startedBy,
          k ≠ .rightBrace ∧ k ∉ .semicolon :: Place.expression.extendedBy := by decide
      refine run_many_of_rows _ items (· ∉ .semicolon :: Place.expression.extendedBy)
        (fun i hm _ h => run_item hr (hi i hm) (hs i hm) (depth i hm) h) ?_ (by simp [hkind])
        (by simp [hkind, Place.extendedBy])
      intro i hm rest
      have hnext := hstarts _ ((hi i hm).itemTree_starts rest)
      simpa [forestLeaves] using hnext
    rw [← List.map_eq_flatMap] at hitems
    refine run_bind_eq_ok.2 ⟨ofLeaf o, forestLeaves (items.map itemTree) ++ c :: rest, ?_, ?_⟩
    · simp [leaves, forestLeaves, run_expect_cons ho]
    · exact run_bind_eq_ok.2 ⟨_, _, hitems, by simp [run_expect_cons hc]⟩

theorem run_blocklessBody (hr : rules.Complete budget) {t : Tree} (h : Fits .blockless t)
    (hd : t.ruleDepth ≤ budget + 1) (hrest : kindOfNext rest ∉ Place.blockless.extendedBy) :
    rules.blocklessBody.run (t.leaves ++ rest) = .ok (t, rest) := by
  cases h with
  | @blockless term ht =>
    have hterm : rules.term.1.run (term.leaves ++ rest) = .ok (term, rest) :=
      hr .term term rest ht ((ruleDepth_node_le_succ rfl).1 hd _ (by simp)) hrest
    simp [blocklessBody, leaves, forestLeaves, hterm]

/-- The depth of a chain in terms of its parts. -/
theorem isLink_of_node {rule : Rule} (hrule : rule.levels = 1) {place : Place}
    {kinds : List Token.Kind} {first : Tree} {links : List (Tree × Tree)}
    (hd : (node rule (first :: links.flatMap linkTrees)).ruleDepth ≤ budget + 1)
    (hs : ∀ l ∈ links, IsLeaf kinds l.1) (hl : ∀ l ∈ links, Fits place l.2) :
    first.ruleDepth ≤ budget ∧ ∀ l ∈ links, IsLink place budget kinds l := by
  rw [ruleDepth_node_le_succ hrule] at hd
  refine ⟨hd first List.mem_cons_self, fun l hm => ⟨hs l hm, hl l hm, ?_⟩⟩
  exact hd _ (List.mem_cons_of_mem _ (List.mem_flatMap.2 ⟨l, hm, by simp [linkTrees]⟩))

theorem run_termBody (hr : rules.Complete budget) {t : Tree} (h : Fits .term t)
    (hd : t.ruleDepth ≤ budget + 1) (hrest : kindOfNext rest ∉ Place.term.extendedBy) :
    rules.termBody.run (t.leaves ++ rest) = .ok (t, rest) := by
  cases h with
  | term hf hs hl =>
    obtain ⟨hfirst, hlinks⟩ := isLink_of_node rfl hd hs hl
    have hplus : ∀ k ∈ [.plus, .minus], k ∈ Place.term.extendedBy := by decide
    have hfactor : ∀ k ∈ Place.factor.extendedBy, k ∈ Place.term.extendedBy := by decide
    exact run_chain hr hf hfirst hlinks (by decide) (fun hm => hrest (hplus _ hm))
      (fun hm => hrest (hfactor _ hm))

theorem run_factorBody (hr : rules.Complete budget) {t : Tree} (h : Fits .factor t)
    (hd : t.ruleDepth ≤ budget + 1) (hrest : kindOfNext rest ∉ Place.factor.extendedBy) :
    rules.factorBody.run (t.leaves ++ rest) = .ok (t, rest) := by
  cases h with
  | factor hf hs hl =>
    obtain ⟨hfirst, hlinks⟩ := isLink_of_node rfl hd hs hl
    have hstar : ∀ k ∈ [.star, .slash], k ∈ Place.factor.extendedBy := by decide
    have helement : ∀ k ∈ Place.element.extendedBy, k ∈ Place.factor.extendedBy := by decide
    exact run_chain hr hf hfirst hlinks (by decide) (fun hm => hrest (hstar _ hm))
      (fun hm => hrest (helement _ hm))

theorem run_elementBody (hr : rules.Complete budget) {t : Tree} (h : Fits .element t)
    (hd : t.ruleDepth ≤ budget + 1) (hrest : kindOfNext rest ∉ Place.element.extendedBy) :
    rules.elementBody.run (t.leaves ++ rest) = .ok (t, rest) := by
  have hnext : kindOfNext rest ≠ .leftParen := by simpa [Place.extendedBy] using hrest
  cases h with
  | element hh =>
    obtain ⟨l, rfl, hl⟩ := hh
    refine run_bind_eq_ok.2 ⟨_, _, run_peek_eq_ok.2 ⟨rfl, rfl⟩, ?_⟩
    refine run_bind_eq_ok.2 ⟨ofLeaf l, rest, run_expect_eq_ok.2 ⟨l, ?_, hl, rfl⟩, ?_⟩
    · simp [leaves, forestLeaves]
    · exact run_bind_eq_ok.2 ⟨_, _, run_peek_eq_ok.2 ⟨rfl, rfl⟩, by simp [hnext]⟩
  | @call _ list hn hl =>
    obtain ⟨n, rfl, hn⟩ := hn
    have hlist : rules.argumentList.1.run (list.leaves ++ rest) = .ok (list, rest) :=
      hr .argumentList list rest hl ((ruleDepth_node_le_succ rfl).1 hd _ (by simp))
        (by simp [Place.extendedBy])
    have hname : n.kind = .identifier := by simpa using hn
    have hparen : kindOfNext (list.leaves ++ rest) = .leftParen := by
      simpa [Place.startedBy] using hl.starts rest
    refine run_bind_eq_ok.2 ⟨_, _, run_peek_eq_ok.2 ⟨rfl, rfl⟩, ?_⟩
    refine run_bind_eq_ok.2 ⟨ofLeaf n, list.leaves ++ rest, run_expect_eq_ok.2 ⟨n, ?_, ?_, rfl⟩, ?_⟩
    · simp [leaves, forestLeaves]
    · simp [hname]
    · refine run_bind_eq_ok.2 ⟨_, _, run_peek_eq_ok.2 ⟨rfl, rfl⟩, ?_⟩
      simp [leaves, forestLeaves, hname, hparen, hlist]

theorem run_argumentListBody (hr : rules.Complete budget) {t : Tree} (h : Fits .argumentList t)
    (hd : t.ruleDepth ≤ budget + 1) :
    rules.argumentListBody.run (t.leaves ++ rest) = .ok (t, rest) := by
  cases h with
  | noArguments ho hc =>
    obtain ⟨o, rfl, ho⟩ := ho
    obtain ⟨c, rfl, hc⟩ := hc
    have hkind : c.kind = .rightParen := by simpa using hc
    refine run_bind_eq_ok.2 ⟨ofLeaf o, c :: rest, run_expect_eq_ok.2 ⟨o, ?_, ho, rfl⟩, ?_⟩
    · simp [leaves, forestLeaves]
    · refine run_bind_eq_ok.2 ⟨_, _, run_peek_eq_ok.2 ⟨rfl, rfl⟩, ?_⟩
      simp [hkind, run_expect_cons hc]
  | @arguments _ first _ links ho hf hs hl hc =>
    obtain ⟨o, rfl, ho⟩ := ho
    obtain ⟨c, rfl, hc⟩ := hc
    have hkind : c.kind = .rightParen := by simpa using hc
    rw [ruleDepth_node_le_succ rfl] at hd
    have hdepth : first.ruleDepth ≤ budget := hd _ (by simp)
    have hlinks : ∀ l ∈ links, IsLink .expression budget [.comma] l := by
      intro l hm
      have hmem : l.2 ∈ links.flatMap linkTrees :=
        List.mem_flatMap.2 ⟨l, hm, by simp [linkTrees]⟩
      exact ⟨hs l hm, hl l hm, hd _ (by simp [hmem])⟩
    have hcomma : ∀ k ∈ [.comma], k ∉ Place.expression.extendedBy := by decide
    have hparen : kindOfNext (c :: rest) ∉ Place.expression.extendedBy := by
      simp [hkind, Place.extendedBy]
    have hothers : (many (· = .comma) (separated [.comma] rules.expression)
        (.bind (strict_expect _) _)).run (forestLeaves (links.flatMap linkTrees) ++ c :: rest) =
          .ok (links.flatMap linkTrees, c :: rest) :=
      run_links hr _ hlinks (by decide) (by simp [hkind]) hparen
    have hfirst : rules.expression.run
        (first.leaves ++ (forestLeaves (links.flatMap linkTrees) ++ c :: rest)) =
          .ok (first, forestLeaves (links.flatMap linkTrees) ++ c :: rest) :=
      hr .expression first _ hf hdepth (kindOfNext_links hlinks hcomma hparen)
    have hstart := hf.starts (forestLeaves (links.flatMap linkTrees) ++ c :: rest)
    have hnext : kindOfNext (first.leaves ++
        (forestLeaves (links.flatMap linkTrees) ++ c :: rest)) ≠ .rightParen :=
      fun h => absurd (h ▸ hstart) (by decide)
    have hopening : (expect [.leftParen]).run ((node .argumentList
        (ofLeaf o :: first :: links.flatMap linkTrees ++ [ofLeaf c])).leaves ++ rest) =
          .ok (ofLeaf o,
            first.leaves ++ (forestLeaves (links.flatMap linkTrees) ++ c :: rest)) := by
      simp [leaves, forestLeaves, run_expect_cons ho]
    refine run_bind_eq_ok.2 ⟨_, _, hopening, ?_⟩
    refine run_bind_eq_ok.2 ⟨_, _, run_peek_eq_ok.2 ⟨rfl, rfl⟩, ?_⟩
    rw [if_neg hnext]
    refine run_bind_eq_ok.2 ⟨first, _, hfirst, ?_⟩
    refine run_bind_eq_ok.2 ⟨_, _, hothers, ?_⟩
    exact run_bind_eq_ok.2 ⟨ofLeaf c, rest, run_require_eq_ok.2 ⟨c, rfl, hc, rfl⟩, by simp⟩

/-- An expression is told from its first token. -/
theorem run_expression {t : Tree} (h : Fits .expression t)
    (hblock : Fits .block t → rules.block.1.run (t.leaves ++ rest) = .ok (t, rest))
    (hbare : Fits .blockless t → rules.blockless.1.run (t.leaves ++ rest) = .ok (t, rest)) :
    rules.expression.run (t.leaves ++ rest) = .ok (t, rest) := by
  refine run_bind_eq_ok.2 ⟨_, _, run_peek_eq_ok.2 ⟨rfl, rfl⟩, ?_⟩
  cases h with
  | braced h =>
    rw [if_pos (by simpa [Place.startedBy] using h.starts rest)]
    exact hblock h
  | bare h =>
    have hstart := h.starts rest
    rw [if_neg fun h => absurd (h ▸ hstart) (by decide)]
    exact hbare h

theorem complete_upTo (budget : Nat) : (upTo budget).Complete budget := by
  intro place t rest h hd hrest
  induction budget generalizing place t rest with
  | zero =>
    exact absurd h.ruleDepth_pos (Nat.not_lt.2 hd)
  | succ n ih =>
    have hblock (h : Fits .block t) :
        (upTo (n + 1)).block.1.run (t.leaves ++ rest) = .ok (t, rest) :=
      run_within_eq_ok.2 (run_blockBody ih h hd)
    cases place with
    | block => exact hblock h
    | blockless => exact run_within_eq_ok.2 (run_blocklessBody ih h hd hrest)
    | expression =>
      exact run_expression h hblock fun h => run_within_eq_ok.2 (run_blocklessBody ih h hd hrest)
    | term => exact run_within_eq_ok.2 (run_termBody ih h hd hrest)
    | factor => exact run_within_eq_ok.2 (run_factorBody ih h hd hrest)
    | element => exact run_within_eq_ok.2 (run_elementBody ih h hd hrest)
    | argumentList => exact run_within_eq_ok.2 (run_argumentListBody ih h hd)

end Rules

variable {budget : Nat} {rest : List Leaf} {t : Tree}

theorem run_opened {α : Type} {rule : Rule} {body : Nat → Reader α} {ls : List Leaf} {a : α}
    (h : (body budget).run ls = .ok (a, rest)) :
    (opened rule body (budget + 1)).run ls = .ok (a, rest) := run_within_eq_ok.2 h

theorem run_param {ts : List Tree} (h : IsParam ts) (rest : List Leaf) :
    param.run (forestLeaves ts ++ rest) = .ok (ts, rest) := by
  obtain ⟨_, _, _, rfl, ⟨n, rfl, hn⟩, ⟨c, rfl, hc⟩, ⟨ty, rfl, ht⟩⟩ := h
  simp [param, forestLeaves, run_expect_cons hn, run_expect_cons hc, run_expect_cons ht]

theorem run_commaParam {ts : List Tree} (h : IsCommaParam ts) (rest : List Leaf) :
    commaParam.run (forestLeaves ts ++ rest) = .ok (ts, rest) := by
  obtain ⟨_, ps, rfl, ⟨c, rfl, hc⟩, hp⟩ := h
  simp [commaParam, forestLeaves, run_expect_cons hc, run_param hp]

theorem run_paramListBody (h : IsParamList t) (rest : List Leaf) :
    paramListBody.run (t.leaves ++ rest) = .ok (t, rest) := by
  cases h with
  | empty ho hc =>
    obtain ⟨o, rfl, ho⟩ := ho
    obtain ⟨c, rfl, hc⟩ := hc
    have hkind : c.kind = .rightParen := by simpa using hc
    have hclosing : (require [.rightParen] [.identifier, .rightParen]).run (c :: rest) =
        .ok (ofLeaf c, rest) := run_require_eq_ok.2 ⟨c, rfl, hc, rfl⟩
    refine run_bind_eq_ok.2 ⟨ofLeaf o, c :: rest, run_expect_eq_ok.2 ⟨o, ?_, ho, rfl⟩, ?_⟩
    · simp [leaves, forestLeaves]
    · refine run_bind_eq_ok.2 ⟨_, _, run_peek_eq_ok.2 ⟨rfl, rfl⟩, ?_⟩
      simp [hkind, hclosing]
  | @params _ _ first others ho hf hp hc =>
    obtain ⟨o, rfl, ho⟩ := ho
    obtain ⟨c, rfl, hc⟩ := hc
    have hkind : c.kind = .rightParen := by simpa using hc
    have hothers : (many (· = .comma) commaParam (.bind (strict_expect _) _)).run
        (forestLeaves (others.flatMap id) ++ c :: rest) = .ok (others.flatMap id, c :: rest) := by
      refine run_many_of_rows id others (fun _ => True) (fun p hm _ _ => run_commaParam (hp p hm) _)
        ?_ (by simp [hkind]) trivial
      intro p hm rest
      obtain ⟨_, ps, rfl, ⟨l, rfl, hl⟩, -⟩ := hp p hm
      simpa [forestLeaves] using hl
    rw [List.flatMap_id] at hothers
    have hfirst := run_param hf (forestLeaves others.flatten ++ c :: rest)
    have hstart : kindOfNext (forestLeaves first ++ (forestLeaves others.flatten ++ c :: rest)) =
        .identifier := by
      obtain ⟨_, _, _, rfl, ⟨n, rfl, hn⟩, -⟩ := hf
      simpa [forestLeaves] using hn
    have hopening : (expect [.leftParen]).run ((node .paramList
        (ofLeaf o :: first ++ others.flatten ++ [ofLeaf c])).leaves ++ rest) =
          .ok (ofLeaf o, forestLeaves first ++ (forestLeaves others.flatten ++ c :: rest)) := by
      simp [leaves, forestLeaves, run_expect_cons ho]
    refine run_bind_eq_ok.2 ⟨_, _, hopening, ?_⟩
    refine run_bind_eq_ok.2 ⟨_, _, run_peek_eq_ok.2 ⟨rfl, rfl⟩, ?_⟩
    rw [if_pos hstart]
    refine run_bind_eq_ok.2 ⟨first, _, hfirst, ?_⟩
    refine run_bind_eq_ok.2 ⟨_, _, hothers, ?_⟩
    exact run_bind_eq_ok.2 ⟨ofLeaf c, rest, run_require_eq_ok.2 ⟨c, rfl, hc, rfl⟩, by simp⟩

theorem IsParamList.ruleDepth_pos (h : IsParamList t) : 0 < t.ruleDepth := by
  cases h <;> (simp only [ruleDepth, Rule.levels]; omega)

theorem run_signatureAndBody {ts : List Tree} (h : IsSignatureAndBody ts)
    (hd : ∀ t ∈ ts, t.ruleDepth ≤ budget) (rest : List Leaf) :
    (signatureAndBody budget).run (forestLeaves ts ++ rest) = .ok (ts, rest) := by
  obtain ⟨_, list, _, _, body, rfl, ⟨n, rfl, hn⟩, hlist, ⟨c, rfl, hc⟩, ⟨ty, rfl, ht⟩, hbody⟩ := h
  obtain ⟨m, rfl⟩ : ∃ m, budget = m + 1 :=
    Nat.exists_eq_add_one.2 (Nat.lt_of_lt_of_le hlist.ruleDepth_pos (hd list (by simp)))
  have hparams (rest : List Leaf) : (paramList (m + 1)).run (list.leaves ++ rest) =
      .ok (list, rest) := run_opened (run_paramListBody hlist rest)
  have hblock : (Rules.upTo (m + 1)).block.1.run (body.leaves ++ rest) = .ok (body, rest) :=
    Rules.complete_upTo (m + 1) .block body rest hbody (hd body (by simp))
      (by simp [Place.extendedBy])
  simp [signatureAndBody, forestLeaves, run_expect_cons hn, hparams, run_expect_cons hc,
    run_expect_cons ht, hblock]

theorem IsSignatureAndBody.starts {ts : List Tree} (h : IsSignatureAndBody ts) (rest : List Leaf) :
    kindOfNext (forestLeaves ts ++ rest) = .identifier := by
  obtain ⟨_, _, _, _, _, rfl, ⟨n, rfl, hn⟩, -⟩ := h
  simpa [forestLeaves] using hn

theorem IsFunction.starts (h : IsFunction t) (rest : List Leaf) :
    kindOfNext (t.leaves ++ rest) ∈ [.imp, .fn, .identifier] := by
  cases h with
  | impure hk =>
    obtain ⟨k, rfl, hk⟩ := hk
    simp_all [leaves, forestLeaves]
  | @pure keyword _ hk hr =>
    cases keyword with
    | none => simp [leaves, hr.starts]
    | some k =>
      obtain ⟨k, rfl, hk⟩ := hk k rfl
      simp_all [leaves, forestLeaves]

theorem run_function (h : IsFunction t) (hd : t.ruleDepth ≤ budget) (rest : List Leaf) :
    (function budget).run (forestLeaves [t] ++ rest) = .ok ([t], rest) := by
  obtain ⟨m, rfl⟩ : ∃ m, budget = m + 1 := by
    refine Nat.exists_eq_add_one.2 (Nat.lt_of_lt_of_le ?_ hd)
    cases h <;> (simp only [ruleDepth, Rule.levels]; omega)
  refine run_bind_eq_ok.2 ⟨_, _, run_peek_eq_ok.2 ⟨rfl, rfl⟩, ?_⟩
  cases h with
  | @impure _ ts hk hr =>
    obtain ⟨k, rfl, hk⟩ := hk
    rw [ruleDepth_node_le_succ rfl, List.forall_mem_cons] at hd
    have hts := run_signatureAndBody hr hd.2 rest
    have hkind : k.kind = .imp := by simpa using hk
    have hf : (opened .impureFunction impureFunctionBody (m + 1)).run
        (k :: (forestLeaves ts ++ rest)) =
          .ok (node .impureFunction (ofLeaf k :: ts), rest) :=
      run_opened (by simp [impureFunctionBody, run_expect_cons hk, hts])
    simp [leaves, forestLeaves, hkind, hf]
  | @pure keyword ts hk hr =>
    rw [ruleDepth_node_le_succ rfl, List.forall_mem_append] at hd
    have hts := run_signatureAndBody hr hd.2 rest
    cases keyword with
    | none =>
      have hf : (opened .pureFunction pureFunctionBody (m + 1)).run (forestLeaves ts ++ rest) =
          .ok (node .pureFunction ts, rest) := by
        refine run_opened (run_bind_eq_ok.2 ⟨_, _, run_peek_eq_ok.2 ⟨rfl, rfl⟩, ?_⟩)
        simp [hr.starts, hts]
      simp [leaves, forestLeaves, hr.starts, hf]
    | some k =>
      obtain ⟨l, rfl, hl⟩ := hk k rfl
      have hkind : l.kind = .fn := by simpa using hl
      have hf : (opened .pureFunction pureFunctionBody (m + 1)).run
          (l :: (forestLeaves ts ++ rest)) =
            .ok (node .pureFunction (ofLeaf l :: ts), rest) := by
        refine run_opened (run_bind_eq_ok.2 ⟨_, _, run_peek_eq_ok.2 ⟨rfl, rfl⟩, ?_⟩)
        simp [hkind, run_expect_cons hl, hts]
      simp [leaves, forestLeaves, hkind, hf]

theorem run_functions {ts : List Tree} (h : ∀ f ∈ ts, IsFunction f)
    (hd : ∀ f ∈ ts, f.ruleDepth ≤ budget) (hrest : kindOfNext rest = .eof) :
    (functions budget).run (forestLeaves ts ++ rest) = .ok (ts, rest) := by
  have hmany : (many startsFunction (function budget) (strict_function budget)).run
      (forestLeaves (ts.flatMap fun f => [f]) ++ rest) = .ok (ts.flatMap fun f => [f], rest) := by
    refine run_many_of_rows _ ts (fun _ => True) (fun f hm _ _ => run_function (h f hm) (hd f hm) _)
      ?_ (by simp [hrest, startsFunction]) trivial
    intro f hm rest
    have hstart := (h f hm).starts rest
    simpa [startsFunction, forestLeaves, or_assoc] using hstart
  rw [List.flatMap_singleton'] at hmany
  refine run_bind_eq_ok.2 ⟨ts, rest, hmany, ?_⟩
  exact run_bind_eq_ok.2 ⟨_, _, run_peek_eq_ok.2 ⟨rfl, rfl⟩, by simp [hrest]⟩

end FunImp.Tree
