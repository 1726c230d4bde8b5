import FunImp.Proofs.Grammar.Reading

/-! # Whatever is read follows the grammar

Each reader answers a tree of its place that opens no more rules than it was allowed to, and what
it takes are the leaves of that tree. The induction is on the budget. -/

namespace FunImp.Tree

open Reader

/-- The reader for a place. -/
def Rules.readerOf (rules : Rules) : Place → Reader Tree
  | .block => rules.block.1
  | .blockless => rules.blockless.1
  | .expression => rules.expression
  | .term => rules.term.1
  | .factor => rules.factor.1
  | .element => rules.element.1
  | .argumentList => rules.argumentList.1

/-- The tree has been read in front of `rest`, in the place and with so many levels of rules. -/
structure ReadAs (place : Place) (budget : Nat) (ls : List Leaf) (t : Tree) (rest : List Leaf) :
    Prop where
  fits : Fits place t
  depth : t.ruleDepth ≤ budget
  leaves : ls = t.leaves ++ rest

/-- All the readers answer trees of their places. -/
def Rules.Sound (rules : Rules) (budget : Nat) : Prop :=
  ∀ place ls t rest, (rules.readerOf place).run ls = .ok (t, rest) →
    ReadAs place budget ls t rest

variable {rules : Rules} {budget : Nat} {ls rest : List Leaf} {t : Tree}

theorem isLeaf_ofLeaf {kinds : List Token.Kind} {l : Leaf} (h : l.kind ∈ kinds) :
    IsLeaf kinds (ofLeaf l) := ⟨l, rfl, h⟩

namespace Rules

theorem item_of_run (hr : rules.Sound budget) {ts : List Tree}
    (h : rules.item.run ls = .ok (ts, rest)) :
    ∃ i : Tree × Option Tree, ts = [itemTree i] ∧
      (Fits .expression i.1 ∧ (∀ s ∈ i.2, IsLeaf [.semicolon] s) ∧
        (itemTree i).ruleDepth ≤ budget) ∧ ls = forestLeaves ts ++ rest := by
  simp only [item, run_bind_eq_ok, run_peek_eq_ok] at h
  obtain ⟨e, between, he, next, _, ⟨-, rfl⟩, h⟩ := h
  obtain ⟨fits, depth, rfl⟩ := hr .expression _ _ _ he
  split at h
  · simp only [run_bind_eq_ok, run_expect_eq_ok, run_pure_eq_ok] at h
    obtain ⟨_, _, ⟨l, rfl, hl, rfl⟩, rfl, rfl⟩ := h
    refine ⟨(e, some (ofLeaf l)), rfl, ⟨fits, ?_, ?_⟩, by simp [forestLeaves, leaves]⟩
    · exact fun s hs => Option.some.inj hs ▸ isLeaf_ofLeaf hl
    · simpa [itemTree, ruleDepth, Rule.levels, forestRuleDepth] using depth
  · obtain ⟨rfl, rfl⟩ := run_pure_eq_ok.1 h
    exact ⟨(e, none), rfl, ⟨fits, by simp, depth⟩, by simp [forestLeaves]⟩

/-- What the trees of a link are. -/
def IsLink (place : Place) (budget : Nat) (kinds : List Token.Kind) (l : Tree × Tree) : Prop :=
  IsLeaf kinds l.1 ∧ Fits place l.2 ∧ l.2.ruleDepth ≤ budget

theorem link_of_run (hr : rules.Sound budget) (place : Place) {kinds : List Token.Kind}
    {ts : List Tree} (h : (separated kinds (rules.readerOf place)).run ls = .ok (ts, rest)) :
    ∃ l, ts = linkTrees l ∧ IsLink place budget kinds l ∧ ls = forestLeaves ts ++ rest := by
  simp only [separated, run_bind_eq_ok, run_expect_eq_ok, run_pure_eq_ok] at h
  obtain ⟨_, _, ⟨s, rfl, hs, rfl⟩, t, _, ht, rfl, rfl⟩ := h
  obtain ⟨fits, depth, rfl⟩ := hr place _ _ _ ht
  exact ⟨(ofLeaf s, t), rfl, ⟨isLeaf_ofLeaf hs, fits, depth⟩, by simp [forestLeaves]⟩

theorem ruleDepth_links {place : Place} {kinds : List Token.Kind} {links : List (Tree × Tree)}
    (h : ∀ l ∈ links, IsLink place budget kinds l) :
    ∀ t ∈ links.flatMap linkTrees, t.ruleDepth ≤ budget :=
  forall_mem_flatMap_linkTrees
    (fun l hm => (h l hm).1.ruleDepth_le _) (fun l hm => (h l hm).2.2)

theorem chain_of_run (hr : rules.Sound budget) (place : Place) {rule : Rule}
    {kinds : List Token.Kind} (hrule : rule.levels = 1)
    (h : (chain rule kinds (rules.readerOf place)).run ls = .ok (t, rest)) :
    ∃ (first : Tree) (links : List (Tree × Tree)),
      t = node rule (first :: links.flatMap linkTrees) ∧ Fits place first ∧
        (∀ l ∈ links, IsLink place budget kinds l) ∧ t.ruleDepth ≤ budget + 1 ∧
        ls = t.leaves ++ rest := by
  simp only [chain, run_bind_eq_ok, run_pure_eq_ok] at h
  obtain ⟨first, _, hfirst, others, _, hothers, rfl, rfl⟩ := h
  obtain ⟨fits, depth, rfl⟩ := hr place _ _ _ hfirst
  obtain ⟨links, rfl, hlinks, rfl⟩ :=
    rows_of_run_many linkTrees (fun _ _ _ => link_of_run hr place) hothers
  refine ⟨first, links, rfl, fits, hlinks, ?_, by simp [leaves, forestLeaves]⟩
  exact (ruleDepth_node_le_succ hrule).2 (List.forall_mem_cons.2 ⟨depth, ruleDepth_links hlinks⟩)

theorem blockBody_of_run (hr : rules.Sound budget)
    (h : rules.blockBody.run ls = .ok (t, rest)) : ReadAs .block (budget + 1) ls t rest := by
  simp only [blockBody, run_bind_eq_ok, run_expect_eq_ok, run_pure_eq_ok] at h
  obtain ⟨_, _, ⟨o, rfl, ho, rfl⟩, _, _, hitems, _, _, ⟨c, rfl, hc, rfl⟩, rfl, rfl⟩ := h
  obtain ⟨items, rfl, hi, rfl⟩ :=
    rows_of_run_many (fun i => [itemTree i]) (fun _ _ _ => item_of_run hr) hitems
  rw [← List.map_eq_flatMap]
  refine ⟨.block (isLeaf_ofLeaf ho) (fun i hm => (hi i hm).1) (fun i hm => (hi i hm).2.1)
    (isLeaf_ofLeaf hc), ?_, by simp [leaves, forestLeaves]⟩
  have hitems : ∀ t ∈ items.map itemTree, t.ruleDepth ≤ budget :=
    List.forall_mem_map.2 fun i hm => (hi i hm).2.2
  exact (ruleDepth_node_le_succ rfl).2 (forall_mem_enclosed (by simp) hitems (by simp))

theorem blocklessBody_of_run (hr : rules.Sound budget)
    (h : rules.blocklessBody.run ls = .ok (t, rest)) :
    ReadAs .blockless (budget + 1) ls t rest := by
  simp only [blocklessBody, run_bind_eq_ok, run_pure_eq_ok] at h
  obtain ⟨term, _, hterm, rfl, rfl⟩ := h
  obtain ⟨fits, depth, rfl⟩ := hr .term _ _ _ hterm
  refine ⟨.blockless fits, ?_, by simp [leaves, forestLeaves]⟩
  rw [ruleDepth_node_le_succ rfl]
  simpa using depth

theorem termBody_of_run (hr : rules.Sound budget)
    (h : rules.termBody.run ls = .ok (t, rest)) : ReadAs .term (budget + 1) ls t rest := by
  obtain ⟨first, links, rfl, fits, hlinks, depth, split⟩ := chain_of_run hr .factor rfl h
  exact ⟨.term fits (fun l hm => (hlinks l hm).1) (fun l hm => (hlinks l hm).2.1), depth, split⟩

theorem factorBody_of_run (hr : rules.Sound budget)
    (h : rules.factorBody.run ls = .ok (t, rest)) : ReadAs .factor (budget + 1) ls t rest := by
  obtain ⟨first, links, rfl, fits, hlinks, depth, split⟩ := chain_of_run hr .element rfl h
  exact ⟨.factor fits (fun l hm => (hlinks l hm).1) (fun l hm => (hlinks l hm).2.1), depth, split⟩

theorem elementBody_of_run (hr : rules.Sound budget)
    (h : rules.elementBody.run ls = .ok (t, rest)) : ReadAs .element (budget + 1) ls t rest := by
  simp only [elementBody, run_bind_eq_ok, run_peek_eq_ok, run_expect_eq_ok] at h
  obtain ⟨first, _, ⟨hfirst, rfl⟩, _, _, ⟨l, rfl, hl, rfl⟩, next, _, ⟨-, rfl⟩, h⟩ := h
  split at h
  · rename_i hcall
    have hname : l.kind = .identifier := hfirst.trans hcall.1
    simp only [run_bind_eq_ok, run_pure_eq_ok] at h
    obtain ⟨list, _, hlist, rfl, rfl⟩ := h
    obtain ⟨fits, depth, rfl⟩ := hr .argumentList _ _ _ hlist
    refine ⟨.call (isLeaf_ofLeaf (by simp [hname])) fits, ?_, by simp [leaves, forestLeaves]⟩
    rw [ruleDepth_node_le_succ rfl]
    simpa using depth
  · obtain ⟨rfl, rfl⟩ := run_pure_eq_ok.1 h
    refine ⟨.element (isLeaf_ofLeaf hl), ?_, by simp [leaves, forestLeaves]⟩
    rw [ruleDepth_node_le_succ rfl]
    simp

theorem argumentListBody_of_run (hr : rules.Sound budget)
    (h : rules.argumentListBody.run ls = .ok (t, rest)) :
    ReadAs .argumentList (budget + 1) ls t rest := by
  simp only [argumentListBody, run_bind_eq_ok, run_peek_eq_ok, run_expect_eq_ok] at h
  obtain ⟨_, _, ⟨o, rfl, ho, rfl⟩, next, _, ⟨-, rfl⟩, h⟩ := h
  split at h
  · simp only [run_bind_eq_ok, run_expect_eq_ok, run_pure_eq_ok] at h
    obtain ⟨_, _, ⟨c, rfl, hc, rfl⟩, rfl, rfl⟩ := h
    refine ⟨.noArguments (isLeaf_ofLeaf ho) (isLeaf_ofLeaf hc), ?_,
      by simp [leaves, forestLeaves]⟩
    rw [ruleDepth_node_le_succ rfl]
    simp
  · simp only [run_bind_eq_ok, run_require_eq_ok, run_pure_eq_ok] at h
    obtain ⟨first, _, hfirst, others, _, hothers, _, _, ⟨c, rfl, hc, rfl⟩, rfl, rfl⟩ := h
    obtain ⟨fits, depth, rfl⟩ := hr .expression _ _ _ hfirst
    obtain ⟨links, rfl, hlinks, rfl⟩ :=
      rows_of_run_many linkTrees (fun _ _ _ => link_of_run hr .expression) hothers
    refine ⟨.arguments (isLeaf_ofLeaf ho) fits (fun l hm => (hlinks l hm).1)
      (fun l hm => (hlinks l hm).2.1) (isLeaf_ofLeaf hc), ?_, by simp [leaves, forestLeaves]⟩
    have harguments : ∀ t ∈ first :: links.flatMap linkTrees, t.ruleDepth ≤ budget :=
      List.forall_mem_cons.2 ⟨depth, ruleDepth_links hlinks⟩
    exact (ruleDepth_node_le_succ rfl).2 (forall_mem_enclosed (by simp) harguments (by simp))

/-- An expression needs no level of its own. -/
theorem expression_of_run
    (hblock : ∀ ls t rest, rules.block.1.run ls = .ok (t, rest) → ReadAs .block budget ls t rest)
    (hbare : ∀ ls t rest, rules.blockless.1.run ls = .ok (t, rest) →
      ReadAs .blockless budget ls t rest)
    (h : rules.expression.run ls = .ok (t, rest)) : ReadAs .expression budget ls t rest := by
  simp only [expression, run_bind_eq_ok, run_peek_eq_ok] at h
  obtain ⟨next, _, ⟨-, rfl⟩, h⟩ := h
  split at h
  · obtain ⟨fits, depth, split⟩ := hblock _ _ _ h
    exact ⟨.braced fits, depth, split⟩
  · obtain ⟨fits, depth, split⟩ := hbare _ _ _ h
    exact ⟨.bare fits, depth, split⟩

theorem sound_upTo (budget : Nat) : (upTo budget).Sound budget := by
  intro place ls t rest h
  induction budget generalizing place ls t rest with
  | zero =>
    have hexpression (h : (upTo 0).expression.run ls = .ok (t, rest)) :
        ReadAs .expression 0 ls t rest :=
      expression_of_run (fun _ _ _ h => absurd h run_fail_ne_ok)
        (fun _ _ _ h => absurd h run_fail_ne_ok) h
    cases place with
    | expression => exact hexpression h
    | _ => exact absurd h run_fail_ne_ok
  | succ n ih =>
    have hblock (ls : List Leaf) (t : Tree) (rest : List Leaf)
        (h : (upTo (n + 1)).block.1.run ls = .ok (t, rest)) : ReadAs .block (n + 1) ls t rest :=
      blockBody_of_run ih (run_within_eq_ok.1 h)
    have hbare (ls : List Leaf) (t : Tree) (rest : List Leaf)
        (h : (upTo (n + 1)).blockless.1.run ls = .ok (t, rest)) :
        ReadAs .blockless (n + 1) ls t rest :=
      blocklessBody_of_run ih (run_within_eq_ok.1 h)
    cases place with
    | block => exact hblock _ _ _ h
    | blockless => exact hbare _ _ _ h
    | expression => exact expression_of_run hblock hbare h
    | term => exact termBody_of_run ih (run_within_eq_ok.1 h)
    | factor => exact factorBody_of_run ih (run_within_eq_ok.1 h)
    | element => exact elementBody_of_run ih (run_within_eq_ok.1 h)
    | argumentList => exact argumentListBody_of_run ih (run_within_eq_ok.1 h)

end Rules

theorem opened_of_run {α : Type} {rule : Rule} {body : Nat → Reader α} {a : α}
    (h : (opened rule body budget).run ls = .ok (a, rest)) :
    ∃ n, budget = n + 1 ∧ (body n).run ls = .ok (a, rest) := by
  cases budget with
  | zero => exact absurd h run_fail_ne_ok
  | succ n => exact ⟨n, rfl, run_within_eq_ok.1 h⟩

theorem param_of_run {ts : List Tree} (h : param.run ls = .ok (ts, rest)) :
    IsParam ts ∧ ls = forestLeaves ts ++ rest := by
  simp only [param, run_bind_eq_ok, run_expect_eq_ok, run_pure_eq_ok] at h
  obtain ⟨_, _, ⟨n, rfl, hn, rfl⟩, _, _, ⟨c, rfl, hc, rfl⟩, _, _, ⟨ty, rfl, ht, rfl⟩, rfl, rfl⟩ := h
  exact ⟨⟨_, _, _, rfl, isLeaf_ofLeaf hn, isLeaf_ofLeaf hc, isLeaf_ofLeaf ht⟩,
    by simp [forestLeaves]⟩

theorem commaParam_of_run {ts : List Tree} (h : commaParam.run ls = .ok (ts, rest)) :
    IsCommaParam ts ∧ ls = forestLeaves ts ++ rest := by
  simp only [commaParam, run_bind_eq_ok, run_expect_eq_ok, run_pure_eq_ok] at h
  obtain ⟨_, _, ⟨c, rfl, hc, rfl⟩, ps, _, hp, rfl, rfl⟩ := h
  obtain ⟨hparam, rfl⟩ := param_of_run hp
  exact ⟨⟨_, _, rfl, isLeaf_ofLeaf hc, hparam⟩, by simp [forestLeaves]⟩

theorem IsParamList.ruleDepth_le {t : Tree} (h : IsParamList t) (n : Nat) :
    t.ruleDepth ≤ n + 1 := by
  obtain ⟨ts, rfl, hts⟩ := h.exists_leaves
  exact (ruleDepth_node_le_succ rfl).2 fun t ht => (hts t ht).ruleDepth_le n

theorem paramListBody_of_run (h : paramListBody.run ls = .ok (t, rest)) :
    IsParamList t ∧ ls = t.leaves ++ rest := by
  simp only [paramListBody, run_bind_eq_ok, run_peek_eq_ok, run_expect_eq_ok] at h
  obtain ⟨_, _, ⟨o, rfl, ho, rfl⟩, next, _, ⟨-, rfl⟩, h⟩ := h
  split at h
  · simp only [run_bind_eq_ok, run_require_eq_ok, run_pure_eq_ok] at h
    obtain ⟨first, _, hfirst, others, _, hothers, _, _, ⟨c, rfl, hc, rfl⟩, rfl, rfl⟩ := h
    obtain ⟨hparam, rfl⟩ := param_of_run hfirst
    obtain ⟨rows, rfl, hrows, rfl⟩ := rows_of_run_many id
      (fun _ ts _ h => ⟨ts, rfl, commaParam_of_run h⟩) hothers
    rw [List.flatMap_id]
    exact ⟨.params (isLeaf_ofLeaf ho) hparam hrows (isLeaf_ofLeaf hc),
      by simp [leaves, forestLeaves]⟩
  · simp only [run_bind_eq_ok, run_require_eq_ok, run_pure_eq_ok] at h
    obtain ⟨_, _, ⟨c, rfl, hc, rfl⟩, rfl, rfl⟩ := h
    exact ⟨.empty (isLeaf_ofLeaf ho) (isLeaf_ofLeaf hc), by simp [leaves, forestLeaves]⟩

theorem signatureAndBody_of_run {ts : List Tree}
    (h : (signatureAndBody budget).run ls = .ok (ts, rest)) :
    IsSignatureAndBody ts ∧ (∀ t ∈ ts, t.ruleDepth ≤ budget) ∧ ls = forestLeaves ts ++ rest := by
  simp only [signatureAndBody, run_bind_eq_ok, run_expect_eq_ok, run_pure_eq_ok] at h
  obtain ⟨_, _, ⟨n, rfl, hn, rfl⟩, ps, _, hps, _, _, ⟨c, rfl, hc, rfl⟩, _, _, ⟨ty, rfl, ht, rfl⟩,
    body, _, hbody, rfl, rfl⟩ := h
  obtain ⟨fits, depth, rfl⟩ := Rules.sound_upTo budget .block _ _ _ hbody
  obtain ⟨n, rfl, hlist⟩ := opened_of_run hps
  obtain ⟨hparams, rfl⟩ := paramListBody_of_run hlist
  refine ⟨⟨_, _, _, _, _, rfl, isLeaf_ofLeaf hn, hparams, isLeaf_ofLeaf hc, isLeaf_ofLeaf ht, fits⟩,
    ?_, by simp [forestLeaves]⟩
  simpa using ⟨hparams.ruleDepth_le n, depth⟩

theorem impureFunctionBody_of_run (h : (impureFunctionBody budget).run ls = .ok (t, rest)) :
    (IsFunction t ∧ t.ruleDepth ≤ budget + 1) ∧ ls = t.leaves ++ rest := by
  simp only [impureFunctionBody, run_bind_eq_ok, run_expect_eq_ok, run_pure_eq_ok] at h
  obtain ⟨_, _, ⟨k, rfl, hk, rfl⟩, ts, _, hts, rfl, rfl⟩ := h
  obtain ⟨hsignature, depth, rfl⟩ := signatureAndBody_of_run hts
  refine ⟨⟨.impure (isLeaf_ofLeaf hk) hsignature, ?_⟩, by simp [forestLeaves, leaves]⟩
  exact (ruleDepth_node_le_succ rfl).2 (List.forall_mem_cons.2 ⟨by simp, depth⟩)

theorem pureFunctionBody_of_run (h : (pureFunctionBody budget).run ls = .ok (t, rest)) :
    (IsFunction t ∧ t.ruleDepth ≤ budget + 1) ∧ ls = t.leaves ++ rest := by
  simp only [pureFunctionBody, run_bind_eq_ok, run_peek_eq_ok] at h
  obtain ⟨next, _, ⟨-, rfl⟩, h⟩ := h
  split at h
  · simp only [run_bind_eq_ok, run_expect_eq_ok, run_pure_eq_ok] at h
    obtain ⟨_, _, ⟨k, rfl, hk, rfl⟩, ts, _, hts, rfl, rfl⟩ := h
    obtain ⟨hsignature, depth, rfl⟩ := signatureAndBody_of_run hts
    have hkeyword : ∀ t ∈ some (ofLeaf k), IsLeaf [.fn] t :=
      fun t ht => Option.some.inj ht ▸ isLeaf_ofLeaf hk
    refine ⟨⟨.pure hkeyword hsignature, ?_⟩, by simp [forestLeaves, leaves]⟩
    exact (ruleDepth_node_le_succ rfl).2 (List.forall_mem_cons.2 ⟨by simp, depth⟩)
  · simp only [run_bind_eq_ok, run_pure_eq_ok] at h
    obtain ⟨ts, _, hts, rfl, rfl⟩ := h
    obtain ⟨hsignature, depth, rfl⟩ := signatureAndBody_of_run hts
    have hkeyword : ∀ t ∈ (none : Option Tree), IsLeaf [.fn] t := by simp
    refine ⟨⟨.pure hkeyword hsignature, ?_⟩, by simp [leaves]⟩
    exact (ruleDepth_node_le_succ rfl).2 depth

private theorem opened_function_of_run {rule : Rule} {body : Nat → Reader Tree} {ts : List Tree}
    (hbody : ∀ {n ls t rest}, (body n).run ls = .ok (t, rest) →
      (IsFunction t ∧ t.ruleDepth ≤ n + 1) ∧ ls = t.leaves ++ rest)
    (h : (do let f ← opened rule body budget; pure [f]).run ls = .ok (ts, rest)) :
    ∃ f, ts = [f] ∧ (IsFunction f ∧ f.ruleDepth ≤ budget) ∧ ls = forestLeaves ts ++ rest := by
  simp only [run_bind_eq_ok, run_pure_eq_ok] at h
  obtain ⟨f, _, hopened, rfl, rfl⟩ := h
  obtain ⟨n, rfl, hf⟩ := opened_of_run hopened
  obtain ⟨hfunction, rfl⟩ := hbody hf
  exact ⟨f, rfl, hfunction, by simp [forestLeaves]⟩

theorem function_of_run {ts : List Tree} (h : (function budget).run ls = .ok (ts, rest)) :
    ∃ f, ts = [f] ∧ (IsFunction f ∧ f.ruleDepth ≤ budget) ∧ ls = forestLeaves ts ++ rest := by
  rw [function, run_bind_eq_ok] at h
  obtain ⟨next, _, hpeek, h⟩ := h
  obtain ⟨-, rfl⟩ := run_peek_eq_ok.1 hpeek
  split at h
  · exact opened_function_of_run impureFunctionBody_of_run h
  · exact opened_function_of_run pureFunctionBody_of_run h

theorem functions_of_run {ts : List Tree} (h : (functions budget).run ls = .ok (ts, rest)) :
    (∀ f ∈ ts, IsFunction f ∧ f.ruleDepth ≤ budget) ∧ ls = forestLeaves ts ++ rest ∧
      kindOfNext rest = .eof := by
  simp only [functions, run_bind_eq_ok, run_peek_eq_ok] at h
  obtain ⟨trees, _, htrees, next, _, ⟨hnext, rfl⟩, h⟩ := h
  obtain ⟨fs, rfl, hfs, rfl⟩ :=
    rows_of_run_many (fun f => [f]) (fun _ _ _ => function_of_run) htrees
  split at h
  · rename_i heof
    obtain ⟨rfl, rfl⟩ := run_pure_eq_ok.1 h
    exact ⟨by simpa using hfs, rfl, hnext.trans heof⟩
  · exact absurd h run_fail_ne_ok

end FunImp.Tree
