import FunImp.Proofs.Grammar.Mending

/-! # What stuck readers refuse

Where it is settled what may stand behind the last leaf, a reader that is stuck takes none of the
kinds that it does not ask for: whatever stood there instead of the leaf it found, it would fail. -/

namespace FunImp.Tree

namespace Reader

variable {α β : Type} {ls : List Leaf}

/-- The reader fails. -/
def Rejects (p : Reader α) (ls : List Leaf) : Prop :=
  ∃ e, p.run ls = .error e

theorem Rejects.bind {p : Reader α} (h : p.Rejects ls) (q : α → Reader β) :
    (p >>= q).Rejects ls :=
  h.imp fun _ he => run_bind_eq_error.2 (.inl he)

theorem rejects_bind_of_ok {p : Reader α} {q : α → Reader β} {a : α} {between : List Leaf}
    (ha : p.run ls = .ok (a, between)) (h : (q a).Rejects between) : (p >>= q).Rejects ls :=
  h.imp fun _ he => run_bind_eq_error.2 (.inr ⟨a, between, ha, he⟩)

theorem rejects_peek_bind {q : Token.Kind → Reader α} (h : (q (kindOfNext ls)).Rejects ls) :
    (peek >>= q).Rejects ls :=
  rejects_bind_of_ok rfl h

theorem Rejects.within {p : Reader α} (h : p.Rejects ls) (rule : Rule) :
    (within rule p).Rejects ls := by
  obtain ⟨e, he⟩ := h
  exact ⟨_, run_within_eq_error.2 ⟨e, he, rfl⟩⟩

theorem rejects_fail (obstacle : Obstacle) : (fail obstacle : Reader α).Rejects ls :=
  ⟨_, rfl⟩

theorem rejects_require {kinds expected : List Token.Kind} (heof : .eof ∉ kinds)
    (h : kindOfNext ls ∉ kinds) : (require kinds expected).Rejects ls :=
  ⟨_, (run_require_eq_error kinds heof).2 ⟨h, rfl⟩⟩

theorem rejects_expect {kinds : List Token.Kind} (heof : .eof ∉ kinds)
    (h : kindOfNext ls ∉ kinds) : (expect kinds).Rejects ls := rejects_require heof h

/-- Behind rows, repeating goes on from what follows them. -/
theorem run_many_append {more : Token.Kind → Bool} {p : Reader (List Tree)} {hp : p.Strict}
    (trees : β → List Tree) (rows : List β) (follows : Token.Kind → Prop) {rest : List Leaf}
    (hread : ∀ row ∈ rows, ∀ rest, follows (kindOfNext rest) →
      p.run (forestLeaves (trees row) ++ rest) = .ok (trees row, rest))
    (hstart : ∀ row ∈ rows, ∀ rest,
      more (kindOfNext (forestLeaves (trees row) ++ rest)) = true ∧
        follows (kindOfNext (forestLeaves (trees row) ++ rest)))
    (hrest : follows (kindOfNext rest)) :
    (many more p hp).run (forestLeaves (rows.flatMap trees) ++ rest) =
      match (many more p hp).run rest with
      | .ok (us, remaining) => .ok (rows.flatMap trees ++ us, remaining)
      | .error e => .error e := by
  induction rows with
  | nil =>
    cases h : (many more p hp).run rest <;> simp [forestLeaves, h]
  | cons row rows ih =>
    have hrows := ih (fun r hr => hread r (List.mem_cons_of_mem _ hr))
      (fun r hr => hstart r (List.mem_cons_of_mem _ hr))
    have hfollows : follows (kindOfNext (forestLeaves (rows.flatMap trees) ++ rest)) := by
      cases rows with
      | nil => simpa [forestLeaves] using hrest
      | cons next rows =>
        have hnext := (hstart next (by simp) (forestLeaves (rows.flatMap trees) ++ rest)).2
        simpa using hnext
    have hrow := hread row List.mem_cons_self _ hfollows
    have hmore := (hstart row List.mem_cons_self (forestLeaves (rows.flatMap trees) ++ rest)).1
    rw [List.flatMap_cons, forestLeaves_append, List.append_assoc, many_run, if_pos hmore, hrow]
    simp only [hrows]
    cases (many more p hp).run rest <;> simp

/-- Repeating fails behind rows where another row is begun and cannot be read. -/
theorem rejects_many {more : Token.Kind → Bool} {p : Reader (List Tree)} {hp : p.Strict}
    (trees : β → List Tree) (rows : List β) (follows : Token.Kind → Prop) {rest : List Leaf}
    (hread : ∀ row ∈ rows, ∀ rest, follows (kindOfNext rest) →
      p.run (forestLeaves (trees row) ++ rest) = .ok (trees row, rest))
    (hstart : ∀ row ∈ rows, ∀ rest,
      more (kindOfNext (forestLeaves (trees row) ++ rest)) = true ∧
        follows (kindOfNext (forestLeaves (trees row) ++ rest)))
    (hrest : follows (kindOfNext rest)) (hmore : more (kindOfNext rest) = true)
    (h : p.Rejects rest) :
    (many more p hp).Rejects (forestLeaves (rows.flatMap trees) ++ rest) := by
  obtain ⟨e, he⟩ := h
  have hmany : (many more p hp).run rest = .error e := run_many_eq_error.2 ⟨hmore, .inl he⟩
  refine ⟨e, ?_⟩
  rw [run_many_append trees rows follows hread hstart hrest, hmany]

end Reader

open Reader

theorem Stuck.starts {place : Place} {n : Nat} {taken : List Leaf} {s : Site}
    (h : Stuck place n taken s) (hne : taken ≠ []) (rest : List Leaf) :
    kindOfNext (taken ++ rest) ∈ place.startedBy := by
  induction h with
  | tooDeep | brace | operand => exact absurd rfl hne
  | item ho => simp [ho, Place.startedBy]
  | braced _ _ ih =>
    rw [List.mem_singleton.1 (ih hne)]
    decide
  | bare _ ih => exact List.mem_cons_of_mem _ (ih hne)
  | blockless _ ih => exact ih hne
  | first hc _ ih => cases hc <;> exact ih hne
  | @link _ _ _ _ _ first links sign pre _ hc hf =>
    have hstart := hf.starts (forestLeaves (links.flatMap linkTrees) ++ sign :: (pre ++ rest))
    rw [List.append_assoc, List.append_assoc, List.cons_append]
    cases hc <;> exact hstart
  | call hn => simp [hn, Place.startedBy]
  | firstArgument ho | argument ho | argumentEnd ho => simp [ho, Place.startedBy]

/-- A kind that is not taken where a reader for a place is stuck: it is not asked for, and neither
does the place start with it nor could it stand behind the last leaf. -/
structure Refused (place : Place) (taken : List Leaf) (s : Site) (k : Token.Kind) : Prop where
  shallow : s ≠ .tooDeep
  unasked : k ∉ s.expected
  unstarted : taken = [] → k ∉ place.startedBy
  settled : taken ≠ [] → s.Settled taken

theorem EndsIn.exists_mem {kinds kinds' : List Token.Kind} {ls : List Leaf} (h : EndsIn kinds ls)
    (h' : EndsIn kinds' ls) : ∃ k ∈ kinds, k ∈ kinds' := by
  obtain ⟨l, hl, hk⟩ := h
  obtain ⟨l', hl', hk'⟩ := h'
  obtain rfl := Option.mem_unique hl hl'
  exact ⟨_, hk, hk'⟩

/-- A kind that is refused behind leaves that end in no sign is refused in what starts behind
them, of which something has been taken. -/
theorem Refused.inside {place inner : Place} {n : Nat} {before pre : List Leaf} {s : Site}
    {k : Token.Kind} {kinds : List Token.Kind} (hr : Refused place (before ++ pre) s k)
    (h : Stuck inner n pre s) (hinner : inner ≠ .block) (hbefore : EndsIn kinds before)
    (hkinds : ∀ k ∈ kinds, k ∉ signs) : pre ≠ [] ∧ Refused inner pre s k := by
  have hpre : pre ≠ [] := by
    rintro rfl
    obtain ⟨rfl, -⟩ := h.operand_of_nil hr.shallow hinner
    have hsign : Site.operand.Settled before := by
      simpa using hr.settled (by simpa using hbefore.ne_nil)
    obtain ⟨k, hk, hk'⟩ := EndsIn.exists_mem hbefore hsign
    exact hkinds k hk hk'
  exact ⟨hpre, hr.shallow, hr.unasked, fun h => absurd h hpre, fun _ =>
    (Site.settled_append hpre).1 (hr.settled (by simp [hpre]))⟩

namespace Rules

variable {n : Nat} {rest : List Leaf}

theorem rejects_block {o : Leaf} {items : List (Tree × Option Tree)} (ho : o.kind = .leftBrace)
    (hi : ∀ i ∈ items, IsItem n i) (hstart : kindOfNext rest ∈ Place.expression.startedBy)
    (h : (upTo n).expression.Rejects rest) :
    (upTo (n + 1)).block.1.Rejects (o :: forestLeaves (items.map itemTree) ++ rest) := by
  have hstarts : ∀ k ∈ Place.expression.startedBy,
      decide (k ≠ .rightBrace) = true ∧ k ∉ .semicolon :: Place.expression.extendedBy := by decide
  have hitems : (many (· ≠ .rightBrace) (upTo n).item (.bind (upTo n).strict_expression _)).Rejects
      (forestLeaves (items.flatMap fun i => [itemTree i]) ++ rest) := by
    refine rejects_many _ items (· ∉ .semicolon :: Place.expression.extendedBy)
      (fun i hm _ hk => run_item (complete_upTo n) (hi i hm).fits (hi i hm).semicolon
        (hi i hm).depth hk) (fun i hm rest => hstarts _ ?_) (hstarts _ hstart).2
      (hstarts _ hstart).1 (h.bind _)
    simpa [forestLeaves] using (hi i hm).fits.itemTree_starts rest
  rw [← List.map_eq_flatMap] at hitems
  refine Rejects.within ?_ _
  exact rejects_bind_of_ok (run_expect_cons (by simp [ho]) _) (hitems.bind _)

theorem rejects_expression (hblock : kindOfNext rest = .leftBrace → (upTo n).block.1.Rejects rest)
    (hbare : kindOfNext rest ≠ .leftBrace → (upTo n).blockless.1.Rejects rest) :
    (upTo n).expression.Rejects rest := by
  refine rejects_peek_bind ?_
  split
  · exact hblock ‹_›
  · exact hbare ‹_›

theorem rejects_separated {kinds : List Token.Kind} {p : Reader Tree} {sign : Leaf}
    (hs : sign.kind ∈ kinds) (h : p.Rejects rest) : (separated kinds p).Rejects (sign :: rest) :=
  rejects_bind_of_ok (run_expect_cons hs _) (h.bind _)

theorem rejects_links (place : Place) {kinds : List Token.Kind} {more : Token.Kind → Bool}
    {hp : (separated kinds ((upTo n).readerOf place)).Strict} {links : List (Tree × Tree)}
    {sign : Leaf} (hl : ∀ l ∈ links, IsLink place n kinds l)
    (hkinds : ∀ k ∈ kinds, more k = true ∧ k ∉ place.extendedBy) (hs : sign.kind ∈ kinds)
    (h : ((upTo n).readerOf place).Rejects rest) :
    (many more (separated kinds ((upTo n).readerOf place)) hp).Rejects
      (forestLeaves (links.flatMap linkTrees) ++ sign :: rest) :=
  rejects_many linkTrees links (· ∉ place.extendedBy)
    (fun l hm _ hk => run_link (complete_upTo n) (hl l hm) hk)
    (fun l hm rest => hkinds _ (kindOfNext_forestLeaves (hl l hm).1.starts rest))
    (hkinds _ hs).2 (hkinds _ hs).1 (rejects_separated hs h)

theorem run_links_append (place : Place) {kinds : List Token.Kind} {more : Token.Kind → Bool}
    {hp : (separated kinds ((upTo n).readerOf place)).Strict} {links : List (Tree × Tree)}
    {us : List Tree} {remaining : List Leaf} (hl : ∀ l ∈ links, IsLink place n kinds l)
    (hkinds : ∀ k ∈ kinds, more k = true ∧ k ∉ place.extendedBy)
    (hrest : kindOfNext rest ∉ place.extendedBy)
    (h : (many more (separated kinds ((upTo n).readerOf place)) hp).run rest =
      .ok (us, remaining)) :
    (many more (separated kinds ((upTo n).readerOf place)) hp).run
      (forestLeaves (links.flatMap linkTrees) ++ rest) =
        .ok (links.flatMap linkTrees ++ us, remaining) := by
  rw [run_many_append linkTrees links (· ∉ place.extendedBy)
    (fun l hm _ hk => run_link (complete_upTo n) (hl l hm) hk)
    (fun l hm rest => hkinds _ (kindOfNext_forestLeaves (hl l hm).1.starts rest)) hrest, h]

theorem rejects_chain {place operand : Place} {rule : Rule} {kinds : List Token.Kind} {first : Tree}
    {links : List (Tree × Tree)} {sign : Leaf} (hc : IsChain place rule kinds operand)
    (hf : Fits operand first) (hd : first.ruleDepth ≤ n)
    (hl : ∀ l ∈ links, IsLink operand n kinds l) (hs : sign.kind ∈ kinds)
    (h : ((upTo n).readerOf operand).Rejects rest) :
    (chain rule kinds ((upTo n).readerOf operand)).Rejects
      (first.leaves ++ (forestLeaves (links.flatMap linkTrees) ++ sign :: rest)) := by
  have hkinds : ∀ k ∈ kinds, decide (k ∈ kinds) = true ∧ k ∉ operand.extendedBy := by
    cases hc <;> decide
  have hextended : kindOfNext (forestLeaves (links.flatMap linkTrees) ++ sign :: rest) ∉
      operand.extendedBy := kindOfNext_links hl (fun k hk => (hkinds k hk).2) (hkinds _ hs).2
  have hfirst := complete_upTo n operand first _ hf hd hextended
  exact rejects_bind_of_ok hfirst ((rejects_links operand hl hkinds hs h).bind _)

theorem rejects_call {name : Leaf} (hn : name.kind = .identifier)
    (hparen : kindOfNext rest = .leftParen) (h : (upTo n).argumentList.1.Rejects rest) :
    (upTo (n + 1)).element.1.Rejects (name :: rest) := by
  refine Rejects.within (rejects_peek_bind ?_) _
  refine rejects_bind_of_ok (run_expect_cons (by simp [hn]) _) (rejects_peek_bind ?_)
  rw [if_pos ⟨hn, hparen⟩]
  exact h.bind _

/-- In front of an argument that cannot be read. -/
theorem rejects_firstArgument {o : Leaf} (ho : o.kind = .leftParen)
    (hstart : kindOfNext rest ≠ .rightParen) (h : (upTo n).expression.Rejects rest) :
    (upTo (n + 1)).argumentList.1.Rejects (o :: rest) := by
  refine Rejects.within ?_ _
  refine rejects_bind_of_ok (run_expect_cons (by simp [ho]) _) (rejects_peek_bind ?_)
  rw [if_neg hstart]
  exact h.bind _

theorem run_firstArgument {first : Tree} {links : List (Tree × Tree)}
    (hf : Fits .expression first) (hd : first.ruleDepth ≤ n)
    (hl : ∀ l ∈ links, IsLink .expression n [.comma] l) {comma : Leaf} (hc : comma.kind = .comma) :
    (upTo n).expression.run
        (first.leaves ++ (forestLeaves (links.flatMap linkTrees) ++ comma :: rest)) =
      .ok (first, forestLeaves (links.flatMap linkTrees) ++ comma :: rest) :=
  complete_upTo n .expression first _ hf hd
    (kindOfNext_links hl (by decide) (by simp [hc, Place.extendedBy]))

/-- Behind some arguments, in front of another one that cannot be read. -/
theorem rejects_argument {o comma : Leaf} {first : Tree} {links : List (Tree × Tree)}
    (ho : o.kind = .leftParen) (hf : Fits .expression first) (hd : first.ruleDepth ≤ n)
    (hl : ∀ l ∈ links, IsLink .expression n [.comma] l) (hc : comma.kind = .comma)
    (h : (upTo n).expression.Rejects rest) :
    (upTo (n + 1)).argumentList.1.Rejects
      (o :: (first.leaves ++ (forestLeaves (links.flatMap linkTrees) ++ comma :: rest))) := by
  have hstart := hf.starts (forestLeaves (links.flatMap linkTrees) ++ comma :: rest)
  have hothers : (many (· = .comma) (separated [.comma] (upTo n).expression)
      (.bind (strict_expect _) _)).Rejects
        (forestLeaves (links.flatMap linkTrees) ++ comma :: rest) :=
    rejects_links .expression hl (by decide) (List.mem_singleton.2 hc) h
  refine Rejects.within ?_ _
  refine rejects_bind_of_ok (run_expect_cons (by simp [ho]) _) (rejects_peek_bind ?_)
  rw [if_neg fun h => absurd (h ▸ hstart) (by decide)]
  exact rejects_bind_of_ok (run_firstArgument hf hd hl hc) (hothers.bind _)

/-- Whatever follows a block, the block is read. -/
theorem run_expression_of_brace {t : Tree} (h : Fits .expression t) (hd : t.ruleDepth ≤ n)
    (hb : EndsIn [.rightBrace] t.leaves) :
    (upTo n).expression.run (t.leaves ++ rest) = .ok (t, rest) := by
  refine run_expression h (fun h => ?_) fun h => absurd (hb.exists_mem h.ends) (by decide)
  exact complete_upTo n .block t rest h hd (by simp [Place.extendedBy])

/-- Whatever follows arguments the last of which is a block, they are read. -/
theorem run_arguments_of_brace {hp : (separated [.comma] (upTo n).expression).Strict} {first : Tree}
    {links : List (Tree × Tree)}
    (hf : Fits .expression first) (hd : first.ruleDepth ≤ n)
    (hl : ∀ l ∈ links, IsLink .expression n [.comma] l)
    (hb : EndsIn [.rightBrace] (first.leaves ++ forestLeaves (links.flatMap linkTrees)))
    (hrest : kindOfNext rest ≠ .comma) :
    ∃ between,
      (upTo n).expression.run (first.leaves ++ forestLeaves (links.flatMap linkTrees) ++ rest) =
        .ok (first, between) ∧
      (many (· = .comma) (separated [.comma] (upTo n).expression) hp).run between =
        .ok (links.flatMap linkTrees, rest) := by
  have hstop : (many (· = .comma) (separated [.comma] (upTo n).expression) hp).run rest =
      .ok ([], rest) :=
    run_many_eq_ok.2 (by simp [hrest])
  obtain rfl | ⟨init, ⟨comma, t⟩, rfl⟩ := List.eq_nil_or_concat' links
  · simp only [List.flatMap_nil, forestLeaves, List.append_nil] at hb ⊢
    exact ⟨rest, run_expression_of_brace hf hd hb, hstop⟩
  · obtain ⟨hinit, hlast⟩ := List.forall_mem_append.1 hl
    obtain ⟨⟨c, rfl, hc⟩, fits, depth⟩ := List.forall_mem_singleton.1 hlast
    have hcomma : c.kind = .comma := List.mem_singleton.1 hc
    have hbrace : EndsIn [.rightBrace]
        (first.leaves ++ forestLeaves (init.flatMap linkTrees) ++ [c] ++ t.leaves) := by
      simpa [linkTrees, forestLeaves] using hb
    have ht : (upTo n).expression.run (t.leaves ++ rest) = .ok (t, rest) :=
      run_expression_of_brace fits depth ((endsIn_append fits.ends.ne_nil).1 hbrace)
    have hlink : (many (· = .comma) (separated [.comma] (upTo n).expression) hp).run
        (c :: (t.leaves ++ rest)) = .ok ([ofLeaf c, t], rest) := by
      have hrow : (separated [.comma] (upTo n).expression).run (c :: (t.leaves ++ rest)) =
          .ok ([ofLeaf c, t], rest) :=
        run_bind_eq_ok.2 ⟨_, _, run_expect_cons hc _, run_bind_eq_ok.2 ⟨t, rest, ht, rfl⟩⟩
      have hmore : decide (kindOfNext (c :: (t.leaves ++ rest)) = .comma) = true :=
        decide_eq_true hcomma
      rw [run_many_eq_ok, if_pos hmore]
      exact ⟨_, _, [], hrow, hstop, rfl⟩
    refine ⟨forestLeaves (init.flatMap linkTrees) ++ c :: (t.leaves ++ rest), ?_, ?_⟩
    · simpa [linkTrees, forestLeaves] using run_firstArgument hf hd hinit hcomma
    · rw [List.flatMap_append]
      exact run_links_append .expression hinit (by decide) (by simp [hcomma, Place.extendedBy])
        hlink

/-- Behind an argument that is a block, a comma or a parenthesis must follow. -/
theorem rejects_argumentEnd {o : Leaf} {first : Tree} {links : List (Tree × Tree)}
    (ho : o.kind = .leftParen) (hf : Fits .expression first) (hd : first.ruleDepth ≤ n)
    (hl : ∀ l ∈ links, IsLink .expression n [.comma] l)
    (hb : EndsIn [.rightBrace] (first.leaves ++ forestLeaves (links.flatMap linkTrees)))
    (hrest : kindOfNext rest ∉ [.comma, .rightParen]) :
    (upTo (n + 1)).argumentList.1.Rejects
      (o :: (first.leaves ++ forestLeaves (links.flatMap linkTrees)) ++ rest) := by
  have hstart := hf.starts (forestLeaves (links.flatMap linkTrees) ++ rest)
  rw [← List.append_assoc] at hstart
  obtain ⟨hcomma, hparen⟩ : kindOfNext rest ≠ .comma ∧ kindOfNext rest ≠ .rightParen := by
    simpa using hrest
  obtain ⟨between, hfirst, hothers⟩ := run_arguments_of_brace hf hd hl hb hcomma
  refine Rejects.within ?_ _
  refine rejects_bind_of_ok (run_expect_cons (by simp [ho]) _) (rejects_peek_bind ?_)
  rw [if_neg fun h => absurd (h ▸ hstart) (by decide)]
  refine rejects_bind_of_ok hfirst (rejects_bind_of_ok hothers ?_)
  exact (rejects_require (by decide) (by simpa using hparen)).bind _

end Rules

/-- What ends in front of an item of a block ends in no sign. -/
theorem endsIn_items {n : Nat} {o : Leaf} {items : List (Tree × Option Tree)}
    (ho : o.kind = .leftBrace) (hi : ∀ i ∈ items, IsItem n i) :
    EndsIn (.leftBrace :: .semicolon :: Place.expression.endedBy)
      (o :: forestLeaves (items.map itemTree)) := by
  obtain rfl | ⟨init, ⟨t, s⟩, rfl⟩ := List.eq_nil_or_concat' items
  · simp [EndsIn, ho, forestLeaves]
  · have hlast := hi (t, s) (by simp)
    have hitem : EndsIn (.leftBrace :: .semicolon :: Place.expression.endedBy)
        (itemTree (t, s)).leaves := by
      cases s with
      | none => exact hlast.fits.ends.mono (by decide)
      | some s => exact @endsIn_node _ _ [t] _ ((hlast.semicolon s rfl).ends.mono (by decide))
    simpa [forestLeaves] using hitem.prepend (o :: forestLeaves (init.map itemTree))

/-- Wherever a reader for a place is stuck, it takes no kind that is refused. -/
theorem Stuck.rejects {place : Place} {n : Nat} {taken : List Leaf} {s : Site}
    (h : Stuck place n taken s) {rest : List Leaf} (hr : Refused place taken s (kindOfNext rest)) :
    ((Rules.upTo n).readerOf place).Rejects (taken ++ rest) := by
  -- By induction on the open rules: each reads what it had read before, so that the refusal of the
  -- innermost one becomes its own.
  induction h with
  | tooDeep => exact absurd rfl hr.shallow
  | brace => exact Rejects.within ((rejects_expect (by decide) hr.unasked).bind _) _
  | item ho hi h ih =>
    obtain ⟨hpre, hinner⟩ := hr.inside h (by decide) (endsIn_items ho hi) (by decide)
    rw [List.append_assoc]
    exact Rules.rejects_block ho hi (h.starts hpre rest) (ih hinner)
  | braced h hpre ih =>
    have hstart := h.starts hpre rest
    refine Rules.rejects_expression (fun _ => ih ?_) fun hbare => ?_
    · exact ⟨hr.shallow, hr.unasked, fun h => absurd h hpre, hr.settled⟩
    · exact absurd (List.mem_singleton.1 hstart) hbare
  | @bare n pre s h ih =>
    have hinner : Refused .blockless pre s (kindOfNext rest) :=
      ⟨hr.shallow, hr.unasked, fun h hk => hr.unstarted h (List.mem_cons_of_mem _ hk), hr.settled⟩
    refine Rules.rejects_expression (fun hbrace => ?_) fun _ => ih hinner
    -- In front of a brace the other alternative would be taken. Where nothing has been read yet,
    -- only the refusal of what begins an expression keeps one away.
    by_cases hpre : pre = []
    · subst hpre
      have hnext : kindOfNext rest = .leftBrace := hbrace
      exact absurd (by rw [hnext]; decide) (hr.unstarted rfl)
    · exact absurd (hbrace ▸ h.starts hpre rest) (by decide)
  | blockless h ih =>
    exact Rejects.within ((ih ⟨hr.shallow, hr.unasked, hr.unstarted, hr.settled⟩).bind _) _
  | @first _ operand _ _ n pre s hc h ih =>
    have hinner : Refused operand pre s (kindOfNext rest) := by
      cases hc <;> exact ⟨hr.shallow, hr.unasked, hr.unstarted, hr.settled⟩
    cases hc <;> exact Rejects.within ((ih hinner).bind _) _
  | @link _ operand _ _ _ first links sign pre s hc hf hd hl hs h ih =>
    have hinner : Refused operand pre s (kindOfNext rest) := by
      refine ⟨hr.shallow, hr.unasked, fun hpre => ?_, fun hpre => ?_⟩
      · subst hpre
        obtain ⟨rfl, -⟩ := h.operand_of_nil hr.shallow (by cases hc <;> decide)
        cases hc <;> exact hr.unasked
      · rw [List.append_cons] at hr
        exact (Site.settled_append hpre).1 (hr.settled (by simp))
    have hchain := Rules.rejects_chain hc hf hd hl hs (ih hinner)
    rw [List.append_assoc, List.append_assoc, List.cons_append]
    cases hc <;> exact hchain.within _
  | operand =>
    refine Rejects.within (rejects_peek_bind ?_) _
    exact (rejects_expect (by decide) hr.unasked).bind _
  | call hn h ih =>
    rw [← List.singleton_append] at hr
    obtain ⟨hpre, hinner⟩ := hr.inside h (by decide) ⟨_, rfl, List.mem_singleton.2 hn⟩ (by decide)
    exact Rules.rejects_call hn (List.mem_singleton.1 (h.starts hpre rest)) (ih hinner)
  | firstArgument ho h ih =>
    rw [← List.singleton_append] at hr
    obtain ⟨hpre, hinner⟩ := hr.inside h (by decide) ⟨_, rfl, List.mem_singleton.2 ho⟩ (by decide)
    have hstart := h.starts hpre rest
    exact Rules.rejects_firstArgument ho (fun h => absurd (h ▸ hstart) (by decide)) (ih hinner)
  | @argument n o comma first links pre s ho hf hd hl hc h ih =>
    rw [List.append_cons, ← List.cons_append] at hr
    have hcomma : EndsIn [.comma]
        ([o] ++ (first.leaves ++ forestLeaves (links.flatMap linkTrees) ++ [comma])) :=
      (endsIn_concat.2 (List.mem_singleton.2 hc)).prepend [o]
    obtain ⟨-, hinner⟩ := hr.inside h (by decide) hcomma (by decide)
    rw [List.cons_append, List.append_assoc, List.append_assoc, List.cons_append]
    exact Rules.rejects_argument ho hf hd hl hc (ih hinner)
  | @argumentEnd n o first links ho hf hd hl =>
    have hset : EndsIn [.rightBrace]
        ([o] ++ (first.leaves ++ forestLeaves (links.flatMap linkTrees))) :=
      hr.settled (List.cons_ne_nil _ _)
    exact Rules.rejects_argumentEnd ho hf hd hl
      ((endsIn_append (by simp [hf.ends.ne_nil])).1 hset) hr.unasked

variable {rest : List Leaf}

theorem StuckParam.rejects {taken : List Leaf} {kinds : List Token.Kind}
    (h : StuckParam taken kinds) (hrest : kindOfNext rest ∉ kinds) :
    param.Rejects (taken ++ rest) := by
  cases h with
  | name => exact (rejects_expect (by decide) hrest).bind _
  | colon hn =>
    refine rejects_bind_of_ok (run_expect_cons (List.mem_singleton.2 hn) _) ?_
    exact (rejects_expect (by decide) hrest).bind _
  | type hn hc =>
    refine rejects_bind_of_ok (run_expect_cons (List.mem_singleton.2 hn) _) ?_
    refine rejects_bind_of_ok (run_expect_cons (List.mem_singleton.2 hc) _) ?_
    exact (rejects_expect (by decide) hrest).bind _

theorem StuckParam.starts {taken : List Leaf} {kinds : List Token.Kind}
    (h : StuckParam taken kinds) (hne : taken ≠ []) (rest : List Leaf) :
    kindOfNext (taken ++ rest) = .identifier := by
  cases h with
  | name => exact absurd rfl hne
  | colon hn | type hn => exact hn

theorem IsParam.starts {ts : List Tree} (h : IsParam ts) (rest : List Leaf) :
    kindOfNext (forestLeaves ts ++ rest) = .identifier := by
  obtain ⟨_, _, _, rfl, ⟨n, rfl, hn⟩, -⟩ := h
  simpa [forestLeaves] using hn

theorem IsCommaParam.starts {ts : List Tree} (h : IsCommaParam ts) (rest : List Leaf) :
    kindOfNext (forestLeaves ts ++ rest) = .comma := by
  obtain ⟨_, _, rfl, ⟨l, rfl, hl⟩, -⟩ := h
  simpa [forestLeaves] using hl

/-- Behind the parenthesis, a name begins a parameter. -/
theorem rejects_paramListBody {o : Leaf} (ho : o.kind = .leftParen)
    (hnext : kindOfNext rest = .identifier) (h : param.Rejects rest) :
    paramListBody.Rejects (o :: rest) := by
  refine rejects_bind_of_ok (run_expect_cons (List.mem_singleton.2 ho) _) (rejects_peek_bind ?_)
  rw [if_pos hnext]
  exact h.bind _

/-- Behind the first parameter, either another one or the end of the list cannot be read. -/
theorem rejects_params {o : Leaf} {first : List Tree} (ho : o.kind = .leftParen)
    (hf : IsParam first)
    (h : (many (· = .comma) commaParam (.bind (strict_expect _) _)).Rejects rest ∨
      ∃ ts between, (many (· = .comma) commaParam (.bind (strict_expect _) _)).run rest =
        .ok (ts, between) ∧ kindOfNext between ≠ .rightParen) :
    paramListBody.Rejects (o :: (forestLeaves first ++ rest)) := by
  refine rejects_bind_of_ok (run_expect_cons (List.mem_singleton.2 ho) _) (rejects_peek_bind ?_)
  rw [if_pos (hf.starts rest)]
  refine rejects_bind_of_ok (run_param hf rest) ?_
  obtain h | ⟨ts, between, hmany, hnext⟩ := h
  · exact h.bind _
  · refine rejects_bind_of_ok hmany (Rejects.bind (rejects_require (by decide) ?_) _)
    simpa using hnext

theorem StuckParams.rejects {taken : List Leaf} {kinds : List Token.Kind}
    (h : StuckParams taken kinds) (hrest : kindOfNext rest ∉ kinds) :
    paramListBody.Rejects (taken ++ rest) := by
  cases h with
  | opening => exact (rejects_expect (by decide) hrest).bind _
  | start ho =>
    obtain ⟨hname, hparen⟩ : kindOfNext rest ≠ .identifier ∧ kindOfNext rest ≠ .rightParen := by
      simpa using hrest
    rw [List.singleton_append]
    refine rejects_bind_of_ok (run_expect_cons (List.mem_singleton.2 ho) _) (rejects_peek_bind ?_)
    rw [if_neg hname]
    exact (rejects_require (by decide) (by simpa using hparen)).bind _
  | first ho h hpre => exact rejects_paramListBody ho (h.starts hpre rest) (h.rejects hrest)
  | @other o comma first others pre _ ho hf hp hc h =>
    have hrow : commaParam.Rejects (comma :: (pre ++ rest)) :=
      rejects_bind_of_ok (run_expect_cons (List.mem_singleton.2 hc) _) ((h.rejects hrest).bind _)
    have hothers : (many (· = .comma) commaParam (.bind (strict_expect _) _)).Rejects
        (forestLeaves (others.flatMap id) ++ comma :: (pre ++ rest)) :=
      rejects_many id others (fun _ => True) (fun p hm _ _ => run_commaParam (hp p hm) _)
        (fun p hm rest => by simpa using (hp p hm).starts rest) trivial (by simp [hc]) hrow
    rw [List.flatMap_id] at hothers
    simpa using rejects_params ho hf (.inl hothers)
  | @paramEnd o first others ho hf hp =>
    obtain ⟨hcomma, hparen⟩ : kindOfNext rest ≠ .comma ∧ kindOfNext rest ≠ .rightParen := by
      simpa using hrest
    have hothers : (many (· = .comma) commaParam (.bind (strict_expect _) _)).run
        (forestLeaves (others.flatMap id) ++ rest) = .ok (others.flatMap id, rest) :=
      run_many_of_rows id others (fun _ => True) (fun p hm _ _ => run_commaParam (hp p hm) _)
        (fun p hm rest => by simpa using (hp p hm).starts rest) (by simpa using hcomma) trivial
    rw [List.flatMap_id] at hothers
    simpa using rejects_params ho hf (.inr ⟨_, rest, hothers, hparen⟩)

theorem StuckSignature.rejects {n : Nat} {taken : List Leaf} {s : Site}
    (h : StuckSignature (n + 1) taken s) (hs : s ≠ .tooDeep) (hset : s.Settled taken)
    (hrest : kindOfNext rest ∉ s.expected) :
    (signatureAndBody (n + 1)).Rejects (taken ++ rest) := by
  have hparams {list : Tree} (hp : IsParamList list) (rest : List Leaf) :
      (paramList (n + 1)).run (list.leaves ++ rest) = .ok (list, rest) :=
    run_opened (run_paramListBody hp rest)
  cases h with
  | name => exact (rejects_expect (by decide) hrest).bind _
  | params hn h =>
    refine rejects_bind_of_ok (run_expect_cons (List.mem_singleton.2 hn) _) ?_
    exact ((h.rejects hrest).within _).bind _
  | colon hn hp =>
    refine rejects_bind_of_ok (run_expect_cons (List.mem_singleton.2 hn) _) ?_
    refine rejects_bind_of_ok (hparams hp _) ?_
    exact (rejects_expect (by decide) hrest).bind _
  | type hn hp hc =>
    rw [List.cons_append, List.append_assoc, List.singleton_append]
    refine rejects_bind_of_ok (run_expect_cons (List.mem_singleton.2 hn) _) ?_
    refine rejects_bind_of_ok (hparams hp _) ?_
    refine rejects_bind_of_ok (run_expect_cons (List.mem_singleton.2 hc) _) ?_
    exact (rejects_expect (by decide) hrest).bind _
  | @body name colon type list pre _ hn hp hc ht h =>
    have hblock : Refused .block pre s (kindOfNext rest) := by
      refine ⟨hs, hrest, fun hpre => ?_, fun hpre => ?_⟩
      · subst hpre
        rwa [h.eq_brace_of_nil] at hrest
      · have hbefore : name :: (list.leaves ++ colon :: type :: pre) =
            name :: (list.leaves ++ [colon, type]) ++ pre := by simp
        rw [hbefore] at hset
        exact (Site.settled_append hpre).1 hset
    rw [List.cons_append, List.append_assoc, List.cons_append, List.cons_append]
    refine rejects_bind_of_ok (run_expect_cons (List.mem_singleton.2 hn) _) ?_
    refine rejects_bind_of_ok (hparams hp _) ?_
    refine rejects_bind_of_ok (run_expect_cons (List.mem_singleton.2 hc) _) ?_
    refine rejects_bind_of_ok (run_expect_cons (List.mem_singleton.2 ht) _) ?_
    exact (h.rejects hblock).bind _

theorem StuckSignature.starts {n : Nat} {taken : List Leaf} {s : Site}
    (h : StuckSignature n taken s) (hne : taken ≠ []) (rest : List Leaf) :
    kindOfNext (taken ++ rest) = .identifier := by
  cases h with
  | name => exact absurd rfl hne
  | params hn | colon hn | type hn | body hn => exact hn

/-- What is settled behind a keyword is settled without it. -/
theorem StuckSignature.settled_of_cons {n : Nat} {keyword : Leaf} {pre : List Leaf} {s : Site}
    (h : StuckSignature n pre s) (hset : s.Settled (keyword :: pre)) : s.Settled pre := by
  by_cases hpre : pre = []
  · subst hpre
    rw [h.eq_of_nil]
    trivial
  · rw [← List.singleton_append] at hset
    exact (Site.settled_append hpre).1 hset

theorem StuckFunction.rejects {n : Nat} {taken : List Leaf} {s : Site}
    (h : StuckFunction (n + 2) taken s) (hs : s ≠ .tooDeep) (hset : s.Settled taken)
    (hrest : kindOfNext rest ∉ s.expected) : (function (n + 2)).Rejects (taken ++ rest) := by
  refine rejects_peek_bind ?_
  cases h with
  | @impure _ keyword pre _ hk h =>
    have hsignature := h.rejects hs (h.settled_of_cons hset) hrest
    have hnext : kindOfNext (keyword :: (pre ++ rest)) = .imp := hk
    rw [List.cons_append, if_pos hnext]
    refine Rejects.bind (Rejects.within ?_ _) _
    exact rejects_bind_of_ok (run_expect_cons (List.mem_singleton.2 hk) _) (hsignature.bind _)
  | @pure _ keyword pre _ hk h =>
    have hsignature := h.rejects hs (h.settled_of_cons hset) hrest
    have hnext : kindOfNext (keyword :: (pre ++ rest)) = .fn := hk
    rw [List.cons_append, if_neg (by simp [hk])]
    refine Rejects.bind (Rejects.within (rejects_peek_bind ?_) _) _
    rw [if_pos hnext]
    exact rejects_bind_of_ok (run_expect_cons (List.mem_singleton.2 hk) _) (hsignature.bind _)
  | bare h hpre =>
    have hsignature := h.rejects hs hset hrest
    have hstart := h.starts hpre rest
    rw [if_neg (by simp [hstart])]
    refine Rejects.bind (Rejects.within (rejects_peek_bind ?_) _) _
    rw [if_neg (by simp [hstart])]
    exact hsignature.bind _

theorem StuckFunction.starts {n : Nat} {taken : List Leaf} {s : Site}
    (h : StuckFunction n taken s) (rest : List Leaf) :
    startsFunction (kindOfNext (taken ++ rest)) = true := by
  cases h with
  | impure hk | pure hk => simp [startsFunction, hk]
  | bare h hpre => simp [startsFunction, h.starts hpre rest]

/-- Wherever functions that cannot be read are stuck and what may follow is settled, no kind is
taken that is not asked for. -/
theorem StuckProgram.rejects {n : Nat} {taken : List Leaf} {s : Site}
    (h : StuckProgram (n + 2) taken s) (hs : s ≠ .tooDeep) (hset : s.Settled taken)
    (hrest : kindOfNext rest ∉ s.expected) : (functions (n + 2)).Rejects (taken ++ rest) := by
  have hfunctions {fs : List Tree} (hf : ∀ f ∈ fs, IsFunction f ∧ f.ruleDepth ≤ n + 2)
      (f : Tree) (hm : f ∈ fs) (rest : List Leaf) :
      startsFunction (kindOfNext (forestLeaves [f] ++ rest)) = true ∧ True := by
    have hstart := (hf f hm).1.starts rest
    simpa [startsFunction, forestLeaves, or_assoc] using hstart
  cases h with
  | @function fs pre _ hf h =>
    have hpre : s.Settled pre := (Site.settled_append h.ne_nil).1 hset
    have hmany : (many startsFunction (Tree.function (n + 2)) (strict_function (n + 2))).Rejects
        (forestLeaves (fs.flatMap fun f => [f]) ++ (pre ++ rest)) :=
      rejects_many _ fs (fun _ => True) (fun f hm _ _ => run_function (hf f hm).1 (hf f hm).2 _)
        (hfunctions hf) trivial (h.starts rest) (h.rejects hs hpre hrest)
    rw [List.flatMap_singleton', ← List.append_assoc] at hmany
    exact hmany.bind _
  | @functionEnd fs hf =>
    have hkinds : startsFunction (kindOfNext rest) = false ∧ kindOfNext rest ≠ .eof := by
      simpa [Site.expected, startsFunction, and_assoc, and_left_comm] using hrest
    have hmany : (many startsFunction (Tree.function (n + 2)) (strict_function (n + 2))).run
        (forestLeaves (fs.flatMap fun f => [f]) ++ rest) = .ok (fs.flatMap fun f => [f], rest) :=
      run_many_of_rows _ fs (fun _ => True)
        (fun f hm _ _ => run_function (hf f hm).1 (hf f hm).2 _) (hfunctions hf) hkinds.1 trivial
    rw [List.flatMap_singleton'] at hmany
    refine rejects_bind_of_ok hmany (rejects_peek_bind ?_)
    rw [if_neg hkinds.2]
    exact rejects_fail _

end FunImp.Tree
