import FunImp.Tree.Parser

/-! # Parsing without layout

A leaf is bare if there is no white space in front of it and its token has no place. Every reader
of the grammar does the same on bare leaves as on the leaves they were made of. -/

namespace FunImp

namespace Tree

mutual

/-- The tree with bare leaves. -/
def bare : Tree → Tree
  | node rule children => node rule (bareAll children)
  | leaf _ token => leaf [] token.unplaced
  | blank token => blank token.unplaced

/-- Trees in a row with bare leaves. -/
def bareAll : List Tree → List Tree
  | [] => []
  | t :: ts => bare t :: bareAll ts

end

theorem bareAll_eq (ts : List Tree) : bareAll ts = ts.map bare := by
  induction ts with
  | nil => rfl
  | cons t ts ih => rw [bareAll, ih, List.map_cons]

@[simp] theorem bare_node (rule : Rule) (children : List Tree) :
    (node rule children).bare = node rule (children.map bare) := by
  rw [bare, bareAll_eq]

@[simp] theorem bare_ofLeaf (l : Leaf) : (ofLeaf l).bare = ofLeaf l.bare := rfl

def Failure.bare (e : Failure) : Failure :=
  ⟨e.obstacle, e.rules, e.remaining.map Leaf.bare⟩

namespace Reader

variable {α β : Type} {g : α → α} {h : β → β}

/-- What a reader came to, with bare leaves; `g` does the same to its answer. -/
def bareOutcome (g : α → α) : Except Failure (α × List Leaf) → Except Failure (α × List Leaf)
  | .ok (a, remaining) => .ok (g a, remaining.map Leaf.bare)
  | .error e => .error e.bare

/-- The second reader does on bare leaves what the first one does on the leaves they were made
of. -/
def Mirrors (g : α → α) (p q : Reader α) : Prop :=
  ∀ ls, q.run (ls.map Leaf.bare) = bareOutcome g (p.run ls)

theorem kindOfNext_bare (ls : List Leaf) : kindOfNext (ls.map Leaf.bare) = kindOfNext ls := by
  cases ls with
  | nil => rfl
  | cons l ls => rfl

theorem mirrors_pure {a b : α} (hb : b = g a) :
    Mirrors g (pure a : Reader α) (pure b : Reader α) := by
  intro ls
  rw [run_pure, run_pure, hb, bareOutcome]

theorem Mirrors.bind {p p' : Reader α} {q q' : α → Reader β} (hp : Mirrors g p p')
    (hq : ∀ a, Mirrors h (q a) (q' (g a))) : Mirrors h (p >>= q) (p' >>= q') := by
  intro ls
  rw [run_bind, run_bind, hp ls]
  cases p.run ls with
  | error e => rfl
  | ok r => exact hq r.1 r.2

theorem mirrors_ite {c : Prop} [Decidable c] {p p' q q' : Reader α} (hp : Mirrors g p p')
    (hq : Mirrors g q q') : Mirrors g (if c then p else q) (if c then p' else q') := by
  split
  · exact hp
  · exact hq

theorem mirrors_fail (obstacle : Obstacle) :
    Mirrors g (fail obstacle : Reader α) (fail obstacle) :=
  fun _ => rfl

theorem mirrors_peek : Mirrors id peek peek := by
  intro ls
  simp only [peek, kindOfNext_bare]
  rfl

theorem mirrors_require (kinds expected : List Token.Kind) :
    Mirrors bare (require kinds expected) (require kinds expected) := by
  intro ls
  cases ls with
  | nil => rfl
  | cons l ls =>
    have hkind : l.bare.kind = l.kind := rfl
    simp only [require, List.map_cons, hkind]
    split
    · rfl
    · rfl

theorem mirrors_expect (kinds : List Token.Kind) :
    Mirrors bare (expect kinds) (expect kinds) :=
  mirrors_require kinds kinds

theorem Mirrors.within {p p' : Reader α} (hp : Mirrors g p p') (rule : Rule) :
    Mirrors g (Reader.within rule p) (Reader.within rule p') := by
  intro ls
  simp only [Reader.within, hp ls]
  cases p.run ls with
  | error e => rfl
  | ok r => rfl

theorem Mirrors.many {p : Reader (List Tree)} (hp : Mirrors (List.map bare) p p)
    (more : Token.Kind → Bool) (hs : p.Strict) :
    Mirrors (List.map bare) (Reader.many more p hs) (Reader.many more p hs) := by
  intro ls
  induction hn : ls.length using Nat.strongRecOn generalizing ls with
  | _ n ih =>
    rw [many_run, many_run more p hs ls, kindOfNext_bare, hp ls]
    split
    · cases hread : p.run ls with
      | error e => rfl
      | ok r =>
        obtain ⟨ts, between⟩ := r
        have hrest := ih _ (hn ▸ hs _ _ _ hread) between rfl
        simp only [bareOutcome, hrest]
        cases (Reader.many more p hs).run between with
        | error e => rfl
        | ok r => simp
    · rfl

end Reader

open Reader

/-- The rules do the same on bare leaves. -/
structure Rules.Mirrored (rules : Rules) : Prop where
  block : Mirrors bare rules.block.1 rules.block.1
  blockless : Mirrors bare rules.blockless.1 rules.blockless.1
  term : Mirrors bare rules.term.1 rules.term.1
  factor : Mirrors bare rules.factor.1 rules.factor.1
  element : Mirrors bare rules.element.1 rules.element.1
  argumentList : Mirrors bare rules.argumentList.1 rules.argumentList.1

namespace Rules

variable {rules : Rules}

theorem Mirrored.expression (h : rules.Mirrored) :
    Mirrors bare rules.expression rules.expression :=
  mirrors_peek.bind fun _ => mirrors_ite h.block h.blockless

theorem Mirrored.item (h : rules.Mirrored) : Mirrors (List.map bare) rules.item rules.item := by
  refine h.expression.bind fun e => mirrors_peek.bind fun _ => mirrors_ite ?_ ?_
  · exact (mirrors_expect _).bind fun _ => mirrors_pure (by simp)
  · exact mirrors_pure (by simp)

theorem mirrors_separated (kinds : List Token.Kind) {p : Reader Tree} (hp : Mirrors bare p p) :
    Mirrors (List.map bare) (separated kinds p) (separated kinds p) :=
  (mirrors_expect kinds).bind fun _ => hp.bind fun _ => mirrors_pure rfl

theorem mirrors_chain (rule : Rule) (kinds : List Token.Kind) {p : Reader Tree}
    (hp : Mirrors bare p p) : Mirrors bare (chain rule kinds p) (chain rule kinds p) :=
  hp.bind fun _ => ((mirrors_separated kinds hp).many _ _).bind fun _ => mirrors_pure (by simp)

theorem Mirrored.blockBody (h : rules.Mirrored) : Mirrors bare rules.blockBody rules.blockBody :=
  (mirrors_expect _).bind fun _ => (h.item.many _ _).bind fun _ =>
    (mirrors_expect _).bind fun _ => mirrors_pure (by simp)

theorem Mirrored.blocklessBody (h : rules.Mirrored) :
    Mirrors bare rules.blocklessBody rules.blocklessBody :=
  h.term.bind fun _ => mirrors_pure (by simp)

theorem Mirrored.elementBody (h : rules.Mirrored) :
    Mirrors bare rules.elementBody rules.elementBody := by
  refine mirrors_peek.bind fun _ => (mirrors_expect _).bind fun _ =>
    mirrors_peek.bind fun _ => mirrors_ite ?_ ?_
  · exact h.argumentList.bind fun _ => mirrors_pure (by simp)
  · exact mirrors_pure (by simp)

theorem Mirrored.argumentListBody (h : rules.Mirrored) :
    Mirrors bare rules.argumentListBody rules.argumentListBody := by
  refine (mirrors_expect _).bind fun _ => mirrors_peek.bind fun _ => mirrors_ite ?_ ?_
  · exact (mirrors_expect _).bind fun _ => mirrors_pure (by simp)
  · refine h.expression.bind fun _ => ((mirrors_separated _ h.expression).many _ _).bind fun _ => ?_
    exact (mirrors_require _ _).bind fun _ => mirrors_pure (by simp)

theorem mirrored_upTo (budget : Nat) : (upTo budget).Mirrored := by
  induction budget with
  | zero =>
    have hfail : Mirrors bare tooDeep.1 tooDeep.1 := mirrors_fail _
    exact ⟨hfail, hfail, hfail, hfail, hfail, hfail⟩
  | succ budget ih =>
    exact ⟨ih.blockBody.within _, ih.blocklessBody.within _, (mirrors_chain _ _ ih.factor).within _,
      (mirrors_chain _ _ ih.element).within _, ih.elementBody.within _,
      ih.argumentListBody.within _⟩

end Rules

theorem mirrors_opened {α : Type} {g : α → α} (rule : Rule) {body body' : Nat → Reader α}
    (h : ∀ budget, Mirrors g (body budget) (body' budget)) (budget : Nat) :
    Mirrors g (opened rule body budget) (opened rule body' budget) := by
  cases budget with
  | zero => exact mirrors_fail _
  | succ budget => exact (h budget).within rule

theorem mirrors_param : Mirrors (List.map bare) param param :=
  (mirrors_expect _).bind fun _ => (mirrors_expect _).bind fun _ => (mirrors_expect _).bind fun _ =>
    mirrors_pure rfl

theorem mirrors_commaParam : Mirrors (List.map bare) commaParam commaParam :=
  (mirrors_expect _).bind fun _ => mirrors_param.bind fun _ => mirrors_pure rfl

theorem mirrors_paramListBody : Mirrors bare paramListBody paramListBody := by
  refine (mirrors_expect _).bind fun _ => mirrors_peek.bind fun _ => mirrors_ite ?_ ?_
  · refine mirrors_param.bind fun _ => (mirrors_commaParam.many _ _).bind fun _ => ?_
    exact (mirrors_require _ _).bind fun _ => mirrors_pure (by simp)
  · exact (mirrors_require _ _).bind fun _ => mirrors_pure (by simp)

theorem mirrors_signatureAndBody (budget : Nat) :
    Mirrors (List.map bare) (signatureAndBody budget) (signatureAndBody budget) :=
  (mirrors_expect _).bind fun _ =>
    (mirrors_opened _ (fun _ => mirrors_paramListBody) budget).bind fun _ =>
    (mirrors_expect _).bind fun _ => (mirrors_expect _).bind fun _ =>
    (Rules.mirrored_upTo budget).block.bind fun _ => mirrors_pure rfl

theorem mirrors_impureFunctionBody (budget : Nat) :
    Mirrors bare (impureFunctionBody budget) (impureFunctionBody budget) :=
  (mirrors_expect _).bind fun _ => (mirrors_signatureAndBody budget).bind fun _ =>
    mirrors_pure (by simp)

theorem mirrors_pureFunctionBody (budget : Nat) :
    Mirrors bare (pureFunctionBody budget) (pureFunctionBody budget) := by
  refine mirrors_peek.bind fun _ => mirrors_ite ?_ ?_
  · exact (mirrors_expect _).bind fun _ => (mirrors_signatureAndBody budget).bind fun _ =>
      mirrors_pure (by simp)
  · exact (mirrors_signatureAndBody budget).bind fun _ => mirrors_pure (by simp)

theorem mirrors_function (budget : Nat) :
    Mirrors (List.map bare) (function budget) (function budget) := by
  refine mirrors_peek.bind fun _ => mirrors_ite ?_ ?_
  · exact (mirrors_opened _ mirrors_impureFunctionBody budget).bind fun _ => mirrors_pure rfl
  · exact (mirrors_opened _ mirrors_pureFunctionBody budget).bind fun _ => mirrors_pure rfl

theorem mirrors_functions (budget : Nat) :
    Mirrors (List.map bare) (functions budget) (functions budget) :=
  ((mirrors_function budget).many _ _).bind fun _ => mirrors_peek.bind fun _ =>
    mirrors_ite (mirrors_pure rfl) (mirrors_fail _)

end Tree

namespace Parser

/-- The parser with bare leaves. -/
def bare (p : Parser) : Parser :=
  ⟨p.opened, p.leaves.map Leaf.bare, [], p.eof.unplaced⟩

theorem mirrors_program (p : Parser) :
    Tree.Reader.Mirrors Tree.bare p.program p.bare.program := by
  refine Tree.mirrors_opened _ (fun budget => ?_) _
  refine (Tree.mirrors_functions budget).bind fun fs => Tree.Reader.mirrors_pure ?_
  simp [bare, Leaf.bare]

/-- What a parser answers, without places. -/
def bareAnswer : Except SyntaxError Tree → Except SyntaxError Tree
  | .ok t => .ok t.bare
  | .error e => .error { e with found := e.found.unplaced }

theorem readProgram_bare (p : Parser) : p.bare.readProgram.1 = bareAnswer p.readProgram.1 := by
  have hrun : p.bare.program.run p.bare.leaves = _ := p.mirrors_program p.leaves
  rw [readProgram_eq, readProgram_eq, hrun]
  cases p.program.run p.leaves with
  | ok r => rfl
  | error e =>
    have hfound : ((e.remaining.map Leaf.bare).head?.map (·.token)).getD p.eof.unplaced =
        ((e.remaining.head?.map (·.token)).getD p.eof).unplaced := by
      cases e.remaining with
      | nil => rfl
      | cons l ls => rfl
    simp only [Tree.Reader.bareOutcome, Tree.Failure.bare, bareAnswer, bare, hfound]

end Parser

/-- The tokens other than white space, without their places. -/
def skeleton (ts : List Token) : List Token :=
  (ts.filter (!·.isWhitespace)).map Token.unplaced

theorem skeleton_blank {t : Token} (ht : t.kind = .whitespace) (ts : List Token) :
    skeleton (t :: ts) = skeleton ts := by
  simp [skeleton, Token.isWhitespace, ht]

theorem skeleton_cons {t : Token} (ht : t.kind ≠ .whitespace) (ts : List Token) :
    skeleton (t :: ts) = t.unplaced :: skeleton ts := by
  simp [skeleton, Token.isWhitespace, ht]

theorem gather_bare (ts : List Token) :
    (Leaf.gather ts).1.map Leaf.bare = (skeleton ts).map (Leaf.mk []) := by
  have hrun (leading : List Token) (done : List Leaf) :
      (Leaf.gatherOnto leading done ts).1.map Leaf.bare =
        done.reverse.map Leaf.bare ++ (skeleton ts).map (Leaf.mk []) := by
    induction ts generalizing leading done with
    | nil => simp [Leaf.gatherOnto, skeleton]
    | cons t ts ih =>
      by_cases ht : t.kind = .whitespace
      · simp [Leaf.gatherOnto, Token.isWhitespace, skeleton_blank, ht, ih]
      · simp [Leaf.gatherOnto, Token.isWhitespace, skeleton_cons, ht, ih, Leaf.bare]
  exact hrun [] []

theorem skeleton_takeWhile (ts : List Token) :
    skeleton (ts.takeWhile (·.kind ≠ .eof)) = (skeleton ts).takeWhile (·.kind ≠ .eof) := by
  induction ts with
  | nil => rfl
  | cons t ts ih =>
    have hkind : t.unplaced.kind = t.kind := rfl
    by_cases ht : t.kind = .whitespace
    · simpa [ht, skeleton_blank ht] using ih
    · by_cases heof : t.kind = .eof
      · rw [skeleton_cons ht, List.takeWhile_cons_of_neg (by simp [heof]),
          List.takeWhile_cons_of_neg (by simp [hkind, heof])]
        rfl
      · simpa [skeleton_cons ht, hkind, heof] using ih

theorem find?_skeleton (ts : List Token) :
    (skeleton ts).find? (·.kind = .eof) = (ts.find? (·.kind = .eof)).map Token.unplaced := by
  induction ts with
  | nil => rfl
  | cons t ts ih =>
    have hkind : t.unplaced.kind = t.kind := rfl
    by_cases ht : t.kind = .whitespace
    · simpa [ht, skeleton_blank ht] using ih
    · by_cases heof : t.kind = .eof
      · simp [skeleton_cons ht, hkind, heof]
      · simpa [skeleton_cons ht, hkind, heof] using ih

theorem ofTokens_bare (ts : List Token) (source : Source) :
    (Parser.ofTokens ts source).bare =
      ⟨[], ((skeleton ts).takeWhile (·.kind ≠ .eof)).map (Leaf.mk []), [],
        ((skeleton ts).find? (·.kind = .eof)).getD ⟨.eof, none, default, ""⟩⟩ := by
  have heof : ((ts.find? (·.kind = .eof)).getD ⟨.eof, none, source.finish, source.id⟩).unplaced =
      ((ts.find? (·.kind = .eof)).map Token.unplaced).getD ⟨.eof, none, default, ""⟩ := by
    cases ts.find? (·.kind = .eof) with
    | none => rfl
    | some e => rfl
  rw [← skeleton_takeWhile, find?_skeleton, ← heof, ← gather_bare]
  rfl

/-- Tokens that differ in nothing but layout parse to the same tree but for layout, or with the
same error but for the place. -/
theorem parse_bare {ts ts' : List Token} {source source' : Source}
    (h : skeleton ts = skeleton ts') :
    Parser.bareAnswer (parse ts source) = Parser.bareAnswer (parse ts' source') := by
  rw [parse, parse, ← Parser.readProgram_bare, ← Parser.readProgram_bare, ofTokens_bare,
    ofTokens_bare, h]

end FunImp
