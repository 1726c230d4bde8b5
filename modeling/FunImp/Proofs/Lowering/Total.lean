import FunImp.Proofs.Grammar.WellFormed
import FunImp.Proofs.Lowering.Functions

/-! # Trees of the grammar are programs

No tree of the grammar is refused, and what is true of the expressions of its parts and passes
on to an expression made of them is true of its own expression. -/

namespace FunImp

namespace Tree

theorem Fits.isBody {t : Tree} (h : Fits .expression t) : t.isBody = true := by
  cases h with
  | braced h => cases h; rfl
  | bare h => cases h; rfl

theorem IsChain.rule_eq {place operand : Place} {rule : Rule} {kinds : List Token.Kind}
    (h : IsChain place rule kinds operand) : rule = .term ∨ rule = .factor := by
  cases h with
  | term => exact .inl rfl
  | factor => exact .inr rfl

theorem IsChain.isSome_ofKind? {place operand : Place} {rule : Rule} {kinds : List Token.Kind}
    (h : IsChain place rule kinds operand) : ∀ k ∈ kinds, (Operator.ofKind? k).isSome := by
  cases h <;> decide

/-- Relations of trees and expressions, one for each place, that pass on from parts to wholes. A
statement stands where an expression may stand. -/
structure Compositional (P : Place → Tree → Expr → Prop) : Prop where
  block : ∀ {o c items es} id, o.kind = .leftBrace → c.kind = .rightBrace →
    List.Forall₂ (P .expression) items es →
    P .block (node .blockExpression (ofLeaf o :: items ++ [ofLeaf c])) (.block id o es c)
  blockless : ∀ {t e} id, P .term t e →
    P .blockless (node .blocklessExpression [t]) (.bare id e)
  braced : ∀ {t e}, P .block t e → P .expression t e
  bare : ∀ {t e}, P .blockless t e → P .expression t e
  statement : ∀ {t e s} id, t.isBody = true → s.kind = .semicolon → P .expression t e →
    P .expression (node .statement [t, ofLeaf s]) (.statement id e s)
  operand : ∀ {place rule kinds operand t e}, IsChain place rule kinds operand → P operand t e →
    P place (node rule [t]) e
  link : ∀ {place rule kinds operand children left s t right op} id,
    IsChain place rule kinds operand → P place (node rule children) left → s.kind ∈ kinds →
    Operator.ofKind? s.kind = some op → P operand t right →
    P place (node rule (children ++ [ofLeaf s, t])) (.binary id left op s right)
  integer : ∀ {l} id, l.kind = .integer → P .element (node .element [ofLeaf l]) (.integer id l)
  reference : ∀ {l} id, l.kind = .identifier →
    P .element (node .element [ofLeaf l]) (.reference id l)
  call : ∀ {n o c trees arguments} id, n.kind = .identifier → o.kind = .leftParen →
    c.kind = .rightParen → (∀ t ∈ trees, ∀ s ∈ t.2, s.kind = .comma) →
    List.Forall₂ (fun t a => P .expression t.1 a.1 ∧ t.2 = a.2) trees arguments →
    P .element (node .functionCall [ofLeaf n,
      node .argumentList (ofLeaf o :: trees.flatMap argumentTrees ++ [ofLeaf c])])
      (.call id n o arguments c)

/-- Whatever the next number is, the tree becomes an expression, and one with the property. -/
def Lowers (P : Tree → Expr → Prop) (t : Tree) : Prop :=
  ∀ s, ∃ e s', Becomes t s e s' ∧ P t e

variable {P : Place → Tree → Expr → Prop}

theorem lowers_itemTree (hP : Compositional P) {i : Tree × Option Tree}
    (hbody : i.1.isBody = true) (hi : Lowers (P .expression) i.1)
    (hs : ∀ s ∈ i.2, IsLeaf [.semicolon] s) : Lowers (P .expression) (itemTree i) := by
  obtain ⟨t, _ | s⟩ := i
  · exact hi
  · intro n
    obtain ⟨l, rfl, hl⟩ := hs s rfl
    have hkind : l.kind = .semicolon := List.mem_singleton.1 hl
    obtain ⟨e, n', he, hPe⟩ := hi n
    exact ⟨_, _, .statement he hkind, hP.statement n' hbody hkind hPe⟩

section Chain

variable {place operand : Place} {rule : Rule} {kinds : List Token.Kind}

theorem lowers_chain (hP : Compositional P) (hchain : IsChain place rule kinds operand)
    {links : List (Tree × Tree)} (hs : ∀ l ∈ links, IsLeaf kinds l.1)
    (hl : ∀ l ∈ links, Lowers (P operand) l.2) {children : List Tree}
    (hc : Lowers (P place) (node rule children)) :
    Lowers (P place) (node rule (children ++ links.flatMap linkTrees)) := by
  induction links generalizing children with
  | nil => simpa using hc
  | cons l links ih =>
    obtain ⟨⟨sign, hsign, hkind⟩, hs⟩ := List.forall_mem_cons.1 hs
    obtain ⟨hright, hl⟩ := List.forall_mem_cons.1 hl
    obtain ⟨op, hop⟩ := Option.isSome_iff_exists.1 (hchain.isSome_ofKind? _ hkind)
    have hlink : Lowers (P place) (node rule (children ++ [ofLeaf sign, l.2])) := by
      intro n
      obtain ⟨left, n', hleft, hPleft⟩ := hc n
      obtain ⟨right, n'', hright, hPright⟩ := hright n'
      exact ⟨_, _, .link hchain.rule_eq hleft hop hright,
        hP.link n'' hchain hPleft hkind hop hPright⟩
    simpa [linkTrees, hsign] using ih hs hl hlink

theorem lowers_operand (hP : Compositional P) (hchain : IsChain place rule kinds operand)
    {t : Tree} (ht : Lowers (P operand) t) : Lowers (P place) (node rule [t]) := by
  intro n
  obtain ⟨e, n', he, hPe⟩ := ht n
  exact ⟨e, n', .operand hchain.rule_eq he, hP.operand hchain hPe⟩

end Chain

private theorem exists_arguments {first : Tree} {links : List (Tree × Tree)} {Q : Tree → Prop}
    (hf : Q first) (hs : ∀ l ∈ links, IsLeaf [.comma] l.1) (hl : ∀ l ∈ links, Q l.2) :
    ∃ trees : List (Tree × Option Leaf), (∀ t ∈ trees, Q t.1) ∧
      (∀ t ∈ trees, ∀ s ∈ t.2, s.kind = .comma) ∧
      first :: links.flatMap linkTrees = trees.flatMap argumentTrees := by
  induction links generalizing first with
  | nil => exact ⟨[(first, none)], by simpa using hf, by simp, rfl⟩
  | cons l links ih =>
    obtain ⟨⟨s, hs', hkind⟩, hs⟩ := List.forall_mem_cons.1 hs
    obtain ⟨hl', hl⟩ := List.forall_mem_cons.1 hl
    obtain ⟨trees, hQ, hcomma, heq⟩ := ih hl' hs hl
    refine ⟨(first, some s) :: trees, List.forall_mem_cons.2 ⟨hf, hQ⟩,
      List.forall_mem_cons.2 ⟨by simpa using hkind, hcomma⟩, ?_⟩
    simp [linkTrees, argumentTrees, hs', ← heq]

theorem lowers_call (hP : Compositional P) {n o c : Leaf} (hn : n.kind = .identifier)
    (ho : o.kind = .leftParen) (hc : c.kind = .rightParen) {trees : List (Tree × Option Leaf)}
    (h : ∀ t ∈ trees, t.1.isBody = true ∧ Lowers (P .expression) t.1)
    (hcomma : ∀ t ∈ trees, ∀ s ∈ t.2, s.kind = .comma) :
    Lowers (P .element) (node .functionCall [ofLeaf n,
      node .argumentList (ofLeaf o :: trees.flatMap argumentTrees ++ [ofLeaf c])]) := by
  intro s
  obtain ⟨row, s', rfl, hrow, hs⟩ :=
    exists_row (fun t _ n e n' => Becomes t n e n' ∧ P .expression t e) (fun t ht => (h t ht).2) s
  have hcommas := List.forall_mem_map.1 hcomma
  rw [List.forall_mem_map] at h
  rw [List.flatMap_map]
  refine ⟨_, _, .call hn ho (fun x hx => (h x hx).1) hcommas (fun x hx => (hrow x hx).1) hs hc, ?_⟩
  rw [← List.flatMap_map]
  exact hP.call s' hn ho hc hcomma (List.forall₂_map_left_iff.2 (List.forall₂_map_right_iff.2
    (List.forall₂_same.2 fun x hx => ⟨(hrow x hx).2, rfl⟩)))

/-- What becomes of a tree in its place. An argument list is lowered as part of a call. -/
def LowersIn (P : Place → Tree → Expr → Prop) : Place → Tree → Prop
  | .argumentList, t => ∀ n : Leaf, n.kind = .identifier →
      Lowers (P .element) (node .functionCall [ofLeaf n, t])
  | place, t => Lowers (P place) t

theorem Fits.lowers (hP : Compositional P) {place : Place} {t : Tree} (h : Fits place t) :
    LowersIn P place t := by
  induction h with
  | @block _ _ items ho hi hs hc ih =>
    obtain ⟨o, rfl, ho⟩ := ho
    obtain ⟨c, rfl, hc⟩ := hc
    have hopening : o.kind = .leftBrace := List.mem_singleton.1 ho
    have hclosing : c.kind = .rightBrace := List.mem_singleton.1 hc
    have hitems : ∀ t ∈ items.map itemTree, Lowers (P .expression) t := by
      intro t ht
      obtain ⟨i, hm, rfl⟩ := List.mem_map.1 ht
      exact lowers_itemTree hP (hi i hm).isBody (ih i hm) (hs i hm)
    intro n
    obtain ⟨row, n', hrow, hbecomes, hs⟩ :=
      exists_row_of_trees (fun t n e n' => Becomes t n e n' ∧ P .expression t e) hitems n
    rw [← hrow]
    refine ⟨_, _, .block hopening (fun x hx => (hbecomes x hx).1) hs hclosing,
      hP.block n' hopening hclosing ?_⟩
    exact List.forall₂_map_left_iff.2 (List.forall₂_map_right_iff.2
      (List.forall₂_same.2 fun x hx => (hbecomes x hx).2))
  | blockless _ ih =>
    intro n
    obtain ⟨e, n', he, hPe⟩ := ih n
    exact ⟨_, _, .bare he, hP.blockless n' hPe⟩
  | braced _ ih =>
    intro n
    obtain ⟨e, n', he, hPe⟩ := ih n
    exact ⟨e, n', he, hP.braced hPe⟩
  | bare _ ih =>
    intro n
    obtain ⟨e, n', he, hPe⟩ := ih n
    exact ⟨e, n', he, hP.bare hPe⟩
  | term _ hs _ ihf ihl => exact lowers_chain hP .term hs ihl (lowers_operand hP .term ihf)
  | factor _ hs _ ihf ihl => exact lowers_chain hP .factor hs ihl (lowers_operand hP .factor ihf)
  | element hh =>
    obtain ⟨l, rfl, hl⟩ := hh
    intro n
    rcases List.mem_pair.1 hl with hl | hl
    · exact ⟨_, _, .integer hl, hP.integer n hl⟩
    · exact ⟨_, _, .reference hl, hP.reference n hl⟩
  | call hn _ ih =>
    obtain ⟨n, rfl, hn⟩ := hn
    exact ih n (List.mem_singleton.1 hn)
  | noArguments ho hc =>
    obtain ⟨o, rfl, ho⟩ := ho
    obtain ⟨c, rfl, hc⟩ := hc
    intro n hn
    have hno : ∀ t ∈ ([] : List (Tree × Option Leaf)),
        t.1.isBody = true ∧ Lowers (P .expression) t.1 := by simp
    exact lowers_call hP hn (List.mem_singleton.1 ho) (List.mem_singleton.1 hc) hno (by simp)
  | arguments ho hf hs hl hc ihf ihl =>
    obtain ⟨o, rfl, ho⟩ := ho
    obtain ⟨c, rfl, hc⟩ := hc
    intro n hn
    obtain ⟨trees, htrees, hcomma, heq⟩ :=
      exists_arguments (Q := fun t => t.isBody = true ∧ Lowers (P .expression) t)
        ⟨hf.isBody, ihf⟩ hs fun l hm => ⟨(hl l hm).isBody, ihl l hm⟩
    rw [heq]
    exact lowers_call hP hn (List.mem_singleton.1 ho) (List.mem_singleton.1 hc) htrees hcomma

theorem exists_params {first : List Tree} {others : List (List Tree)} (hf : IsParam first)
    (ho : ∀ p ∈ others, IsCommaParam p) :
    ∃ ps : List Param, first ++ others.flatten = (ps.flatMap Param.leaves).map ofLeaf ∧
      ∀ p ∈ ps, p.Regular := by
  induction others generalizing first with
  | nil =>
    obtain ⟨_, _, _, rfl, ⟨n, rfl, hn⟩, ⟨d, rfl, hd⟩, ⟨t, rfl, ht⟩⟩ := hf
    refine ⟨[⟨n, ⟨d, t⟩, none⟩], rfl, List.forall_mem_singleton.2 ?_⟩
    exact ⟨List.mem_singleton.1 hn, ⟨List.mem_singleton.1 hd, List.mem_singleton.1 ht⟩, by simp⟩
  | cons p others ih =>
    obtain ⟨⟨_, param, rfl, ⟨s, rfl, hs⟩, hparam⟩, hothers⟩ := List.forall_mem_cons.1 ho
    obtain ⟨_, _, _, rfl, ⟨n, rfl, hn⟩, ⟨d, rfl, hd⟩, ⟨t, rfl, ht⟩⟩ := hf
    obtain ⟨ps, heq, hps⟩ := ih hparam hothers
    have hp : Param.Regular ⟨n, ⟨d, t⟩, some s⟩ :=
      ⟨List.mem_singleton.1 hn, ⟨List.mem_singleton.1 hd, List.mem_singleton.1 ht⟩,
        by simpa using hs⟩
    refine ⟨⟨n, ⟨d, t⟩, some s⟩ :: ps, ?_, List.forall_mem_cons.2 ⟨hp, hps⟩⟩
    simp [Param.leaves, TypeSpec.leaves, ← heq]

theorem IsParamList.exists_paramList {t : Tree} (h : IsParamList t) :
    ∃ ps : ParamList, t = node .paramList (ps.leaves.map ofLeaf) ∧ ps.Regular := by
  cases h with
  | empty ho hc =>
    obtain ⟨o, rfl, ho⟩ := ho
    obtain ⟨c, rfl, hc⟩ := hc
    exact ⟨⟨o, [], c⟩, rfl, List.mem_singleton.1 ho, by simp, List.mem_singleton.1 hc⟩
  | params ho hf hp hc =>
    obtain ⟨o, rfl, ho⟩ := ho
    obtain ⟨c, rfl, hc⟩ := hc
    obtain ⟨ps, heq, hps⟩ := exists_params hf hp
    refine ⟨⟨o, ps, c⟩, ?_, List.mem_singleton.1 ho, hps, List.mem_singleton.1 hc⟩
    simp [ParamList.leaves, ← heq]

/-- The function is that of the tree: its body is related to the last child, and the other
children are leaves and the parameters. -/
def FunctionOf (P : Tree → Expr → Prop) (t : Tree) (f : FunctionDecl) : Prop :=
  ∃ rule front body, t = node rule (front ++ [body]) ∧ rule ∈ [.pureFunction, .impureFunction] ∧
    (∀ c ∈ front, (∃ l, c = ofLeaf l) ∨ IsParamList c) ∧ P body f.body

theorem returns_function (hP : Compositional P) {rule : Rule}
    (hrule : rule ∈ [.pureFunction, .impureFunction]) {k : Option Leaf}
    (hk : ∀ l ∈ k, l.kind = .fn ∨ l.kind = .imp) {rest : List Tree} (hr : IsSignatureAndBody rest)
    (s : NodeId) :
    ∃ f s', Returns (node rule (k.toList.map ofLeaf ++ rest)).toFunction s f s' ∧
      FunctionOf (P .block) (node rule (k.toList.map ofLeaf ++ rest)) f := by
  obtain ⟨_, params, _, _, body, rfl, ⟨n, rfl, hn⟩, hp, ⟨d, rfl, hd⟩, ⟨t, rfl, ht⟩, hb⟩ := hr
  obtain ⟨ps, rfl, hps⟩ := hp.exists_paramList
  obtain ⟨e, s', he, hPe⟩ := hb.lowers hP s
  have hregular : FunctionDecl.Regular ⟨k, n, ps, ⟨d, t⟩, e⟩ :=
    ⟨hk, List.mem_singleton.1 hn, hps, List.mem_singleton.1 hd, List.mem_singleton.1 ht⟩
  have hfront : ∀ c ∈ k.toList.map ofLeaf ++
      [ofLeaf n, node .paramList (ps.leaves.map ofLeaf), ofLeaf d, ofLeaf t],
      (∃ l, c = ofLeaf l) ∨ IsParamList c := by
    rw [List.forall_mem_append, List.forall_mem_map]
    exact ⟨fun l _ => .inl ⟨l, rfl⟩, by simp [hp]⟩
  refine ⟨⟨k, n, ps, ⟨d, t⟩, e⟩, s', returns_toFunction_iff.2 ?_, ?_⟩
  · exact ⟨rule, body, rfl, hrule, hregular, hb.braced.isBody, he⟩
  · exact ⟨rule, _, body, by simp, hrule, hfront, hPe⟩

theorem IsFunction.returns (hP : Compositional P) {t : Tree} (h : IsFunction t) (s : NodeId) :
    ∃ f s', Returns t.toFunction s f s' ∧ FunctionOf (P .block) t f := by
  cases h with
  | @impure keyword rest hk hr =>
    obtain ⟨k, rfl, hk⟩ := hk
    exact returns_function (k := some k) hP (by simp) (by simpa using Or.inr hk) hr s
  | @pure keyword rest hk hr =>
    cases keyword with
    | some keyword =>
      obtain ⟨k, rfl, hkind⟩ := hk keyword rfl
      exact returns_function (k := some k) hP (by simp) (by simpa using Or.inl hkind) hr s
    | none => exact returns_function (k := none) hP (by simp) (by simp) hr s

theorem IsProgram.returns (hP : Compositional P) {t : Tree} (h : IsProgram t) (s : NodeId) :
    ∃ functions eof p s', t = node .program (functions ++ [ofLeaf eof]) ∧
      Returns t.toProgram s p s' ∧ List.Forall₂ (FunctionOf (P .block)) functions p.functions := by
  obtain @⟨functions, _, hf, ⟨eof, rfl, he⟩⟩ := h
  obtain ⟨row, s', rfl, hrow, hs⟩ := exists_row_of_trees
    (fun t s f s' => Returns t.toFunction s f s' ∧ FunctionOf (P .block) t f)
    (fun t ht => (hf t ht).returns hP) s
  have hp : Returns (node .program (row.map Lowered.tree ++ [ofLeaf eof])).toProgram s
      ⟨row.map Lowered.value, eof⟩ s' :=
    returns_toProgram_iff.2
      ⟨row, rfl, fun x hx => (hrow x hx).1, hs, rfl, List.mem_singleton.1 he⟩
  refine ⟨_, eof, _, s', rfl, hp, List.forall₂_map_left_iff.2 (List.forall₂_map_right_iff.2 ?_)⟩
  exact List.forall₂_same.2 fun x hx => (hrow x hx).2

private theorem compositional_true : Compositional fun _ _ _ => True where
  block _ _ _ _ := trivial
  blockless _ _ := trivial
  braced _ := trivial
  bare _ := trivial
  statement _ _ _ _ := trivial
  operand _ _ := trivial
  link _ _ _ _ _ _ := trivial
  integer _ _ := trivial
  reference _ _ := trivial
  call _ _ _ _ _ _ := trivial

/-- Every tree of the grammar is a program, whatever the next number is. -/
theorem IsProgram.exists_returns {t : Tree} (h : IsProgram t) (s : NodeId) :
    ∃ p s', Returns t.toProgram s p s' := by
  obtain ⟨_, _, p, s', -, hp, -⟩ := h.returns compositional_true s
  exact ⟨p, s', hp⟩

theorem IsProgram.lower_eq_ok {t : Tree} (h : IsProgram t) : ∃ p, lower t = .ok p := by
  obtain ⟨p, s, hp⟩ := h.exists_returns 0
  exact ⟨p, lower_eq_ok_iff.2 ⟨s, hp⟩⟩

/-- The functions of a program are related to those of its tree. -/
theorem IsProgram.functionOf (hP : Compositional P) {t : Tree} (h : IsProgram t) {p : Program}
    (hp : lower t = .ok p) :
    ∃ functions eof, t = node .program (functions ++ [ofLeaf eof]) ∧
      List.Forall₂ (FunctionOf (P .block)) functions p.functions := by
  obtain ⟨functions, eof, q, s, rfl, hq, hfunctions⟩ := h.returns hP 0
  obtain ⟨s', hp⟩ := lower_eq_ok_iff.1 hp
  obtain ⟨rfl, -⟩ := hq.unique hp
  exact ⟨functions, eof, rfl, hfunctions⟩

end Tree

end FunImp
