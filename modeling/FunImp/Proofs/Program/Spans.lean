import FunImp.Proofs.Lexing.Placed
import FunImp.Proofs.Lowering.Chains
import FunImp.Proofs.Lowering.Leaves
import FunImp.Proofs.Program.Nodes

/-! # Where nodes stand

The leaves of a program that was read from a text are laid out in it, and so is every run of them.
What a node covers follows from its run of leaves. -/

namespace FunImp

namespace Node

variable {front : List Char} {n : Node} {ns : List Node}

theorem span_laidOut (h : Leaf.LaidOut front n.leaves) :
    ∃ first rest, n.leaves = first :: rest ∧
      n.span.start = .ofText (front ++ first.leading.flatMap Token.chars) ∧
      n.span.stop = .ofText (front ++ Leaf.charsOf n.leaves) := by
  obtain ⟨first, rest, hleaves⟩ := List.exists_cons_of_ne_nil n.leaves_ne_nil
  rw [hleaves] at h
  obtain ⟨hstart, hstop⟩ := Leaf.spanOf_laidOut h
  refine ⟨first, rest, hleaves, ?_, ?_⟩
  · rw [span_eq, tokens, hleaves, hstart]
  · rw [span_eq, tokens, hleaves, hstop]

theorem pairwise_laidOut (h : Leaf.LaidOut front (ns.flatMap leaves)) :
    (∀ c ∈ ns, byteLength front ≤ c.span.start.offset ∧
      c.span.stop.offset ≤ byteLength (front ++ Leaf.charsOf (ns.flatMap leaves))) ∧
    ns.Pairwise fun c d => c.span.stop.offset ≤ d.span.start.offset := by
  induction ns generalizing front with
  | nil => exact ⟨List.forall_mem_nil _, .nil⟩
  | cons c ns ih =>
    rw [List.flatMap_cons, Leaf.laidOut_append] at h
    obtain ⟨first, rest, -, hstart, hstop⟩ := span_laidOut h.1
    obtain ⟨hbounds, hpairwise⟩ := ih h.2
    have hstartOffset : byteLength front ≤ c.span.start.offset := by
      rw [hstart]
      exact Position.offset_ofText_le_append front _
    have hstopOffset : c.span.stop.offset = byteLength (front ++ Leaf.charsOf c.leaves) := by
      rw [hstop]
      rfl
    rw [List.flatMap_cons, Leaf.charsOf_append]
    refine ⟨List.forall_mem_cons.2 ⟨⟨hstartOffset, ?_⟩, fun d hd => ?_⟩,
      List.pairwise_cons.2 ⟨fun d hd => ?_, hpairwise⟩⟩
    · rw [hstopOffset]
      simp
    · obtain ⟨hdStart, hdStop⟩ := hbounds d hd
      simp only [byteLength_append] at hdStart hdStop ⊢
      omega
    · rw [hstopOffset]
      exact (hbounds d hd).1

theorem children_laidOut (h : Leaf.LaidOut front n.leaves) :
    (∀ c ∈ n.children, n.span.start.offset ≤ c.span.start.offset ∧
      c.span.stop.offset ≤ n.span.stop.offset) ∧
    n.children.Pairwise fun c d => c.span.stop.offset ≤ d.span.start.offset := by
  by_cases hleaf : ∃ l, n = leaf l
  · obtain ⟨l, rfl⟩ := hleaf
    exact ⟨List.forall_mem_nil _, .nil⟩
  · have hchildren := flatMap_leaves_children (not_exists.1 hleaf)
    obtain ⟨first, rest, hleaves, hstart, hstop⟩ := span_laidOut h
    rw [← hchildren] at h
    obtain ⟨hbounds, hpairwise⟩ := pairwise_laidOut h
    refine ⟨fun c hc => ⟨?_, ?_⟩, hpairwise⟩
    · -- The first child starts where the node starts, and the others start behind it.
      obtain ⟨c₀, cs, hcons⟩ := List.exists_cons_of_ne_nil (List.ne_nil_of_mem hc)
      rw [hcons, List.flatMap_cons, Leaf.laidOut_append] at h
      obtain ⟨first₀, rest₀, hleaves₀, hstart₀, -⟩ := span_laidOut h.1
      have hfirst : first₀ = first := by
        rw [hcons, List.flatMap_cons, hleaves₀, hleaves, List.cons_append] at hchildren
        exact (List.cons.inj hchildren).1
      have heq : c₀.span.start = n.span.start := by rw [hstart₀, hstart, hfirst]
      rw [hcons] at hc hpairwise
      rcases List.mem_cons.1 hc with rfl | hc
      · exact Nat.le_of_eq (congrArg Position.offset heq.symm)
      · have hbehind := (List.pairwise_cons.1 hpairwise).1 c hc
        exact heq ▸ Nat.le_trans c₀.span.ordered hbehind
    · rw [hstop, ← hchildren]
      exact (hbounds c hc).2

end Node

theorem flatMap_tokens_leaves_of_lower {source : Source} {ts : List Token} {t : Tree} {p : Program}
    (hlex : lex source = .ok ts) (hparse : parse ts source = .ok t) (hlower : lower t = .ok p) :
    p.leaves.flatMap Leaf.tokens = ts := by
  obtain ⟨-, -, hend⟩ := Lexer.laidOut_of_lex hlex
  obtain ⟨hwf, -, htokens⟩ := wellFormed_of_parse_eq_ok hparse
  rw [← Tree.leaves_eq_of_lower hlower, ← hwf.isProgram.tokens_eq, htokens, hend]

/-- The leaves of a program that was read from a source are laid out in it, and are all of it. -/
theorem laidOut_of_lower {source : Source} {ts : List Token} {t : Tree} {p : Program}
    (hlex : lex source = .ok ts) (hparse : parse ts source = .ok t) (hlower : lower t = .ok p) :
    Leaf.LaidOut [] p.leaves ∧ Leaf.charsOf p.leaves = source.chars := by
  obtain ⟨hlaid, hchars, -⟩ := Lexer.laidOut_of_lex hlex
  have hleaves := flatMap_tokens_leaves_of_lower hlex hparse hlower
  refine ⟨⟨by rwa [hleaves], ?_⟩, by rw [Leaf.charsOf, hleaves, hchars]⟩
  rw [← Tree.leaves_eq_of_lower hlower]
  exact (wellFormed_of_parse_eq_ok hparse).1.tidy

/-- Every node of a program that was read from a text knows where it is. What it covers is a
stretch of the text, from the row and the column where its first token starts to those where its
last token ends; the text of the node is that stretch behind the white space in front of its first
token. Its children lie inside it, one behind the other. -/
theorem span_covers {source : Source} {ts : List Token} {t : Tree} {p : Program}
    (hlex : lex source = .ok ts) (hparse : parse ts source = .ok t) (hlower : lower t = .ok p)
    {n : Node} (hn : (Node.program p).Within n) :
    ∃ first rest before covered behind,
      n.leaves = first :: rest ∧ (∀ w ∈ first.leading, w.kind = .whitespace) ∧
      first.kind ≠ .whitespace ∧ source.chars = before ++ covered ++ behind ∧
      n.span.start = .ofText before ∧ n.span.stop = .ofText (before ++ covered) ∧
      source.slice n.span = some (.ofList covered) ∧
      n.sourceText = Token.sourceText first.leading ++ .ofList covered ∧
      (∀ c ∈ n.children, n.span.start.offset ≤ c.span.start.offset ∧
        c.span.stop.offset ≤ n.span.stop.offset) ∧
      n.children.Pairwise fun c d => c.span.stop.offset ≤ d.span.start.offset := by
  obtain ⟨hlaid, hchars⟩ := laidOut_of_lower hlex hparse hlower
  obtain ⟨left, right, hleaves⟩ := hn.exists_leaves
  change p.leaves = left ++ n.leaves ++ right at hleaves
  rw [hleaves, Leaf.laidOut_append, Leaf.laidOut_append] at hlaid
  obtain ⟨⟨-, hlaid⟩, -⟩ := hlaid
  obtain ⟨hinside, hpairwise⟩ := Node.children_laidOut hlaid
  obtain ⟨first, rest, hn, hstart, hstop⟩ := Node.span_laidOut hlaid
  let before := [] ++ Leaf.charsOf left ++ first.leading.flatMap Token.chars
  let covered := first.token.chars ++ Leaf.charsOf rest
  have hnode : Leaf.charsOf n.leaves = first.leading.flatMap Token.chars ++ covered := by
    rw [hn, Leaf.charsOf_cons, List.append_assoc]
  have hsource : source.chars = before ++ covered ++ Leaf.charsOf right := by
    rw [← hchars, hleaves, Leaf.charsOf_append, Leaf.charsOf_append, hnode]
    simp [before]
  have hend : n.span.stop = .ofText (before ++ covered) := by
    rw [hstop, hnode]
    simp [before]
  obtain ⟨hblanks, hkind⟩ := hlaid.tidy first (by rw [hn]; exact List.mem_cons_self)
  refine ⟨first, rest, before, covered, Leaf.charsOf right, hn, hblanks, hkind, hsource, hstart,
    hend, Source.slice_eq_some hsource hstart hend, ?_, hinside, hpairwise⟩
  have htext : n.sourceText = .ofList (Leaf.charsOf n.leaves) := Token.sourceText_eq _
  rw [htext, hnode, String.ofList_append, Token.sourceText_eq]

/-- A function whose body and whose call go over several lines. -/
private def spreadSource : Source :=
  ⟨"spread", "fun f(x: int): int \x7b\n  g (1,\n    x)\n\x7d"⟩

/-- Where the arguments of the call are, and the white space in front of them. -/
private def callOf : Program → Option (Span × String)
  | ⟨[⟨_, _, _, _, .block _ _ [.bare _ (.call _ _ opening arguments closing)] _⟩], _⟩ =>
    some (Expr.argumentListSpan opening arguments closing, Token.sourceText opening.leading)
  | _ => none

theorem span_covers_sample :
    ∃ ts t p opening arguments closing, lex spreadSource = .ok ts ∧
      parse ts spreadSource = .ok t ∧ lower t = .ok p ∧
      let n := Node.argumentList opening arguments closing
      (Node.program p).Within n ∧ n.span.start = ⟨25, 2, 5⟩ ∧ n.span.stop = ⟨35, 3, 7⟩ ∧
      spreadSource.slice n.span = some "(1,\n    x)" ∧ n.sourceText = " (1,\n    x)" ∧
      n.children.Pairwise fun c d => c.span.stop.offset ≤ d.span.start.offset := by
  have hread : spreadSource.read?.map (fun r => callOf r.2) =
      some (some (.covering ⟨25, 2, 5⟩ "(1,\n    x)".toList, " ")) := by decide +kernel
  obtain ⟨ts, t, p, hlex, hparse, hlower, hcall⟩ := Source.exists_of_map_read? hread
  simp only [callOf] at hcall
  split at hcall
  · rename_i keyword name ps result id o id' id'' callee opening arguments closing c eof
    obtain ⟨hspan, hleading⟩ := Prod.mk.inj (Option.some.inj hcall)
    let call : Expr := .call id'' callee opening arguments closing
    let f : FunctionDecl := ⟨keyword, name, ps, result, .block id o [.bare id' call] c⟩
    have hcallee : (Node.expr call).Within (.argumentList opening arguments closing) :=
      .single (by simp [call, Node.children])
    have hblock : (Node.expr f.body).Within (.expr (.bare id' call)) :=
      .single (by simp [f, Node.children])
    have hbare : (Node.expr (.bare id' call)).Within (.expr call) :=
      .single (by simp [Node.children])
    have hbody : (Node.function f).Within (.expr f.body) := .single (by simp [Node.children])
    have hfunction : (Node.program ⟨[f], eof⟩).Within (.function f) :=
      .single (by simp [Node.children])
    have hwithin := (((hfunction.trans hbody).trans hblock).trans hbare).trans hcallee
    obtain ⟨first, rest, before, covered, -, hleaves, -, -, -, -, -, hslice, htext, -, hpairwise⟩ :=
      span_covers hlex hparse hlower hwithin
    have hnode : (Node.argumentList opening arguments closing).span =
      .covering ⟨25, 2, 5⟩ "(1,\n    x)".toList := hspan
    obtain rfl : opening = first := (List.cons.inj hleaves).1
    have hcovered : spreadSource.slice (.covering ⟨25, 2, 5⟩ "(1,\n    x)".toList) =
        some "(1,\n    x)" := by decide +kernel
    rw [hnode, hcovered] at hslice
    rw [hleading, ← Option.some.inj hslice] at htext
    refine ⟨ts, t, _, opening, arguments, closing, hlex, hparse, hlower, hwithin, ?_, ?_, ?_,
      htext, hpairwise⟩
    · rw [hnode]
      rfl
    · rw [hnode]
      decide +kernel
    · rw [hnode]
      exact hcovered
  · cases hcall

end FunImp
