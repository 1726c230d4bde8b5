import FunImp.Proofs.Grammar.Errors
import FunImp.Proofs.Lexing.Marked
import FunImp.Proofs.Lowering.Lossless
import FunImp.Proofs.Program.Spans
import FunImp.Proofs.Typing.Blames

/-! # Errors and their places

Whatever phase a source fails in, the places of its errors are marked in the text: by stray
characters, by the token that could not be parsed, or by a part of some function. So every
diagnostic fits its line. -/

namespace FunImp

variable {source : Source} {ts : List Token}

theorem found_of_parse_eq_error {e : SyntaxError} (hend : throughEnd source ts = ts)
    (h : parse ts source = .error e) : e.found ∈ ts ∧ e.found.kind ≠ .whitespace := by
  obtain ⟨ls, ws, eof, hparser, hls, -, heof, htokens⟩ := Parser.ofTokens_spec ts source
  rw [hend] at htokens
  rw [parse, hparser, Parser.readProgram_eq_error] at h
  obtain ⟨f, hrun, rfl⟩ := h
  obtain ⟨front, hfront, -⟩ := ((Tree.foresighted_functions 127).within .program).error
    (Parser.run_program_eq_error.1 hrun)
  change ls = front ++ f.remaining at hfront
  rcases hremaining : f.remaining with _ | ⟨l, rest⟩
  · exact ⟨by simp [htokens], by simp [heof]⟩
  · have hl : l ∈ ls := by simp [hfront, hremaining]
    refine ⟨?_, (hls l hl).1.2⟩
    rw [htokens, List.append_assoc]
    exact List.mem_append_left _ (List.mem_flatMap.2 ⟨l, hl, by simp [Leaf.tokens]⟩)

theorem kind_ne_eof_of_lower {t : Tree} {p : Program} (hparse : parse ts source = .ok t)
    (hlower : lower t = .ok p) {f : FunctionDecl} (hf : f ∈ p.functions) :
    ∀ l ∈ f.leaves, l.kind ≠ .eof := by
  obtain ⟨functions, leading, eof, rfl, -, -, -, hleaves, -⟩ :=
    (wellFormed_of_parse_eq_ok hparse).1.split
  have hprogram := Tree.leaves_eq_of_lower hlower
  rw [Tree.leaves_node, List.flatMap_append, ← Tree.forestLeaves_eq_flatMap,
    List.flatMap_singleton, Tree.leaves_ofLeaf, Program.leaves] at hprogram
  obtain ⟨hfunctions, -⟩ := List.append_inj' hprogram rfl
  intro l hl
  refine (hleaves l ?_).2
  rw [hfunctions]
  exact List.mem_flatMap.2 ⟨f, hf, hl⟩

/-- The text of a node from its first token on, without the white space in front of it. -/
def Node.shownText (n : Node) : String :=
  Token.sourceText (n.tokens.dropWhile (·.isWhitespace))

theorem Node.shownText_eq {n : Node} {first : Leaf} {rest : List Leaf}
    (hn : n.leaves = first :: rest) (h : first.Tidy) :
    n.shownText = .ofList (first.token.chars ++ Leaf.charsOf rest) := by
  obtain ⟨hblanks, hkind⟩ := h
  have htokens : n.tokens = first.leading ++ first.token :: rest.flatMap Leaf.tokens := by
    simp [tokens, hn, Leaf.tokens]
  have hleading : ∀ w ∈ first.leading, w.isWhitespace = true := by
    simpa [Token.isWhitespace] using hblanks
  have htoken : first.token.isWhitespace = false := by
    simpa [Token.isWhitespace, Leaf.kind] using hkind
  rw [shownText, htokens, List.dropWhile_append_of_pos hleading, List.dropWhile_cons, htoken,
    Token.sourceText_eq]
  rfl

/-- A part of a function marks its text, from its first token to the end of its last. -/
theorem Node.marks_shownText {t : Tree} {p : Program} (hlex : lex source = .ok ts)
    (hparse : parse ts source = .ok t) (hlower : lower t = .ok p) {f : FunctionDecl}
    (hf : f ∈ p.functions) {n : Node} (hn : (Node.function f).Within n) :
    source.Marks n.span n.shownText.toList ∧ n.shownText.toList ≠ [] := by
  obtain ⟨hlaid, hchars⟩ := laidOut_of_lower hlex hparse hlower
  have hprogram : (Node.program p).Within n :=
    .head (by simp [Node.children, hf]) hn
  obtain ⟨left, right, hleaves⟩ := hprogram.exists_leaves
  change p.leaves = left ++ n.leaves ++ right at hleaves
  rw [hleaves, Leaf.laidOut_append, Leaf.laidOut_append] at hlaid
  obtain ⟨first, rest, hfirst, hstart, hstop⟩ := Node.span_laidOut hlaid.1.2
  have htidy : first.Tidy := hlaid.1.2.tidy first (by simp [hfirst])
  have heof : first.token.kind ≠ .eof := by
    obtain ⟨left, right, hfunction⟩ := hn.exists_leaves
    change f.leaves = left ++ n.leaves ++ right at hfunction
    exact kind_ne_eof_of_lower hparse hlower hf first (by simp [hfunction, hfirst])
  have hmem : first.token ∈ ts := by
    rw [← flatMap_tokens_leaves_of_lower hlex hparse hlower, hleaves, hfirst]
    simp [Leaf.tokens]
  obtain ⟨hhead, hempty⟩ := Lexer.chars_of_mem_lex hlex hmem htidy.2
  obtain ⟨c, cs, hcs⟩ := List.exists_cons_of_ne_nil fun hnil => heof (hempty.1 hnil)
  rw [shownText_eq hfirst htidy, String.toList_ofList]
  refine ⟨⟨?_, ?_⟩, by simp [hcs]⟩
  · rw [hcs] at hhead ⊢
    exact hhead
  · refine ⟨Leaf.charsOf left ++ first.leading.flatMap Token.chars, Leaf.charsOf right, ?_,
      by simpa using hstart, ?_⟩
    · rw [← hchars, hleaves, hfirst]
      simp [Leaf.charsOf_append, Leaf.charsOf_cons]
    · rw [hstop, hfirst]
      simp [Leaf.charsOf_cons]

/-- Diagnostics always fit their line. Only a syntax error at the end of the input underlines
nothing. -/
theorem diagnostics_fit {options : Options} {e : CompileError}
    (h : compile options source = .error e) :
    ∀ d ∈ e.diagnostics, d.Fits source ∧
      (d.span.isEmpty → ∃ se, e = .single (.parsing se) (some source) ∧ se.found.kind = .eof) := by
  obtain ⟨cause, rfl, hfails⟩ := failsWith_of_compile h
  rw [CompileError.diagnostics]
  intro d hd
  cases hfails with
  | lexing hlex =>
    obtain ⟨stray, hstray, rfl⟩ := List.mem_map.1 hd
    have hmarks := Lexer.marks_of_lex_eq_error hlex stray hstray
    exact ⟨hmarks.fits_locate _, fun hempty => nomatch hmarks.isEmpty_iff.1 hempty⟩
  | @parsing ts se hlex hparse =>
    obtain rfl := List.mem_singleton.1 hd
    obtain ⟨hmem, hkind⟩ := found_of_parse_eq_error (Lexer.laidOut_of_lex hlex).2.2 hparse
    have hmarks := Lexer.marks_of_mem_lex hlex hmem hkind
    refine ⟨hmarks.fits_locate _, fun hempty => ⟨se, rfl, ?_⟩⟩
    exact (Lexer.chars_of_mem_lex hlex hmem hkind).2.1 (hmarks.isEmpty_iff.1 hempty)
  | lowering hlex hparse hlower =>
    obtain ⟨p, hp⟩ := (wellFormed_of_parse_eq_ok hparse).1.isProgram.lower_eq_ok
    rw [hp] at hlower
    cases hlower
  | validation hlex hparse hlower hvalidate =>
    obtain ⟨err, herr, rfl⟩ := List.mem_map.1 hd
    obtain ⟨f, hf, hblames⟩ := blames_of_validate hvalidate err herr
    obtain ⟨n, hn, hspan⟩ := hblames.exists_within
    obtain ⟨hmarks, hne⟩ := Node.marks_shownText hlex hparse hlower hf hn
    rw [hspan] at hmarks
    exact ⟨hmarks.fits_locate _, fun hempty => absurd (hmarks.isEmpty_iff.1 hempty) hne⟩

private def endError : SyntaxError where
  obstacle := .unexpected [.leftParen]
  found := ⟨.eof, none, .point ⟨1, 1, 2⟩, "sample"⟩
  rules := [.program, .pureFunction, .paramList]

theorem diagnostics_fit_sample :
    compile default ⟨"sample", "f"⟩ = .error (.single (.parsing endError) (some ⟨"sample", "f"⟩)) ∧
      ∃ d ∈ (CompileError.single (.parsing endError) (some ⟨"sample", "f"⟩)).diagnostics,
        d.span.isEmpty ∧ d.Fits ⟨"sample", "f"⟩ ∧ endError.found.kind = .eof := by
  have hcompile : compile default ⟨"sample", "f"⟩ =
      .error (.single (.parsing endError) (some ⟨"sample", "f"⟩)) :=
    compile_eq_error_of_thrown (by decide +kernel)
  have hd := diagnostics_fit hcompile _ (List.mem_singleton_self _)
  have hempty : (Diagnostic.locate ⟨"sample", "f"⟩ endError.message endError.span).span.isEmpty :=
    rfl
  obtain ⟨se, heq, heof⟩ := hd.2 hempty
  cases heq
  exact ⟨hcompile, _, List.mem_singleton_self _, hempty, hd.1, heof⟩

end FunImp
