import Mathlib.Data.List.TakeWhile
import FunImp.Proofs.Grammar.Foresight
import FunImp.Proofs.Grammar.Parse
import FunImp.Proofs.Grammar.Refusal

/-! # Syntax errors

A token list without an end of input that does not parse is stuck at one of its tokens or behind
all of them. What stands in front can be completed to a program, also with any of the expected
kinds next, and with the token no completion is left. -/

namespace FunImp

/-- The token for the end of the input where there is none of its own. -/
def Source.endToken (source : Source) : Token :=
  ⟨.eof, none, source.finish, source.id⟩

theorem Leaf.kind_ne_eof_of_mem_tokens {ls : List Leaf} (h : ∀ l ∈ ls, l.Tidy ∧ l.kind ≠ .eof) :
    ∀ t ∈ ls.flatMap tokens, t.kind ≠ .eof := by
  intro t ht
  obtain ⟨l, hl, ht⟩ := List.mem_flatMap.1 ht
  obtain hblank | htoken := List.mem_append.1 ht
  · simp [(h l hl).1.1 t hblank]
  · rw [List.mem_singleton.1 htoken]
    exact (h l hl).2

theorem Leaf.exists_gathered {ts : List Token} (h : ∀ t ∈ ts, t.kind ≠ .eof) :
    ∃ (ls : List Leaf) (ws : List Token), ts = ls.flatMap tokens ++ ws ∧
      (∀ l ∈ ls, l.Tidy ∧ l.kind ≠ .eof) ∧ ∀ w ∈ ws, w.kind = .whitespace := by
  obtain ⟨hsplit, htidy, hblank⟩ := gather_spec ts
  refine ⟨_, _, hsplit, fun l hl => ⟨htidy l hl, h _ ?_⟩, hblank⟩
  rw [hsplit]
  exact List.mem_append_left _ (List.mem_flatMap.2 ⟨l, hl, by simp [tokens]⟩)

namespace Parser

theorem ofTokens_blanks {ws : List Token} (h : ∀ w ∈ ws, w.kind = .whitespace) (source : Source) :
    ofTokens ws source = ⟨[], [], ws, source.endToken⟩ := by
  have hend : ∀ w ∈ ws, w.kind ≠ .eof := fun w hw => by simp [h w hw]
  have htake : ws.takeWhile (·.kind ≠ .eof) = ws :=
    List.takeWhile_eq_self_iff.2 (by simpa using hend)
  have hfind : ws.find? (·.kind = .eof) = none := List.find?_eq_none.2 (by simpa using hend)
  have hgather : Leaf.gather ws = ([], ws) := Leaf.gather_tokens (List.forall_mem_nil _) h
  simp only [ofTokens, htake, hfind, hgather, Option.getD_none]
  rfl

/-- The leaves in front of the rest of the input are put in front of those of the rest. -/
theorem ofTokens_append {front : List Leaf} (hf : ∀ l ∈ front, l.Tidy ∧ l.kind ≠ .eof)
    (ts : List Token) (source : Source) :
    ofTokens (front.flatMap Leaf.tokens ++ ts) source =
      { ofTokens ts source with leaves := front ++ (ofTokens ts source).leaves } := by
  have hend := Leaf.kind_ne_eof_of_mem_tokens hf
  have htake : (front.flatMap Leaf.tokens ++ ts).takeWhile (·.kind ≠ .eof) =
      front.flatMap Leaf.tokens ++ ts.takeWhile (·.kind ≠ .eof) :=
    List.takeWhile_append_of_pos (by simpa using hend)
  have hfind : (front.flatMap Leaf.tokens ++ ts).find? (·.kind = .eof) =
      ts.find? (·.kind = .eof) := by
    rw [List.find?_append, List.find?_eq_none.2 (by simpa using hend), Option.none_or]
  obtain ⟨hsplit, htidy, hblank⟩ := Leaf.gather_spec (ts.takeWhile (·.kind ≠ .eof))
  have hgather := Leaf.gather_tokens (List.forall_mem_append.2 ⟨fun l hl => (hf l hl).1, htidy⟩)
    hblank
  rw [List.flatMap_append, List.append_assoc, ← hsplit, ← htake] at hgather
  simp only [ofTokens, hgather, hfind]

theorem ofTokens_append_endToken {ts : List Token} (h : ∀ t ∈ ts, t.kind ≠ .eof) (source : Source)
    (more : List Token) : ofTokens (ts ++ source.endToken :: more) source = ofTokens ts source := by
  have htake : ts.takeWhile (·.kind ≠ .eof) = ts := List.takeWhile_eq_self_iff.2 (by simpa using h)
  have htake' : (ts ++ source.endToken :: more).takeWhile (·.kind ≠ .eof) = ts := by
    rw [List.takeWhile_append_of_pos (by simpa using h)]
    simp [Source.endToken]
  have hfind : ts.find? (·.kind = .eof) = none := List.find?_eq_none.2 (by simpa using h)
  simp only [ofTokens, htake, htake', hfind, List.find?_append]
  simp [Source.endToken]

theorem run_program_eq_error {ls ls' : List Leaf} {ws : List Token} {eof : Token}
    {f : Tree.Failure} :
    (program ⟨[], ls, ws, eof⟩).run ls' = .error f ↔
      (Tree.Reader.within .program (Tree.functions 127)).run ls' = .error f := by
  simp only [program, programUpTo, maxDepth, List.length_nil, Nat.sub_zero, Tree.opened,
    Tree.Reader.run_within_eq_error, Tree.Reader.run_bind_eq_error,
    Tree.Reader.run_pure_ne_error, and_false, exists_false, or_false]

theorem readProgram_eq_error {p : Parser} {e : SyntaxError} :
    p.readProgram.1 = .error e ↔ ∃ f, p.program.run p.leaves = .error f ∧
      e = ⟨f.obstacle, (f.remaining.head?.map (·.token)).getD p.eof, p.opened ++ f.rules⟩ := by
  rw [readProgram_eq]
  cases p.program.run p.leaves <;> simp [eq_comm]

end Parser

/-- An error at a leaf is the same whatever follows that leaf. -/
theorem parse_append_eq_error {taken rest : List Leaf} {l : Leaf} {obstacle : Obstacle}
    {rules : List Rule} (hfront : ∀ m ∈ taken ++ [l], m.Tidy ∧ m.kind ≠ .eof)
    (h : (Tree.Reader.within .program (Tree.functions 127)).run (taken ++ l :: rest) =
      .error ⟨obstacle, rules, l :: rest⟩) (source : Source) (more : List Token) :
    parse ((taken ++ [l]).flatMap Leaf.tokens ++ more) source =
      .error ⟨obstacle, l.token, rules⟩ := by
  obtain ⟨front, hsplit, hsame⟩ := ((Tree.foresighted_functions 127).within .program).error h
  obtain rfl := List.append_cancel_right hsplit
  obtain ⟨ls, ws, eof, hmore, -⟩ := Parser.ofTokens_spec more source
  have hrun := hsame (l :: ls) rfl
  rw [parse, Parser.ofTokens_append hfront, hmore, Parser.readProgram_eq_error]
  exact ⟨⟨obstacle, rules, l :: ls⟩, Parser.run_program_eq_error.2 (by simpa using hrun), rfl⟩

/-- Parsing stops behind the tokens of some leaves and white space, in front of the rest. -/
structure Stop (source : Source) (e : SyntaxError) (taken : List Leaf) (blanks rest : List Token)
    (s : Tree.Site) : Prop where
  tidy : ∀ l ∈ taken, l.Tidy ∧ l.kind ≠ .eof
  blank : ∀ w ∈ blanks, w.kind = .whitespace
  stuck : Tree.StuckProgram 127 taken s
  obstacle : e.obstacle = s.obstacle
  asked : s.AskedIn e.rules
  found : rest = [] ∧ e.found = source.endToken ∨
    ∃ after, rest = e.found :: after ∧ e.found.kind ≠ .whitespace ∧
      ∀ more, parse (taken.flatMap Leaf.tokens ++ blanks ++ e.found :: more) source = .error e

theorem exists_stop {ts : List Token} {source : Source} {e : SyntaxError}
    (hts : ∀ t ∈ ts, t.kind ≠ .eof) (h : parse ts source = .error e) :
    ∃ taken blanks rest s, ts = taken.flatMap Leaf.tokens ++ blanks ++ rest ∧
      Stop source e taken blanks rest s := by
  obtain ⟨ls, ws, rfl, hls, hws⟩ := Leaf.exists_gathered hts
  rw [parse, Parser.ofTokens_append hls, Parser.ofTokens_blanks hws,
    Parser.readProgram_eq_error] at h
  obtain ⟨⟨obstacle, rules, remaining⟩, hrun, rfl⟩ := h
  rw [Parser.run_program_eq_error, List.append_nil] at hrun
  obtain ⟨taken, s, rfl, hstuck, hs⟩ := Tree.stuck_functions hrun
  obtain ⟨htaken, hremaining⟩ := List.forall_mem_append.1 hls
  cases remaining with
  | nil =>
    refine ⟨taken, ws, [], s, by simp, htaken, hws, hstuck, hs.obstacle, hs.asked, .inl ?_⟩
    exact ⟨rfl, rfl⟩
  | cons l rest =>
    obtain ⟨hl, -⟩ := List.forall_mem_cons.1 hremaining
    have hfront := List.forall_mem_append.2 ⟨htaken, List.forall_mem_singleton.2 hl⟩
    refine ⟨taken, l.leading, l.token :: (rest.flatMap Leaf.tokens ++ ws), s,
      by simp [Leaf.tokens], htaken, hl.1.1, hstuck, hs.obstacle, hs.asked, .inr ?_⟩
    refine ⟨_, rfl, hl.1.2, fun more => ?_⟩
    simpa [Leaf.tokens] using parse_append_eq_error hfront hrun source more

theorem Tree.ProgramLang.ends {n : Nat} {ls : List Leaf} (h : ProgramLang n ls) :
    EndsIn [.eof] ls := by
  obtain ⟨t, hprogram, -, rfl⟩ := h
  cases hprogram with
  | mk _ he => exact endsIn_node he.ends

theorem exists_parse_of_programLang {ls : List Leaf} (h : Tree.ProgramLang maxDepth ls)
    (hblank : ∀ l ∈ ls, ∀ w ∈ l.leading, w.kind = .whitespace) (source : Source) :
    ∃ t, parse (ls.flatMap Leaf.tokens) source = .ok t := by
  obtain ⟨t, hprogram, hdepth, rfl⟩ := h
  have hwf : t.WellFormed := ⟨hprogram, hblank⟩
  rw [← hprogram.tokens_eq]
  exact ⟨t, parse_eq_ok_of_wellFormed hwf hdepth (hwf.throughEnd_tokens source).symm⟩

namespace Stop

variable {source : Source} {e : SyntaxError} {taken : List Leaf} {blanks rest : List Token}
  {s : Tree.Site}

theorem mendable (h : Stop source e taken blanks rest s) :
    Tree.Mendable (Tree.ProgramLang maxDepth) taken s := h.stuck.mendable

/-- A token that can come next on the level of leaves can come next. -/
theorem exists_parse_of_completes (h : Stop source e taken blanks rest s) {k : Token.Kind}
    {more : List Token.Kind} (hc : Tree.Completes (Tree.ProgramLang maxDepth) taken (k :: more))
    {token : Token} (ht : token.kind = k) :
    ∃ behind t, parse (taken.flatMap Leaf.tokens ++ blanks ++ token :: behind) source = .ok t := by
  let plain (k : Token.Kind) : Leaf := ⟨[], ⟨k, none, default, ""⟩⟩
  have hkinds : (more.map plain).map Leaf.kind = more := by
    rw [List.map_map]
    exact List.map_id more
  have hlang := hc (⟨blanks, token⟩ :: more.map plain) (by rw [List.map_cons, hkinds, ← ht]; rfl)
  have hblank : ∀ l ∈ taken ++ ⟨blanks, token⟩ :: more.map plain,
      ∀ w ∈ l.leading, w.kind = .whitespace := by
    refine List.forall_mem_append.2 ⟨fun l hl => (h.tidy l hl).1.1, ?_⟩
    exact List.forall_mem_cons.2 ⟨h.blank, List.forall_mem_map.2 fun k _ => List.forall_mem_nil _⟩
  obtain ⟨t, hparse⟩ := exists_parse_of_programLang hlang hblank source
  exact ⟨(more.map plain).flatMap Leaf.tokens, t, by simpa [Leaf.tokens] using hparse⟩

theorem viable (h : Stop source e taken blanks rest s) :
    ∃ behind t, parse (taken.flatMap Leaf.tokens ++ blanks ++ behind) source = .ok t := by
  have hdeep : s = .tooDeep → taken ≠ [] := by
    rintro rfl rfl
    cases h.stuck.eq_of_nil
  obtain ⟨kinds, hc⟩ := h.mendable.viable hdeep
  cases kinds with
  | nil =>
    obtain ⟨l, hl, hend⟩ := (hc [] rfl).ends
    rw [List.append_nil] at hl
    exact absurd (List.mem_singleton.1 hend) (h.tidy l (List.mem_of_getLast? hl)).2
  | cons k more =>
    obtain ⟨behind, t, hparse⟩ := h.exists_parse_of_completes hc
      (rfl : (⟨k, none, default, ""⟩ : Token).kind = k)
    exact ⟨_, t, hparse⟩

end Stop

/-- The error is about the token at the index, whatever follows that token, or about the end of the
input behind all tokens. -/
def FailsAt (ts : List Token) (source : Source) (e : SyntaxError) (i : Nat) : Prop :=
  (ts[i]? = some e.found ∧ e.found.kind ≠ .whitespace ∧
    ∀ more, parse (ts.take (i + 1) ++ more) source = .error e) ∨
  (i = ts.length ∧ e.found = source.endToken)

theorem Stop.failsAt {source : Source} {e : SyntaxError} {taken : List Leaf}
    {blanks rest : List Token} {s : Tree.Site} (h : Stop source e taken blanks rest s) :
    FailsAt (taken.flatMap Leaf.tokens ++ blanks ++ rest) source e
      (taken.flatMap Leaf.tokens ++ blanks).length := by
  obtain ⟨rfl, hfound⟩ | ⟨after, rfl, hkind, hsame⟩ := h.found
  · exact .inr ⟨by simp, hfound⟩
  · refine .inl ⟨by simp, hkind, fun more => ?_⟩
    rw [List.take_length_add_append, List.take_succ_cons, List.take_zero]
    simpa using hsame more

/-- Syntax errors are reported at the earliest token: what stands in front can be completed to a
program, and what stands in front together with the token cannot. -/
theorem parse_error_earliest {ts : List Token} {source : Source} {e : SyntaxError}
    (hts : ∀ t ∈ ts, t.kind ≠ .eof) (h : parse ts source = .error e) :
    ∃ i, FailsAt ts source e i ∧ ∃ more t, parse (ts.take i ++ more) source = .ok t := by
  obtain ⟨taken, blanks, rest, s, rfl, hstop⟩ := exists_stop hts h
  refine ⟨_, hstop.failsAt, ?_⟩
  rw [List.take_left]
  exact hstop.viable

private def plainToken (kind : Token.Kind) : Token := ⟨kind, none, default, "sample"⟩

private def plainLeaf (kind : Token.Kind) : Leaf := ⟨[], plainToken kind⟩

/-- The kinds of `fun f(): int { `. -/
private def openBlock : List Token.Kind :=
  [.fn, .identifier, .leftParen, .rightParen, .colon, .identifier, .leftBrace]

/-- The tokens of `fun f(): int { ; }`. -/
private def straySemicolon : List Token :=
  (openBlock ++ ([.semicolon, .rightBrace] : List Token.Kind)).map plainToken

private def straySemicolonError : SyntaxError where
  obstacle := .unexpected [.integer, .identifier]
  found := plainToken .semicolon
  rules := [.program, .pureFunction, .blockExpression, .blocklessExpression, .term, .factor,
    .element]

open FunImp.Tree FunImp.Tree.Reader in
private theorem parse_straySemicolon :
    parse straySemicolon ⟨"sample", ""⟩ = .error straySemicolonError := by
  let rest := [plainLeaf .semicolon, plainLeaf .rightBrace]
  have hitem : (Rules.upTo 125).item.run rest = .error ⟨.unexpected [.integer, .identifier],
      [.blocklessExpression, .term, .factor, .element], rest⟩ := rfl
  have hblock : (Rules.upTo 126).block.1.run (plainLeaf .leftBrace :: rest) =
      .error ⟨.unexpected [.integer, .identifier],
        [.blockExpression, .blocklessExpression, .term, .factor, .element], rest⟩ :=
    run_within_eq_error.2 ⟨_, run_bind_eq_error.2 (.inr ⟨_, _, rfl,
      run_bind_eq_error.2 (.inl (run_many_eq_error.2 ⟨rfl, .inl hitem⟩))⟩), rfl⟩
  have hsignature : (signatureAndBody 126).run ((openBlock.drop 1).map plainLeaf ++ rest) =
      .error ⟨.unexpected [.integer, .identifier],
        [.blockExpression, .blocklessExpression, .term, .factor, .element], rest⟩ :=
    run_bind_eq_error.2 (.inr ⟨_, _, rfl, run_bind_eq_error.2 (.inr ⟨_, _, rfl,
      run_bind_eq_error.2 (.inr ⟨_, _, rfl, run_bind_eq_error.2 (.inr ⟨_, _, rfl,
        run_bind_eq_error.2 (.inl hblock)⟩)⟩)⟩)⟩)
  have hfunction : (Tree.function 127).run (openBlock.map plainLeaf ++ rest) =
      .error ⟨.unexpected [.integer, .identifier],
        [.pureFunction, .blockExpression, .blocklessExpression, .term, .factor, .element], rest⟩ :=
    run_bind_eq_error.2 (.inr ⟨_, _, rfl, run_bind_eq_error.2 (.inl
      (run_within_eq_error.2 ⟨_, run_bind_eq_error.2 (.inr ⟨_, _, rfl,
        run_bind_eq_error.2 (.inr ⟨_, _, rfl, run_bind_eq_error.2 (.inl hsignature)⟩)⟩), rfl⟩))⟩)
  have hfunctions : (within .program (functions 127)).run (openBlock.map plainLeaf ++ rest) =
      .error ⟨.unexpected [.integer, .identifier], straySemicolonError.rules, rest⟩ :=
    run_within_eq_error.2 ⟨_, run_bind_eq_error.2
      (.inl (run_many_eq_error.2 ⟨rfl, .inl hfunction⟩)), rfl⟩
  exact Parser.readProgram_eq_error.2 ⟨_, Parser.run_program_eq_error.2 hfunctions, rfl⟩

theorem parse_error_earliest_sample :
    (∀ t ∈ straySemicolon, t.kind ≠ .eof) ∧
      parse straySemicolon ⟨"sample", ""⟩ = .error straySemicolonError ∧
      ∃ i, FailsAt straySemicolon ⟨"sample", ""⟩ straySemicolonError i ∧
        ∃ more t, parse (straySemicolon.take i ++ more) ⟨"sample", ""⟩ = .ok t := by
  have hend : ∀ t ∈ straySemicolon, t.kind ≠ .eof := by decide
  exact ⟨hend, parse_straySemicolon, parse_error_earliest hend parse_straySemicolon⟩

/-- The token can come next; an end of input can if the tokens are a program. -/
def CouldFollow (source : Source) (before : List Token) (token : Token) : Prop :=
  if token.kind = .eof then ∃ t, parse before source = .ok t
  else ∃ more t, parse (before ++ token :: more) source = .ok t

def LastIn (kinds : List Token.Kind) (ts : List Token) : Prop :=
  ∃ t ∈ (ts.filter (!·.isWhitespace)).getLast?, t.kind ∈ kinds

theorem not_rejects_of_parse {ls : List Leaf} {ws : List Token} {eof : Token} {ts : List Token}
    {source : Source} {t : Tree} (hparser : Parser.ofTokens ts source = ⟨[], ls, ws, eof⟩)
    (h : parse ts source = .ok t) : ¬ (Tree.functions 127).Rejects ls := by
  rintro ⟨f, hf⟩
  rw [parse_eq_ok_iff_run, hparser] at h
  obtain ⟨rest, hrun⟩ := h
  obtain ⟨fs, hfs, -⟩ := Parser.run_program_eq_ok.1 hrun
  rw [hf] at hfs
  cases hfs

namespace Stop

variable {source : Source} {e : SyntaxError} {taken : List Leaf} {blanks rest : List Token}
  {s : Tree.Site}

theorem lastIn_iff (h : Stop source e taken blanks rest s) (kinds : List Token.Kind) :
    LastIn kinds (taken.flatMap Leaf.tokens ++ blanks) ↔ Tree.EndsIn kinds taken := by
  have hblanks : blanks.filter (!·.isWhitespace) = [] :=
    List.filter_eq_nil_iff.2 fun w hw => by simp [Token.isWhitespace, h.blank w hw]
  rw [LastIn, List.filter_append, Leaf.filter_tokens fun l hl => (h.tidy l hl).1, hblanks,
    List.append_nil, List.getLast?_map]
  simp [Tree.EndsIn, Leaf.kind]

theorem kind_ne_eof (h : Stop source e taken blanks rest s) :
    ∀ t ∈ taken.flatMap Leaf.tokens ++ blanks, t.kind ≠ .eof :=
  List.forall_mem_append.2
    ⟨Leaf.kind_ne_eof_of_mem_tokens h.tidy, fun w hw => by simp [h.blank w hw]⟩

theorem couldFollow_of_completes (h : Stop source e taken blanks rest s) {token : Token}
    {more : List Token.Kind}
    (hc : Tree.Completes (Tree.ProgramLang maxDepth) taken (token.kind :: more)) :
    CouldFollow source (taken.flatMap Leaf.tokens ++ blanks) token := by
  rw [CouldFollow]
  split
  · rename_i hend
    rw [hend] at hc
    obtain ⟨behind, t, hparse⟩ := h.exists_parse_of_completes hc (rfl : source.endToken.kind = _)
    rw [parse, Parser.ofTokens_append_endToken h.kind_ne_eof] at hparse
    exact ⟨t, hparse⟩
  · exact h.exists_parse_of_completes hc rfl

/-- What is expected could come next. -/
theorem couldFollow_of_expected (h : Stop source e taken blanks rest s) {token : Token}
    (ht : token.kind ∈ s.expected) :
    CouldFollow source (taken.flatMap Leaf.tokens ++ blanks) token := by
  obtain ⟨more, hc⟩ := h.mendable.expected _ ht
  exact h.couldFollow_of_completes hc

/-- Where it is settled what may follow, nothing else could come next. -/
theorem expected_of_couldFollow (h : Stop source e taken blanks rest s) (hs : s ≠ .tooDeep)
    (hset : s.Settled taken) {token : Token} (htoken : token.kind ≠ .whitespace)
    (hf : CouldFollow source (taken.flatMap Leaf.tokens ++ blanks) token) :
    token.kind ∈ s.expected := by
  by_contra hnot
  rw [CouldFollow] at hf
  split at hf
  · rename_i hend
    obtain ⟨t, hparse⟩ := hf
    have hparser : Parser.ofTokens (taken.flatMap Leaf.tokens ++ blanks) source =
        ⟨[], taken ++ [], blanks, source.endToken⟩ := by
      rw [Parser.ofTokens_append h.tidy, Parser.ofTokens_blanks h.blank]
    rw [hend] at hnot
    exact not_rejects_of_parse hparser hparse (h.stuck.rejects hs hset hnot)
  · rename_i hend
    obtain ⟨more, t, hparse⟩ := hf
    obtain ⟨ls, ws, eof, hmore, -⟩ := Parser.ofTokens_spec more source
    have hfront : ∀ l ∈ taken ++ [⟨blanks, token⟩], l.Tidy ∧ l.kind ≠ .eof :=
      List.forall_mem_append.2 ⟨h.tidy, List.forall_mem_singleton.2 ⟨⟨h.blank, htoken⟩, hend⟩⟩
    have hparser : Parser.ofTokens (taken.flatMap Leaf.tokens ++ blanks ++ token :: more) source =
        ⟨[], taken ++ ⟨blanks, token⟩ :: ls, ws, eof⟩ := by
      have hfrontmore := Parser.ofTokens_append hfront more source
      rw [hmore] at hfrontmore
      simpa [Leaf.tokens] using hfrontmore
    exact not_rejects_of_parse hparser hparse (h.stuck.rejects hs hset hnot)

/-- Where it is not settled what may follow, something else could come next. -/
theorem exists_couldFollow (h : Stop source e taken blanks rest s) (hset : ¬ s.Settled taken) :
    ∃ token : Token, token.kind ≠ .whitespace ∧ token.kind ∉ s.expected ∧
      CouldFollow source (taken.flatMap Leaf.tokens ++ blanks) token := by
  have htaken : taken ≠ [] := by
    rintro rfl
    rw [h.stuck.eq_of_nil] at hset
    exact hset trivial
  cases s with
  | operand =>
    obtain ⟨more, hc⟩ := h.mendable.missed htaken hset _ List.mem_cons_self
    exact ⟨⟨.leftBrace, none, default, ""⟩, nofun, by decide, h.couldFollow_of_completes hc⟩
  | argumentEnd =>
    obtain ⟨more, hc⟩ := h.mendable.missed htaken hset _ List.mem_cons_self
    exact ⟨⟨.plus, none, default, ""⟩, nofun, by decide, h.couldFollow_of_completes hc⟩
  | fixed | tooDeep => exact absurd trivial hset

end Stop

/-- The innermost open rule and the last token tell whether it is settled what may follow. -/
theorem Tree.Site.settled_iff {s : Site} {rules : List Rule} (h : s.AskedIn rules)
    (hs : s ≠ .tooDeep) (taken : List Leaf) :
    s.Settled taken ↔ (rules.getLast? = some .element → EndsIn signs taken) ∧
      (rules.getLast? = some .argumentList → EndsIn [.rightBrace] taken) := by
  cases s with
  | operand => simp [AskedIn] at h; simp [Settled, h]
  | argumentEnd => simp [AskedIn] at h; simp [Settled, h]
  | fixed kinds =>
    obtain ⟨rule, hrule, hne⟩ := h
    simp_all [Settled]
  | tooDeep => exact absurd rfl hs

theorem Stop.expected_eq {source : Source} {e : SyntaxError} {taken : List Leaf}
    {blanks rest : List Token} {s : Tree.Site} (h : Stop source e taken blanks rest s)
    (hd : e.depthLimit = none) : s ≠ .tooDeep ∧ e.expected = s.expected := by
  obtain ⟨obstacle, found, rules⟩ := e
  obtain rfl : obstacle = s.obstacle := h.obstacle
  cases s with
  | tooDeep => cases hd
  | _ => exact ⟨nofun, rfl⟩

/-- Every expected kind could come next. That no other kind could is so if and only if an operand
is missing only behind a sign and the end of an argument only behind a block. -/
theorem expected_exact_iff {ts : List Token} {source : Source} {e : SyntaxError}
    (hts : ∀ t ∈ ts, t.kind ≠ .eof) (h : parse ts source = .error e) (hd : e.depthLimit = none) :
    ∃ i, FailsAt ts source e i ∧
      (∀ token : Token, token.kind ∈ e.expected → CouldFollow source (ts.take i) token) ∧
      ((∀ token : Token, token.kind ≠ .whitespace → CouldFollow source (ts.take i) token →
          token.kind ∈ e.expected) ↔
        (e.rules.getLast? = some .element →
          LastIn [.plus, .minus, .star, .slash] (ts.take i)) ∧
        (e.rules.getLast? = some .argumentList → LastIn [.rightBrace] (ts.take i))) := by
  obtain ⟨taken, blanks, rest, s, rfl, hstop⟩ := exists_stop hts h
  obtain ⟨hs, hexpected⟩ := hstop.expected_eq hd
  refine ⟨_, hstop.failsAt, ?_⟩
  rw [List.take_left, hexpected, hstop.lastIn_iff, hstop.lastIn_iff]
  refine ⟨fun token ht => hstop.couldFollow_of_expected ht, ?_⟩
  have hsettled := Tree.Site.settled_iff hstop.asked hs taken
  rw [Tree.signs] at hsettled
  rw [← hsettled]
  constructor
  · intro hexact
    by_contra hset
    obtain ⟨token, hblank, hnot, hf⟩ := hstop.exists_couldFollow hset
    exact hnot (hexact token hblank hf)
  · exact fun hset token ht hf => hstop.expected_of_couldFollow hs hset ht hf

theorem expected_exact_iff_sample :
    (∀ t ∈ straySemicolon, t.kind ≠ .eof) ∧
      parse straySemicolon ⟨"sample", ""⟩ = .error straySemicolonError ∧
      straySemicolonError.depthLimit = none ∧
      ∃ i, FailsAt straySemicolon ⟨"sample", ""⟩ straySemicolonError i ∧
        (∀ token : Token, token.kind ∈ straySemicolonError.expected →
          CouldFollow ⟨"sample", ""⟩ (straySemicolon.take i) token) ∧
        ((∀ token : Token, token.kind ≠ .whitespace →
            CouldFollow ⟨"sample", ""⟩ (straySemicolon.take i) token →
            token.kind ∈ straySemicolonError.expected) ↔
          (straySemicolonError.rules.getLast? = some .element →
            LastIn [.plus, .minus, .star, .slash] (straySemicolon.take i)) ∧
          (straySemicolonError.rules.getLast? = some .argumentList →
            LastIn [.rightBrace] (straySemicolon.take i))) := by
  have hend : ∀ t ∈ straySemicolon, t.kind ≠ .eof := by decide
  exact ⟨hend, parse_straySemicolon, rfl, expected_exact_iff hend parse_straySemicolon rfl⟩

private theorem couldFollow_rightBrace :
    CouldFollow ⟨"sample", ""⟩ (straySemicolon.take 7) (plainToken .rightBrace) := by
  let leaves := (openBlock ++ ([.rightBrace, .eof] : List Token.Kind)).map plainLeaf
  have hlang : Tree.ProgramLang maxDepth leaves :=
    (Tree.frame_function (List.forall_mem_nil _)).completes Tree.completes_function leaves rfl
  obtain ⟨t, hparse⟩ := exists_parse_of_programLang hlang (by decide) ⟨"sample", ""⟩
  exact ⟨[plainToken .eof], t, hparse⟩

/-- The expected kinds need not be all that could come next: where a block has just been opened,
only a number or a name is asked for. -/
theorem not_expected_exact :
    ¬ ∀ (ts : List Token) (source : Source) (e : SyntaxError), (∀ t ∈ ts, t.kind ≠ .eof) →
      parse ts source = .error e → e.depthLimit = none →
      ∃ i, FailsAt ts source e i ∧ ∀ token : Token, token.kind ≠ .whitespace →
        (token.kind ∈ e.expected ↔ CouldFollow source (ts.take i) token) := by
  intro h
  obtain ⟨i, hfails, hexact⟩ := h _ _ _ (by decide) parse_straySemicolon rfl
  obtain rfl : i = 7 := by
    obtain ⟨hfound, -⟩ | ⟨-, hfound⟩ := hfails
    · have hi : i < 9 := (List.getElem?_eq_some_iff.1 hfound).1
      have honly : ∀ i < 9, straySemicolon[i]? = some straySemicolonError.found → i = 7 := by
        decide
      exact honly i hi hfound
    · exact absurd (congrArg Token.kind hfound) (by decide)
  have hbrace := (hexact (plainToken .rightBrace) (by decide)).2 couldFollow_rightBrace
  exact absurd hbrace (by decide)

end FunImp
