import FunImp.Proofs.Grammar.Completing
import FunImp.Proofs.Layout.Irrelevant
import FunImp.Proofs.Lexing.Placed
import FunImp.Proofs.Lowering.Leaves

/-! # One text behind another

The text of a program ends with a brace or with white space, so nothing but white space can grow
together where the text of another program follows. Both texts as one have the functions of the
first and then those of the second, with numbers that go on from the first to the second. -/

namespace FunImp

namespace Lexer

theorem written_nil : written [] = [] := rfl

theorem written_cons (l : Lexeme) (ls : List Lexeme) : written (l :: ls) = l.chars ++ written ls :=
  List.flatMap_cons

/-- Nothing can carry on the last lexeme but white space. -/
def Closed (ls : List Lexeme) : Prop :=
  ∀ l ∈ ls.getLast?, l.kind ∈ [.whitespace, .rightBrace]

/-- A lexeme that nothing but white space carries on stands in front of any text. If it is white
space itself, it takes in the white space there. -/
theorem exists_normal_cons {l : Lexeme} {ms : List Lexeme} (hl : l.kind.Spells l.chars)
    (hkind : l.kind ∈ [.whitespace, .rightBrace]) (hm : Normal ms) :
    ∃ ns, Normal ns ∧ written ns = l.chars ++ written ms ∧
      ns.filter (!·.isWhitespace) = (l :: ms).filter (!·.isWhitespace) := by
  by_cases hapart : ∀ next ∈ ms.head?, ¬l.kind.Merges next.kind
  · have hstop := (carriedOn_iff hm.spelt l.kind).2 hapart
    exact ⟨l :: ms, normal_cons_iff.2 ⟨hl, hstop, hm⟩, written_cons l ms, rfl⟩
  · obtain ⟨kind, chars⟩ := l
    cases ms with
    | nil => simp at hapart
    | cons m ms =>
      rcases List.mem_pair.1 hkind with rfl | rfl
      · obtain ⟨nextKind, blanks⟩ := m
        obtain rfl : nextKind = .whitespace := by simpa [Token.Kind.Merges] using hapart
        obtain ⟨hspells, hstop, hms⟩ := normal_cons_iff.1 hm
        have hboth : Token.Kind.whitespace.Spells (chars ++ blanks) :=
          ⟨by simp [hl.1], List.forall_mem_append.2 ⟨hl.2, hspells.2⟩⟩
        refine ⟨⟨.whitespace, chars ++ blanks⟩ :: ms, normal_cons_iff.2 ⟨hboth, hstop, hms⟩, ?_,
          rfl⟩
        rw [written_cons, written_cons, List.append_assoc]
      · simp [Token.Kind.Merges] at hapart

/-- Texts are joined without changing their lexemes, white space aside. -/
theorem exists_normal_append {ls ms : List Lexeme} (hl : Normal ls) (hc : Closed ls)
    (hm : Normal ms) :
    ∃ ns, Normal ns ∧ written ns = written ls ++ written ms ∧
      ns.filter (!·.isWhitespace) =
        ls.filter (!·.isWhitespace) ++ ms.filter (!·.isWhitespace) := by
  induction ls with
  | nil => exact ⟨ms, hm, rfl, rfl⟩
  | cons l ls ih =>
    obtain ⟨hspells, hstop, hls⟩ := normal_cons_iff.1 hl
    cases ls with
    | nil =>
      obtain ⟨ns, hns, hwritten, hfilter⟩ := exists_normal_cons hspells (hc l rfl) hm
      refine ⟨ns, hns, ?_, ?_⟩
      · rw [hwritten, written_cons, written_nil, List.append_nil]
      · rw [hfilter, ← List.filter_append]
        rfl
    | cons next ls =>
      obtain ⟨ns, hns, hwritten, hfilter⟩ := ih hls fun l hl => hc l (by simpa using hl)
      have hnonempty : written (next :: ls) ≠ [] := by
        intro hnil
        obtain ⟨hchars, -⟩ := List.append_eq_nil_iff.1 (written_cons next ls ▸ hnil)
        exact next.kind.not_spells_nil (hchars ▸ hls.spelt next List.mem_cons_self)
      have hstop' : ∀ c ∈ (written ns).head?, l.kind.carriedOnBy c = false := by
        rwa [hwritten, List.head?_append_of_ne_nil _ hnonempty]
      refine ⟨l :: ns, normal_cons_iff.2 ⟨hspells, hstop', hns⟩, ?_, ?_⟩
      · rw [written_cons, hwritten, written_cons l, List.append_assoc]
      · rw [List.filter_cons, List.filter_cons, hfilter]
        split <;> rfl

end Lexer

open Lexer

/-- The lexemes of a source and the functions it is read as, with the leaf of its end. -/
structure Source.Reading (source : Source) (ls : List Lexeme) (fs : List Tree) (eof : Leaf) :
    Prop where
  normal : Normal ls
  chars : source.chars = written ls
  functions : ∀ f ∈ fs, f.IsFunction
  depth : ∀ f ∈ fs, f.ruleDepth < maxDepth
  tidy : ∀ l ∈ Tree.forestLeaves fs, l.Tidy
  same : (ls.filter (!·.isWhitespace)).map Lexeme.spelling =
    (Tree.forestLeaves fs).map (·.token.spelling)
  spelling : eof.token.spelling = (.eof, none)
  blanks : ∀ w ∈ eof.leading, w.kind = .whitespace

theorem Tree.IsFunction.endsIn {t : Tree} (h : t.IsFunction) : EndsIn [.rightBrace] t.leaves := by
  cases h with
  | @impure keyword rest hk hr =>
    obtain ⟨name, params, colon, type, body, rfl, -, -, -, -, hbody⟩ := hr
    have hends : EndsIn [.rightBrace] body.leaves := hbody.ends
    exact @endsIn_node _ _ [keyword, name, params, colon, type] _ hends
  | @pure keyword rest hk hr =>
    obtain ⟨name, params, colon, type, body, rfl, -, -, -, -, hbody⟩ := hr
    have hends : EndsIn [.rightBrace] body.leaves := hbody.ends
    simpa using @endsIn_node .pureFunction _ (keyword.toList ++ [name, params, colon, type]) _ hends

theorem Tree.endsIn_forestLeaves {fs : List Tree} (h : ∀ f ∈ fs, f.IsFunction) (hne : fs ≠ []) :
    EndsIn [.rightBrace] (forestLeaves fs) := by
  obtain ⟨init, f, rfl⟩ := (List.eq_nil_or_concat' fs).resolve_left hne
  have hf := (h f (List.mem_append_right _ (List.mem_singleton.2 rfl))).endsIn
  simpa [forestLeaves] using hf.prepend (forestLeaves init)

theorem Tree.WellFormed.significant_tokens {t : Tree} (h : t.WellFormed) :
    significant t.tokens = t.leaves.map (·.token.spelling) := by
  rw [significant, h.isProgram.tokens_eq, Leaf.filter_tokens h.tidy, List.map_map]
  rfl

theorem Tree.leaves_program (fs : List Tree) (eof : Leaf) :
    (node .program (fs ++ [ofLeaf eof])).leaves = forestLeaves fs ++ [eof] := by
  simp [leaves, forestLeaves]

namespace Source

variable {source : Source} {ls : List Lexeme} {fs : List Tree} {eof : Leaf}

theorem exists_reading {ts : List Token} {t : Tree} (hlex : lex source = .ok ts)
    (hparse : parse ts source = .ok t) :
    ∃ ls fs eof, t = .node .program (fs ++ [.ofLeaf eof]) ∧ source.Reading ls fs eof := by
  obtain ⟨hwf, hdepth, htokens⟩ := wellFormed_of_parse_eq_ok hparse
  rw [(laidOut_of_lex hlex).2.2] at htokens
  have hsignificant := hwf.significant_tokens
  obtain ⟨fs, leading, eof, rfl, hfunctions, -, hleading, hleaves, -⟩ := hwf.split
  obtain ⟨ls, hreads, rfl⟩ := lex_eq_ok_iff.1 hlex
  obtain ⟨hnormal, hchars⟩ := reads_iff.1 hreads
  rw [htokens, significant_of_spelling (map_spelling_place _ _ _), Tree.leaves_program,
    List.map_append] at hsignificant
  obtain ⟨hsame, heof⟩ := List.append_inj' hsignificant rfl
  have hdepths : ∀ f ∈ fs, f.ruleDepth ≤ 127 := fun f hf =>
    (Tree.ruleDepth_node_le_succ rfl).1 hdepth f (List.mem_append_left _ hf)
  exact ⟨ls, fs, ⟨leading, eof⟩, rfl, hnormal, hchars, hfunctions,
    fun f hf => Nat.lt_succ_of_le (hdepths f hf), fun l hl => (hleaves l hl).1, hsame,
    (List.singleton_inj.1 heof).symm, hleading⟩

namespace Reading

/-- The last token is white space or a brace. -/
theorem closed (h : source.Reading ls fs eof) : Closed ls := by
  intro l hl
  by_cases hblank : l.kind = .whitespace
  · exact List.mem_pair.2 (.inl hblank)
  · obtain ⟨init, rfl⟩ := List.getLast?_eq_some_iff.1 hl
    have hkept : l.isWhitespace = false := decide_eq_false hblank
    have hsame := h.same
    rw [List.filter_append, List.filter_cons_of_pos (by simp [hkept])] at hsame
    have hne : fs ≠ [] := by
      rintro rfl
      simp [Tree.forestLeaves] at hsame
    obtain ⟨m, hm, hkind⟩ := Tree.endsIn_forestLeaves h.functions hne
    obtain ⟨front, hfront⟩ := List.getLast?_eq_some_iff.1 hm
    rw [hfront, List.map_append, List.map_append] at hsame
    have hlast : l.spelling = m.token.spelling :=
      List.singleton_inj.1 (List.append_inj' hsame rfl).2
    have hkinds : l.kind = m.kind := congrArg Prod.fst hlast
    exact List.mem_cons_of_mem _ (hkinds ▸ hkind)

theorem exists_tree (h : source.Reading ls fs eof) :
    ∃ ts t, lex source = .ok ts ∧ parse ts source = .ok t ∧
      t.bare = (Tree.node .program (fs ++ [.ofLeaf eof])).bare := by
  have hlex := lex_of_reads (reads_iff.2 ⟨h.normal, h.chars⟩)
  have hkind : eof.token.kind = .eof := congrArg Prod.fst h.spelling
  have hwf := Tree.wellFormed_program h.functions hkind h.blanks h.tidy
  have hdepth : (Tree.node .program (fs ++ [.ofLeaf eof])).ruleDepth ≤ maxDepth :=
    (Tree.ruleDepth_node_le_succ rfl).2 (List.forall_mem_append.2
      ⟨fun f hf => Nat.le_of_lt_succ (h.depth f hf), by simp⟩)
  have hparse := parse_eq_ok_of_wellFormed hwf hdepth (hwf.throughEnd_tokens source).symm
  have hsignificant : significant (place source.id .origin ls) =
      significant (Tree.node .program (fs ++ [.ofLeaf eof])).tokens := by
    rw [significant_of_spelling (map_spelling_place _ _ _), hwf.significant_tokens,
      Tree.leaves_program, List.map_append, h.same, List.map_singleton, h.spelling]
  have hbare : Parser.bareAnswer (parse (place source.id .origin ls) source) =
      Parser.bareAnswer (parse (Tree.node .program (fs ++ [.ofLeaf eof])).tokens source) :=
    parse_bare (skeleton_eq_of_significant hsignificant)
  rw [hparse] at hbare
  cases hread : parse (place source.id .origin ls) source with
  | error e =>
    rw [hread] at hbare
    cases hbare
  | ok t =>
    rw [hread] at hbare
    exact ⟨_, t, hlex, hread, Except.ok.inj hbare⟩

/-- Two sources joined are read as the functions of the first and those of the second. -/
theorem append {a b : Source} {ms : List Lexeme} {gs : List Tree} {eof' : Leaf}
    (ha : a.Reading ls fs eof) (hb : b.Reading ms gs eof') (id : String) :
    ∃ ns, Reading ⟨id, a.text ++ b.text⟩ ns (fs ++ gs) eof' := by
  obtain ⟨ns, hnormal, hwritten, hfilter⟩ := exists_normal_append ha.normal ha.closed hb.normal
  refine ⟨ns, hnormal, ?_, List.forall_mem_append.2 ⟨ha.functions, hb.functions⟩,
    List.forall_mem_append.2 ⟨ha.depth, hb.depth⟩, ?_, ?_, hb.spelling, hb.blanks⟩
  · rw [hwritten, ← ha.chars, ← hb.chars]
    exact String.toList_append
  · rw [Tree.forestLeaves_append]
    exact List.forall_mem_append.2 ⟨ha.tidy, hb.tidy⟩
  · rw [hfilter, Tree.forestLeaves_append, List.map_append, List.map_append, ha.same, hb.same]

end Reading

end Source

/-- The functions of two trees in a row are lowered to the functions of one program and those of
the other, which has the numbers behind those of the first. -/
theorem Tree.returns_toProgram_append {fs gs : List Tree} {eof eof' : Leaf} {p q : Program}
    {s s' s'' : NodeId} (hp : Returns (node .program (fs ++ [ofLeaf eof])).toProgram s p s')
    (hq : Returns (node .program (gs ++ [ofLeaf eof'])).toProgram s' q s'') :
    Returns (node .program (fs ++ gs ++ [ofLeaf eof'])).toProgram s
      ⟨p.functions ++ q.functions, q.eof⟩ s'' := by
  obtain ⟨row, htree, hrow, hs, hfunctions, -⟩ := returns_toProgram_iff.1 hp
  obtain ⟨row', htree', hrow', hs', hfunctions', heof⟩ := returns_toProgram_iff.1 hq
  obtain ⟨rfl, -⟩ := List.append_inj' (node.inj htree).2 rfl
  obtain ⟨rfl, hend⟩ := List.append_inj' (node.inj htree').2 rfl
  refine returns_toProgram_iff.2 ⟨row ++ row', ?_, List.forall_mem_append.2 ⟨hrow, hrow'⟩,
    hs.append hs', ?_, heof⟩
  · rw [List.map_append, hend]
  · rw [List.map_append, hfunctions, hfunctions']

/-- Programs compose by joining their texts. If two texts can be read, so can both as one text,
and whatever the next number is, it is lowered to the functions of the first text and those of the
second one, white space and places aside, with the numbers that they get one after the other. -/
theorem program_of_text_append {a b : Source} {ts us : List Token} {t u : Tree}
    (hts : lex a = .ok ts) (ht : parse ts a = .ok t) (hus : lex b = .ok us)
    (hu : parse us b = .ok u) (id : String) :
    ∃ vs v, lex ⟨id, a.text ++ b.text⟩ = .ok vs ∧ parse vs ⟨id, a.text ++ b.text⟩ = .ok v ∧
      ∀ s, ∃ p q r s' s'', Returns t.toProgram s p s' ∧ Returns u.toProgram s' q s'' ∧
        Returns v.toProgram s r s'' ∧
        r.functions.map (FunctionDecl.mapLeaves Leaf.bare) =
          (p.functions ++ q.functions).map (FunctionDecl.mapLeaves Leaf.bare) := by
  have htree := (wellFormed_of_parse_eq_ok ht).1.isProgram
  have hutree := (wellFormed_of_parse_eq_ok hu).1.isProgram
  obtain ⟨ls, fs, eof, rfl, ha⟩ := Source.exists_reading hts ht
  obtain ⟨ms, gs, eof', rfl, hb⟩ := Source.exists_reading hus hu
  obtain ⟨ns, hboth⟩ := ha.append hb id
  obtain ⟨vs, v, hvs, hv, hbare⟩ := hboth.exists_tree
  refine ⟨vs, v, hvs, hv, fun s => ?_⟩
  obtain ⟨p, s', hp⟩ := htree.exists_returns s
  obtain ⟨q, s'', hq⟩ := hutree.exists_returns s'
  obtain ⟨r, n, hr⟩ := (wellFormed_of_parse_eq_ok hv).1.isProgram.exists_returns s
  have hjoined := Tree.toProgram_bare (Tree.returns_toProgram_append hp hq)
  have hread := Tree.toProgram_bare hr
  rw [hbare] at hread
  obtain ⟨hprogram, rfl⟩ := hread.unique hjoined
  have hfunctions := congrArg Program.functions hprogram
  exact ⟨p, q, r, s', n, hp, hq, hr, hfunctions⟩

private def pureText : Source := ⟨"pure", "fun f(x: int): int \x7b x + 1 \x7d"⟩

private def impureText : Source := ⟨"impure", "imp main(): void \x7b print(f(2)); \x7d"⟩

private def bothTexts : Source := ⟨"both", pureText.text ++ impureText.text⟩

/-- The name of a function and the number of its body. -/
private def numbered (f : FunctionDecl) : String × NodeId := (f.name.text, f.body.id)

private theorem numbered_bare (f : FunctionDecl) :
    numbered (f.mapLeaves Leaf.bare) = numbered f := by
  obtain ⟨keyword, name, ps, result, body⟩ := f
  cases body <;> rfl

/-- The functions of the second text get the numbers behind those of the first one. -/
theorem program_of_text_append_sample :
    ∃ ts us t u vs v p q r s s', lex pureText = .ok ts ∧ parse ts pureText = .ok t ∧
      lex impureText = .ok us ∧ parse us impureText = .ok u ∧
      lex bothTexts = .ok vs ∧ parse vs bothTexts = .ok v ∧
      Returns t.toProgram 0 p s ∧ Returns u.toProgram s q s' ∧ lower v = .ok r ∧
      p.functions.map numbered = [("f", 4)] ∧ q.functions.map numbered = [("main", 12)] ∧
      r.functions.map numbered = [("f", 4), ("main", 12)] ∧
      r.nodes.map Expr.id = List.range 13 ∧
      r.functions.map (FunctionDecl.mapLeaves Leaf.bare) =
        (p.functions ++ q.functions).map (FunctionDecl.mapLeaves Leaf.bare) := by
  have hpure : pureText.read?.map (fun r => r.2.functions.map numbered) = some [("f", 4)] := by
    decide +kernel
  have himpure : impureText.read?.map (fun _ => ()) = some () := by decide +kernel
  have hboth : bothTexts.read?.map (fun r => (r.2.functions.map numbered, r.2.nodes.map Expr.id)) =
      some ([("f", 4), ("main", 12)], List.range 13) := by decide +kernel
  obtain ⟨ts, t, p, hts, ht, hp, hfirst⟩ := Source.exists_of_map_read? hpure
  obtain ⟨us, u, -, hus, hu, -, -⟩ := Source.exists_of_map_read? himpure
  obtain ⟨vs, v, r, hvs, hv, hr, hjoined⟩ := Source.exists_of_map_read? hboth
  obtain ⟨hnumbers, hids⟩ := Prod.mk.inj hjoined
  obtain ⟨vs', v', hvs', hv', hlower⟩ := program_of_text_append hts ht hus hu "both"
  obtain rfl := Except.ok.inj (hvs.symm.trans hvs')
  obtain rfl := Except.ok.inj (hv.symm.trans hv')
  obtain ⟨p', q, r', s, s', hp', hq, hr', hfunctions⟩ := hlower 0
  obtain rfl := Except.ok.inj (hp.symm.trans (lower_eq_ok_iff.2 ⟨s, hp'⟩))
  obtain rfl := Except.ok.inj (hr.symm.trans (lower_eq_ok_iff.2 ⟨s', hr'⟩))
  have hsecond : q.functions.map numbered = [("main", 12)] := by
    have hall := congrArg (List.map numbered) hfunctions
    simp only [List.map_map, Function.comp_def, numbered_bare, List.map_append] at hall
    rw [hfirst, hnumbers] at hall
    exact (List.cons.inj hall).2.symm
  exact ⟨ts, us, t, u, vs, v, p, q, r, s, s', hts, ht, hus, hu, hvs, hv, hp', hq, hr, hfirst,
    hsecond, hnumbers, hids, hfunctions⟩

end FunImp
