import FunImp.Proofs.Lexing.Marked
import FunImp.Proofs.Outline.Sketches
import FunImp.Proofs.Program.Spans

/-! # Outlines of programs

The outline of a program says as much as its sketch: the functions with their signatures, and the
shape of their bodies. A heading tells the signature, since names have no white space or signs in
them. -/

namespace FunImp

def Alphanumeric (text : String) : Prop := ∀ c ∈ text.toList, c.isAlphanum

/-- Words in front of other characters are cut off in one way. -/
theorem cut_word {a a' b b' : List Char} {c c' : Char} (ha : ∀ x ∈ a, x.isAlphanum)
    (ha' : ∀ x ∈ a', x.isAlphanum) (hc : c.isAlphanum = false) (hc' : c'.isAlphanum = false)
    (h : a ++ c :: b = a' ++ c' :: b') : a = a' ∧ c = c' ∧ b = b' := by
  induction a generalizing a' with
  | nil =>
    cases a' with
    | nil => exact ⟨rfl, List.cons.inj h⟩
    | cons x a' =>
      obtain rfl := (List.cons.inj h).1
      exact absurd (ha' _ List.mem_cons_self) (by simp [hc])
  | cons x a ih =>
    obtain ⟨hx, ha⟩ := List.forall_mem_cons.1 ha
    cases a' with
    | nil =>
      obtain rfl := (List.cons.inj h).1
      exact absurd hx (by simp [hc'])
    | cons x' a' =>
      obtain ⟨rfl, htail⟩ := List.cons.inj h
      obtain ⟨rfl, hrest⟩ := ih ha (List.forall_mem_cons.1 ha').2 htail
      exact ⟨rfl, hrest⟩

namespace FunctionSketch

/-- The names of the function are words. -/
structure Named (f : FunctionSketch) : Prop where
  name : Alphanumeric f.name
  parameters : ∀ q ∈ f.parameters, Alphanumeric q.1 ∧ Alphanumeric q.2
  result : Alphanumeric f.result

def parameterText (q : String × String) : String := q.1 ++ ": " ++ q.2

/-- The signature in one line. -/
def heading (f : FunctionSketch) : String :=
  f.purity.keyword ++ " " ++ f.name ++ "(" ++
    ", ".intercalate (f.parameters.map parameterText) ++ "): " ++ f.result

/-- Parameters as they are told behind another one. -/
def furtherText (qs : List (String × String)) : List Char :=
  qs.flatMap fun q => ',' :: ' ' :: (parameterText q).toList

theorem toList_intercalate_cons (q : String × String) (qs : List (String × String)) :
    (", ".intercalate ((q :: qs).map parameterText)).toList =
      (parameterText q).toList ++ furtherText qs := by
  induction qs generalizing q with
  | nil => simp [furtherText, String.intercalate_singleton]
  | cons r qs ih =>
    have hr := ih r
    rw [List.map_cons] at hr
    rw [List.map_cons, List.map_cons, String.intercalate_cons_cons, String.toList_append, hr]
    simp [furtherText]

/-- Behind a parameter stands a comma or a parenthesis. -/
theorem exists_furtherText_eq (qs : List (String × String)) (rest : List Char) :
    ∃ c b, c.isAlphanum = false ∧ furtherText qs ++ ')' :: rest = c :: b := by
  cases qs with
  | nil => exact ⟨')', rest, rfl, rfl⟩
  | cons q qs => exact ⟨',', _, rfl, rfl⟩

section Parameters

variable {qs qs' : List (String × String)} {rest rest' : List Char}

theorem furtherText_injective (h : ∀ q ∈ qs, Alphanumeric q.1 ∧ Alphanumeric q.2)
    (h' : ∀ q ∈ qs', Alphanumeric q.1 ∧ Alphanumeric q.2)
    (htext : furtherText qs ++ ')' :: rest = furtherText qs' ++ ')' :: rest') :
    qs = qs' ∧ rest = rest' := by
  induction qs generalizing qs' with
  | nil =>
    cases qs' with
    | nil => exact ⟨rfl, (List.cons.inj htext).2⟩
    | cons q' qs' => exact absurd (List.cons.inj htext).1 (by decide)
  | cons q qs ih =>
    cases qs' with
    | nil => exact absurd (List.cons.inj htext).1 (by decide)
    | cons q' qs' =>
      obtain ⟨⟨hname, htype⟩, hqs⟩ := List.forall_mem_cons.1 h
      obtain ⟨⟨hname', htype'⟩, hqs'⟩ := List.forall_mem_cons.1 h'
      have hparameter :
          q.1.toList ++ ':' :: ' ' :: (q.2.toList ++ (furtherText qs ++ ')' :: rest)) =
            q'.1.toList ++ ':' :: ' ' :: (q'.2.toList ++ (furtherText qs' ++ ')' :: rest')) := by
        simpa [furtherText, parameterText] using htext
      obtain ⟨hnames, -, hbehind⟩ := cut_word hname hname' rfl rfl hparameter
      have htypeText := (List.cons.inj hbehind).2
      obtain ⟨c, b, hc, hb⟩ := exists_furtherText_eq qs rest
      obtain ⟨c', b', hc', hb'⟩ := exists_furtherText_eq qs' rest'
      have htypes : q.2.toList = q'.2.toList := by
        rw [hb, hb'] at htypeText
        exact (cut_word htype htype' hc hc' htypeText).1
      rw [htypes] at htypeText
      obtain ⟨rfl, hrest⟩ := ih hqs hqs' (List.append_cancel_left htypeText)
      have hq : q = q' := Prod.ext (String.toList_injective hnames) (String.toList_injective htypes)
      exact ⟨congrArg (· :: qs) hq, hrest⟩

/-- A list with a parameter does not start with the closing parenthesis. -/
theorem intercalate_cons_ne {q : String × String} (h : Alphanumeric q.1) :
    (", ".intercalate ((q :: qs).map parameterText)).toList ++ ')' :: rest ≠ ')' :: rest' := by
  intro htext
  have hparameter : q.1.toList ++ ':' :: ' ' :: (q.2.toList ++ (furtherText qs ++ ')' :: rest)) =
      [] ++ ')' :: rest' := by
    rw [toList_intercalate_cons] at htext
    simpa [parameterText] using htext
  obtain ⟨-, hcolon, -⟩ := cut_word h (List.forall_mem_nil _) rfl rfl hparameter
  exact absurd hcolon (by decide)

/-- What stands between the parentheses tells the parameters. -/
theorem intercalate_injective (h : ∀ q ∈ qs, Alphanumeric q.1 ∧ Alphanumeric q.2)
    (h' : ∀ q ∈ qs', Alphanumeric q.1 ∧ Alphanumeric q.2)
    (htext : (", ".intercalate (qs.map parameterText)).toList ++ ')' :: rest =
      (", ".intercalate (qs'.map parameterText)).toList ++ ')' :: rest') :
    qs = qs' ∧ rest = rest' := by
  cases qs with
  | nil =>
    cases qs' with
    | nil => exact ⟨rfl, (List.cons.inj htext).2⟩
    | cons q' qs' => exact absurd htext.symm (intercalate_cons_ne (h' q' List.mem_cons_self).1)
  | cons q qs =>
    cases qs' with
    | nil => exact absurd htext (intercalate_cons_ne (h q List.mem_cons_self).1)
    | cons q' qs' =>
      rw [toList_intercalate_cons, toList_intercalate_cons] at htext
      refine furtherText_injective h h' ?_
      simpa [furtherText] using htext

end Parameters

theorem toList_heading (f : FunctionSketch) :
    f.heading.toList = f.purity.keyword.toList ++ ' ' :: (f.name.toList ++ '(' ::
      ((", ".intercalate (f.parameters.map parameterText)).toList ++
        ')' :: ':' :: ' ' :: f.result.toList)) := by
  simp [heading]

theorem eq_of_heading_eq {f g : FunctionSketch} (hf : f.Named) (hg : g.Named)
    (h : f.heading = g.heading) :
    f.purity = g.purity ∧ f.name = g.name ∧ f.parameters = g.parameters ∧ f.result = g.result := by
  have hkeyword (p : Purity) : Alphanumeric p.keyword := by
    cases p <;> simp [Alphanumeric, Purity.keyword]
  have hpurities : Function.Injective Purity.keyword := by
    intro p p' hp
    cases p <;> cases p' <;> simp_all [Purity.keyword]
  have hchars : f.heading.toList = g.heading.toList := congrArg String.toList h
  rw [toList_heading, toList_heading] at hchars
  obtain ⟨hpurity, -, hbehind⟩ := cut_word (hkeyword _) (hkeyword _) rfl rfl hchars
  obtain ⟨hname, -, hbehind⟩ := cut_word hf.name hg.name rfl rfl hbehind
  obtain ⟨hparameters, hresult⟩ := intercalate_injective hf.parameters hg.parameters hbehind
  exact ⟨hpurities (String.toList_injective hpurity), String.toList_injective hname, hparameters,
    String.toList_injective (List.cons.inj (List.cons.inj hresult).2).2⟩

theorem newline_not_mem_heading {f : FunctionSketch} (h : f.Named) :
    '\n' ∉ f.heading.toList := by
  have hword {text : String} (ht : Alphanumeric text) : '\n' ∉ text.toList := fun hmem =>
    absurd (ht _ hmem) (by decide)
  have hkeyword : '\n' ∉ f.purity.keyword.toList := by
    cases f.purity <;> simp [Purity.keyword]
  have hparameter : ∀ q ∈ f.parameters, '\n' ∉ (parameterText q).toList := fun q hq => by
    simp [parameterText, hword (h.parameters q hq).1, hword (h.parameters q hq).2]
  have hparameters : '\n' ∉ (", ".intercalate (f.parameters.map parameterText)).toList := by
    cases hqs : f.parameters with
    | nil => simp
    | cons q qs =>
      rw [hqs] at hparameter
      obtain ⟨hq, hqs⟩ := List.forall_mem_cons.1 hparameter
      rw [toList_intercalate_cons, List.mem_append, not_or, furtherText, List.mem_flatMap]
      refine ⟨hq, fun ⟨r, hr, hmem⟩ => ?_⟩
      simp [hqs r hr] at hmem
  rw [toList_heading]
  simp only [List.mem_append, List.mem_cons, hkeyword, hword h.name, hparameters, hword h.result,
    Char.reduceEq, or_self, not_false_eq_true]

def outline (last : Bool) (f : FunctionSketch) : Outline :=
  .node f.heading last [f.body.outline true]

def outlines : List FunctionSketch → List Outline
  | [] => []
  | f :: fs => f.outline fs.isEmpty :: outlines fs

theorem eq_of_outline_eq {f g : FunctionSketch} (hf : f.Named) (hg : g.Named) {last last' : Bool}
    (h : f.outline last = g.outline last') : f = g := by
  rw [outline, outline, Outline.node.injEq] at h
  obtain ⟨hheading, -, hbodies⟩ := h
  obtain ⟨hpurity, hname, hparameters, hresult⟩ := eq_of_heading_eq hf hg hheading
  have hbody : f.body = g.body := Sketch.eq_of_outline_eq _ _ _ _ (List.cons.inj hbodies).1
  calc f = ⟨f.purity, f.name, f.parameters, f.result, f.body⟩ := rfl
    _ = ⟨g.purity, g.name, g.parameters, g.result, g.body⟩ := by
      rw [hpurity, hname, hparameters, hresult, hbody]

theorem outlines_injective {fs gs : List FunctionSketch} (hf : ∀ f ∈ fs, f.Named)
    (hg : ∀ g ∈ gs, g.Named) (h : outlines fs = outlines gs) : fs = gs := by
  induction fs generalizing gs with
  | nil =>
    cases gs with
    | nil => rfl
    | cons => cases h
  | cons f fs ih =>
    cases gs with
    | nil => cases h
    | cons g gs =>
      obtain ⟨hf, hfs⟩ := List.forall_mem_cons.1 hf
      obtain ⟨hg, hgs⟩ := List.forall_mem_cons.1 hg
      obtain ⟨hhead, htail⟩ := List.cons.inj h
      rw [eq_of_outline_eq hf hg hhead, ih hfs hgs htail]

end FunctionSketch

theorem FunctionDecl.heading_eq (f : FunctionDecl) : f.heading = f.sketch.heading := by
  simp [heading, FunctionSketch.heading, FunctionSketch.parameterText, sketch, List.map_map,
    Function.comp_def]

theorem FunctionDecl.outlines_eq (fs : List FunctionDecl) :
    outlines fs = FunctionSketch.outlines (fs.map sketch) := by
  induction fs with
  | nil => rfl
  | cons f fs ih =>
    rw [outlines, List.map_cons, FunctionSketch.outlines, ih, outline, FunctionSketch.outline,
      heading_eq, Expr.outline_eq, List.isEmpty_map]
    rfl

theorem Program.outline_eq (p : Program) :
    p.outline = .node "Program" true (FunctionSketch.outlines p.sketch) := by
  rw [outline, FunctionDecl.outlines_eq, sketch]

theorem Token.Kind.IsWord.isAlphanum {cs : List Char} (h : IsWord cs) :
    ∀ c ∈ cs, c.isAlphanum := by
  cases cs with
  | nil => exact h.elim
  | cons c cs => exact List.forall_mem_cons.2 ⟨isAlphanum_of_isAlpha h.1, h.2⟩

/-- Only white space has line feeds in it. -/
theorem Token.Kind.Spells.newline_not_mem {kind : Token.Kind} {cs : List Char} (h : kind.Spells cs)
    (hkind : kind ≠ .whitespace) : '\n' ∉ cs := by
  have hfixed {cs' : List Char} (h : cs = cs') (h' : '\n' ∉ cs') : '\n' ∉ cs := h ▸ h'
  cases kind with
  | identifier => exact fun hmem => absurd (h.1.isAlphanum _ hmem) (by decide)
  | integer => exact fun hmem => absurd (h.2 _ hmem) (by decide)
  | eof => exact h.elim
  | whitespace => exact absurd rfl hkind
  | _ => exact hfixed h (by decide)

def Program.ReadFrom (source : Source) (p : Program) : Prop :=
  ∃ ts t, lex source = .ok ts ∧ parse ts source = .ok t ∧ lower t = .ok p

namespace Program.ReadFrom

variable {source : Source} {p : Program}

theorem spells_of_mem_leaves (h : p.ReadFrom source) {l : Leaf} (hl : l ∈ p.leaves) :
    l.kind ≠ .whitespace ∧ (l.kind = .eof ∧ l.text.toList = [] ∨ l.kind.Spells l.text.toList) := by
  obtain ⟨ts, t, hlex, hparse, hlower⟩ := h
  have htoken : l.token ∈ ts := by
    rw [← flatMap_tokens_leaves_of_lower hlex hparse hlower]
    exact List.mem_flatMap.2 ⟨l, hl, by simp [Leaf.tokens]⟩
  obtain ⟨hlaid, -⟩ := laidOut_of_lower hlex hparse hlower
  exact ⟨(hlaid.tidy l hl).2, Lexer.spells_of_mem_lex hlex htoken⟩

theorem newline_not_mem_text (h : p.ReadFrom source) {l : Leaf} (hl : l ∈ p.leaves) :
    '\n' ∉ l.text.toList := by
  obtain ⟨hkind, ⟨-, htext⟩ | hspelt⟩ := h.spells_of_mem_leaves hl
  · rw [htext]
    exact List.not_mem_nil
  · exact hspelt.newline_not_mem hkind

theorem named_sketch (h : p.ReadFrom source) : ∀ f ∈ p.sketch, f.Named := by
  have hword {l : Leaf} (hl : l ∈ p.leaves) (hkind : l.kind = .identifier) :
      Alphanumeric l.text := by
    obtain ⟨-, ⟨heof, -⟩ | hspelt⟩ := h.spells_of_mem_leaves hl
    · rw [hkind] at heof
      cases heof
    · rw [hkind] at hspelt
      exact hspelt.1.isAlphanum
  obtain ⟨-, t, -, -, hlower⟩ := h
  refine List.forall_mem_map.2 fun f hf => ?_
  have hregular := regular_of_lower hlower f hf
  have hleaves : ∀ l ∈ f.leaves, l ∈ p.leaves := fun l hl =>
    List.mem_append_left _ (List.mem_flatMap.2 ⟨f, hf, hl⟩)
  constructor
  · exact hword (hleaves _ (by simp [FunctionDecl.leaves])) hregular.name
  · refine List.forall_mem_map.2 fun q hq => ?_
    have hparam : ∀ l ∈ q.leaves, l ∈ p.leaves := fun l hl => by
      refine hleaves l ?_
      simp only [FunctionDecl.leaves, ParamList.leaves, List.mem_append, List.mem_cons]
      exact .inl (.inl (.inr (.inr (.inl (.inr (List.mem_flatMap.2 ⟨q, hq, hl⟩))))))
    have hregular := hregular.parameters.params q hq
    exact ⟨hword (hparam _ (by simp [Param.leaves])) hregular.name,
      hword (hparam _ (by simp [Param.leaves, TypeSpec.leaves])) hregular.type.name⟩
  · exact hword (hleaves _ (by simp [FunctionDecl.leaves, TypeSpec.leaves])) hregular.result.name

theorem oneLined_outline (h : p.ReadFrom source) : p.outline.OneLined := by
  have hfunctions (fs : List FunctionDecl) (hfs : fs ⊆ p.functions) :
      ∀ o ∈ FunctionDecl.outlines fs, o.OneLined := by
    induction fs with
    | nil => exact List.forall_mem_nil _
    | cons f fs ih =>
      obtain ⟨hf, hfs⟩ := List.cons_subset.1 hfs
      refine List.forall_mem_cons.2 ⟨?_, ih hfs⟩
      have hheading : '\n' ∉ f.heading.toList := by
        rw [FunctionDecl.heading_eq]
        exact FunctionSketch.newline_not_mem_heading
          (h.named_sketch _ (List.mem_map_of_mem hf))
      have hbody : (f.body.outline true).OneLined :=
        f.body.oneLined_outline true fun l hl => h.newline_not_mem_text
          (List.mem_append_left _ (List.mem_flatMap.2 ⟨f, hf, by simp [FunctionDecl.leaves, hl]⟩))
      exact .node hheading (List.forall_mem_singleton.2 hbody)
  exact .node (by decide) (hfunctions p.functions (List.Subset.refl _))

variable {source' : Source} {q : Program}

/-- Programs are printed alike if and only if they have the same functions with bodies of the same
shape. -/
theorem print_eq_print_iff (hp : p.ReadFrom source) (hq : q.ReadFrom source') :
    p.print = q.print ↔ p.sketch = q.sketch := by
  constructor
  · intro h
    have hread : some [p.outline] = some [q.outline] := by
      rw [← Outline.read?_render (List.forall_mem_singleton.2 hp.oneLined_outline),
        ← Outline.read?_render (List.forall_mem_singleton.2 hq.oneLined_outline)]
      exact congrArg Outline.read? h
    have houtlines : p.outline = q.outline := List.singleton_inj.1 (Option.some.inj hread)
    rw [outline_eq, outline_eq, Outline.node.injEq] at houtlines
    exact FunctionSketch.outlines_injective hp.named_sketch hq.named_sketch houtlines.2.2
  · intro h
    rw [print, print, outline_eq, outline_eq, h]

end Program.ReadFrom

/-- What is drawn says what was drawn. Every line but the last, which is empty, tells one node, in
preorder: the nodes around it, whether it is a last child, and its label. All lines together tell
the forest, whatever characters but line feeds are in the labels. Programs that were read from texts
are printed alike if and only if they have the same functions with bodies of the same shape. -/
theorem outline_tells :
    (∀ roots : List Outline, (∀ o ∈ roots, o.OneLined) →
      (Outline.render roots).toList.splitOn '\n' =
          (Outline.forestEntries [] roots).map (fun e => e.line.toList) ++ [[]] ∧
        (∀ e ∈ Outline.forestEntries [] roots,
          Outline.Entry.ofLine? e.line.toList = some e) ∧
        Outline.read? (Outline.render roots) = some roots) ∧
    ∀ (source source' : Source) (p q : Program), p.ReadFrom source → q.ReadFrom source' →
      (p.print = q.print ↔ p.sketch = q.sketch) :=
  ⟨fun _ h => ⟨Outline.splitOn_render h, fun e _ => e.ofLine?_line, Outline.read?_render h⟩,
    fun _ _ _ _ hp hq => hp.print_eq_print_iff hq⟩

/-- Labels that look like strokes, under a root that is drawn as if it were not the last. -/
private def strokes : List Outline :=
  [.node "|-a" false [.node "  \\-" true [], .node "" false []]]

private theorem oneLined_strokes : ∀ o ∈ strokes, o.OneLined := by
  have hleaf {label : String} (last : Bool) (h : '\n' ∉ label.toList) :
      (Outline.node label last []).OneLined := .node h (List.forall_mem_nil _)
  refine List.forall_mem_singleton.2 (.node (by decide) ?_)
  exact List.forall_mem_cons.2
    ⟨hleaf true (by decide), List.forall_mem_singleton.2 (hleaf false (by decide))⟩

private def narrow : Source := ⟨"narrow", "f(x:int):int\x7bg(x,1)+2\x7d"⟩

private def wide : Source := ⟨"wide", "fun f( x : int ) : int \x7b\n  g( x, 1 ) + 2\n\x7d\n"⟩

private def drawing : String :=
  "\\-Program\n" ++
  "  \\-fun f(x: int): int\n" ++
  "    \\-Expression \x7b\x7d\n" ++
  "      \\-Expression\n" ++
  "        \\-+\n" ++
  "          |-Call g\n" ++
  "          | |-Expression\n" ++
  "          | | \\-Identifier x\n" ++
  "          | \\-Expression\n" ++
  "          |   \\-Integer 1\n" ++
  "          \\-Integer 2\n"

theorem outline_tells_sample :
    Outline.render strokes = "|-|-a\n| \\-  \\-\n| |-\n" ∧
    Outline.read? "|-|-a\n| \\-  \\-\n| |-\n" = some strokes ∧
    ∃ p q : Program, p.ReadFrom narrow ∧ q.ReadFrom wide ∧ p.print = drawing ∧ q.print = drawing ∧
      p.sketch = q.sketch := by
  have hrender : Outline.render strokes = "|-|-a\n| \\-  \\-\n| |-\n" := by decide +kernel
  have hread := (outline_tells.1 strokes oneLined_strokes).2.2
  rw [hrender] at hread
  have hnarrow : narrow.read?.map (·.2.print) = some drawing := by decide +kernel
  have hwide : wide.read?.map (·.2.print) = some drawing := by decide +kernel
  obtain ⟨_, _, p, hplex, hpparse, hplower, hpdrawing⟩ := Source.exists_of_map_read? hnarrow
  obtain ⟨_, _, q, hqlex, hqparse, hqlower, hqdrawing⟩ := Source.exists_of_map_read? hwide
  have hp : p.ReadFrom narrow := ⟨_, _, hplex, hpparse, hplower⟩
  have hq : q.ReadFrom wide := ⟨_, _, hqlex, hqparse, hqlower⟩
  have hsketch := (outline_tells.2 narrow wide p q hp hq).1 (hpdrawing.trans hqdrawing.symm)
  exact ⟨hrender, hread, p, q, hp, hq, hpdrawing, hqdrawing, hsketch⟩

end FunImp
