import FunImp.Proofs.Grammar.Completing

/-! # What readers that are stuck could go on with

Wherever a reader is stuck, the leaves it has taken can be completed to a tree of its place, within
the same levels of rules: what is open is closed again from the innermost rule outwards. Any of the
kinds that it asks for can come next, and where it is not settled what may stand behind the last
leaf, so can a kind that it does not ask for. -/

namespace FunImp.Tree

/-- Where nothing has been read of what is no block, an operand is asked for. -/
theorem Stuck.operand_of_nil {place : Place} {n : Nat} {s : Site} (h : Stuck place n [] s)
    (hs : s ≠ .tooDeep) (hplace : place ≠ .block) :
    s = .operand ∧ 0 < n ∧ place ≠ .argumentList := by
  generalize hls : ([] : List Leaf) = ls at h
  induction h with
  | tooDeep => exact absurd rfl hs
  | brace => exact absurd rfl hplace
  | item | call | firstArgument | argument | argumentEnd => cases hls
  | link => simp at hls
  | braced _ hpre => exact absurd hls.symm hpre
  | bare _ ih =>
    obtain ⟨hoperand, hn, -⟩ := ih hs (by decide) hls
    exact ⟨hoperand, hn, by decide⟩
  | blockless _ ih => exact ⟨(ih hs (by decide) hls).1, Nat.succ_pos _, by decide⟩
  | first hc _ ih =>
    cases hc <;> exact ⟨(ih hs (by decide) hls).1, Nat.succ_pos _, by decide⟩
  | operand => exact ⟨rfl, Nat.succ_pos _, by decide⟩

theorem Site.ne_tooDeep_of_spare {s : Site} {k : Token.Kind} (h : k ∈ s.spare) :
    s ≠ .tooDeep := by
  rintro rfl
  exact absurd h List.not_mem_nil

/-- Closing around an expression: if none of it has been read, an empty block can be put there. -/
theorem Mendable.lift_expression {M : List Leaf → Prop} {before taken : List Leaf}
    {closing : List Token.Kind} {n : Nat} {s : Site} (h : Stuck .expression n taken s)
    (hm : Mendable (Lang .expression n) taken s)
    (hf : Frame (Lang .expression n) M before closing)
    (hviable : taken = [] → s = .tooDeep → ∃ kinds, Completes M before kinds) :
    Mendable M (before ++ taken) s := by
  refine hm.lift hf hviable fun htaken _ k hk => ?_
  subst htaken
  obtain ⟨rfl, hn, -⟩ := h.operand_of_nil (Site.ne_tooDeep_of_spare hk) (by decide)
  obtain rfl := List.mem_singleton.1 hk
  have hblock := hf.completes (completes_expression hn)
  exact ⟨[.rightBrace] ++ closing, by simpa using hblock⟩

/-- The last of some arguments, and what may stand in its place. -/
theorem frame_of_arguments {n : Nat} {o : Leaf} {first : Tree} {links : List (Tree × Tree)}
    (ho : o.kind = .leftParen) (hf : Fits .expression first) (hd : first.ruleDepth ≤ n)
    (hl : ∀ l ∈ links, Rules.IsLink .expression n [.comma] l) :
    ∃ before t, o :: (first.leaves ++ forestLeaves (links.flatMap linkTrees)) = before ++ t.leaves ∧
      Fits .expression t ∧ t.ruleDepth ≤ n ∧
      Frame (Lang .expression n) (Lang .argumentList (n + 1)) before [.rightParen] := by
  obtain rfl | ⟨init, ⟨comma, t⟩, rfl⟩ := List.eq_nil_or_concat' links
  · exact ⟨[o], first, by simp [forestLeaves], hf, hd, frame_firstArgument ho⟩
  · obtain ⟨hinit, hlast⟩ := List.forall_mem_append.1 hl
    obtain ⟨⟨c, rfl, hc⟩, fits, depth⟩ := List.forall_mem_singleton.1 hlast
    have hframe := frame_argument ho hf hd hinit (List.mem_singleton.1 hc)
    exact ⟨_, t, by simp [linkTrees, forestLeaves], fits, depth, hframe⟩

theorem mendable_argumentEnd {n : Nat} {o : Leaf} {first : Tree} {links : List (Tree × Tree)}
    (ho : o.kind = .leftParen) (hf : Fits .expression first) (hd : first.ruleDepth ≤ n)
    (hl : ∀ l ∈ links, Rules.IsLink .expression n [.comma] l) :
    Mendable (Lang .argumentList (n + 1))
      (o :: (first.leaves ++ forestLeaves (links.flatMap linkTrees))) .argumentEnd := by
  have hcomma : Completes (Lang .argumentList (n + 1))
      (o :: (first.leaves ++ forestLeaves (links.flatMap linkTrees)))
      [.comma, .leftBrace, .rightBrace, .rightParen] := by
    refine completes_cons fun c hc => ?_
    have hpos : 0 < n := Nat.lt_of_lt_of_le hf.ruleDepth_pos hd
    have hblock := (frame_argument ho hf hd hl hc).completes (completes_expression hpos)
    simpa using hblock
  refine ⟨fun _ => ⟨_, hcomma⟩, fun k hk => ?_, fun _ hset k hk => ?_⟩
  · obtain rfl | rfl : k = .comma ∨ k = .rightParen := by simpa [Site.expected] using hk
    · exact ⟨_, hcomma⟩
    · exact ⟨_, completes_singleton fun c hc => .arguments ho hf hd hl hc⟩
  · obtain rfl := List.mem_singleton.1 hk
    obtain ⟨before, t, hls, fits, depth, hframe⟩ := frame_of_arguments ho hf hd hl
    rw [hls] at hset ⊢
    -- The last argument is no block, for behind a block it is settled what may follow.
    cases fits with
    | braced h => exact absurd (h.ends.prepend before) hset
    | bare h =>
      have hplus : Completes (Lang .expression n) t.leaves [.plus, .integer] :=
        completes_cons fun sign hs => completes_singleton fun l hl => by
          simpa using Lang.plus h depth hs hl
      exact ⟨_, hframe.completes hplus⟩

/-- Wherever a reader for a place is stuck, it could go on. The induction is on the open rules, from
the innermost one outwards, and each of them closes what it has opened. -/
theorem Stuck.mendable {place : Place} {n : Nat} {taken : List Leaf} {s : Site}
    (h : Stuck place n taken s) : Mendable (Lang place n) taken s := by
  induction h with
  | tooDeep =>
    exact ⟨fun h => absurd rfl (h rfl), List.forall_mem_nil _, fun h => absurd rfl h⟩
  | brace => exact .of_fixed_singleton completes_block
  | item ho hi h ih =>
    refine ih.lift_expression h (frame_closed fun ls c hls hc => .item ho hi hls hc) fun _ _ => ?_
    exact ⟨_, completes_singleton fun c hc => .block ho hi hc⟩
  | braced _ _ ih => exact ih.mono fun _ => .braced
  | bare _ ih => exact ih.mono fun _ => .bare
  | blockless _ ih => exact ih.mono fun _ => .blockless
  | first hc _ ih => exact ih.mono fun _ => .first hc
  | @link place operand _ kinds n first links sign pre s hc hf hd hl hs h ih =>
    have hplace : operand ∉ [.block, .argumentList, .expression] := by cases hc <;> decide
    have hblock : operand ≠ .block := by cases hc <;> decide
    have hsigns : ∀ k ∈ kinds, k ∈ signs := by cases hc <;> decide
    have hframe : Frame (Lang operand n) (Lang place (n + 1)) _ [] :=
      frame_open fun ls => .link hc hf hd hl hs
    rw [List.append_cons]
    refine ih.lift hframe (fun _ _ => ?_) fun hpre hset k hk => ?_
    · -- There are levels for a number, since there were some for the first operand.
      exact ⟨_, completes_singleton fun l hkind =>
        .link hc hf hd hl hs (.integer hf hd hplace hkind)⟩
    · -- Right behind the sign it is settled that an operand follows.
      subst hpre
      obtain ⟨rfl, -⟩ := h.operand_of_nil (Site.ne_tooDeep_of_spare hk) hblock
      exact absurd ⟨sign, by simp, hsigns _ hs⟩ hset
  | operand =>
    refine ⟨fun _ => ?_, fun k hk => ?_, fun h => absurd rfl h⟩
    · exact ⟨[.integer], completes_singleton fun l hl => .element (by simp [hl])⟩
    · exact ⟨_, completes_singleton fun l hl => .element (hl ▸ hk)⟩
  | @call n name pre s hn h ih =>
    rw [← List.singleton_append]
    refine ih.lift (frame_open fun ls => .call hn) (fun _ _ => ?_) fun hpre _ k hk => ?_
    · exact ⟨_, completes_nil (.element (by simp [hn]))⟩
    · subst hpre
      exact absurd rfl (h.operand_of_nil (Site.ne_tooDeep_of_spare hk) (by decide)).2.2
  | firstArgument ho h ih =>
    rw [← List.singleton_append]
    refine ih.lift_expression h (frame_firstArgument ho) fun _ _ => ?_
    exact ⟨_, completes_singleton fun c hc => .noArguments ho hc⟩
  | @argument n o comma first links pre s ho hf hd hl hc h ih =>
    have hframe := frame_argument ho hf hd hl hc
    rw [List.append_cons, ← List.cons_append]
    refine ih.lift_expression h hframe fun _ _ => ?_
    have hpos : 0 < n := Nat.lt_of_lt_of_le hf.ruleDepth_pos hd
    have hblock := hframe.completes (completes_expression hpos)
    exact ⟨_, by simpa using hblock⟩
  | argumentEnd ho hf hd hl => exact mendable_argumentEnd ho hf hd hl

def ParamLang (ls : List Leaf) : Prop :=
  ∃ ts, IsParam ts ∧ forestLeaves ts = ls

def ParamListLang (ls : List Leaf) : Prop :=
  ∃ t, IsParamList t ∧ t.leaves = ls

/-- The leaves behind the keyword of a function with so many levels of rules. -/
def SignatureLang (n : Nat) (ls : List Leaf) : Prop :=
  ∃ ts, IsSignatureAndBody ts ∧ (∀ t ∈ ts, t.ruleDepth ≤ n) ∧ forestLeaves ts = ls

def FunctionLang (n : Nat) (ls : List Leaf) : Prop :=
  ∃ t, IsFunction t ∧ t.ruleDepth ≤ n ∧ t.leaves = ls

def ProgramLang (n : Nat) (ls : List Leaf) : Prop :=
  ∃ t, IsProgram t ∧ t.ruleDepth ≤ n ∧ t.leaves = ls

theorem completes_param : Completes ParamLang [] [.identifier, .colon, .identifier] :=
  completes_cons fun _ hn => completes_cons fun _ hc => completes_singleton fun _ ht =>
    ⟨_, ⟨_, _, _, rfl, isLeaf_of_kind hn, isLeaf_of_kind hc, isLeaf_of_kind ht⟩,
      by simp [forestLeaves]⟩

theorem StuckParam.mendable {taken : List Leaf} {kinds : List Token.Kind}
    (h : StuckParam taken kinds) : Mendable ParamLang taken (.fixed kinds) := by
  cases h with
  | name => exact .of_fixed_singleton completes_param
  | colon hn => exact .of_fixed_singleton (completes_param.step hn)
  | type hn hc => exact .of_fixed_singleton ((completes_param.step hn).step hc)

theorem completes_paramList : Completes ParamListLang [] [.leftParen, .rightParen] :=
  completes_cons fun _ ho => completes_singleton fun _ hc =>
    ⟨_, .empty (isLeaf_of_kind ho) (isLeaf_of_kind hc),
      by simp [leaves, forestLeaves]⟩

theorem ParamListLang.params {o c : Leaf} {first : List Tree} {others : List (List Tree)}
    (ho : o.kind = .leftParen) (hf : IsParam first) (hp : ∀ p ∈ others, IsCommaParam p)
    (hc : c.kind = .rightParen) :
    ParamListLang (o :: (forestLeaves first ++ forestLeaves others.flatten) ++ [c]) :=
  ⟨_, .params (isLeaf_of_kind ho) hf hp (isLeaf_of_kind hc),
    by simp [leaves, forestLeaves]⟩

theorem frame_firstParam {o : Leaf} (ho : o.kind = .leftParen) :
    Frame ParamLang ParamListLang [o] [.rightParen] := by
  refine frame_closed fun ls c hls hc => ?_
  obtain ⟨ts, hts, rfl⟩ := hls
  have hlone := ParamListLang.params ho hts (List.forall_mem_nil _) hc
  simpa [forestLeaves] using hlone

theorem frame_param {o comma : Leaf} {first : List Tree} {others : List (List Tree)}
    (ho : o.kind = .leftParen) (hf : IsParam first) (hp : ∀ p ∈ others, IsCommaParam p)
    (hc : comma.kind = .comma) :
    Frame ParamLang ParamListLang
      (o :: (forestLeaves first ++ forestLeaves others.flatten ++ [comma])) [.rightParen] := by
  refine frame_closed fun ls c hls hclosing => ?_
  obtain ⟨ts, hts, rfl⟩ := hls
  have hlast : IsCommaParam (ofLeaf comma :: ts) :=
    ⟨_, ts, rfl, isLeaf_of_kind hc, hts⟩
  have hothers : ∀ p ∈ others ++ [ofLeaf comma :: ts], IsCommaParam p :=
    List.forall_mem_append.2 ⟨hp, List.forall_mem_singleton.2 hlast⟩
  simpa [forestLeaves] using ParamListLang.params ho hf hothers hclosing

theorem StuckParams.mendable {taken : List Leaf} {kinds : List Token.Kind}
    (h : StuckParams taken kinds) : Mendable ParamListLang taken (.fixed kinds) := by
  cases h with
  | opening => exact .of_fixed_singleton completes_paramList
  | start ho =>
    have hname := (frame_firstParam ho).completes completes_param
    have hclosing := completes_paramList.step ho
    exact .of_fixed (List.cons_ne_nil _ _) (by simpa using ⟨⟨_, hname⟩, ⟨_, hclosing⟩⟩)
  | first ho h hpre => exact h.mendable.lift_of_fixed (frame_firstParam ho) fun _ => ⟨_, rfl⟩
  | @other o comma first others pre _ ho hf hp hc h =>
    rw [List.append_cons, ← List.cons_append]
    exact h.mendable.lift_of_fixed (frame_param ho hf hp hc) fun _ => ⟨_, rfl⟩
  | @paramEnd o first others ho hf hp =>
    have hcomma : Completes ParamListLang
        (o :: (forestLeaves first ++ forestLeaves others.flatten))
        [.comma, .identifier, .colon, .identifier, .rightParen] := by
      refine completes_cons fun comma hc => ?_
      have hparam := (frame_param ho hf hp hc).completes completes_param
      simpa using hparam
    have hclosing : Completes ParamListLang
        (o :: (forestLeaves first ++ forestLeaves others.flatten)) [.rightParen] :=
      completes_singleton fun c hc => .params ho hf hp hc
    exact .of_fixed (List.cons_ne_nil _ _) (by simpa using ⟨⟨_, hcomma⟩, ⟨_, hclosing⟩⟩)

theorem SignatureLang.mk {n : Nat} {name colon type : Leaf} {list : Tree} {ls : List Leaf}
    (hn : name.kind = .identifier) (hp : IsParamList list) (hc : colon.kind = .colon)
    (ht : type.kind = .identifier) (h : Lang .block n ls) :
    SignatureLang n (name :: (list.leaves ++ colon :: type :: ls)) := by
  obtain ⟨body, fits, depth, rfl⟩ := h
  obtain ⟨m, rfl⟩ : ∃ m, n = m + 1 :=
    Nat.exists_eq_add_one.2 (Nat.lt_of_lt_of_le fits.ruleDepth_pos depth)
  refine ⟨_, ⟨_, list, _, _, body, rfl, isLeaf_of_kind hn, hp, isLeaf_of_kind hc,
    isLeaf_of_kind ht, fits⟩, ?_, by simp [forestLeaves]⟩
  simpa using ⟨hp.ruleDepth_le m, depth⟩

theorem completes_signatureEnd {n : Nat} {name : Leaf} {list : Tree} (hn : name.kind = .identifier)
    (hp : IsParamList list) :
    Completes (SignatureLang (n + 1)) (name :: list.leaves)
      [.colon, .identifier, .leftBrace, .rightBrace] :=
  completes_cons fun colon hc => completes_cons fun type ht ls hls => by
    simpa using SignatureLang.mk hn hp hc ht (completes_block ls hls)

theorem frame_paramList {n : Nat} {name : Leaf} (hn : name.kind = .identifier) :
    Frame ParamListLang (SignatureLang (n + 1)) [name]
      [.colon, .identifier, .leftBrace, .rightBrace] := by
  intro ls c hls hc
  obtain ⟨list, hlist, rfl⟩ := hls
  simpa using completes_signatureEnd hn hlist c hc

theorem completes_signature {n : Nat} :
    Completes (SignatureLang (n + 1)) []
      [.identifier, .leftParen, .rightParen, .colon, .identifier, .leftBrace, .rightBrace] :=
  completes_cons fun _ hn => (frame_paramList hn).completes completes_paramList

/-- Where none of a block has been read, its brace is asked for. -/
theorem Stuck.eq_brace_of_nil {n : Nat} {s : Site} (h : Stuck .block (n + 1) [] s) :
    s = .fixed [.leftBrace] := by
  generalize hls : ([] : List Leaf) = ls at h
  cases h with
  | brace => rfl
  | item => cases hls
  | first hc | link hc => cases hc

theorem StuckSignature.mendable {n : Nat} {taken : List Leaf} {s : Site}
    (h : StuckSignature (n + 1) taken s) : Mendable (SignatureLang (n + 1)) taken s := by
  cases h with
  | name => exact .of_fixed_singleton completes_signature
  | params hn h => exact h.mendable.lift_of_fixed (frame_paramList hn) fun _ => ⟨_, rfl⟩
  | colon hn hp => exact .of_fixed_singleton (completes_signatureEnd hn hp)
  | type hn hp hc =>
    exact .of_fixed_singleton (by simpa using (completes_signatureEnd hn hp).step hc)
  | @body name colon type list pre s hn hp hc ht h =>
    have hframe : Frame (Lang .block (n + 1)) (SignatureLang (n + 1))
        (name :: (list.leaves ++ [colon, type])) [] :=
      frame_open fun ls hls => by simpa using SignatureLang.mk hn hp hc ht hls
    have hbody := h.mendable.lift_of_fixed hframe (by
      rintro rfl
      exact ⟨_, h.eq_brace_of_nil⟩)
    simpa using hbody

theorem frame_impure {n : Nat} {keyword : Leaf} (hk : keyword.kind = .imp) :
    Frame (SignatureLang n) (FunctionLang (n + 1)) [keyword] [] := by
  refine frame_open fun ls hls => ?_
  obtain ⟨ts, hts, depth, rfl⟩ := hls
  refine ⟨_, .impure (isLeaf_of_kind hk) hts, (ruleDepth_node_le_succ rfl).2 ?_,
    by simp [leaves, forestLeaves]⟩
  exact List.forall_mem_cons.2 ⟨by simp, depth⟩

theorem frame_pure {n : Nat} {keyword : Leaf} (hk : keyword.kind = .fn) :
    Frame (SignatureLang n) (FunctionLang (n + 1)) [keyword] [] := by
  refine frame_open fun ls hls => ?_
  obtain ⟨ts, hts, depth, rfl⟩ := hls
  have hkeyword : ∀ k ∈ some (ofLeaf keyword), IsLeaf [.fn] k := by
    simpa using isLeaf_of_kind hk
  refine ⟨_, .pure hkeyword hts, (ruleDepth_node_le_succ rfl).2 ?_,
    by simp [leaves, forestLeaves]⟩
  exact List.forall_mem_cons.2 ⟨by simp, depth⟩

theorem FunctionLang.bare {n : Nat} {ls : List Leaf} (h : SignatureLang n ls) :
    FunctionLang (n + 1) ls := by
  obtain ⟨ts, hts, depth, rfl⟩ := h
  exact ⟨_, @IsFunction.pure none ts (by simp) hts,
    (ruleDepth_node_le_succ rfl).2 (by simpa using depth), by simp [leaves]⟩

/-- Where none of a signature has been read, its name is asked for. -/
theorem StuckSignature.eq_of_nil {n : Nat} {s : Site} (h : StuckSignature n [] s) :
    s = .fixed [.identifier] := by
  cases h
  rfl

theorem StuckFunction.mendable {n : Nat} {taken : List Leaf} {s : Site}
    (h : StuckFunction (n + 2) taken s) : Mendable (FunctionLang (n + 2)) taken s := by
  have hlift {keyword : Leaf} {pre : List Leaf} (h : StuckSignature (n + 1) pre s)
      (hf : Frame (SignatureLang (n + 1)) (FunctionLang (n + 2)) [keyword] []) :
      Mendable (FunctionLang (n + 2)) (keyword :: pre) s := by
    refine h.mendable.lift_of_fixed hf ?_
    rintro rfl
    exact ⟨_, h.eq_of_nil⟩
  cases h with
  | impure hk h => exact hlift h (frame_impure hk)
  | pure hk h => exact hlift h (frame_pure hk)
  | bare h hpre => exact h.mendable.mono fun _ => .bare

theorem StuckFunction.ne_nil {n : Nat} {taken : List Leaf} {s : Site}
    (h : StuckFunction n taken s) : taken ≠ [] := by
  cases h with
  | impure | pure => exact List.cons_ne_nil _ _
  | bare _ hpre => exact hpre

theorem ProgramLang.mk {n : Nat} {fs : List Tree} {e : Leaf}
    (hf : ∀ f ∈ fs, IsFunction f ∧ f.ruleDepth ≤ n) (he : e.kind = .eof) :
    ProgramLang (n + 1) (forestLeaves fs ++ [e]) := by
  refine ⟨_, .mk (fun f hm => (hf f hm).1) (isLeaf_of_kind he),
    (ruleDepth_node_le_succ rfl).2 ?_, by simp [leaves, forestLeaves]⟩
  exact List.forall_mem_append.2 ⟨fun f hm => (hf f hm).2, by simp⟩

theorem frame_function {n : Nat} {fs : List Tree} (hf : ∀ f ∈ fs, IsFunction f ∧ f.ruleDepth ≤ n) :
    Frame (FunctionLang n) (ProgramLang (n + 1)) (forestLeaves fs) [.eof] := by
  refine frame_closed fun ls e hls he => ?_
  obtain ⟨t, ht, depth, rfl⟩ := hls
  have hfs : ∀ f ∈ fs ++ [t], IsFunction f ∧ f.ruleDepth ≤ n :=
    List.forall_mem_append.2 ⟨hf, List.forall_mem_singleton.2 ⟨ht, depth⟩⟩
  simpa [forestLeaves] using ProgramLang.mk hfs he

theorem StuckProgram.eq_of_nil {n : Nat} {s : Site} (h : StuckProgram n [] s) :
    s = .fixed [.fn, .imp, .identifier, .eof] := by
  generalize hls : ([] : List Leaf) = ls at h
  cases h with
  | function _ hf => exact absurd (List.append_eq_nil_iff.1 hls.symm).2 hf.ne_nil
  | functionEnd => rfl

theorem completes_function {n : Nat} :
    Completes (FunctionLang (n + 2)) [] [.fn, .identifier, .leftParen, .rightParen, .colon,
      .identifier, .leftBrace, .rightBrace] :=
  completes_cons fun _ hk => (frame_pure hk).completes completes_signature

/-- Wherever functions that cannot be read are stuck, they could go on. -/
theorem StuckProgram.mendable {n : Nat} {taken : List Leaf} {s : Site}
    (h : StuckProgram (n + 2) taken s) : Mendable (ProgramLang (n + 3)) taken s := by
  cases h with
  | function hf h =>
    exact h.mendable.lift_of_fixed (frame_function hf) fun htaken => absurd htaken h.ne_nil
  | @functionEnd fs hf =>
    have himp : Completes (FunctionLang (n + 2)) [] (.imp :: _) :=
      completes_cons fun _ hk => (frame_impure hk).completes completes_signature
    have hname : Completes (FunctionLang (n + 2)) [] _ :=
      fun ls hls => .bare (completes_signature ls hls)
    have hlift {k : Token.Kind} {kinds : List Token.Kind}
        (h : Completes (FunctionLang (n + 2)) [] (k :: kinds)) :
        ∃ more, Completes (ProgramLang (n + 3)) (forestLeaves fs) (k :: more) :=
      ⟨_, by simpa using (frame_function hf).completes h⟩
    have hend : Completes (ProgramLang (n + 3)) (forestLeaves fs) [.eof] :=
      completes_singleton fun e he => .mk hf he
    exact .of_fixed (List.cons_ne_nil _ _)
      (by simpa using ⟨hlift completes_function, hlift himp, hlift hname, _, hend⟩)

end FunImp.Tree
