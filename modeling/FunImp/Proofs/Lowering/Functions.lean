import FunImp.Proofs.Lowering.Becomes

/-! # What parameter lists, functions and programs become

These parts are flat: the tree of each is the row of its own leaves, around the trees of the parts
inside it, and lowering succeeds exactly where every leaf is of the kind its place asks for. -/

namespace FunImp

/-- The leaves are of the kinds that their places ask for. -/
structure TypeSpec.Regular (ty : TypeSpec) : Prop where
  colon : ty.colon.kind = .colon
  name : ty.name.kind = .identifier

/-- The leaves are of the kinds that their places ask for. -/
structure Param.Regular (p : Param) : Prop where
  name : p.name.kind = .identifier
  type : p.type.Regular
  comma : ∀ l ∈ p.comma, l.kind = .comma

/-- The leaves are of the kinds that their places ask for. -/
structure ParamList.Regular (ps : ParamList) : Prop where
  opening : ps.opening.kind = .leftParen
  params : ∀ p ∈ ps.params, p.Regular
  closing : ps.closing.kind = .rightParen

/-- The leaves are of the kinds that their places ask for, those of the body aside. -/
structure FunctionDecl.Regular (f : FunctionDecl) : Prop where
  keyword : ∀ l ∈ f.keyword, l.kind = .fn ∨ l.kind = .imp
  name : f.name.kind = .identifier
  parameters : f.parameters.Regular
  result : f.result.Regular

namespace Tree

theorem takeTypeSpec_eq_ok_iff {parent : Rule} {ts rest : List Tree} {ty : TypeSpec} :
    takeTypeSpec parent ts = .ok (ty, rest) ↔ ts = ty.leaves.map ofLeaf ++ rest ∧ ty.Regular := by
  simp only [takeTypeSpec, except_bind_eq_ok_iff, Prod.exists, takeLeaf_eq_ok_iff]
  constructor
  · rintro ⟨colon, _, ⟨rfl, hcolon⟩, name, _, ⟨rfl, hname⟩, h⟩
    cases h
    exact ⟨rfl, hcolon, hname⟩
  · rintro ⟨rfl, hcolon, hname⟩
    exact ⟨ty.colon, _, ⟨rfl, hcolon⟩, ty.name, _, ⟨rfl, hname⟩, rfl⟩

/-- A step through parameters takes one and the comma behind it, if there is one. -/
theorem exists_param_of_takeParams {done : List Param} {t : Tree} {ts : List Tree}
    {r : List Param × List Tree} (ht : t.isLeafOf .identifier = true)
    (h : takeParams done (t :: ts) = .ok r) :
    ∃ p rest, t :: ts = p.leaves.map ofLeaf ++ rest ∧ p.Regular ∧
      takeParams (p :: done) rest = .ok r := by
  rcases ts with _ | ⟨colon, _ | ⟨type, rest⟩⟩
  · simp [takeParams, ht, except_bind_eq_ok_iff, takeTypeSpec, takeLeaf] at h
  · simp [takeParams, ht, except_bind_eq_ok_iff, takeTypeSpec, takeLeaf] at h
  · simp only [takeParams, ht, if_true, except_bind_eq_ok_iff, toLeaf_eq_ok_iff,
      toLeafOf_eq_ok_iff] at h
    obtain ⟨n, rfl, d, ⟨rfl, hd⟩, ty, ⟨rfl, hty⟩, h⟩ := h
    have hn : n.kind = .identifier := of_decide_eq_true ht
    cases rest with
    | nil =>
      have hend : takeParams (⟨n, ⟨d, ty⟩, none⟩ :: done) [] = .ok r := by rwa [takeParams]
      exact ⟨⟨n, ⟨d, ty⟩, none⟩, [], rfl, ⟨hn, ⟨hd, hty⟩, by simp⟩, hend⟩
    | cons comma others =>
      simp only at h
      split at h
      · rename_i hcomma
        simp only [except_bind_eq_ok_iff, toLeaf_eq_ok_iff] at h
        obtain ⟨l, rfl, h⟩ := h
        have hl : l.kind = .comma := of_decide_eq_true hcomma
        exact ⟨⟨n, ⟨d, ty⟩, some l⟩, others, rfl, ⟨hn, ⟨hd, hty⟩, by simpa using hl⟩, h⟩
      · exact ⟨⟨n, ⟨d, ty⟩, none⟩, comma :: others, rfl, ⟨hn, ⟨hd, hty⟩, by simp⟩, h⟩

theorem takeParams_param {p : Param} (hp : p.Regular) {rest : List Tree}
    (hrest : ∀ u ∈ rest.head?, u.isLeafOf .comma = false) (done : List Param) :
    takeParams done (p.leaves.map ofLeaf ++ rest) = takeParams (p :: done) rest := by
  obtain ⟨n, ⟨d, ty⟩, comma⟩ := p
  obtain ⟨hn, ⟨hd, hty⟩, hcomma⟩ := hp
  have hname : (ofLeaf n).isLeafOf .identifier = true := decide_eq_true hn
  have hcolon : toLeafOf .colon (ofLeaf d) = .ok d := toLeafOf_eq_ok_iff.2 ⟨rfl, hd⟩
  have htype : toLeafOf .identifier (ofLeaf ty) = .ok ty := toLeafOf_eq_ok_iff.2 ⟨rfl, hty⟩
  have hleaf (l : Leaf) : toLeaf (ofLeaf l) = .ok l := toLeaf_eq_ok_iff.2 rfl
  cases comma with
  | some l =>
    have hl : (ofLeaf l).isLeafOf .comma = true := decide_eq_true (hcomma l rfl)
    simp [Param.leaves, TypeSpec.leaves, takeParams, hname, hcolon, htype, hleaf, hl, bind,
      Except.bind]
  | none =>
    cases rest with
    | nil => simp [Param.leaves, TypeSpec.leaves, takeParams, hname, hcolon, htype, hleaf, bind,
        Except.bind]
    | cons u us =>
      have hu : u.isLeafOf .comma = false := hrest u rfl
      simp [Param.leaves, TypeSpec.leaves, takeParams, hname, hcolon, htype, hleaf, hu, bind,
        Except.bind]

theorem takeParams_stop {t : Tree} (ht : t.isLeafOf .identifier = false) (done : List Param)
    (ts : List Tree) : takeParams done (t :: ts) = .ok (done.reverse, t :: ts) := by
  rcases ts with _ | ⟨u, _ | ⟨v, us⟩⟩ <;> simp [takeParams, ht, pure, Except.pure]

/-- Parameters are read up to a leaf that is neither a name nor a comma. -/
theorem takeParams_eq_ok_iff {done params : List Param} {c : Leaf} {ts rest : List Tree}
    (hc : c.kind = .rightParen) :
    takeParams done ts = .ok (params, ofLeaf c :: rest) ↔
      ∃ ps : List Param, ts = (ps.flatMap Param.leaves).map ofLeaf ++ ofLeaf c :: rest ∧
        (∀ p ∈ ps, p.Regular) ∧ params = done.reverse ++ ps := by
  constructor
  · intro h
    induction hn : ts.length using Nat.strongRecOn generalizing ts done with
    | _ n ih =>
      cases ts with
      | nil => cases h
      | cons t ts =>
        cases ht : t.isLeafOf .identifier with
        | false =>
          rw [takeParams_stop ht] at h
          cases h
          exact ⟨[], by simp⟩
        | true =>
          obtain ⟨p, rest', heq, hp, h⟩ := exists_param_of_takeParams ht h
          have hlength : rest'.length < n := by
            rw [← hn, heq]
            simp [Param.leaves]
            omega
          obtain ⟨ps, rfl, hps, rfl⟩ := ih _ hlength h rfl
          exact ⟨p :: ps, by simp [heq], List.forall_mem_cons.2 ⟨hp, hps⟩, by simp⟩
  · rintro ⟨ps, rfl, hps, rfl⟩
    have hname : (ofLeaf c).isLeafOf .identifier = false := by simp [isLeafOf_ofLeaf, hc]
    have hcomma : (ofLeaf c).isLeafOf .comma = false := by simp [isLeafOf_ofLeaf, hc]
    induction ps generalizing done with
    | nil => simp [takeParams_stop hname]
    | cons p ps ih =>
      obtain ⟨hp, hps⟩ := List.forall_mem_cons.1 hps
      have hnext : ∀ u ∈ ((ps.flatMap Param.leaves).map ofLeaf ++ ofLeaf c :: rest).head?,
          u.isLeafOf .comma = false := by
        cases ps with
        | nil => simpa using hcomma
        | cons q ps =>
          have hq := (hps q List.mem_cons_self).name
          simp [Param.leaves, isLeafOf_ofLeaf, hq]
      rw [List.flatMap_cons, List.map_append, List.append_assoc, takeParams_param hp hnext, ih hps]
      simp

theorem toParamList_eq_ok_iff {t : Tree} {ps : ParamList} :
    t.toParamList = .ok ps ↔ t = node .paramList (ps.leaves.map ofLeaf) ∧ ps.Regular := by
  constructor
  · intro h
    unfold toParamList at h
    split at h
    · simp only [except_bind_eq_ok_iff, Prod.exists, takeLeaf_eq_ok_iff, finish_eq_ok_iff] at h
      obtain ⟨o, _, ⟨rfl, ho⟩, params, _, hparams, c, _, ⟨rfl, hc⟩, _, rfl, h⟩ := h
      cases h
      obtain ⟨ps, rfl, hps, rfl⟩ := (takeParams_eq_ok_iff hc).1 hparams
      exact ⟨by simp [ParamList.leaves], ho, hps, hc⟩
    · cases h
  · rintro ⟨rfl, ho, hps, hc⟩
    have hparams : takeParams []
        ((ps.params.flatMap Param.leaves).map ofLeaf ++ [ofLeaf ps.closing]) =
          .ok (ps.params, [ofLeaf ps.closing]) :=
      (takeParams_eq_ok_iff hc).2 ⟨ps.params, rfl, hps, rfl⟩
    have hopening : takeLeaf .paramList .leftParen (ps.leaves.map ofLeaf) =
        .ok (ps.opening, (ps.params.flatMap Param.leaves).map ofLeaf ++ [ofLeaf ps.closing]) :=
      takeLeaf_eq_ok_iff.2 ⟨by simp [ParamList.leaves], ho⟩
    have hclosing : takeLeaf .paramList .rightParen [ofLeaf ps.closing] = .ok (ps.closing, []) :=
      takeLeaf_eq_ok_iff.2 ⟨rfl, hc⟩
    simp [toParamList, hopening, hparams, hclosing, finish, bind, Except.bind, pure, Except.pure]

theorem takeKeyword_eq_ok_iff {k : Option Leaf} {n : Leaf} {ts rest : List Tree}
    (hn : n.kind = .identifier) :
    takeKeyword ts = .ok (k, ofLeaf n :: rest) ↔
      ts = k.toList.map ofLeaf ++ ofLeaf n :: rest ∧ ∀ l ∈ k, l.kind = .fn ∨ l.kind = .imp := by
  constructor
  · intro h
    cases ts with
    | nil => cases h
    | cons t ts =>
      rw [takeKeyword] at h
      split at h
      · rename_i hkeyword
        simp only [except_bind_eq_ok_iff, toLeaf_eq_ok_iff] at h
        obtain ⟨l, rfl, h⟩ := h
        cases h
        simpa [isLeafOf_ofLeaf] using hkeyword
      · cases h
        simp
  · rintro ⟨rfl, hk⟩
    cases k with
    | none => simp [takeKeyword, isLeafOf_ofLeaf, hn, pure, Except.pure]
    | some l =>
      have hl := toLeaf_eq_ok_iff.2 (rfl : ofLeaf l = ofLeaf l)
      have hkeyword : (ofLeaf l).isLeafOf .fn = true ∨ (ofLeaf l).isLeafOf .imp = true := by
        simpa [isLeafOf_ofLeaf] using hk
      simp [takeKeyword, hkeyword, hl, bind, Except.bind, pure, Except.pure]

theorem takeChild_eq_ok_iff {parent : Rule} {t : Tree} {ts rest : List Tree} :
    takeChild parent ts = .ok (t, rest) ↔ ts = t :: rest := by
  cases ts <;> simp [takeChild]

end Tree

open FunImp.Tree

/-- The children of the node that a function is read from, around the tree of its body. -/
def FunctionDecl.children (f : FunctionDecl) (body : Tree) : List Tree :=
  f.keyword.toList.map ofLeaf ++ ofLeaf f.name ::
    node .paramList (f.parameters.leaves.map ofLeaf) :: (f.result.leaves.map ofLeaf ++ [body])

namespace Tree

variable {s s' : NodeId}

theorem returns_bodyToExpr_iff {t : Tree} {e : Expr} :
    Returns t.bodyToExpr s e s' ↔ t.isBody = true ∧ Becomes t s e s' := by
  rw [bodyToExpr, returns_ite_throw, returns_toExpr_iff]

theorem returns_childrenToFunction_iff {parent : Rule} {ts : List Tree} {f : FunctionDecl} :
    Returns (childrenToFunction parent ts) s f s' ↔
      ∃ body, ts = f.children body ∧ f.Regular ∧ body.isBody = true ∧ Becomes body s f.body s' := by
  constructor
  · intro h
    simp only [childrenToFunction, returns_bind, returns_lift, returns_pure, Prod.exists,
      takeLeaf_eq_ok_iff, takeChild_eq_ok_iff, toParamList_eq_ok_iff, takeTypeSpec_eq_ok_iff,
      finish_eq_ok_iff, returns_bodyToExpr_iff] at h
    obtain ⟨k, _, _, ⟨hkeyword, rfl⟩, n, _, _, ⟨⟨rfl, hn⟩, rfl⟩, _, _, _, ⟨rfl, rfl⟩, ps, _,
      ⟨⟨rfl, hps⟩, rfl⟩, ty, _, _, ⟨⟨rfl, hty⟩, rfl⟩, body, _, _, ⟨rfl, rfl⟩, e, _, ⟨hbody, he⟩,
      _, _, ⟨rfl, rfl⟩, rfl, rfl⟩ := h
    obtain ⟨rfl, hk⟩ := (takeKeyword_eq_ok_iff hn).1 hkeyword
    exact ⟨body, rfl, ⟨hk, hn, hps, hty⟩, hbody, he⟩
  · rintro ⟨body, rfl, ⟨hk, hn, hps, hty⟩, hbody, h⟩
    rw [childrenToFunction]
    refine .bind_lift ((takeKeyword_eq_ok_iff hn).2 ⟨rfl, hk⟩) ?_
    refine .bind_lift (takeLeaf_eq_ok_iff.2 ⟨rfl, hn⟩) (.bind_lift rfl ?_)
    refine .bind_lift (toParamList_eq_ok_iff.2 ⟨rfl, hps⟩) ?_
    refine .bind_lift (takeTypeSpec_eq_ok_iff.2 ⟨rfl, hty⟩) (.bind_lift rfl ?_)
    refine (returns_bodyToExpr_iff.2 ⟨hbody, h⟩).bind (.bind_lift rfl ?_)
    exact returns_pure_self

theorem returns_toFunction_iff {t : Tree} {f : FunctionDecl} :
    Returns t.toFunction s f s' ↔
      ∃ rule body, t = node rule (f.children body) ∧ rule ∈ [.pureFunction, .impureFunction] ∧
        f.Regular ∧ body.isBody = true ∧ Becomes body s f.body s' := by
  constructor
  · intro h
    unfold toFunction at h
    split at h
    · obtain ⟨body, rfl, hf, hbody, h⟩ := returns_childrenToFunction_iff.1 h
      exact ⟨.pureFunction, body, rfl, by simp, hf, hbody, h⟩
    · obtain ⟨body, rfl, hf, hbody, h⟩ := returns_childrenToFunction_iff.1 h
      exact ⟨.impureFunction, body, rfl, by simp, hf, hbody, h⟩
    · simp at h
  · rintro ⟨rule, body, rfl, hrule, h⟩
    have hfunction (parent : Rule) : Returns (childrenToFunction parent (f.children body)) s f s' :=
      returns_childrenToFunction_iff.2 ⟨body, rfl, h⟩
    rcases List.mem_pair.1 hrule with rfl | rfl
    · exact hfunction .pureFunction
    · exact hfunction .impureFunction

theorem returns_toProgram_iff {t : Tree} {p : Program} :
    Returns t.toProgram s p s' ↔
      ∃ row : List (Lowered FunctionDecl),
        t = node .program (row.map Lowered.tree ++ [ofLeaf p.eof]) ∧
        (∀ x ∈ row, Returns x.tree.toFunction x.first x.value x.next) ∧
        Lowered.Linked s row s' ∧ p.functions = row.map Lowered.value ∧ p.eof.kind = .eof := by
  constructor
  · intro h
    unfold toProgram at h
    split at h
    · simp only [returns_bind, returns_lift, returns_pure, Prod.exists, takeLeaf_eq_ok_iff,
        finish_eq_ok_iff, toFunctions_eq_collect, returns_collect_iff] at h
      obtain ⟨_, _, u, ⟨row, _, rfl, hrow, -, hs, hr⟩, eof, _, _, ⟨⟨rfl, heof⟩, rfl⟩, _, _,
        ⟨rfl, rfl⟩, rfl, rfl⟩ := h
      cases hr
      exact ⟨row, rfl, fun x hx => (hrow x hx).2, hs, by simp, heof⟩
    · simp at h
  · rintro ⟨row, rfl, hrow, hs, hfunctions, heof⟩
    have hleaf : ∀ x ∈ row, x.tree.isLeaf = false := by
      intro x hx
      obtain ⟨rule, body, hx, -⟩ := returns_toFunction_iff.1 (hrow x hx)
      rw [hx]
      rfl
    have hitems : Returns (toFunctions [] (row.map Lowered.tree ++ [ofLeaf p.eof])) s
        (row.map Lowered.value, [ofLeaf p.eof]) s' := by
      rw [toFunctions_eq_collect, returns_collect_iff]
      exact ⟨row, _, rfl, fun x hx => ⟨hleaf x hx, hrow x hx⟩, by simp, hs, by simp⟩
    rw [toProgram]
    refine hitems.bind (.bind_lift (takeLeaf_eq_ok_iff.2 ⟨rfl, heof⟩) (.bind_lift rfl ?_))
    rw [← hfunctions]
    exact returns_pure_self

end Tree

theorem lower_eq_ok_iff {t : Tree} {p : Program} :
    lower t = .ok p ↔ ∃ s, Returns t.toProgram 0 p s := by
  constructor
  · intro h
    exact ⟨_, Prod.ext h rfl⟩
  · rintro ⟨s, h⟩
    exact congrArg Prod.fst h

/-- Every function of a program has been read from a tree of its own. -/
theorem exists_toFunction_of_lower {t : Tree} {p : Program} (h : lower t = .ok p)
    {f : FunctionDecl} (hf : f ∈ p.functions) : ∃ u s s', Returns (Tree.toFunction u) s f s' := by
  obtain ⟨s, h⟩ := lower_eq_ok_iff.1 h
  obtain ⟨row, -, hrow, -, hfunctions, -⟩ := Tree.returns_toProgram_iff.1 h
  rw [hfunctions] at hf
  obtain ⟨x, hx, rfl⟩ := List.mem_map.1 hf
  exact ⟨x.tree, x.first, x.next, hrow x hx⟩

theorem regular_of_lower {t : Tree} {p : Program} (h : lower t = .ok p) :
    ∀ f ∈ p.functions, f.Regular := by
  intro f hf
  obtain ⟨u, s, s', hu⟩ := exists_toFunction_of_lower h hf
  obtain ⟨-, -, -, -, hregular, -⟩ := Tree.returns_toFunction_iff.1 hu
  exact hregular

end FunImp
