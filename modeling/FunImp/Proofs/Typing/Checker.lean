import FunImp.Proofs.Program.Leaves
import FunImp.Proofs.Returns
import FunImp.Proofs.Typing.Rules

/-! # The checker decides the typing rules

Where a symbol table agrees with an environment, checking an expression succeeds if and only if
the expression has a type. It then answers that type and records the type of every node. -/

namespace FunImp

/-- From `s` to `s'` a type was recorded for every node and nothing else. If the numbers of nodes
differ, each node has one of its types by `R`: none was overwritten by that of another node. -/
structure Recorded (R : Expr → Ty → Prop) (nodes : List Expr) (s s' : TypeTable) : Prop where
  others : ∀ id, id ∉ nodes.map Expr.id → s'[id]? = s[id]?
  types : (nodes.map Expr.id).Nodup → ∀ n ∈ nodes, ∃ ty, R n ty ∧ s'[n.id]? = some ty

namespace Recorded

variable {R : Expr → Ty → Prop} {s t u : TypeTable}

theorem nil : Recorded R [] s s := ⟨fun _ _ => rfl, by simp⟩

theorem insert {e : Expr} {ty : Ty} (h : R e ty) : Recorded R [e] s (s.insert e.id ty) where
  others id hid := by
    have hne : e.id ≠ id := by
      rintro rfl
      simp at hid
    simp [Std.ExtTreeMap.getElem?_insert, hne]
  types _ n hn := by
    obtain rfl := List.mem_singleton.1 hn
    exact ⟨ty, h, by simp⟩

theorem append {ns ms : List Expr} (hn : Recorded R ns s t) (hm : Recorded R ms t u) :
    Recorded R (ns ++ ms) s u where
  others id hid := by
    rw [List.map_append, List.mem_append, not_or] at hid
    rw [hm.others id hid.2, hn.others id hid.1]
  types hnodup n hmem := by
    rw [List.map_append, List.nodup_append] at hnodup
    obtain ⟨hns, hms, hdisjoint⟩ := hnodup
    rcases List.mem_append.1 hmem with hmem | hmem
    · obtain ⟨ty, hty, hrecorded⟩ := hn.types hns n hmem
      have hid : n.id ∉ ms.map Expr.id := fun h =>
        hdisjoint _ (List.mem_map_of_mem hmem) _ h rfl
      exact ⟨ty, hty, by rw [hm.others _ hid, hrecorded]⟩
    · exact hm.types hms n hmem

theorem mono {R' : Expr → Ty → Prop} {ns : List Expr} (h : Recorded R ns s t)
    (hR : ∀ n ∈ ns, ∀ ty, R n ty → R' n ty) : Recorded R' ns s t where
  others := h.others
  types hnodup n hmem := by
    obtain ⟨ty, hty, hrecorded⟩ := h.types hnodup n hmem
    exact ⟨ty, hR n hmem ty hty, hrecorded⟩

end Recorded

/-- Names stand for the same things in the context as in the environment. -/
structure Context.Agrees (ctx : Context) (Γ : Env) : Prop where
  purity : ctx.purity = Γ.purity
  value : ∀ name ty, Γ.value name ty ↔
    ∃ v, ctx.table.lookup name = some (.value v) ∧ v.type = ty
  function : ∀ name parameters result purity,
    ((∀ ty, ¬Γ.value name ty) ∧ Γ.function name parameters result purity) ↔
      ∃ f, ctx.table.lookup name = some (.function f) ∧
        f.parameters = parameters ∧ f.result = result ∧ f.purity = purity

namespace Context

variable {ctx : Context} {Γ : Env}

theorem valueType_eq_ok {name : Leaf} {ty : Ty} :
    ctx.valueType name = .ok ty ↔
      ∃ v, ctx.table.lookup name.text = some (.value v) ∧ v.type = ty := by
  unfold valueType
  split
  · rename_i v h
    simp [h]
  · rename_i symbol hvalue h
    constructor
    · intro hok
      cases hok
    · rintro ⟨v, hv, -⟩
      exact absurd (Option.some.inj (h.symm.trans hv)) (hvalue v)
  · rename_i h
    simp [h]

theorem callee_eq_ok {name : Leaf} {f : Signature} :
    ctx.callee name = .ok f ↔
      ctx.table.lookup name.text = some (.function f) ∧
        (ctx.purity = .pure → f.purity = .pure) := by
  unfold callee
  split
  · rename_i g h
    by_cases hg : ctx.purity = .pure ∧ g.purity = .impure
    · rw [if_pos hg]
      constructor
      · intro hok
        cases hok
      · rintro ⟨hf, hpure⟩
        obtain rfl : g = f := by simpa [h] using hf
        simp [hpure hg.1] at hg
    · rw [if_neg hg, h]
      constructor
      · intro hok
        obtain rfl := Except.ok.inj hok
        refine ⟨rfl, fun hpure => ?_⟩
        cases hpurity : g.purity with
        | pure => rfl
        | impure => exact absurd ⟨hpure, hpurity⟩ hg
      · rintro ⟨hf, -⟩
        simpa using hf
  · rename_i hfunction
    constructor
    · intro hok
      cases hok
    · rintro ⟨hf, -⟩
      exact absurd hf (hfunction f)

end Context

@[simp] theorem Checking.returns_record {id : NodeId} {ty a : Ty} {s s' : TypeTable} :
    Returns (Checking.record id ty) s a s' ↔ ty = a ∧ s.insert id a = s' := by
  change ((.ok ty, s.insert id ty) : Except SemanticError Ty × TypeTable) = (.ok a, s') ↔ _
  constructor
  · intro h
    cases h
    exact ⟨rfl, rfl⟩
  · rintro ⟨rfl, rfl⟩
    rfl

theorem HasType.eq_void {Γ : Env} {e : Expr} {ty : Ty} (h : HasType Γ e ty)
    (hs : e.isStatement) : ty = .void := by
  cases h with
  | statement => rfl
  | _ => cases hs

namespace Expr

/-- The children of a block are well typed and have the value, if they have one. -/
inductive RowHasType (Γ : Env) : List Expr → Option Ty → Prop where
  | nil : RowHasType Γ [] none
  | last {e : Expr} {ty : Ty} (hn : e.isStatement = false) (h : HasType Γ e ty) :
      RowHasType Γ [e] (some ty)
  | cons {e : Expr} {es : List Expr} {value : Option Ty} (hs : e.isStatement)
      (h : HasType Γ e .void) (hr : RowHasType Γ es value) : RowHasType Γ (e :: es) value

theorem rowHasType_iff {Γ : Env} {es : List Expr} {value : Option Ty} :
    RowHasType Γ es value ↔
      (value = none ∧ (∀ e ∈ es, e.isStatement) ∧ ∀ e ∈ es, HasType Γ e .void) ∨
      ∃ front last ty, es = front ++ [last] ∧ value = some ty ∧ (∀ e ∈ front, e.isStatement) ∧
        (∀ e ∈ front, HasType Γ e .void) ∧ last.isStatement = false ∧ HasType Γ last ty := by
  constructor
  · intro h
    induction h with
    | nil => exact .inl ⟨rfl, by simp, by simp⟩
    | last hn h => exact .inr ⟨[], _, _, rfl, rfl, by simp, by simp, hn, h⟩
    | @cons e es value hs h _ ih =>
      rcases ih with ⟨rfl, hall, htypes⟩ | ⟨front, last, ty, rfl, rfl, hall, htypes, hn, hl⟩
      · exact .inl ⟨rfl, List.forall_mem_cons.2 ⟨hs, hall⟩, List.forall_mem_cons.2 ⟨h, htypes⟩⟩
      · exact .inr ⟨e :: front, last, ty, rfl, rfl, List.forall_mem_cons.2 ⟨hs, hall⟩,
          List.forall_mem_cons.2 ⟨h, htypes⟩, hn, hl⟩
  · rintro (⟨rfl, hall, htypes⟩ | ⟨front, last, ty, rfl, rfl, hall, htypes, hn, hl⟩)
    · induction es with
      | nil => exact .nil
      | cons e es ih =>
        obtain ⟨hs, hall⟩ := List.forall_mem_cons.1 hall
        obtain ⟨h, htypes⟩ := List.forall_mem_cons.1 htypes
        exact .cons hs h (ih hall htypes)
    · induction front with
      | nil => exact .last hn hl
      | cons e es ih =>
        obtain ⟨hs, hall⟩ := List.forall_mem_cons.1 hall
        obtain ⟨h, htypes⟩ := List.forall_mem_cons.1 htypes
        exact .cons hs h (ih hall htypes)

theorem hasType_block_iff {Γ : Env} {id : NodeId} {o c : Leaf} {es : List Expr} {ty : Ty} :
    HasType Γ (.block id o es c) ty ↔ ∃ value, RowHasType Γ es value ∧ value.getD .void = ty := by
  constructor
  · intro h
    cases h with
    | statements hs h => exact ⟨none, rowHasType_iff.2 (.inl ⟨rfl, hs, h⟩), rfl⟩
    | value hs h hn hl =>
      exact ⟨some ty, rowHasType_iff.2 (.inr ⟨_, _, ty, rfl, rfl, hs, h, hn, hl⟩), rfl⟩
  · rintro ⟨value, hrow, rfl⟩
    rcases rowHasType_iff.1 hrow with ⟨rfl, hs, h⟩ | ⟨front, last, ty, rfl, rfl, hs, h, hn, hl⟩
    · exact .statements hs h
    · exact .value hs h hn hl

section Returns

variable {ctx : Context} {id : NodeId} {s s' : TypeTable} {ty : Ty}

theorem returns_block {o c : Leaf} {es : List Expr} :
    Returns (typeIn ctx (.block id o es c)) s ty s' ↔
      ∃ value t, Returns (valueOf ctx none es) s value t ∧ value.getD .void = ty ∧
        t.insert id ty = s' := by
  rw [typeIn]
  simp

theorem returns_bare {child : Expr} :
    Returns (typeIn ctx (.bare id child)) s ty s' ↔
      ∃ a t, Returns (typeIn ctx child) s a t ∧ (if child.isStatement then .void else a) = ty ∧
        t.insert id ty = s' := by
  rw [typeIn]
  simp

theorem returns_statement {child : Expr} {semicolon : Leaf} :
    Returns (typeIn ctx (.statement id child semicolon)) s ty s' ↔
      ∃ a t, Returns (typeIn ctx child) s a t ∧ .void = ty ∧ t.insert id ty = s' := by
  rw [typeIn]
  simp

theorem returns_binary {left right : Expr} {operator : Operator} {sign : Leaf} :
    Returns (typeIn ctx (.binary id left operator sign right)) s ty s' ↔
      ∃ t u, Returns (typeIn ctx left) s ty t ∧ Returns (typeIn ctx right) t ty u ∧
        u.insert id ty = s' := by
  rw [typeIn]
  simp

theorem returns_integer {l : Leaf} :
    Returns (typeIn ctx (.integer id l)) s ty s' ↔ .int = ty ∧ s.insert id ty = s' := by
  rw [typeIn]
  simp

theorem returns_reference {name : Leaf} :
    Returns (typeIn ctx (.reference id name)) s ty s' ↔
      ctx.valueType name = .ok ty ∧ s.insert id ty = s' := by
  rw [typeIn]
  simp

theorem returns_call {name o c : Leaf} {arguments : Separated Expr} :
    Returns (typeIn ctx (.call id name o arguments c)) s ty s' ↔
      ∃ f t, ctx.callee name = .ok f ∧ arguments.length = f.parameters.length ∧
        Returns (checkArguments ctx f.name 1 f.parameters arguments) s () t ∧ f.result = ty ∧
        t.insert id ty = s' := by
  rw [typeIn]
  simp [Unique.exists_iff]

theorem returns_valueOf_cons {e : Expr} {es : List Expr} {value : Option Ty} :
    Returns (valueOf ctx none (e :: es)) s value s' ↔
      ∃ a t, Returns (typeIn ctx e) s a t ∧
        Returns (valueOf ctx (if e.isStatement then none else some a) es) t value s' := by
  rw [valueOf]
  simp

theorem returns_valueOf_some {es : List Expr} {value : Option Ty} :
    Returns (valueOf ctx (some ty) es) s value s' ↔ es = [] ∧ some ty = value ∧ s = s' := by
  cases es with
  | nil => simp [valueOf]
  | cons e es => simp [valueOf]

theorem returns_checkArguments_cons {name : String} {position : Nat} {parameters : List Ty}
    {e : Expr} {separator : Option Leaf} {rest : Separated Expr} :
    Returns (checkArguments ctx name position (ty :: parameters) ((e, separator) :: rest)) s () s' ↔
      ∃ t, Returns (typeIn ctx e) s ty t ∧
        Returns (checkArguments ctx name (position + 1) parameters rest) t () s' := by
  rw [checkArguments]
  simp

end Returns

/-- Checking the expression is the same as typing it, and records its nodes. -/
structure Decides (ctx : Context) (Γ : Env) (e : Expr) : Prop where
  sound : ∀ {s ty s'}, Returns (e.typeIn ctx) s ty s' →
    HasType Γ e ty ∧ Recorded (HasType Γ) e.nodes s s'
  complete : ∀ {ty}, HasType Γ e ty → ∀ s, ∃ s', Returns (e.typeIn ctx) s ty s'

variable {ctx : Context} {Γ : Env}

theorem sound_valueOf {es : List Expr} (h : ∀ e ∈ es, Decides ctx Γ e) {s s' : TypeTable}
    {value : Option Ty} (hr : Returns (valueOf ctx none es) s value s') :
    RowHasType Γ es value ∧ Recorded (HasType Γ) (allNodes es) s s' := by
  induction es generalizing s with
  | nil =>
    rw [valueOf, returns_pure] at hr
    obtain ⟨rfl, rfl⟩ := hr
    exact ⟨.nil, .nil⟩
  | cons e es ih =>
    obtain ⟨he, hes⟩ := List.forall_mem_cons.1 h
    obtain ⟨ty, t, hfirst, hrest⟩ := returns_valueOf_cons.1 hr
    obtain ⟨hty, hrecorded⟩ := he.sound hfirst
    by_cases hs : e.isStatement
    · obtain rfl := HasType.eq_void hty hs
      rw [if_pos hs] at hrest
      obtain ⟨hrow, hrecorded'⟩ := ih hes hrest
      exact ⟨.cons hs hty hrow, hrecorded.append hrecorded'⟩
    · rw [if_neg hs] at hrest
      obtain ⟨rfl, rfl, rfl⟩ := returns_valueOf_some.1 hrest
      exact ⟨.last (by simpa using hs) hty, by simpa [allNodes] using hrecorded⟩

theorem complete_valueOf {es : List Expr} (h : ∀ e ∈ es, Decides ctx Γ e) {value : Option Ty}
    (hr : RowHasType Γ es value) (s : TypeTable) :
    ∃ s', Returns (valueOf ctx none es) s value s' := by
  induction hr generalizing s with
  | nil => exact ⟨s, by rw [valueOf, returns_pure]; exact ⟨rfl, rfl⟩⟩
  | last hn hty =>
    obtain ⟨t, ht⟩ := (h _ List.mem_cons_self).complete hty s
    refine ⟨t, returns_valueOf_cons.2 ⟨_, t, ht, ?_⟩⟩
    rw [if_neg (by simp [hn])]
    exact returns_valueOf_some.2 ⟨rfl, rfl, rfl⟩
  | cons hs hty _ ih =>
    obtain ⟨he, hes⟩ := List.forall_mem_cons.1 h
    obtain ⟨t, ht⟩ := he.complete hty s
    obtain ⟨s', hs'⟩ := ih hes t
    refine ⟨s', returns_valueOf_cons.2 ⟨_, t, ht, ?_⟩⟩
    rwa [if_pos hs]

theorem sound_checkArguments {arguments : Separated Expr}
    (h : ∀ a ∈ arguments, Decides ctx Γ a.1) {parameters : List Ty}
    (hl : arguments.length = parameters.length) {name : String} {position : Nat}
    {s s' : TypeTable}
    (hr : Returns (checkArguments ctx name position parameters arguments) s () s') :
    (∀ a ∈ arguments.zip parameters, HasType Γ a.1.1 a.2) ∧
      Recorded (HasType Γ) (argumentNodes arguments) s s' := by
  induction arguments generalizing parameters position s with
  | nil =>
    rw [checkArguments, returns_pure] at hr
    obtain ⟨-, rfl⟩ := hr
    exact ⟨by simp, .nil⟩
  | cons a arguments ih =>
    cases parameters with
    | nil => cases hl
    | cons ty parameters =>
      obtain ⟨ha, harguments⟩ := List.forall_mem_cons.1 h
      obtain ⟨t, hfirst, hrest⟩ := returns_checkArguments_cons.1 hr
      obtain ⟨hty, hrecorded⟩ := ha.sound hfirst
      obtain ⟨htypes, hrecorded'⟩ := ih harguments (Nat.succ.inj hl) hrest
      exact ⟨List.forall_mem_cons.2 ⟨hty, htypes⟩, hrecorded.append hrecorded'⟩

theorem complete_checkArguments {arguments : Separated Expr}
    (h : ∀ a ∈ arguments, Decides ctx Γ a.1) {parameters : List Ty}
    (hl : arguments.length = parameters.length)
    (ht : ∀ a ∈ arguments.zip parameters, HasType Γ a.1.1 a.2) (name : String) (position : Nat)
    (s : TypeTable) :
    ∃ s', Returns (checkArguments ctx name position parameters arguments) s () s' := by
  induction arguments generalizing parameters position s with
  | nil => exact ⟨s, by rw [checkArguments, returns_pure]; exact ⟨rfl, rfl⟩⟩
  | cons a arguments ih =>
    cases parameters with
    | nil => cases hl
    | cons ty parameters =>
      obtain ⟨ha, harguments⟩ := List.forall_mem_cons.1 h
      obtain ⟨hty, htypes⟩ := List.forall_mem_cons.1 ht
      obtain ⟨t, ht⟩ := ha.complete hty s
      obtain ⟨s', hs'⟩ := ih harguments (Nat.succ.inj hl) htypes (position + 1) t
      exact ⟨s', returns_checkArguments_cons.2 ⟨t, ht, hs'⟩⟩

theorem decides_block {id : NodeId} {o c : Leaf} {es : List Expr}
    (h : ∀ e ∈ es, Decides ctx Γ e) : Decides ctx Γ (.block id o es c) where
  sound hr := by
    obtain ⟨value, t, hvalue, rfl, rfl⟩ := returns_block.1 hr
    obtain ⟨hrow, hrecorded⟩ := sound_valueOf h hvalue
    have hty : HasType Γ (.block id o es c) _ := hasType_block_iff.2 ⟨value, hrow, rfl⟩
    exact ⟨hty, hrecorded.append (.insert hty)⟩
  complete hty s := by
    obtain ⟨value, hrow, rfl⟩ := hasType_block_iff.1 hty
    obtain ⟨t, ht⟩ := complete_valueOf h hrow s
    exact ⟨_, returns_block.2 ⟨value, t, ht, rfl, rfl⟩⟩

theorem decides_bare {id : NodeId} {child : Expr} (h : Decides ctx Γ child) :
    Decides ctx Γ (.bare id child) := by
  -- A statement is of type void anyway, so it does not matter that the rule does not ask for one.
  have hvoid {ty : Ty} (hty : HasType Γ child ty) :
      (if child.isStatement then .void else ty) = ty := by
    split
    · exact (hty.eq_void ‹_›).symm
    · rfl
  constructor
  · intro s ty s' hr
    obtain ⟨a, t, hchild, rfl, rfl⟩ := returns_bare.1 hr
    obtain ⟨hty, hrecorded⟩ := h.sound hchild
    rw [hvoid hty]
    exact ⟨.bare hty, hrecorded.append (.insert (e := .bare id child) (.bare hty))⟩
  · intro ty hty s
    cases hty with
    | bare hchild =>
      obtain ⟨t, ht⟩ := h.complete hchild s
      exact ⟨_, returns_bare.2 ⟨ty, t, ht, hvoid hchild, rfl⟩⟩

theorem decides_statement {id : NodeId} {child : Expr} {semicolon : Leaf}
    (h : Decides ctx Γ child) : Decides ctx Γ (.statement id child semicolon) where
  sound hr := by
    obtain ⟨a, t, hchild, rfl, rfl⟩ := returns_statement.1 hr
    obtain ⟨hty, hrecorded⟩ := h.sound hchild
    have hvoid : HasType Γ (.statement id child semicolon) .void := .statement hty
    exact ⟨hvoid, hrecorded.append (.insert hvoid)⟩
  complete hty s := by
    cases hty with
    | statement hchild =>
      obtain ⟨t, ht⟩ := h.complete hchild s
      exact ⟨_, returns_statement.2 ⟨_, t, ht, rfl, rfl⟩⟩

theorem decides_binary {id : NodeId} {left right : Expr} {operator : Operator} {sign : Leaf}
    (hl : Decides ctx Γ left) (hr : Decides ctx Γ right) :
    Decides ctx Γ (.binary id left operator sign right) where
  sound {s ty s'} hreturns := by
    obtain ⟨t, u, hleft, hright, rfl⟩ := returns_binary.1 hreturns
    obtain ⟨hleft, hrecorded⟩ := hl.sound hleft
    obtain ⟨hright, hrecorded'⟩ := hr.sound hright
    have hty : HasType Γ (.binary id left operator sign right) ty := .binary hleft hright
    exact ⟨hty, (hrecorded.append hrecorded').append (.insert hty)⟩
  complete hty s := by
    cases hty with
    | binary hleft hright =>
      obtain ⟨t, ht⟩ := hl.complete hleft s
      obtain ⟨u, hu⟩ := hr.complete hright t
      exact ⟨_, returns_binary.2 ⟨t, u, ht, hu, rfl⟩⟩

theorem decides_integer (id : NodeId) (l : Leaf) : Decides ctx Γ (.integer id l) where
  sound hr := by
    obtain ⟨rfl, rfl⟩ := returns_integer.1 hr
    exact ⟨.integer, .insert .integer⟩
  complete hty s := by
    cases hty
    exact ⟨_, returns_integer.2 ⟨rfl, rfl⟩⟩

theorem decides_reference (hctx : ctx.Agrees Γ) (id : NodeId) (name : Leaf) :
    Decides ctx Γ (.reference id name) where
  sound {s ty s'} hr := by
    obtain ⟨hvalue, rfl⟩ := returns_reference.1 hr
    have hty : HasType Γ (.reference id name) ty :=
      .reference ((hctx.value _ _).2 (Context.valueType_eq_ok.1 hvalue))
    exact ⟨hty, .insert hty⟩
  complete hty s := by
    cases hty with
    | reference h =>
      have hvalue := Context.valueType_eq_ok.2 ((hctx.value _ _).1 h)
      exact ⟨_, returns_reference.2 ⟨hvalue, rfl⟩⟩

theorem decides_call (hctx : ctx.Agrees Γ) {id : NodeId} {name o c : Leaf}
    {arguments : Separated Expr} (h : ∀ a ∈ arguments, Decides ctx Γ a.1) :
    Decides ctx Γ (.call id name o arguments c) where
  sound hr := by
    obtain ⟨f, t, hcallee, hl, harguments, rfl, rfl⟩ := returns_call.1 hr
    obtain ⟨hlookup, hpure⟩ := Context.callee_eq_ok.1 hcallee
    obtain ⟨hv, hf⟩ := (hctx.function _ _ _ _).2 ⟨f, hlookup, rfl, rfl, rfl⟩
    obtain ⟨htypes, hrecorded⟩ := sound_checkArguments h hl harguments
    have hty : HasType Γ (.call id name o arguments c) f.result :=
      .call hv hf (hctx.purity ▸ hpure) hl htypes
    exact ⟨hty, hrecorded.append (.insert hty)⟩
  complete hty s := by
    cases hty with
    | call hv hf hp hl ha =>
      obtain ⟨f, hlookup, rfl, rfl, rfl⟩ := (hctx.function _ _ _ _).1 ⟨hv, hf⟩
      have hcallee := Context.callee_eq_ok.2 ⟨hlookup, fun h => hp (hctx.purity ▸ h)⟩
      obtain ⟨t, ht⟩ := complete_checkArguments h hl ha f.name 1 s
      exact ⟨_, returns_call.2 ⟨f, t, hcallee, hl, ht, rfl, rfl⟩⟩

/-- The checker decides the typing rules. -/
theorem decides (hctx : ctx.Agrees Γ) (e : Expr) : Decides ctx Γ e := by
  induction e using induct with
  | block id o es c ih => exact decides_block ih
  | bare id child ih => exact decides_bare ih
  | statement id child semicolon ih => exact decides_statement ih
  | binary id left operator sign right ihl ihr => exact decides_binary ihl ihr
  | integer id l => exact decides_integer id l
  | reference id name => exact decides_reference hctx id name
  | call id name o arguments c ih => exact decides_call hctx ih

end Expr

end FunImp
