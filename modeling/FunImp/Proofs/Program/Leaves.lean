import Mathlib.Data.List.Basic
import FunImp.Program.Basic

/-! # The leaves of an expression

An expression has the leaves and the tokens of its parts one after the other, and its leaves are
replaced part by part. -/

namespace FunImp.Expr

/-- Induction over expressions, with all children and arguments of a node at once. -/
@[elab_as_elim]
theorem induct {P : Expr → Prop}
    (block : ∀ id o children c, (∀ e ∈ children, P e) → P (.block id o children c))
    (bare : ∀ id child, P child → P (.bare id child))
    (statement : ∀ id child s, P child → P (.statement id child s))
    (binary : ∀ id left op s right, P left → P right → P (.binary id left op s right))
    (integer : ∀ id l, P (.integer id l))
    (reference : ∀ id l, P (.reference id l))
    (call : ∀ id n o arguments c, (∀ a ∈ arguments, P a.1) → P (.call id n o arguments c))
    (e : Expr) : P e := by
  -- The recursor has motives of its own for lists of children, lists of arguments and arguments.
  refine @Expr.rec P (fun es => ∀ e ∈ es, P e) (fun as => ∀ a ∈ as, P a.1) (fun a => P a.1)
    block bare statement binary integer reference call ?_ ?_ ?_ ?_ ?_ e
  · exact List.forall_mem_nil P
  · exact fun e es he hes => List.forall_mem_cons.2 ⟨he, hes⟩
  · exact List.forall_mem_nil _
  · exact fun a as ha has => List.forall_mem_cons.2 ⟨ha, has⟩
  · exact fun e _ he => he

/-- The leaves of an argument and of the separator behind it. -/
def argumentLeaves (argument : Expr × Option Leaf) : List Leaf :=
  argument.1.leaves ++ argument.2.toList

private theorem allLeavesOnto_of_forall {es : List Expr}
    (h : ∀ e ∈ es, ∀ following, e.leavesOnto following = e.leaves ++ following)
    (following : List Leaf) : allLeavesOnto following es = es.flatMap leaves ++ following := by
  induction es with
  | nil => rfl
  | cons e es ih =>
    obtain ⟨he, hes⟩ := List.forall_mem_cons.1 h
    rw [allLeavesOnto, he, ih hes, List.flatMap_cons, List.append_assoc]

private theorem argumentLeavesOnto_of_forall {arguments : Separated Expr}
    (h : ∀ a ∈ arguments, ∀ following, a.1.leavesOnto following = a.1.leaves ++ following)
    (following : List Leaf) :
    argumentLeavesOnto following arguments = arguments.flatMap argumentLeaves ++ following := by
  induction arguments with
  | nil => rfl
  | cons a arguments ih =>
    obtain ⟨ha, has⟩ := List.forall_mem_cons.1 h
    rw [argumentLeavesOnto, ha, ih has, List.flatMap_cons, argumentLeaves, List.append_assoc,
      List.append_assoc]

theorem leavesOnto_eq (e : Expr) (following : List Leaf) :
    e.leavesOnto following = e.leaves ++ following := by
  induction e using induct generalizing following with
  | block id o children c ih => simp [leaves, leavesOnto, allLeavesOnto_of_forall ih]
  | bare id child ih => exact ih following
  | statement id child s ih =>
    change leavesOnto (s :: following) child = leavesOnto [s] child ++ following
    rw [ih, ih, List.append_assoc, List.singleton_append]
  | binary id left op s right ihl ihr =>
    change leavesOnto (s :: leavesOnto following right) left =
      leavesOnto (s :: leavesOnto [] right) left ++ following
    rw [ihl, ihr, ihl, ihr, List.append_nil, List.append_assoc, List.cons_append]
  | integer => rfl
  | reference => rfl
  | call id n o arguments c ih => simp [leaves, leavesOnto, argumentLeavesOnto_of_forall ih]

theorem argumentLeavesOnto_eq (arguments : Separated Expr) (following : List Leaf) :
    argumentLeavesOnto following arguments = arguments.flatMap argumentLeaves ++ following :=
  argumentLeavesOnto_of_forall (fun a _ => leavesOnto_eq a.1) following

theorem leaves_block (id : NodeId) (o : Leaf) (children : List Expr) (c : Leaf) :
    (block id o children c).leaves = o :: children.flatMap leaves ++ [c] := by
  simp [leaves, leavesOnto, allLeavesOnto_of_forall fun e _ => leavesOnto_eq e]

theorem leaves_statement (id : NodeId) (child : Expr) (s : Leaf) :
    (statement id child s).leaves = child.leaves ++ [s] := by
  rw [leaves, leavesOnto, leavesOnto_eq]

theorem leaves_binary (id : NodeId) (left : Expr) (op : Operator) (s : Leaf)
    (right : Expr) :
    (binary id left op s right).leaves = left.leaves ++ s :: right.leaves := by
  rw [leaves, leavesOnto, leavesOnto_eq left]
  rfl

theorem leaves_call (id : NodeId) (n o : Leaf) (arguments : Separated Expr) (c : Leaf) :
    (call id n o arguments c).leaves = n :: o :: arguments.flatMap argumentLeaves ++ [c] := by
  simp [leaves, leavesOnto, argumentLeavesOnto_eq]

theorem tokens_block (id : NodeId) (o : Leaf) (children : List Expr) (c : Leaf) :
    (block id o children c).tokens = o.tokens ++ children.flatMap tokens ++ c.tokens := by
  have htokens : tokens = fun e => e.leaves.flatMap Leaf.tokens := rfl
  simp [htokens, leaves_block, List.flatMap_assoc]

theorem tokens_bare (id : NodeId) (child : Expr) : (bare id child).tokens = child.tokens := rfl

theorem tokens_statement (id : NodeId) (child : Expr) (s : Leaf) :
    (statement id child s).tokens = child.tokens ++ s.tokens := by
  simp [tokens, leaves_statement]

theorem tokens_binary (id : NodeId) (left : Expr) (op : Operator) (s : Leaf) (right : Expr) :
    (binary id left op s right).tokens = left.tokens ++ s.tokens ++ right.tokens := by
  simp [tokens, leaves_binary]

theorem tokens_integer (id : NodeId) (l : Leaf) : (integer id l).tokens = l.tokens :=
  List.flatMap_singleton _ _

theorem tokens_reference (id : NodeId) (l : Leaf) : (reference id l).tokens = l.tokens :=
  List.flatMap_singleton _ _

theorem tokens_call (id : NodeId) (n o : Leaf) (arguments : Separated Expr) (c : Leaf) :
    (call id n o arguments c).tokens =
      n.tokens ++ o.tokens ++ arguments.tokens Expr.tokens ++ c.tokens := by
  simp [tokens, leaves_call, argumentLeaves, Separated.tokens, List.flatMap_assoc]

theorem mapAllLeaves_eq (f : Leaf → Leaf) (es : List Expr) :
    mapAllLeaves f es = es.map (mapLeaves f) := by
  induction es with
  | nil => rfl
  | cons e es ih => rw [mapAllLeaves, ih, List.map_cons]

theorem mapArgumentLeaves_eq (f : Leaf → Leaf) (arguments : Separated Expr) :
    mapArgumentLeaves f arguments = arguments.map fun a => (a.1.mapLeaves f, a.2.map f) := by
  induction arguments with
  | nil => rfl
  | cons a arguments ih => rw [mapArgumentLeaves, ih, List.map_cons]

private theorem argumentLeaves_mapLeaves_of_forall {f : Leaf → Leaf} {arguments : Separated Expr}
    (h : ∀ a ∈ arguments, (a.1.mapLeaves f).leaves = a.1.leaves.map f) :
    (arguments.map fun a => (a.1.mapLeaves f, a.2.map f)).flatMap argumentLeaves =
      (arguments.flatMap argumentLeaves).map f := by
  rw [List.flatMap_map, List.map_flatMap]
  refine List.flatMap_congr fun a ha => ?_
  rw [argumentLeaves, argumentLeaves, h a ha, Option.toList_map, List.map_append]

theorem leaves_mapLeaves (f : Leaf → Leaf) (e : Expr) :
    (e.mapLeaves f).leaves = e.leaves.map f := by
  induction e using induct with
  | block id o children c ih =>
    have hchildren : children.flatMap (fun e => (e.mapLeaves f).leaves) =
        children.flatMap (fun e => e.leaves.map f) := List.flatMap_congr ih
    simp [mapLeaves, mapAllLeaves_eq, leaves_block, List.flatMap_map, List.map_flatMap, hchildren]
  | bare id child ih => exact ih
  | statement id child s ih => simp [mapLeaves, leaves_statement, ih]
  | binary id left op s right ihl ihr => simp [mapLeaves, leaves_binary, ihl, ihr]
  | integer => rfl
  | reference => rfl
  | call id n o arguments c ih =>
    simp [mapLeaves, mapArgumentLeaves_eq, leaves_call, argumentLeaves_mapLeaves_of_forall ih]

theorem argumentLeaves_mapLeaves (f : Leaf → Leaf) (arguments : Separated Expr) :
    (arguments.map fun a => (a.1.mapLeaves f, a.2.map f)).flatMap argumentLeaves =
      (arguments.flatMap argumentLeaves).map f :=
  argumentLeaves_mapLeaves_of_forall fun a _ => leaves_mapLeaves f a.1

theorem mapLeaves_congr {f g : Leaf → Leaf} (e : Expr) (h : ∀ l ∈ e.leaves, f l = g l) :
    e.mapLeaves f = e.mapLeaves g := by
  induction e using induct with
  | block id o children c ih =>
    rw [leaves_block, List.forall_mem_append, List.forall_mem_cons] at h
    have hchildren : children.map (mapLeaves f) = children.map (mapLeaves g) :=
      List.map_congr_left fun e he => ih e he fun l hl =>
        h.1.2 l (List.mem_flatMap.2 ⟨e, he, hl⟩)
    rw [mapLeaves, mapLeaves, mapAllLeaves_eq, mapAllLeaves_eq, hchildren, h.1.1,
      h.2 c (List.mem_singleton_self c)]
  | bare id child ih => rw [mapLeaves, mapLeaves, ih h]
  | statement id child s ih =>
    rw [leaves_statement, List.forall_mem_append, List.forall_mem_singleton] at h
    rw [mapLeaves, mapLeaves, ih h.1, h.2]
  | binary id left op s right ihl ihr =>
    rw [leaves_binary, List.forall_mem_append, List.forall_mem_cons] at h
    rw [mapLeaves, mapLeaves, ihl h.1, h.2.1, ihr h.2.2]
  | integer id l => rw [mapLeaves, mapLeaves, h l (List.mem_singleton_self l)]
  | reference id l => rw [mapLeaves, mapLeaves, h l (List.mem_singleton_self l)]
  | call id n o arguments c ih =>
    rw [leaves_call, List.forall_mem_append, List.forall_mem_cons, List.forall_mem_cons] at h
    have harguments : (arguments.map fun a => (a.1.mapLeaves f, a.2.map f)) =
        arguments.map fun a => (a.1.mapLeaves g, a.2.map g) := by
      refine List.map_congr_left fun a ha => ?_
      have hleaves : ∀ l ∈ argumentLeaves a, f l = g l := fun l hl =>
        h.1.2.2 l (List.mem_flatMap.2 ⟨a, ha, hl⟩)
      rw [argumentLeaves, List.forall_mem_append] at hleaves
      rw [ih a ha hleaves.1, Option.map_congr fun l hl => hleaves.2 l (Option.mem_toList.2 hl)]
    rw [mapLeaves, mapLeaves, mapArgumentLeaves_eq, mapArgumentLeaves_eq, harguments, h.1.1,
      h.1.2.1, h.2 c (List.mem_singleton_self c)]

end FunImp.Expr

namespace FunImp

variable {f g : Leaf → Leaf}

theorem TypeSpec.mapLeaves_congr (ty : TypeSpec) (h : ∀ l ∈ ty.leaves, f l = g l) :
    ty.mapLeaves f = ty.mapLeaves g := by
  rw [leaves, List.forall_mem_cons, List.forall_mem_singleton] at h
  rw [mapLeaves, mapLeaves, h.1, h.2]

theorem Param.mapLeaves_congr (q : Param) (h : ∀ l ∈ q.leaves, f l = g l) :
    q.mapLeaves f = q.mapLeaves g := by
  rw [leaves, List.forall_mem_append, List.forall_mem_cons] at h
  rw [mapLeaves, mapLeaves, h.1.1, q.type.mapLeaves_congr h.1.2,
    Option.map_congr fun l hl => h.2 l (Option.mem_toList.2 hl)]

theorem ParamList.mapLeaves_congr (ps : ParamList) (h : ∀ l ∈ ps.leaves, f l = g l) :
    ps.mapLeaves f = ps.mapLeaves g := by
  rw [leaves, List.forall_mem_append, List.forall_mem_cons, List.forall_mem_singleton] at h
  have hparams : ps.params.map (Param.mapLeaves f) = ps.params.map (Param.mapLeaves g) :=
    List.map_congr_left fun q hq => q.mapLeaves_congr fun l hl =>
      h.1.2 l (List.mem_flatMap.2 ⟨q, hq, hl⟩)
  rw [mapLeaves, mapLeaves, h.1.1, hparams, h.2]

theorem FunctionDecl.mapLeaves_congr (d : FunctionDecl) (h : ∀ l ∈ d.leaves, f l = g l) :
    d.mapLeaves f = d.mapLeaves g := by
  simp only [leaves, List.forall_mem_append, List.forall_mem_cons] at h
  obtain ⟨⟨⟨hkeyword, hname, hparameters⟩, hresult⟩, hbody⟩ := h
  rw [mapLeaves, mapLeaves, hname, d.parameters.mapLeaves_congr hparameters,
    d.result.mapLeaves_congr hresult, d.body.mapLeaves_congr hbody,
    Option.map_congr fun l hl => hkeyword l (Option.mem_toList.2 hl)]

theorem Program.mapLeaves_congr (p : Program) (h : ∀ l ∈ p.leaves, f l = g l) :
    p.mapLeaves f = p.mapLeaves g := by
  rw [leaves, List.forall_mem_append, List.forall_mem_singleton] at h
  have hfunctions : p.functions.map (FunctionDecl.mapLeaves f) =
      p.functions.map (FunctionDecl.mapLeaves g) :=
    List.map_congr_left fun d hd => d.mapLeaves_congr fun l hl =>
      h.1 l (List.mem_flatMap.2 ⟨d, hd, hl⟩)
  rw [mapLeaves, mapLeaves, hfunctions, h.2]

end FunImp
