import FunImp.Proofs.Typing.Session
import FunImp.Proofs.Typing.Validate

/-! # What checking bodies leaves alone

The outcome of a check does not depend on the types that were recorded before, and the check
overwrites the types of a fixed set of numbers. So the bodies of a program can be checked each on
its own, and `Session.check_frame` puts the whole check together from these. -/

namespace FunImp

namespace TypeTable

theorem union_assoc (a b c : TypeTable) : a ∪ b ∪ c = a ∪ (b ∪ c) := by
  refine Std.ExtTreeMap.ext_getElem? fun id => ?_
  simp only [Std.ExtTreeMap.getElem?_union, Option.or_assoc]

theorem union_empty (a : TypeTable) : a ∪ ∅ = a := by
  refine Std.ExtTreeMap.ext_getElem? fun id => ?_
  simp only [Std.ExtTreeMap.getElem?_union, Std.ExtTreeMap.getElem?_empty, Option.none_or]

theorem empty_union (a : TypeTable) : ∅ ∪ a = a := by
  refine Std.ExtTreeMap.ext_getElem? fun id => ?_
  simp only [Std.ExtTreeMap.getElem?_union, Std.ExtTreeMap.getElem?_empty, Option.or_none]

theorem insert_eq_union (a : TypeTable) (id : NodeId) (ty : Ty) :
    a.insert id ty = a ∪ (∅ : TypeTable).insert id ty := by
  refine Std.ExtTreeMap.ext_getElem? fun other => ?_
  rw [Std.ExtTreeMap.getElem?_union, Std.ExtTreeMap.getElem?_insert,
    Std.ExtTreeMap.getElem?_insert, Std.ExtTreeMap.getElem?_empty]
  split <;> rfl

end TypeTable

/-- The check has one answer, and overwrites one set of types, whatever was recorded before. Their
numbers are among `ids`. -/
def Overwrites {α : Type} (ids : List NodeId) (m : Checking α) : Prop :=
  ∃ (answer : Except SemanticError α) (records : TypeTable),
    (∀ id ∈ records, id ∈ ids) ∧ ∀ types, m.run.run types = (answer, types ∪ records)

section Overwrites

variable {α β : Type} {ids : List NodeId}

theorem overwrites_of_eq {m : Checking α} {answer : Except SemanticError α}
    (h : ∀ types, m.run.run types = (answer, types)) : Overwrites ids m := by
  refine ⟨answer, ∅, fun id hid => absurd hid Std.ExtTreeMap.not_mem_empty, fun types => ?_⟩
  rw [h, TypeTable.union_empty]

theorem overwrites_pure (a : α) : Overwrites ids (pure a) := overwrites_of_eq fun _ => rfl

theorem overwrites_throw (e : SemanticError) : Overwrites (α := α) ids (throw e) :=
  overwrites_of_eq fun _ => rfl

theorem overwrites_lift (x : Except SemanticError α) : Overwrites ids (liftM x) :=
  overwrites_of_eq fun _ => rfl

theorem overwrites_record (id : NodeId) (ty : Ty) : Overwrites [id] (Checking.record id ty) := by
  refine ⟨.ok ty, (∅ : TypeTable).insert id ty, fun other hother => ?_, fun types => ?_⟩
  · rcases Std.ExtTreeMap.mem_insert.1 hother with heq | hmem
    · exact List.mem_singleton.2 (Std.LawfulEqCmp.compare_eq_iff_eq.1 heq).symm
    · exact absurd hmem Std.ExtTreeMap.not_mem_empty
  · change (Except.ok ty, types.insert id ty) = _
    rw [TypeTable.insert_eq_union]

theorem Overwrites.mono {more : List NodeId} {m : Checking α} (h : Overwrites ids m)
    (hsub : ids ⊆ more) : Overwrites more m := by
  obtain ⟨answer, records, hids, hrun⟩ := h
  exact ⟨answer, records, fun id hid => hsub (hids id hid), hrun⟩

theorem Overwrites.bind {more : List NodeId} {m : Checking α} {f : α → Checking β}
    (hm : Overwrites ids m) (hf : ∀ a, Overwrites more (f a)) :
    Overwrites (ids ++ more) (m >>= f) := by
  obtain ⟨e | a, records, hids, hrun⟩ := hm
  · refine ⟨.error e, records, fun id hid => List.mem_append_left _ (hids id hid), fun types => ?_⟩
    rw [run_bind_eq, hrun]
  · obtain ⟨answer, records', hids', hrun'⟩ := hf a
    refine ⟨answer, records ∪ records', fun id hid => ?_, fun types => ?_⟩
    · rcases Std.ExtTreeMap.mem_union_iff.1 hid with hid | hid
      · exact List.mem_append_left _ (hids id hid)
      · exact List.mem_append_right _ (hids' id hid)
    · rw [run_bind_eq, hrun]
      change (f a).run.run (types ∪ records) = _
      rw [hrun', TypeTable.union_assoc]

theorem overwrites_ite {c : Prop} [Decidable c] {m m' : Checking α} (h : Overwrites ids m)
    (h' : Overwrites ids m') : Overwrites ids (if c then m else m') := by
  split
  · exact h
  · exact h'

/-- What was overwritten is what is there if nothing was before. -/
theorem Overwrites.run_eq {m : Checking α} (h : Overwrites ids m) (types : TypeTable) :
    m.run.run types = ((m.run.run ∅).1, types ∪ (m.run.run ∅).2) := by
  obtain ⟨answer, records, -, hrun⟩ := h
  rw [hrun types, hrun ∅, TypeTable.empty_union]

theorem Overwrites.mem_of_mem {m : Checking α} (h : Overwrites ids m) {id : NodeId}
    (hid : id ∈ (m.run.run ∅).2) : id ∈ ids := by
  obtain ⟨answer, records, hids, hrun⟩ := h
  rw [hrun ∅, TypeTable.empty_union] at hid
  exact hids id hid

end Overwrites

namespace Expr

/-- The numbers of the expression and of everything in it. -/
def ids (e : Expr) : List NodeId := e.nodes.map Expr.id

variable {ctx : Context}

theorem overwrites_valueOf {es : List Expr} (h : ∀ e ∈ es, Overwrites e.ids (e.typeIn ctx))
    (value : Option Ty) : Overwrites ((allNodes es).map Expr.id) (valueOf ctx value es) := by
  induction es generalizing value with
  | nil =>
    rw [valueOf]
    exact overwrites_pure _
  | cons e es ih =>
    obtain ⟨he, hes⟩ := List.forall_mem_cons.1 h
    rw [valueOf, allNodes, List.map_append]
    exact overwrites_ite (overwrites_throw _) (he.bind fun ty => ih hes _)

theorem overwrites_checkArguments {arguments : Separated Expr}
    (h : ∀ a ∈ arguments, Overwrites a.1.ids (a.1.typeIn ctx)) (name : String) (position : Nat)
    (parameters : List Ty) :
    Overwrites ((argumentNodes arguments).map Expr.id)
      (checkArguments ctx name position parameters arguments) := by
  induction arguments generalizing position parameters with
  | nil =>
    rw [checkArguments]
    exact overwrites_pure _
  | cons a arguments ih =>
    obtain ⟨ha, has⟩ := List.forall_mem_cons.1 h
    cases parameters with
    | nil =>
      rw [checkArguments]
      exact overwrites_pure _
    | cons expected parameters =>
      rw [checkArguments, argumentNodes, List.map_append]
      exact ha.bind fun actual => overwrites_ite (ih has _ _) (overwrites_throw _)

/-- Typing an expression overwrites types of its own nodes only. -/
theorem overwrites_typeIn (ctx : Context) (e : Expr) : Overwrites e.ids (e.typeIn ctx) := by
  induction e using induct with
  | block id o children c ih =>
    rw [ids, typeIn, nodes, List.map_append]
    exact (overwrites_valueOf ih none).bind fun value => overwrites_record _ _
  | bare id child ih =>
    rw [ids, typeIn, nodes, List.map_append]
    exact ih.bind fun ty => overwrites_record _ _
  | statement id child s ih =>
    rw [ids, typeIn, nodes, List.map_append]
    exact ih.bind fun ty => overwrites_record _ _
  | binary id left op s right ihl ihr =>
    rw [ids, typeIn, nodes, List.append_assoc, List.map_append, List.map_append]
    exact ihl.bind fun l => ihr.bind fun r =>
      overwrites_ite (overwrites_record _ _) (overwrites_throw _)
  | integer id l =>
    rw [ids, typeIn, nodes]
    exact overwrites_record _ _
  | reference id name =>
    rw [ids, typeIn, nodes]
    exact (overwrites_lift _ : Overwrites [] _).bind fun ty => overwrites_record _ _
  | call id n o arguments c ih =>
    rw [ids, typeIn, nodes, List.map_append]
    refine (overwrites_lift _ : Overwrites [] _).bind fun f =>
      overwrites_ite ?_ (overwrites_throw _)
    exact (overwrites_checkArguments ih _ _ _).bind fun _ => overwrites_record _ _

end Expr

namespace FunctionDecl

/-- The numbers of the nodes in the body. -/
def ids (f : FunctionDecl) : List NodeId := f.body.ids

theorem overwrites_checkIn (f : FunctionDecl) (table : SymbolTable) (signature : Signature) :
    Overwrites f.ids (f.checkIn table signature) := by
  have hbody : Overwrites ([] ++ (f.ids ++ [])) (f.checkIn table signature) :=
    (overwrites_lift _).bind fun table => (f.body.overwrites_typeIn _).bind fun actual =>
      overwrites_ite (overwrites_throw _) (overwrites_pure _)
  simpa using hbody

end FunctionDecl

/-- What the check of one function alone finds and records. -/
def FunctionDecl.aloneIn (f : FunctionDecl) (table : SymbolTable) :
    List SemanticError × TypeTable :=
  checkFunctions table ∅ [f]

namespace FunctionDecl

variable {table : SymbolTable}

theorem aloneIn_of_error {f : FunctionDecl} {e : SemanticError}
    (h : f.signatureIn table = .error e) : f.aloneIn table = ([], ∅) := by
  rw [aloneIn, checkFunctions, h]
  rfl

theorem aloneIn_of_ok {f : FunctionDecl} {signature : Signature}
    (h : f.signatureIn table = .ok signature) :
    f.aloneIn table =
      (match ((f.checkIn table signature).run.run ∅).1 with
        | .ok _ => []
        | .error e => [e],
        ((f.checkIn table signature).run.run ∅).2) := by
  rw [aloneIn, checkFunctions, h]
  rcases hrun : (f.checkIn table signature).run.run ∅ with ⟨e | u, types⟩
  · simp only [hrun, checkFunctions]
  · simp only [hrun, checkFunctions]

theorem length_aloneIn_le (f : FunctionDecl) (table : SymbolTable) :
    (f.aloneIn table).1.length ≤ 1 := by
  cases h : f.signatureIn table with
  | error e => simp [aloneIn_of_error h]
  | ok signature =>
    rw [aloneIn_of_ok h]
    cases ((f.checkIn table signature).run.run ∅).1 <;> simp

theorem mem_ids_of_mem_aloneIn {f : FunctionDecl} {id : NodeId} (h : id ∈ (f.aloneIn table).2) :
    id ∈ f.ids := by
  cases hs : f.signatureIn table with
  | error e =>
    rw [aloneIn_of_error hs] at h
    exact absurd h Std.ExtTreeMap.not_mem_empty
  | ok signature =>
    rw [aloneIn_of_ok hs] at h
    exact (f.overwrites_checkIn table signature).mem_of_mem h

end FunctionDecl

theorem checkFunctions_cons (table : SymbolTable) (types : TypeTable) (f : FunctionDecl)
    (fs : List FunctionDecl) :
    checkFunctions table types (f :: fs) =
      ((f.aloneIn table).1 ++ (checkFunctions table (types ∪ (f.aloneIn table).2) fs).1,
        (checkFunctions table (types ∪ (f.aloneIn table).2) fs).2) := by
  rw [checkFunctions]
  cases hs : f.signatureIn table with
  | error e => simp [FunctionDecl.aloneIn_of_error hs, TypeTable.union_empty]
  | ok signature =>
    rw [FunctionDecl.aloneIn_of_ok hs]
    simp only [(f.overwrites_checkIn table signature).run_eq types]
    cases ((f.checkIn table signature).run.run ∅).1 <;> rfl

/-- The errors of functions come one function after the other, and their records are laid over
each other. -/
theorem checkFunctions_eq_alone (table : SymbolTable) (types : TypeTable)
    (fs : List FunctionDecl) :
    checkFunctions table types fs =
      (fs.flatMap fun f => (f.aloneIn table).1,
        fs.foldl (fun types f => types ∪ (f.aloneIn table).2) types) := by
  induction fs generalizing types with
  | nil => rfl
  | cons f fs ih =>
    rw [checkFunctions_cons, ih]
    rfl

section Overlay

variable {α : Type} (records : α → TypeTable)

theorem getElem?_overlay_of_not_mem {fs : List α} {id : NodeId}
    (h : ∀ f ∈ fs, id ∉ records f) (types : TypeTable) :
    (fs.foldl (fun types f => types ∪ records f) types)[id]? = types[id]? := by
  induction fs generalizing types with
  | nil => rfl
  | cons f fs ih =>
    obtain ⟨hf, hfs⟩ := List.forall_mem_cons.1 h
    rw [List.foldl_cons, ih hfs, Std.ExtTreeMap.getElem?_union_of_not_mem_right hf]

theorem getElem?_overlay_congr (fs : List α) {id : NodeId} {types types' : TypeTable}
    (h : types[id]? = types'[id]?) :
    (fs.foldl (fun types f => types ∪ records f) types)[id]? =
      (fs.foldl (fun types f => types ∪ records f) types')[id]? := by
  induction fs generalizing types types' with
  | nil => exact h
  | cons f fs ih =>
    refine ih ?_
    rw [Std.ExtTreeMap.getElem?_union, Std.ExtTreeMap.getElem?_union, h]

/-- Other records in one place change nothing at a number that is in neither of them. -/
theorem getElem?_overlay_replace {before behind : List α} {f g : α} {id : NodeId}
    (hf : id ∉ records f) (hg : id ∉ records g) (types : TypeTable) :
    ((before ++ g :: behind).foldl (fun types f => types ∪ records f) types)[id]? =
      ((before ++ f :: behind).foldl (fun types f => types ∪ records f) types)[id]? := by
  rw [List.foldl_append, List.foldl_append, List.foldl_cons, List.foldl_cons]
  refine getElem?_overlay_congr records behind ?_
  rw [Std.ExtTreeMap.getElem?_union_of_not_mem_right hf,
    Std.ExtTreeMap.getElem?_union_of_not_mem_right hg]

end Overlay

namespace Session

/-- What the check of a program with this function alone does, on the same symbol table and with
no types known. -/
def alone (s : Session) (p : Program) (f : FunctionDecl) : List SemanticError × Session :=
  check ⟨s.table, ∅⟩ { p with functions := [f] }

theorem alone_eq (s : Session) (p : Program) (f : FunctionDecl) :
    s.alone p f = ((f.aloneIn s.table).1, ⟨s.table, (f.aloneIn s.table).2⟩) :=
  check_eq s.table ∅ { p with functions := [f] }

theorem check_eq_alone (s : Session) (p : Program) :
    s.check p =
      (p.functions.flatMap fun f => (s.alone p f).1,
        ⟨s.table, p.functions.foldl (fun types f => types ∪ (s.alone p f).2.types) s.types⟩) := by
  have hfunctions := checkFunctions_eq_alone s.table s.types p.functions
  have hcheck := check_eq s.table s.types p
  rw [Program.checkIn, hfunctions] at hcheck
  simpa only [alone_eq] using hcheck

/-- Checking the bodies of a program on a symbol table leaves the table as it was, reports what
each function alone gives rise to, at most one error for each, and lays over the types what each
function alone records, which are nodes of its body. So another body for one function changes
neither the errors nor the types of the others. -/
theorem check_frame (s : Session) (p : Program) :
    s.check p = ((p.checkIn s.table s.types).1, ⟨s.table, (p.checkIn s.table s.types).2⟩) ∧
      (s.check p).2.table = s.table ∧
      (s.check p).1 = (p.functions.flatMap fun f => (s.alone p f).1) ∧
      (∀ f, (s.alone p f).1.length ≤ 1) ∧
      (s.check p).2.types =
        p.functions.foldl (fun types f => types ∪ (s.alone p f).2.types) s.types ∧
      (∀ f, ∀ id ∈ (s.alone p f).2.types, id ∈ f.ids) ∧
      (∀ id, id ∉ p.nodes.map Expr.id → (s.check p).2.types[id]? = s.types[id]?) ∧
      ∀ before f behind body, p.functions = before ++ f :: behind →
        let q := { p with functions := before ++ { f with body } :: behind }
        (s.check p).1 = (before.flatMap fun g => (s.alone p g).1) ++ (s.alone p f).1 ++
          (behind.flatMap fun g => (s.alone p g).1) ∧
        (s.check q).1 = (before.flatMap fun g => (s.alone p g).1) ++
          (s.alone p { f with body }).1 ++ (behind.flatMap fun g => (s.alone p g).1) ∧
        ∀ id, id ∉ f.ids → id ∉ body.ids →
          (s.check q).2.types[id]? = (s.check p).2.types[id]? := by
  have hids : ∀ f, ∀ id ∈ (s.alone p f).2.types, id ∈ f.ids := by
    intro f id hid
    rw [alone_eq] at hid
    exact FunctionDecl.mem_ids_of_mem_aloneIn hid
  have hp := check_eq_alone s p
  refine ⟨check_eq s.table s.types p, by rw [hp], by rw [hp], fun f => ?_, by rw [hp], hids,
    fun id hid => ?_, fun before f behind body hfunctions => ?_⟩
  · rw [alone_eq]
    exact f.length_aloneIn_le s.table
  · rw [hp]
    refine getElem?_overlay_of_not_mem _ (fun f hf hmem => hid ?_) s.types
    obtain ⟨n, hn, rfl⟩ := List.mem_map.1 (hids f id hmem)
    exact List.mem_map_of_mem (List.mem_flatMap.2 ⟨f, hf, hn⟩)
  · intro q
    have hq := check_eq_alone s q
    have halone : s.alone q = s.alone p := rfl
    rw [halone] at hq
    refine ⟨?_, ?_, fun id hf hbody => ?_⟩
    · rw [hp, hfunctions]
      simp
    · rw [hq]
      simp [q]
    · rw [hp, hq, hfunctions]
      have hold : id ∉ (s.alone p f).2.types := fun h => hf (hids f id h)
      have hnew : id ∉ (s.alone p { f with body }).2.types := fun h => hbody (hids _ id h)
      exact getElem?_overlay_replace (fun f => (s.alone p f).2.types) hold hnew s.types

/-- The types of `main` stay when the body of `same` becomes `1`. -/
theorem check_frame_sample :
    let s : Session := ⟨.new, ∅⟩
    let body : Expr := .integer 11 ⟨[], ⟨.integer, some "1", default, "sample"⟩⟩
    Program.sample.functions = [] ++ Program.sampleSame :: [Program.sampleMain] ∧
      11 ∉ Program.sample.nodes.map Expr.id ∧ (s.check Program.sample).2.types[11]? = none ∧
      10 ∈ Program.sampleMain.ids ∧ 10 ∉ Program.sampleSame.ids ∧ 10 ∉ body.ids ∧
      (s.check { Program.sample with
          functions := [] ++ { Program.sampleSame with body } :: [Program.sampleMain]
        }).2.types[10]? = (s.check Program.sample).2.types[10]? := by
  intro s body
  obtain ⟨-, -, -, -, -, -, houtside, hchange⟩ := check_frame s Program.sample
  have hnew : 11 ∉ Program.sample.nodes.map Expr.id := by decide
  have hold : 10 ∉ Program.sampleSame.ids := by decide
  have hbody : 10 ∉ body.ids := by decide
  have hids := (hchange [] Program.sampleSame [Program.sampleMain] body rfl).2.2 10 hold hbody
  exact ⟨rfl, hnew, houtside 11 hnew, by decide, hold, hbody, hids⟩

end Session

end FunImp
