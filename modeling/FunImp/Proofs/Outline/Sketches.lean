import FunImp.Proofs.Outline.Reading
import FunImp.Proofs.Program.Leaves
import FunImp.Proofs.Writing.Sketch
import FunImp.Program.Outline

/-! # Outlines of expressions

The outline of an expression says as much as its sketch: each label tells which kind of expression
stands there, with its operator, digits or name. -/

namespace FunImp

namespace Sketch

/-- A sketch without the sketches in it. -/
inductive Head where
  | block
  | bare
  | statement
  | binary (op : Operator)
  | integer (digits : String)
  | reference (name : String)
  | call (name : String)

def Head.label : Head → String
  | block => "Expression \x7b\x7d"
  | bare => "Expression"
  | statement => "Statement"
  | binary op => op.symbol
  | integer digits => "Integer " ++ digits
  | reference name => "Identifier " ++ name
  | call name => "Call " ++ name

/-- The head that is called so, which the first characters tell. -/
def Head.ofLabel? : List Char → Option Head
  | ['+'] => some (binary .add)
  | ['-'] => some (binary .subtract)
  | ['*'] => some (binary .multiply)
  | ['/'] => some (binary .divide)
  | 'E' :: rest => if rest.length = 9 then some bare else some block
  | 'S' :: _ => some statement
  | 'I' :: 'n' :: rest => some (integer (.ofList (rest.drop 6)))
  | 'I' :: 'd' :: rest => some (reference (.ofList (rest.drop 9)))
  | 'C' :: rest => some (call (.ofList (rest.drop 4)))
  | _ => none

/-- The label tells the head, whatever its name or number is. -/
theorem Head.ofLabel?_label (head : Head) : ofLabel? head.label.toList = some head := by
  cases head with
  | block => rfl
  | bare => rfl
  | statement => rfl
  | binary op => cases op <;> rfl
  | integer digits =>
    rw [label, String.toList_append]
    exact congrArg (fun digits => some (integer digits)) String.ofList_toList
  | reference name =>
    rw [label, String.toList_append]
    exact congrArg (fun name => some (reference name)) String.ofList_toList
  | call name =>
    rw [label, String.toList_append]
    exact congrArg (fun name => some (call name)) String.ofList_toList

theorem Head.label_injective : Function.Injective Head.label := by
  intro a b h
  have hsome : some a = some b := by rw [← ofLabel?_label a, h, ofLabel?_label]
  exact Option.some.inj hsome

/-- What a sketch is without the sketches in it. -/
def head : Sketch → Head
  | block _ => .block
  | bare _ => .bare
  | statement _ => .statement
  | binary _ op _ => .binary op
  | integer digits => .integer digits
  | reference name => .reference name
  | call name _ => .call name

def children : Sketch → List Sketch
  | block items => items
  | bare child => [child]
  | statement child => [child]
  | binary left _ right => [left, right]
  | integer _ => []
  | reference _ => []
  | call _ arguments => arguments

theorem eq_of_head_eq {k k' : Sketch} (hhead : k.head = k'.head)
    (hchildren : k.children = k'.children) : k = k' := by
  cases k <;> cases k' <;> simp_all [head, children]

/-- Induction over sketches, with all sketches in one at once. -/
theorem induct {P : Sketch → Prop} (h : ∀ k, (∀ c ∈ k.children, P c) → P k) (k : Sketch) :
    P k := by
  refine @Sketch.rec P (fun ks => ∀ k ∈ ks, P k) ?_ ?_ ?_ ?_ ?_ ?_ ?_ ?_ ?_ k
  · exact fun items => h (block items)
  · exact fun child hc => h (bare child) (List.forall_mem_singleton.2 hc)
  · exact fun child hc => h (statement child) (List.forall_mem_singleton.2 hc)
  · exact fun left op right hl hr =>
      h (binary left op right) (List.forall_mem_cons.2 ⟨hl, List.forall_mem_singleton.2 hr⟩)
  · exact fun digits => h (integer digits) (List.forall_mem_nil P)
  · exact fun name => h (reference name) (List.forall_mem_nil P)
  · exact fun name arguments => h (call name arguments)
  · exact List.forall_mem_nil P
  · exact fun k ks hk hks => List.forall_mem_cons.2 ⟨hk, hks⟩

mutual

def outline (last : Bool) : Sketch → Outline
  | block items => .node Head.block.label last (outlines items)
  | bare child => .node Head.bare.label last [outline true child]
  | statement child => .node Head.statement.label last [outline true child]
  | binary left op right =>
    .node (Head.binary op).label last [outline false left, outline true right]
  | integer digits => .node (Head.integer digits).label last []
  | reference name => .node (Head.reference name).label last []
  | call name arguments => .node (Head.call name).label last (outlines arguments)

def outlines : List Sketch → List Outline
  | [] => []
  | k :: ks => outline ks.isEmpty k :: outlines ks

end

theorem outline_eq (last : Bool) (k : Sketch) :
    k.outline last = .node k.head.label last (outlines k.children) := by
  cases k <;> rfl

private theorem outlines_injective_of_forall {ks ks' : List Sketch}
    (h : ∀ k ∈ ks, ∀ k' last last', k.outline last = k'.outline last' → k = k')
    (houtlines : outlines ks = outlines ks') : ks = ks' := by
  induction ks generalizing ks' with
  | nil =>
    cases ks' with
    | nil => rfl
    | cons => cases houtlines
  | cons k ks ih =>
    obtain ⟨hk, hks⟩ := List.forall_mem_cons.1 h
    cases ks' with
    | nil => cases houtlines
    | cons k' ks' =>
      obtain ⟨hhead, htail⟩ := List.cons.inj houtlines
      rw [hk k' _ _ hhead, ih hks htail]

/-- Two sketches with one outline are the same, wherever they stand. -/
theorem eq_of_outline_eq (k k' : Sketch) (last last' : Bool)
    (h : k.outline last = k'.outline last') : k = k' := by
  induction k using induct generalizing k' last last' with
  | h k ih =>
    rw [outline_eq, outline_eq, Outline.node.injEq] at h
    obtain ⟨hlabel, -, hchildren⟩ := h
    exact eq_of_head_eq (Head.label_injective hlabel) (outlines_injective_of_forall ih hchildren)

end Sketch

namespace Expr

theorem isEmpty_allSketches (es : List Expr) : (allSketches es).isEmpty = es.isEmpty := by
  cases es <;> rfl

theorem isEmpty_argumentSketches (arguments : Separated Expr) :
    (argumentSketches arguments).isEmpty = arguments.isEmpty := by
  cases arguments <;> rfl

private theorem allOutlines_of_forall {es : List Expr}
    (h : ∀ e ∈ es, ∀ last, e.outline last = e.sketch.outline last) :
    allOutlines es = Sketch.outlines (allSketches es) := by
  induction es with
  | nil => rfl
  | cons e es ih =>
    obtain ⟨he, hes⟩ := List.forall_mem_cons.1 h
    rw [allOutlines, allSketches, Sketch.outlines, ih hes, he, isEmpty_allSketches]

private theorem argumentOutlines_of_forall {arguments : Separated Expr}
    (h : ∀ a ∈ arguments, ∀ last, a.1.outline last = a.1.sketch.outline last) :
    argumentOutlines arguments = Sketch.outlines (argumentSketches arguments) := by
  induction arguments with
  | nil => rfl
  | cons a arguments ih =>
    obtain ⟨ha, has⟩ := List.forall_mem_cons.1 h
    rw [argumentOutlines, argumentSketches, Sketch.outlines, ih has, ha, isEmpty_argumentSketches]

theorem outline_eq (e : Expr) (last : Bool) : e.outline last = e.sketch.outline last := by
  induction e using induct generalizing last with
  | block id o children c ih =>
    rw [outline, sketch, Sketch.outline, allOutlines_of_forall ih]
    rfl
  | bare id child ih =>
    rw [outline, sketch, Sketch.outline, ih]
    rfl
  | statement id child s ih =>
    rw [outline, sketch, Sketch.outline, ih]
    rfl
  | binary id left op s right ihl ihr =>
    rw [outline, sketch, Sketch.outline, ihl, ihr]
    rfl
  | integer => rfl
  | reference => rfl
  | call id n o arguments c ih =>
    rw [outline, sketch, Sketch.outline, argumentOutlines_of_forall ih]
    rfl

theorem mem_allOutlines {es : List Expr} {o : Outline} (h : o ∈ allOutlines es) :
    ∃ e ∈ es, ∃ last, o = e.outline last := by
  induction es with
  | nil => cases h
  | cons e es ih =>
    rcases List.mem_cons.1 h with rfl | h
    · exact ⟨e, List.mem_cons_self, _, rfl⟩
    · obtain ⟨e', he, ho⟩ := ih h
      exact ⟨e', List.mem_cons_of_mem _ he, ho⟩

theorem mem_argumentOutlines {arguments : Separated Expr} {o : Outline}
    (h : o ∈ argumentOutlines arguments) : ∃ a ∈ arguments, ∃ last, o = a.1.outline last := by
  induction arguments with
  | nil => cases h
  | cons a arguments ih =>
    rcases List.mem_cons.1 h with rfl | h
    · exact ⟨a, List.mem_cons_self, _, rfl⟩
    · obtain ⟨a', ha, ho⟩ := ih h
      exact ⟨a', List.mem_cons_of_mem _ ha, ho⟩

/-- An expression whose leaves have no line feeds is drawn with none in its labels. -/
theorem oneLined_outline (e : Expr) (last : Bool) (h : ∀ l ∈ e.leaves, '\n' ∉ l.text.toList) :
    (e.outline last).OneLined := by
  induction e using induct generalizing last with
  | block id o children c ih =>
    rw [leaves_block, List.forall_mem_append, List.forall_mem_cons] at h
    refine .node (by decide) fun u hu => ?_
    obtain ⟨e, he, last', rfl⟩ := mem_allOutlines hu
    exact ih e he last' fun l hl => h.1.2 l (List.mem_flatMap.2 ⟨e, he, hl⟩)
  | bare id child ih => exact .node (by decide) (List.forall_mem_singleton.2 (ih true h))
  | statement id child s ih =>
    rw [leaves_statement, List.forall_mem_append] at h
    exact .node (by decide) (List.forall_mem_singleton.2 (ih true h.1))
  | binary id left op s right ihl ihr =>
    rw [leaves_binary, List.forall_mem_append, List.forall_mem_cons] at h
    have hsymbol : '\n' ∉ op.symbol.toList := by cases op <;> decide
    exact .node hsymbol (List.forall_mem_cons.2 ⟨ihl false h.1,
      List.forall_mem_singleton.2 (ihr true h.2.2)⟩)
  | integer id l =>
    have hl := h l (List.mem_singleton_self l)
    exact .node (by simp [hl]) (List.forall_mem_nil _)
  | reference id l =>
    have hl := h l (List.mem_singleton_self l)
    exact .node (by simp [hl]) (List.forall_mem_nil _)
  | call id n o arguments c ih =>
    rw [leaves_call, List.forall_mem_append, List.forall_mem_cons, List.forall_mem_cons] at h
    refine .node (by simp [h.1.1]) fun u hu => ?_
    obtain ⟨a, ha, last', rfl⟩ := mem_argumentOutlines hu
    exact ih a ha last' fun l hl =>
      h.1.2.2 l (List.mem_flatMap.2 ⟨a, ha, List.mem_append_left _ hl⟩)

end Expr

end FunImp
