import Mathlib.Data.List.Basic
import FunImp.Outline

/-! # Reading outlines back

A line of an outline tells which of the nodes around its own are last children, whether its own
node is one, and the label, whatever that looks like. Lines in preorder, each with its depth,
determine the nodes: a node has those of the nodes behind it for children that are deeper, up to
the first one that is not. -/

namespace FunImp.Outline

/-- What is told about one node: whether the nodes around it are last children, the outermost
first, whether it is one itself, and its label. -/
structure Entry where
  around : List Bool
  last : Bool
  label : String
deriving DecidableEq

mutual

/-- The node and the nodes below it in preorder, inside nodes that are `around` them. -/
def entries (around : List Bool) : Outline → List Entry
  | node label last children =>
    ⟨around, last, label⟩ :: forestEntries (around ++ [last]) children

def forestEntries (around : List Bool) : List Outline → List Entry
  | [] => []
  | o :: os => entries around o ++ forestEntries around os

end

inductive OneLined : Outline → Prop where
  | node {label : String} {last : Bool} {children : List Outline} (hlabel : '\n' ∉ label.toList)
      (hchildren : ∀ o ∈ children, OneLined o) : OneLined (node label last children)

/-- Induction over outlines, with all children of a node at once. -/
@[elab_as_elim]
theorem induct {P : Outline → Prop}
    (node : ∀ label last children, (∀ o ∈ children, P o) → P (node label last children))
    (o : Outline) : P o := by
  refine @Outline.rec P (fun os => ∀ o ∈ os, P o) node ?_ ?_ o
  · exact List.forall_mem_nil P
  · exact fun o os ho hos => List.forall_mem_cons.2 ⟨ho, hos⟩

theorem forestEntries_eq (around : List Bool) (os : List Outline) :
    forestEntries around os = os.flatMap (entries around) := by
  induction os with
  | nil => rfl
  | cons o os ih => rw [forestEntries, ih, List.flatMap_cons]

theorem entries_node (around : List Bool) (label : String) (last : Bool)
    (children : List Outline) :
    entries around (node label last children) =
      ⟨around, last, label⟩ :: children.flatMap (entries (around ++ [last])) := by
  rw [entries, forestEntries_eq]

namespace Entry

def depth (e : Entry) : Nat := e.around.length

def line (e : Entry) : String :=
  String.join (e.around.map margin) ++ branch e.last ++ e.label

def inside (last : Bool) (e : Entry) : Entry := { e with around := last :: e.around }

def ofLine? : List Char → Option Entry
  | '|' :: ' ' :: cs => (ofLine? cs).map (inside false)
  | ' ' :: ' ' :: cs => (ofLine? cs).map (inside true)
  | '|' :: '-' :: cs => some ⟨[], false, .ofList cs⟩
  | '\\' :: '-' :: cs => some ⟨[], true, .ofList cs⟩
  | _ => none

theorem toList_line (e : Entry) :
    e.line.toList =
      e.around.flatMap (fun last => (margin last).toList) ++ (branch e.last).toList ++
        e.label.toList := by
  rw [line, String.toList_append, String.toList_append, String.toList_join, List.flatMap_map]

theorem ofLine?_margin (outer : Bool) (cs : List Char) :
    ofLine? ((margin outer).toList ++ cs) = (ofLine? cs).map (inside outer) := by
  cases outer <;> rfl

theorem ofLine?_branch (last : Bool) (label : String) :
    ofLine? ((branch last).toList ++ label.toList) = some ⟨[], last, label⟩ := by
  have hlabel : ofLine? ((branch last).toList ++ label.toList) =
      some ⟨[], last, .ofList label.toList⟩ := by
    cases last <;> rfl
  rw [hlabel, String.ofList_toList]

theorem ofLine?_line (e : Entry) : ofLine? e.line.toList = some e := by
  obtain ⟨around, last, label⟩ := e
  rw [toList_line]
  induction around with
  | nil => exact ofLine?_branch last label
  | cons outer around ih =>
    simp only [List.flatMap_cons, List.append_assoc] at ih ⊢
    rw [ofLine?_margin, ih]
    rfl

end Entry

/-- What the nodes around a line leave in front of it. -/
def margins (around : List Bool) : String := String.join (around.map margin)

theorem margins_append_singleton (around : List Bool) (last : Bool) :
    margins (around ++ [last]) = margins around ++ margin last := by
  apply String.toList_injective
  simp [margins]

private theorem forestLinesOnto_of_forall {os : List Outline}
    (h : ∀ o ∈ os, ∀ around below,
      linesOnto (margins around) below o = (entries around o).map Entry.line ++ below)
    (around : List Bool) (below : List String) :
    forestLinesOnto (margins around) below os =
      (os.flatMap (entries around)).map Entry.line ++ below := by
  induction os with
  | nil => rfl
  | cons o os ih =>
    obtain ⟨ho, hos⟩ := List.forall_mem_cons.1 h
    rw [forestLinesOnto, ih hos, ho, List.flatMap_cons, List.map_append, List.append_assoc]

theorem linesOnto_eq (o : Outline) (around : List Bool) (below : List String) :
    linesOnto (margins around) below o = (entries around o).map Entry.line ++ below := by
  induction o using induct generalizing around below with
  | node label last children ih =>
    rw [linesOnto, ← margins_append_singleton, forestLinesOnto_of_forall ih, entries_node,
      List.map_cons, List.cons_append]
    rfl

/-- One line is written for each node, in preorder. -/
theorem lines_eq (roots : List Outline) :
    lines roots = (forestEntries [] roots).map Entry.line := by
  have hlines := forestLinesOnto_of_forall (fun o (_ : o ∈ roots) => linesOnto_eq o) [] []
  rwa [List.append_nil, ← forestEntries_eq] at hlines

/-- A node and the depth at which it was found. -/
abbrev Placed : Type := Nat × Outline

/-- The node of the entry takes the deeper ones of those behind it for its children. -/
def plant (e : Entry) (behind : List Placed) : List Placed :=
  (e.depth, node e.label e.last ((behind.takeWhile (e.depth < ·.1)).map Prod.snd)) ::
    behind.dropWhile (e.depth < ·.1)

/-- The nodes that are told in preorder. -/
def ofEntries (es : List Entry) : List Outline := (es.foldr plant []).map Prod.snd

private theorem foldr_plant_of_forall {os : List Outline}
    (h : ∀ o ∈ os, ∀ around behind, (∀ b ∈ behind.head?, b.1 ≤ around.length) →
      (entries around o).foldr plant behind = (around.length, o) :: behind)
    (around : List Bool) (behind : List Placed)
    (hbehind : ∀ b ∈ behind.head?, b.1 ≤ around.length) :
    (os.flatMap (entries around)).foldr plant behind = os.map (around.length, ·) ++ behind := by
  induction os with
  | nil => rfl
  | cons o os ih =>
    obtain ⟨ho, hos⟩ := List.forall_mem_cons.1 h
    rw [List.flatMap_cons, List.foldr_append, ih hos, ho, List.map_cons, List.cons_append]
    cases os with
    | nil => exact hbehind
    | cons => simp

/-- In front of nodes that are no deeper the entries of a node are read as that node. -/
theorem foldr_plant_entries (o : Outline) (around : List Bool) (behind : List Placed)
    (h : ∀ b ∈ behind.head?, b.1 ≤ around.length) :
    (entries around o).foldr plant behind = (around.length, o) :: behind := by
  induction o using induct generalizing around behind with
  | node label last children ih =>
    have hlength : (around ++ [last]).length = around.length + 1 := List.length_append
    have hchildren := foldr_plant_of_forall ih (around ++ [last]) behind fun b hb => by
      have hb := h b hb
      omega
    have hdeeper : ∀ c ∈ children.map ((around ++ [last]).length, ·),
        decide (around.length < c.1) = true :=
      List.forall_mem_map.2 fun c _ => decide_eq_true (by rw [hlength]; exact Nat.lt_succ_self _)
    -- The nodes behind stay behind, since the first of them is not below this one.
    have hstop : behind.takeWhile (around.length < ·.1) = [] ∧
        behind.dropWhile (around.length < ·.1) = behind := by
      cases behind with
      | nil => exact ⟨rfl, rfl⟩
      | cons b behind =>
        have hb : ¬around.length < b.1 := Nat.not_lt.2 (h b rfl)
        simp [hb]
    rw [entries_node, List.foldr_cons, hchildren, plant, Entry.depth,
      List.takeWhile_append_of_pos hdeeper, List.dropWhile_append_of_pos hdeeper, hstop.1, hstop.2,
      List.append_nil, List.map_map]
    exact congrArg (fun cs => (around.length, node label last cs) :: behind) (List.map_id children)

theorem ofEntries_forestEntries (roots : List Outline) :
    ofEntries (forestEntries [] roots) = roots := by
  rw [ofEntries, forestEntries_eq,
    foldr_plant_of_forall (fun o _ => foldr_plant_entries o) [] [] (by simp), List.append_nil,
    List.map_map]
  exact List.map_id roots

/-- The nodes that a text draws. -/
def read? (text : String) : Option (List Outline) :=
  ((text.toList.splitOn '\n').dropLast.mapM Entry.ofLine?).map ofEntries

theorem splitOn_flatMap {ls : List (List Char)} (h : ∀ l ∈ ls, '\n' ∉ l) :
    (ls.flatMap (· ++ ['\n'])).splitOn '\n' = ls ++ [[]] := by
  induction ls with
  | nil => rfl
  | cons l ls ih =>
    obtain ⟨hl, hls⟩ := List.forall_mem_cons.1 h
    rw [List.flatMap_cons, List.append_assoc, List.singleton_append,
      List.splitOn_append_cons_self_of_not_mem hl, ih hls, List.cons_append]

theorem Entry.newline_not_mem_line {e : Entry} (h : '\n' ∉ e.label.toList) :
    '\n' ∉ e.line.toList := by
  have hmargin : ∀ last, '\n' ∉ (margin last).toList := by decide
  have hbranch : ∀ last, '\n' ∉ (branch last).toList := by decide
  rw [toList_line]
  simp [hmargin, hbranch, h]

theorem OneLined.newline_not_mem_label {o : Outline} (h : o.OneLined) (around : List Bool) :
    ∀ e ∈ entries around o, '\n' ∉ e.label.toList := by
  induction h generalizing around with
  | node hlabel _ ih =>
    rw [entries_node]
    refine List.forall_mem_cons.2 ⟨hlabel, fun e he => ?_⟩
    obtain ⟨c, hc, he⟩ := List.mem_flatMap.1 he
    exact ih c hc _ e he

theorem mapM_ofLine? (es : List Entry) :
    (es.map fun e => e.line.toList).mapM Entry.ofLine? = some es := by
  induction es with
  | nil => rfl
  | cons e es ih =>
    rw [List.map_cons, List.mapM_cons, Entry.ofLine?_line, ih]
    rfl

section Render

variable {roots : List Outline} (h : ∀ o ∈ roots, o.OneLined)
include h

/-- The lines of the text, the last of which is empty, are those of the nodes. -/
theorem splitOn_render :
    (render roots).toList.splitOn '\n' =
      (forestEntries [] roots).map (fun e => e.line.toList) ++ [[]] := by
  have htext : (render roots).toList =
      ((forestEntries [] roots).map fun e => e.line.toList).flatMap (· ++ ['\n']) := by
    rw [render, lines_eq]
    simp [String.toList_join, List.flatMap_map]
  rw [htext]
  refine splitOn_flatMap (List.forall_mem_map.2 fun e he => Entry.newline_not_mem_line ?_)
  rw [forestEntries_eq] at he
  obtain ⟨o, ho, he⟩ := List.mem_flatMap.1 he
  exact (h o ho).newline_not_mem_label [] e he

/-- What is drawn can be read back. -/
theorem read?_render : read? (render roots) = some roots := by
  rw [read?, splitOn_render h, List.dropLast_concat, mapM_ofLine?, Option.map_some,
    ofEntries_forestEntries]

end Render

end FunImp.Outline
