import FunImp.Proofs.Lowering.Total
import FunImp.Proofs.Writing.Sketch

/-! # The trees of sketches

Every sketch that can be written has a tree that follows the grammar, whose leaves are the lexemes
of the sketch, and which becomes an expression with that sketch. -/

namespace FunImp

open Lexer

/-- The lexeme as a leaf without white space and place. -/
def Lexer.Lexeme.leaf (x : Lexeme) : Leaf := ⟨[], ⟨x.kind, some (.ofList x.chars), default, ""⟩⟩

namespace Lexer.Lexeme

open FunImp.Tree

@[simp] theorem kind_leaf (x : Lexeme) : x.leaf.kind = x.kind := rfl

/-- The lexeme as the tree of its leaf. -/
def tree (x : Lexeme) : Tree := ofLeaf x.leaf

theorem isLeaf_tree {x : Lexeme} {kinds : List Token.Kind} (h : x.kind ∈ kinds) :
    IsLeaf kinds x.tree :=
  ⟨_, rfl, h⟩

@[simp] theorem leaves_tree (x : Lexeme) : x.tree.leaves = [x.leaf] := leaves_ofLeaf _

@[simp] theorem ruleDepth_tree (x : Lexeme) : x.tree.ruleDepth = 0 := ruleDepth_ofLeaf _

end Lexer.Lexeme

@[simp] theorem kind_fixed (kind : Token.Kind) : (fixed kind).kind = kind := rfl

@[simp] theorem kind_nameLexeme (name : String) : (nameLexeme name).kind = .identifier := rfl

@[simp] theorem text_leaf_nameLexeme (name : String) : (nameLexeme name).leaf.text = name :=
  String.ofList_toList

namespace Tree

/-- Whatever the next number is, the tree becomes an expression with the sketch. -/
def Means (t : Tree) (k : Sketch) : Prop := ∀ s, ∃ e s', Becomes t s e s' ∧ e.sketch = k

/-- The tree has the lexemes of the sketch and means it. -/
structure Renders (t : Tree) (k : Sketch) (depth : Nat) : Prop where
  leaves : t.leaves = k.write.map Lexeme.leaf
  depth : t.ruleDepth = depth
  means : t.Means k

/-- The place of what is bound at least as tightly. -/
def tierPlace : Nat → Place
  | 0 => .term
  | 1 => .factor
  | _ => .element

def tierRule : Nat → Rule
  | 0 => .term
  | _ => .factor

def tierSigns : Nat → List Token.Kind
  | 0 => [.plus, .minus]
  | _ => [.star, .slash]

theorem tierRule_eq (n : Nat) : tierRule n = .term ∨ tierRule n = .factor := by
  cases n with
  | zero => exact .inl rfl
  | succ n => exact .inr rfl

theorem levels_tierRule (n : Nat) : (tierRule n).levels = 1 := by
  cases n <;> rfl

theorem kind_mem_tierSigns (op : Operator) : op.kind ∈ tierSigns op.tier := by
  cases op <;> decide

theorem fits_tierPlace_iff {n : Nat} (hn : n < 2) {t : Tree} :
    Fits (tierPlace n) t ↔ ∃ (first : Tree) (links : List (Tree × Tree)),
      t = node (tierRule n) (first :: links.flatMap linkTrees) ∧ Fits (tierPlace (n + 1)) first ∧
        (∀ l ∈ links, IsLeaf (tierSigns n) l.1) ∧ ∀ l ∈ links, Fits (tierPlace (n + 1)) l.2 := by
  obtain rfl | rfl : n = 0 ∨ n = 1 := by omega
  · constructor
    · intro h
      cases h with
      | term hf hs hl => exact ⟨_, _, rfl, hf, hs, hl⟩
    · rintro ⟨first, links, rfl, hf, hs, hl⟩
      exact .term hf hs hl
  · constructor
    · intro h
      cases h with
      | factor hf hs hl => exact ⟨_, _, rfl, hf, hs, hl⟩
    · rintro ⟨first, links, rfl, hf, hs, hl⟩
      exact .factor hf hs hl

/-- A term has a tree among those that are bound at least so tightly. The rules for the looser
ones are open around it. -/
def HasTermTree (n : Nat) (k : Sketch) : Prop :=
  ∃ t, Fits (tierPlace n) t ∧ t.Renders k (3 - n + k.depth)

theorem HasTermTree.loosen {n : Nat} (hn : n < 2) {k : Sketch} (h : HasTermTree (n + 1) k) :
    HasTermTree n k := by
  obtain ⟨t, ht, hleaves, hdepth, hmeans⟩ := h
  refine ⟨node (tierRule n) [t], (fits_tierPlace_iff hn).2 ⟨t, [], rfl, ht, by simp⟩, ?_, ?_, ?_⟩
  · simp [leaves, forestLeaves, hleaves]
  · simp only [ruleDepth, forestRuleDepth, levels_tierRule, hdepth]
    omega
  · intro s
    obtain ⟨e, s', he, hk⟩ := hmeans s
    exact ⟨e, s', .operand (tierRule_eq n) he, hk⟩

theorem HasTermTree.of_le {m n : Nat} (hm : m ≤ 2) (hn : n ≤ m) {k : Sketch}
    (h : HasTermTree m k) : HasTermTree n k := by
  induction m, hn using Nat.le_induction with
  | base => exact h
  | succ m _ ih => exact ih (Nat.le_of_succ_le hm) (h.loosen hm)

theorem HasTermTree.binary {left right : Sketch} {op : Operator} (hl : HasTermTree op.tier left)
    (hr : HasTermTree (op.tier + 1) right) : HasTermTree op.tier (.binary left op right) := by
  have hn : op.tier < 2 := by cases op <;> decide
  obtain ⟨_, hfits, hleaves, hdepth, hmeans⟩ := hl
  obtain ⟨t, hright, hleaves', hdepth', hmeans'⟩ := hr
  obtain ⟨first, links, rfl, hfirst, hs, hl⟩ := (fits_tierPlace_iff hn).1 hfits
  refine ⟨node (tierRule op.tier) (first :: links.flatMap linkTrees ++ [(fixed op.kind).tree, t]),
    (fits_tierPlace_iff hn).2 ⟨first, links ++ [((fixed op.kind).tree, t)], ?_, hfirst, ?_, ?_⟩,
    ?_, ?_, ?_⟩
  · simp [linkTrees]
  · have hsign := (fixed op.kind).isLeaf_tree (kind_mem_tierSigns op)
    exact List.forall_mem_append.2 ⟨hs, List.forall_mem_singleton.2 hsign⟩
  · exact List.forall_mem_append.2 ⟨hl, List.forall_mem_singleton.2 hright⟩
  · rw [leaves] at hleaves
    rw [leaves, forestLeaves_append, hleaves]
    simp [forestLeaves, hleaves', Sketch.write]
  · rw [ruleDepth, levels_tierRule] at hdepth
    rw [ruleDepth, levels_tierRule, forestRuleDepth_append]
    simp only [forestRuleDepth, Lexeme.ruleDepth_tree, hdepth', Sketch.depth] at hdepth ⊢
    omega
  · intro s
    obtain ⟨e, s', he, rfl⟩ := hmeans s
    obtain ⟨e', s'', he', rfl⟩ := hmeans' s'
    have hop : Operator.ofKind? (fixed op.kind).leaf.kind = some op := op.ofKind?_kind
    exact ⟨_, _, .link (tierRule_eq _) he hop he', rfl⟩

theorem HasTermTree.integer {digits : String} : HasTermTree 2 (.integer digits) := by
  let x : Lexeme := ⟨.integer, digits.toList⟩
  have hleaf : IsLeaf [.integer, .identifier] x.tree := x.isLeaf_tree (by simp [x])
  refine ⟨node .element [x.tree], .element hleaf, ?_, ?_, fun s => ?_⟩
  · simp [leaves, forestLeaves, Sketch.write, x]
  · simp [ruleDepth, forestRuleDepth, Rule.levels, Sketch.depth]
  · refine ⟨_, _, .integer rfl, ?_⟩
    exact congrArg Sketch.integer String.ofList_toList

theorem HasTermTree.reference {name : String} : HasTermTree 2 (.reference name) := by
  have hleaf : IsLeaf [.integer, .identifier] (nameLexeme name).tree :=
    Lexeme.isLeaf_tree (by simp)
  refine ⟨node .element [(nameLexeme name).tree], .element hleaf, ?_, ?_, fun s => ?_⟩
  · simp [leaves, forestLeaves, Sketch.write]
  · simp [ruleDepth, forestRuleDepth, Rule.levels, Sketch.depth]
  · exact ⟨_, _, .reference rfl, by simp [Expr.sketch]⟩

/-- Things with a comma behind each but the last. -/
def separate {α : Type} : List α → List (α × Option Leaf)
  | [] => []
  | [x] => [(x, none)]
  | x :: y :: xs => (x, some (fixed .comma).leaf) :: separate (y :: xs)

theorem map_fst_separate {α : Type} (xs : List α) : (separate xs).map Prod.fst = xs := by
  induction xs with
  | nil => rfl
  | cons x xs ih =>
    cases xs with
    | nil => rfl
    | cons y xs => rw [separate, List.map_cons, ih]

theorem fst_mem_of_separate {α : Type} {xs : List α} {x : α × Option Leaf}
    (h : x ∈ separate xs) : x.1 ∈ xs := by
  rw [← map_fst_separate xs]
  exact List.mem_map_of_mem h

theorem kind_separate {α : Type} (xs : List α) :
    ∀ x ∈ separate xs, ∀ l ∈ x.2, l.kind = .comma := by
  induction xs with
  | nil => simp [separate]
  | cons x xs ih =>
    cases xs with
    | nil => simp [separate]
    | cons y xs => exact List.forall_mem_cons.2 ⟨by simp [fixed], ih⟩

/-- A comma behind a thing is one in front of the next. -/
theorem flatMap_separate {α β : Type} (f : α → List β) (g : Leaf → β) (x : α) (xs : List α) :
    (separate (x :: xs)).flatMap (fun x => f x.1 ++ x.2.toList.map g) =
      f x ++ xs.flatMap (fun x => g (fixed .comma).leaf :: f x) := by
  induction xs generalizing x with
  | nil => simp [separate]
  | cons y xs ih => simp [separate, ih]

theorem exists_row_of_means {β : Type} {xs : List (Tree × Sketch × β)}
    (h : ∀ x ∈ xs, x.1.Means x.2.1) (s : NodeId) :
    ∃ (row : List (Lowered Expr × β)) (s' : NodeId),
      row.map (fun x => (x.1.tree, x.1.value.sketch, x.2)) = xs ∧
      (∀ x ∈ row, Becomes x.1.tree x.1.first x.1.value x.1.next) ∧
      Lowered.Linked s (row.map Prod.fst) s' := by
  obtain ⟨row, s', rfl, hrow, hs⟩ :=
    exists_row (fun t (x : Sketch × β) s e s' => Becomes t s e s' ∧ e.sketch = x.1) h s
  refine ⟨row.map fun x => (x.1, x.2.2), s', ?_, ?_, ?_⟩
  · rw [List.map_map]
    exact List.map_congr_left fun x hx => by simp [(hrow x hx).2]
  · exact List.forall_mem_map.2 fun x hx => (hrow x hx).1
  · simpa [Function.comp_def] using hs

/-- A body or an argument has a tree. -/
def HasBodyTree (k : Sketch) : Prop := ∃ t, Fits .expression t ∧ t.Renders k k.depth

/-- An item of a block has a tree, with its semicolon if it has one. -/
def HasItemTree (k : Sketch) : Prop :=
  ∃ i : Tree × Option Tree, Fits .expression i.1 ∧ (∀ s ∈ i.2, IsLeaf [.semicolon] s) ∧
    (itemTree i).Renders k k.depth

/-- Trees that render sketches have together the lexemes and the depth of them all. -/
theorem forest_of_renders {tree : Sketch → Tree} {ks : List Sketch}
    (h : ∀ k ∈ ks, (tree k).Renders k k.depth) :
    forestLeaves (ks.map tree) = (ks.flatMap Sketch.write).map Lexeme.leaf ∧
      forestRuleDepth (ks.map tree) = Sketch.greatestDepth ks := by
  induction ks with
  | nil => exact ⟨rfl, rfl⟩
  | cons k ks ih =>
    obtain ⟨hk, hks⟩ := List.forall_mem_cons.1 h
    obtain ⟨hleaves, hdepth⟩ := ih hks
    constructor
    · simp [forestLeaves, hk.leaves, hleaves]
    · rw [List.map_cons, forestRuleDepth, hk.depth, hdepth, Sketch.greatestDepth]

theorem leaves_enclosed {rule : Rule} {o c : Token.Kind} {ts : List Tree} {ls : List Lexeme}
    (h : forestLeaves ts = ls.map Lexeme.leaf) :
    (node rule ((fixed o).tree :: ts ++ [(fixed c).tree])).leaves =
      (fixed o :: ls ++ [fixed c]).map Lexeme.leaf := by
  simp [leaves, forestLeaves, h]

theorem ruleDepth_enclosed (rule : Rule) (o c : Token.Kind) (ts : List Tree) :
    (node rule ((fixed o).tree :: ts ++ [(fixed c).tree])).ruleDepth =
      rule.levels + forestRuleDepth ts :=
  congrArg (rule.levels + ·) (forestRuleDepth_enclosed _ _ ts)

theorem means_block {tree : Sketch → Tree} {items : List Sketch}
    (h : ∀ k ∈ items, (tree k).Means k) :
    (node .blockExpression ((fixed .leftBrace).tree :: items.map tree ++
      [(fixed .rightBrace).tree])).Means (.block items) := by
  intro s
  have hitems : ∀ x ∈ items.map (fun k => (tree k, k, ())), x.1.Means x.2.1 :=
    List.forall_mem_map.2 h
  obtain ⟨row, s', hrow, hx, hs⟩ := exists_row_of_means hitems s
  have htrees : (row.map Prod.fst).map Lowered.tree = items.map tree := by
    simpa [Function.comp_def] using congrArg (List.map Prod.fst) hrow
  have hsketches : (row.map Prod.fst).map (fun x => x.value.sketch) = items := by
    simpa [Function.comp_def] using congrArg (List.map fun x => x.2.1) hrow
  rw [← htrees]
  refine ⟨_, _, .block rfl (List.forall_mem_map.2 hx) hs rfl, ?_⟩
  rw [Expr.sketch, Expr.allSketches_eq, List.map_map]
  exact congrArg Sketch.block hsketches

theorem exists_blockTree {items : List Sketch} (h : ∀ k ∈ items, HasItemTree k) :
    ∃ t, Fits .block t ∧ t.Renders (.block items) (Sketch.block items).depth := by
  have hnonempty : Nonempty (Tree × Option Tree) := ⟨(fixed .semicolon).tree, none⟩
  choose! item hfits hsemicolon hrenders using h
  have hforest : ∀ k ∈ items, ((itemTree ∘ item) k).Renders k k.depth := hrenders
  obtain ⟨hleaves, hdepth⟩ := forest_of_renders hforest
  rw [← List.map_map] at hleaves hdepth
  refine ⟨node .blockExpression ((fixed .leftBrace).tree :: (items.map item).map itemTree ++
    [(fixed .rightBrace).tree]), ?_, ?_, ?_, ?_⟩
  · exact .block (Lexeme.isLeaf_tree (by decide)) (List.forall_mem_map.2 hfits)
      (List.forall_mem_map.2 hsemicolon) (Lexeme.isLeaf_tree (by decide))
  · rw [leaves_enclosed hleaves, Sketch.write_block]
  · rw [ruleDepth_enclosed, hdepth, Sketch.depth]
    rfl
  · have hmeans := means_block fun k hk => (hforest k hk).means
    rwa [← List.map_map] at hmeans

/-- The trees of arguments and the commas between them. -/
def argumentRow (tree : Sketch → Tree) (ks : List Sketch) : List Tree :=
  (separate ks).flatMap fun x => argumentTrees (tree x.1, x.2)

theorem argumentRow_cons (tree : Sketch → Tree) (k : Sketch) (ks : List Sketch) :
    argumentRow tree (k :: ks) =
      tree k :: (ks.map fun k => ((fixed .comma).tree, tree k)).flatMap linkTrees := by
  rw [List.flatMap_map]
  exact flatMap_separate (fun k => [tree k]) ofLeaf k ks

theorem fits_argumentRow {tree : Sketch → Tree} {ks : List Sketch}
    (h : ∀ k ∈ ks, Fits .expression (tree k)) :
    Fits .argumentList (node .argumentList
      ((fixed .leftParen).tree :: argumentRow tree ks ++ [(fixed .rightParen).tree])) := by
  have ho : IsLeaf [.leftParen] (fixed .leftParen).tree := Lexeme.isLeaf_tree (by decide)
  have hc : IsLeaf [.rightParen] (fixed .rightParen).tree := Lexeme.isLeaf_tree (by decide)
  cases ks with
  | nil => exact .noArguments ho hc
  | cons k ks =>
    obtain ⟨hk, hks⟩ := List.forall_mem_cons.1 h
    rw [argumentRow_cons]
    exact .arguments ho hk (List.forall_mem_map.2 fun _ _ => Lexeme.isLeaf_tree (by decide))
      (List.forall_mem_map.2 hks) hc

theorem forest_links {tree : Sketch → Tree} {ks : List Sketch}
    (h : ∀ k ∈ ks, (tree k).Renders k k.depth) :
    forestLeaves ((ks.map fun k => ((fixed .comma).tree, tree k)).flatMap linkTrees) =
        (ks.flatMap fun k => fixed .comma :: k.write).map Lexeme.leaf ∧
      forestRuleDepth ((ks.map fun k => ((fixed .comma).tree, tree k)).flatMap linkTrees) =
        Sketch.greatestDepth ks := by
  induction ks with
  | nil => exact ⟨rfl, rfl⟩
  | cons k ks ih =>
    obtain ⟨hk, hks⟩ := List.forall_mem_cons.1 h
    obtain ⟨hleaves, hdepth⟩ := ih hks
    constructor
    · simp [linkTrees, forestLeaves, hk.leaves, hleaves]
    · simp [linkTrees, forestRuleDepth, hk.depth, hdepth, Sketch.greatestDepth]

theorem forest_argumentRow {tree : Sketch → Tree} {ks : List Sketch}
    (h : ∀ k ∈ ks, (tree k).Renders k k.depth) :
    forestLeaves (argumentRow tree ks) = (commaSeparated (ks.map Sketch.write)).map Lexeme.leaf ∧
      forestRuleDepth (argumentRow tree ks) = Sketch.greatestDepth ks := by
  cases ks with
  | nil => exact ⟨rfl, rfl⟩
  | cons k ks =>
    obtain ⟨hk, hks⟩ := List.forall_mem_cons.1 h
    obtain ⟨hleaves, hdepth⟩ := forest_links hks
    rw [argumentRow_cons, forestLeaves, forestRuleDepth, hk.leaves, hk.depth, hleaves, hdepth]
    simp [commaSeparated, Sketch.greatestDepth, List.flatMap_map]

theorem means_call {name : String} {tree : Sketch → Tree} {arguments : List Sketch}
    (hbody : ∀ k ∈ arguments, (tree k).isBody = true)
    (h : ∀ k ∈ arguments, (tree k).Means k) :
    (node .functionCall [(nameLexeme name).tree, node .argumentList
      ((fixed .leftParen).tree :: argumentRow tree arguments ++
        [(fixed .rightParen).tree])]).Means (.call name arguments) := by
  intro s
  have harguments : ∀ x ∈ (separate arguments).map (fun x => (tree x.1, x.1, x.2)),
      x.1.Means x.2.1 :=
    List.forall_mem_map.2 fun x hx => h x.1 (fst_mem_of_separate hx)
  obtain ⟨row, s', hrow, hx, hs⟩ := exists_row_of_means harguments s
  have htrees : row.flatMap (fun x => argumentTrees (x.1.tree, x.2)) =
      argumentRow tree arguments := by
    simpa [argumentRow, List.flatMap_map] using
      congrArg (List.flatMap fun x => argumentTrees (x.1, x.2.2)) hrow
  have hsketches : row.map (fun x => x.1.value.sketch) = arguments := by
    rw [← map_fst_separate arguments]
    simpa [Function.comp_def] using congrArg (List.map fun x => x.2.1) hrow
  have hparts : ∀ x ∈ row, x.1.tree.isBody = true ∧ ∀ l ∈ x.2, l.kind = .comma := by
    intro x hm
    have hmem : (x.1.tree, x.1.value.sketch, x.2) ∈
        (separate arguments).map fun x => (tree x.1, x.1, x.2) := hrow ▸ List.mem_map_of_mem hm
    obtain ⟨y, hy, heq⟩ := List.mem_map.1 hmem
    obtain ⟨htree, -, hcomma⟩ := by simpa only [Prod.mk.injEq] using heq
    rw [← htree, ← hcomma]
    exact ⟨hbody _ (fst_mem_of_separate hy), kind_separate arguments y hy⟩
  rw [← htrees]
  refine ⟨_, _, .call rfl rfl (fun x hm => (hparts x hm).1) (fun x hm => (hparts x hm).2) hx hs
    rfl, ?_⟩
  rw [Expr.sketch, Expr.argumentSketches_eq, Separated.items, List.map_map, List.map_map,
    text_leaf_nameLexeme]
  exact congrArg (Sketch.call name) hsketches

theorem HasTermTree.call {name : String} {arguments : List Sketch}
    (h : ∀ k ∈ arguments, HasBodyTree k) : HasTermTree 2 (.call name arguments) := by
  have hnonempty : Nonempty Tree := ⟨(fixed .semicolon).tree⟩
  choose! tree hfits hrenders using h
  obtain ⟨hleaves, hdepth⟩ := forest_argumentRow hrenders
  have hname : IsLeaf [.identifier] (nameLexeme name).tree := Lexeme.isLeaf_tree (by simp)
  refine ⟨node .functionCall [(nameLexeme name).tree, node .argumentList
    ((fixed .leftParen).tree :: argumentRow tree arguments ++ [(fixed .rightParen).tree])],
    .call hname (fits_argumentRow hfits), ?_, ?_, ?_⟩
  · rw [leaves, forestLeaves, forestLeaves, forestLeaves, leaves_enclosed hleaves,
      Sketch.write_call]
    simp
  · rw [ruleDepth, forestRuleDepth, forestRuleDepth, forestRuleDepth, ruleDepth_enclosed, hdepth]
    simp only [Lexeme.ruleDepth_tree, Rule.levels, Sketch.depth]
    omega
  · exact means_call (fun k hk => (hfits k hk).isBody) fun k hk => (hrenders k hk).means

theorem HasTermTree.bare {k : Sketch} (h : HasTermTree 0 k) : HasBodyTree (.bare k) := by
  obtain ⟨t, ht, hleaves, hdepth, hmeans⟩ := h
  refine ⟨node .blocklessExpression [t], .bare (.blockless ht), ?_, ?_, fun s => ?_⟩
  · simp [leaves, forestLeaves, hleaves, Sketch.write]
  · simp only [ruleDepth, forestRuleDepth, hdepth, Rule.levels, Sketch.depth]
    omega
  · obtain ⟨e, s', he, rfl⟩ := hmeans s
    exact ⟨_, _, .bare he, rfl⟩

theorem HasBodyTree.terminated {k : Sketch} (h : HasBodyTree k) :
    HasItemTree (.statement k) := by
  obtain ⟨t, ht, hleaves, hdepth, hmeans⟩ := h
  have hsemicolon : IsLeaf [.semicolon] (fixed .semicolon).tree := Lexeme.isLeaf_tree (by simp)
  refine ⟨(t, some (fixed .semicolon).tree), ht, by simpa using hsemicolon, ?_, ?_, fun s => ?_⟩
  · simp [itemTree, leaves, forestLeaves, hleaves, Sketch.write]
  · simp [itemTree, ruleDepth, forestRuleDepth, hdepth, Rule.levels, Sketch.depth]
  · obtain ⟨e, s', he, rfl⟩ := hmeans s
    exact ⟨_, _, .statement he rfl, rfl⟩

/-- What has a tree depends on the role. A term has one in every place that it is bound tightly
enough for. -/
def HasTree : Sketch.Role → Sketch → Prop
  | .body, k => HasBodyTree k
  | .item, k => HasItemTree k
  | .term, k => ∀ n ≤ k.tier, HasTermTree n k

end Tree

open FunImp.Tree

theorem Sketch.Writable.hasTree {role : Sketch.Role} {k : Sketch} (h : k.Writable role) :
    HasTree role k := by
  induction h with
  | block _ ih =>
    obtain ⟨t, ht, hrenders⟩ := exists_blockTree ih
    exact ⟨t, .braced ht, hrenders⟩
  | bare _ ih => exact (ih 0 (Nat.zero_le _)).bare
  | unterminated _ ih =>
    obtain ⟨t, ht, hrenders⟩ := ih
    exact ⟨(t, none), ht, by simp, hrenders⟩
  | terminated _ ih => exact HasBodyTree.terminated ih
  | integer => exact fun n hn => .of_le (Nat.le_refl 2) hn .integer
  | reference => exact fun n hn => .of_le (Nat.le_refl 2) hn .reference
  | call _ _ ih => exact fun n hn => .of_le (Nat.le_refl 2) hn (.call ih)
  | binary _ _ hleft hright ihl ihr =>
    exact fun n hn => .of_le (tier_le _) hn (.binary (ihl _ hleft) (ihr _ hright))

end FunImp
