import Mathlib.Data.List.Basic
import FunImp.Proofs.Grammar.Completeness
import FunImp.Proofs.Grammar.Stuck

/-! # Leaves that can be completed

The leaves of trees, without the trees: how those of a place are made up of those of the places
inside it, and what it means that some leaves are the beginning of such a list. -/

namespace FunImp.Tree

open Reader

/-- The last leaf is of one of the kinds. -/
def EndsIn (kinds : List Token.Kind) (ls : List Leaf) : Prop :=
  ∃ l ∈ ls.getLast?, l.kind ∈ kinds

theorem endsIn_append {kinds : List Token.Kind} {before ls : List Leaf} (h : ls ≠ []) :
    EndsIn kinds (before ++ ls) ↔ EndsIn kinds ls := by
  obtain ⟨init, l, rfl⟩ := (List.eq_nil_or_concat' ls).resolve_left h
  simp [EndsIn, ← List.append_assoc]

theorem EndsIn.ne_nil {kinds : List Token.Kind} {ls : List Leaf} (h : EndsIn kinds ls) :
    ls ≠ [] := by
  rintro rfl
  simp [EndsIn] at h

theorem EndsIn.prepend {kinds : List Token.Kind} {ls : List Leaf} (h : EndsIn kinds ls)
    (before : List Leaf) : EndsIn kinds (before ++ ls) :=
  (endsIn_append h.ne_nil).2 h

theorem endsIn_concat {kinds : List Token.Kind} {before : List Leaf} {l : Leaf} :
    EndsIn kinds (before ++ [l]) ↔ l.kind ∈ kinds := by
  simp [EndsIn]

/-- The kinds of tokens that a tree in the place can end with. -/
def Place.endedBy : Place → List Token.Kind
  | block => [.rightBrace]
  | argumentList => [.rightParen]
  | blockless | term | factor | element => [.integer, .identifier, .rightParen]
  | expression => [.rightBrace, .integer, .identifier, .rightParen]

theorem EndsIn.mono {kinds kinds' : List Token.Kind} {ls : List Leaf} (h : EndsIn kinds ls)
    (hk : ∀ k ∈ kinds, k ∈ kinds') : EndsIn kinds' ls :=
  h.imp fun _ hl => ⟨hl.1, hk _ hl.2⟩

/-- A node ends where its last child ends. -/
theorem endsIn_node {rule : Rule} {kinds : List Token.Kind} {children : List Tree} {t : Tree}
    (h : EndsIn kinds t.leaves) : EndsIn kinds (node rule (children ++ [t])).leaves := by
  simpa [leaves, forestLeaves] using h.prepend (forestLeaves children)

theorem endsIn_chain {rule : Rule} {kinds : List Token.Kind} {first : Tree}
    {links : List (Tree × Tree)} (hf : EndsIn kinds first.leaves)
    (hl : ∀ l ∈ links, EndsIn kinds l.2.leaves) :
    EndsIn kinds (node rule (first :: links.flatMap linkTrees)).leaves := by
  obtain rfl | ⟨init, l, rfl⟩ := List.eq_nil_or_concat' links
  · exact @endsIn_node rule _ [] _ hf
  · have hlast : EndsIn kinds
        (node rule (first :: init.flatMap linkTrees ++ [l.1] ++ [l.2])).leaves :=
      endsIn_node (hl l (by simp))
    simpa [linkTrees] using hlast

theorem IsLeaf.ends {kinds : List Token.Kind} {t : Tree} (h : IsLeaf kinds t) :
    EndsIn kinds t.leaves := by
  obtain ⟨l, rfl, hl⟩ := h
  simpa [EndsIn] using hl

theorem Fits.ends {place : Place} {t : Tree} (h : Fits place t) :
    EndsIn place.endedBy t.leaves := by
  induction h with
  | block _ _ _ hc | arguments _ _ _ _ hc => exact endsIn_node hc.ends
  | @noArguments opening _ _ hc => exact @endsIn_node _ _ [opening] _ hc.ends
  | blockless _ ih => exact @endsIn_node _ _ [] _ ih
  | braced _ ih => exact ih.mono (by decide)
  | bare _ ih => exact ih.mono (by decide)
  | term _ _ _ ihf ihl | factor _ _ _ ihf ihl => exact endsIn_chain ihf ihl
  | element hh => exact @endsIn_node _ _ [] _ (hh.ends.mono (by decide))
  | @call name _ _ _ ih => exact @endsIn_node _ _ [name] _ (ih.mono (by decide))

/-- The kinds of the tokens between operands. -/
def signs : List Token.Kind := [.plus, .minus, .star, .slash]

namespace Site

/-- The kinds that are not asked for, although they can come next unless the site is settled. -/
def spare : Site → List Token.Kind
  | operand => [.leftBrace]
  | argumentEnd => [.plus]
  | fixed _ | tooDeep => []

/-- What may come next does not depend on rules further out: an operand must follow a sign, and no
sign may follow a block. -/
def Settled (taken : List Leaf) : Site → Prop
  | operand => EndsIn signs taken
  | argumentEnd => EndsIn [.rightBrace] taken
  | fixed _ | tooDeep => True

theorem settled_append {before taken : List Leaf} (h : taken ≠ []) {s : Site} :
    s.Settled (before ++ taken) ↔ s.Settled taken := by
  cases s <;> simp only [Settled, endsIn_append h]

end Site

/-- Whatever leaves of these kinds are put behind those that were taken, all of them together are
in the language. -/
def Completes (L : List Leaf → Prop) (taken : List Leaf) (kinds : List Token.Kind) : Prop :=
  ∀ ls, ls.map Leaf.kind = kinds → L (taken ++ ls)

theorem completes_nil {L : List Leaf → Prop} {taken : List Leaf} (h : L taken) :
    Completes L taken [] := by
  intro ls hls
  obtain rfl := List.map_eq_nil_iff.1 hls
  simpa using h

theorem completes_cons {L : List Leaf → Prop} {taken : List Leaf} {k : Token.Kind}
    {kinds : List Token.Kind} (h : ∀ l, l.kind = k → Completes L (taken ++ [l]) kinds) :
    Completes L taken (k :: kinds) := by
  intro ls hls
  obtain ⟨l, ls, rfl, hl, hls⟩ := List.map_eq_cons_iff.1 hls
  simpa using h l hl ls hls

theorem Completes.step {L : List Leaf → Prop} {taken : List Leaf} {k : Token.Kind}
    {kinds : List Token.Kind} (h : Completes L taken (k :: kinds)) {l : Leaf} (hl : l.kind = k) :
    Completes L (taken ++ [l]) kinds := by
  intro ls hls
  simpa using h (l :: ls) (by simp [hl, hls])

theorem completes_singleton {L : List Leaf → Prop} {taken : List Leaf} {k : Token.Kind}
    (h : ∀ l, l.kind = k → L (taken ++ [l])) : Completes L taken [k] := by
  intro ls hls
  obtain ⟨l, rfl, hl⟩ := List.map_eq_singleton_iff.1 hls
  exact h l hl

/-- What is in the one language is in the other one when it stands behind the leaves and in front
of leaves of the kinds. -/
def Frame (L M : List Leaf → Prop) (before : List Leaf) (closing : List Token.Kind) : Prop :=
  ∀ ls c, L ls → c.map Leaf.kind = closing → M (before ++ ls ++ c)

theorem frame_open {L M : List Leaf → Prop} {before : List Leaf}
    (h : ∀ ls, L ls → M (before ++ ls)) : Frame L M before [] := by
  intro ls c hls hc
  obtain rfl := List.map_eq_nil_iff.1 hc
  simpa using h ls hls

theorem frame_closed {L M : List Leaf → Prop} {before : List Leaf} {k : Token.Kind}
    (h : ∀ ls l, L ls → l.kind = k → M (before ++ ls ++ [l])) : Frame L M before [k] := by
  intro ls c hls hc
  obtain ⟨l, rfl, hl⟩ := List.map_eq_singleton_iff.1 hc
  exact h ls l hls hl

theorem Frame.completes {L M : List Leaf → Prop} {before taken : List Leaf}
    {kinds closing : List Token.Kind} (hf : Frame L M before closing)
    (h : Completes L taken kinds) : Completes M (before ++ taken) (kinds ++ closing) := by
  intro ls hls
  obtain ⟨front, back, rfl, hfront, hback⟩ := List.map_eq_append_iff.1 hls
  simpa using hf _ back (h front hfront) hback

/-- The leaves that were taken can be completed to something in the language, also in such a way
that a kind comes next that is asked for or spare. -/
structure Mendable (L : List Leaf → Prop) (taken : List Leaf) (s : Site) : Prop where
  viable : (s = .tooDeep → taken ≠ []) → ∃ kinds, Completes L taken kinds
  expected : ∀ k ∈ s.expected, ∃ more, Completes L taken (k :: more)
  missed : taken ≠ [] → ¬ s.Settled taken → ∀ k ∈ s.spare, ∃ more, Completes L taken (k :: more)

namespace Mendable

variable {L M : List Leaf → Prop} {before taken : List Leaf} {closing : List Token.Kind} {s : Site}

theorem mono (h : Mendable L taken s) (hLM : ∀ ls, L ls → M ls) : Mendable M taken s where
  viable hne := (h.viable hne).imp fun _ hc ls hls => hLM _ (hc ls hls)
  expected k hk := (h.expected k hk).imp fun _ hc ls hls => hLM _ (hc ls hls)
  missed hne hs k hk := (h.missed hne hs k hk).imp fun _ hc ls hls => hLM _ (hc ls hls)

/-- What is open around the leaves is closed behind them. -/
theorem lift (h : Mendable L taken s) (hf : Frame L M before closing)
    (hviable : taken = [] → s = .tooDeep → ∃ kinds, Completes M before kinds)
    (hmissed : taken = [] → ¬ s.Settled before →
      ∀ k ∈ s.spare, ∃ more, Completes M before (k :: more)) :
    Mendable M (before ++ taken) s where
  viable _ := by
    by_cases hempty : taken = [] ∧ s = .tooDeep
    · obtain ⟨rfl, hs⟩ := hempty
      simpa using hviable rfl hs
    · obtain ⟨kinds, hc⟩ := h.viable fun hs htaken => hempty ⟨htaken, hs⟩
      exact ⟨_, hf.completes hc⟩
  expected k hk := by
    obtain ⟨more, hc⟩ := h.expected k hk
    exact ⟨_, hf.completes hc⟩
  missed _ hs k hk := by
    by_cases htaken : taken = []
    · subst htaken
      simpa using hmissed rfl (by simpa using hs) k hk
    · have hset : ¬ s.Settled taken := fun hset => hs ((Site.settled_append htaken).2 hset)
      obtain ⟨more, hc⟩ := h.missed htaken hset k hk
      exact ⟨_, hf.completes hc⟩

/-- Closing is all there is to do if only fixed kinds can be asked for where nothing has been taken
inside. -/
theorem lift_of_fixed (h : Mendable L taken s) (hf : Frame L M before closing)
    (hs : taken = [] → ∃ kinds, s = .fixed kinds) : Mendable M (before ++ taken) s := by
  refine h.lift hf (fun htaken hdeep => ?_) fun htaken _ k hk => ?_
  · obtain ⟨_, rfl⟩ := hs htaken
    cases hdeep
  · obtain ⟨_, rfl⟩ := hs htaken
    exact absurd hk List.not_mem_nil

/-- A reader that asks for fixed kinds misses none. -/
theorem of_fixed {kinds : List Token.Kind} (hne : kinds ≠ [])
    (h : ∀ k ∈ kinds, ∃ more, Completes L taken (k :: more)) : Mendable L taken (.fixed kinds) where
  viable _ := by
    obtain ⟨k, hk⟩ := List.exists_mem_of_ne_nil kinds hne
    obtain ⟨more, hc⟩ := h k hk
    exact ⟨_, hc⟩
  expected := h
  missed _ hs := absurd trivial hs

theorem of_fixed_singleton {k : Token.Kind} {more : List Token.Kind}
    (h : Completes L taken (k :: more)) : Mendable L taken (.fixed [k]) :=
  of_fixed (List.cons_ne_nil _ _) (List.forall_mem_singleton.2 ⟨more, h⟩)

end Mendable

theorem isLeaf_of_kind {l : Leaf} {k : Token.Kind} (h : l.kind = k) : IsLeaf [k] (ofLeaf l) :=
  isLeaf_ofLeaf (List.mem_singleton.2 h)

/-- The leaves of trees for the place with so many levels of rules. -/
def Lang (place : Place) (n : Nat) (ls : List Leaf) : Prop :=
  ∃ t, Fits place t ∧ t.ruleDepth ≤ n ∧ t.leaves = ls

namespace Lang

variable {n : Nat} {ls : List Leaf}

theorem block {o c : Leaf} {items : List (Tree × Option Tree)} (ho : o.kind = .leftBrace)
    (hi : ∀ i ∈ items, IsItem n i) (hc : c.kind = .rightBrace) :
    Lang .block (n + 1) (o :: forestLeaves (items.map itemTree) ++ [c]) := by
  refine ⟨_, .block (isLeaf_of_kind ho) (fun i hm => (hi i hm).fits)
    (fun i hm => (hi i hm).semicolon) (isLeaf_of_kind hc), ?_, ?_⟩
  · rw [ruleDepth_node_le_succ rfl]
    have hitems : ∀ t ∈ items.map itemTree, t.ruleDepth ≤ n :=
      List.forall_mem_map.2 fun i hm => (hi i hm).depth
    exact forall_mem_enclosed (by simp) hitems (by simp)
  · simp [leaves, forestLeaves]

theorem item {o c : Leaf} {items : List (Tree × Option Tree)} (ho : o.kind = .leftBrace)
    (hi : ∀ i ∈ items, IsItem n i) (h : Lang .expression n ls) (hc : c.kind = .rightBrace) :
    Lang .block (n + 1) (o :: forestLeaves (items.map itemTree) ++ ls ++ [c]) := by
  obtain ⟨t, fits, depth, rfl⟩ := h
  have hlast : IsItem n (t, none) := ⟨fits, nofun, depth⟩
  have hitems : ∀ i ∈ items ++ [(t, none)], IsItem n i :=
    List.forall_mem_append.2 ⟨hi, List.forall_mem_singleton.2 hlast⟩
  simpa [itemTree, forestLeaves] using block ho hitems hc

theorem braced (h : Lang .block n ls) : Lang .expression n ls := by
  obtain ⟨t, fits, depth, hls⟩ := h
  exact ⟨t, .braced fits, depth, hls⟩

theorem bare (h : Lang .blockless n ls) : Lang .expression n ls := by
  obtain ⟨t, fits, depth, hls⟩ := h
  exact ⟨t, .bare fits, depth, hls⟩

theorem blockless (h : Lang .term n ls) : Lang .blockless (n + 1) ls := by
  obtain ⟨t, fits, depth, rfl⟩ := h
  refine ⟨_, .blockless fits, ?_, by simp [leaves, forestLeaves]⟩
  rw [ruleDepth_node_le_succ rfl]
  simpa using depth

theorem chain {place operand : Place} {rule : Rule} {kinds : List Token.Kind} {first : Tree}
    {links : List (Tree × Tree)} (hc : IsChain place rule kinds operand) (hf : Fits operand first)
    (hd : first.ruleDepth ≤ n) (hl : ∀ l ∈ links, Rules.IsLink operand n kinds l) :
    Lang place (n + 1) (first.leaves ++ forestLeaves (links.flatMap linkTrees)) := by
  have depth : ∀ t ∈ first :: links.flatMap linkTrees, t.ruleDepth ≤ n :=
    List.forall_mem_cons.2 ⟨hd, Rules.ruleDepth_links hl⟩
  have hleaves (rule : Rule) : (node rule (first :: links.flatMap linkTrees)).leaves =
      first.leaves ++ forestLeaves (links.flatMap linkTrees) := by simp [leaves, forestLeaves]
  cases hc with
  | term =>
    exact ⟨_, .term hf (fun l hm => (hl l hm).1) (fun l hm => (hl l hm).2.1),
      (ruleDepth_node_le_succ rfl).2 depth, hleaves _⟩
  | factor =>
    exact ⟨_, .factor hf (fun l hm => (hl l hm).1) (fun l hm => (hl l hm).2.1),
      (ruleDepth_node_le_succ rfl).2 depth, hleaves _⟩

theorem first {place operand : Place} {rule : Rule} {kinds : List Token.Kind}
    (hc : IsChain place rule kinds operand) (h : Lang operand n ls) : Lang place (n + 1) ls := by
  obtain ⟨t, fits, depth, rfl⟩ := h
  have hlone := chain hc fits depth (List.forall_mem_nil _)
  simpa [forestLeaves] using hlone

/-- One more link. -/
theorem isLink_append {place : Place} {kinds : List Token.Kind} {links : List (Tree × Tree)}
    {sign : Leaf} {t : Tree} (hl : ∀ l ∈ links, Rules.IsLink place n kinds l)
    (hs : sign.kind ∈ kinds) (fits : Fits place t) (depth : t.ruleDepth ≤ n) :
    ∀ l ∈ links ++ [(ofLeaf sign, t)], Rules.IsLink place n kinds l :=
  List.forall_mem_append.2 ⟨hl, List.forall_mem_singleton.2 ⟨isLeaf_ofLeaf hs, fits, depth⟩⟩

theorem link {place operand : Place} {rule : Rule} {kinds : List Token.Kind} {first : Tree}
    {links : List (Tree × Tree)} {sign : Leaf} (hc : IsChain place rule kinds operand)
    (hf : Fits operand first) (hd : first.ruleDepth ≤ n)
    (hl : ∀ l ∈ links, Rules.IsLink operand n kinds l) (hs : sign.kind ∈ kinds)
    (h : Lang operand n ls) :
    Lang place (n + 1)
      (first.leaves ++ forestLeaves (links.flatMap linkTrees) ++ [sign] ++ ls) := by
  obtain ⟨t, fits, depth, rfl⟩ := h
  simpa [linkTrees, forestLeaves] using chain hc hf hd (isLink_append hl hs fits depth)

theorem element {l : Leaf} (hl : l.kind ∈ [.integer, .identifier]) :
    Lang .element (n + 1) [l] := by
  refine ⟨_, .element (isLeaf_ofLeaf hl), ?_, by simp [leaves, forestLeaves]⟩
  rw [ruleDepth_node_le_succ rfl]
  simp

theorem call {name : Leaf} (hn : name.kind = .identifier) (h : Lang .argumentList n ls) :
    Lang .element (n + 1) (name :: ls) := by
  obtain ⟨t, fits, depth, rfl⟩ := h
  refine ⟨_, .call (isLeaf_of_kind hn) fits, ?_, by simp [leaves, forestLeaves]⟩
  rw [ruleDepth_node_le_succ rfl]
  simpa using depth

theorem noArguments {o c : Leaf} (ho : o.kind = .leftParen) (hc : c.kind = .rightParen) :
    Lang .argumentList (n + 1) [o, c] := by
  refine ⟨_, .noArguments (isLeaf_of_kind ho) (isLeaf_of_kind hc),
    ?_, by simp [leaves, forestLeaves]⟩
  rw [ruleDepth_node_le_succ rfl]
  simp

theorem arguments {o c : Leaf} {first : Tree} {links : List (Tree × Tree)}
    (ho : o.kind = .leftParen) (hf : Fits .expression first) (hd : first.ruleDepth ≤ n)
    (hl : ∀ l ∈ links, Rules.IsLink .expression n [.comma] l) (hc : c.kind = .rightParen) :
    Lang .argumentList (n + 1)
      (o :: (first.leaves ++ forestLeaves (links.flatMap linkTrees)) ++ [c]) := by
  refine ⟨_, .arguments (isLeaf_of_kind ho) hf (fun l hm => (hl l hm).1)
    (fun l hm => (hl l hm).2.1) (isLeaf_of_kind hc), ?_, ?_⟩
  · rw [ruleDepth_node_le_succ rfl]
    have harguments : ∀ t ∈ first :: links.flatMap linkTrees, t.ruleDepth ≤ n :=
      List.forall_mem_cons.2 ⟨hd, Rules.ruleDepth_links hl⟩
    exact forall_mem_enclosed (by simp) harguments (by simp)
  · simp [leaves, forestLeaves]

theorem firstArgument {o c : Leaf} (ho : o.kind = .leftParen) (h : Lang .expression n ls)
    (hc : c.kind = .rightParen) : Lang .argumentList (n + 1) (o :: ls ++ [c]) := by
  obtain ⟨t, fits, depth, rfl⟩ := h
  have hlone := arguments ho fits depth (List.forall_mem_nil _) hc
  simpa [forestLeaves] using hlone

theorem argument {o comma c : Leaf} {first : Tree} {links : List (Tree × Tree)}
    (ho : o.kind = .leftParen) (hf : Fits .expression first) (hd : first.ruleDepth ≤ n)
    (hl : ∀ l ∈ links, Rules.IsLink .expression n [.comma] l) (hcomma : comma.kind = .comma)
    (h : Lang .expression n ls) (hc : c.kind = .rightParen) :
    Lang .argumentList (n + 1)
      (o :: (first.leaves ++ forestLeaves (links.flatMap linkTrees) ++ [comma]) ++ ls ++ [c]) := by
  obtain ⟨t, fits, depth, rfl⟩ := h
  have hlinks := isLink_append hl (List.mem_singleton.2 hcomma) fits depth
  simpa [linkTrees, forestLeaves] using arguments ho hf hd hlinks hc

/-- Where anything but a block or an argument list stands, there could stand a number. -/
theorem integer {place : Place} {t : Tree} (h : Fits place t) (hd : t.ruleDepth ≤ n)
    (hplace : place ∉ [.block, .argumentList, .expression]) {l : Leaf} (hl : l.kind = .integer) :
    Lang place n [l] := by
  have hkind : l.kind ∈ [.integer, .identifier] := by simp [hl]
  obtain ⟨m, rfl⟩ : ∃ m, n = m + 1 :=
    Nat.exists_eq_add_one.2 (Nat.lt_of_lt_of_le h.ruleDepth_pos hd)
  induction h generalizing m with
  | block | noArguments | arguments => simp at hplace
  | braced | bare => simp at hplace
  | element | call => exact element hkind
  | blockless ht ih =>
    rw [ruleDepth_node_le_succ rfl, List.forall_mem_singleton] at hd
    obtain ⟨m, rfl⟩ := Nat.exists_eq_add_one.2 (Nat.lt_of_lt_of_le ht.ruleDepth_pos hd)
    exact blockless (ih (by decide) m hd)
  | term hf _ _ ih =>
    have hfirst := (ruleDepth_node_le_succ rfl).1 hd _ List.mem_cons_self
    obtain ⟨m, rfl⟩ := Nat.exists_eq_add_one.2 (Nat.lt_of_lt_of_le hf.ruleDepth_pos hfirst)
    exact first .term (ih (by decide) m hfirst)
  | factor hf _ _ ih =>
    have hfirst := (ruleDepth_node_le_succ rfl).1 hd _ List.mem_cons_self
    obtain ⟨m, rfl⟩ := Nat.exists_eq_add_one.2 (Nat.lt_of_lt_of_le hf.ruleDepth_pos hfirst)
    exact first .factor (ih (by decide) m hfirst)

/-- A sign and a number can be put behind what is no block. -/
theorem plus {t : Tree} (h : Fits .blockless t) (hd : t.ruleDepth ≤ n) {sign l : Leaf}
    (hs : sign.kind = .plus) (hl : l.kind = .integer) :
    Lang .expression n (t.leaves ++ [sign, l]) := by
  obtain ⟨m, rfl⟩ : ∃ m, n = m + 1 :=
    Nat.exists_eq_add_one.2 (Nat.lt_of_lt_of_le h.ruleDepth_pos hd)
  cases h with
  | blockless ht =>
    rw [ruleDepth_node_le_succ rfl, List.forall_mem_singleton] at hd
    obtain ⟨k, rfl⟩ := Nat.exists_eq_add_one.2 (Nat.lt_of_lt_of_le ht.ruleDepth_pos hd)
    refine bare (blockless ?_)
    cases ht with
    | term hf hsign hlink =>
      obtain ⟨hfirst, hlinks⟩ := Rules.isLink_of_node rfl hd hsign hlink
      have hplus : sign.kind ∈ [.plus, .minus] := by simp [hs]
      have hsum := link .term hf hfirst hlinks hplus (integer hf hfirst (by decide) hl)
      simpa [leaves, forestLeaves] using hsum

end Lang

theorem frame_firstArgument {n : Nat} {o : Leaf} (ho : o.kind = .leftParen) :
    Frame (Lang .expression n) (Lang .argumentList (n + 1)) [o] [.rightParen] :=
  frame_closed fun _ _ hls hc => .firstArgument ho hls hc

theorem frame_argument {n : Nat} {o comma : Leaf} {first : Tree} {links : List (Tree × Tree)}
    (ho : o.kind = .leftParen) (hf : Fits .expression first) (hd : first.ruleDepth ≤ n)
    (hl : ∀ l ∈ links, Rules.IsLink .expression n [.comma] l) (hcomma : comma.kind = .comma) :
    Frame (Lang .expression n) (Lang .argumentList (n + 1))
      (o :: (first.leaves ++ forestLeaves (links.flatMap linkTrees) ++ [comma])) [.rightParen] :=
  frame_closed fun _ _ hls hc => .argument ho hf hd hl hcomma hls hc

theorem completes_block {n : Nat} :
    Completes (Lang .block (n + 1)) [] [.leftBrace, .rightBrace] := by
  intro ls hls
  simp only [List.map_eq_cons_iff, List.map_eq_nil_iff] at hls
  obtain ⟨o, _, rfl, ho, c, _, rfl, hc, rfl⟩ := hls
  simpa [forestLeaves] using Lang.block ho (List.forall_mem_nil _) hc

theorem completes_expression {n : Nat} (h : 0 < n) :
    Completes (Lang .expression n) [] [.leftBrace, .rightBrace] := by
  obtain ⟨m, rfl⟩ := Nat.exists_eq_add_one.2 h
  exact fun ls hls => .braced (completes_block ls hls)

end FunImp.Tree
