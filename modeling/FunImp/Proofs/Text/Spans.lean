import Mathlib.Order.Lattice
import Mathlib.Order.Bounds.Basic
import FunImp.Proofs.Text.Positions
import FunImp.Token.Basic

/-! # Spans of one text

The spans of one text are a join-semilattice: `join` is the least span that covers two of them. So
spans that are joined two by two give the same span in every order and grouping. -/

namespace FunImp

/-- The position stands between characters of the text, or at one of its ends. -/
def Position.IsIn (text : List Char) (p : Position) : Prop :=
  ∃ before, before <+: text ∧ p = .ofText before

/-- In one text the bytes in front of a position tell its row and column. -/
theorem Position.IsIn.eq_of_offset_eq {text : List Char} {p q : Position} (hp : p.IsIn text)
    (hq : q.IsIn text) (h : p.offset = q.offset) : p = q := by
  obtain ⟨cs, hcs, rfl⟩ := hp
  obtain ⟨ds, hds, rfl⟩ := hq
  change byteLength cs = byteLength ds at h
  rcases List.prefix_or_prefix_of_prefix hcs hds with ⟨es, rfl⟩ | ⟨es, rfl⟩
  · have hes : byteLength es = 0 := by rw [byteLength_append] at h; omega
    rw [byteLength_eq_zero_iff.1 hes, List.append_nil]
  · have hes : byteLength es = 0 := by rw [byteLength_append] at h; omega
    rw [byteLength_eq_zero_iff.1 hes, List.append_nil]

namespace Span

/-- Both ends of the span are positions of the text. -/
structure IsIn (text : List Char) (s : Span) : Prop where
  start : s.start.IsIn text
  stop : s.stop.IsIn text

/-- The bytes of `s` are among those from `first` up to `last`. -/
def Inside (s : Span) (first last : Nat) : Prop :=
  first ≤ s.start.offset ∧ s.stop.offset ≤ last

/-- The bytes of `t` are among those of `s`. -/
def Covers (s t : Span) : Prop := t.Inside s.start.offset s.stop.offset

variable {text : List Char} {s t u : Span}

theorem Covers.trans (hst : s.Covers t) (htu : t.Covers u) : s.Covers u :=
  ⟨Nat.le_trans hst.1 htu.1, Nat.le_trans htu.2 hst.2⟩

theorem Covers.antisymm (hs : s.IsIn text) (ht : t.IsIn text) (hst : s.Covers t)
    (hts : t.Covers s) : s = t := by
  have hstart := hs.start.eq_of_offset_eq ht.start (Nat.le_antisymm hst.1 hts.1)
  have hstop := hs.stop.eq_of_offset_eq ht.stop (Nat.le_antisymm hts.2 hst.2)
  cases s
  cases t
  cases hstart
  cases hstop
  rfl

theorem start_extend (s t : Span) : (s.extend t).start = s.start := by
  unfold extend
  split <;> rfl

theorem stop_extend (s t : Span) :
    (s.extend t).stop = if s.stop.offset ≤ t.stop.offset then t.stop else s.stop := by
  unfold extend
  split <;> rfl

theorem start_join (s t : Span) :
    (s.join t).start = if s.start.offset ≤ t.start.offset then s.start else t.start := by
  unfold join
  split <;> exact start_extend _ _

theorem offset_stop_join (s t : Span) :
    (s.join t).stop.offset = max s.stop.offset t.stop.offset := by
  unfold join
  split
  · rw [stop_extend]
    split <;> omega
  · rw [stop_extend]
    split <;> omega

theorem offset_start_join (s t : Span) :
    (s.join t).start.offset = min s.start.offset t.start.offset := by
  rw [start_join]
  split <;> omega

/-- The bytes of a join are the fewest in a row among which those of both spans are. -/
theorem inside_join_iff {first last : Nat} :
    (s.join t).Inside first last ↔ s.Inside first last ∧ t.Inside first last := by
  unfold Inside
  rw [offset_start_join, offset_stop_join]
  omega

theorem IsIn.extend (hs : s.IsIn text) (ht : t.IsIn text) : (s.extend t).IsIn text := by
  constructor
  · rw [start_extend]
    exact hs.start
  · rw [stop_extend]
    split
    · exact ht.stop
    · exact hs.stop

theorem IsIn.join (hs : s.IsIn text) (ht : t.IsIn text) : (s.join t).IsIn text := by
  unfold Span.join
  split
  · exact hs.extend ht
  · exact ht.extend hs

end Span

/-- A span whose ends are positions of the text. -/
@[ext] structure SpanIn (text : List Char) where
  span : Span
  isIn : span.IsIn text

namespace SpanIn

variable {text : List Char}

instance : PartialOrder (SpanIn text) where
  le s t := t.span.Covers s.span
  le_refl _ := ⟨Nat.le_refl _, Nat.le_refl _⟩
  le_trans _ _ _ hst htu := htu.trans hst
  le_antisymm s t hst hts := SpanIn.ext (hts.antisymm s.isIn t.isIn hst)

instance : SemilatticeSup (SpanIn text) where
  sup s t := ⟨s.span.join t.span, s.isIn.join t.isIn⟩
  le_sup_left _ _ := (Span.inside_join_iff.1 ⟨Nat.le_refl _, Nat.le_refl _⟩).1
  le_sup_right _ _ := (Span.inside_join_iff.1 ⟨Nat.le_refl _, Nat.le_refl _⟩).2
  sup_le _ _ _ hsu htu := Span.inside_join_iff.2 ⟨hsu, htu⟩

end SpanIn

/-- Spans that are joined two by two. -/
inductive Joining where
  | one (s : Span)
  | two (left right : Joining)

namespace Joining

/-- The spans that are joined. -/
def spans : Joining → List Span
  | one s => [s]
  | two left right => left.spans ++ right.spans

/-- The span that they are joined to. -/
def result : Joining → Span
  | one s => s
  | two left right => left.result.join right.result

variable {text : List Char} {i j : Joining}

theorem spans_ne_nil (j : Joining) : j.spans ≠ [] := by
  induction j with
  | one s => exact List.cons_ne_nil s []
  | two left right ihl ihr => exact List.append_ne_nil_of_left_ne_nil ihl _

theorem isIn_result (h : ∀ s ∈ j.spans, s.IsIn text) : j.result.IsIn text := by
  induction j with
  | one s => exact h s List.mem_cons_self
  | two left right ihl ihr =>
    obtain ⟨hleft, hright⟩ := List.forall_mem_append.1 h
    exact (ihl hleft).join (ihr hright)

theorem isLUB_result (h : ∀ s ∈ j.spans, s.IsIn text) :
    IsLUB {s : SpanIn text | s.span ∈ j.spans} ⟨j.result, isIn_result h⟩ := by
  induction j with
  | one s =>
    have hs : {t : SpanIn text | t.span ∈ (one s).spans} = {⟨s, isIn_result h⟩} := by
      apply Set.ext
      intro t
      constructor
      · intro ht
        exact SpanIn.ext (List.mem_singleton.1 ht)
      · rintro rfl
        exact List.mem_cons_self
    rw [hs]
    exact isLUB_singleton
  | two left right ihl ihr =>
    obtain ⟨hleft, hright⟩ := List.forall_mem_append.1 h
    have hunion : {s : SpanIn text | s.span ∈ (two left right).spans} =
        {s | s.span ∈ left.spans} ∪ {s | s.span ∈ right.spans} := by
      apply Set.ext
      intro s
      exact List.mem_append
    rw [hunion]
    exact (ihl hleft).union (ihr hright)

/-- The same spans are joined to the same span, in whatever order and grouping. -/
theorem result_eq_of_mem_iff (h : ∀ s ∈ j.spans, s.IsIn text)
    (hmem : ∀ s, s ∈ i.spans ↔ s ∈ j.spans) : i.result = j.result := by
  have hvalid : ∀ s ∈ i.spans, s.IsIn text := fun s hs => h s ((hmem s).1 hs)
  have hi := isLUB_result hvalid
  have hset : {s : SpanIn text | s.span ∈ i.spans} = {s | s.span ∈ j.spans} := by
    apply Set.ext
    intro s
    exact hmem s.span
  rw [hset] at hi
  exact congrArg SpanIn.span (hi.unique (isLUB_result h))

/-- From left to right, behind the spans that are joined already. -/
def extend (j : Joining) (spans : List Span) : Joining :=
  spans.foldl (fun j s => two j (one s)) j

theorem spans_extend (j : Joining) (spans : List Span) :
    (j.extend spans).spans = j.spans ++ spans := by
  induction spans generalizing j with
  | nil => exact (List.append_nil _).symm
  | cons s spans ih => exact (ih _).trans (List.append_assoc _ _ _)

theorem result_extend (j : Joining) (spans : List Span) :
    (j.extend spans).result = spans.foldl Span.join j.result := by
  induction spans generalizing j with
  | nil => rfl
  | cons s spans ih => exact ih _

theorem exists_result_eq_joinAll {spans : List Span} (h : spans ≠ []) :
    ∃ j : Joining, j.spans = spans ∧ j.result = Span.joinAll spans := by
  obtain ⟨s, rest, rfl⟩ := List.exists_cons_of_ne_nil h
  exact ⟨(one s).extend rest, spans_extend _ _, result_extend _ _⟩

theorem result_eq_joinAll (h : ∀ s ∈ j.spans, s.IsIn text) {spans : List Span}
    (hperm : j.spans.Perm spans) : j.result = Span.joinAll spans := by
  have hne : spans ≠ [] := fun hnil => j.spans_ne_nil (hnil ▸ hperm).eq_nil
  obtain ⟨i, rfl, hresult⟩ := exists_result_eq_joinAll hne
  rw [← hresult]
  exact (result_eq_of_mem_iff h fun s => hperm.mem_iff.symm).symm

end Joining

namespace Span

variable {text : List Char}

theorem joinAll_perm {spans others : List Span} (h : ∀ s ∈ spans, s.IsIn text)
    (hperm : spans.Perm others) : joinAll spans = joinAll others := by
  by_cases hnil : spans = []
  · subst hnil
    rw [hperm.nil_eq]
  · obtain ⟨j, rfl, hresult⟩ := Joining.exists_result_eq_joinAll hnil
    rw [← hresult]
    exact j.result_eq_joinAll h hperm

/-- In one text, joins are again spans of the text, and of two spans with the same bytes there is
only one. So `join` is the least upper bound of a semilattice, and the span of tokens does not
depend on the order and grouping in which their spans are joined. -/
theorem join_semilattice (text : List Char) :
    (∀ s t : Span, s.IsIn text → t.IsIn text →
      (s.join t).IsIn text ∧ s.join t = t.join s ∧ s.join s = s ∧
        ∀ first last, (s.join t).Inside first last ↔ s.Inside first last ∧ t.Inside first last) ∧
    (∀ s t u : Span, s.IsIn text → t.IsIn text → u.IsIn text →
      (s.join t).join u = s.join (t.join u)) ∧
    ∀ tokens : List Token, (∀ t ∈ tokens, !t.isWhitespace → t.span.IsIn text) →
      (∀ others, tokens.Perm others → Token.spanOf others = Token.spanOf tokens) ∧
      ∀ j : Joining, j.spans.Perm ((tokens.filter (!·.isWhitespace)).map (·.span)) →
        j.result = Token.spanOf tokens := by
  refine ⟨?_, ?_, ?_⟩
  · intro s t hs ht
    have hcomm := sup_comm (SpanIn.mk s hs) (SpanIn.mk t ht)
    have hidem := sup_idem (SpanIn.mk s hs)
    exact ⟨hs.join ht, congrArg SpanIn.span hcomm, congrArg SpanIn.span hidem,
      fun _ _ => inside_join_iff⟩
  · intro s t u hs ht hu
    have hassoc := sup_assoc (SpanIn.mk s hs) (SpanIn.mk t ht) (SpanIn.mk u hu)
    exact congrArg SpanIn.span hassoc
  · intro tokens htokens
    have hspans : ∀ s ∈ (tokens.filter (!·.isWhitespace)).map (·.span), s.IsIn text := by
      intro s hs
      obtain ⟨t, ht, rfl⟩ := List.mem_map.1 hs
      obtain ⟨hmem, hsignificant⟩ := List.mem_filter.1 ht
      exact htokens t hmem hsignificant
    constructor
    · intro others hperm
      exact (joinAll_perm hspans ((hperm.filter _).map _)).symm
    · intro j hperm
      exact j.result_eq_joinAll (fun s hs => hspans s (hperm.mem_iff.1 hs)) hperm

private def sampleText : List Char := ['é', ' ', '+', '\n', 'x']

private def sampleToken (kind : Token.Kind) (front covered : List Char) : Token :=
  ⟨kind, some (.ofList covered), covering (.ofText front) covered, "sample"⟩

/-- The span in front, one that reaches over the end of a row, and an empty one inside it. -/
private def sampleTokens : List Token :=
  [sampleToken .identifier [] ['é'], sampleToken .whitespace ['é'] [' '],
    sampleToken .identifier ['é', ' '] ['+', '\n', 'x'], sampleToken .eof ['é', ' ', '+'] []]

private theorem isIn_sampleToken {kind : Token.Kind} {front covered behind : List Char}
    (h : sampleText = front ++ covered ++ behind) :
    (sampleToken kind front covered).span.IsIn sampleText := by
  refine ⟨⟨front, ⟨covered ++ behind, ?_⟩, rfl⟩,
    ⟨front ++ covered, ⟨behind, h.symm⟩, Position.after_ofText _ _⟩⟩
  rw [h, List.append_assoc]

theorem join_semilattice_sample :
    let first := sampleToken .identifier [] ['é']
    let long := sampleToken .identifier ['é', ' '] ['+', '\n', 'x']
    let empty := sampleToken .eof ['é', ' ', '+'] []
    (first.span.join long.span = long.span.join first.span ∧
      (long.span.join empty.span).join first.span = long.span.join (empty.span.join first.span)) ∧
      Token.spanOf sampleTokens.reverse = Token.spanOf sampleTokens ∧
      (Joining.two (.one empty.span) (.two (.one long.span) (.one first.span))).result =
        Token.spanOf sampleTokens := by
  intro first long empty
  have hfirst : first.span.IsIn sampleText := isIn_sampleToken rfl
  have hlong : long.span.IsIn sampleText := isIn_sampleToken rfl
  have hempty : empty.span.IsIn sampleText := isIn_sampleToken rfl
  obtain ⟨hpair, hassoc, htokens⟩ := join_semilattice sampleText
  have hvalid : ∀ t ∈ sampleTokens, !t.isWhitespace → t.span.IsIn sampleText := by
    simp only [sampleTokens, List.forall_mem_cons]
    exact ⟨fun _ => hfirst, fun h => absurd h (by decide), fun _ => hlong, fun _ => hempty,
      fun _ h => nomatch h⟩
  obtain ⟨horder, hgrouping⟩ := htokens sampleTokens hvalid
  refine ⟨⟨(hpair _ _ hfirst hlong).2.1, hassoc _ _ _ hlong hempty hfirst⟩,
    horder _ (List.reverse_perm _).symm, hgrouping _ ?_⟩
  exact List.reverse_perm [first.span, long.span, empty.span]

end Span

end FunImp
