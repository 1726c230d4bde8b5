import FunImp.Diagnostic.Basic
import FunImp.Proofs.Text.Lines

/-! # Diagnostics that fit their line

A diagnostic can be drawn if its line is the one it names, and the underlined part is inside that
line. This is so wherever the span is that of some stretch of the text that starts with no line
feed. -/

namespace FunImp

/-- The span is that of characters in the text, and the first of them is no line feed. -/
def Source.Marks (source : Source) (span : Span) (covered : List Char) : Prop :=
  covered.head? ≠ some '\n' ∧ ∃ before behind, source.chars = before ++ covered ++ behind ∧
    span.start = .ofText before ∧ span.stop = .ofText (before ++ covered)

/-- The diagnostic tells a line of the source, and can be drawn in it. Only an empty span is not
underlined. -/
structure Diagnostic.Fits (d : Diagnostic) (source : Source) : Prop where
  id : d.source = source.id
  row : 1 ≤ d.span.start.row ∧ d.span.start.row ≤ source.lines.length
  line : source.lines[d.span.start.row - 1]? = some d.line
  column : 1 ≤ d.span.start.column
  width : d.span.start.column - 1 + d.underlineLength ≤ d.line.toList.length
  empty : d.underlineLength = 0 ↔ d.span.isEmpty

theorem Position.column_ofText (cs : List Char) : (ofText cs).column = 1 + (lastRow cs).length := by
  rw [ofText, lastRow, List.length_reverse]

namespace Source.Marks

variable {source : Source} {span : Span} {covered : List Char}

theorem isEmpty_iff (h : source.Marks span covered) : span.isEmpty ↔ covered = [] := by
  obtain ⟨-, before, behind, -, hstart, hstop⟩ := h
  have hlength : span.length = byteLength covered := by
    rw [Span.length, hstart, hstop]
    simp [Position.ofText]
  rw [Span.isEmpty, hlength, beq_iff_eq, byteLength_eq_zero_iff]

theorem firstRow_eq_nil_iff (h : source.Marks span covered) :
    firstRow covered = [] ↔ covered = [] := by
  rcases covered with _ | ⟨c, cs⟩
  · simp [firstRow]
  · have hc : c ≠ '\n' := fun heq => h.1 (congrArg some heq)
    simp [firstRow, hc]

/-- Of a stretch of several rows the first one is underlined. -/
theorem underlineLength_locate (h : source.Marks span covered) (message : String) :
    (Diagnostic.locate source message span).underlineLength = (firstRow covered).length := by
  have hfirst := h.firstRow_eq_nil_iff
  obtain ⟨-, before, behind, hchars, hstart, hstop⟩ := h
  have hrows : span.start.row = span.stop.row ↔ '\n' ∉ covered := by
    rw [hstart, hstop, ← List.count_eq_zero]
    simp [Position.ofText]
  have hcolumn : span.start.column = 1 + (lastRow before).length := by
    rw [hstart, Position.column_ofText]
  simp only [Diagnostic.underlineLength, Diagnostic.locate, hrows]
  split
  · rename_i hfree
    have hstopColumn : span.stop.column = 1 + ((lastRow before).length + covered.length) := by
      rw [hstop, Position.column_ofText, lastRow_append hfree, List.length_append]
    rw [firstRow_of_not_mem hfree, hstopColumn, hcolumn]
    omega
  · rename_i hmem
    rw [Decidable.not_not] at hmem
    have hline : source.lineAt span.start.offset =
        .ofList (lastRow before ++ firstRow covered) := by
      rw [List.append_assoc] at hchars
      rw [hstart, Position.ofText, Source.lineAt_byteLength hchars, firstRow_append_of_mem hmem]
    have hpos : 0 < (firstRow covered).length := by
      rw [List.length_pos_iff, Ne, hfirst]
      exact List.ne_nil_of_mem hmem
    rw [hline, hcolumn, String.toList_ofList, List.length_append]
    omega

theorem fits_locate (h : source.Marks span covered) (message : String) :
    (Diagnostic.locate source message span).Fits source := by
  have hwidth := h.underlineLength_locate message
  have hempty := h.isEmpty_iff
  have hfirst := h.firstRow_eq_nil_iff
  obtain ⟨-, before, behind, hchars, hstart, hstop⟩ := h
  rw [List.append_assoc] at hchars
  have hrow : span.start.row = before.count '\n' + 1 := by
    rw [hstart, Position.ofText, Nat.add_comm]
  have hcolumn : span.start.column = 1 + (lastRow before).length := by
    rw [hstart, Position.column_ofText]
  have hline : source.lines[before.count '\n']? = some (source.lineAt span.start.offset) := by
    rw [Source.getElem?_lines hchars, hstart]
    rfl
  refine ⟨rfl, ⟨?_, ?_⟩, ?_, ?_, ?_, ?_⟩
  · exact hrow ▸ Nat.succ_pos _
  · exact hrow ▸ (List.getElem?_eq_some_iff.1 hline).1
  · exact hrow ▸ hline
  · exact hcolumn ▸ Nat.le_add_right _ _
  · rw [hwidth]
    change span.start.column - 1 + _ ≤ (source.lineAt span.start.offset).toList.length
    rw [hstart, Position.column_ofText, Position.ofText, Source.lineAt_byteLength hchars,
      String.toList_ofList, List.length_append, Nat.add_sub_cancel_left]
    exact Nat.add_le_add_left (firstRow_prefix_append covered behind).length_le _
  · rw [hwidth, List.length_eq_zero_iff, hfirst]
    exact hempty.symm

end Source.Marks

end FunImp
