import Mathlib.Data.List.TakeWhile
import FunImp.Proofs.Text.Positions

/-! # Lines of a text

Line feeds separate the lines of a text. The line of an offset is the end of what stands in front of
the offset and the start of what stands behind it, and its number is the row of the offset. -/

namespace FunImp

/-- What stands in front of the first line feed. -/
def firstRow (cs : List Char) : List Char := cs.takeWhile (· ≠ '\n')

/-- What stands behind the last line feed. -/
def lastRow (cs : List Char) : List Char := (cs.reverse.takeWhile (· ≠ '\n')).reverse

section Rows

variable {cs ds : List Char}

theorem firstRow_append (h : '\n' ∉ cs) (ds : List Char) :
    firstRow (cs ++ ds) = cs ++ firstRow ds := by
  have hall : ∀ c ∈ cs, decide (c ≠ '\n') = true := fun c hc =>
    decide_eq_true fun heq => h (heq ▸ hc)
  exact List.takeWhile_append_of_pos hall

theorem firstRow_of_not_mem (h : '\n' ∉ cs) : firstRow cs = cs := by
  have hnil : firstRow [] = [] := rfl
  simpa [hnil] using firstRow_append h []

theorem firstRow_append_of_mem (h : '\n' ∈ cs) (ds : List Char) :
    firstRow (cs ++ ds) = firstRow cs := by
  obtain ⟨row, rest, rfl, hrow⟩ := List.eq_append_cons_of_mem h
  rw [List.append_assoc, firstRow_append hrow, firstRow_append hrow]
  simp [firstRow]

theorem firstRow_prefix_append (cs ds : List Char) : firstRow cs <+: firstRow (cs ++ ds) := by
  by_cases hmem : '\n' ∈ cs
  · exact (firstRow_append_of_mem hmem ds).symm ▸ List.prefix_rfl
  · rw [firstRow_append hmem]
    exact (List.takeWhile_prefix _).trans (List.prefix_append _ _)

theorem lastRow_append (h : '\n' ∉ ds) (cs : List Char) :
    lastRow (cs ++ ds) = lastRow cs ++ ds := by
  have hfree : '\n' ∉ ds.reverse := by simpa using h
  have hrow := firstRow_append hfree cs.reverse
  rw [firstRow] at hrow
  rw [lastRow, List.reverse_append, hrow, List.reverse_append, List.reverse_reverse]
  rfl

theorem lastRow_of_not_mem (h : '\n' ∉ cs) : lastRow cs = cs := lastRow_append h []

theorem lastRow_append_newline (h : '\n' ∉ ds) (cs : List Char) :
    lastRow (cs ++ '\n' :: ds) = ds := by
  have hnil : lastRow (cs ++ ['\n']) = [] := by simp [lastRow]
  rw [List.append_cons, lastRow_append h, hnil, List.nil_append]

theorem exists_lastRow_of_mem (h : '\n' ∈ cs) :
    ∃ earlier, cs = earlier ++ '\n' :: lastRow cs ∧ '\n' ∉ lastRow cs := by
  obtain ⟨row, earlier, hreverse, hrow⟩ := List.eq_append_cons_of_mem (List.mem_reverse.2 h)
  have hcs : cs = earlier.reverse ++ '\n' :: row.reverse := by
    rw [← List.reverse_reverse cs, hreverse]
    simp
  have hfree : '\n' ∉ row.reverse := by simpa using hrow
  have hlast : lastRow cs = row.reverse := hcs ▸ lastRow_append_newline hfree _
  exact ⟨earlier.reverse, hlast ▸ hcs, hlast ▸ hfree⟩

theorem exists_firstRow_of_mem (h : '\n' ∈ cs) :
    ∃ later, cs = firstRow cs ++ '\n' :: later ∧ '\n' ∉ firstRow cs := by
  obtain ⟨row, later, rfl, hrow⟩ := List.eq_append_cons_of_mem h
  have hfirst : firstRow (row ++ '\n' :: later) = row := by
    rw [firstRow_append hrow]
    exact List.append_nil row
  exact ⟨later, by rw [hfirst], hfirst.symm ▸ hrow⟩

theorem head?_splitOn (cs : List Char) : (cs.splitOn '\n').head? = some (firstRow cs) := by
  induction cs with
  | nil => rfl
  | cons c cs ih =>
    rw [List.splitOn_cons_eq_if_modifyHead, firstRow, List.takeWhile_cons]
    by_cases hc : c = '\n'
    · simp [hc]
    · simp [hc, ih, firstRow]

theorem length_splitOn (cs : List Char) : (cs.splitOn '\n').length = cs.count '\n' + 1 := by
  induction cs with
  | nil => rfl
  | cons c cs ih =>
    rw [List.splitOn_cons_eq_if_modifyHead, List.count_cons]
    split
    · rw [List.length_cons, ih]
    · rw [List.length_modifyHead, ih]

theorem getElem?_splitOn (cs ds : List Char) :
    ((cs ++ ds).splitOn '\n')[cs.count '\n']? = some (lastRow cs ++ firstRow ds) := by
  by_cases hmem : '\n' ∈ cs
  · -- The row starts behind the last line feed, and all lines before it end there.
    obtain ⟨earlier, hcs, hfree⟩ := exists_lastRow_of_mem hmem
    have hcount : cs.count '\n' = (earlier.splitOn '\n').length := by
      rw [length_splitOn, hcs, List.count_append, List.count_cons_self,
        List.count_eq_zero_of_not_mem hfree]
    have hsplit : cs ++ ds = earlier ++ '\n' :: (lastRow cs ++ ds) := by
      conv_lhs => rw [hcs]
      simp
    rw [hcount, hsplit, List.splitOn_append_cons_self,
      List.getElem?_append_right (Nat.le_refl _), Nat.sub_self, ← List.head?_eq_getElem?,
      head?_splitOn, firstRow_append hfree]
  · rw [List.count_eq_zero_of_not_mem hmem, ← List.head?_eq_getElem?, head?_splitOn,
      firstRow_append hmem, lastRow_of_not_mem hmem]

end Rows

namespace Source

/-- The lines of the text, which line feeds separate. -/
def lines (source : Source) : List String := (source.chars.splitOn '\n').map .ofList

variable {source : Source} {before coming : List Char}

theorem lineAt_byteLength (h : source.chars = before ++ coming) :
    source.lineAt (byteLength before) = .ofList (lastRow before ++ firstRow coming) := by
  rw [lineAt, h, seek_byteLength, List.append_nil]
  rfl

/-- The line at an offset is numbered by the row of the offset. -/
theorem getElem?_lines (h : source.chars = before ++ coming) :
    source.lines[before.count '\n']? = some (source.lineAt (byteLength before)) := by
  rw [lines, List.getElem?_map, h, getElem?_splitOn, lineAt_byteLength h]
  rfl

end Source

end FunImp
